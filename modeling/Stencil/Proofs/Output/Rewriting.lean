import Stencil.Output.Edit
import Stencil.Proofs.Source.Held
import Mathlib.Data.List.Pairwise

/-!
# What the edits of a source come to

The output is the source with edits applied: the edits are sorted, and a cursor goes along them,
copying what stands between and skipping an edit that starts before it. That is how it is done; what
it comes to should be said without cursor and without skipping.

`Edit.Rewrites` says it: a text is another one with some of its spans replaced, in order, everything
between them kept. Two lemmas connect the two. `rewrites_applyFrom`: edits that follow each other come
to a rewriting. `Rewrites.applyFrom_eq`: what a text is rewritten to is what applying the edits comes
to, so a rewriting that is known by other means is the output.

**The law** (`applyAll_rewrites`): edits that are apart from each other have effect, edits inside of
those have none, in whatever order they were recorded. `effective_eq_filter` carries it: along sorted
edits, one inside of another comes after that one, when the cursor is past it. `Rewrites.applyAll_eq`
is the case of edits that are all apart.

**What it does not establish.** Nothing is said of edits that overlap in part, and nothing of where
the edits come from.
-/

namespace Stencil.Edit

open Text (byteSize)

/-- The text, which starts at the offset `start`, becomes `result` when the span of each edit is
replaced by the edit's text, and all the rest is kept. -/
inductive Rewrites : (start : Nat) → (text : List Char) → List Edit → (result : List Char) → Prop
  | keep (start : Nat) (text : List Char) : Rewrites start text [] text
  | replace {start : Nat} {kept old rest result : List Char} {e : Edit} {es : List Edit} :
      e.span = ⟨start + byteSize kept, start + byteSize kept + byteSize old⟩ →
      Rewrites e.span.stop rest es result →
      Rewrites start (kept ++ old ++ rest) (e :: es) (kept ++ e.text ++ result)

/-! ## Rewritings put together -/

section

variable {start : Nat} {text text' rest rest' : List Char} {es fs : List Edit}

/-- A text in front that is kept. -/
theorem Rewrites.copy (h : Rewrites (start + byteSize text) rest es rest') :
    Rewrites start (text ++ rest) es (text ++ rest') := by
  cases h with
  | keep => exact .keep _ _
  | @replace _ kept old rest result e es hspan hrest =>
    have hspan' : e.span = ⟨start + byteSize (text ++ kept),
        start + byteSize (text ++ kept) + byteSize old⟩ := by
      rw [hspan, Text.byteSize_append, Nat.add_assoc start]
    simpa using Rewrites.replace hspan' hrest

/-- Two texts that follow each other. -/
theorem Rewrites.append (h : Rewrites start text es text')
    (hrest : Rewrites (start + byteSize text) rest fs rest') :
    Rewrites start (text ++ rest) (es ++ fs) (text' ++ rest') := by
  induction h with
  | keep start text => exact hrest.copy
  | @replace start kept old text result e es hspan htext ih =>
    have hstop : e.span.stop = start + byteSize kept + byteSize old := by rw [hspan]
    have hafter := ih (by
      rw [hstop]
      simpa [Nat.add_assoc] using hrest)
    simpa using Rewrites.replace hspan hafter

end

/-! ## Edits in order -/

/-- Edits that follow each other, all of them ahead of the cursor, all have effect. -/
theorem rewrites_applyFrom {source before rest : List Char} {es : List Edit}
    (hsource : source = before ++ rest)
    (hheld : ∀ e ∈ es, ∃ old, e.span.Holds source old)
    (hahead : ∀ e ∈ es, byteSize before ≤ e.span.start)
    (horder : es.Pairwise fun a b => a.span.stop ≤ b.span.start) :
    Rewrites (byteSize before) rest es (applyFrom source (byteSize before) es) := by
  induction es generalizing before rest with
  | nil =>
    rw [applyFrom, hsource, Text.dropBytes_append]
    exact .keep _ _
  | cons e es ih =>
    obtain ⟨old, hold⟩ := hheld e (by simp)
    have hstart := hahead e (by simp)
    have hfits := hold.stop_le
    obtain ⟨left, right, heq, hspan⟩ := hold
    have hleft : e.span.start = byteSize left := by rw [hspan]
    -- the cursor stands before the edit, so what is kept lies between the two
    obtain ⟨kept, rfl⟩ : before <+: left :=
      Text.prefix_of_byteSize_le ⟨rest, hsource.symm⟩ ⟨old ++ right, by rw [heq, List.append_assoc]⟩
        (by omega)
    obtain rfl : rest = kept ++ old ++ right :=
      List.append_cancel_left (by rw [← hsource, heq]; simp)
    have hstop : e.span.stop = byteSize (before ++ kept ++ old) := by
      rw [hspan, Text.byteSize_append (before ++ kept)]
    have hslice : Text.slice (byteSize before) e.span.start source = kept := by
      rw [hleft, Text.byteSize_append, hsource, Text.slice, Text.dropBytes_append,
        Nat.add_sub_cancel_left, List.append_assoc, Text.takeBytes_append]
    have hsource' : source = before ++ kept ++ old ++ right := by simp [heq]
    have hrest := ih hsource'
      (fun e' he' => hheld e' (List.mem_cons_of_mem _ he'))
      (fun e' he' => hstop ▸ List.rel_of_pairwise_cons horder he') horder.of_cons
    rw [applyFrom, if_neg (by simp; omega), hslice, hstop]
    refine .replace ?_ (hstop ▸ hrest)
    rw [hspan, Text.byteSize_append]

/-- What a text is rewritten to is what applying the edits to it comes to. -/
theorem Rewrites.applyFrom_eq {source before rest result : List Char} {start : Nat} {es : List Edit}
    (h : Rewrites start rest es result) (hsource : source = before ++ rest)
    (hstart : start = byteSize before) : applyFrom source start es = result := by
  -- The induction is on the rewriting; the text in front of the cursor grows with it.
  induction h generalizing before with
  | keep start rest => rw [applyFrom, hsource, hstart, Text.dropBytes_append]
  | @replace start kept old rest result e es hspan _ ih =>
    have hbefore : e.span.start = byteSize (before ++ kept) := by
      rw [hspan, hstart, Text.byteSize_append]
    have hstop : e.span.stop = byteSize (before ++ kept ++ old) := by
      rw [hspan, hstart, Text.byteSize_append, Text.byteSize_append]
    have hsource' : source = before ++ kept ++ old ++ rest := by simp [hsource]
    have hfits : e.span.stop ≤ byteSize source := by
      rw [hstop, hsource', Text.byteSize_append _ rest]
      exact Nat.le_add_right _ _
    have hslice : Text.slice start e.span.start source = kept := by
      rw [hbefore, hstart, Text.byteSize_append, hsource, Text.slice, Text.dropBytes_append,
        Nat.add_sub_cancel_left, List.append_assoc, Text.takeBytes_append]
    have hahead : start ≤ e.span.start := by
      rw [hbefore, hstart, Text.byteSize_append]
      exact Nat.le_add_right _ _
    rw [applyFrom, if_neg (by simp; omega), hslice, ih hsource' hstop]

/-- The edits of a rewriting follow each other. -/
theorem Rewrites.order {start : Nat} {text result : List Char} {es : List Edit}
    (h : Rewrites start text es result) :
    (∀ e ∈ es, start ≤ e.span.start ∧ e.span.start ≤ e.span.stop) ∧
      es.Pairwise fun a b => a.span.stop ≤ b.span.start := by
  induction h with
  | keep start text => exact ⟨by simp, .nil⟩
  | @replace start kept old rest result e es hspan _ ih =>
    have hfirst : start ≤ e.span.start ∧ e.span.start ≤ e.span.stop := by
      rw [hspan]
      exact ⟨Nat.le_add_right _ _, Nat.le_add_right _ _⟩
    refine ⟨fun f hf => ?_, List.pairwise_cons.2 ⟨fun f hf => (ih.1 f hf).1, ih.2⟩⟩
    rcases List.mem_cons.1 hf with rfl | hf
    · exact hfirst
    · obtain ⟨hstart, hproper⟩ := ih.1 f hf
      exact ⟨by omega, hproper⟩

/-! ## Edits inside of others -/

/-- The order in which edits are applied is transitive. -/
theorem le_trans (a b c : Edit) (hab : le a b = true) (hbc : le b c = true) : le a c = true := by
  simp only [le, Bool.or_eq_true, Bool.and_eq_true, decide_eq_true_eq, beq_iff_eq] at *
  omega

/-- Of any two edits, one is applied first. -/
theorem le_total (a b : Edit) : (le a b || le b a) = true := by
  simp only [le, Bool.or_eq_true, Bool.and_eq_true, decide_eq_true_eq, beq_iff_eq]
  omega

/-- An edit that is applied first does not start later. -/
theorem start_le_of_le {a b : Edit} (h : le a b = true) : a.span.start ≤ b.span.start := by
  simp only [le, Bool.or_eq_true, Bool.and_eq_true, decide_eq_true_eq, beq_iff_eq] at h
  omega

/-- An edit inside of another one comes after it. -/
theorem not_le_of_inside {a b : Edit} (h : a.span.Inside b.span) : ¬ le a b = true := by
  obtain ⟨hstart, hstop, hne⟩ := h
  simp only [le, Bool.or_eq_true, Bool.and_eq_true, decide_eq_true_eq, beq_iff_eq]
  rintro (hlt | ⟨heq, hle⟩)
  · omega
  · obtain ⟨⟨s, t⟩, x⟩ := a
    obtain ⟨⟨s', t'⟩, x'⟩ := b
    apply hne
    simp only at *
    rw [heq, Nat.le_antisymm hstop hle]

/-- The edits that have effect: those that are ahead of the cursor when they are looked at. -/
def effective (source : List Char) : (cursor : Nat) → List Edit → List Edit
  | _, [] => []
  | cursor, e :: es =>
    if e.span.start < cursor || byteSize source < e.span.stop then effective source cursor es
    else e :: effective source e.span.stop es

/-- The edits without effect can be left out. -/
theorem applyFrom_effective (source : List Char) (cursor : Nat) (es : List Edit) :
    applyFrom source cursor (effective source cursor es) = applyFrom source cursor es := by
  fun_induction effective source cursor es with
  | case1 => rfl
  | case2 cursor e es hskip ih => rw [applyFrom, if_pos hskip, ih]
  | case3 cursor e es hahead ih => rw [applyFrom, applyFrom, if_neg hahead, if_neg hahead, ih]

/-- The edits that have effect stand in the order of all. -/
theorem effective_sublist (source : List Char) (cursor : Nat) (es : List Edit) :
    (effective source cursor es).Sublist es := by
  fun_induction effective source cursor es with
  | case1 => exact .slnil
  | case2 cursor e es hskip ih => exact ih.cons e
  | case3 cursor e es hahead ih => exact ih.cons_cons e

/-- Of edits in order, those inside of others have no effect, as the others come first and carry the
cursor past them. -/
theorem effective_eq_filter (isOuter : Edit → Bool) {source : List Char} {cursor : Nat}
    {es : List Edit} (hsorted : es.Pairwise fun a b => le a b = true)
    (hapart : (es.filter isOuter).Pairwise fun a b => a.span.Apart b.span)
    (hproper : ∀ e ∈ es, e.span.start < e.span.stop ∧ e.span.stop ≤ byteSize source)
    (hahead : ∀ e ∈ es, isOuter e = true → cursor ≤ e.span.start)
    (hinside : ∀ e ∈ es, ¬ isOuter e = true →
      e.span.start < cursor ∨ ∃ o ∈ es, isOuter o = true ∧ e.span.Inside o.span) :
    effective source cursor es = es.filter isOuter := by
  -- The invariant is that the cursor is past every edit without effect whose outer edit was applied,
  -- and not past any outer one.
  induction es generalizing cursor with
  | nil => rfl
  | cons e es ih =>
    have hproper' := fun e' he' => hproper e' (List.mem_cons_of_mem _ he')
    by_cases hp : isOuter e = true
    · obtain ⟨hlt, hfits⟩ := hproper e (by simp)
      have hstart := hahead e (by simp) hp
      rw [List.filter_cons_of_pos hp] at hapart ⊢
      rw [effective, if_neg (by simp; omega)]
      congr 1
      refine ih hsorted.of_cons hapart.of_cons hproper' ?_ ?_
      · intro e' he' hp'
        have hle := start_le_of_le (List.rel_of_pairwise_cons hsorted he')
        have hlt' := (hproper' e' he').1
        rcases List.rel_of_pairwise_cons hapart (List.mem_filter.2 ⟨he', hp'⟩) with h | h <;> omega
      · intro e' he' hp'
        have hle := start_le_of_le (List.rel_of_pairwise_cons hsorted he')
        rcases hinside e' (List.mem_cons_of_mem _ he') hp' with h | ⟨o, ho, hpo, hin⟩
        · omega
        · rcases List.mem_cons.1 ho with rfl | ho
          · have hlt' := (hproper' e' he').1
            have hstop := hin.2.1
            left; omega
          · exact .inr ⟨o, ho, hpo, hin⟩
    · have hskip : e.span.start < cursor := by
        rcases hinside e (by simp) hp with h | ⟨o, ho, hpo, hin⟩
        · exact h
        · rcases List.mem_cons.1 ho with rfl | ho
          · exact absurd hpo hp
          · exact absurd (List.rel_of_pairwise_cons hsorted ho) (not_le_of_inside hin)
      rw [List.filter_cons_of_neg hp] at hapart ⊢
      rw [effective, if_pos (by simp [hskip])]
      refine ih hsorted.of_cons hapart hproper'
        (fun e' he' => hahead e' (List.mem_cons_of_mem _ he')) ?_
      intro e' he' hp'
      rcases hinside e' (List.mem_cons_of_mem _ he') hp' with h | ⟨o, ho, hpo, hin⟩
      · exact .inl h
      · rcases List.mem_cons.1 ho with rfl | ho
        · exact absurd hpo hp
        · exact .inr ⟨o, ho, hpo, hin⟩

/-! ## Edits in any order -/

/-- Edits that are apart from each other do not lie in each other. -/
theorem not_inside_of_apart {es : List Edit} (hapart : es.Pairwise fun a b => a.span.Apart b.span)
    (hproper : ∀ e ∈ es, e.span.start < e.span.stop) {a b : Edit} (ha : a ∈ es) (hb : b ∈ es) :
    ¬ a.span.Inside b.span := by
  rintro ⟨hstart, hstop, hne⟩
  have hsymm : Std.Symm fun a b : Edit => a.span.Apart b.span := ⟨fun _ _ h => h.symm⟩
  have hab : a ≠ b := fun h => hne (congrArg span h)
  have ha' := hproper a ha
  have hb' := hproper b hb
  rcases hapart.forall ha hb hab with h | h <;> omega

/-- Edits whose order comes to a rewriting come to it in whatever order they were recorded. -/
theorem Rewrites.applyAll_eq {source target : List Char} {es fs : List Edit}
    (h : Rewrites 0 source fs target) (hperm : es.Perm fs)
    (hproper : ∀ e ∈ fs, e.span.start < e.span.stop) : applyAll source es = target := by
  have horder : fs.Pairwise fun a b => le a b = true := by
    refine h.order.2.imp_of_mem fun {a b} ha _ hab => ?_
    have := hproper a ha
    simp only [le, Bool.or_eq_true, decide_eq_true_eq]
    omega
  have hsymm : Std.Symm fun a b : Edit => a.span.Apart b.span := ⟨fun _ _ h => h.symm⟩
  have hapart : fs.Pairwise fun a b => a.span.Apart b.span := h.order.2.imp .inl
  -- Sorted edits with the same members are the same list if no two of them can stand in either order.
  have hsort : es.mergeSort le = fs := by
    have hmem := (List.mergeSort_perm es le).trans hperm
    refine hmem.eq_of_pairwise ?_ (List.pairwise_mergeSort le_trans le_total es) horder
    intro a b ha hb hab hba
    by_contra hne
    have ha := hmem.mem_iff.1 ha
    have hab := start_le_of_le hab
    have hba := start_le_of_le hba
    have := hproper a ha
    have := hproper b hb
    rcases hapart.forall ha hb hne with h | h <;> omega
  rw [applyAll, hsort]
  exact h.applyFrom_eq (List.nil_append source).symm rfl

/-- The edits that have effect are those that are apart from each other, one behind the other, when all
the rest lies inside of these. -/
theorem effective_of_nested {source : List Char} {es outer nested : List Edit}
    (hperm : es.Perm (outer ++ nested))
    (hproper : ∀ o ∈ outer, o.span.start < o.span.stop ∧ o.span.stop ≤ byteSize source)
    (hapart : outer.Pairwise fun a b => a.span.Apart b.span)
    (hnested : ∀ n ∈ nested, n.span.start < n.span.stop ∧ ∃ o ∈ outer, n.span.Inside o.span) :
    (effective source 0 (es.mergeSort le)).Perm outer ∧
      (effective source 0 (es.mergeSort le)).Pairwise fun a b => a.span.stop ≤ b.span.start := by
  let isOuter (e : Edit) : Bool := decide (∀ o ∈ outer, ¬ e.span.Inside o.span)
  have houter : ∀ o ∈ outer, isOuter o = true := by
    intro o ho
    simp only [isOuter, decide_eq_true_eq]
    intro o' ho' hin
    exact not_inside_of_apart hapart (fun o ho => (hproper o ho).1) ho ho' hin
  have hnot : ∀ n ∈ nested, ¬ isOuter n = true := by
    intro n hn hp
    obtain ⟨-, o, ho, hin⟩ := hnested n hn
    exact of_decide_eq_true hp o ho hin
  have hsort := (List.mergeSort_perm es le).trans hperm
  have hfilter : ((es.mergeSort le).filter isOuter).Perm outer := by
    have h := hsort.filter isOuter
    rwa [List.filter_append, List.filter_eq_self.2 houter, List.filter_eq_nil_iff.2 hnot,
      List.append_nil] at h
  have hsorted := List.pairwise_mergeSort le_trans le_total es
  have hapart' : ((es.mergeSort le).filter isOuter).Pairwise fun a b => a.span.Apart b.span :=
    hfilter.symm.pairwise hapart fun h => h.symm
  have hmem : ∀ e ∈ es.mergeSort le, e ∈ outer ∨ e ∈ nested := fun e he =>
    List.mem_append.1 (hsort.mem_iff.1 he)
  rw [effective_eq_filter isOuter hsorted hapart' ?proper (by simp) ?inside]
  case proper =>
    intro e he
    rcases hmem e he with ho | hn
    · exact hproper e ho
    · obtain ⟨hlt, o, ho, -, hstop, -⟩ := hnested e hn
      exact ⟨hlt, Nat.le_trans hstop (hproper o ho).2⟩
  case inside =>
    intro e he hp
    rcases hmem e he with ho | hn
    · exact absurd (houter e ho) hp
    · obtain ⟨-, o, ho, hin⟩ := hnested e hn
      exact .inr ⟨o, hsort.mem_iff.2 (List.mem_append_left _ ho), houter o ho, hin⟩
  refine ⟨hfilter, ?_⟩
  -- of two edits that are apart, the one that comes first ends before the other starts
  refine ((hsorted.filter isOuter).and hapart').imp_of_mem ?_
  rintro a b ha hb ⟨hle, happ⟩
  have hstart := start_le_of_le hle
  have hb := (hproper b (hfilter.mem_iff.1 hb)).1
  rcases happ with h | h <;> omega

/-- Edits that are apart from each other have effect, and edits inside of those have none. -/
theorem applyAll_rewrites {source : List Char} {es outer nested : List Edit}
    (hperm : es.Perm (outer ++ nested))
    (hheld : ∀ e ∈ outer, ∃ old, old ≠ [] ∧ e.span.Holds source old)
    (hapart : outer.Pairwise fun a b => a.span.Apart b.span)
    (hnested : ∀ n ∈ nested, n.span.start < n.span.stop ∧ ∃ o ∈ outer, n.span.Inside o.span) :
    ∃ changes : List Edit, changes.Perm outer ∧ Rewrites 0 source changes (applyAll source es) := by
  have hproper : ∀ o ∈ outer, o.span.start < o.span.stop ∧ o.span.stop ≤ byteSize source := by
    intro o ho
    obtain ⟨old, hne, hold⟩ := hheld o ho
    exact ⟨hold.start_lt hne, hold.stop_le⟩
  obtain ⟨hchanges, horder⟩ := effective_of_nested hperm hproper hapart hnested
  refine ⟨_, hchanges, ?_⟩
  rw [applyAll, ← applyFrom_effective]
  refine rewrites_applyFrom (List.nil_append source).symm ?_ (fun _ _ => Nat.zero_le _) horder
  intro e he
  obtain ⟨old, -, hold⟩ := hheld e (hchanges.mem_iff.1 he)
  exact ⟨old, hold⟩

end Stencil.Edit
