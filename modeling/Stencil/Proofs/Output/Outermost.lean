import Stencil.Proofs.Compile.Bounds

/-!
# Nested edits

The parts of an expression are rewritten one by one, and a part may lie in another one. Which edit has
effect must not depend on the order in which they were recorded.

**The law** (`Edit.applyAll_nested`): of edits whose spans are nested or apart and not empty, those
have effect that lie in no other one. If each of these cuts a piece out of the source, the result is
the source with these pieces replaced, everything else kept; if one of them does not, no result comes
of them with the check. In any other order the same edits come to the same result.

Edits are sorted before they are applied. Sorting forgets the order of recording
(`Nested.mergeSort_perm`), as no two edits of the family have the same span, and what has effect of
the sorted ones are the outermost ones (`Nested.effective_perm`, from Proofs/Output/Rewriting). Every
edit lies in an outermost one by going outwards, which leaves less of the source uncovered at every
step.

Edits that touch are apart, and of edits that start or end together the wider one has effect.

**What it does not establish.** Edits that overlap without one lying in the other are outside of the
law.
-/

namespace Stencil

open Text (byteSize isBoundary)

/-- A span is its two ends. -/
theorem Span.eq_of_ends {a b : Span} (hstart : a.start = b.start) (hstop : a.stop = b.stop) :
    a = b := by
  cases a
  cases b
  rw [Span.mk.injEq]
  exact ⟨hstart, hstop⟩

instance (a b : Span) : Decidable (a.Apart b) := inferInstanceAs (Decidable (_ ∨ _))

namespace Edit

variable {source : List Char} {es fs : List Edit} {e : Edit}

/-- The edits whose spans lie in no other span. -/
def outermost (es : List Edit) : List Edit :=
  es.filter fun e => decide (∀ o ∈ es, ¬ e.span.Inside o.span)

/-- No edit is at an empty span or reaches past the end of the source. Of two edits one lies inside of
the other, or none reaches into the other; so no span has two edits. -/
structure Nested (source : List Char) (es : List Edit) : Prop where
  proper : ∀ e ∈ es, e.span.start < e.span.stop
  stop_le : ∀ e ∈ es, e.span.stop ≤ byteSize source
  apart_or_inside : es.Pairwise fun a b =>
    a.span.Apart b.span ∨ a.span.Inside b.span ∨ b.span.Inside a.span

/-- The outermost edits are those that lie in no other one. -/
theorem mem_outermost : e ∈ outermost es ↔ e ∈ es ∧ ∀ o ∈ es, ¬ e.span.Inside o.span := by
  rw [outermost, List.mem_filter, decide_eq_true_eq]

/-- Every edit that lies in another one lies in an outermost one: each step outwards leaves less of the
source outside. -/
theorem exists_outermost (hstop : ∀ e ∈ es, e.span.stop ≤ byteSize source) (he : e ∈ es)
    (hnot : e ∉ outermost es) : ∃ o ∈ outermost es, e.span.Inside o.span := by
  induction hroom : e.span.start + (byteSize source - e.span.stop) using Nat.strongRecOn
    generalizing e with
  | ind room ih =>
    -- The measure is what the span leaves of the source: an edit further out leaves less.
    obtain ⟨o, ho, hin⟩ : ∃ o ∈ es, e.span.Inside o.span := by
      by_contra hnone
      exact hnot (mem_outermost.2 ⟨he, fun o ho hin => hnone ⟨o, ho, hin⟩⟩)
    by_cases houter : o ∈ outermost es
    · exact ⟨o, houter, hin⟩
    · have hstop' := hstop o ho
      obtain ⟨hstart, hle, hne⟩ := hin
      have hwider : o.span.start < e.span.start ∨ e.span.stop < o.span.stop := by
        by_contra hsame
        exact hne (Span.eq_of_ends (by omega) (by omega))
      obtain ⟨p, hp, hstart', hle', hne'⟩ := ih _ (by omega) ho houter rfl
      refine ⟨p, hp, Nat.le_trans hstart' hstart, Nat.le_trans hle hle', fun heq => ?_⟩
      -- an edit of the span of the wider one would lie inside of itself
      rw [← heq] at hstart' hle'
      omega

/-- If something comes of the edits, the cursor and the ends of those that have effect are between
characters of the source. -/
theorem boundaries_of_applyFrom? {cursor : Nat} {result : List Char}
    (h : applyFrom? source cursor es = some result) :
    isBoundary cursor source = true ∧ ∀ e ∈ effective source cursor es,
      isBoundary e.span.start source = true ∧ isBoundary e.span.stop source = true := by
  -- An edit that is skipped leaves the cursor; one that has effect needs the cursor and its own ends
  -- to be between characters.
  induction es generalizing cursor result with
  | nil =>
    rw [applyFrom?, Text.dropBytes?, Option.ite_none_right_eq_some] at h
    exact ⟨h.1, fun e he => absurd he List.not_mem_nil⟩
  | cons e es ih =>
    rw [applyFrom?] at h
    rw [effective]
    split at h
    · next hskip =>
      rw [if_pos hskip]
      exact ih h
    · next hahead =>
      rw [if_neg hahead]
      obtain ⟨kept, hkept, h⟩ := Option.bind_eq_some_iff.1 h
      obtain ⟨rest, hrest, -⟩ := Option.bind_eq_some_iff.1 h
      obtain ⟨⟨-, hcursor⟩, hstart⟩ : (cursor ≤ e.span.start ∧ isBoundary cursor source = true) ∧
          isBoundary e.span.start source = true := by
        rw [Text.slice?, Option.ite_none_right_eq_some] at hkept
        simpa using hkept.1
      obtain ⟨hstop, hes⟩ := ih hrest
      exact ⟨hcursor, List.forall_mem_cons.2 ⟨⟨hstart, hstop⟩, hes⟩⟩

namespace Nested

/-- Two edits of the same span are the same edit. -/
theorem eq_of_span (h : Nested source es) {a b : Edit} (ha : a ∈ es) (hb : b ∈ es)
    (hspan : a.span = b.span) : a = b := by
  have hsymm : Std.Symm fun a b : Edit =>
      a.span.Apart b.span ∨ a.span.Inside b.span ∨ b.span.Inside a.span :=
    ⟨fun a b hab => hab.imp Span.Apart.symm Or.symm⟩
  by_contra hne
  have hproper := h.proper b hb
  rcases h.apart_or_inside.forall ha hb hne with hapart | hin | hin
  · rw [hspan] at hapart
    rcases hapart with hle | hle <;> omega
  · exact hin.2.2 hspan
  · exact hin.2.2 hspan.symm

/-- The outermost edits are apart from each other. -/
theorem apart_outermost (h : Nested source es) :
    (outermost es).Pairwise fun a b => a.span.Apart b.span := by
  refine (h.apart_or_inside.filter _).imp_of_mem fun {a b} ha hb hab => ?_
  obtain ⟨ha, hnotA⟩ := mem_outermost.1 ha
  obtain ⟨hb, hnotB⟩ := mem_outermost.1 hb
  rcases hab with hapart | hin | hin
  · exact hapart
  · exact absurd hin (hnotA b hb)
  · exact absurd hin (hnotB a ha)

/-- Sorting forgets the order in which the edits were recorded. -/
theorem mergeSort_perm (h : Nested source es) (hperm : fs.Perm es) :
    fs.mergeSort le = es.mergeSort le := by
  have hsorted := (List.mergeSort_perm fs le).trans (hperm.trans (List.mergeSort_perm es le).symm)
  refine hsorted.eq_of_pairwise ?_ (List.pairwise_mergeSort le_trans le_total fs)
    (List.pairwise_mergeSort le_trans le_total es)
  intro a b ha hb hab hba
  refine h.eq_of_span (hperm.mem_iff.1 (List.mem_mergeSort.1 ha)) (List.mem_mergeSort.1 hb) ?_
  simp only [le, Bool.or_eq_true, Bool.and_eq_true, decide_eq_true_eq, beq_iff_eq] at hab hba
  exact Span.eq_of_ends (by omega) (by omega)

/-- The edits that have effect are the outermost ones, one behind the other. -/
theorem effective_perm (h : Nested source es) :
    (effective source 0 (es.mergeSort le)).Perm (outermost es) ∧
      (effective source 0 (es.mergeSort le)).Pairwise fun a b => a.span.stop ≤ b.span.start := by
  let inner := es.filter fun e => !decide (∀ o ∈ es, ¬ e.span.Inside o.span)
  have hperm : es.Perm (outermost es ++ inner) :=
    (List.filter_append_perm _ es).symm
  refine effective_of_nested hperm (fun o ho => ?_) h.apart_outermost fun n hn => ?_
  · have ho := (mem_outermost.1 ho).1
    exact ⟨h.proper o ho, h.stop_le o ho⟩
  · obtain ⟨hmem, hinside⟩ := List.mem_filter.1 hn
    have hnot : n ∉ outermost es := fun houter => by
      obtain ⟨o, ho, hin⟩ : ∃ o ∈ es, n.span.Inside o.span := by simpa using hinside
      exact (mem_outermost.1 houter).2 o ho hin
    exact ⟨h.proper n hmem, exists_outermost h.stop_le hmem hnot⟩

end Nested

/-- Edits that are nested or apart come to the source with each span that lies in no other one replaced
by its text, whatever lies inside of it, and all the rest kept. Nothing comes of them only if one of
these spans starts or ends inside of a character. The order in which they were recorded does not
matter. -/
theorem applyAll_nested (h : Nested source es) :
    ((∀ e ∈ outermost es, e.span.Cuts source) →
      applyAll? source es = some (applyAll source es) ∧
      ∃ changes : List Edit, changes.Perm (outermost es) ∧
        Rewrites 0 source changes (applyAll source es)) ∧
    (applyAll? source es ≠ none → ∀ e ∈ outermost es, e.span.Cuts source) ∧
    ∀ fs : List Edit, fs.Perm es →
      applyAll source fs = applyAll source es ∧ applyAll? source fs = applyAll? source es := by
  obtain ⟨hperm, horder⟩ := h.effective_perm
  -- Three parts: what comes of the edits if they cut, that they cut if anything comes of them, and
  -- any order.
  refine ⟨fun hcuts => ?_, fun hsome e he => ?_, fun fs hfs => ?_⟩
  · have hcuts' : ∀ e ∈ effective source 0 (es.mergeSort le), e.span.Cuts source := fun e he =>
      hcuts e (hperm.mem_iff.1 he)
    refine ⟨?_, _, hperm, ?_⟩
    · exact applyFrom?_eq (Text.isBoundary_zero source) fun e he => (hcuts' e he).fits
    · rw [applyAll, ← applyFrom_effective]
      refine rewrites_applyFrom (List.nil_append source).symm ?_ (fun _ _ => Nat.zero_le _) horder
      intro e he
      obtain ⟨old, -, hold⟩ := (hcuts' e he).holds
      exact ⟨old, hold⟩
  · obtain ⟨result, hresult⟩ := Option.ne_none_iff_exists'.1 hsome
    obtain ⟨hstart, hstop⟩ := (boundaries_of_applyFrom? hresult).2 e (hperm.mem_iff.2 he)
    exact ⟨hstart, hstop, h.proper e (mem_outermost.1 he).1⟩
  · rw [applyAll, applyAll, applyAll?, applyAll?, h.mergeSort_perm hfs]
    exact ⟨rfl, rfl⟩

/-- An edit that touches a wide one is apart from it. Two edits that share an end with the wide one lie
in it, and have no effect whenever they are recorded. -/
theorem applyAll_nested_touching :
    let source := "aé(b)c".toList
    let es : List Edit :=
      [⟨⟨3, 5⟩, "p".toList⟩, ⟨⟨5, 6⟩, "y".toList⟩, ⟨⟨1, 5⟩, "x".toList⟩, ⟨⟨1, 3⟩, "q".toList⟩]
    Nested source es ∧ (∀ e ∈ outermost es, e.span.Cuts source) ∧
      applyAll? source es.reverse = some "axyc".toList := by
  intro source es
  have hnested : Nested source es := ⟨by decide, by decide, by decide⟩
  have houter : outermost es = [⟨⟨5, 6⟩, "y".toList⟩, ⟨⟨1, 5⟩, "x".toList⟩] := by decide
  have hcuts : ∀ e ∈ outermost es, e.span.Cuts source := by
    rw [houter, List.forall_mem_cons, List.forall_mem_singleton]
    exact ⟨⟨by decide, by decide, by decide⟩, ⟨by decide, by decide, by decide⟩⟩
  obtain ⟨hcut, -, hany⟩ := applyAll_nested hnested
  have hsort : es.mergeSort le = [⟨⟨1, 5⟩, "x".toList⟩, ⟨⟨1, 3⟩, "q".toList⟩, ⟨⟨3, 5⟩, "p".toList⟩,
      ⟨⟨5, 6⟩, "y".toList⟩] := by
    simp [es, List.mergeSort, List.MergeSort.Internal.splitInTwo, le]
  have hresult : applyAll source es = "axyc".toList := by
    rw [applyAll, hsort]
    decide +kernel
  refine ⟨hnested, hcuts, ?_⟩
  rw [(hany es.reverse es.reverse_perm).2, (hcut hcuts).1, hresult]

end Edit

end Stencil
