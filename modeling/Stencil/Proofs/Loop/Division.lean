import Stencil.Loop
import Stencil.Proofs.Text.Trim
import Stencil.Proofs.Token.Cursor

/-!
# Where a loop definition is divided

A definition is divided at the first word `in` or `of` that stands by itself.

**The result** (`LoopDefinition.divide_append`): a declaration in which no such word stands is found
as it was written, whatever the iterable behind it holds: more such words may stand there.
`Text.Stands` says that a word stands in a text by itself, between white space or at an end, and there
are lemmas for the ways texts are put together: around a character that is none of the word's own
(`Stands.append_cons`), with a gap (`Stands.append`), with white space around (`stands_trim`).

The division tries every place in turn, from the front; at a place where no separator starts it goes
on, so the proof goes along the declaration (`divideAtSeparator_append`). A separator that starts in
the declaration would have to end in it, as white space must follow (`afterSeparator?_append`).

The last section opens the reading of a definition: `parse_eq_ok` and `read_eq_ok` say what a
definition that is accepted consists of.

**What it does not establish.** Which definitions are refused, and with what error, is not described.
-/

namespace Stencil

namespace Text

variable {w cs ds : List Char}

/-- The word stands in the text by itself: on each side of it is white space or an end of the text. -/
def Stands (w cs : List Char) : Prop :=
  ∃ before after, cs = before ++ (w ++ after) ∧
    (∀ c, before.getLast? = some c → isWhiteSpace c = true) ∧
    ∀ c, after.head? = some c → isWhiteSpace c = true

/-- No word stands in an empty text. -/
theorem not_stands_nil (hne : w ≠ []) : ¬ Stands w [] := by
  rintro ⟨before, after, hcs, -, -⟩
  simp [hne] at hcs

/-- A word stands on one side of a character that is none of its own. -/
theorem Stands.append_cons {c : Char} (hc : c ∉ w) (h : Stands w (cs ++ c :: ds)) :
    Stands w cs ∨ Stands w ds := by
  obtain ⟨before, after, heq, hbefore, hafter⟩ := h
  rw [← List.append_assoc] at heq
  rcases List.append_eq_append_iff.1 heq with ⟨rest, hrest, hds⟩ | ⟨rest, rfl, hafter'⟩
  · rcases List.append_eq_append_iff.1 hrest with ⟨tail, rfl, rfl⟩ | ⟨tail, hbefore', rfl⟩
    · cases rest with
      | nil => exact .inl ⟨before, [], by simp, hbefore, nofun⟩
      | cons d rest =>
        -- the word would reach over the character
        obtain ⟨rfl, -⟩ := List.cons.inj hds
        exact absurd (by simp) hc
    · cases tail with
      | nil =>
        cases w with
        | nil => exact .inl ⟨cs, [], by simp, by simpa [hbefore'] using hbefore, nofun⟩
        | cons d w =>
          obtain ⟨rfl, -⟩ := List.cons.inj hds
          exact absurd List.mem_cons_self hc
      | cons d tail =>
        obtain ⟨rfl, rfl⟩ := List.cons.inj hds
        refine .inr ⟨tail, after, List.append_assoc tail w after, fun e he => hbefore e ?_, hafter⟩
        rw [hbefore', List.getLast?_append, List.getLast?_cons, he]
        rfl
  · refine .inl ⟨before, rest, by rw [List.append_assoc], hbefore, fun d hd => hafter d ?_⟩
    rw [hafter', List.head?_append, hd]
    rfl

/-- A word does not stand in a run of characters that are none of its own. -/
theorem Stands.of_append {gap : List Char} (hgap : ∀ c ∈ gap, c ∉ w) (hne : w ≠ [])
    (h : Stands w (gap ++ cs)) : Stands w cs := by
  induction gap with
  | nil => exact h
  | cons c gap ih =>
    have h' : Stands w ([] ++ c :: (gap ++ cs)) := h
    rcases h'.append_cons (hgap c List.mem_cons_self) with hnil | hrest
    · exact absurd hnil (not_stands_nil hne)
    · exact ih (fun d hd => hgap d (List.mem_cons_of_mem c hd)) hrest

/-- A word that stands in two texts with a gap between them stands in one of them. -/
theorem Stands.append {gap : List Char} (hgap : ∀ c ∈ gap, c ∉ w) (hne : w ≠ []) (hgap' : gap ≠ [])
    (h : Stands w (cs ++ (gap ++ ds))) : Stands w cs ∨ Stands w ds := by
  obtain ⟨c, gap, rfl⟩ := List.exists_cons_of_ne_nil hgap'
  rcases h.append_cons (hgap c List.mem_cons_self) with h | h
  · exact .inl h
  · exact .inr (h.of_append (fun d hd => hgap d (List.mem_cons_of_mem c hd)) hne)

/-- The only word that stands in a text without white space is the text. -/
theorem Stands.eq_of_forall (h : Stands w cs) (hcs : ∀ c ∈ cs, isWhiteSpace c = false) : cs = w := by
  obtain ⟨before, after, rfl, hbefore, hafter⟩ := h
  obtain rfl : before = [] := by
    by_contra hne
    have hlast := List.getLast?_eq_some_getLast hne
    simpa [hbefore _ hlast] using hcs _ (List.mem_append_left _ (List.mem_of_getLast? hlast))
  obtain rfl : after = [] := by
    cases after with
    | nil => rfl
    | cons c after => simpa [hafter c rfl] using hcs c (by simp)
  simp

/-- White space around a text does not change which words stand in it. -/
theorem stands_trim (hne : w ≠ []) (hw : ∀ c ∈ w, isWhiteSpace c = false) :
    Stands w (trim cs) ↔ Stands w cs := by
  obtain ⟨front, back, heq, hfront, hback⟩ := exists_trim cs
  have hnot {c : Char} (hc : isWhiteSpace c = true) : c ∉ w := fun hmem => by simp [hw c hmem] at hc
  constructor
  · rintro ⟨before, after, htrim, hbefore, hafter⟩
    refine ⟨front ++ before, after ++ back, by rw [heq, htrim]; simp, fun c hc => ?_, fun c hc => ?_⟩
    · rcases List.mem_append.1 (List.mem_of_getLast? hc) with hmem | hmem
      · exact hfront c hmem
      · rw [List.getLast?_append_of_ne_nil front (List.ne_nil_of_mem hmem)] at hc
        exact hbefore c hc
    · rcases List.mem_append.1 (List.mem_of_head? hc) with hmem | hmem
      · rw [List.head?_append_of_ne_nil after (List.ne_nil_of_mem hmem)] at hc
        exact hafter c hc
      · exact hback c hmem
  · intro h
    rw [heq] at h
    have hstands := h.of_append (fun c hc => hnot (hfront c hc)) hne
    cases back with
    | nil => rwa [List.append_nil] at hstands
    | cons c back =>
      rcases hstands.append_cons (hnot (hback c List.mem_cons_self)) with hstands | hstands
      · exact hstands
      · rw [← List.append_nil back] at hstands
        exact absurd
          (hstands.of_append (fun d hd => hnot (hback d (List.mem_cons_of_mem c hd))) hne)
          (not_stands_nil hne)

end Text

namespace LoopDefinition

open Text (isWhiteSpace trim Stands)

variable {cs front rest iterable w : List Char}

/-- The words that divide a definition. -/
def IsSeparator (w : List Char) : Prop := w = ['i', 'n'] ∨ w = ['o', 'f']

instance (w : List Char) : Decidable (IsSeparator w) := inferInstanceAs (Decidable (_ ∨ _))

theorem IsSeparator.ne_nil (h : IsSeparator w) : w ≠ [] := by
  rcases h with rfl | rfl <;> exact List.cons_ne_nil _ _

theorem IsSeparator.not_isWhiteSpace (h : IsSeparator w) : ∀ c ∈ w, isWhiteSpace c = false := by
  rcases h with rfl | rfl <;> rw [List.forall_mem_cons, List.forall_mem_singleton] <;> decide

/-- White space is no character of a separator. -/
theorem IsSeparator.not_mem (h : IsSeparator w) {c : Char} (hc : isWhiteSpace c = true) : c ∉ w :=
  fun hmem => by simp [h.not_isWhiteSpace c hmem] at hc

/-! ## One separator -/

/-- A text starts with white space if its first character is some. -/
theorem startsWithSpace_iff : startsWithSpace cs = true ↔
    ∃ c, cs.head? = some c ∧ isWhiteSpace c = true := by
  cases cs <;> simp [startsWithSpace]

/-- A separator at the front of a text: white space, the word, and white space again. -/
theorem afterSeparator?_eq_some : afterSeparator? cs = some iterable ↔
    ∃ gap w rest, cs = gap ++ (w ++ rest) ∧ gap ≠ [] ∧ (∀ c ∈ gap, isWhiteSpace c = true) ∧
      IsSeparator w ∧ startsWithSpace rest = true ∧ iterable = trim rest ∧ '\n' ∉ iterable := by
  constructor
  · intro h
    unfold afterSeparator? at h
    extract_lets behind at h
    have hbehind {rest : List Char} (h : behind rest = some iterable) :
        startsWithSpace rest = true ∧ iterable = trim rest ∧ '\n' ∉ iterable := by
      obtain ⟨⟨hspace, hline⟩, rfl⟩ : (startsWithSpace rest = true ∧ '\n' ∉ trim rest) ∧
        trim rest = iterable := by simpa [behind] using h
      exact ⟨hspace, rfl, hline⟩
    obtain ⟨gap, rest, rfl, hgap, hrest⟩ := Text.exists_run isWhiteSpace cs
    -- The gap is all white space in front, so what is behind it is the separator.
    have hleft : Text.trimLeft (gap ++ rest) = rest := Text.dropWhile_run hgap hrest
    split at h
    · next hspace =>
      have hne : gap ≠ [] := by
        rintro rfl
        obtain ⟨c, hc, hspace⟩ := startsWithSpace_iff.1 hspace
        simp [hrest c hc] at hspace
      rw [hleft] at h
      split at h
      · exact ⟨gap, ['i', 'n'], _, rfl, hne, hgap, .inl rfl, hbehind h⟩
      · exact ⟨gap, ['o', 'f'], _, rfl, hne, hgap, .inr rfl, hbehind h⟩
      · cases h
    · cases h
  · rintro ⟨gap, w, rest, rfl, hne, hgap, hw, hspace, rfl, hline⟩
    have hleft : Text.trimLeft (gap ++ (w ++ rest)) = w ++ rest := by
      refine Text.dropWhile_run hgap fun c hc => ?_
      rcases hw with rfl | rfl <;> exact Option.some.inj hc ▸ by decide
    have hfront : startsWithSpace (gap ++ (w ++ rest)) = true := by
      obtain ⟨c, gap, rfl⟩ := List.exists_cons_of_ne_nil hne
      exact hgap c List.mem_cons_self
    rw [afterSeparator?, hfront, hleft]
    rcases hw with rfl | rfl <;> simp [hspace, hline]

/-- No separator starts in a text in which no such word stands, even if a separator is behind it. -/
theorem afterSeparator?_append (hne : cs ≠ [])
    (hlast : ∀ c, cs.getLast? = some c → isWhiteSpace c = false) (hrest : startsWithSpace rest = true)
    (hstands : ∀ w, IsSeparator w → ¬ Stands w (front ++ cs)) :
    afterSeparator? (cs ++ rest) = none := by
  obtain ⟨d, hd, hspace⟩ := startsWithSpace_iff.1 hrest
  rw [Option.eq_none_iff_forall_ne_some]
  intro iterable h
  obtain ⟨gap, w, behind, heq, hgap, hgaps, hw, hbehind, -, -⟩ := afterSeparator?_eq_some.1 h
  have hbefore : ∀ c, (front ++ gap).getLast? = some c → isWhiteSpace c = true := by
    intro c hc
    rw [List.getLast?_append_of_ne_nil front hgap] at hc
    exact hgaps c (List.mem_of_getLast? hc)
  have hstands' {after : List Char} (hcs : cs = gap ++ (w ++ after))
      (hafter : ∀ c, after.head? = some c → isWhiteSpace c = true) : False :=
    hstands w hw ⟨front ++ gap, after, by rw [hcs, List.append_assoc], hbefore, hafter⟩
  rcases List.append_eq_append_iff.1 heq with ⟨tail, rfl, -⟩ | ⟨tail, rfl, htail⟩
  · -- the text would be white space
    have hc := List.getLast?_eq_some_getLast hne
    have hspace' := hgaps _ (List.mem_append_left _ (List.mem_of_getLast? hc))
    simp [hlast _ hc] at hspace'
  · rcases List.append_eq_append_iff.1 htail with ⟨after, rfl, hafter⟩ | ⟨tail', rfl, hafter⟩
    · refine hstands' rfl fun c hc => ?_
      obtain ⟨e, he, hspace'⟩ := startsWithSpace_iff.1 hbehind
      rw [hafter, List.head?_append, hc] at he
      exact Option.some.inj he ▸ hspace'
    · cases tail' with
      | nil => exact @hstands' [] (by simp) nofun
      | cons e tail' =>
        -- the word would reach over the white space
        rw [hafter] at hd
        obtain rfl : e = d := Option.some.inj hd
        exact absurd (by simp) (hw.not_mem hspace)

/-! ## The whole definition -/

/-- A declaration in which no separator stands is passed over, up to the separator behind it. -/
theorem divideAtSeparator_append (hline : '\n' ∉ cs)
    (hlast : ∀ c, cs.getLast? = some c → isWhiteSpace c = false)
    (hstands : ∀ w, IsSeparator w → ¬ Stands w (front ++ cs))
    (hrest : afterSeparator? rest = some iterable) :
    divideAtSeparator (cs ++ rest) = some (cs, iterable) := by
  have hspace : startsWithSpace rest = true := by
    unfold afterSeparator? at hrest
    split at hrest
    · assumption
    · cases hrest
  induction cs generalizing front with
  | nil =>
    obtain ⟨c, rest, rfl⟩ : ∃ c tail, rest = c :: tail := by
      cases rest with
      | nil => cases hspace
      | cons c tail => exact ⟨c, tail, rfl⟩
    rw [List.nil_append, divideAtSeparator, hrest]
  | cons c cs ih =>
    have hnone := afterSeparator?_append (List.cons_ne_nil c cs) hlast hspace hstands
    rw [List.cons_append] at hnone ⊢
    rw [List.mem_cons, not_or] at hline
    have hdivide : divideAtSeparator (cs ++ rest) = some (cs, iterable) := by
      refine @ih (front ++ [c]) hline.2 (fun d hd => hlast d ?_) ?_
      · rw [List.getLast?_cons, hd]
        rfl
      · simpa using hstands
    rw [divideAtSeparator, hnone]
    simp only [if_neg (Ne.symm hline.1), hdivide, Option.map_some]

/-- A declaration in which no separator stands is divided from what is behind it. -/
theorem divide_append {lead : List Char} (hlead : ∀ c ∈ lead, isWhiteSpace c = true) (hne : cs ≠ [])
    (hline : '\n' ∉ cs) (hfirst : ∀ c, cs.head? = some c → isWhiteSpace c = false)
    (hlast : ∀ c, cs.getLast? = some c → isWhiteSpace c = false)
    (hstands : ∀ w, IsSeparator w → ¬ Stands w cs) (hrest : afterSeparator? rest = some iterable) :
    divide (lead ++ (cs ++ rest)) = some (cs, iterable) := by
  induction lead with
  | nil =>
    obtain ⟨c, cs, rfl⟩ := List.exists_cons_of_ne_nil hne
    rw [List.mem_cons, not_or] at hline
    have hstands' : ∀ w, IsSeparator w → ¬ Stands w ([c] ++ cs) := hstands
    have hdivide : divideAtSeparator (cs ++ rest) = some (cs, iterable) := by
      refine divideAtSeparator_append hline.2 (fun d hd => hlast d ?_) hstands' hrest
      rw [List.getLast?_cons, hd]
      rfl
    rw [List.nil_append, List.cons_append, divide, hfirst c rfl]
    simp only [if_neg (Ne.symm hline.1), hdivide, Option.map_some]
    rfl
  | cons c lead ih =>
    rw [List.cons_append, divide, hlead c List.mem_cons_self, if_pos rfl,
      ih fun d hd => hlead d (List.mem_cons_of_mem c hd)]
    rfl

/-- What stands behind the separator is trimmed. -/
theorem exists_of_divideAtSeparator {declaration : List Char}
    (h : divideAtSeparator cs = some (declaration, iterable)) : ∃ rest, iterable = trim rest := by
  induction cs generalizing declaration with
  | nil => cases h
  | cons c cs ih =>
    rw [divideAtSeparator] at h
    split at h
    · next hsome =>
      obtain ⟨-, rfl⟩ := Prod.mk.inj (Option.some.inj h)
      obtain ⟨-, -, rest, -, -, -, -, -, htrim, -⟩ := afterSeparator?_eq_some.1 hsome
      exact ⟨rest, htrim⟩
    · split at h
      · cases h
      · obtain ⟨⟨d, e⟩, hdivide, heq⟩ := Option.map_eq_some_iff.1 h
        obtain ⟨-, rfl⟩ := Prod.mk.inj heq
        exact ih hdivide

/-- The iterable of a definition is trimmed. -/
theorem trim_of_divide {declaration : List Char} (h : divide cs = some (declaration, iterable)) :
    trim iterable = iterable := by
  suffices hrest : ∃ rest, iterable = trim rest by
    obtain ⟨rest, rfl⟩ := hrest
    exact Text.trim_trim rest
  induction cs generalizing declaration with
  | nil => cases h
  | cons c cs ih =>
    unfold divide at h
    extract_lets here at h
    have hhere (h : here = some (declaration, iterable)) : ∃ rest, iterable = trim rest := by
      simp only [here] at h
      split at h
      · cases h
      · obtain ⟨⟨d, e⟩, hdivide, heq⟩ := Option.map_eq_some_iff.1 h
        obtain ⟨-, rfl⟩ := Prod.mk.inj heq
        exact exists_of_divideAtSeparator hdivide
    split at h
    · rcases Option.or_eq_some_iff.1 h with h | ⟨-, h⟩
      · exact ih h
      · exact hhere h
    · exact hhere h

/-! ## What is read -/

section

variable {default : Option TypeRef} {v : String × TypeRef} {vs : List (String × TypeRef)}

/-- A variable is read by its name, with its type or the default. -/
theorem readVariable_eq_ok : readVariable default cs = .ok v ↔
    Text.isIdentifier (typeAndName cs).2 = true ∧ v.1 = String.ofList (typeAndName cs).2 ∧
      ((typeAndName cs).1 = [] ∧ default = some v.2 ∨
        (typeAndName cs).1 ≠ [] ∧ TypeRef.ofText (String.ofList (typeAndName cs).1) = .ok v.2) := by
  obtain ⟨name, type⟩ := v
  unfold readVariable
  generalize typeAndName cs = parts
  obtain ⟨typeText, nameText⟩ := parts
  dsimp only
  cases hname : Text.isIdentifier nameText with
  | false => simp
  | true =>
    cases typeText with
    | nil => cases default <;> simp [eq_comm]
    | cons c typeText =>
      generalize TypeRef.ofText (String.ofList (c :: typeText)) = found
      cases found <;> simp [eq_comm]

/-- The names of the variables are spelled like identifiers. -/
theorem isIdentifier_of_readVariables {pieces : List (List Char)}
    (h : readVariables pieces = .ok vs) : ∀ v ∈ vs, Text.isIdentifier v.1.toList = true := by
  have hone {default : Option TypeRef} {cs : List Char} {v : String × TypeRef}
      (h : readVariable default cs = .ok v) : Text.isIdentifier v.1.toList = true := by
    obtain ⟨hname, heq, -⟩ := readVariable_eq_ok.1 h
    rwa [heq, String.toList_ofList]
  unfold readVariables at h
  split at h
  · obtain rfl := Except.ok.inj h
    exact nofun
  · obtain ⟨value, hvalue, h⟩ := bind_eq_ok.1 h
    split at h
    · obtain rfl := Except.ok.inj h
      simpa using hone hvalue
    · obtain ⟨second, hsecond, h⟩ := bind_eq_ok.1 h
      obtain rfl := Except.ok.inj h
      simpa using ⟨hone hvalue, hone hsecond⟩
    · obtain ⟨key, hkey, h⟩ := bind_eq_ok.1 h
      obtain ⟨index, hindex, h⟩ := bind_eq_ok.1 h
      obtain rfl := Except.ok.inj h
      simpa using ⟨hone hvalue, hone hkey, hone hindex⟩
    · cases h

end

/-- A definition is read if it can be divided and its variables can be read. -/
theorem read_eq_ok {declared : List (String × TypeRef)} : read cs = .ok (declared, iterable) ↔
    ∃ declaration, divide cs = some (declaration, iterable) ∧ iterable ≠ [] ∧
      readVariables (declarations (trim declaration)) = .ok declared := by
  unfold read
  cases divide cs with
  | none => simp [throw, throwThe, MonadExceptOf.throw]
  | some parts =>
    obtain ⟨declaration, rest⟩ := parts
    cases rest with
    | nil =>
      simp only [Option.some.injEq, Prod.mk.injEq]
      constructor
      · intro h
        cases h
      · rintro ⟨-, ⟨-, rfl⟩, hne, -⟩
        exact absurd rfl hne
    | cons c rest =>
      simp only [List.isEmpty_cons, Bool.false_eq_true, if_false, bind_eq_ok, Option.some.injEq,
        Prod.mk.injEq]
      constructor
      · rintro ⟨found, hfound, h⟩
        obtain ⟨rfl, rfl⟩ := Prod.mk.inj (Except.ok.inj h)
        exact ⟨declaration, ⟨rfl, rfl⟩, List.cons_ne_nil c rest, hfound⟩
      · rintro ⟨_, ⟨rfl, rfl⟩, -, hfound⟩
        exact ⟨declared, hfound, rfl⟩

/-- A definition is a loop of the variables that were read, with their types qualified. -/
theorem parse_eq_ok {ctx : Context} {definition : String} {loop : LoopDefinition} :
    parse ctx definition = .ok loop ↔ ∃ declared iterable,
      read definition.toList = .ok (declared, iterable) ∧
      loop =
        { declared := declared.map fun (name, type) => ⟨name, ctx.qualify type, .loopLocal⟩
          iterable := String.ofList iterable
          iterableType := if isInteger iterable then .int else .dynamic } := by
  rw [parse]
  constructor
  · intro h
    split at h
    · next declared iterable hread =>
      exact ⟨declared, iterable, hread, (Except.ok.inj h).symm⟩
    · cases h
  · rintro ⟨declared, iterable, hread, rfl⟩
    rw [hread]

end LoopDefinition

end Stencil
