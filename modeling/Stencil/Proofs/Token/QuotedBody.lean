import Stencil.Proofs.Token.Spelling

/-!
# The bodies of quoted literals

What may stand between the quotes of a literal, element by element: a character that stands for
itself, a backslash with one of nine letters and signs, or a backslash, `u` and the four digits of a
code point. `Denotes` says of a body what text it stands for.

**The law** (`Token.head?_read_quoted`): a text that starts with a quote is read as a string or
character literal with a value if and only if it goes on with a body of that value and the closing
quote; of a character literal the value is one character. The reader takes one form more than it
should (`SignedCode`): its number reader allows a sign, so a plus sign may stand in place of the first
of the four digits. `head?_read_signed_code` is such a literal.

`scan_eq_ok_iff` is the law for a body, from `denotes_of_scan` and `Denotes.scan`, both by induction
on the elements. `unicodeEscape?_eq_some` says what the four characters behind `\u` may be.

**What it does not establish.** Which of its many texts a literal was read from is not kept, so it may
be printed by another one.
-/

namespace Stencil

namespace Quoted

/-- The characters that may stand behind a backslash, each with what the two denote. -/
def escapes : List (Char × Char) :=
  [('n', '\n'), ('t', '\t'), ('r', '\r'), ('b', '\x08'), ('f', '\x0C'), ('0', '\x00'),
    ('\'', '\''), ('"', '"'), ('\\', '\\')]

/-- The digits are hexadecimal and spell the code point of the character. -/
def SpellsCode (digits : List Char) (v : Char) : Prop :=
  (∀ d ∈ digits, Text.isHexDigit d = true) ∧ v.toNat = Text.hexValue digits

/-- The text stands for the character between two of the given quotes. -/
inductive Element (quote : Char) : List Char → Char → Prop
  | plain {c : Char} (hquote : c ≠ quote) (hslash : c ≠ '\\') (hline : c ≠ '\n')
      (hreturn : c ≠ '\r') : Element quote [c] c
  | escape {e v : Char} (h : (e, v) ∈ escapes) : Element quote ['\\', e] v
  | code {digits : List Char} {v : Char} (hlength : digits.length = 4)
      (h : SpellsCode digits v) : Element quote ('\\' :: 'u' :: digits) v

/-- The text is the escape of a code point with a plus sign and three digits. -/
inductive SignedCode : List Char → Char → Prop
  | mk {digits : List Char} {v : Char} (hlength : digits.length = 3) (h : SpellsCode digits v) :
      SignedCode ('\\' :: 'u' :: '+' :: digits) v

/-- The body is made of elements, and the value of what they stand for. -/
inductive Denotes (element : List Char → Char → Prop) : List Char → List Char → Prop
  | nil : Denotes element [] []
  | cons {piece body value : List Char} {v : Char} (h : element piece v)
      (hrest : Denotes element body value) : Denotes element (piece ++ body) (v :: value)

/-- What the reader of literals takes for one character of the value. -/
def Accepted (quote : Char) (piece : List Char) (v : Char) : Prop :=
  Element quote piece v ∨ SignedCode piece v

variable {quote : Char} {cs rest body value : List Char}

/-! ## Escapes -/

/-- The letters and signs that may be escaped are those of the table. -/
theorem simpleEscape?_eq_some {e v : Char} : simpleEscape? e = some v ↔ (e, v) ∈ escapes := by
  constructor
  · intro h
    unfold simpleEscape? at h
    split at h <;> first | (obtain rfl := Option.some.inj h; decide) | cases h
  · intro h
    have hall : escapes.all (fun p => simpleEscape? p.1 == some p.2) = true := by decide
    simpa using List.all_eq_true.1 hall (e, v) h

/-- A number is read as the character that has it, if there is one. -/
theorem scalar?_eq_some {n : Nat} {v : Char} : Text.scalar? n = some v ↔ v.toNat = n := by
  rw [Text.scalar?]
  constructor
  · intro h
    obtain ⟨hvalid, heq⟩ := Option.ite_none_right_eq_some.1 h
    rw [← Option.some.inj heq, Char.ofNat, dif_pos hvalid]
    rfl
  · rintro rfl
    have hvalid : v.toNat.isValidChar := v.valid
    rw [if_pos hvalid, Char.ofNat_toNat]

/-- Digits without a sign are read as the code point that they spell. -/
theorem bind_scalar?_eq_some {digits : List Char} {v : Char} (hne : digits ≠ []) :
    (if digits.isEmpty || !digits.all Text.isHexDigit then none
      else some (Text.hexValue digits)).bind Text.scalar? = some v ↔ SpellsCode digits v := by
  have hempty : digits.isEmpty = false := by simpa using hne
  by_cases hall : digits.all Text.isHexDigit = true
  · simpa [SpellsCode, hempty, hall, scalar?_eq_some] using fun _ => List.all_eq_true.1 hall
  · refine iff_of_false ?_ fun h => hall (List.all_eq_true.2 h.1)
    simp [hempty, hall]

/-- The four characters behind `\u` are read as a code point or as a signed one. -/
theorem unicodeEscape?_eq_some {digits : List Char} {v : Char} (hlength : digits.length = 4) :
    unicodeEscape? digits = some v ↔
      SpellsCode digits v ∨ ∃ tail, digits = '+' :: tail ∧ SpellsCode tail v := by
  cases digits with
  | nil => cases hlength
  | cons c tail =>
    by_cases hplus : c = '+'
    · subst hplus
      have hne : tail ≠ [] := by
        rintro rfl
        cases hlength
      refine (bind_scalar?_eq_some hne).trans ⟨fun h => .inr ⟨tail, rfl, h⟩, ?_⟩
      rintro (h | ⟨_, heq, h⟩)
      · exact absurd (h.1 '+' List.mem_cons_self) (by decide)
      · obtain ⟨-, rfl⟩ := List.cons.inj heq
        exact h
    · have hradix : radixValue? (c :: tail) = if (c :: tail).isEmpty || !(c :: tail).all Text.isHexDigit
          then none else some (Text.hexValue (c :: tail)) := by
        rw [radixValue?]
        rintro _ heq
        exact hplus (List.cons.inj heq).1
      rw [unicodeEscape?, hradix, bind_scalar?_eq_some (List.cons_ne_nil c tail)]
      refine ⟨.inl, ?_⟩
      rintro (h | ⟨_, heq, -⟩)
      · exact h
      · exact absurd (List.cons.inj heq).1 hplus

/-- An escaped code point is read as its character. -/
theorem scan_code {digits tail : List Char} {v : Char} (hquote : quote = '"' ∨ quote = '\'')
    (hlength : digits.length = 4) (hv : unicodeEscape? digits = some v) :
    scan quote ('\\' :: 'u' :: (digits ++ tail)) = (scan quote tail).map (push v) := by
  match digits with
  | [d₁, d₂, d₃, d₄] =>
    simp only [List.cons_append, List.nil_append]
    rw [scan.eq_def]
    rcases hquote with rfl | rfl <;> simp [hv]

/-! ## Bodies -/

/-- What the reader takes up to the closing quote. -/
theorem denotes_of_scan (h : scan quote cs = .ok (value, rest)) :
    ∃ body, cs = body ++ quote :: rest ∧ Denotes (Accepted quote) body value := by
  -- One case for each element, and one for the quote that ends the body; in the others there is no
  -- result.
  fun_induction scan quote cs generalizing value with
  | case3 cs =>
    obtain ⟨rfl, rfl⟩ := Prod.mk.inj (Except.ok.inj h)
    exact ⟨[], rfl, .nil⟩
  | case4 c cs hline hquote hslash ih =>
    obtain ⟨us, rfl, hrest⟩ := ok_of_map_push h
    obtain ⟨body, rfl, hbody⟩ := ih hrest
    obtain ⟨hline, hreturn⟩ : c ≠ '\n' ∧ c ≠ '\r' := by simpa using hline
    have hpiece : Accepted quote [c] c :=
      .inl (.plain hquote (by simpa using hslash) hline hreturn)
    exact ⟨c :: body, rfl, .cons hpiece hbody⟩
  | case6 c _ _ hslash d₁ d₂ d₃ d₄ tail v hv ih =>
    obtain ⟨us, rfl, hrest⟩ := ok_of_map_push h
    obtain ⟨body, rfl, hbody⟩ := ih hrest
    obtain rfl : c = '\\' := by simpa using hslash
    have hpiece : Accepted quote ('\\' :: 'u' :: [d₁, d₂, d₃, d₄]) v := by
      rcases (unicodeEscape?_eq_some rfl).1 hv with hcode | ⟨ds, heq, hcode⟩
      · exact .inl (.code rfl hcode)
      · obtain ⟨rfl, rfl⟩ := List.cons.inj heq
        exact .inr (.mk rfl hcode)
    exact ⟨_, rfl, .cons hpiece hbody⟩
  | case9 c _ _ hslash e es _ v hv ih =>
    obtain ⟨us, rfl, hrest⟩ := ok_of_map_push h
    obtain ⟨body, rfl, hbody⟩ := ih hrest
    obtain rfl : c = '\\' := by simpa using hslash
    exact ⟨_, rfl, .cons (.inl (.escape (simpleEscape?_eq_some.1 hv))) hbody⟩
  | _ => simp at h

/-- A body is read up to the quote behind it. -/
theorem Denotes.scan (hquote : quote = '"' ∨ quote = '\'')
    (h : Denotes (Accepted quote) body value) :
    scan quote (body ++ quote :: rest) = .ok (value, rest) := by
  induction h with
  | nil => exact Step.scan_quote hquote rest
  | @cons piece body value v hpiece _ ih =>
    have hread (heq : Quoted.scan quote (piece ++ (body ++ quote :: rest)) =
        (Quoted.scan quote (body ++ quote :: rest)).map (push v)) :
        Quoted.scan quote (piece ++ body ++ quote :: rest) = .ok (v :: value, rest) := by
      rw [List.append_assoc, heq, ih]
      rfl
    rcases hpiece with hpiece | hpiece
    · cases hpiece with
      | plain hne hslash hline hreturn =>
        exact hread (Step.scan_cons_of_ne hline hreturn hne hslash)
      | escape h => exact hread (Step.scan_simpleEscape hquote (simpleEscape?_eq_some.2 h))
      | code hlength h =>
        exact hread (scan_code hquote hlength ((unicodeEscape?_eq_some hlength).2 (.inl h)))
    · cases hpiece with
      | @mk digits _ hlength h =>
        have hfour : ('+' :: digits).length = 4 := congrArg Nat.succ hlength
        exact hread (scan_code hquote hfour
          ((unicodeEscape?_eq_some hfour).2 (.inr ⟨digits, rfl, h⟩)))

/-- The reader takes a body and the quote behind it, and nothing else. -/
theorem scan_eq_ok_iff (hquote : quote = '"' ∨ quote = '\'') :
    Quoted.scan quote cs = .ok (value, rest) ↔
      ∃ body, cs = body ++ quote :: rest ∧ Denotes (Accepted quote) body value := by
  constructor
  · exact denotes_of_scan
  · rintro ⟨body, rfl, h⟩
    exact h.scan hquote

end Quoted

/-! ## Literals at the front of a text -/

open Quoted (Accepted Denotes Element)

namespace Step

variable {cs rest : List Char}

/-- A string is read if and only if its body is. -/
theorem string_eq_lexeme {l : Lexeme} :
    string cs = .lexeme l rest ↔
      ∃ value, l = .string (String.ofList value) ∧ Quoted.scan '"' cs = .ok (value, rest) := by
  unfold string
  split
  · next value after hscan =>
    simp only [hscan, Step.lexeme.injEq, Except.ok.injEq, Prod.mk.injEq]
    constructor
    · rintro ⟨rfl, rfl⟩
      exact ⟨value, rfl, rfl, rfl⟩
    · rintro ⟨_, rfl, rfl, rfl⟩
      exact ⟨rfl, rfl⟩
  · next hscan => simp [hscan]

/-- A character literal is read if and only if its body is, and stands for one character. -/
theorem character_eq_lexeme {l : Lexeme} :
    character cs = .lexeme l rest ↔
      ∃ v, l = .character v ∧ Quoted.scan '\'' cs = .ok ([v], rest) := by
  unfold character
  split
  · next w after hscan =>
    simp only [hscan, Step.lexeme.injEq, Except.ok.injEq, Prod.mk.injEq, List.cons.injEq, and_true]
    constructor
    · rintro ⟨rfl, rfl⟩
      exact ⟨w, rfl, rfl, rfl⟩
    · rintro ⟨_, rfl, rfl, rfl⟩
      exact ⟨rfl, rfl⟩
  · next value after hne hscan =>
    simp only [hscan, reduceCtorEq, Except.ok.injEq, Prod.mk.injEq, false_iff]
    rintro ⟨v, -, rfl, -⟩
    exact hne v rfl
  · next hscan => simp [hscan]

end Step

namespace Token

/-- The first token of a text that starts with no blank is the lexeme that stands there. -/
theorem head?_read {c : Char} {cs : List Char} {l : Lexeme} (hc : Text.isBlank c = false) :
    ((read (String.ofList (c :: cs))).1.head?.map (·.lexeme) = some l) ↔
      ∃ rest, step c cs = .lexeme l rest := by
  have hblank : ¬ Text.isBlank c = true := by simp [hc]
  rw [read, String.toList_ofList]
  cases hs : step c cs with
  | lexeme first rest =>
    rw [readFrom_lexeme _ hblank hs]
    simp
  | fault cause start rest =>
    rw [readFrom_fault _ hblank hs]
    simp

/-- The first token of a text that starts with a quote is a string literal with the value `v` if and
only if the quote is followed by a body for `v` and another quote. The same holds of characters, where
the body denotes a single character. The elements of a body are the plain characters, the escapes of
the table and of four hexadecimal digits, and besides these the escapes with a plus sign and three
digits. -/
theorem head?_read_quoted (cs : List Char) :
    (∀ v : String,
      (read (String.ofList ('"' :: cs))).1.head?.map (·.lexeme) = some (.string v) ↔
        ∃ body rest, cs = body ++ '"' :: rest ∧ Denotes (Accepted '"') body v.toList) ∧
    ∀ v : Char,
      (read (String.ofList ('\'' :: cs))).1.head?.map (·.lexeme) = some (.character v) ↔
        ∃ body rest, cs = body ++ '\'' :: rest ∧ Denotes (Accepted '\'') body [v] := by
  constructor
  · intro v
    rw [head?_read (by decide)]
    have hstep : step '"' cs = Step.string cs := rfl
    simp only [hstep, Step.string_eq_lexeme, Quoted.scan_eq_ok_iff (.inl rfl)]
    constructor
    · rintro ⟨rest, value, hv, body, hcs, hbody⟩
      rw [Lexeme.string.inj hv, String.toList_ofList]
      exact ⟨body, rest, hcs, hbody⟩
    · rintro ⟨body, rest, hcs, hbody⟩
      exact ⟨rest, v.toList, by rw [String.ofList_toList], body, hcs, hbody⟩
  · intro v
    rw [head?_read (by decide)]
    have hstep : step '\'' cs = Step.character cs := rfl
    simp only [hstep, Step.character_eq_lexeme, Quoted.scan_eq_ok_iff (.inr rfl)]
    constructor
    · rintro ⟨rest, _, hv, body, hcs, hbody⟩
      obtain rfl := Lexeme.character.inj hv
      exact ⟨body, rest, hcs, hbody⟩
    · rintro ⟨body, rest, hcs, hbody⟩
      exact ⟨rest, v, rfl, body, hcs, hbody⟩

/-- A plus sign and three digits are read as a code point, which is no element of a body. -/
theorem head?_read_signed_code :
    (read "\"\\u+041\"").1.head?.map (·.lexeme) = some (.string "A") ∧
      ¬ ∃ body rest, "\\u+041\"".toList = body ++ '"' :: rest ∧
        Denotes (Element '"') body "A".toList := by
  refine ⟨by decide +kernel, ?_⟩
  rintro ⟨body, rest, htext, hbody⟩
  cases hbody with
  | cons h _ =>
    cases h with
    | plain _ hslash => exact hslash (List.cons.inj htext).1.symm
    | escape h =>
      obtain ⟨rfl, -⟩ := List.cons.inj (List.cons.inj htext).2
      exact absurd h (by decide)
    | @code digits _ hlength h =>
      obtain ⟨d, ds, rfl⟩ := List.exists_cons_of_length_eq_add_one hlength
      obtain ⟨rfl, -⟩ := List.cons.inj (List.cons.inj (List.cons.inj htext).2).2
      exact absurd (h.1 '+' List.mem_cons_self) (by decide)

end Token

end Stencil
