import Stencil.Proofs.Expr.Spelled

/-!
# Reading printed expressions

**The law** (`parse_print_iff`): what the printer makes of an expression that was read is read again
as the same tree, up to spans, exactly if no node is printed in one of three ways: a plus or minus
against the same sign, a point against an integer, or a type test without its empty angle brackets
before a `<`. The first two change how the characters are cut into tokens, the third what the tokens
are read as. `ReadsBack` says of a node that it is printed in none of them, and it can be decided.

One half is `Derives.parse_print`: if every node reads back, the printed text is read as lexemes that
spell it (`Derives.readFrom_print`, by Proofs/Expr/Spacing), and those are the expression again (by
Proofs/Expr/Spelled). For the other half a text that is read as the same tree has the same lexemes,
angle brackets apart, so no two lexemes ran into each other (`Written.not_clash`), and no pair of
brackets was lost where it counts (`Elides.length_eq`). `not_parse_print_of_two_signs` and
`exists_print_not_parsed` are texts of the first two kinds.

**What it does not establish.** Spans are never read back: the printed text has other blanks.
-/

namespace Stencil

open Written (Spells Readable Clash Elides texts)

/-- Every pair of empty angle brackets takes two tokens. -/
theorem Written.Elides.length_eq {n : Nat} {ts : List Token} {ls : List Lexeme}
    (h : Elides n ts ls) : ts.length = ls.length + 2 * n := by
  induction h with
  | nil => rfl
  | keep => simp only [List.length_cons]; omega
  | drop => simp only [List.length_cons]; omega

namespace Expr

/-- The node is printed so that reading finds it again. -/
def ReadsBack (e : Expr) : Prop := e.Separate ∧ e.comparesBareTest = false

instance (e : Expr) : Decidable e.ReadsBack := inferInstanceAs (Decidable (_ ∧ _))

variable {d e : Expr} {text : String}

/-- A text is read as its tokens are. -/
theorem parse_of_read {text : String} {ts : List Token} (h : Token.read text = (ts, none)) :
    parse text = ofTokens ts := by
  rw [parse, Token.readAll, h]

/-- A text is read as an expression if its tokens are one. -/
theorem parse_eq_ok :
    parse text = .ok e ↔
      ∃ ts, Token.readFrom text.utf8ByteSize text.toList = (ts, none) ∧ Derives ts e := by
  rw [parse, Token.readAll, Token.read]
  constructor
  · intro h
    split at h
    · cases h
    · next hread =>
      split at hread
      · next heq =>
        obtain rfl := Except.ok.inj hread
        exact ⟨_, heq, ofTokens_eq_ok.1 h⟩
      · cases hread
  · rintro ⟨ts, hread, h⟩
    rw [hread]
    exact ofTokens_eq_ok.2 h

/-! ## Trees without spans -/

/-- Whether a bare type test is compared does not depend on spans. -/
theorem comparesBareTest_eraseSpans (e : Expr) :
    e.eraseSpans.comparesBareTest = e.comparesBareTest := by
  cases e with
  | binary _ op left =>
    cases op with
    | less => exact isBareTest_eraseSpans left
    | _ => rfl
  | _ => rfl

theorem children_eraseSpans (e : Expr) : e.eraseSpans.children = e.children.map eraseSpans := by
  cases e <;> simp [eraseSpans, children, eraseSpansList_eq]

/-- A statement about all parts that does not depend on spans holds with spans if it holds without. -/
theorem all_eraseSpans {p : Expr → Prop} (hp : ∀ d : Expr, p d.eraseSpans ↔ p d) (e : Expr) :
    e.eraseSpans.All p ↔ e.All p := by
  induction e using inductParts with
  | h e ih =>
    rw [all_iff, all_iff, hp, children_eraseSpans, List.forall_mem_map]
    exact and_congr_right fun _ => forall₂_congr ih

/-! ## The round trip -/

/-- The printed text is read as lexemes that spell it if every node keeps its lexemes separate. -/
theorem Derives.readFrom_print {ts : List Token} (h : Derives ts e)
    (hvalid : ∀ t ∈ ts, t.lexeme.Valid) (hall : e.All Separate) :
    ∃ us, Token.readFrom e.print.utf8ByteSize e.print.toList = (us, none) ∧
      Spells e.written us := by
  have hclash : ¬ Clash e.written [] := ((h.spaced hvalid).part (by simp)).2 hall
  obtain ⟨us, hagain, hspells, -⟩ := Written.readFrom_texts e.print.utf8ByteSize
    (h.isReadable hvalid [] (by simp [Written.Ends])) hclash
  rw [h.texts_written] at hagain
  exact ⟨us, hagain, hspells⟩

/-- A printed expression is read again if every node reads back. -/
theorem Derives.parse_print {ts : List Token} (h : Derives ts e)
    (hvalid : ∀ t ∈ ts, t.lexeme.Valid) (hall : e.All ReadsBack) :
    ∃ d, parse e.print = .ok d ∧ d.eraseSpans = e.eraseSpans := by
  obtain ⟨us, hagain, hspells⟩ := h.readFrom_print hvalid (hall.imp fun _ hd => hd.1)
  obtain ⟨d, hus, herase⟩ := h.respells hvalid (hall.imp fun _ hd => hd.2) us hspells
  exact ⟨d, parse_eq_ok.2 ⟨us, hagain, hus⟩, herase⟩

/-- A printed expression that was read is read again as the same tree exactly if every node reads
back. -/
theorem parse_print_iff (h : parse text = .ok e) :
    (∃ d, parse e.print = .ok d ∧ d.eraseSpans = e.eraseSpans) ↔ e.All ReadsBack := by
  obtain ⟨ts, hread, hts⟩ := parse_eq_ok.1 h
  have hvalid := Token.valid_of_read hread
  have hreadable : Readable e.written [] := hts.isReadable hvalid [] (by simp [Written.Ends])
  have hclash : ¬ Clash e.written [] ↔ e.All Separate := (hts.spaced hvalid).part (by simp)
  constructor
  · rintro ⟨d, hparse, herase⟩
    obtain ⟨us, hagain, hus⟩ := parse_eq_ok.1 hparse
    have hwritten : d.written = e.written := by
      rw [← written_eraseSpans d, herase, written_eraseSpans]
    obtain ⟨n, helides, hbare⟩ := hus.printed (Token.valid_of_read hagain)
    rw [hwritten] at helides
    -- whatever the brackets that may be missing, no lexeme was taken for another
    have hnot : ¬ Clash e.written [] :=
      Written.not_clash hreadable (hts.texts_written.symm ▸ hagain) helides.filter_eq
    obtain ⟨us', hagain', hspells⟩ := hts.readFrom_print hvalid (hclash.1 hnot)
    obtain rfl : us = us' := congrArg Prod.fst (hagain.symm.trans hagain')
    have hzero : n = 0 := by
      have hlength := helides.length_eq
      have hsame := congrArg List.length hspells.lexemes
      simp only [List.length_map] at hlength hsame
      omega
    have hcompares := (all_eraseSpans (fun d => by rw [comparesBareTest_eraseSpans]) d).2
      (hbare hzero).1
    rw [herase, all_eraseSpans fun d => by rw [comparesBareTest_eraseSpans]] at hcompares
    exact (hclash.1 hnot).and hcompares
  · exact hts.parse_print hvalid

/-- Two minus signs that a blank keeps apart are printed as one operator. -/
theorem not_parse_print_of_two_signs :
    let e := unary ⟨0, 4⟩ .minus (unary ⟨2, 4⟩ .minus (name ⟨3, 4⟩ "a"))
    parse "- -a" = .ok e ∧ ¬ ∃ d, parse e.print = .ok d ∧ d.eraseSpans = e.eraseSpans := by
  have hread : Token.read "- -a" = ([⟨.sign .minus, ⟨0, 1⟩⟩, ⟨.sign .minus, ⟨2, 3⟩⟩,
      ⟨.identifier "a", ⟨3, 4⟩⟩], none) := by decide +kernel
  have hparse : parse "- -a" =
      .ok (unary ⟨0, 4⟩ .minus (unary ⟨2, 4⟩ .minus (name ⟨3, 4⟩ "a"))) := by
    rw [parse_of_read hread]
    with_unfolding_all rfl
  exact ⟨hparse, fun hagain => absurd ((parse_print_iff hparse).1 hagain).node (by decide)⟩

set_option maxRecDepth 5000 in
/-- A field of an integer is printed as a number that is none. -/
theorem exists_print_not_parsed :
    ¬ ∀ text e, parse text = .ok e → ∃ d, parse e.print = .ok d ∧ d.eraseSpans = e.eraseSpans := by
  intro hall
  have hread : Token.read "1 .foo" = ([⟨.number "1", ⟨0, 1⟩⟩, ⟨.punctuation '.', ⟨2, 3⟩⟩,
      ⟨.identifier "foo", ⟨3, 6⟩⟩], none) := by decide +kernel
  have hparse : parse "1 .foo" = .ok (field ⟨0, 6⟩ (literal ⟨0, 1⟩ .int "1") "foo") := by
    rw [parse_of_read hread]
    with_unfolding_all rfl
  have hfault : parse "1.foo" = .error (.lexical ⟨.numberLiteral, ⟨0, 4⟩⟩) := by
    have hstop : Token.read "1.foo" = ([], some ⟨.numberLiteral, ⟨0, 4⟩⟩) := by decide +kernel
    rw [parse, Token.readAll, hstop]
  obtain ⟨d, hagain, -⟩ := hall _ _ hparse
  have hprint : print (field ⟨0, 6⟩ (literal ⟨0, 1⟩ .int "1") "foo") = "1.foo" := by
    rw [print, print] <;> decide
  rw [hprint, hfault] at hagain
  cases hagain

end Expr

end Stencil
