import Stencil.Proofs.Context.PassThrough
import Stencil.Proofs.Expr.RoundTrip
import Stencil.Proofs.Loop.Division

/-!
# Referring to the variables of a loop

A definition takes every word that is spelled like an identifier for the name of a variable, reserved
words included.

**The law** (`LoopDefinition.parse_name_of_declared`): of every definition that is accepted, each
variable can be referred to by its name, in an expression, exactly if the name is not a reserved word.
A reserved word is read as something else, or not read at all: `exists_declared_not_name` declares
`class`, which no expression can name.

The reader of names is exact (`Expr.parse_eq_name_iff`): a word that is spelled like an identifier is
read as a bare name with that name if and only if it is not reserved. So the law follows from what a
definition asks of its variables (`isIdentifier_of_readVariables` in Proofs/Loop/Division).

**What it does not establish.** That the name then stands for the variable, and not for a class that
is imported by it, is a matter of the context.
-/

namespace Stencil

/-- A word is read as a name unless it is reserved. -/
theorem Expr.parse_eq_name_iff {n : String} (hn : Text.isIdentifier n.toList = true) :
    (∃ span, Expr.parse n = .ok (.name span n)) ↔ Keyword.ofText? n = none := by
  constructor
  · rintro ⟨span, hparse⟩
    obtain ⟨ts, hread, hts⟩ := Expr.parse_eq_ok.1 hparse
    obtain rfl : ts = [⟨.identifier n, span⟩] := by
      cases hts
      rfl
    have hword := Token.readFrom_word n.utf8ByteSize [] hn nofun
    rw [List.append_nil, hread, String.ofList_toList] at hword
    have hlexeme : Lexeme.identifier n = Token.wordLexeme n :=
      congrArg Token.lexeme (List.cons.inj (Prod.mk.inj hword).1).1
    rw [Token.wordLexeme] at hlexeme
    split at hlexeme
    · cases hlexeme
    · assumption
  · intro hnone
    exact Expr.parse_name ⟨hn, hnone⟩

namespace LoopDefinition

/-- Every variable that a definition declares can be referred to by its name, unless the name is a
reserved word. -/
theorem parse_name_of_declared {ctx : Context} {definition : String} {loop : LoopDefinition}
    (h : parse ctx definition = .ok loop) : ∀ v ∈ loop.declared,
      (∃ span, Expr.parse v.name = .ok (.name span v.name)) ↔ Keyword.ofText? v.name = none := by
  obtain ⟨declared, iterable, hread, rfl⟩ := parse_eq_ok.1 h
  obtain ⟨declaration, -, -, hvariables⟩ := read_eq_ok.1 hread
  intro v hv
  obtain ⟨⟨name, type⟩, hmem, rfl⟩ := List.mem_map.1 hv
  exact Expr.parse_eq_name_iff (isIdentifier_of_readVariables hvariables _ hmem)

/-- One variable of the loop can be referred to, the other cannot. -/
theorem parse_name_of_reserved_and_free :
    ∃ loop, parse {} "(String größe, int this) of m" = .ok loop ∧
      loop.declared.map (·.name) = ["größe", "this"] ∧ ∀ v ∈ loop.declared,
        (∃ span, Expr.parse v.name = .ok (.name span v.name)) ↔ Keyword.ofText? v.name = none := by
  have hparse : parse {} "(String größe, int this) of m" = .ok
      { declared := [⟨"größe", .simple "String", .loopLocal⟩, ⟨"this", .int, .loopLocal⟩]
        iterable := "m", iterableType := .dynamic } := by decide +kernel
  exact ⟨_, hparse, rfl, parse_name_of_declared hparse⟩

/-- A variable may be declared by a reserved word, and then no expression refers to it. -/
theorem exists_declared_not_name :
    ¬ ∀ ctx definition loop, parse ctx definition = .ok loop →
      ∀ v ∈ loop.declared, ∃ span, Expr.parse v.name = .ok (.name span v.name) := by
  intro hall
  have hparse : parse {} "int class in 3" = .ok
      { declared := [⟨"class", .int, .loopLocal⟩], iterable := "3", iterableType := .int } := by
    decide +kernel
  obtain ⟨span, hname⟩ := hall _ _ _ hparse _ List.mem_cons_self
  have hfree : Keyword.ofText? "class" = none :=
    (Expr.parse_eq_name_iff (by decide +kernel)).1 ⟨span, hname⟩
  revert hfree
  decide +kernel

end LoopDefinition

end Stencil
