import Stencil.Expr.Grammar

/-!
# Levels and parts of expressions

The level of an expression says how tightly it holds together, which is the level of the grammar that
makes it: one for assignments, two for conditionals, then those of the binary operators, and fourteen
and more for operands and chains. Levels are numbers, so that one lemma about numbers serves all the
functions of the reader.

Statements about every part of an expression are statements with `All`: `all_iff` opens one at the
root, `All.imp` and `All.and` put them together, and `inductParts` is the induction that goes with
them, over the children of a node whatever its constructor is. Statements about trees without their
spans compare what `eraseSpans` leaves; a level does not depend on spans (`level_eraseSpans`).

`RespectsLevels` says of a tree that its parts have the levels that their places ask for, which is
what makes it a tree that the printer can print without parentheses of its own.

**What it does not establish.** The levels are those of this grammar; that they are the usual order of
the operators is only visible in `BinaryOp.level`.
-/

namespace Stencil

/-- The level of the grammar that has the operator. -/
def BinaryOp.level : BinaryOp → Nat
  | or => 3
  | and => 4
  | bitOr => 5
  | xor => 6
  | bitAnd => 7
  | equal | notEqual => 8
  | less | greater | lessEqual | greaterEqual => 9
  | leftShift | rightShift | unsignedRightShift => 10
  | plus | minus => 11
  | multiply | divide | remainder => 12

namespace Expr

/-- How tightly the expression holds together: 1 for an assignment, 2 for a conditional, 3 to 12 for
the operators with two operands, 13 for operators and casts before their operand, 14 for operators
behind it, and 15 for everything that can be part of a chain. -/
def level : Expr → Nat
  | assign .. => 1
  | conditional .. => 2
  | binary _ op _ _ => op.level
  | instanceOf .. => 9
  | cast .. => 13
  | unary _ op _ => if op.isBehind then 14 else 13
  | literal .. | name .. | this _ | field .. | call .. | method .. | index .. | creation ..
  | classLiteral .. | enclosed .. => 15

/-- Every expression has a level. -/
theorem one_le_level (e : Expr) : 1 ≤ e.level := by
  cases e with
  | unary =>
    rw [level]
    split <;> decide
  | binary _ op =>
    rw [level]
    cases op <;> decide
  | _ => simp [level]

/-- An expression of the level of operators with two operands, or of a higher one. -/
theorem level_cases {n : Nat} {e : Expr} (h : n ≤ e.level) (hlow : 3 ≤ n) (hhigh : n ≤ 12) :
    n + 1 ≤ e.level ∨ (∃ span op left right, e = binary span op left right ∧ op.level = n) ∨
      n = 9 ∧ ∃ span operand type, e = instanceOf span operand type := by
  rcases Nat.lt_or_eq_of_le h with hlt | heq
  · exact .inl hlt
  · cases e with
    | binary span op left right => exact .inr (.inl ⟨span, op, left, right, rfl, heq.symm⟩)
    | instanceOf span operand type => exact .inr (.inr ⟨heq, span, operand, type, rfl⟩)
    | unary span op =>
      rw [level] at heq
      split at heq <;> omega
    | _ =>
      simp only [level] at heq
      omega

/-- Whether the expression is a type test. -/
def isTypeTest : Expr → Bool
  | instanceOf .. => true
  | _ => false

/-! ## Parts -/

/-- A child is smaller than its expression. -/
theorem sizeOf_children {d e : Expr} (h : d ∈ e.children) : sizeOf d < sizeOf e := by
  have hargs {args : List Expr} (hd : d ∈ args) : sizeOf d < sizeOf args := List.sizeOf_lt_of_mem hd
  cases e with
  | literal | name | this | classLiteral => cases h
  | call _ _ args | creation _ _ args =>
    have hlt : sizeOf d < sizeOf args := hargs h
    simp only [call.sizeOf_spec, creation.sizeOf_spec]
    omega
  | method _ scope _ args =>
    simp only [method.sizeOf_spec]
    rcases List.mem_cons.1 h with rfl | h
    · omega
    · have hlt := hargs h
      omega
  | _ =>
    simp only [children, List.mem_cons, List.not_mem_nil, or_false] at h
    rcases h with rfl | rfl | rfl <;>
      simp only [field.sizeOf_spec, index.sizeOf_spec, cast.sizeOf_spec, instanceOf.sizeOf_spec,
        unary.sizeOf_spec, binary.sizeOf_spec, conditional.sizeOf_spec, assign.sizeOf_spec,
        enclosed.sizeOf_spec] <;> omega

/-- Induction over the parts of an expression. -/
theorem inductParts {motive : Expr → Prop} (h : ∀ e, (∀ d ∈ e.children, motive d) → motive e)
    (e : Expr) : motive e :=
  h e fun d hd =>
    have _ := sizeOf_children hd
    inductParts h d
termination_by sizeOf e

/-- The expression and all its parts have a property. -/
inductive All (p : Expr → Prop) : Expr → Prop
  | mk {e : Expr} (node : p e) (parts : ∀ d ∈ e.children, All p d) : All p e

/-- What holds of all parts holds of the expression. -/
theorem All.node {p : Expr → Prop} {e : Expr} (h : All p e) : p e := by
  cases h
  assumption

/-- What holds of all parts holds of all parts of the children. -/
theorem All.parts {p : Expr → Prop} {e : Expr} (h : All p e) : ∀ d ∈ e.children, All p d := by
  cases h
  assumption

/-- What holds of all parts holds of the expression and of all parts of its children. -/
theorem all_iff {p : Expr → Prop} {e : Expr} : All p e ↔ p e ∧ ∀ d ∈ e.children, All p d :=
  ⟨fun h => ⟨h.node, h.parts⟩, fun h => ⟨h.1, h.2⟩⟩

/-- Two statements about all parts, taken together. -/
theorem All.and {p q : Expr → Prop} {e : Expr} (h : All p e) (h' : All q e) :
    All (fun d => p d ∧ q d) e := by
  induction h with
  | mk node _ ih => exact ⟨⟨node, h'.node⟩, fun d hd => ih d hd (h'.parts d hd)⟩

/-- What follows for a part follows for all. -/
theorem All.imp {p q : Expr → Prop} {e : Expr} (h : All p e) (hpq : ∀ d, p d → q d) : All q e := by
  induction h with
  | mk node _ ih => exact ⟨hpq _ node, ih⟩

/-- The parts of the node hold together tightly enough to be read back in their places: operators with
two operands lean to the left, nothing looser than a prefix stands behind a prefix or cast, only
chains have fields, calls and positions, and only what can be assigned to stands before an
assignment. -/
def RespectsLevels : Expr → Prop
  | field _ scope _ | method _ scope _ _ => 15 ≤ scope.level
  | index _ array _ => 15 ≤ array.level
  | cast _ _ operand => 13 ≤ operand.level
  | instanceOf _ operand _ => 9 ≤ operand.level
  | unary _ op operand => (if op.isBehind then 14 else 13) ≤ operand.level
  | binary _ op left right => op.level ≤ left.level ∧ op.level < right.level
  | conditional _ condition _ whenFalse => 3 ≤ condition.level ∧ 2 ≤ whenFalse.level
  | assign _ _ target _ => Grammar.isTarget target = true
  | literal .. | name .. | this _ | call .. | creation .. | classLiteral .. | enclosed .. => True

/-! ## Spans -/

mutual

/-- The expression without its spans. -/
def eraseSpans : Expr → Expr
  | literal _ kind value => literal ⟨0, 0⟩ kind value
  | name _ n => name ⟨0, 0⟩ n
  | this _ => this ⟨0, 0⟩
  | field _ scope n => field ⟨0, 0⟩ scope.eraseSpans n
  | call _ n args => call ⟨0, 0⟩ n (eraseSpansList args)
  | method _ scope n args => method ⟨0, 0⟩ scope.eraseSpans n (eraseSpansList args)
  | index _ array position => index ⟨0, 0⟩ array.eraseSpans position.eraseSpans
  | creation _ type args => creation ⟨0, 0⟩ type (eraseSpansList args)
  | cast _ type operand => cast ⟨0, 0⟩ type operand.eraseSpans
  | instanceOf _ operand type => instanceOf ⟨0, 0⟩ operand.eraseSpans type
  | classLiteral _ type => classLiteral ⟨0, 0⟩ type
  | unary _ op operand => unary ⟨0, 0⟩ op operand.eraseSpans
  | binary _ op left right => binary ⟨0, 0⟩ op left.eraseSpans right.eraseSpans
  | conditional _ condition whenTrue whenFalse =>
    conditional ⟨0, 0⟩ condition.eraseSpans whenTrue.eraseSpans whenFalse.eraseSpans
  | assign _ op target value => assign ⟨0, 0⟩ op target.eraseSpans value.eraseSpans
  | enclosed _ inner => enclosed ⟨0, 0⟩ inner.eraseSpans

/-- `eraseSpans` on each expression of a list. -/
def eraseSpansList : List Expr → List Expr
  | [] => []
  | e :: es => e.eraseSpans :: eraseSpansList es

end

/-- Several expressions without their spans. -/
theorem eraseSpansList_eq (es : List Expr) : eraseSpansList es = es.map eraseSpans := by
  induction es with
  | nil => rfl
  | cons e es ih => rw [eraseSpansList, ih, List.map_cons]

@[simp] theorem level_eraseSpans (e : Expr) : e.eraseSpans.level = e.level := by
  cases e <;> rfl

end Expr

end Stencil
