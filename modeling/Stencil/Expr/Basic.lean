import Stencil.TypeRef.Basic

/-!
# Expressions

The trees of the expression language. Every node keeps the span it was read from, in bytes of the
text of its expression; parentheses are nodes of their own, so a tree can be printed without
deciding anew where they belong.
-/

namespace Stencil

/-- What a literal denotes. -/
inductive LiteralKind
  | int | long | float | double | character | string | boolean | null
  deriving DecidableEq, Repr

/-- The operators with one operand. -/
inductive UnaryOp
  | plus | minus | not | bitwiseNot | preIncrement | preDecrement | postIncrement | postDecrement
  deriving DecidableEq, Repr

namespace UnaryOp

/-- The sign of the operator. -/
def sign : UnaryOp → Sign
  | plus => .plus
  | minus => .minus
  | not => .bang
  | bitwiseNot => .tilde
  | preIncrement | postIncrement => .plusPlus
  | preDecrement | postDecrement => .minusMinus

/-- Whether the operator stands behind its operand. -/
def isBehind : UnaryOp → Bool
  | postIncrement | postDecrement => true
  | _ => false

end UnaryOp

/-- The operators with two operands. -/
inductive BinaryOp
  | or | and | bitOr | xor | bitAnd | equal | notEqual
  | less | greater | lessEqual | greaterEqual
  | leftShift | rightShift | unsignedRightShift
  | plus | minus | multiply | divide | remainder
  deriving DecidableEq, Repr

/-- The spelling of the operator. -/
def BinaryOp.text : BinaryOp → String
  | or => "||"
  | and => "&&"
  | bitOr => "|"
  | xor => "^"
  | bitAnd => "&"
  | equal => "=="
  | notEqual => "!="
  | less => "<"
  | greater => ">"
  | lessEqual => "<="
  | greaterEqual => ">="
  | leftShift => "<<"
  | rightShift => ">>"
  | unsignedRightShift => ">>>"
  | plus => "+"
  | minus => "-"
  | multiply => "*"
  | divide => "/"
  | remainder => "%"

/-- The assignment operators. -/
inductive AssignOp
  | assign | plus | minus | multiply | divide | remainder | bitAnd | bitOr | xor
  | leftShift | rightShift | unsignedRightShift
  deriving DecidableEq, Repr

/-- The spelling of the operator. -/
def AssignOp.text : AssignOp → String
  | assign => "="
  | plus => "+="
  | minus => "-="
  | multiply => "*="
  | divide => "/="
  | remainder => "%="
  | bitAnd => "&="
  | bitOr => "|="
  | xor => "^="
  | leftShift => "<<="
  | rightShift => ">>="
  | unsignedRightShift => ">>>="

/-- An expression. -/
inductive Expr
  /-- A literal. The value of a number is its spelling, that of a text or character what it
  denotes. -/
  | literal (span : Span) (kind : LiteralKind) (value : String)
  | name (span : Span) (name : String)
  | this (span : Span)
  | field (span : Span) (scope : Expr) (name : String)
  /-- A call without a scope. The name is dotted once a static import has been put in. -/
  | call (span : Span) (name : String) (args : List Expr)
  | method (span : Span) (scope : Expr) (name : String) (args : List Expr)
  | index (span : Span) (array position : Expr)
  | creation (span : Span) (type : TypeRef) (args : List Expr)
  | cast (span : Span) (type : TypeRef) (operand : Expr)
  | instanceOf (span : Span) (operand : Expr) (type : TypeRef)
  | classLiteral (span : Span) (type : TypeRef)
  | unary (span : Span) (op : UnaryOp) (operand : Expr)
  | binary (span : Span) (op : BinaryOp) (left right : Expr)
  | conditional (span : Span) (condition whenTrue whenFalse : Expr)
  | assign (span : Span) (op : AssignOp) (target value : Expr)
  | enclosed (span : Span) (inner : Expr)
  deriving Repr, Inhabited

namespace Expr

/-- The span of the expression. -/
def span : Expr → Span
  | literal span .. | name span .. | this span | field span .. | call span .. | method span ..
  | index span .. | creation span .. | cast span .. | instanceOf span .. | classLiteral span ..
  | unary span .. | binary span .. | conditional span .. | assign span .. | enclosed span .. => span

/-- The direct parts of the expression, in the order of the text. -/
def children : Expr → List Expr
  | literal .. | name .. | this _ | classLiteral .. => []
  | field _ scope _ => [scope]
  | call _ _ args => args
  | method _ scope _ args => scope :: args
  | index _ array position => [array, position]
  | creation _ _ args => args
  | cast _ _ operand | instanceOf _ operand _ | unary _ _ operand | enclosed _ operand => [operand]
  | binary _ _ left right => [left, right]
  | conditional _ condition whenTrue whenFalse => [condition, whenTrue, whenFalse]
  | assign _ _ target value => [target, value]

/-- The type written in the node itself. -/
def type? : Expr → Option TypeRef
  | creation _ type _ | cast _ type _ | instanceOf _ _ type | classLiteral _ type => some type
  | _ => none

/-! ## Walking -/

mutual

/-- The expression and all its parts, parents first, each with its depth below `depth`. -/
def nodes (depth : Nat) : Expr → List (Nat × Expr)
  | e@(literal ..) | e@(name ..) | e@(this _) | e@(classLiteral ..) => [(depth, e)]
  | e@(field _ scope _) => (depth, e) :: scope.nodes (depth + 1)
  | e@(call _ _ args) => (depth, e) :: nodesOfList (depth + 1) args
  | e@(method _ scope _ args) =>
    (depth, e) :: (scope.nodes (depth + 1) ++ nodesOfList (depth + 1) args)
  | e@(index _ array position) =>
    (depth, e) :: (array.nodes (depth + 1) ++ position.nodes (depth + 1))
  | e@(creation _ _ args) => (depth, e) :: nodesOfList (depth + 1) args
  | e@(cast _ _ operand) => (depth, e) :: operand.nodes (depth + 1)
  | e@(instanceOf _ operand _) => (depth, e) :: operand.nodes (depth + 1)
  | e@(unary _ _ operand) => (depth, e) :: operand.nodes (depth + 1)
  | e@(binary _ _ left right) => (depth, e) :: (left.nodes (depth + 1) ++ right.nodes (depth + 1))
  | e@(conditional _ condition whenTrue whenFalse) =>
    (depth, e) :: (condition.nodes (depth + 1) ++ whenTrue.nodes (depth + 1)
      ++ whenFalse.nodes (depth + 1))
  | e@(assign _ _ target value) =>
    (depth, e) :: (target.nodes (depth + 1) ++ value.nodes (depth + 1))
  | e@(enclosed _ inner) => (depth, e) :: inner.nodes (depth + 1)

/-- `nodes` of each expression of a list. -/
def nodesOfList (depth : Nat) : List Expr → List (Nat × Expr)
  | [] => []
  | e :: es => e.nodes depth ++ nodesOfList depth es

end

/-! ## Renaming -/

/-- What to put in place of the types, the bare names and the names of calls without a scope. -/
structure Renaming (m : Type → Type) where
  type : TypeRef → m TypeRef
  name : String → m String
  call : String → m String

mutual

/-- The expression with every type, bare name and name of a call without a scope renamed, parents
before their parts and parts in the order of the text. -/
def renameM {m : Type → Type} [Monad m] (r : Renaming m) : Expr → m Expr
  | literal span kind value => pure (literal span kind value)
  | name span n => return name span (← r.name n)
  | this span => pure (this span)
  | field span scope n => return field span (← scope.renameM r) n
  | call span n args => do
    let n ← r.call n
    return call span n (← renameListM r args)
  | method span scope n args => do
    let scope ← scope.renameM r
    return method span scope n (← renameListM r args)
  | index span array position => do
    let array ← array.renameM r
    return index span array (← position.renameM r)
  | creation span type args => do
    let type ← r.type type
    return creation span type (← renameListM r args)
  | cast span type operand => do
    let type ← r.type type
    return cast span type (← operand.renameM r)
  | instanceOf span operand type => do
    let type ← r.type type
    return instanceOf span (← operand.renameM r) type
  | classLiteral span type => return classLiteral span (← r.type type)
  | unary span op operand => return unary span op (← operand.renameM r)
  | binary span op left right => do
    let left ← left.renameM r
    return binary span op left (← right.renameM r)
  | conditional span condition whenTrue whenFalse => do
    let condition ← condition.renameM r
    let whenTrue ← whenTrue.renameM r
    return conditional span condition whenTrue (← whenFalse.renameM r)
  | assign span op target value => do
    let target ← target.renameM r
    return assign span op target (← value.renameM r)
  | enclosed span inner => return enclosed span (← inner.renameM r)

/-- `renameM` on each expression of a list. -/
def renameListM {m : Type → Type} [Monad m] (r : Renaming m) : List Expr → m (List Expr)
  | [] => pure []
  | e :: es => do
    let e ← e.renameM r
    return e :: (← renameListM r es)

end

/-- The expression with its types, bare names and names of calls without a scope replaced. -/
def rename (type : TypeRef → TypeRef) (name call : String → String) (e : Expr) : Expr :=
  e.renameM (m := Id) ⟨type, name, call⟩

/-! ## Leading casts -/

/-- The type of the cast that the expression starts with, and the expression without that cast. In a
chain of binary operators the cast is that of the leftmost operand: `(int) 15 + 5` is `15 + 5` of
type `int`. A cast inside parentheses leads nothing. -/
def leadingCast? : Expr → Option (TypeRef × Expr)
  | cast _ type operand => some (type, operand)
  | binary span op left right =>
    (leadingCast? left).map fun (type, left) => (type, binary span op left right)
  | _ => none

/-- The expression without the cast it starts with, and the type of that cast. -/
def takeLeadingCast (e : Expr) : Expr × Option TypeRef :=
  match e.leadingCast? with
  | some (type, e) => (e, some type)
  | none => (e, none)

/-- The dotted name that a chain of names and fields spells. -/
def qualifiedName? : Expr → Option String
  | name _ n => some n
  | field _ scope n => scope.qualifiedName?.map (· ++ "." ++ n)
  | _ => none

end Expr

end Stencil
