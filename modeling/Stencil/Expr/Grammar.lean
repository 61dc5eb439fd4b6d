import Stencil.Expr.Basic
import Stencil.TypeRef.Parser

/-!
# Reading expressions

One function a level of precedence, from assignments down to names and literals. Each level is
written over the next one, and over the parsers of nested expressions where the grammar goes back to
the top (`Nested`). `Nested.ofDepth n` reads what is nested less than `n` deep. Every way back to the
top takes a token first, so one more than the number of tokens is depth enough.

Three decisions of the grammar need more than the next token:

* `>` signs that touch are a shift or an assignment operator (`shiftOperator?`, `assignOperator?`);
* an opening parenthesis before a type starts a cast if a closing one follows the type, and, behind
  a class type, if what comes next may start an operand (`castType?`);
* a chain of names before `.class` is a type (`classLiteral`).
-/

namespace Stencil

/-! ## Operators -/

/-- The kind of a number literal, by its spelling. -/
def LiteralKind.ofNumber (spelling : String) : LiteralKind :=
  let text := spelling.toList.map Char.toLower
  let last := text.getLast?
  if ['0', 'x'].isPrefixOf text then if last = some 'l' then .long else .int
  else if last = some 'l' then .long
  else if last = some 'f' then .float
  else if last = some 'd' || text.contains '.' || text.contains 'e' then .double
  else .int

namespace Cursor

/-- The result for a sign, and the cursor behind it. -/
def signOf? {α : Type} (f : Sign → Option α) (c : Cursor) : Option (α × Cursor) :=
  match c.tokens with
  | ⟨.sign s, span⟩ :: rest => (f s).map fun a => (a, ⟨rest, span.stop⟩)
  | _ => none

/-- The shift operator at the cursor. Three touching `>` are an unsigned shift and two a signed one,
unless a `>=` touches the two: that is an assignment. -/
def shiftOperator? (c : Cursor) : Option (BinaryOp × Cursor) :=
  match c.tokens with
  | ⟨.sign .shiftLeft, span⟩ :: rest => some (.leftShift, ⟨rest, span.stop⟩)
  | t₁@⟨.sign .greater, _⟩ :: t₂@⟨.sign .greater, s₂⟩ :: rest =>
    if t₁.touches t₂ then
      match rest with
      | t₃@⟨.sign .greater, s₃⟩ :: rest' =>
        if t₂.touches t₃ then some (.unsignedRightShift, ⟨rest', s₃.stop⟩)
        else some (.rightShift, ⟨rest, s₂.stop⟩)
      | t₃@⟨.sign .greaterEqual, _⟩ :: _ =>
        if t₂.touches t₃ then none else some (.rightShift, ⟨rest, s₂.stop⟩)
      | _ => some (.rightShift, ⟨rest, s₂.stop⟩)
    else none
  | _ => none

/-- The assignment operator that a single sign is. -/
def assignSign? : Sign → Option AssignOp
  | .assign => some .assign
  | .plusAssign => some .plus
  | .minusAssign => some .minus
  | .starAssign => some .multiply
  | .slashAssign => some .divide
  | .percentAssign => some .remainder
  | .ampAssign => some .bitAnd
  | .barAssign => some .bitOr
  | .caretAssign => some .xor
  | .shiftLeftAssign => some .leftShift
  | _ => none

/-- The assignment operator at the cursor. -/
def assignOperator? (c : Cursor) : Option (AssignOp × Cursor) :=
  match c.tokens with
  | t₁@⟨.sign .greater, _⟩ :: t₂@⟨.sign .greaterEqual, s₂⟩ :: rest =>
    if t₁.touches t₂ then some (.rightShift, ⟨rest, s₂.stop⟩) else none
  | t₁@⟨.sign .greater, _⟩ :: t₂@⟨.sign .greater, _⟩ :: t₃@⟨.sign .greaterEqual, s₃⟩ :: rest =>
    if t₁.touches t₂ && t₂.touches t₃ then some (.unsignedRightShift, ⟨rest, s₃.stop⟩) else none
  | _ => c.signOf? assignSign?

/-- Whether the next token may start the operand of a cast to a class type. -/
def startsOperand (c : Cursor) : Bool :=
  match c.tokens with
  | [] => false
  | token :: _ =>
    match token.lexeme with
    | .identifier _ | .number _ | .string _ | .character _ => true
    | .keyword k =>
      [.this, .newObject, .trueValue, .falseValue, .nullValue, .super].contains k
    | .punctuation p => p == '('
    | .sign s => s == .bang || s == .tilde

end Cursor

namespace Grammar

/-- The parsers of nested expressions. -/
structure Nested where
  assignment : Parser Expr
  conditional : Parser Expr
  prefixed : Parser Expr

/-! ## Names, literals and calls -/

/-- The arguments of a call with commas between them, at most `n + 1`, and the closing
parenthesis. -/
def argumentList (nested : Nested) : Nat → Parser (List Expr)
  | 0, c => do
    let (arg, c) ← nested.assignment c
    let c ← c.expect ')'
    return ([arg], c)
  | n + 1, c => do
    let (arg, c) ← nested.assignment c
    match c.punctuation? ',' with
    | some c => do
      let (args, c) ← argumentList nested n c
      return (arg :: args, c)
    | none => do
      let c ← c.expect ')'
      return ([arg], c)

/-- The arguments of a call in their parentheses. -/
def arguments (nested : Nested) : Parser (List Expr) := fun c => do
  let c ← c.expect '('
  match c.punctuation? ')' with
  | some c => return ([], c)
  | none => argumentList nested c.tokens.length c

/-- The literal of the class whose name the expression spells. -/
def classLiteral (start : Nat) (receiver : Expr) (dims : Nat) (c : Cursor) :
    Except SyntaxError Expr :=
  match receiver.qualifiedName? with
  | some name => .ok (.classLiteral (c.spanFrom start) (.named name [] dims))
  | none => .error .typeBeforeClass

/-- What a reserved word starts. -/
def keyword (nested : Nested) (word : Keyword) (start : Nat) (behind : Cursor) : Parser Expr :=
  fun c =>
    match word with
    | .trueValue | .falseValue =>
      return (.literal (behind.spanFrom start) .boolean word.text, behind)
    | .nullValue => return (.literal (behind.spanFrom start) .null word.text, behind)
    | .this => return (.this (behind.spanFrom start), behind)
    | .newObject => do
      let (type, c) ← TypeRef.readClass behind
      if c.isAt '[' then .error .arrayCreation
      else do
        let (args, c) ← arguments nested c
        return (.creation (c.spanFrom start) type args, c)
    | .primitive _ | .voidType => do
      let (type, c) ← TypeRef.read c
      let c ← c.expect '.'
      match c.keyword? .classOf with
      | some c => return (.classLiteral (c.spanFrom start) type, c)
      | none => .error (.unexpectedToken word.text)
    | .super | .instanceOf | .classOf => .error (.unsupportedKeyword word.text)

/-- A literal, a name, a call without a scope, or an expression in parentheses. -/
def primary (nested : Nested) : Parser Expr := fun c =>
  let start := c.start
  match c.tokens with
  | [] => .error .unexpectedEnd
  | token :: rest =>
    let behind : Cursor := ⟨rest, token.span.stop⟩
    match token.lexeme with
    | .number spelling =>
      return (.literal (behind.spanFrom start) (.ofNumber spelling) spelling, behind)
    | .string value => return (.literal (behind.spanFrom start) .string value, behind)
    | .character value =>
      return (.literal (behind.spanFrom start) .character (String.singleton value), behind)
    | .identifier name =>
      if behind.isAt '(' then do
        let (args, c) ← arguments nested behind
        return (.call (c.spanFrom start) name args, c)
      else return (.name (behind.spanFrom start) name, behind)
    | .keyword word => keyword nested word start behind c
    | .punctuation p =>
      match p with
      | '(' => do
        let (inner, c) ← nested.assignment behind
        let c ← c.expect ')'
        return (.enclosed (c.spanFrom start) inner, c)
      | '\x7b' => .error .objectLiteral
      | '[' => .error .arrayLiteral
      | _ => .error (.unexpectedToken token.lexeme.text)
    | .sign _ => .error (.unexpectedToken token.lexeme.text)

/-- The rest of a chain of fields, calls, indices and class literals behind `receiver`, at most `n`
links long. -/
def chainRest (nested : Nested) (start : Nat) : Nat → Expr → Parser Expr
  | 0, receiver, c => return (receiver, c)
  | n + 1, receiver, c =>
    match c.punctuation? '.' with
    | some c =>
      match c.keyword? .classOf with
      | some c => do
        let literal ← classLiteral start receiver 0 c
        chainRest nested start n literal c
      | none => do
        let (name, c) ← c.identifier
        if c.isAt '(' then do
          let (args, c) ← arguments nested c
          chainRest nested start n (.method (c.spanFrom start) receiver name args) c
        else chainRest nested start n (.field (c.spanFrom start) receiver name) c
    | none =>
      match c.punctuation? '[' with
      | none => return (receiver, c)
      | some behind =>
        if behind.isAt ']' then do
          let (dims, c) := TypeRef.arrayDims c.lastEnd c.tokens
          let c ← c.expect '.'
          match c.keyword? .classOf with
          | some c => do
            let literal ← classLiteral start receiver dims c
            chainRest nested start n literal c
          | none => .error .classAfterArray
        else do
          let (position, c) ← nested.assignment behind
          let c ← c.expect ']'
          chainRest nested start n (.index (c.spanFrom start) receiver position) c

/-- A chain of fields, calls, indices and class literals. -/
def chain (nested : Nested) : Parser Expr := fun c => do
  let start := c.start
  let (receiver, c) ← primary nested c
  chainRest nested start c.tokens.length receiver c

/-! ## Operators with one operand -/

/-- The operator that stands behind its operand. -/
def postfixOp? : Sign → Option UnaryOp
  | .plusPlus => some .postIncrement
  | .minusMinus => some .postDecrement
  | _ => none

/-- The operators behind `operand`, at most `n`. -/
def postfixedRest (start : Nat) : Nat → Expr → Parser Expr
  | 0, operand, c => return (operand, c)
  | n + 1, operand, c =>
    match c.signOf? postfixOp? with
    | some (op, c) => postfixedRest start n (.unary (c.spanFrom start) op operand) c
    | none => return (operand, c)

/-- A chain with operators behind it. -/
def postfixed (nested : Nested) : Parser Expr := fun c => do
  let start := c.start
  let (operand, c) ← chain nested c
  postfixedRest start c.tokens.length operand c

/-- The type of the cast at the cursor, if there is a cast. Behind a parenthesis a primitive type
must be one. -/
def castType? (c : Cursor) : Except SyntaxError (Option (TypeRef × Cursor)) :=
  match c.punctuation? '(' with
  | none => return none
  | some behind =>
    match behind.tokens with
    | ⟨.keyword word, _⟩ :: _ =>
      if word.typeName?.isSome then
        match TypeRef.read behind with
        | .ok (type, c) =>
          match c.punctuation? ')' with
          | some c => return some (type, c)
          | none => .error .cast
        | .error _ => .error .cast
      else return none
    | ⟨.identifier _, _⟩ :: _ =>
      match TypeRef.read behind with
      | .ok (type, c) =>
        match c.punctuation? ')' with
        | some c => if c.startsOperand then return some (type, c) else return none
        | none => return none
      | .error _ => return none
    | _ => return none

/-- The operator that stands before its operand. -/
def prefixOp? : Sign → Option UnaryOp
  | .plus => some .plus
  | .minus => some .minus
  | .bang => some .not
  | .tilde => some .bitwiseNot
  | .plusPlus => some .preIncrement
  | .minusMinus => some .preDecrement
  | _ => none

/-- An expression with operators or casts before it. -/
def prefixed (nested : Nested) : Parser Expr := fun c => do
  let start := c.start
  match c.signOf? prefixOp? with
  | some (op, c) => do
    let (operand, c) ← nested.prefixed c
    return (.unary (c.spanFrom start) op operand, c)
  | none => do
    match ← castType? c with
    | some (type, c) => do
      let (operand, c) ← nested.prefixed c
      return (.cast (c.spanFrom start) type operand, c)
    | none => postfixed nested c

/-! ## Operators with two operands -/

/-- The operators of a level and their right operands behind `left`, at most `n`. -/
def binaryRest (operator? : Cursor → Option (BinaryOp × Cursor)) (next : Parser Expr) (start : Nat) :
    Nat → Expr → Parser Expr
  | 0, left, c => return (left, c)
  | n + 1, left, c =>
    match operator? c with
    | some (op, c) => do
      let (right, c) ← next c
      binaryRest operator? next start n (.binary (c.spanFrom start) op left right) c
    | none => return (left, c)

/-- A level of operators that group to the left, over the next level. -/
def binaryLevel (operator? : Cursor → Option (BinaryOp × Cursor)) (next : Parser Expr) :
    Parser Expr := fun c => do
  let start := c.start
  let (left, c) ← next c
  binaryRest operator? next start c.tokens.length left c

/-- Products. -/
def multiplicative (nested : Nested) : Parser Expr :=
  binaryLevel (·.signOf? fun
    | .star => some .multiply
    | .slash => some .divide
    | .percent => some .remainder
    | _ => none) (prefixed nested)

/-- Sums. -/
def additive (nested : Nested) : Parser Expr :=
  binaryLevel (·.signOf? fun
    | .plus => some .plus
    | .minus => some .minus
    | _ => none) (multiplicative nested)

/-- Shifts. -/
def shift (nested : Nested) : Parser Expr :=
  binaryLevel Cursor.shiftOperator? (additive nested)

/-- The comparison operator at the cursor. A `>` that starts an assignment operator is none. -/
def comparison? (c : Cursor) : Option (BinaryOp × Cursor) :=
  c.signOf? fun
    | .less => some .less
    | .lessEqual => some .lessEqual
    | .greaterEqual => some .greaterEqual
    | .greater => if c.assignOperator?.isNone then some .greater else none
    | _ => none

/-- The comparisons and type tests behind `left`, at most `n`. -/
def relationalRest (next : Parser Expr) (start : Nat) : Nat → Expr → Parser Expr
  | 0, left, c => return (left, c)
  | n + 1, left, c =>
    match c.keyword? .instanceOf with
    | some c => do
      let (type, c) ← TypeRef.read c
      relationalRest next start n (.instanceOf (c.spanFrom start) left type) c
    | none =>
      match comparison? c with
      | some (op, c) => do
        let (right, c) ← next c
        relationalRest next start n (.binary (c.spanFrom start) op left right) c
      | none => return (left, c)

/-- Comparisons and type tests. -/
def relational (nested : Nested) : Parser Expr := fun c => do
  let start := c.start
  let (left, c) ← shift nested c
  relationalRest (shift nested) start c.tokens.length left c

/-- Equalities. -/
def equality (nested : Nested) : Parser Expr :=
  binaryLevel (·.signOf? fun
    | .equalEqual => some .equal
    | .bangEqual => some .notEqual
    | _ => none) (relational nested)

/-- A level with a single operator. -/
def singleLevel (s : Sign) (op : BinaryOp) (next : Parser Expr) : Parser Expr :=
  binaryLevel (fun c => (c.sign? s).map fun c => (op, c)) next

/-- Bitwise conjunctions. -/
def bitAnd (nested : Nested) : Parser Expr := singleLevel .amp .bitAnd (equality nested)

/-- Bitwise exclusive disjunctions. -/
def xor (nested : Nested) : Parser Expr := singleLevel .caret .xor (bitAnd nested)

/-- Bitwise disjunctions. -/
def bitOr (nested : Nested) : Parser Expr := singleLevel .bar .bitOr (xor nested)

/-- Conjunctions. -/
def conjunction (nested : Nested) : Parser Expr := singleLevel .ampAmp .and (bitOr nested)

/-- Disjunctions. -/
def disjunction (nested : Nested) : Parser Expr := singleLevel .barBar .or (conjunction nested)

/-! ## Conditionals and assignments -/

/-- A disjunction, or a choice between two expressions. -/
def conditional (nested : Nested) : Parser Expr := fun c => do
  let start := c.start
  let (condition, c) ← disjunction nested c
  match c.sign? .question with
  | none => return (condition, c)
  | some c => do
    let (whenTrue, c) ← nested.assignment c
    let c ← c.expect ':'
    let (whenFalse, c) ← nested.conditional c
    return (.conditional (c.spanFrom start) condition whenTrue whenFalse, c)

/-- Whether something can be assigned to the expression. -/
def isTarget : Expr → Bool
  | .name .. | .field .. | .index .. => true
  | _ => false

/-- A conditional, or an assignment. -/
def assignment (nested : Nested) : Parser Expr := fun c => do
  let start := c.start
  let (target, c) ← conditional nested c
  match c.assignOperator? with
  | none => return (target, c)
  | some (op, c) =>
    if isTarget target then do
      let (value, c) ← nested.assignment c
      return (.assign (c.spanFrom start) op target value, c)
    else .error .assignmentTarget

/-- The parsers of expressions nested less than `n` deep. -/
def Nested.ofDepth : Nat → Nested
  | 0 =>
    { assignment := fun _ => .error .unexpectedEnd
      conditional := fun _ => .error .unexpectedEnd
      prefixed := fun _ => .error .unexpectedEnd }
  | n + 1 =>
    let nested := Nested.ofDepth n
    { assignment := Grammar.assignment nested
      conditional := Grammar.conditional nested
      prefixed := Grammar.prefixed nested }

end Grammar

namespace Expr

/-- Reads an expression from a cursor. -/
def read : Parser Expr := fun c => (Grammar.Nested.ofDepth (c.tokens.length + 1)).assignment c

/-- The expression that the tokens spell. -/
def ofTokens (tokens : List Token) : Except SyntaxError Expr :=
  if tokens.isEmpty then .error .empty
  else do
    let (e, c) ← read (.ofTokens tokens)
    c.expectEnd
    return e

/-- The expression that the text spells. -/
def parse (text : String) : Except SyntaxError Expr :=
  match Token.readAll text with
  | .error error => .error (.lexical error)
  | .ok tokens => ofTokens tokens

end Expr

end Stencil
