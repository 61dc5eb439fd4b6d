import Stencil.Expr.Basic

/-!
# Printing expressions

An expression is printed with one blank around operators, one behind a comma and one behind a cast.
The printer adds no parentheses: those of the source are nodes of the tree.
-/

namespace Stencil

/-- One character inside a literal with the given quote. -/
def Quoted.escapeChar (quote c : Char) : List Char :=
  match c with
  | '\\' => ['\\', '\\']
  | '\n' => ['\\', 'n']
  | '\t' => ['\\', 't']
  | '\r' => ['\\', 'r']
  | '\x08' => ['\\', 'b']
  | '\x0C' => ['\\', 'f']
  | '\x00' => ['\\', '0']
  | c => if c = quote then ['\\', c] else [c]

/-- A literal that denotes the text, with its quotes. -/
def Quoted.print (quote : Char) (value : String) : String :=
  String.ofList (quote :: value.toList.flatMap (escapeChar quote) ++ [quote])

namespace Expr

mutual

/-- The text of an expression. -/
def print : Expr → String
  | literal _ kind value =>
    match kind with
    | .string => Quoted.print '"' value
    | .character => Quoted.print '\'' value
    | _ => value
  | name _ n => n
  | this _ => "this"
  | field _ scope n => scope.print ++ "." ++ n
  | call _ n args => n ++ printArgs args
  | method _ scope n args => scope.print ++ "." ++ n ++ printArgs args
  | index _ array position => array.print ++ "[" ++ position.print ++ "]"
  | creation _ type args => "new " ++ type.print ++ printArgs args
  | cast _ type operand => "(" ++ type.print ++ ") " ++ operand.print
  | instanceOf _ operand type => operand.print ++ " instanceof " ++ type.print
  | classLiteral _ type => type.print ++ ".class"
  | unary _ op operand =>
    if op.isBehind then operand.print ++ op.sign.text else op.sign.text ++ operand.print
  | binary _ op left right => left.print ++ " " ++ op.text ++ " " ++ right.print
  | conditional _ condition whenTrue whenFalse =>
    condition.print ++ " ? " ++ whenTrue.print ++ " : " ++ whenFalse.print
  | assign _ op target value => target.print ++ " " ++ op.text ++ " " ++ value.print
  | enclosed _ inner => "(" ++ inner.print ++ ")"

/-- The text of the arguments of a call. -/
def printArgs (args : List Expr) : String := "(" ++ Text.joinWith ", " (printList args) ++ ")"

/-- The texts of several expressions. -/
def printList : List Expr → List String
  | [] => []
  | e :: es => e.print :: printList es

end

end Expr

end Stencil
