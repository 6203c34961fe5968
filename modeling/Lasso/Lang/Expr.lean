import Lasso.Lang.Token
/-!
# Expressions and statements

The trees that texts of the grammar are read as. Expressions with a meaning keep their parts. The
grammar has many more forms of expressions and statements; of these only the form is kept, because
a program that uses one is refused with the form's name.
-/

namespace Lasso.Lang

/-- The direction of a channel type. -/
inductive Direction where
  | both
  | send
  | receive
  deriving DecidableEq, Repr

/-- A channel type: its direction, and its element when that is a channel type again. -/
inductive ChannelType where
  | plain (d : Direction)
  | nested (d : Direction) (element : ChannelType)
  deriving DecidableEq, Repr

/-- An arrow before a channel type makes it a receiving one; the arrows of nested types move
inwards. Refused when there is no place for an arrow. -/
def ChannelType.receive? : ChannelType → Option ChannelType
  | .plain .both => some (.plain .receive)
  | .plain _ => none
  | .nested .both e => some (.nested .receive e)
  | .nested .send e => e.receive?.map (.nested .receive)
  | .nested .receive _ => none

/-- Forms of expressions that have no value, and forms of types. -/
inductive Form where
  /-- A literal that is neither an integer nor a string. -/
  | literal
  | star
  | selector
  | index
  | indexList
  | slice
  /-- A type assertion; `open_` when the word `type` stands for the type. -/
  | typeAssert (open_ : Bool)
  | composite
  | funcLit
  | arrayType
  | structType
  | funcType
  | interfaceType
  | mapType
  | chanType (t : ChannelType)
  | ellipsis
  deriving DecidableEq, Repr

/-- An expression. -/
inductive Expr where
  | name (s : String)
  | int (digits : String)
  | str (value : Bytes)
  | paren (e : Expr)
  | unary (op : Op) (e : Expr)
  | binary (op : Op) (l r : Expr)
  /-- A call with one argument; `spread` when an ellipsis follows it. -/
  | call (f arg : Expr) (spread : Bool)
  /-- A call without arguments or with several. -/
  | callMany (f : Expr)
  | other (form : Form)
  deriving DecidableEq, Repr

namespace Form

/-- The name of a form in reports. -/
def text : Form → String
  | .literal => "*ast.BasicLit"
  | .star => "*ast.StarExpr"
  | .selector => "*ast.SelectorExpr"
  | .index => "*ast.IndexExpr"
  | .indexList => "*ast.IndexListExpr"
  | .slice => "*ast.SliceExpr"
  | .typeAssert _ => "*ast.TypeAssertExpr"
  | .composite => "*ast.CompositeLit"
  | .funcLit => "*ast.FuncLit"
  | .arrayType => "*ast.ArrayType"
  | .structType => "*ast.StructType"
  | .funcType => "*ast.FuncType"
  | .interfaceType => "*ast.InterfaceType"
  | .mapType => "*ast.MapType"
  | .chanType _ => "*ast.ChanType"
  | .ellipsis => "*ast.Ellipsis"

end Form

namespace Expr

/-- The name of an expression's form in reports. -/
def formText : Expr → String
  | .name _ => "*ast.Ident"
  | .int _ | .str _ => Form.literal.text
  | .paren _ => "*ast.ParenExpr"
  | .unary _ _ => "*ast.UnaryExpr"
  | .binary _ _ _ => "*ast.BinaryExpr"
  | .call _ _ _ | .callMany _ => "*ast.CallExpr"
  | .other f => f.text

/-- The expression inside all its parentheses. -/
def unparen : Expr → Expr
  | .paren e => e.unparen
  | e => e

/-- Whether the expression can only be a type or a set of types. -/
def isTypeElement : Expr → Bool
  | .other .arrayType | .other .structType | .other .funcType | .other .interfaceType
  | .other .mapType | .other (.chanType _) => true
  | .binary _ l r => l.isTypeElement || r.isTypeElement
  | .unary op _ => op = .tilde
  | .paren e => e.isTypeElement
  | _ => false

/-- Whether a call is meant. -/
def isCall : Expr → Bool
  | .call _ _ _ | .callMany _ => true
  | _ => false

end Expr

/-- A statement. -/
inductive Stmt where
  | empty
  | assign (lhs : List Expr) (op : Op) (rhs : List Expr)
  | increment (e : Expr)
  | decrement (e : Expr)
  | expr (e : Expr)
  | labeled
  | other
  deriving DecidableEq, Repr

end Lasso.Lang
