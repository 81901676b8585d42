import ClassCompiler.Text.Quoted

/-!
# Literals and operators

Key definitions: `Literal`, `BinaryOp`, `UnaryOp`, and their texts `Literal.text`,
`BinaryOp.symbol`, `UnaryOp.symbol`.
-/

namespace ClassCompiler

inductive Literal where
  | integer (value : Int64)
  | boolean (value : Bool)
  | char (value : Char)
  | string (value : String)
  | null
deriving DecidableEq

namespace Literal

/-- A literal as it is shown: characters and texts in quotes. -/
def text : Literal → String
  | .integer n => toString n.toInt
  | .boolean b => if b then "true" else "false"
  | .char c => Text.quoteChar c
  | .string s => Text.quote s
  | .null => "null"

end Literal

/-- The operators with two operands. `bitAnd` and `bitOr` evaluate both of
them, `and` and `or` the second only if the first leaves the answer open. -/
inductive BinaryOp where
  | add | sub | mul | div | mod
  | lt | le | gt | ge | eq | ne
  | bitAnd | bitOr | and | or
deriving DecidableEq

namespace BinaryOp

def all : List BinaryOp :=
  [.add, .sub, .mul, .div, .mod, .lt, .le, .gt, .ge, .eq, .ne, .bitAnd, .bitOr, .and, .or]

def symbol : BinaryOp → String
  | .add => "+"
  | .sub => "-"
  | .mul => "*"
  | .div => "/"
  | .mod => "%"
  | .lt => "<"
  | .le => "<="
  | .gt => ">"
  | .ge => ">="
  | .eq => "=="
  | .ne => "!="
  | .bitAnd => "&"
  | .bitOr => "|"
  | .and => "&&"
  | .or => "||"

def name : BinaryOp → String
  | .add => "Add"
  | .sub => "Sub"
  | .mul => "Mul"
  | .div => "Div"
  | .mod => "Mod"
  | .lt => "Lt"
  | .le => "Le"
  | .gt => "Gt"
  | .ge => "Ge"
  | .eq => "Eq"
  | .ne => "Ne"
  | .bitAnd => "BitAnd"
  | .bitOr => "BitOr"
  | .and => "And"
  | .or => "Or"

def ofName? (s : String) : Option BinaryOp :=
  all.find? (·.name = s)

@[simp] theorem ofName?_name (op : BinaryOp) : ofName? op.name = some op := by
  cases op <;> decide

end BinaryOp

inductive UnaryOp where
  | minus
  | not
deriving DecidableEq

namespace UnaryOp

def all : List UnaryOp := [.minus, .not]

def symbol : UnaryOp → String
  | .minus => "-"
  | .not => "!"

def name : UnaryOp → String
  | .minus => "Minus"
  | .not => "Not"

def ofName? (s : String) : Option UnaryOp :=
  all.find? (·.name = s)

@[simp] theorem ofName?_name (op : UnaryOp) : ofName? op.name = some op := by
  cases op <;> decide

end UnaryOp
end ClassCompiler
