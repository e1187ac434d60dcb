import Mathlib.Data.String.Basic

/-!
# Expressions of the Verilog templating language

`compile_expr` of `VTLCompiler` takes a Python expression to the nodes of `parse_ast`,
and `compile` of a node writes its text. Only the expressions are modelled here:
names, integers, comparisons, `and` and `or`, binary and unary operators.
-/

namespace Pigasus

/-! ## Python's side: the classes of `ast` -/

inductive PyCmpOp
  | eq | notEq | lt | ltE | gt | gtE | is | isNot | in | notIn
  deriving DecidableEq

inductive PyBoolOp
  | and | or
  deriving DecidableEq

inductive PyOperator
  | add | sub | mult | matMult | div | mod | pow | lShift | rShift | bitOr | bitXor | bitAnd | floorDiv
  deriving DecidableEq

inductive PyUnaryOp
  | invert | not | uAdd | uSub
  deriving DecidableEq

mutual

/-- A comparison has one operator and comparator at least, `and` and `or` have two values at least. -/
inductive PyExpr
  | name (id : String)
  | num (n : Nat)
  | compare (left : PyExpr) (op : PyCmpOp) (comparator : PyExpr) (more : PyChain)
  | boolOp (op : PyBoolOp) (first second : PyExpr) (more : PyList)
  | binOp (left : PyExpr) (op : PyOperator) (right : PyExpr)
  | unaryOp (op : PyUnaryOp) (operand : PyExpr)

/-- The rest of a chained comparison. -/
inductive PyChain
  | nil
  | cons (op : PyCmpOp) (comparator : PyExpr) (more : PyChain)

inductive PyList
  | nil
  | cons (e : PyExpr) (more : PyList)

end

/-! ## `parse_ast` -/

inductive BinOpType
  | and | or | add | sub | gt | lt | gtEq | mul | eq | notEq | div | sl | pow
  deriving DecidableEq

inductive UnaryOpType
  | complement | not
  deriving DecidableEq

namespace BinOpType

def toText : BinOpType → String
  | and => "&&"
  | or => "||"
  | add => "+"
  | sub => "-"
  | gt => ">"
  | lt => "<"
  | gtEq => ">="
  | mul => "*"
  | eq => "=="
  | notEq => "!="
  | div => "/"
  | sl => "<<"
  | pow => "**"

/-- `from_string`; an unrecognized operator is reported and gives `None`. -/
def fromString (s : String) : Option BinOpType :=
  if s = "&&" then some and
  else if s = "||" then some or
  else if s = "+" then some add
  else if s = "-" then some sub
  else if s = ">" then some gt
  else if s = "<" then some lt
  else if s = ">=" then some gtEq
  else if s = "*" then some mul
  else if s = "==" then some eq
  else if s = "!=" then some notEq
  else if s = "/" then some div
  else if s = "<<" then some sl
  else if s = "**" then some pow
  else none

end BinOpType

namespace UnaryOpType

def toText : UnaryOpType → String
  | complement => "~"
  | not => "!"

def fromString (s : String) : UnaryOpType := if s = "~" then complement else not

end UnaryOpType

inductive VtlNode
  | constant (value : Nat)
  | name (name : String)
  | unaryOp (op : UnaryOpType) (operand : VtlNode)
  | binaryOp (op : Option BinOpType) (lhs rhs : VtlNode)

/-- The text of a node; a missing operator has no `to_string` and raises. -/
def VtlNode.compile : VtlNode → Option String
  | constant value => some (toString value)
  | name n => some n
  | unaryOp op e => e.compile.map fun t => "(" ++ op.toText ++ t ++ ")"
  | binaryOp op l r =>
    l.compile.bind fun a => op.bind fun o => r.compile.map fun b => "(" ++ a ++ " " ++ o.toText ++ " " ++ b ++ ")"

def mkBinary (op : String) (l r : VtlNode) : VtlNode := .binaryOp (BinOpType.fromString op) l r

def mkUnary (op : String) (e : VtlNode) : VtlNode := .unaryOp (UnaryOpType.fromString op) e

/-! ## `VTLCompiler` -/

/-- `str.replace`: from the left, `skip` characters belong to the last match. -/
def replaceText (query value : List Char) : Nat → List Char → List Char
  | _, [] => []
  | skip + 1, _ :: cs => replaceText query value skip cs
  | 0, c :: cs =>
    if query.isPrefixOf (c :: cs) then value ++ replaceText query value (query.length - 1) cs
    else c :: replaceText query value 0 cs

/-- What `compile_name` reads besides the name. -/
structure VtlScope where
  -- `get_caller_global` and `str` of the object that it finds
  callerGlobal : String → Option String
  insideFor : Bool
  forVar : String
  forValue : String

namespace VtlScope

variable (sc : VtlScope)

def nameText (id : String) : String :=
  let text := (sc.callerGlobal id).getD id
  if sc.insideFor then
    String.ofList (replaceText ("_" ++ sc.forVar ++ "_").toList sc.forValue.toList 0 text.toList)
  else text

/-- An operator that is not listed is taken for `==`. -/
def compareText : PyCmpOp → String
  | .eq => "=="
  | .gt => ">"
  | .lt => "<"
  | .notEq => "!="
  | _ => "=="

def boolText : PyBoolOp → String
  | .and => "&&"
  | .or => "||"

def binText : PyOperator → String
  | .add => "+"
  | .mult => "*"
  | .sub => "-"
  | .div => "/"
  | .lShift => "<<"
  | .pow => "**"
  | _ => "+"

def unaryText : PyUnaryOp → String
  | .invert => "~"
  | .not => "!"
  | _ => "~"

/-- The loop over `values_reversed`. -/
def boolNode (op : String) (values : List VtlNode) : VtlNode :=
  match values.reverse with
  | last :: prev :: rest => rest.foldl (fun node n => mkBinary op n node) (mkBinary op prev last)
  -- Python's parser gives two values at least
  | _ => .name ""

mutual

def compileExpr : PyExpr → VtlNode
  | .num n => .constant n
  -- only `ops[0]` and `comparators[0]` are read
  | .compare left op comparator _ => mkBinary (compareText op) (compileExpr left) (compileExpr comparator)
  | .boolOp op first second more => boolNode (boolText op) (compileExpr first :: compileExpr second :: compileList more)
  | .binOp left op right => mkBinary (binText op) (compileExpr left) (compileExpr right)
  | .unaryOp op operand => mkUnary (unaryText op) (compileExpr operand)
  | .name id => .name (sc.nameText id)

def compileList : PyList → List VtlNode
  | .nil => []
  | .cons e more => compileExpr e :: compileList more

end

end VtlScope

end Pigasus
