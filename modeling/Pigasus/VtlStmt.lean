import Pigasus.Vtl

/-!
# Statements of the Verilog templating language

`visit_Assign`, `visit_If`, `visit_For` and `visit_With` of `VTLCompiler` inside a module,
for assignments to names, and `compile` of the nodes they build. The loop variable lives in
fields of the compiler, so a visit goes from scope to scope. `none` stands for an exception.
-/

namespace Pigasus

/-! ## Python's side -/

inductive PyArg
  | num (n : Nat)
  | name (id : String)

inductive PyRange
  | one (stop : PyArg)
  | two (start stop : PyArg)
  | three (start stop step : PyArg)

inductive PyBlock
  | nil
  | assign (target : String) (value : PyExpr) (rest : PyBlock)
  | ite (test : PyExpr) (body orelse rest : PyBlock)
  | for_ (target : String) (iter : PyRange) (body rest : PyBlock)

def PyBlock.isEmpty : PyBlock → Bool
  | nil => true
  | _ => false

/-- `with AlwaysComb:` and `with AlwaysFF(edge, signal):` -/
inductive PyWith
  | alwaysComb (body : PyBlock)
  | alwaysFF (edge signal : String) (body : PyBlock)

/-- The numbers of `range(start, stop, step)`; a step of zero raises. -/
def pyRange (start stop step : Int) : Option (List Int) :=
  if step = 0 then none
  else
    let count := if 0 < step then (stop - start + step - 1) / step else (start - stop - step - 1) / -step
    some ((List.range count.toNat).map fun i => start + i * step)

/-! ## `parse_ast` -/

inductive AssignmentType
  | con | comb | ff
  deriving DecidableEq

inductive TriggerType
  | posedge | negedge
  deriving DecidableEq

namespace TriggerType

def toText : TriggerType → String
  | posedge => "posedge"
  | negedge => "negedge"

def fromString (s : String) : TriggerType := if s = "negedge" then negedge else posedge

end TriggerType

/-- The `statements` of a `Block`; `ifThen` is an `IfElse` without `else_block`. -/
inductive VtlBlock
  | nil
  | assign (type : AssignmentType) (lhs rhs : VtlNode) (rest : VtlBlock)
  | ifThen (condition : VtlNode) (ifBlock rest : VtlBlock)
  | ifElse (condition : VtlNode) (ifBlock elseBlock rest : VtlBlock)

inductive VtlProcess
  | alwaysComb (block : VtlBlock)
  | alwaysFF (type : TriggerType) (triggerSignal : VtlNode) (block : VtlBlock)

def indentStr (k : Nat) : String := String.ofList (List.replicate (4 * k) ' ')

/-- `compile` of `ConAssign`, `CombAssign` and `FFAssign` -/
def assignText (lhs rhs : String) : AssignmentType → String
  | .con => "assign " ++ lhs ++ " = " ++ rhs ++ ";"
  | .comb => lhs ++ " = " ++ rhs ++ ";"
  | .ff => lhs ++ " <= " ++ rhs ++ ";"

namespace VtlBlock

def append : VtlBlock → VtlBlock → VtlBlock
  | nil, b => b
  | assign type lhs rhs rest, b => assign type lhs rhs (rest.append b)
  | ifThen c t rest, b => ifThen c t (rest.append b)
  | ifElse c t e rest, b => ifElse c t e (rest.append b)

/-- What `compile` of a `Block` joins. -/
def lines (k : Nat) : VtlBlock → Option (List String)
  | nil => some []
  | assign type lhs rhs rest =>
    lhs.compile.bind fun a => rhs.compile.bind fun b => (rest.lines k).map fun ls => (indentStr k ++ assignText a b type) :: ls
  | ifThen c t rest =>
    c.compile.bind fun a => (t.lines (k + 1)).bind fun ts => (rest.lines k).map fun ls =>
      (indentStr k ++ ("if (" ++ a ++ ") begin\n" ++ "\n".intercalate ts ++ "\n    " ++ indentStr (k - 1) ++ "end")) :: ls
  | ifElse c t e rest =>
    c.compile.bind fun a => (t.lines (k + 1)).bind fun ts => (e.lines (k + 1)).bind fun es => (rest.lines k).map fun ls =>
      (indentStr k ++ ("if (" ++ a ++ ") begin\n" ++ "\n".intercalate ts ++ "\n    " ++ indentStr (k - 1) ++ "end" ++
        ("\n    " ++ indentStr (k - 1) ++ "else begin\n" ++ "\n".intercalate es ++ "\n    " ++ indentStr (k - 1) ++ "end"))) :: ls

def compile (k : Nat) (b : VtlBlock) : Option String := (b.lines k).map "\n".intercalate

end VtlBlock

def VtlProcess.compile (k : Nat) : VtlProcess → Option String
  | alwaysComb block => (block.compile (k + 1)).map fun t =>
      indentStr (k - 1) ++ "always_comb begin\n" ++ t ++ "\n    " ++ indentStr (k - 1) ++ "end"
  | alwaysFF type signal block => signal.compile.bind fun s => (block.compile (k + 1)).map fun t =>
      indentStr (k - 1) ++ "always_ff @(" ++ type.toText ++ " " ++ s ++ ") begin\n" ++ t ++ "\n    " ++ indentStr (k - 1) ++ "end"

/-! ## `VTLCompiler` -/

namespace VtlScope

section
-- the globals of the caller that are numbers
variable (ints : String → Option Int)

def globalValue : PyArg → Option Int
  | .num n => some n
  | .name id => ints id

def iterations : PyRange → Option (List Int)
  | .one stop => (globalValue ints stop).bind fun n => pyRange 0 n 1
  -- with more than one argument the third is read
  | .two _ _ => none
  | .three start stop step =>
    (globalValue ints start).bind fun a => (globalValue ints stop).bind fun b => (globalValue ints step).bind (pyRange a b)

def visitEach (body : VtlScope → Option (VtlBlock × VtlScope)) : List Int → VtlScope → Option (VtlBlock × VtlScope)
  | [], sc => some (.nil, sc)
  | i :: is, sc => (body { sc with forValue := toString i }).bind fun p => (visitEach body is p.2).map fun q => (p.1.append q.1, q.2)

def visitBlock (type : AssignmentType) : PyBlock → VtlScope → Option (VtlBlock × VtlScope)
  | .nil, sc => some (.nil, sc)
  | .assign target value rest, sc => (visitBlock type rest sc).map fun p =>
      (.assign type (.name (sc.nameText target)) (sc.compileExpr value) p.1, p.2)
  | .ite test body orelse rest, sc =>
    (visitBlock type body sc).bind fun t =>
      if orelse.isEmpty then
        (visitBlock type rest t.2).map fun p => (.ifThen (sc.compileExpr test) t.1 p.1, p.2)
      else
        (visitBlock type orelse t.2).bind fun e => (visitBlock type rest e.2).map fun p =>
          (.ifElse (sc.compileExpr test) t.1 e.1 p.1, p.2)
  | .for_ target iter body rest, sc =>
    (iterations ints iter).bind fun is =>
      (visitEach (visitBlock type body) is { sc with forVar := target, insideFor := true }).bind fun p =>
        (visitBlock type rest { p.2 with insideFor := false }).map fun q => (p.1.append q.1, q.2)

def visitWith (sc : VtlScope) : PyWith → Option (VtlProcess × VtlScope)
  | .alwaysComb body => (visitBlock ints .comb body sc).map fun p => (.alwaysComb p.1, p.2)
  | .alwaysFF edge signal body => (visitBlock ints .ff body sc).map fun p =>
      (.alwaysFF (TriggerType.fromString edge) (.name (sc.nameText signal)) p.1, p.2)

end

end VtlScope

end Pigasus
