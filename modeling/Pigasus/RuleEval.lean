import Mathlib.Algebra.Group.Int.Defs
import Mathlib.Data.List.Basic
import Mathlib.Tactic.Common

/-!
# Evaluating a rule of content options

The two evaluators of the host: `eval_tree` with `eval_node`, and Snort's
`detection_option_node_evaluate`, on the option tree of a rule whose options are
contents. The tree is a path, and every node of it but the leaf has one child.
-/

namespace Pigasus

/-! ## The content option -/

/-- `PatternMatchData` of a content option; `distance` and `within` are kept in `offset` and `depth`. -/
structure Content where
  pattern : List UInt8
  offset : Int
  depth : Int
  negated : Bool
  noCase : Bool
  relative : Bool
  -- the parser refuses an empty pattern
  nonempty : pattern ≠ []

/-- `pos` and `delta` of a `Cursor`. -/
structure Cursor where
  pos : Nat
  delta : Nat
  deriving DecidableEq

/-- The beginning of the payload. -/
def Cursor.start : Cursor := ⟨0, 0⟩

def Cursor.copy (c : Cursor) : Cursor := { c with delta := 0 }

def upper (b : UInt8) : UInt8 := if 97 ≤ b ∧ b ≤ 122 then b - 32 else b

namespace Content

variable (o : Content) (data : List UInt8)

def size : Nat := o.pattern.length

/-- The loop of `set_max_jump_size` over the positions `is`, with `j` bytes of the pattern matched. -/
def jumpFrom (p : List UInt8) : List Nat → Nat → Nat
  | [], _ => p.length
  | i :: is, j =>
    if p[j]? ≠ p[i]? then jumpFrom p is 0
    else if i = p.length - 1 then p.length - j - 1
    else jumpFrom p is (j + 1)

/-- `match_delta`. -/
def matchDelta : Nat := jumpFrom o.pattern (List.range' 1 (o.size - 1)) 0

def sameByte (a b : UInt8) : Bool := if o.noCase then upper a == upper b else a == b

/-- The pattern stands at the beginning of `text`. -/
def standsAt (text : List UInt8) : Bool :=
  decide (o.size ≤ text.length) && (o.pattern.zip text).all fun ab => o.sameByte ab.1 ab.2

/-- `mSearch` and `mSearchCI`: the first occurrence in `text`. -/
def search (text : List UInt8) : Option Nat := (List.range (text.length + 1)).find? fun k => o.standsAt (text.drop k)

-- the first position that is searched, and how many bytes from there
def startPos (c : Cursor) : Int :=
  max 0 (if c.delta ≠ 0 then (c.delta : Int) else (if o.relative then (c.pos : Int) else 0) + o.offset)

def searchDepth (pos : Int) : Int :=
  let len := (data.length : Int) - pos
  if o.depth = 0 ∨ len < o.depth then len else o.depth

inductive Found
  | yes (c : Cursor)
  | no
  | outOfBounds

def uniSearchReal (c : Cursor) : Found :=
  let pos := o.startPos c
  let depth := o.searchDepth data pos
  let stop := pos + o.size
  if stop > data.length ∨ stop > pos + depth then
    if o.negated ∧ depth > 0 then .no else .outOfBounds
  else
    match o.search ((data.drop pos.toNat).take depth.toNat) with
    | some found => .yes ⟨pos.toNat + found + o.size, pos.toNat + found + o.matchDelta⟩
    | none => .no

/-- `CheckANDPatternMatch`: the cursor after a match. -/
def eval (c : Cursor) : Option Cursor :=
  match o.uniSearchReal data c with
  | .outOfBounds => none
  | .yes c' => if o.negated then none else some c'
  | .no => if o.negated then some c else none

/-- `retry`, in unsigned arithmetic. -/
def retry (c : Cursor) : Bool :=
  if o.negated then false
  else if o.depth = 0 then true
  else
    let min : Int := c.delta + o.size
    let max : Int := (c.delta - o.matchDelta + o.offset + o.depth) % 2 ^ 32
    decide (min ≤ max)

end Content

/-! ## `eval_tree` -/

inductive EvalStatus
  | noMatch | isMatch
  deriving DecidableEq

/-- `eval_node` on the path `os` to the leaf; the cursor is passed by value. -/
def evalNode (data : List UInt8) : List Content → Cursor → EvalStatus
  | [], _ => .isMatch
  | o :: os, c =>
    match o.eval data c.copy with
    | none => .noMatch
    | some c' => evalNode data os c'

def evalTree (os : List Content) (data : List UInt8) (c : Cursor) : EvalStatus := evalNode data os c.copy

/-! ## `detection_option_node_evaluate` -/

/-- What is kept of a node while a packet is evaluated: the result of the last check, if there was one, and the
result that its parent has stored. -/
structure NodeState where
  lastCheck : Option Nat
  result : Nat

/-- What an evaluation returns, and whether it came to the leaf. -/
structure Outcome where
  result : Nat
  reached : Bool

/-- The nodes from here to the leaf, and the call for the child with their states. -/
structure Child where
  options : List Content
  call : List NodeState → Cursor → Outcome × List NodeState

namespace Child

variable (ch : Child)

-- `relative_children`
def relative : Bool :=
  match ch.options with
  | [] => false
  | o :: _ => o.relative

/-- After the first round: a child whose result cannot change is not called again. -/
def settled (s : NodeState) : Bool :=
  match ch.options with
  | [] => s.result != 0
  | o :: _ => if s.result = 0 then !o.relative || o.depth == 0 else s.result == 1

/-- What a node adds to its result for the result `r` of its child. -/
def added (r : Nat) : Nat :=
  match ch.options with
  | [] => r
  | _ :: _ => if r = 1 then 1 else 0

end Child

/-- The content is searched again behind the occurrence at `c`. -/
def goesOn (o : Content) (ch : Child) (result : Nat) (c : Cursor) : Bool := result != 1 && ch.relative && o.retry c

/-- The loop over the occurrences of `o`; `n` bounds the rounds. -/
def nodeLoop (data : List UInt8) (o : Content) (ch : Child) :
    (n loopCount result : Nat) → Cursor → List NodeState → Outcome × List NodeState
  | 0, _, result, _, sts => (⟨result, false⟩, sts)
  | n + 1, loopCount, result, c, sts =>
    match o.eval data c with
    | none => (⟨result, false⟩, sts)
    | some c =>
      let s := sts.headD ⟨none, 0⟩
      if loopCount > 0 ∧ ch.settled s = true then
        -- a failed content is counted as done in the second round
        let result := if s.result = 0 ∧ loopCount = 1 then result + 1 else result
        if goesOn o ch result c then nodeLoop data o ch n (loopCount + 1) result c sts else (⟨result, false⟩, sts)
      else
        let out := (ch.call sts c).1
        let sts := (ch.call sts c).2.modifyHead fun s => { s with result := out.result }
        let result := result + ch.added out.result
        if goesOn o ch result c then
          let rest := nodeLoop data o ch n (loopCount + 1) result c sts
          (⟨rest.1.result, out.reached || rest.1.reached⟩, rest.2)
        else (⟨result, out.reached⟩, sts)

/-- The evaluation of the path `os`; the states are those of its nodes and of the leaf, whose header check is true. -/
def nodeEvaluate (data : List UInt8) : List Content → List NodeState → Cursor → Outcome × List NodeState
  | os, sts, c =>
    let s := sts.headD ⟨none, 0⟩
    match os with
    | [] =>
      match s.lastCheck with
      | some r => (⟨r, false⟩, sts)
      | none => (⟨1, true⟩, [{ s with lastCheck := some 1 }])
    | o :: os =>
      match s.lastCheck, o.relative with
      | some r, false => (⟨r, false⟩, sts)
      | _, _ =>
        let r := nodeLoop data o ⟨os, nodeEvaluate data os⟩ (data.length + 2) 0 0 c.copy sts.tail
        (r.1, { s with lastCheck := some r.1.result } :: r.2)

/-- The leaf is reached from empty caches. -/
def snortMatches (os : List Content) (data : List UInt8) (c : Cursor) : Bool :=
  (nodeEvaluate data os (List.replicate (os.length + 1) ⟨none, 0⟩) c).1.reached

end Pigasus
