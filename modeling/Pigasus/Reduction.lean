import Pigasus.Hdl
import Pigasus.Groups

/-!
# Rule reduction

`reduction_2t1` and `nf_reduction_2t1`: two streams of rule entries become one,
group by group, and an entry that comes a second time is dropped when it is the
one that its input has cached. The nodes make up the reduction trees of the
pattern matchers.
-/

namespace Pigasus

open Hdl

/-! ## Entries -/

structure RuleS where
  last : Bool
  bucket : BitVec 3
  data : BitVec 16
  deriving DecidableEq, Repr, Inhabited

structure RuleNf where
  last : Bool
  data : BitVec 13
  deriving DecidableEq, Repr

/-- What the two reduction modules have of their own: the entry with its `last` bit, the entry 0, and the comparison
of `same_data`. -/
structure RuleKind (α : Type) where
  last : α → Bool
  zero : α
  same : α → α → Bool

/-- `reduction_2t1` compares whole entries. -/
def reduction2t1 : RuleKind RuleS := ⟨RuleS.last, ⟨false, 0, 0⟩, fun a b => a == b⟩

/-- `nf_reduction_2t1` compares the `data` of two entries and not their `last`. -/
def nfReduction2t1 : RuleKind RuleNf := ⟨RuleNf.last, ⟨false, 0⟩, fun a b => a.data == b.data⟩

/-! ## The arbiter -/

namespace RrArbiter2

/-- `rr_arbiter` with two requests: `higher_pri_reqs`. -/
def higherPriReqs (req : BitVec 2) : BitVec 2 := BitVec.ofBoolListLE [false, req.getLsbD 0]

def grant (mask req : BitVec 2) : BitVec 2 :=
  let m := req &&& mask
  if m == 0 then req &&& ~~~ higherPriReqs req else m &&& ~~~ higherPriReqs m

def nextMask (mask req : BitVec 2) : BitVec 2 :=
  let m := req &&& mask
  if m != 0 then higherPriReqs m
  else if req != 0 then higherPriReqs req
  else mask

end RrArbiter2

/-! ## The node -/

structure RedIn (α : Type) where
  data0 : α
  valid0 : Bool
  data1 : α
  valid1 : Bool
  outReady : Bool

inductive RedState
  | sync | merge | mergeCache | arb
  deriving DecidableEq, Repr

/-- The registers of a node, with `output_fifo` and the mask of `arb_2_inst`. -/
structure Reduction (α : Type) where
  cache0 : α
  cacheValid0 : Bool
  cache1 : α
  cacheValid1 : Bool
  intData : α
  intValid : Bool
  fifo : List α
  almostFull : Bool
  mask : BitVec 2
  deriving DecidableEq

namespace Reduction

variable {α : Type}

def fullLevel : Nat := 20

def reset (κ : RuleKind α) : Reduction α where
  cache0 := κ.zero
  cacheValid0 := false
  cache1 := κ.zero
  cacheValid1 := false
  intData := κ.zero
  intValid := false
  fifo := []
  almostFull := false
  mask := 0b11

variable [DecidableEq α] (κ : RuleKind α) (s : Reduction α) (i : RedIn α)

def allLast : Bool := κ.last i.data0 && κ.last i.data1 && i.valid0 && i.valid1

def sameData : Bool := κ.same i.data0 i.data1 && i.valid0 && i.valid1

def cached0 : Bool := i.data0 == s.cache0 && i.valid0 && s.cacheValid0

def cached1 : Bool := i.data1 == s.cache1 && i.valid1 && s.cacheValid1

def state : RedState :=
  if allLast κ i then .sync
  else if sameData κ i then
    if s.cached0 i || s.cached1 i then .mergeCache else .merge
  else .arb

def req : BitVec 2 :=
  match s.state κ i with
  | .arb => BitVec.ofBoolListLE
    [i.valid0 && !κ.last i.data0 && !s.cached0 i && !s.almostFull,
      i.valid1 && !κ.last i.data1 && !s.cached1 i && !s.almostFull]
  | _ => 0

def grant : BitVec 2 := RrArbiter2.grant s.mask (s.req κ i)

def inReady0 : Bool :=
  match s.state κ i with
  | .sync | .merge => !s.almostFull
  | .mergeCache => true
  | .arb => (s.grant κ i).getLsbD 0 || s.cached0 i

def inReady1 : Bool :=
  match s.state κ i with
  | .sync | .merge => !s.almostFull
  | .mergeCache => true
  | .arb => (s.grant κ i).getLsbD 1 || s.cached1 i

/-- The registers after the edge, without the FIFO and the arbiter. -/
def update : Reduction α :=
  match s.state κ i with
  | .sync =>
    { s with
      intValid := !s.almostFull
      intData := i.data0
      cache0 := κ.zero
      cacheValid0 := false
      cache1 := κ.zero
      cacheValid1 := false }
  -- the cache is written also when the entry is held back
  | .merge => { s with intValid := !s.almostFull, intData := i.data0, cache0 := i.data0, cacheValid0 := true }
  | .mergeCache => { s with intValid := false }
  | .arb =>
    { s with
      intValid := (s.grant κ i).getLsbD 0 || (s.grant κ i).getLsbD 1
      intData := if (s.grant κ i).getLsbD 0 then i.data0 else i.data1
      cache0 := if (s.grant κ i).getLsbD 0 then i.data0 else s.cache0
      cacheValid0 := (s.grant κ i).getLsbD 0 || s.cacheValid0
      cache1 := if (s.grant κ i).getLsbD 1 then i.data1 else s.cache1
      cacheValid1 := (s.grant κ i).getLsbD 1 || s.cacheValid1 }

def outValid (s : Reduction α) : Bool := !s.fifo.isEmpty

def outData : α := s.fifo.headD κ.zero

def step : Reduction α :=
  { s.update κ i with
    fifo := fifoStep s.fifo (if s.intValid then some s.intData else none) (s.outValid && i.outReady)
    almostFull := decide (fullLevel ≤ s.fifo.length)
    mask := RrArbiter2.nextMask s.mask (s.req κ i) }

end Reduction

/-! ## Trees of nodes -/

/-- A reduction tree with its input streams: at a leaf the entries that have left it and those still to come, at a node
the entries that have left it. -/
inductive RedTree (α : Type)
  | leaf (out pend : List α)
  | node (s : Reduction α) (out : List α) (l r : RedTree α)

namespace RedTree

variable {α : Type} [DecidableEq α] (κ : RuleKind α)

def out : RedTree α → List α
  | leaf out _ => out
  | node _ out _ _ => out

/-- A leaf offers its next entry in the cycles chosen by `offer`, a function of its path from the root. -/
def valid (offer : List Bool → Bool) : RedTree α → Bool
  | leaf _ pend => offer [] && !pend.isEmpty
  | node s _ _ _ => s.outValid

def data : RedTree α → α
  | leaf _ pend => pend.headD κ.zero
  | node s _ _ _ => s.outData κ

/-- What a node sees of its two sub-trees. -/
def input (offer : List Bool → Bool) (l r : RedTree α) (ready : Bool) : RedIn α where
  data0 := l.data κ
  valid0 := l.valid fun p => offer (false :: p)
  data1 := r.data κ
  valid1 := r.valid fun p => offer (true :: p)
  outReady := ready

def step (offer : List Bool → Bool) (ready : Bool) : RedTree α → RedTree α
  | leaf out pend => if offer [] && ready then leaf (out ++ pend.take 1) pend.tail else leaf out pend
  | node s out l r =>
    let i := input κ offer l r ready
    node (s.step κ i) (if ready then out ++ s.fifo.take 1 else out)
      (step (fun p => offer (false :: p)) (s.inReady0 κ i) l) (step (fun p => offer (true :: p)) (s.inReady1 κ i) r)

inductive Shape (α : Type)
  | leaf (stream : List α)
  | node (l r : Shape α)

/-- The tree of a shape after reset. -/
def reset : Shape α → RedTree α
  | .leaf stream => leaf [] stream
  | .node l r => node (.reset κ) [] (reset l) (reset r)

def Shape.streams : Shape α → List (List α)
  | .leaf stream => [stream]
  | .node l r => l.streams ++ r.streams

/-- What has left the leaves. -/
def taken : RedTree α → List (List α)
  | leaf out _ => [out]
  | node _ _ l r => l.taken ++ r.taken

end RedTree

end Pigasus
