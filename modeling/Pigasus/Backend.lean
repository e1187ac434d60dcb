import Pigasus.Pipeline
import Pigasus.Reduction

/-!
# The last layer of the backend

`backend.template` behind the reduction units: the entries of all lanes are looked up
in the rule tables, and a packet is closed when every lane shows its last entry. Lane
`j` of bucket `i` is lane `i + j * bucket_size` here, and `table` has the rule table of
its bucket.
-/

namespace Pigasus

open Hdl

abbrev Rid := BitVec 16

structure BackendIn (n : Nat) where
  data : Vec RuleS n
  valid : Vec Bool n
  almostFull : Bool

structure Backend (n : Nat) where
  allLastR1 : Bool
  allLastR2 : Bool
  allLastR3 : Bool
  htRdR1 : Vec Bool n
  htRdR2 : Vec Bool n
  htRdValid : Vec Bool n
  rom : Vec (RdPort Rid) n
  htData : Vec Rid n
  intData : Vec Rid n
  intValid : Bool
  intEop : Bool
  intCnt : BitVec 8

/-- A word of the rule FIFO. -/
structure SyncBeat (n : Nat) where
  sop : Bool
  eop : Bool
  data : Vec Rid n
  deriving DecidableEq

namespace Backend

variable {n : Nat} (table : Fin n → Rid → Rid)

def reset (n : Nat) : Backend n where
  allLastR1 := false
  allLastR2 := false
  allLastR3 := false
  htRdR1 := vec fun _ => false
  htRdR2 := vec fun _ => false
  htRdValid := vec fun _ => false
  rom := vec fun _ => ⟨0, 0⟩
  htData := vec fun _ => 0
  intData := vec fun _ => 0
  intValid := false
  intEop := false
  intCnt := 0

section
variable (i : BackendIn n) (k : Fin n)

def allLast : Bool := ((List.finRange n).all fun k => (i.data k).last && i.valid k) && !i.almostFull

def lastLayerReady : Bool := allLast i || (!(i.data k).last && !i.almostFull)

def htRd : Bool := i.valid k && !(i.data k).last && !i.almostFull

end

variable (s : Backend n) (i : BackendIn n)

def intSop : Bool := if s.intCnt = 0 then s.intValid else false

def step : Backend n where
  allLastR1 := allLast i
  allLastR2 := s.allLastR1
  allLastR3 := s.allLastR2
  htRdR1 := vec (htRd i)
  htRdR2 := s.htRdR1
  htRdValid := s.htRdR2
  rom := vec fun k => (s.rom k).read (table k (i.data k).data)
  htData := vec fun k => (s.rom k).q
  intData := vec fun k => if s.allLastR3 then 0 else if s.htRdValid k then s.htData k else 0
  intValid := s.allLastR3 || (List.finRange n).any s.htRdValid
  intEop := s.allLastR3
  intCnt := if s.intValid then if s.intEop then 0 else s.intCnt + 1 else s.intCnt

end Backend

/-! ## Lanes -/

/-- What the lanes give in one cycle. -/
abbrev LaneRow (n : Nat) := Vec (Option Rid) n

def LaneRow.busy {n : Nat} (r : LaneRow n) : Bool := (List.finRange n).any fun k => (r k).isSome

/-- What is taken from the lanes in one cycle: indices, or all last entries. -/
structure SyncEvent (n : Nat) where
  row : LaneRow n
  last : Bool

def Backend.event {n : Nat} (i : BackendIn n) : SyncEvent n where
  row := vec fun k => if htRd i k then some (i.data k).data else none
  last := allLast i

/-- The rows of the packets that are closed, and of the one in work. -/
structure Collected (n : Nat) where
  packets : List (List (LaneRow n))
  cur : List (LaneRow n)

def Collected.push {n : Nat} (c : Collected n) (e : SyncEvent n) : Collected n :=
  if e.last then ⟨c.packets ++ [c.cur], []⟩
  else if e.row.busy then ⟨c.packets, c.cur ++ [e.row]⟩
  else c

/-- Whether each lane offers its next entry, and what is on its wires otherwise; the fields of an
entry that say nothing are read from there too. -/
structure SyncTick (n : Nat) where
  offer : Vec Bool n
  idle : Vec RuleS n
  almostFull : Bool

/-- The backend behind its lanes. A lane is in its group `group k`, of which `rest k` is left. -/
structure SyncSys (n : Nat) where
  core : Backend n
  group : Vec Nat n
  rest : Vec (List Rid) n
  seen : Collected n
  out : List (SyncBeat n)

namespace SyncSys

variable {n : Nat} (table : Fin n → Rid → Rid) (G : Fin n → Nat → List Rid)

def reset : SyncSys n where
  core := .reset n
  group := vec fun _ => 0
  rest := vec fun k => G k 0
  seen := ⟨[], []⟩
  out := []

variable (s : SyncSys n) (i : SyncTick n)

/-- The entry at the head of a lane: an index of its group, or the last entry behind them. -/
def head (k : Fin n) : RuleS :=
  match s.rest k with
  | [] => { i.idle k with last := true }
  | x :: _ => { i.idle k with last := false, data := x }

def input : BackendIn n where
  data := vec fun k => if i.offer k then s.head i k else i.idle k
  valid := i.offer
  almostFull := i.almostFull

def advance (k : Fin n) : Bool := i.offer k && Backend.lastLayerReady (s.input i) k

def step : SyncSys n where
  core := s.core.step table (s.input i)
  group := vec fun k => if s.advance i k && (s.rest k).isEmpty then s.group k + 1 else s.group k
  rest := vec fun k =>
    if s.advance i k then
      match s.rest k with
      | [] => G k (s.group k + 1)
      | _ :: l => l
    else s.rest k
  seen := s.seen.push (Backend.event (s.input i))
  out := if s.core.intValid then s.out ++ [⟨s.core.intSop, s.core.intEop, s.core.intData⟩] else s.out

end SyncSys

end Pigasus
