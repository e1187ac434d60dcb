import Pigasus.Struct

/-!
# The out-of-order list

`linked_list`: a memory of list nodes shared by all flows, the free list of its
pointers, and the state machine that inserts one packet into the list that
starts at a given pointer.
-/

namespace Pigasus

open Hdl

inductive LlState
  | init | idle | read | readValid | compare
  deriving DecidableEq, Repr

structure LlIn where
  start : Bool
  pointer : LlPtr
  pktID : PktId
  flits : BitVec 5
  seq : BitVec 32
  len : BitVec 16
  last7Bytes : BitVec 56
  loadHead : Bool
  storeHead : Bool
  headIn : Entry
  headWrAddr : LlPtr
  loadEmptyPointer : Bool

structure LinkedList where
  state : LlState
  done : Bool
  discard : Bool
  entry : Entry
  prevEntry : Entry
  updateP : LlPtr
  updatePValid : Bool
  headOut : Entry
  headOutValid : Bool
  emptyPointer : LlPtr
  emptyPointerValid : Bool
  llWrData : Entry
  llWrAddr : LlPtr
  llWr : Bool
  llRdAddr : LlPtr
  llRd : Bool
  llRdR1 : Bool
  llRdValid : Bool
  addr : LlPtr
  prevAddr : LlPtr
  startP : BitVec 32
  endP : BitVec 32
  first : Bool
  cycle : Nat
  emptylistInValid : Bool
  emptylistInData : LlPtr
  emptylistOutReady : Bool
  mem : LlPtr → Entry
  port : RdPort Entry
  emptylist : List LlPtr

namespace LinkedList

/-- `LL_DEPTH`. -/
def depth : Nat := 512

def reset : LinkedList where
  state := .init
  done := false
  discard := false
  entry := .zero
  prevEntry := .zero
  updateP := 0
  updatePValid := false
  headOut := .zero
  headOutValid := false
  emptyPointer := 0
  emptyPointerValid := false
  llWrData := .zero
  llWrAddr := 0
  llWr := false
  llRdAddr := 0
  llRd := false
  llRdR1 := false
  llRdValid := false
  addr := 0
  prevAddr := 0
  startP := 0
  endP := 0
  first := false
  cycle := 0
  emptylistInValid := false
  emptylistInData := 0
  emptylistOutReady := false
  mem := fun _ => .zero
  port := ⟨.zero, .zero⟩
  emptylist := []

variable (s : LinkedList)

def emptylistInReady : Bool := s.emptylist.length < depth

def emptylistOutData : LlPtr := s.emptylist.headD 0

/-- The last byte of the range of an entry, `entry.seq + entry.len - 1`. -/
def entryEnd (e : Entry) : BitVec 32 := e.seq + e.len.setWidth 32 - 1

/-- The node written for the packet being inserted. -/
def newNode (i : LlIn) (next : LlPtr) (last : Bool) : Entry :=
  ⟨true, i.seq, i.len, next, i.pktID, i.flits, last, i.last7Bytes⟩

/-! ## The state machine -/

/-- `emptylist_out_ready` is a pulse. -/
def pulse : LinkedList := { s with emptylistOutReady := false }

def initStep : LinkedList :=
  let pushed := s.emptylistInValid && s.emptylistInReady
  let finished := pushed && s.emptylistInData == 511
  { s.pulse with
    emptylistInValid := !finished
    emptylistInData := if pushed then s.emptylistInData + 1 else s.emptylistInData
    state := if finished then .idle else .init }

def idleStep (i : LlIn) : LinkedList :=
  { s with
    cycle := 0
    done := false
    entry := .zero
    prevEntry := .zero
    updatePValid := false
    first := true
    prevAddr := 0
    discard := false
    state := if i.start then .read else .idle
    addr := if i.start then i.pointer else s.addr
    startP := if i.start then i.seq else s.startP
    endP := if i.start then i.seq + i.len.setWidth 32 - 1 else s.endP
    llRd := i.loadHead
    llRdAddr := if i.loadHead then i.pointer else s.llRdAddr
    llWr := i.storeHead
    llWrData := if i.storeHead then i.headIn else s.llWrData
    llWrAddr := if i.storeHead then i.headWrAddr else s.llWrAddr
    emptylistInValid := i.storeHead
    emptylistInData := if i.storeHead then i.headWrAddr else s.emptylistInData
    headOutValid := s.llRdValid
    headOut := if s.llRdValid then s.port.q else s.headOut
    emptyPointer := if i.loadEmptyPointer then s.emptylistOutData else s.emptyPointer
    emptylistOutReady := i.loadEmptyPointer
    emptyPointerValid := i.loadEmptyPointer }

def readStep : LinkedList := { s.pulse with llWr := false, llRd := true, llRdAddr := s.addr, state := .readValid }

def readValidStep : LinkedList :=
  { s.pulse with
    llRd := false
    entry := if s.llRdValid then s.port.q else s.entry
    state := if s.llRdValid then .compare else .readValid }

/-- The last write of an insertion: `e` goes to the first free pointer. -/
def allocate (e : Entry) : LinkedList :=
  { s with
    llWr := true
    llWrAddr := s.emptylistOutData
    llWrData := e
    emptylistOutReady := true
    state := .idle
    done := true }

def insertFront (i : LlIn) : LinkedList :=
  { s.allocate (newNode i s.addr false) with updatePValid := true, updateP := s.emptylistOutData }

/-- Insert between `prev_addr` and `addr`. -/
def insertBetween (i : LlIn) : LinkedList :=
  match s.cycle with
  | 0 => { s.pulse with llWr := false, llRd := true, llRdAddr := s.prevAddr, cycle := 1 }
  | 1 =>
    { s.pulse with
      llRd := false
      prevEntry := if s.llRdValid then s.port.q else s.prevEntry
      cycle := if s.llRdValid then 2 else s.cycle }
  | 2 =>
    { s.pulse with
      llWr := true
      llWrAddr := s.prevAddr
      llWrData := { s.prevEntry with next := s.emptylistOutData }
      cycle := 3 }
  | 3 => { s.allocate (newNode i s.addr false) with cycle := 0 }
  | _ => { s.pulse with cycle := 0 }

/-- Insert after the last node, at `addr`. -/
def insertTail (i : LlIn) : LinkedList :=
  match s.cycle with
  | 0 =>
    { s.pulse with
      llWr := true
      llWrAddr := s.addr
      llWrData := { s.entry with next := s.emptylistOutData, last := false }
      cycle := 1 }
  | 1 => { s.allocate (newNode i 0 true) with cycle := 0 }
  | _ => { s.pulse with cycle := 0 }

/-- The packet comes after this node: go to the next one. -/
def pass : LinkedList :=
  { s.pulse with addr := s.entry.next, prevAddr := s.addr, state := .read, first := false }

/-- The packet overlaps a stored one. -/
def refuse : LinkedList := { s.pulse with done := true, state := .idle, discard := true }

/-- The pointer is an empty location: the packet is the only node. -/
def insertEmpty (i : LlIn) : LinkedList :=
  { s.pulse with
    done := true
    state := .idle
    llWr := if s.first then true else s.llWr
    llWrAddr := if s.first then s.addr else s.llWrAddr
    llWrData := if s.first then newNode i 0 true else s.llWrData }

def compareStep (i : LlIn) : LinkedList :=
  if s.entry.valid then
    if s.endP < s.entry.seq then
      if s.first then s.insertFront i else s.insertBetween i
    else if s.startP > entryEnd s.entry then
      if s.entry.last then s.insertTail i else s.pass
    else s.refuse
  else s.insertEmpty i

def control (i : LlIn) : LinkedList :=
  match s.state with
  | .init => s.initStep
  | .idle => s.idleStep i
  | .read => s.readStep
  | .readValid => s.readValidStep
  | .compare => s.compareStep i

def step (i : LlIn) : LinkedList :=
  { s.control i with
    llRdR1 := s.llRd
    llRdValid := s.llRdR1
    mem := wr s.llWr s.llWrAddr s.llWrData s.mem
    port := s.port.step s.llRd (s.mem s.llRdAddr)
    emptylist := fifoStep s.emptylist
      (if s.emptylistInValid && s.emptylistInReady then some s.emptylistInData else none) s.emptylistOutReady }

end LinkedList

end Pigasus
