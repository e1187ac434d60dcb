import Pigasus.LinkedList

/-!
# The slow path

`flow_reassembly`: takes one out-of-order packet at a time, reads its flow
entry on channel 2, stores the packet in the flow's list or releases it
together with the list nodes that follow it, and writes the entry back on
channel 3.
-/

namespace Pigasus

inductive FrState
  | idle | getFce | compare | waitWrReady
  deriving DecidableEq, Repr

structure FrIn where
  metaData : Metadata
  metaValid : Bool
  fceData : Fce
  fceValid : Bool
  ch2Ready : Bool
  ch2Q : Fce
  ch2RdValid : Bool
  ch3Ready : Bool
  reorderAlmostFull : Bool

structure FlowReassembly where
  state : FrState
  cycle : Nat
  nextSeq : BitVec 32
  endP : BitVec 32
  last7Bytes : BitVec 56
  fceDataR : Fce
  metaDataR : Metadata
  ch3WrTemp : Bool
  metaReady : Bool
  fceReady : Bool
  ch2Meta : FceMeta
  ch2Rden : Bool
  ch3Opcode : Opcode
  ch3Wren : Bool
  ch3Data : Fce
  ch3RelPktCnt : PktId
  reorderMeta : Metadata
  reorderValid : Bool
  llStart : Bool
  llPointer : LlPtr
  llPktId : PktId
  llFlits : BitVec 5
  llSeq : BitVec 32
  llLen : BitVec 16
  llLast7Bytes : BitVec 56
  llLoadHead : Bool
  llStoreHead : Bool
  llHeadIn : Entry
  llHeadWrAddr : LlPtr
  llLoadEmptyPointer : Bool

namespace FlowReassembly

def reset : FlowReassembly where
  state := .idle
  cycle := 0
  nextSeq := 0
  endP := 0
  last7Bytes := 0
  fceDataR := .zero
  metaDataR := .zero
  ch3WrTemp := false
  metaReady := false
  fceReady := false
  ch2Meta := .zero
  ch2Rden := false
  ch3Opcode := .update
  ch3Wren := false
  ch3Data := .zero
  ch3RelPktCnt := 0
  reorderMeta := .zero
  reorderValid := false
  llStart := false
  llPointer := 0
  llPktId := 0
  llFlits := 0
  llSeq := 0
  llLen := 0
  llLast7Bytes := 0
  llLoadHead := false
  llStoreHead := false
  llHeadIn := .zero
  llHeadWrAddr := 0
  llLoadEmptyPointer := false

variable (s : FlowReassembly)

def llIn : LlIn where
  start := s.llStart
  pointer := s.llPointer
  pktID := s.llPktId
  flits := s.llFlits
  seq := s.llSeq
  len := s.llLen
  last7Bytes := s.llLast7Bytes
  loadHead := s.llLoadHead
  storeHead := s.llStoreHead
  headIn := s.llHeadIn
  headWrAddr := s.llHeadWrAddr
  loadEmptyPointer := s.llLoadEmptyPointer

/-- The end of the range of a list node, `ll_head_out.seq + ll_head_out.len`. -/
def headEnd (e : Entry) : BitVec 32 := e.seq + e.len.setWidth 32

/-- The assignments in front of the cases of `COMPARE`. -/
def compareDefault : FlowReassembly := { s with reorderValid := false, ch3Wren := false, ch3Opcode := .update }

/-! ## The packet is the expected one -/

/-- Cycle 0 without a list: release the packet and write the entry back, deleted when the packet closes the flow. -/
def releaseAlone : FlowReassembly :=
  let m := s.metaDataR
  { s.compareDefault with
    state := .waitWrReady
    reorderMeta := if m.finRst then { m with pktFlags := .forward } else m
    reorderValid := true
    ch3Wren := true
    ch3Opcode := if m.finRst then .delete else .update
    ch3Data := { s.ch3Data with
      valid := if m.finRst then false else s.ch3Data.valid
      seq := s.endP
      pointer := 0
      llValid := false
      last7Bytes := m.last7Bytes }
    ch3RelPktCnt := 1 }

/-- Cycle 0 with a list: release the packet and load the head of the list. -/
def releaseLoad : FlowReassembly :=
  let m := s.metaDataR
  { s.compareDefault with
    reorderMeta := m
    reorderValid := true
    ch3RelPktCnt := 1
    cycle := 1
    llLoadHead := true
    llPointer := s.fceDataR.pointer
    last7Bytes := m.last7Bytes }

/-- Cycle 1: wait for the head. -/
def drainWait (ll : LinkedList) : FlowReassembly :=
  { s.compareDefault with
    llLoadHead := false
    llStoreHead := false
    nextSeq := if ll.headOutValid then ll.headOut.seq else s.nextSeq
    cycle := if ll.headOutValid then 2 else s.cycle }

/-- The metadata that release the head `h`; the rest is left over from the packet released before. -/
def drained (h : Entry) : Metadata :=
  { s.reorderMeta with pktFlags := .ooo, pktID := h.pktID, flits := h.flits, last7Bytes := s.last7Bytes }

/-- Cycle 2, the head `h` follows: release it and clear its node. -/
def drainHead (h : Entry) : FlowReassembly :=
  { s.compareDefault with
    reorderValid := true
    reorderMeta := s.drained h
    ch3RelPktCnt := s.ch3RelPktCnt + 1
    last7Bytes := h.last7Bytes
    llHeadIn := .zero
    llStoreHead := true
    llHeadWrAddr := s.llPointer }

/-- Cycle 2, the head is the last node: write the entry back without a list. -/
def drainLast (h : Entry) : FlowReassembly :=
  let m := s.metaDataR
  { s.drainHead h with
    cycle := 0
    state := .waitWrReady
    ch3Wren := true
    ch3Opcode := if m.finRst then .delete else .update
    ch3Data := { s.ch3Data with
      valid := if m.finRst then false else s.ch3Data.valid
      pointer := 0
      llValid := false
      last7Bytes := h.last7Bytes
      seq := headEnd h }
    reorderMeta := if m.finRst then { s.drained h with pktFlags := .forward } else s.drained h }

/-- Go on with the node behind `h`. -/
def drainLoad (h : Entry) : FlowReassembly :=
  { s with cycle := 1, llLoadHead := true, llPointer := h.next, endP := headEnd h }

/-- Cycle 2, the head leaves a hole: write the entry back with the rest of the list. -/
def drainStop : FlowReassembly :=
  { s.compareDefault with
    ch3Wren := true
    ch3Data := { s.ch3Data with seq := s.endP, pointer := s.llPointer, last7Bytes := s.last7Bytes }
    cycle := 0
    state := .waitWrReady }

def inorder (ll : LinkedList) (i : FrIn) : FlowReassembly :=
  match s.cycle with
  | 0 => if s.fceDataR.llValid then s.releaseLoad else s.releaseAlone
  | 1 => s.drainWait ll
  | 2 =>
    if s.nextSeq == s.endP then
      if ll.headOut.last then s.drainLast ll.headOut
      else if i.reorderAlmostFull then { s.drainHead ll.headOut with cycle := 3 }
      else (s.drainHead ll.headOut).drainLoad ll.headOut
    else s.drainStop
  | 3 => if i.reorderAlmostFull then s.compareDefault else s.compareDefault.drainLoad ll.headOut
  | _ => { s.compareDefault with cycle := 0 }

/-! ## The packet is ahead of the expected one -/

/-- The assignments in front of the cycles. -/
def storeDefault : FlowReassembly := { s.compareDefault with ch3RelPktCnt := 0 }

/-- Cycle 0: a flow without a list needs a pointer for its first node. -/
def storeStart : FlowReassembly :=
  if s.fceDataR.llValid then { s.storeDefault with cycle := 2, llPointer := s.fceDataR.pointer }
  else { s.storeDefault with llLoadEmptyPointer := true, cycle := 1 }

/-- Cycle 1: wait for the pointer. -/
def storePointer (ll : LinkedList) : FlowReassembly :=
  if ll.emptyPointerValid then
    { s.storeDefault with
      llLoadEmptyPointer := false
      ch3Data := { s.ch3Data with pointer := ll.emptyPointer, llValid := true }
      ch3WrTemp := true
      llPointer := ll.emptyPointer
      cycle := 2 }
  else { s.storeDefault with llLoadEmptyPointer := false }

/-- Cycle 2: hand the packet to the list. -/
def storeInsert : FlowReassembly :=
  let m := s.metaDataR
  { s.storeDefault with
    llLast7Bytes := m.last7Bytes
    llPktId := m.pktID
    llFlits := m.flits
    llSeq := m.seq
    llLen := m.len
    llStart := true
    cycle := 3 }

/-- Cycle 3: the insertion is under way. -/
def storeWait (ll : LinkedList) : FlowReassembly :=
  { s.storeDefault with
    llStart := false
    ch3Data := { s.ch3Data with pointer := if ll.updatePValid then ll.updateP else s.ch3Data.pointer } }

/-- Cycle 3: the insertion is done; write the entry back when the list has a new head. -/
def storeDone (ll : LinkedList) : FlowReassembly :=
  { s.storeWait ll with
    cycle := 0
    ch3Wren := s.ch3WrTemp || ll.updatePValid
    ch3WrTemp := false
    state := if s.ch3WrTemp || ll.updatePValid then .waitWrReady else .idle
    reorderValid := ll.discard
    reorderMeta := if ll.discard then { s.metaDataR with pktFlags := .drop } else s.reorderMeta }

def outOfOrder (ll : LinkedList) : FlowReassembly :=
  match s.cycle with
  | 0 => s.storeStart
  | 1 => s.storePointer ll
  | 2 => s.storeInsert
  | 3 => if ll.done then s.storeDone ll else s.storeWait ll
  | _ => { s.storeDefault with cycle := 0 }

/-! ## The packet is behind the expected one -/

/-- Drop it; the write only releases its count. -/
def overlap : FlowReassembly :=
  { s with
    state := .idle
    ch3Wren := true
    ch3Opcode := .update
    ch3RelPktCnt := 1
    reorderValid := true
    reorderMeta := { s.metaDataR with pktFlags := .drop } }

/-! ## The state machine -/

/-- The assignments of `IDLE`. -/
def idleDefault (i : FrIn) : FlowReassembly :=
  { s with
    cycle := 0
    llStart := false
    llLoadHead := false
    llStoreHead := false
    reorderValid := false
    reorderMeta := i.metaData
    ch3Wren := false
    ch3WrTemp := false
    ch2Rden := false
    ch3Opcode := .update
    ch3RelPktCnt := 0 }

/-- Take a packet and request the entry of its flow. -/
def take (i : FrIn) : FlowReassembly :=
  { s.idleDefault i with
    state := .getFce
    metaDataR := i.metaData
    metaReady := true
    fceReady := true
    endP := i.metaData.endSeq
    ch2Rden := true
    ch2Meta := ⟨i.fceData.tuple, i.fceData.addr⟩ }

def getFceStep (i : FrIn) : FlowReassembly :=
  { s with
    metaReady := false
    fceReady := false
    ch2Rden := s.ch2Rden && !i.ch2Ready
    fceDataR := if i.ch2RdValid then i.ch2Q else s.fceDataR
    ch3Data := if i.ch2RdValid then i.ch2Q else s.ch3Data
    state := if i.ch2RdValid then .compare else .getFce }

/-- The entry and its write request are held until port B has taken them over. -/
def waitWrReadyStep (i : FrIn) : FlowReassembly :=
  { s with
    cycle := 0
    llStart := false
    llLoadHead := false
    llStoreHead := false
    reorderValid := false
    reorderMeta := i.metaData
    ch3WrTemp := false
    ch2Rden := false
    ch3Wren := if i.ch3Ready then false else s.ch3Wren
    state := if i.ch3Ready then .idle else .waitWrReady }

def step (ll : LinkedList) (i : FrIn) : FlowReassembly :=
  match s.state with
  | .idle => if i.metaValid && i.fceValid && !i.reorderAlmostFull then s.take i else s.idleDefault i
  | .getFce => s.getFceStep i
  | .compare =>
    if s.metaDataR.seq == s.fceDataR.seq then s.inorder ll i
    else if s.metaDataR.seq > s.fceDataR.seq then s.outOfOrder ll
    else s.overlap
  | .waitWrReady => s.waitWrReadyStep i

end FlowReassembly

end Pigasus
