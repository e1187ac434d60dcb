import Pigasus.FlowTable

/-!
# The fast path

The part of `flow_table_wrapper` around the flow table: the metadata registers
that follow a lookup and the decision stage that turns its result into an
operation on channel 1, an output or a packet for the slow path.
-/

namespace Pigasus

open Hdl

/-- The registers written by the decision stage. -/
structure Decision where
  ch1Opcode : Opcode
  ch1BitMap : BitMap
  ch1Wren : Bool
  ch1Data : Fce
  outMetaData : Metadata
  outMetaValid : Bool
  oooMetaData : Metadata
  oooMetaValid : Bool
  oooFceData : Fce
  oooFceValid : Bool

/-- What the lookup stage and the slow path present to the fast path in one cycle. -/
structure FastIn where
  m7 : Metadata
  ch0Rden : Bool
  ch0Addr : Vec FtAddr 4
  ch2Meta : FceMeta
  ch2Rden : Bool
  ch3Wren : Bool
  ch3Data : Fce
  ch3RelPktCnt : PktId

structure FastPath where
  ft : FlowTable
  m8 : Metadata
  m9 : Metadata
  m10 : Metadata
  ch0MetaR1 : FceMeta
  ch0MetaR2 : FceMeta
  ch0MetaR3 : FceMeta
  dec : Decision

namespace FastPath

def resetDecision : Decision where
  ch1Opcode := .nop
  ch1BitMap := .none
  ch1Wren := false
  ch1Data := .zero
  outMetaData := .zero
  outMetaValid := false
  oooMetaData := .zero
  oooMetaValid := false
  oooFceData := .zero
  oooFceValid := false

def reset : FastPath where
  ft := .reset
  m8 := .zero
  m9 := .zero
  m10 := .zero
  ch0MetaR1 := .zero
  ch0MetaR2 := .zero
  ch0MetaR3 := .zero
  dec := resetDecision

variable (s : FastPath) (i : FastIn)

def ch0Meta : FceMeta := ⟨i.m7.tuple, i.ch0Addr⟩

def ftIn : FtIn where
  ch0Meta := ch0Meta i
  ch0Rden := i.ch0Rden
  ch1Opcode := s.dec.ch1Opcode
  ch1BitMap := s.dec.ch1BitMap
  ch1Wren := s.dec.ch1Wren
  ch1Data := s.dec.ch1Data
  ch2Meta := i.ch2Meta
  ch2Rden := i.ch2Rden
  ch3Wren := i.ch3Wren
  ch3Data := i.ch3Data
  ch3RelPktCnt := i.ch3RelPktCnt

def ch1InsertStall : Bool := s.ft.ch1InsertStall (s.ftIn i)

def stall : Bool := s.ft.ch0RdStall (s.ftIn i) || s.ch1InsertStall i

/-- The entry inserted for the first packet of a flow. -/
def insertData (m : Metadata) (addr : Vec FtAddr 4) : Fce where
  valid := true
  tuple := m.tuple
  -- the expected sequence number after a SYN counts the SYN itself
  seq := if m.tcpFlags.getLsbD tcpSyn then m.seq + 1 else m.endSeq
  pointer := 0
  llValid := false
  slowCnt := 0
  last7Bytes := if m.tcpFlags.getLsbD tcpSyn then BitVec.allOnes 56 else m.last7Bytes
  addr := addr

/-- The defaults of the decision stage, for the packet `m` whose lookup gave `b` and `q`. -/
def decideNone (d : Decision) (b : BitMap) (q : Fce) (m : Metadata) : Decision where
  ch1Opcode := d.ch1Opcode
  ch1BitMap := b
  ch1Wren := false
  ch1Data := q
  outMetaData := { m with pktFlags := if m.len != 0 then .check else .forward }
  outMetaValid := false
  oooMetaData := { m with pktFlags := .check }
  oooMetaValid := false
  oooFceData := q
  oooFceValid := false

/-- The lookup hit: forward the packet in order, hand it to the slow path, or drop it. -/
def decideHit (d : Decision) (q : Fce) (m : Metadata) : Decision :=
  let d := { d with ch1Opcode := .update }
  if m.seq == q.seq then
    if q.slowCnt > 0 then
      { d with
        ch1Wren := true
        ch1Data := { q with valid := true, slowCnt := q.slowCnt + 1 }
        oooMetaValid := true
        oooFceValid := true }
    else if m.finRst then
      { d with
        ch1Wren := true
        ch1Data := { q with valid := false, seq := m.endSeq }
        ch1Opcode := .delete
        outMetaValid := true }
    else
      { d with
        ch1Wren := true
        ch1Data := { q with valid := true, seq := m.endSeq }
        outMetaValid := true }
  else if m.seq > q.seq then
    { d with
      ch1Wren := true
      ch1Data := { q with valid := true, slowCnt := q.slowCnt + 1 }
      oooMetaValid := true
      oooFceValid := true }
  else
    -- overlapping bytes: the packet is dropped without a change of the entry
    { d with
      ch1Data := { q with valid := true }
      outMetaValid := true
      outMetaData := { m with pktFlags := .drop } }

/-- The lookup missed: forward the packet and insert the flow, unless the packet closes it. -/
def decideMiss (d : Decision) (m : Metadata) (addr : Vec FtAddr 4) : Decision :=
  { d with
    ch1Opcode := .insert
    ch1BitMap := BitMap.only .q
    ch1Data := insertData m addr
    ch1Wren := !m.finRst
    outMetaValid := true }

def decision : Decision :=
  if s.ch1InsertStall i then s.dec
  else
    let d := decideNone s.dec s.ft.ch0BitMap s.ft.ch0Q s.m10
    if !s.ft.ch0RdValid then d
    else if isZero Loc.all s.ft.ch0BitMap then decideMiss d s.m10 s.ch0MetaR3.addr
    else decideHit d s.ft.ch0Q s.m10

def step : FastPath where
  ft := s.ft.step (s.ftIn i)
  m8 := i.m7
  m9 := s.m8
  m10 := s.m9
  ch0MetaR1 := ch0Meta i
  ch0MetaR2 := s.ch0MetaR1
  ch0MetaR3 := s.ch0MetaR2
  dec := s.decision i

end FastPath

end Pigasus
