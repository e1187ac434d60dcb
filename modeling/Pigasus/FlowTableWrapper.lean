import Pigasus.HashFunc
import Pigasus.FastPath
import Pigasus.FlowReassembly

/-!
# The reassembler

`flow_table_wrapper`: the hash and metadata pipelines in front of the fast
path, the out-of-order FIFOs and the slow path behind it.
-/

namespace Pigasus

open Hdl

/-! ## The slow path with its FIFOs -/

structure SlowIn where
  oooMeta : Option Metadata
  oooFce : Option Fce
  ch2Ready : Bool
  ch2Q : Fce
  ch2RdValid : Bool
  ch3Ready : Bool
  reorderAlmostFull : Bool

structure SlowPath where
  oooMetaFifo : List Metadata
  oooFceFifo : List Fce
  oooAlmostFull : Bool
  fr : FlowReassembly
  ll : LinkedList

namespace SlowPath

def reset : SlowPath where
  oooMetaFifo := []
  oooFceFifo := []
  oooAlmostFull := false
  fr := .reset
  ll := .reset

/-- `FULL_LEVEL` of the out-of-order FIFO. -/
def fullLevel : Nat := 480

variable (s : SlowPath) (i : SlowIn)

def frIn : FrIn where
  metaData := s.oooMetaFifo.headD .zero
  metaValid := !s.oooMetaFifo.isEmpty
  fceData := s.oooFceFifo.headD .zero
  fceValid := !s.oooFceFifo.isEmpty
  ch2Ready := i.ch2Ready
  ch2Q := i.ch2Q
  ch2RdValid := i.ch2RdValid
  ch3Ready := i.ch3Ready
  reorderAlmostFull := i.reorderAlmostFull

def step : SlowPath where
  oooMetaFifo := fifoStep s.oooMetaFifo i.oooMeta s.fr.metaReady
  oooFceFifo := fifoStep s.oooFceFifo i.oooFce s.fr.fceReady
  oooAlmostFull := decide (fullLevel ≤ s.oooFceFifo.length)
  fr := s.fr.step s.ll (s.frIn i)
  ll := s.ll.step s.fr.llIn

end SlowPath

/-! ## The wrapper -/

structure WrapIn where
  inMetaData : Metadata
  inMetaValid : Bool
  outMetaAlmostFull : Bool
  forwardMetaReady : Bool
  reorderMetaAlmostFull : Bool

/-- A cycle without a packet and without back-pressure. -/
def WrapIn.idle : WrapIn := ⟨.zero, false, false, true, false⟩

def WrapIn.packet (m : Metadata) : WrapIn := { WrapIn.idle with inMetaData := m, inMetaValid := true }

/-- State of `flow_table_wrapper`; `m 0` .. `m 7` are the metadata stages that a stall freezes. -/
structure Wrapper where
  hash : Vec HashFunc 4
  m : Vec Metadata 8
  fast : FastPath
  slow : SlowPath

namespace Wrapper

def reset : Wrapper where
  hash := vec fun _ => .reset
  m := vec fun _ => .zero
  fast := .reset
  slow := .reset

def ackPkt (m : Metadata) : Bool := m.tcpFlags == 1#9 <<< tcpFack && m.len == 0

def udpPkt (m : Metadata) : Bool := m.prot == protUdp

/-- The packets that bypass the flow table. -/
def fPkt (m : Metadata) : Bool := ackPkt m || udpPkt m

def forwardMetaData (m : Metadata) : Metadata :=
  { m with pktFlags := if udpPkt m then .check else .forward }

variable (s : Wrapper) (i : WrapIn)

def fastIn : FastIn where
  m7 := s.m 7
  ch0Rden := (s.hash 0).hashedValid
  ch0Addr := vec fun k => (s.hash k).hashed.setWidth 11
  ch2Meta := s.slow.fr.ch2Meta
  ch2Rden := s.slow.fr.ch2Rden
  ch3Wren := s.slow.fr.ch3Wren
  ch3Data := s.slow.fr.ch3Data
  ch3RelPktCnt := s.slow.fr.ch3RelPktCnt

def ftIn : FtIn := s.fast.ftIn s.fastIn

def slowIn : SlowIn where
  oooMeta := if s.fast.dec.oooMetaValid then some s.fast.dec.oooMetaData else none
  oooFce := if s.fast.dec.oooFceValid then some s.fast.dec.oooFceData else none
  ch2Ready := s.fast.ft.slowReady s.ftIn
  ch2Q := s.fast.ft.ch2Q
  ch2RdValid := s.fast.ft.ch2RdValid
  ch3Ready := s.fast.ft.slowReady s.ftIn
  reorderAlmostFull := i.reorderMetaAlmostFull

def stall : Bool := s.fast.stall s.fastIn

def inMetaReady : Bool :=
  if fPkt i.inMetaData then i.forwardMetaReady
  else !i.outMetaAlmostFull && !s.slow.oooAlmostFull && !s.stall

def tupleInValid : Bool := i.inMetaValid && s.inMetaReady i && !fPkt i.inMetaData

/-- The metadata registers advance together unless the pipeline is stalled. -/
def pipeStep (m : Vec Metadata 8) (d : Metadata) : Vec Metadata 8 :=
  vec fun k => if h : k.val = 0 then d else m ⟨k.val - 1, by omega⟩

def step : Wrapper where
  hash := vec fun k => (s.hash k).step s.stall (BitVec.ofNat 32 k.val) i.inMetaData.tuple (s.tupleInValid i)
  m := if s.stall then s.m else pipeStep s.m i.inMetaData
  fast := s.fast.step s.fastIn
  slow := s.slow.step (s.slowIn i)

/-- The metadata that leave in one cycle. -/
structure Out where
  forward : Option Metadata
  inorder : Option Metadata
  reorder : Option Metadata
  deriving DecidableEq

def out : Out where
  forward := if i.inMetaValid && fPkt i.inMetaData && i.forwardMetaReady then some (forwardMetaData i.inMetaData) else none
  inorder := if s.fast.dec.outMetaValid then some s.fast.dec.outMetaData else none
  reorder := if s.slow.fr.reorderValid then some s.slow.fr.reorderMeta else none

end Wrapper

end Pigasus
