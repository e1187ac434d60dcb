import Pigasus.TrafficManager

/-!
# PDUs: from the packet to the slots, and back in the host

`pdu_gen` writes a packet, its rule flits and a header into consecutive slots;
`fill_block` of `pcie.cc` reads the slots as little-endian words.
-/

namespace Pigasus

open Hdl Frames

/-- `PDU_AWIDTH` bits. -/
abbrev PduAddr := BitVec 12

/-- `flit_lite_t` -/
structure PduSlot where
  sop : Bool
  eop : Bool
  data : BitVec 512
  deriving DecidableEq, Inhabited

/-- The first `k` bytes of `x`, the first on top. -/
def topBytes (x : BitVec 512) : (k : Nat) → BitVec (8 * k)
  | 0 => 0#0
  | k + 1 => (topBytes x k ++ x.extractLsb' (8 * k) 8 : BitVec (8 * k + 8))

/-- `pdu_data_swap`: the bytes in the other order. -/
def swapBytes (x : BitVec 512) : BitVec 512 := topBytes x 64

def actionCheck : BitVec 32 := 3

/-- `pdu_hdr_t`: padding, action, pdu_flit, pdu_size, num_ruleID, prot, tuple, pdu_id. -/
def pduHdr (m : Metadata) (pduFlit pduSize : BitVec 16) (ruleCnt : BitVec 12) (pduId : BitVec 8) : BitVec 512 :=
  let tuple := m.tuple.sIP ++ m.tuple.dIP ++ m.tuple.sPort ++ m.tuple.dPort
  (0#224 ++ actionCheck ++ pduFlit.setWidth 32 ++ pduSize.setWidth 32 ++ ruleCnt.setWidth 32 ++ m.prot.setWidth 32 ++ tuple ++
    pduId.setWidth 32 : BitVec (224 + 32 + 32 + 32 + 32 + 32 + 96 + 32))

inductive PduState
  | start | write | writeRuleId | writeHead | wait
  deriving DecidableEq

/-- A write on its way to the ring. -/
structure PduWrite where
  en : Bool
  addr : PduAddr
  slot : PduSlot

structure PduGen where
  state : PduState
  inMetaReady : Bool
  wrenR : Bool
  dataR : BitVec 512
  sopR : Bool
  eopR : Bool
  addrR : PduAddr
  swap : Bool
  pduSize : BitVec 16
  pduFlit : BitVec 16
  ruleCnt : BitVec 12
  pduId : BitVec 8
  checkPktCnt : BitVec 8
  updateValid : Bool
  updateSize : PduAddr
  -- `pcie_rb_wr_*`
  rbWr : PduWrite

structure PduIn where
  pkt : Option Flit512
  rule : Option Flit512
  metaValid : Bool
  metaData : Metadata
  base : PduAddr
  almostFull : Bool
  emptylistValid : Bool
  genAlmostFull : Bool
  pdumetaReady : Bool

namespace PduGen

variable (s : PduGen) (i : PduIn)

/-- What the second stage registers. -/
def pending : PduWrite := ⟨s.wrenR, s.addrR, ⟨s.sopR, s.eopR, if s.swap then swapBytes s.dataR else s.dataR⟩⟩

def canStart : Bool := i.metaValid && !s.inMetaReady && !i.almostFull && i.emptylistValid && !i.genAlmostFull

def writePkt (f : Flit512) : PduGen :=
  { s with
    state := if f.eop then .writeRuleId else .write
    wrenR := true
    dataR := f.data
    sopR := false
    eopR := false
    addrR := if f.sop then i.base + 1 else s.addrR + 1
    swap := true
    pduSize := (if f.sop then 0 else s.pduSize) + (if f.eop then 64 - f.empty.setWidth 16 else 64)
    pduFlit := s.pduFlit + 1
    rbWr := s.pending }

def writeRule (f : Flit512) : PduGen :=
  if f.eop then
    { s with
      state := if 0 < s.ruleCnt then .writeHead else .wait
      inMetaReady := if 0 < s.ruleCnt then s.inMetaReady else true
      wrenR := true
      sopR := false
      eopR := true
      swap := false
      pduFlit := s.pduFlit + 1
      pduId := if 0 < s.ruleCnt then s.checkPktCnt else s.pduId
      checkPktCnt := if 0 < s.ruleCnt then s.checkPktCnt + 1 else s.checkPktCnt
      rbWr := s.pending }
  else
    { s with
      wrenR := true
      dataR := f.data
      addrR := s.addrR + 1
      swap := false
      pduFlit := s.pduFlit + 1
      ruleCnt := s.ruleCnt + 1
      rbWr := s.pending }

def step : PduGen :=
  match s.state with
  | .start =>
    { s with
      state := if s.canStart i then .write else .start
      inMetaReady := false
      wrenR := false
      sopR := false
      eopR := false
      addrR := 0
      swap := false
      pduFlit := 0
      ruleCnt := 0
      updateValid := false
      updateSize := 0
      rbWr := s.pending }
  | .write =>
    match i.pkt with
    | some f => s.writePkt i f
    | none => { s with wrenR := false, sopR := false, eopR := false, rbWr := s.pending }
  | .writeRuleId =>
    match i.rule with
    | some f => s.writeRule f
    | none => { s with swap := false, wrenR := false, rbWr := s.pending }
  | .writeHead =>
    { s with
      state := .wait
      inMetaReady := true
      wrenR := true
      dataR := pduHdr i.metaData s.pduFlit s.pduSize s.ruleCnt s.pduId
      sopR := true
      eopR := false
      addrR := i.base
      swap := false
      updateValid := true
      updateSize := s.pduFlit.setWidth 12
      rbWr := s.pending }
  | .wait =>
    { s with
      state := if i.pdumetaReady then .start else .wait
      inMetaReady := false
      wrenR := false
      updateValid := false
      rbWr := s.pending }

end PduGen

/-! ## The host -/

/-- The slots as the host sees them: sixteen words to a slot. -/
def hostWord (slots : Nat → BitVec 512) (i : Nat) : BitVec 32 := (slots (i / 16)).extractLsb' (32 * (i % 16)) 32

/-- `block_s`; the two pointers are functions of the index. -/
structure Block where
  pduId : BitVec 32
  dstPort : BitVec 16
  srcPort : BitVec 16
  dstIp : BitVec 32
  srcIp : BitVec 32
  protocol : BitVec 32
  numRuleId : BitVec 32
  pduSize : BitVec 32
  pduFlit : BitVec 32
  pduPayload : Nat → BitVec 8
  ruleId : Nat → BitVec 16

/-- In words, behind the header and the flits of the payload. -/
def ruleOffset (pduSize : BitVec 32) : Nat :=
  let reminder := pduSize.toNat % 64
  let offset := pduSize.toNat / 64
  ((if reminder > 0 then offset + 1 else offset) + 1) * 16

def fillBlock (addr : Nat → BitVec 32) : Block where
  pduId := addr 0
  dstPort := (addr 1).extractLsb' 0 16
  srcPort := (addr 1).extractLsb' 16 16
  dstIp := addr 2
  srcIp := addr 3
  protocol := addr 4
  numRuleId := addr 5
  pduSize := addr 6
  pduFlit := addr 7
  pduPayload := fun i => (addr (16 + i / 4)).extractLsb' (8 * (i % 4)) 8
  ruleId := fun i => (addr (ruleOffset (addr 6) + i / 2)).extractLsb' (16 * (i % 2)) 16

/-! ## One PDU -/

structure PduTick where
  pktValid : Bool
  ruleValid : Bool
  metaValid : Bool
  almostFull : Bool
  emptylistValid : Bool
  genAlmostFull : Bool
  pdumetaReady : Bool

/-- The generator with the rest of its inputs, and the memory that it writes. -/
structure PduSys where
  gen : PduGen
  pkt : List Flit512
  rules : List Flit512
  mem : PduAddr → PduSlot
  updates : List PduAddr

namespace PduSys

variable (m : Metadata) (base : PduAddr) (s : PduSys) (t : PduTick)

def genIn : PduIn where
  pkt := if t.pktValid then s.pkt.head? else none
  rule := if t.ruleValid then s.rules.head? else none
  metaValid := t.metaValid
  metaData := m
  base := base
  almostFull := t.almostFull
  emptylistValid := t.emptylistValid
  genAlmostFull := t.genAlmostFull
  pdumetaReady := t.pdumetaReady

/-- `in_ready` and `in_match_ready` hold in their states only. -/
def step : PduSys where
  gen := s.gen.step (s.genIn m base t)
  pkt := if s.gen.state == .write && t.pktValid then s.pkt.tail else s.pkt
  rules := if s.gen.state == .writeRuleId && t.ruleValid then s.rules.tail else s.rules
  mem := wr s.gen.rbWr.en s.gen.rbWr.addr s.gen.rbWr.slot s.mem
  updates := s.updates ++ if (s.gen.step (s.genIn m base t)).updateValid then [(s.gen.step (s.genIn m base t)).updateSize] else []

end PduSys

end Pigasus
