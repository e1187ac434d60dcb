import Pigasus.PduReserve

/-!
# The PDU ring of the FPGA

`ring_buffer` between `pdu_gen`, which writes slots behind the tail and then moves
it, and a DMA that reads the slots of one transfer in order, at any pace. The head
moves when the last slot of a PDU is returned.
-/

namespace Pigasus

open Hdl Frames

/-- `MAX_SLOT`, with `PDU_DEPTH` 4096. -/
def maxSlot : Nat := 4096 - threshold

/-- `wait` is the state of the DMA machine; the last two are the registers of the memory's read port. -/
structure RingBuffer where
  head : Nat
  tail : Nat
  lastTail : Nat
  almostFull : Bool
  wait : Bool
  dmaStart : Bool
  dmaSize : Nat
  dmaBase : Nat
  rdEnR : Bool
  rdValid : Bool
  rdAddrR1 : Nat
  rdAddrR2 : Nat
  mem : PduAddr → PduSlot
  port : RdPort PduSlot

structure RingIn where
  wr : PduWrite
  updateValid : Bool
  updateSize : Nat
  rdEn : Bool
  rdAddr : Nat
  dmaDone : Bool

namespace RingBuffer

variable (s : RingBuffer) (i : RingIn)

def wrap : Bool := s.tail < s.head

def occupiedSlot : Nat := (if s.wrap then s.lastTail + 4096 - s.head + s.tail else s.tail + 4096 - s.head) % 4096

def sendSlot : Nat := (if s.wrap then s.lastTail + 4096 - s.head else s.tail + 4096 - s.head) % 4096

def freeSlot : Nat := 4096 - s.occupiedSlot - 1

def nextHead : Nat := if s.rdAddrR2 + 1 ≥ maxSlot then 0 else s.rdAddrR2 + 1

def step : RingBuffer where
  head := if s.rdValid && s.port.q.eop then s.nextHead else s.head
  tail := if i.updateValid then (if s.tail + i.updateSize < maxSlot then s.tail + i.updateSize else 0) else s.tail
  lastTail := if i.updateValid then (if s.tail + i.updateSize < maxSlot then s.lastTail else (s.tail + i.updateSize) % 4096)
    else s.lastTail
  almostFull := !decide (s.freeSlot ≥ 2 * threshold)
  wait := if s.wait then !i.dmaDone else decide (s.occupiedSlot > 0)
  dmaStart := if s.wait then false else if s.occupiedSlot > 0 then true else s.dmaStart
  dmaSize := if !s.wait && decide (s.occupiedSlot > 0) then s.sendSlot else s.dmaSize
  dmaBase := if !s.wait && decide (s.occupiedSlot > 0) then s.head else s.dmaBase
  rdEnR := i.rdEn
  rdValid := s.rdEnR
  rdAddrR1 := i.rdAddr
  rdAddrR2 := s.rdAddrR1
  mem := Hdl.wr i.wr.en i.wr.addr i.wr.slot s.mem
  port := s.port.step i.rdEn (s.mem (BitVec.ofNat 12 i.rdAddr))

def reset (mem : PduAddr → PduSlot) : RingBuffer :=
  ⟨0, 0, 0, false, false, false, 0, 0, false, false, 0, 0, mem, default⟩

end RingBuffer

/-- The reads of one transfer that are still to come, and `dma_done`. -/
structure DmaReader where
  next : Nat
  left : Nat
  done : Bool

namespace DmaReader

variable (d : DmaReader) (r : RingBuffer) (fetch : Bool)

def rdEn : Bool := fetch && decide (0 < d.left)

def step : DmaReader where
  next := if r.dmaStart then r.dmaBase else if d.rdEn fetch then d.next + 1 else d.next
  left := if r.dmaStart then r.dmaSize else if d.rdEn fetch then d.left - 1 else d.left
  -- `WAIT` of `fpga2cpu_pcie`: the last slot of the transfer is returned
  done := r.rdValid && r.rdAddrR2 == r.dmaBase + r.dmaSize - 1

end DmaReader

structure RingTick where
  pkt : Option Flit512
  rule : Option Flit512
  metaValid : Bool
  metaData : Metadata
  emptylistValid : Bool
  genAlmostFull : Bool
  pdumetaReady : Bool
  fetch : Bool

/-- The system, with the flits of the PDU under way, the slots of the PDUs that the tail has passed and those that the
DMA was given. -/
structure RingSys where
  gen : PduGen
  ring : RingBuffer
  dma : DmaReader
  pkts : List Flit512
  rules : List Flit512
  hdr : PduSlot
  committed : List PduSlot
  readOut : List PduSlot

namespace RingSys

variable (s : RingSys) (t : RingTick)

def genIn : PduIn where
  pkt := t.pkt
  rule := t.rule
  metaValid := t.metaValid
  metaData := t.metaData
  base := BitVec.ofNat 12 s.ring.tail
  almostFull := s.ring.almostFull
  emptylistValid := t.emptylistValid
  genAlmostFull := t.genAlmostFull
  pdumetaReady := t.pdumetaReady

def ringIn : RingIn where
  wr := s.gen.rbWr
  updateValid := s.gen.updateValid
  updateSize := s.gen.updateSize.toNat
  rdEn := s.dma.rdEn t.fetch
  rdAddr := s.dma.next
  dmaDone := s.dma.done

/-- The rule flits as slots: the last one ends the PDU. -/
def ruleSlots : List Flit512 → List PduSlot
  | [] => []
  | [f] => [ruleSlot true f]
  | f :: g :: l => ruleSlot false f :: ruleSlots (g :: l)

def pduSlots : List PduSlot := s.hdr :: (s.pkts.map pktSlot ++ ruleSlots s.rules)

def takenPkt : Option Flit512 := if s.gen.state = .write then t.pkt else none

def takenRule : Option Flit512 := if s.gen.state = .writeRuleId then t.rule.filter (!·.eop) else none

def step : RingSys where
  gen := s.gen.step (s.genIn t)
  ring := s.ring.step (s.ringIn t)
  dma := s.dma.step s.ring t.fetch
  pkts := if s.gen.state = .start then [] else s.pkts ++ (s.takenPkt t).toList
  rules := if s.gen.state = .start then [] else s.rules ++ (s.takenRule t).toList
  hdr := if s.gen.state = .writeHead then ⟨true, false, pduHdr t.metaData s.gen.pduFlit s.gen.pduSize s.gen.ruleCnt s.gen.pduId⟩
    else s.hdr
  committed := if s.gen.updateValid then s.committed ++ s.pduSlots else s.committed
  readOut := if s.ring.rdValid then s.readOut ++ [s.ring.port.q] else s.readOut

/-- What the run is asked for: a PDU is started only while two PDUs of the largest size fit, it has at most `THRESHOLD` slots,
and the first flit of a packet is marked. -/
structure Ok : Prop where
  room : s.gen.state = .start → s.gen.canStart (s.genIn t) = true → 2 * threshold ≤ s.ring.freeSlot
  small : (s.step t).pkts.length + (s.step t).rules.length < threshold
  first : ∀ f ∈ s.takenPkt t, f.sop = s.pkts.isEmpty

end RingSys

end Pigasus
