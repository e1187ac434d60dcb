import Pigasus.PduGen

/-!
# The ring in the host's memory

`fpga2cpu_pcie` moves blocks of PDUs into the ring by descriptors of a write data
mover; `dma_run` takes the PDUs out. The tail reaches the host behind the data, the
head reaches the FPGA at any later time.
-/

namespace Pigasus

open Hdl

/-- `BUFFER_SIZE`, also `rb_size`. -/
def bufferSize : Nat := 16384 * 16 - 1

/-- The slots of a PDU, with their number in the header's `pdu_flit`. -/
structure Pdu where
  slots : List (BitVec 512)
  ne : slots ≠ []
  le : slots.length ≤ 64
  flit : ((slots.head ne).extractLsb' 224 32).toNat = slots.length

/-- What `ring_buffer` hands over by one `dma_start`. -/
structure PduBlock where
  base : Nat
  pdus : List Pdu
  ne : pdus ≠ []
  fits : base + (pdus.flatMap Pdu.slots).length < 4096

def PduBlock.slots (b : PduBlock) : List (BitVec 512) := b.pdus.flatMap Pdu.slots

def PduBlock.size (b : PduBlock) : Nat := b.slots.length

/-- A descriptor: `n` slots from `src` of the FPGA's ring to `dst` of the host's, or the new tail. -/
inductive Desc
  | data (src dst n : Nat)
  | done (tail : Nat)
  deriving DecidableEq

/-! ## `fpga2cpu_pcie` -/

inductive F2cState
  | idle | desc | descWrap | done | wait
  deriving DecidableEq

structure Fpga2Cpu where
  state : F2cState
  sizeR : Nat
  outTail : Nat
  dmaDone : Bool
  descValid : Bool
  descData : Desc

structure F2cIn where
  dmaStart : Bool
  dmaSize : Nat
  dmaBase : Nat
  head : Nat
  tail : Nat
  descReady : Bool
  readValid : Bool
  readAddr : Nat

/-- One slot stays free. -/
def freeSlot (head tail : Nat) : Nat :=
  (if tail ≥ head then bufferSize - tail + head - 1 else head - tail - 1) % 2 ^ 18

def newTail (tail size : Nat) : Nat :=
  (if tail + size ≥ bufferSize then tail + size - bufferSize else tail + size) % 2 ^ 18

/-- `dma_size_r_low` -/
def lowSize (tail : Nat) : Nat := (bufferSize - tail) % 2 ^ 12

/-- `dma_size_r_high` -/
def highSize (tail size : Nat) : Nat := (size + tail - bufferSize) % 2 ^ 12

def Fpga2Cpu.step (s : Fpga2Cpu) (i : F2cIn) : Fpga2Cpu :=
  match s.state with
  | .idle =>
    { s with
      dmaDone := false
      descValid := false
      state := if i.dmaStart then .desc else .idle
      sizeR := if i.dmaStart then i.dmaSize else s.sizeR }
  | .desc =>
    if freeSlot i.head i.tail ≥ s.sizeR then
      if i.tail + s.sizeR > bufferSize then
        { s with descValid := true, descData := .data i.dmaBase i.tail (lowSize i.tail), state := .descWrap }
      else
        { s with descValid := true, descData := .data i.dmaBase i.tail s.sizeR, state := .done }
    else s
  | .descWrap =>
    if i.descReady then
      { s with descValid := true, descData := .data (i.dmaBase + lowSize i.tail) 0 (highSize i.tail s.sizeR), state := .done }
    else s
  | .done =>
    if i.descReady then
      { s with
        descValid := true
        descData := .done (newTail i.tail s.sizeR)
        state := .wait
        outTail := newTail i.tail s.sizeR }
    else s
  | .wait =>
    let last := i.readValid && i.readAddr == i.dmaBase + s.sizeR - 1
    { s with
      descValid := if i.descReady then false else s.descValid
      dmaDone := if last then true else s.dmaDone
      state := if last then .idle else .wait }

/-! ## The data mover -/

/-- A read of the FPGA's ring, or the immediate data of a done descriptor. -/
inductive MoverOp
  | read (src dst : Nat)
  | tail (v : Nat)

def readOps (src dst : Nat) : Nat → List MoverOp
  | 0 => []
  | n + 1 => .read src dst :: readOps (src + 1) (dst + 1) n

def Desc.ops : Desc → List MoverOp
  | .data src dst n => readOps src dst n
  | .done v => [.tail v]

/-- The next operation of the accepted descriptors, and what is left of them. -/
def nextOp : List Desc → Option MoverOp × List Desc
  | [] => (none, [])
  | .data _ _ 0 :: l => (none, l)
  | .data src dst (n + 1) :: l => (some (.read src dst), .data (src + 1) (dst + 1) n :: l)
  | .done v :: l => (some (.tail v), l)

/-- A write on its way to the host's memory. -/
inductive HostWrite
  | slot (dst : Nat) (data : BitVec 512)
  | tail (v : Nat)

/-! ## The host -/

/-- `global_block->tail` and the slots behind it; those from `BUFFER_SIZE` on are the last page. -/
structure HostMem where
  tail : Nat
  slot : Nat → BitVec 512

inductive HostPc
  | poll | fill | copy | proc | release
  deriving DecidableEq

/-- `dma_run`. `k` counts the slots in the copy and in `proc_pkt`, `got` are those that `proc_pkt` has read. -/
structure Host where
  pc : HostPc
  cpuHead : Nat
  flit : Nat
  k : Nat
  got : List (BitVec 512)
  processed : List (List (BitVec 512))

namespace Host

variable (h : Host) (m : HostMem)

def nextHead : Nat := if h.cpuHead + h.flit < bufferSize then h.cpuHead + h.flit else h.cpuHead + h.flit - bufferSize

def step : Host × HostMem :=
  match h.pc with
  | .poll => ({ h with pc := if m.tail == h.cpuHead then .poll else .fill }, m)
  | .fill =>
    let flit := (fillBlock (hostWord fun j => m.slot (h.cpuHead + j))).pduFlit.toNat
    let wraps := h.cpuHead + flit > bufferSize && h.cpuHead + flit != bufferSize
    ({ h with flit := flit, k := 0, got := [], pc := if wraps then .copy else .proc }, m)
  | .copy =>
    -- one slot of the `memcpy`
    let copySize := h.cpuHead + h.flit - bufferSize
    ({ h with k := if h.k + 1 < copySize then h.k + 1 else 0, pc := if h.k + 1 < copySize then .copy else .proc },
      { m with slot := upd m.slot (bufferSize + h.k) (m.slot h.k) })
  | .proc =>
    let got := h.got ++ [m.slot (h.cpuHead + h.k)]
    if h.k + 1 < h.flit then ({ h with k := h.k + 1, got := got }, m)
    else ({ h with got := got, processed := h.processed ++ [got], pc := .release }, m)
  | .release => ({ h with cpuHead := h.nextHead, pc := .poll }, m)

end Host

/-! ## The system -/

structure PcieSys where
  f2c : Fpga2Cpu
  -- `WAIT` of `ring_buffer`, `dma_start`, and the block behind `dma_base_addr` and `dma_size`
  ringWait : Bool
  dmaStart : Bool
  block : Option PduBlock
  -- `tail_0`, `f2c_tail`, `f2c_head` of `pcie_top`
  tail0 : Nat
  tail : Nat
  head : Nat
  -- accepted descriptors, and the two cycles of a read
  descs : List Desc
  rd1 : Option MoverOp
  rd2 : Option MoverOp
  writes : List HostWrite
  mem : HostMem
  host : Host
  headWrites : List Nat
  -- the PDUs handed over so far, and the slots that are written and not released
  handed : List Pdu
  owned : Nat → Bool

structure ClockIn where
  descReady : Bool
  fetch : Bool
  offer : Option PduBlock

inductive PcieEvent
  | clock (c : ClockIn)
  | write
  | host
  | head

namespace PcieSys

variable (s : PcieSys)

def base : Nat := (s.block.map PduBlock.base).getD 0

def ringRead (a : Nat) : BitVec 512 := ((s.block.map PduBlock.slots).getD []).getD (a - s.base) 0

def f2cIn (c : ClockIn) : F2cIn where
  dmaStart := s.dmaStart
  dmaSize := (s.block.map PduBlock.size).getD 0
  dmaBase := s.base
  head := s.head
  tail := s.tail
  descReady := c.descReady
  readValid := match s.rd2 with
    | some (.read _ _) => true
    | _ => false
  readAddr := match s.rd2 with
    | some (.read a _) => a
    | _ => 0

/-- What comes back from the ring, or goes straight to the host. -/
def response : Option MoverOp → List HostWrite
  | none => []
  | some (.read a dst) => [.slot dst (s.ringRead a)]
  | some (.tail v) => [.tail v]

/-- The block that `ring_buffer` starts in this cycle. -/
def taken (c : ClockIn) : Option PduBlock := if s.ringWait then none else c.offer

def clock (c : ClockIn) : PcieSys :=
  let next := if c.fetch then nextOp s.descs else (none, s.descs)
  { s with
    f2c := s.f2c.step (s.f2cIn c)
    ringWait := if s.ringWait then !s.f2c.dmaDone else (s.taken c).isSome
    dmaStart := if s.ringWait then false else if (s.taken c).isSome then true else s.dmaStart
    block := (s.taken c).or s.block
    tail0 := if s.f2c.dmaDone then s.f2c.outTail else s.tail0
    tail := s.tail0
    descs := next.2 ++ if s.f2c.descValid && c.descReady then [s.f2c.descData] else []
    rd1 := next.1
    rd2 := s.rd1
    writes := s.writes ++ s.response s.rd2
    handed := s.handed ++ ((s.taken c).map PduBlock.pdus).getD [] }

def write : PcieSys :=
  match s.writes with
  | [] => s
  | .slot dst d :: l => { s with writes := l, mem := { s.mem with slot := upd s.mem.slot dst d }, owned := upd s.owned dst true }
  | .tail v :: l => { s with writes := l, mem := { s.mem with tail := v } }

/-- The slots of the PDU that the host is about to release. -/
def releases (a : Nat) : Bool := (List.range s.host.flit).any fun k => a == (s.host.cpuHead + k) % bufferSize

def hostStep : PcieSys :=
  { s with
    host := (s.host.step s.mem).1
    mem := (s.host.step s.mem).2
    headWrites := if s.host.pc == .release then s.headWrites ++ [s.host.nextHead] else s.headWrites
    owned := if s.host.pc == .release then fun a => s.owned a && !s.releases a else s.owned }

/-- A write to `cpu_head_reg` arrives. -/
def headStep : PcieSys :=
  match s.headWrites with
  | [] => s
  | v :: l => { s with head := v, headWrites := l }

def step : PcieEvent → PcieSys
  | .clock c => s.clock c
  | .write => s.write
  | .host => s.hostStep
  | .head => s.headStep

/-- After reset, with any slots in the memory. -/
def init (slot : Nat → BitVec 512) : PcieSys where
  f2c := ⟨.idle, 0, 0, false, false, .done 0⟩
  ringWait := false
  dmaStart := false
  block := none
  tail0 := 0
  tail := 0
  head := 0
  descs := []
  rd1 := none
  rd2 := none
  writes := []
  mem := ⟨0, slot⟩
  host := ⟨.poll, 0, 0, 0, [], []⟩
  headWrites := []
  handed := []
  owned := fun _ => false

end PcieSys

end Pigasus
