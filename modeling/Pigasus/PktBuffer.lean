import Pigasus.PktDataShift

/-!
# The packet buffer

`input_comp` writes frames to the slots of the packet buffer, `data_mover`
reads them back when their metadata return, and gives the slots back to the
free list. The buffer is that of the `USE_BRAM` build.
-/

namespace Pigasus

open Hdl

/-- `PKTBUF_AWIDTH` bits: a slot of 32 flits for each `pktID`. -/
abbrev BufAddr := BitVec 15

def slotAddr (id : PktId) : BufAddr := id.setWidth 15 <<< 5

/-! ## `input_comp` -/

structure CompIn where
  ethValid : Bool
  eth : PktFlit
  emptylistValid : Bool
  emptylistData : PktId

structure InputComp where
  write : Bool
  address : BufAddr
  writedata : PktFlit
  writeR : Bool
  addressR : BufAddr
  writedataR : PktFlit
  currentEmpty : PktId
  flits : BitVec 5
  lock : Bool
  ethDataR : Line
  pktValid : Bool
  pktData : Line
  metaValid : Bool
  metaData : Metadata
  deriving DecidableEq

namespace InputComp

def reset : InputComp where
  write := false
  address := 0
  writedata := PktDataShift.zeroFlit
  writeR := false
  addressR := 0
  writedataR := PktDataShift.zeroFlit
  currentEmpty := 0
  flits := 1
  lock := false
  ethDataR := vec fun _ => 0
  pktValid := false
  pktData := vec fun _ => 0
  metaValid := false
  metaData := .zero

variable (s : InputComp) (i : CompIn)

def emptylistReady (i : CompIn) : Bool := i.ethValid && i.eth.sop

def accepts : Bool := !s.lock && i.ethValid && i.emptylistValid

/-- The low 56 bits of a line. -/
def low56 (d : Line) : BitVec 56 := (d.toList.drop 57).foldl (fun x b => x <<< 8 ||| b.setWidth 56) 0

def last7Bytes : BitVec 56 :=
  let d := i.eth.data.shr i.eth.empty.toNat
  if i.eth.empty.toNat ≤ 57 || i.eth.sop then low56 d
  else low56 ((s.ethDataR.shl (64 - i.eth.empty.toNat)).or d)

def step : InputComp where
  write := s.writeR
  address := s.addressR
  writedata := s.writedataR
  writeR := s.accepts i
  addressR :=
    if s.accepts i then if i.eth.sop then slotAddr i.emptylistData else s.addressR + 1 else s.addressR
  writedataR := if s.accepts i then i.eth else s.writedataR
  currentEmpty := if s.accepts i && i.eth.sop then i.emptylistData else s.currentEmpty
  flits := if s.accepts i then if i.eth.eop then 1 else s.flits + 1 else s.flits
  lock := s.lock || (i.ethValid && !i.emptylistValid)
  ethDataR := i.eth.data
  pktValid := s.accepts i && i.eth.eop
  pktData := if i.ethValid && i.eth.sop then i.eth.data else s.pktData
  metaValid := s.accepts i && i.eth.eop
  metaData :=
    if s.accepts i && i.eth.eop then
      { Metadata.zero with
        pktID := if i.eth.sop then i.emptylistData else s.currentEmpty
        empty := i.eth.empty
        flits := s.flits
        last7Bytes := s.last7Bytes i }
    else .zero

end InputComp

/-! ## `data_mover` -/

inductive MoverState
  | waitStatable | init | idle | first | middle
  deriving DecidableEq, Repr

structure MoverIn where
  readvalid : Bool
  readdata : PktFlit
  emptylistReady : Bool
  pktAlmostFull : Bool
  checkPktAlmostFull : Bool
  metaValid : Bool
  metaData : Metadata

structure DataMover where
  state : MoverState
  statableCnt : BitVec 16
  flits : BitVec 5
  pktId : PktId
  pktFlags : PktFlags
  flitsCnt : BitVec 5
  address : BufAddr
  read : Bool
  emptylistValid : Bool
  emptylistData : PktId
  flags1 : PktFlags
  flags2 : PktFlags
  flagsR : PktFlags
  pktValid : Bool
  pkt : PktFlit
  checkPktValid : Bool
  checkPkt : PktFlit
  checkMetaValid : Bool
  checkMeta : Metadata
  deriving DecidableEq

def pduLast : BitVec 2 := 3

/-- The flags that send a packet to the check output. -/
def PktFlags.checked (f : PktFlags) : Bool := f == .ooo || f == .check

namespace DataMover

/-- The state after reset; `INIT` then fills the free list. -/
def reset : DataMover where
  state := .waitStatable
  statableCnt := 0
  flits := 0
  pktId := 0
  pktFlags := .forward
  flitsCnt := 0
  address := 0
  read := false
  emptylistValid := false
  emptylistData := 0
  flags1 := .forward
  flags2 := .forward
  flagsR := .forward
  pktValid := false
  pkt := PktDataShift.zeroFlit
  checkPktValid := false
  checkPkt := PktDataShift.zeroFlit
  checkMetaValid := false
  checkMeta := .zero

/-- The state after the free list has been filled. -/
def ready : DataMover := { reset with state := .idle }

variable (s : DataMover) (i : MoverIn)

def almostFull (i : MoverIn) : Bool := i.pktAlmostFull || i.checkPktAlmostFull

def firstReady : Bool := s.state == .first && (s.pktFlags == .drop || s.flits == 1)

/-- `flits - 1` has 32 bits: no count is equal to it when `flits` is 0. -/
def lastCnt : Bool := s.flitsCnt.toNat + 1 == s.flits.toNat

def middleReady : Bool := s.state == .middle && s.lastCnt

def metaReady : Bool := (s.state == .idle || s.firstReady || s.middleReady) && !almostFull i

def takes : Bool := i.metaValid && s.metaReady i

/-- Where the mover goes when it is done with a packet. -/
def nextState (i : MoverIn) : MoverState := if i.metaValid && !almostFull i then .first else .idle

/-- The registers of the read logic after the edge. -/
def readLogic : DataMover :=
  match s.state with
  | .waitStatable =>
    if s.statableCnt = 50 then { s with statableCnt := s.statableCnt + 1, state := .init, emptylistValid := true }
    else { s with statableCnt := s.statableCnt + 1 }
  | .init =>
    if s.emptylistValid && i.emptylistReady then
      if s.emptylistData = 1023 then { s with emptylistData := s.emptylistData + 1, emptylistValid := false, state := .idle }
      else { s with emptylistData := s.emptylistData + 1 }
    else s
  | .idle =>
    { s with
      address := 0
      read := false
      flitsCnt := 0
      emptylistValid := false
      state := nextState i }
  | .first =>
    if s.pktFlags = .drop then
      { s with read := false, emptylistValid := true, emptylistData := s.pktId, state := nextState i }
    else if s.flits = 1 then
      { s with
        read := true
        address := slotAddr s.pktId
        emptylistValid := true
        emptylistData := s.pktId
        state := nextState i }
    else
      { s with
        read := true
        address := slotAddr s.pktId
        emptylistValid := false
        flitsCnt := s.flitsCnt + 1
        state := .middle }
  | .middle =>
    if s.lastCnt then
      { s with
        address := s.address + 1
        flitsCnt := 0
        emptylistValid := true
        emptylistData := s.pktId
        state := nextState i }
    else { s with read := true, address := s.address + 1, emptylistValid := false, flitsCnt := s.flitsCnt + 1 }

def noFlit (d : Line) : PktFlit := ⟨false, false, 0, d⟩

def step : DataMover :=
  { s.readLogic i with
    flits := if s.takes i then i.metaData.flits else s.flits
    pktId := if s.takes i then i.metaData.pktID else s.pktId
    pktFlags := if s.takes i then i.metaData.pktFlags else s.pktFlags
    flags1 := s.pktFlags
    flags2 := s.flags1
    flagsR := s.flags2
    pktValid := i.readvalid && !s.flagsR.checked
    pkt := if i.readvalid && !s.flagsR.checked then i.readdata else noFlit i.readdata.data
    checkPktValid := i.readvalid && s.flagsR.checked
    checkPkt := if i.readvalid && s.flagsR.checked then i.readdata else noFlit i.readdata.data
    checkMetaValid := s.takes i && i.metaData.pktFlags.checked
    checkMeta := { i.metaData with pduFlag := pduLast } }

end DataMover

/-! ## The buffer between them -/

/-- The flits of a frame, from its lines with their `empty`. -/
def ethFlits : Bool → List (Line × BitVec 6) → List PktFlit
  | _, [] => []
  | sop, [p] => [⟨sop, true, p.2, p.1⟩]
  | sop, p :: l => ⟨sop, false, p.2, p.1⟩ :: ethFlits false l

theorem ethFlits_cons (sop : Bool) (p : Line × BitVec 6) (l : List (Line × BitVec 6)) :
    ethFlits sop (p :: l) = ⟨sop, l.isEmpty, p.2, p.1⟩ :: ethFlits false l := by
  cases l <;> rfl

/-- A frame of at most 32 lines, the size of a slot. -/
structure EthFrame where
  lines : List (Line × BitVec 6)
  ne_nil : lines ≠ []
  short : lines.length ≤ 32

def EthFrame.flits (f : EthFrame) : List PktFlit := ethFlits true f.lines

/-- `out` marks the flits of the check output. The flits of the frame in work,
and of a frame whose metadata are made, are kept beside them. -/
structure BufSys where
  comp : InputComp
  mem : BufAddr → PktFlit
  rd : RdPort PktFlit
  valid1 : Bool
  valid2 : Bool
  mover : DataMover
  free : List PktId
  eth : List PktFlit
  cur : List PktFlit
  frame : List PktFlit
  pool : List (Metadata × List PktFlit)
  made : List (List PktFlit)
  taken : List (Metadata × List PktFlit)
  out : List (Bool × PktFlit)
  returned : List PktId

/-- A cycle: whether a flit is on the wire (`idle` is there if not), which of the
metadata at hand are presented and with which flags, and the state of the readers. -/
structure BufTick where
  eth : Bool
  idle : PktFlit
  pick : Option (Nat × PktFlags)
  pktAlmostFull : Bool
  checkPktAlmostFull : Bool

namespace BufSys

def reset (free : List PktId) (mem : BufAddr → PktFlit) (fs : List EthFrame) : BufSys where
  comp := .reset
  mem := mem
  rd := ⟨PktDataShift.zeroFlit, PktDataShift.zeroFlit⟩
  valid1 := false
  valid2 := false
  mover := .ready
  free := free
  eth := fs.flatMap EthFrame.flits
  cur := []
  frame := []
  pool := []
  made := []
  taken := []
  out := []
  returned := []

variable (s : BufSys) (i : BufTick)

def compIn : CompIn where
  ethValid := i.eth && !s.eth.isEmpty
  eth := if i.eth then s.eth.headD i.idle else i.idle
  emptylistValid := !s.free.isEmpty
  emptylistData := s.free.headD 0

/-- The metadata that can be presented, with those that `input_comp` puts out. -/
def avail (s : BufSys) : List (Metadata × List PktFlit) :=
  s.pool ++ if s.comp.metaValid then [(s.comp.metaData, s.frame)] else []

/-- The metadata that are presented. -/
def picked : Option (Metadata × List PktFlit) :=
  i.pick.bind fun p => s.avail[p.1]?.map fun e => ({ e.1 with pktFlags := p.2 }, e.2)

def moverIn : MoverIn where
  readvalid := s.valid2
  readdata := s.rd.q
  emptylistReady := true
  pktAlmostFull := i.pktAlmostFull
  checkPktAlmostFull := i.checkPktAlmostFull
  metaValid := (s.picked i).isSome
  metaData := ((s.picked i).map Prod.fst).getD .zero

/-- The flits that `data_mover` puts out. -/
def outputs (s : BufSys) : List (Bool × PktFlit) :=
  (if s.mover.pktValid then [(false, s.mover.pkt)] else []) ++
    if s.mover.checkPktValid then [(true, s.mover.checkPkt)] else []

def step : BufSys where
  comp := s.comp.step (s.compIn i)
  mem := wr s.comp.write s.comp.address s.comp.writedata s.mem
  rd := s.rd.step s.mover.read (s.mem s.mover.address)
  valid1 := s.mover.read
  valid2 := s.valid1
  mover := s.mover.step (s.moverIn i)
  free :=
    (if InputComp.emptylistReady (s.compIn i) then s.free.tail else s.free) ++
      if s.mover.emptylistValid then [s.mover.emptylistData] else []
  eth := if (s.compIn i).ethValid then s.eth.tail else s.eth
  cur :=
    if s.comp.accepts (s.compIn i) then if (s.compIn i).eth.eop then [] else s.cur ++ [(s.compIn i).eth] else s.cur
  frame := s.cur ++ [(s.compIn i).eth]
  pool := if s.mover.takes (s.moverIn i) then s.avail.eraseIdx ((i.pick.map Prod.fst).getD 0) else s.avail
  made :=
    if s.comp.accepts (s.compIn i) && (s.compIn i).eth.eop then s.made ++ [s.cur ++ [(s.compIn i).eth]] else s.made
  taken := if s.mover.takes (s.moverIn i) then s.taken ++ (s.picked i).toList else s.taken
  out := s.out ++ s.outputs
  returned := if s.mover.emptylistValid then s.returned ++ [s.mover.emptylistData] else s.returned

end BufSys

end Pigasus
