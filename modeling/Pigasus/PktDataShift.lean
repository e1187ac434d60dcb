import Pigasus.Struct

/-!
# Payload extraction

`pkt_data_shift` takes the header off a frame and puts `last_7_bytes` in front
of the payload of a frame that is not UDP. A 512-bit word is a line of 64
bytes, the most significant one first.
-/

namespace Pigasus

open Hdl

abbrev Byte := BitVec 8

abbrev Line := Vec Byte 64

namespace Line

/-- A concatenation, filled up with zeros. -/
def ofList (l : List Byte) : Line := vec fun j => l.getD j.val 0

def ones : Line := vec fun _ => 0xff

def shl (d : Line) (k : Nat) : Line := ofList (d.toList.drop k)

def shr (d : Line) (k : Nat) : Line := ofList (List.replicate k 0 ++ d.toList)

def or (a b : Line) : Line := vec fun j => a j ||| b j

end Line

def last7 (x : BitVec 56) : List Byte := (List.range 7).map fun k => x.extractLsb' (48 - 8 * k) 8

structure PktFlit where
  sop : Bool
  eop : Bool
  empty : BitVec 6
  data : Line
  deriving DecidableEq

inductive ShiftState
  | first | udp | udpLast | singleUdp | tcp | tcpLast | singleTcp
  deriving DecidableEq, Repr

structure ShiftIn where
  pktValid : Bool
  pkt : PktFlit
  metaValid : Bool
  metaData : Metadata
  outPktAlmostFull : Bool
  outMetaAlmostFull : Bool

structure PktDataShift where
  state : ShiftState
  last7Bytes : BitVec 56
  flitCnt : BitVec 16
  inPktDataR : Line
  inPktEmptyR : BitVec 6
  tmpValid : Bool
  tmp : PktFlit
  outValid : Bool
  out : PktFlit
  outMetaValid : Bool
  outMetaData : Metadata
  deriving DecidableEq

namespace PktDataShift

def udpHdrLen : Nat := 42
def tcpHdrLen : Nat := 54
def tcpRmLen : Nat := 47

def zeroFlit : PktFlit := ⟨false, false, 0, vec fun _ => 0⟩

def reset : PktDataShift where
  state := .first
  last7Bytes := 0
  flitCnt := 0
  inPktDataR := vec fun _ => 0
  inPktEmptyR := 0
  tmpValid := false
  tmp := zeroFlit
  outValid := false
  out := zeroFlit
  outMetaValid := false
  outMetaData := .zero

variable (s : PktDataShift) (i : ShiftIn)

def proceed (i : ShiftIn) : Bool := i.metaValid && !i.outMetaAlmostFull && !i.outPktAlmostFull

def inMetaReady (i : ShiftIn) : Bool := i.pkt.sop && i.pktValid

def inPktReady : Bool :=
  match s.state with
  | .udp | .tcp => true
  | _ => proceed i

def starts (i : ShiftIn) : Bool := proceed i && i.pktValid && i.pkt.sop

def isUdp (i : ShiftIn) : Bool := i.metaData.prot == protUdp

/-- `empty` of a line that `len` bytes have been taken off. -/
def addEmpty (e : BitVec 6) (len : Nat) : BitVec 6 := BitVec.ofNat 6 (e.toNat + len)

def first : PktDataShift :=
  let d := { s with tmpValid := false, tmp := { s.tmp with sop := false, eop := false, empty := 0 }, flitCnt := 0 }
  if starts i then
    if i.pkt.eop then
      if isUdp i then
        { d with tmpValid := true, tmp := ⟨true, true, addEmpty i.pkt.empty udpHdrLen, i.pkt.data.shl udpHdrLen⟩ }
      else
        { d with
          tmpValid := true
          tmp := ⟨true, true, addEmpty i.pkt.empty tcpRmLen,
            .ofList (last7 i.metaData.last7Bytes ++ i.pkt.data.toList.drop tcpHdrLen ++ List.replicate tcpRmLen 0xff)⟩ }
    else if isUdp i then { d with inPktDataR := i.pkt.data, state := .udp }
    else { d with inPktDataR := i.pkt.data, state := .tcp, last7Bytes := i.metaData.last7Bytes }
  else d

/-- `UDP` and `TCP`: a flit with the data `data`, `len` bytes of the line at the input included. -/
def middle (len : Nat) (last : ShiftState) (data : Line) : PktDataShift :=
  if i.pktValid then
    let sop := s.flitCnt == 0
    let d := { s with inPktDataR := i.pkt.data, tmpValid := true }
    if i.pkt.eop then
      if 64 < i.pkt.empty.toNat + len then
        { d with tmp := ⟨sop, true, BitVec.ofNat 6 (i.pkt.empty.toNat + len - 64), data⟩, state := .first, flitCnt := 0 }
      else
        { d with
          tmp := ⟨sop, false, 0, data⟩
          inPktEmptyR := i.pkt.empty
          state := last
          flitCnt := s.flitCnt + 1 }
    else { d with tmp := ⟨sop, false, 0, data⟩, flitCnt := s.flitCnt + 1 }
  else { s with tmpValid := false, tmp := { s.tmp with sop := false, eop := false } }

def udpData : Line := (s.inPktDataR.shl udpHdrLen).or (i.pkt.data.shr (64 - udpHdrLen))

def tcpData : Line :=
  if s.flitCnt = 0 then .ofList (last7 s.last7Bytes ++ s.inPktDataR.toList.drop tcpHdrLen ++ i.pkt.data.toList)
  else .ofList (s.inPktDataR.toList.drop tcpRmLen ++ i.pkt.data.toList)

/-- `UDP_LAST`, `SINGLE_UDP`, `TCP_LAST` and `SINGLE_TCP`: the last flit of a
frame is put out, and the next frame may start. -/
def final (f : PktFlit) : PktDataShift :=
  let d := { s with tmpValid := true, tmp := f, flitCnt := 0 }
  if starts i then
    { d with
      inPktDataR := i.pkt.data
      last7Bytes := i.metaData.last7Bytes
      state :=
        if i.pkt.eop then if isUdp i then .singleUdp else .singleTcp
        else if isUdp i then .udp else .tcp }
  else { d with state := .first }

/-- The last flit; `data` is the line at the input. -/
def finalFlit (data : Line) : PktFlit :=
  match s.state with
  | .singleUdp => ⟨true, true, addEmpty s.inPktEmptyR udpHdrLen, s.inPktDataR.shl udpHdrLen⟩
  | .tcpLast => ⟨false, true, addEmpty s.inPktEmptyR tcpRmLen,
      .ofList (s.inPktDataR.toList.drop tcpRmLen ++ List.replicate tcpRmLen 0xff)⟩
  -- the line at the input, not the one that was registered
  | .singleTcp => ⟨true, true, addEmpty s.inPktEmptyR tcpRmLen,
      .ofList (last7 s.last7Bytes ++ data.toList.drop tcpHdrLen)⟩
  | _ => ⟨false, true, addEmpty s.inPktEmptyR udpHdrLen,
      (s.inPktDataR.shl udpHdrLen).or (Line.ones.shr (64 - udpHdrLen))⟩

def update : PktDataShift :=
  match s.state with
  | .first => s.first i
  | .udp => s.middle i udpHdrLen .udpLast (s.udpData i)
  | .tcp => s.middle i tcpRmLen .tcpLast (s.tcpData i)
  | .udpLast | .singleUdp | .tcpLast | .singleTcp => s.final i (s.finalFlit i.pkt.data)

/-- The empty bytes of the last flit are set. -/
def masked (f : PktFlit) : PktFlit :=
  { f with data := if f.eop then f.data.or (Line.ones.shr (64 - f.empty.toNat)) else f.data }

def step : PktDataShift :=
  { s.update i with
    outValid := s.tmpValid
    out := masked s.tmp
    outMetaValid := i.metaValid && inMetaReady i
    outMetaData := i.metaData }

end PktDataShift

/-! ## Frames at the input -/

/-- A frame: all its lines but the last, the last one with its empty bytes. It is longer than its header. -/
structure Frame where
  info : Metadata
  body : List Line
  last : Line
  empty : BitVec 6
  long : (if info.prot = protUdp then 43 else 54) ≤ 64 * body.length + (64 - empty.toNat)

def lineFlits (sop : Bool) (last : Line) (empty : BitVec 6) : List Line → List PktFlit
  | [] => [⟨sop, true, empty, last⟩]
  | d :: body => ⟨sop, false, 0, d⟩ :: lineFlits false last empty body

def Frame.flits (f : Frame) : List PktFlit := lineFlits true f.last f.empty f.body

/-- The shifter, the flits and metadata in front of it, and what it has put out. -/
structure ShiftSys where
  core : PktDataShift
  flits : List PktFlit
  metas : List Metadata
  out : List PktFlit
  outMeta : List Metadata
  deriving DecidableEq

/-- Whether a flit and metadata are offered; `idle` is on the bus when no flit is. -/
structure ShiftTick where
  pkt : Bool
  info : Bool
  idle : PktFlit

namespace ShiftSys

variable (s : ShiftSys) (i : ShiftTick)

def reset (fs : List Frame) : ShiftSys := ⟨.reset, fs.flatMap Frame.flits, fs.map Frame.info, [], []⟩

def input : ShiftIn where
  pktValid := i.pkt && !s.flits.isEmpty
  pkt := if i.pkt then s.flits.headD i.idle else i.idle
  metaValid := i.info && !s.metas.isEmpty
  metaData := s.metas.headD .zero
  outPktAlmostFull := false
  outMetaAlmostFull := false

def step : ShiftSys where
  core := s.core.step (s.input i)
  flits := if (s.input i).pktValid && s.core.inPktReady (s.input i) then s.flits.tail else s.flits
  metas := if (s.input i).metaValid && PktDataShift.inMetaReady (s.input i) then s.metas.tail else s.metas
  out := if s.core.outValid then s.out ++ [s.core.out] else s.out
  outMeta := if s.core.outMetaValid then s.outMeta ++ [s.core.outMetaData] else s.outMeta

end ShiftSys

end Pigasus
