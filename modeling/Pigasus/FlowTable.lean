import Pigasus.ParaQ
import Pigasus.RrArbiter

/-!
# The flow table

`flow_table`: four hashed sub-tables and the insertion queue. Port A serves the
fast path (channels 0 and 1); port B is shared by one state machine that moves
entries from the queue to the sub-tables and serves the slow path (channels 2
and 3).
-/

namespace Pigasus

open Hdl

/-- Where an entry is: a sub-table or the queue (bits 0 .. 3 and 4 of a bit map). -/
inductive Loc
  | ft (i : Fin 4)
  | q
  deriving DecidableEq, Repr

def Loc.all : List Loc := [.ft 0, .ft 1, .ft 2, .ft 3, .q]

/-- One value for each sub-table and one for the queue. -/
structure PerLoc (α : Type) where
  ft : Vec α 4
  q : α

def PerLoc.get {α : Type} (p : PerLoc α) : Loc → α
  | .ft k => p.ft k
  | .q => p.q

instance {α : Type} : CoeFun (PerLoc α) fun _ => Loc → α := ⟨PerLoc.get⟩

def perLoc {α : Type} (f : Loc → α) : PerLoc α := ⟨vec fun k => f (.ft k), f .q⟩

@[simp] theorem perLoc_get {α : Type} (f : Loc → α) (l : Loc) : perLoc f l = f l := by
  cases l <;> simp [perLoc, PerLoc.get]

abbrev BitMap := PerLoc Bool

def BitMap.none : BitMap := perLoc fun _ => false

def BitMap.only (l : Loc) : BitMap := perLoc fun k => decide (k = l)

inductive PState
  | pArb | pLookup | pFill | pEvic | slowUpdate | slowUpdateWait | slowLookupWait | slowLookup
  deriving DecidableEq, Repr

structure FtIn where
  ch0Meta : FceMeta
  ch0Rden : Bool
  ch1Opcode : Opcode
  ch1BitMap : BitMap
  ch1Wren : Bool
  ch1Data : Fce
  ch2Meta : FceMeta
  ch2Rden : Bool
  ch3Wren : Bool
  ch3Data : Fce
  ch3RelPktCnt : PktId

/-- A true dual-port RAM with two cycles of read latency on each port. -/
structure Ram where
  mem : FtAddr → Fce
  a : RdPort Fce
  b : RdPort Fce

/-- Port B registers of one sub-table: `ft_addr_b`, `ft_data_b`, `ft_rden_b`, `ft_wren_b`, `ft_q_b_r`. -/
structure SubPortB where
  addrB : FtAddr
  dataB : Fce
  rdenB : Bool
  wrenB : Bool
  qBR : Fce

/-- The registers of the port B state machine. -/
structure PortB where
  pState : PState
  ft : Vec SubPortB 4
  qAddrB : Tuple
  qDataB : Fce
  qRdenB : Bool
  qWrenB : Bool
  qDequeEn : Bool
  evict : Bool
  evictData : Fce
  slowBusy : Bool
  ch3DataR : Fce
  ch3RelPktCntR : PktId
  lookupTupleB : Tuple
  ftEmptyR : Vec Bool 4

/-- The read-during-write forwarding registers of one memory. -/
structure Rdw where
  aR1 : Bool
  aR2 : Bool
  bR1 : Bool
  bR2 : Bool
  dataBR1 : Fce
  dataBR2 : Fce
  dataAR1 : Fce
  dataAR2 : Fce

structure FlowTable where
  ram : Vec Ram 4
  pq : ParaQ
  pb : PortB
  mask : BitVec 4
  rdw : PerLoc Rdw
  rdValidAR : Bool
  rdValidA : Bool
  rdValidBR : Bool
  rdValidB : Bool
  qRdenAR1 : Bool
  lookupTupleR1 : Tuple
  lookupTupleR2 : Tuple
  lookupTupleBR1 : Tuple
  lookupTupleBR2 : Tuple
  qDequeDoneR : Bool
  ch0RdValid : Bool
  ch0BitMap : BitMap
  ch0Q : Fce
  qEmptyR : Bool
  ch0TupleR1 : Tuple
  ch0TupleLatchR : Tuple
  random : BitVec 2

namespace FlowTable

def resetSubPortB : SubPortB := ⟨0, .zero, false, false, .zero⟩

def resetPortB : PortB where
  pState := .pArb
  ft := vec fun _ => resetSubPortB
  qAddrB := zeroTuple
  qDataB := .zero
  qRdenB := false
  qWrenB := false
  qDequeEn := false
  evict := false
  evictData := .zero
  slowBusy := false
  ch3DataR := .zero
  ch3RelPktCntR := 0
  lookupTupleB := zeroTuple
  ftEmptyR := vec fun _ => false

def resetRdw : Rdw := ⟨false, false, false, false, .zero, .zero, .zero, .zero⟩

def reset : FlowTable where
  ram := vec fun _ => ⟨fun _ => .zero, ⟨.zero, .zero⟩, ⟨.zero, .zero⟩⟩
  pq := .reset
  pb := resetPortB
  mask := 0b1111
  rdw := perLoc fun _ => resetRdw
  rdValidAR := false
  rdValidA := false
  rdValidBR := false
  rdValidB := false
  qRdenAR1 := false
  lookupTupleR1 := zeroTuple
  lookupTupleR2 := zeroTuple
  lookupTupleBR1 := zeroTuple
  lookupTupleBR2 := zeroTuple
  qDequeDoneR := false
  ch0RdValid := false
  ch0BitMap := .none
  ch0Q := .zero
  qEmptyR := true
  ch0TupleR1 := zeroTuple
  ch0TupleLatchR := zeroTuple
  random := 0

variable (s : FlowTable) (i : FtIn)

/-! ## Port A -/

def slowConflict : Bool := s.pb.slowBusy && i.ch0Rden && decide (s.pb.ch3DataR.tuple = i.ch0Meta.tuple)

def ch0RdStall : Bool :=
  s.rdValidAR || s.rdValidA || s.ch0RdValid || i.ch1Wren || s.pb.pState == .pLookup || s.pb.pState == .pFill ||
    s.qDequeDoneR || s.slowConflict i

/-- `ft0_rden_a` .. `ft3_rden_a` and `q_rden_a`. -/
def rdenA : Bool := i.ch0Rden && !s.ch0RdStall i

def addrA (k : Fin 4) : FtAddr := if i.ch1Wren then i.ch1Data.addr k else i.ch0Meta.addr k

def qAddrA : Tuple := if i.ch1Wren then i.ch1Data.tuple else i.ch0Meta.tuple

def update : Bool := i.ch1Wren && (i.ch1Opcode == .update || i.ch1Opcode == .delete)

/-- `ft_wren_a` of the sub-tables and `q_wren_a`; a delete in the queue is an operation, not a write. -/
def wrenA : Loc → Bool
  | .ft k => update i && i.ch1BitMap (.ft k)
  | .q => i.ch1Wren && i.ch1Opcode == .update && i.ch1BitMap .q

def ftHit : BitMap where
  ft := vec fun k => decide (s.lookupTupleR2 = (s.ram k).a.q.tuple) && (s.ram k).a.q.valid
  q := s.pq.rdHitA

def odataA : Loc → Fce
  | .ft k => if (s.rdw (.ft k)).aR2 then (s.rdw (.ft k)).dataBR2 else (s.ram k).a.q
  | .q => if (s.rdw .q).aR2 then (s.rdw .q).dataBR2 else s.pq.qA

/-- The bit map of a lookup; a forwarded write overrides it, the last location in the list winning. -/
def ch0BitMapInt : BitMap :=
  (Loc.all.foldl (fun b l => if (s.rdw l).aR2 then BitMap.only l else b) s.ftHit)

def sel (b : BitMap) (d : Loc → Fce) : Fce :=
  match oneHot? Loc.all b with
  | some l => d l
  | none => .zero

/-! ## Insert and delete -/

def insert : Bool := i.ch1Wren && i.ch1BitMap .q && i.ch1Opcode == .insert

def delete : Bool := i.ch1Wren && i.ch1BitMap .q && i.ch1Opcode == .delete

def qOpEn : Bool := (insert i && !s.pq.full) || delete i || s.pb.evict

def qOpId : PqOp := if insert i || s.pb.evict then .fastInsert else .fastDelete

def qOpData : Fce := if s.pb.evict then s.pb.evictData else i.ch1Data

def ch1InsertStall : Bool := insert i && s.pq.full

/-! ## Port B -/

def req : BitVec 4 :=
  BitVec.ofBoolListLE [s.pb.pState == .pArb && !s.qEmptyR, s.pb.pState == .pArb && (i.ch3Wren || i.ch2Rden),
    false, false]

def grant : BitVec 4 := RrArbiter.grant s.mask (s.req i)

/-- `ch2_ready` and `ch3_ready`. -/
def slowReady : Bool := (s.grant i).getLsbD 1

def ftHitB : BitMap where
  ft := vec fun k => decide (s.lookupTupleBR2 = (s.ram k).b.q.tuple) && (s.ram k).b.q.valid
  q := s.pq.rdHitB

def odataB : Loc → Fce
  | .ft k => if (s.rdw (.ft k)).bR2 then (s.rdw (.ft k)).dataAR2 else (s.ram k).b.q
  | .q => if (s.rdw .q).bR2 then (s.rdw .q).dataAR2 else s.pq.qB

def ch2BitMap : BitMap :=
  (Loc.all.foldl (fun b l => if (s.rdw l).bR2 then BitMap.only l else b) s.ftHitB)

def ch2Q : Fce := sel s.ch2BitMap s.odataB

def ch2RdValid : Bool := s.pb.pState == .slowLookup && s.rdValidB

def ftEmpty (k : Fin 4) : Bool := !(s.ram k).b.q.valid

def ch0TupleLatch : Tuple := if s.rdenA i then i.ch0Meta.tuple else s.ch0TupleLatchR

def headBusy : Bool :=
  (s.rdenA i && decide (i.ch0Meta.tuple = s.pq.dequeData.tuple)) ||
    (s.qRdenAR1 && decide (s.ch0TupleR1 = s.pq.dequeData.tuple))

def fastBusy : Bool := i.ch0Rden || s.ch0RdStall i

/-- The first empty way of the last lookup takes the entry. -/
def fillWay (e : Fin 4 → Bool) (k : Fin 4) : Bool :=
  e k && (List.finRange 4).all fun j => !(decide (j < k) && e j)

/-- The fast path is using the entry that channel 3 wants to write. -/
def updateConflict : Bool := s.fastBusy i && decide (i.ch3Data.tuple = s.ch0TupleLatch i)

/-- The fast path is about to write the entry of tuple `t`. -/
def lookupConflict (t : Tuple) : Bool := s.ch0RdValid && decide (t = s.ch0TupleLatch i)

/-- The defaults of `P_ARB`. -/
def arbDefault : PortB :=
  { s.pb with
    pState := .pArb
    ft := vec fun k => { s.pb.ft k with rdenB := false, wrenB := false }
    qRdenB := false
    qWrenB := false
    qDequeEn := false
    evict := false
    slowBusy := false }

/-- A slow write is taken over from channel 3. -/
def take3 : PortB :=
  { s.arbDefault with
    ft := vec fun k => { s.arbDefault.ft k with addrB := i.ch3Data.addr k }
    qAddrB := i.ch3Data.tuple
    ch3DataR := i.ch3Data
    lookupTupleB := i.ch3Data.tuple
    ch3RelPktCntR := i.ch3RelPktCnt }

/-- A slow lookup is taken over from channel 2. -/
def take2 : PortB :=
  { s.arbDefault with
    ft := vec fun k => { s.arbDefault.ft k with addrB := i.ch2Meta.addr k }
    qAddrB := i.ch2Meta.tuple
    lookupTupleB := i.ch2Meta.tuple }

/-- Port B starts to read every location for the slow path. -/
def slowRead (p : PortB) (st : PState) (busy : Bool) : PortB :=
  { p with pState := st, ft := vec fun k => { p.ft k with rdenB := true }, qRdenB := true, slowBusy := busy }

def arbStep : PortB :=
  if s.grant i == 0b0001#4 then
    { s.arbDefault with
      pState := .pLookup
      ft := vec fun k => { s.arbDefault.ft k with rdenB := true, addrB := s.pq.dequeData.addr k } }
  else if s.grant i == 0b0010#4 then
    if i.ch3Wren then
      if s.updateConflict i then { s.take3 i with pState := .slowUpdateWait }
      else slowRead (s.take3 i) .slowUpdate true
    else if s.lookupConflict i i.ch2Meta.tuple then { s.take2 i with pState := .slowLookupWait }
    else slowRead (s.take2 i) .slowLookup false
  else s.arbDefault

def lookupStep : PortB :=
  let p := { s.pb with ft := vec fun k => { s.pb.ft k with rdenB := false, qBR := (s.ram k).b.q } }
  if s.rdValidB then
    let p := { p with ftEmptyR := vec s.ftEmpty }
    if s.headBusy i then { p with pState := .pArb }
    else if isZero (List.finRange 4) s.ftEmpty then { p with pState := .pEvic, qDequeEn := true }
    else { p with pState := .pFill, qDequeEn := true }
  else p

def fillStep : PortB :=
  let p := { s.pb with ft := vec fun k => { s.pb.ft k with dataB := s.pq.dequeData }, qDequeEn := false }
  if s.pq.dequeDone then
    { p with
      pState := .pArb
      ft := vec fun k => { p.ft k with wrenB := fillWay p.ftEmptyR k || (p.ft k).wrenB } }
  else p

/-- The entry read from the chosen way goes back to the queue; there is room, as the head has just left. -/
def evicStep : PortB :=
  let p := { s.pb with
    ft := vec fun k => { s.pb.ft k with dataB := s.pq.dequeData }
    evict := false
    qDequeEn := false }
  if s.pq.dequeDone then
    { p with
      pState := .pArb
      evict := true
      evictData := (p.ft s.random.toFin).qBR
      ft := vec fun k => { p.ft k with wrenB := decide (k = s.random.toFin) || (p.ft k).wrenB } }
  else p

def slowUpdateWaitStep : PortB := if s.updateConflict i then s.pb else slowRead s.pb .slowUpdate true

/-- The data of a slow write: the released packets are taken off the counter of the entry. -/
def slowData : Fce := { s.pb.ch3DataR with slowCnt := s.ch2Q.slowCnt - s.pb.ch3RelPktCntR }

/-- The slow write goes to `l`, the only location that hit. -/
def slowWrite (l : Loc) : Bool := s.rdValidB && oneHot? Loc.all s.ch2BitMap == some l

def slowUpdateStep : PortB :=
  { s.pb with
    ft := vec fun k => { s.pb.ft k with rdenB := false, wrenB := s.slowWrite (.ft k), dataB := s.slowData }
    qRdenB := false
    qWrenB := s.slowWrite .q
    qDataB := s.slowData
    pState := if s.rdValidB then .pArb else .slowUpdate }

def slowLookupWaitStep : PortB :=
  if s.lookupConflict i s.pb.lookupTupleB then s.pb else slowRead s.pb .slowLookup s.pb.slowBusy

def slowLookupStep : PortB :=
  { s.pb with
    ft := vec fun k => { s.pb.ft k with rdenB := false }
    qRdenB := false
    pState := if s.rdValidB then .pArb else .slowLookup }

/-- One edge of the port B state machine. -/
def portBStep : PortB :=
  match s.pb.pState with
  | .pArb => s.arbStep i
  | .pLookup => s.lookupStep i
  | .pFill => s.fillStep
  | .pEvic => s.evicStep
  | .slowUpdateWait => s.slowUpdateWaitStep i
  | .slowUpdate => s.slowUpdateStep
  | .slowLookupWait => s.slowLookupWaitStep i
  | .slowLookup => s.slowLookupStep

/-! ## Read during write -/

/-- `rdw0_a` .. `rdw3_a` and `rdwq_a`: port A reads the word that port B writes. -/
def rdwA : Loc → Bool
  | .ft k => s.rdenA i && (s.pb.ft k).wrenB && decide (addrA i k = (s.pb.ft k).addrB)
  | .q => s.rdenA i && s.pb.qWrenB && decide (qAddrA i = s.pb.qAddrB)

/-- `rdw0_b` .. `rdw3_b` and `rdwq_b`: port B reads the word that port A writes. -/
def rdwB : Loc → Bool
  | .ft k => (s.pb.ft k).rdenB && wrenA i (.ft k) && decide ((s.pb.ft k).addrB = addrA i k)
  | .q => s.pb.qRdenB && wrenA i .q && decide (s.pb.qAddrB = qAddrA i)

def dataB : Loc → Fce
  | .ft k => (s.pb.ft k).dataB
  | .q => s.pb.qDataB

/-- Only sub-table 0 registers the data of port A; `ft1_data_a_r2` .. `q_data_a_r2` are never assigned. -/
def rdwStep (l : Loc) : Rdw :=
  let r := s.rdw l
  { aR1 := s.rdwA i l
    aR2 := r.aR1
    bR1 := s.rdwB i l
    bR2 := r.bR1
    dataBR1 := s.dataB l
    dataBR2 := r.dataBR1
    dataAR1 := if l = .ft 0 then i.ch1Data else r.dataAR1
    dataAR2 := if l = .ft 0 then r.dataAR1 else r.dataAR2 }

def ramStep (k : Fin 4) : Ram :=
  let r := s.ram k
  let pb := s.pb.ft k
  { mem := wr pb.wrenB pb.addrB pb.dataB (wr (wrenA i (.ft k)) (addrA i k) i.ch1Data r.mem)
    a := r.a.step (s.rdenA i) (r.mem (addrA i k))
    b := r.b.step pb.rdenB (r.mem pb.addrB) }

def pqIn : ParaQIn where
  addrA := qAddrA i
  dataA := i.ch1Data
  rdenA := s.rdenA i
  wrenA := wrenA i .q
  addrB := s.pb.qAddrB
  dataB := s.pb.qDataB
  rdenB := s.pb.qRdenB
  wrenB := s.pb.qWrenB
  opEn := s.qOpEn i
  opId := s.qOpId i
  opData := s.qOpData i
  dequeEn := s.pb.qDequeEn

def step : FlowTable where
  ram := vec (s.ramStep i)
  pq := s.pq.step (s.pqIn i)
  pb := s.portBStep i
  mask := RrArbiter.nextMask s.mask (s.req i)
  rdw := perLoc (s.rdwStep i)
  rdValidAR := s.rdenA i
  rdValidA := s.rdValidAR
  rdValidBR := (s.pb.ft 0).rdenB
  rdValidB := s.rdValidBR
  qRdenAR1 := s.rdenA i
  lookupTupleR1 := i.ch0Meta.tuple
  lookupTupleR2 := s.lookupTupleR1
  lookupTupleBR1 := s.pb.lookupTupleB
  lookupTupleBR2 := s.lookupTupleBR1
  qDequeDoneR := s.pq.dequeDone
  ch0RdValid := s.rdValidA
  ch0BitMap := s.ch0BitMapInt
  ch0Q := sel s.ch0BitMapInt s.odataA
  qEmptyR := s.pq.empty
  ch0TupleR1 := i.ch0Meta.tuple
  ch0TupleLatchR := s.ch0TupleLatch i
  random := s.random + 1

end FlowTable

end Pigasus
