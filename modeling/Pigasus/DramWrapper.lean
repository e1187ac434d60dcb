import Pigasus.PduForward
import Pigasus.ReductionSound
import Mathlib.Data.List.Chain

/-!
# The buffer of packets to be checked

`dram_wrapper` with the block memory of `BRAM_CHECKPKT_BUF`: packets of write requests
and packets of read requests wait in two FIFOs, `rr_arbiter_pkt` lets one packet at a
time through, and a FIFO takes the requests to the clock of the memory. The answers come
back through another FIFO. The two clocks tick in any order.
-/

namespace Pigasus

open Hdl

/-! ## `rr_arbiter_pkt` -/

structure RrArbiterPkt where
  lock : Bool
  lockGrant : BitVec 2
  mask : BitVec 2
  deriving DecidableEq

namespace RrArbiterPkt

variable (s : RrArbiterPkt) (req sop eop : BitVec 2)

def reset : RrArbiterPkt := ⟨false, 0, BitVec.allOnes 2⟩

def arbReq : BitVec 2 := if s.lock then 0 else req &&& sop

def arbGrant : BitVec 2 := RrArbiter2.grant s.mask (s.arbReq req sop)

def grant : BitVec 2 := if s.lock then s.lockGrant else s.arbGrant req sop

def step : RrArbiterPkt :=
  let next : RrArbiterPkt :=
    if s.lock then
      if s.lockGrant = 1 then
        if req.getLsbD 0 && eop.getLsbD 0 then { s with lock := false, lockGrant := 0 } else s
      else if s.lockGrant = 2 then
        if req.getLsbD 1 && eop.getLsbD 1 then { s with lock := false, lockGrant := 0 } else s
      else s
    else
      if s.arbGrant req sop = 1 then { s with lockGrant := 1, lock := req.getLsbD 0 && !eop.getLsbD 0 }
      else if s.arbGrant req sop = 2 then { s with lockGrant := 2, lock := req.getLsbD 1 && !eop.getLsbD 1 }
      else { s with lockGrant := 0 }
  { next with mask := RrArbiter2.nextMask s.mask (s.arbReq req sop) }

end RrArbiterPkt

/-! ## `dram_wrapper` -/

structure DdrRead where
  addr : Nat
  sop : Bool
  eop : Bool
  deriving DecidableEq

structure DdrReq where
  wr : Bool
  addr : Nat
  data : BitVec 512
  deriving DecidableEq

inductive DramOp
  | write (w : DdrWrite)
  | read (r : DdrRead)
  deriving DecidableEq

/-- An edge of `clk`. The data of an empty FIFO and the marks `almost_full` are arbitrary, and what
was pushed may be seen late. -/
structure DramClk where
  wr : Option DdrWrite
  rd : Option DdrRead
  wrSeen : Bool
  rdSeen : Bool
  idleWr : DdrWrite
  idleRd : DdrRead
  reqAlmostFull : Bool
  respAlmostFull : Bool
  respSeen : Bool
  respReady : Bool

inductive DramTick
  | clk (i : DramClk)
  -- an edge of `emif_clk`, and whether the request FIFO shows its first entry
  | emif (reqSeen : Bool)

/-- Beside the FIFOs and registers: what came in, the requests that were let through and those
that the memory took, and the answers that left. -/
structure DramSys where
  wrFifo : List DdrWrite
  rdFifo : List DdrRead
  arb : RrArbiterPkt
  reqValid : Bool
  reqData : DdrReq
  reqFifo : List DdrReq
  mem : BitVec 9 → BitVec 512
  rdenR1 : Bool
  readdatavalid : Bool
  port : RdPort (BitVec 512)
  respValid : Bool
  respData : BitVec 512
  respValidR : Bool
  respDataR : BitVec 512
  respFifo : List (BitVec 512)
  wrIn : List DdrWrite
  rdIn : List DdrRead
  order : List DramOp
  issued : List DdrReq
  delivered : List (BitVec 512)

namespace DramSys

def fifoDepth : Nat := 512

/-- A push into a full FIFO is lost. -/
def offered {α : Type} (l : List α) (x : Option α) : Option α := if l.length < fifoDepth then x else none

variable (s : DramSys) (i : DramClk)

def wrOut : Option DdrWrite := if i.wrSeen then s.wrFifo.head? else none

def rdOut : Option DdrRead := if i.rdSeen then s.rdFifo.head? else none

def arbReq : BitVec 2 :=
  BitVec.ofBoolListLE [(s.wrOut i).isSome && !i.reqAlmostFull, (s.rdOut i).isSome && !i.reqAlmostFull && !i.respAlmostFull]

def arbSop : BitVec 2 := BitVec.ofBoolListLE [((s.wrOut i).map DdrWrite.sop).getD false, ((s.rdOut i).map DdrRead.sop).getD false]

def arbEop : BitVec 2 := BitVec.ofBoolListLE [((s.wrOut i).map DdrWrite.eop).getD false, ((s.rdOut i).map DdrRead.eop).getD false]

def arbGrant : BitVec 2 := s.arb.grant (s.arbReq i) (s.arbSop i)

def wrData : DdrWrite := (s.wrOut i).getD i.idleWr

def rdData : DdrRead := (s.rdOut i).getD i.idleRd

/-- `ddr_req_valid` and `ddr_req_data` behind the edge. -/
def nextReq : Bool × DdrReq :=
  if s.arbGrant i = 1 then (true, ⟨true, (s.wrData i).addr, (s.wrData i).data⟩)
  else if s.arbGrant i = 2 then (true, ⟨false, (s.rdData i).addr, (s.wrData i).data⟩)
  else (false, ⟨false, 0, (s.wrData i).data⟩)

def taken : Option DramOp :=
  if s.arbGrant i = 1 then (s.wrOut i).map DramOp.write
  else if s.arbGrant i = 2 then (s.rdOut i).map DramOp.read
  else none

def pushedReq : Option DdrReq := offered s.reqFifo (if s.reqValid then some s.reqData else none)

def respPop : Bool := i.respSeen && i.respReady

def stepClk : DramSys :=
  { s with
    wrFifo := fifoStep s.wrFifo (offered s.wrFifo i.wr) ((s.arbGrant i).getLsbD 0 && (s.wrOut i).isSome)
    rdFifo := fifoStep s.rdFifo (offered s.rdFifo i.rd) ((s.arbGrant i).getLsbD 1 && (s.rdOut i).isSome)
    arb := s.arb.step (s.arbReq i) (s.arbSop i) (s.arbEop i)
    reqValid := (s.nextReq i).1
    reqData := (s.nextReq i).2
    reqFifo := fifoStep s.reqFifo s.pushedReq false
    respFifo := fifoStep s.respFifo none (respPop i)
    wrIn := s.wrIn ++ i.wr.toList
    rdIn := s.rdIn ++ i.rd.toList
    order := s.order ++ (s.taken i).toList
    delivered := s.delivered ++ (if respPop i then s.respFifo.head? else none).toList }

/-- `int_req_data`, when it is valid; the block memory is always ready. -/
def intReq (reqSeen : Bool) : Option DdrReq := if reqSeen then s.reqFifo.head? else none

def emifRead (reqSeen : Bool) : Bool := ((s.intReq reqSeen).map fun r => !r.wr).getD false

def emifWrite (reqSeen : Bool) : Bool := ((s.intReq reqSeen).map DdrReq.wr).getD false

/-- `emif_address[8:0]` -/
def emifAddress (reqSeen : Bool) : BitVec 9 := BitVec.ofNat 9 (((s.intReq reqSeen).map DdrReq.addr).getD 0)

def emifWritedata (reqSeen : Bool) : BitVec 512 := ((s.intReq reqSeen).map DdrReq.data).getD 0

def pushedResp : Option (BitVec 512) := offered s.respFifo (if s.respValidR then some s.respDataR else none)

def stepEmif (reqSeen : Bool) : DramSys :=
  { s with
    reqFifo := fifoStep s.reqFifo none (s.intReq reqSeen).isSome
    mem := wr (s.emifWrite reqSeen) (s.emifAddress reqSeen) (s.emifWritedata reqSeen) s.mem
    rdenR1 := s.emifRead reqSeen
    readdatavalid := s.rdenR1
    port := s.port.step (s.emifRead reqSeen) (s.mem (s.emifAddress reqSeen))
    respValid := s.readdatavalid
    respData := s.port.q
    respValidR := s.respValid
    respDataR := s.respData
    respFifo := fifoStep s.respFifo s.pushedResp false
    issued := s.issued ++ (s.intReq reqSeen).toList }

def step : DramTick → DramSys
  | .clk i => s.stepClk i
  | .emif reqSeen => s.stepEmif reqSeen

def init (mem : BitVec 9 → BitVec 512) : DramSys where
  wrFifo := []
  rdFifo := []
  arb := RrArbiterPkt.reset
  reqValid := false
  reqData := ⟨false, 0, 0⟩
  reqFifo := []
  mem := mem
  rdenR1 := false
  readdatavalid := false
  port := ⟨0, 0⟩
  respValid := false
  respData := 0
  respValidR := false
  respDataR := 0
  respFifo := []
  wrIn := []
  rdIn := []
  order := []
  issued := []
  delivered := []

def Held (i : DramClk) : Prop :=
  s.arb.lock = true → (s.arb.lockGrant = 1 → (s.arbReq i).getLsbD 0 = true) ∧ (s.arb.lockGrant = 2 → (s.arbReq i).getLsbD 1 = true)

instance : Decidable (s.Held i) := inferInstanceAs (Decidable (_ → _))

/-- A packet that was begun is not interrupted, and no FIFO overflows. -/
def Ok : DramTick → Prop
  | .clk i => s.Held i ∧ (i.wr ≠ none → s.wrFifo.length < fifoDepth) ∧ (i.rd ≠ none → s.rdFifo.length < fifoDepth) ∧
      (s.reqValid = true → s.reqFifo.length < fifoDepth)
  | .emif _ => s.respValidR = true → s.respFifo.length < fifoDepth

instance : ∀ t, Decidable (s.Ok t)
  | .clk _ => inferInstanceAs (Decidable (_ ∧ _))
  | .emif _ => inferInstanceAs (Decidable (_ → _))

end DramSys

/-! ## A memory that serves one request after the other -/

inductive MemOp
  | write (a : BitVec 9) (d : BitVec 512)
  | read (a : BitVec 9)

namespace MemOp

def after (m : BitVec 9 → BitVec 512) : List MemOp → BitVec 9 → BitVec 512
  | [] => m
  | .write a d :: l => after (upd m a d) l
  | .read _ :: l => after m l

def serve (m : BitVec 9 → BitVec 512) : List MemOp → List (BitVec 512)
  | [] => []
  | .write a d :: l => serve (upd m a d) l
  | .read a :: l => m a :: serve m l

theorem after_append (l l' : List MemOp) : ∀ m, after m (l ++ l') = after (after m l) l' := by
  induction l with
  | nil => exact fun _ => rfl
  | cons o l ih =>
    intro m
    cases o with
    | write a d => exact ih (upd m a d)
    | read a => exact ih m

theorem serve_append (l l' : List MemOp) : ∀ m, serve m (l ++ l') = serve m l ++ serve (after m l) l' := by
  induction l with
  | nil => exact fun _ => rfl
  | cons o l ih =>
    intro m
    cases o with
    | write a d => exact ih (upd m a d)
    | read a => exact congrArg (m a :: ·) (ih m)

end MemOp

def DdrReq.op (r : DdrReq) : MemOp := if r.wr then .write (BitVec.ofNat 9 r.addr) r.data else .read (BitVec.ofNat 9 r.addr)

namespace DramOp

def op : DramOp → MemOp
  | write w => .write (BitVec.ofNat 9 w.addr) w.data
  | read r => .read (BitVec.ofNat 9 r.addr)

def sop : DramOp → Bool
  | write w => w.sop
  | read r => r.sop

def eop : DramOp → Bool
  | write w => w.eop
  | read r => r.eop

def side : DramOp → BitVec 2
  | write _ => 1
  | read _ => 2

def write? : DramOp → Option DdrWrite
  | write w => some w
  | read _ => none

def read? : DramOp → Option DdrRead
  | write _ => none
  | read r => some r

/-- Behind a request within a packet comes one of the same side, behind the last one a first one. -/
def Follows (a b : DramOp) : Prop := (a.eop = false → b.side = a.side) ∧ (a.eop = true → b.sop = true)

end DramOp

/-! ## One packet at a time -/

theorem RrArbiter2.grant_cases : ∀ mask req : BitVec 2, grant mask req = 0 ∨ (grant mask req = 1 ∧ req.getLsbD 0 = true) ∨
    (grant mask req = 2 ∧ req.getLsbD 1 = true) := by
  decide

namespace RrArbiterPkt

variable {s : RrArbiterPkt} {req sop eop : BitVec 2}

/-- What is granted to the side with bit `k` of the vectors: it requests, it goes on with its packet
or begins one, and it keeps the lock up to the end of the packet. -/
structure Lets (s : RrArbiterPkt) (req sop eop : BitVec 2) (side : BitVec 2) (k : Nat) : Prop where
  grant : s.grant req sop = side
  asks : req.getLsbD k = true
  going : s.lock = true → s.lockGrant = side
  first : s.lock = false → sop.getLsbD k = true
  lock : (s.step req sop eop).lock = !eop.getLsbD k
  lockGrant : (s.step req sop eop).lock = true → (s.step req sop eop).lockGrant = side

variable {side : BitVec 2} {k : Nat} (hside : side = 1 ∧ k = 0 ∨ side = 2 ∧ k = 1)

include hside

theorem lets_locked (hl : s.lock = true) (hg : s.lockGrant = side) (hr : req.getLsbD k = true) : Lets s req sop eop side k := by
  refine ⟨by rw [RrArbiterPkt.grant, if_pos hl, hg], hr, fun _ => hg, fun h => absurd (hl.symm.trans h) (by decide), ?_, ?_⟩
  all_goals
    cases he : eop.getLsbD k <;> rcases hside with ⟨rfl, rfl⟩ | ⟨rfl, rfl⟩ <;>
      simp [step, hl, hg, hr, he, -BitVec.getLsbD_eq_getElem]

theorem lets_free (hl : s.lock = false) (hg : s.arbGrant req sop = side) (hr : (s.arbReq req sop).getLsbD k = true) :
    Lets s req sop eop side k := by
  rw [arbReq, if_neg (by simp [hl]), BitVec.getLsbD_and, Bool.and_eq_true] at hr
  refine ⟨by rw [RrArbiterPkt.grant, if_neg (by simp [hl]), hg], hr.1, fun h => absurd (hl.symm.trans h) (by decide), fun _ => hr.2, ?_, ?_⟩
  all_goals rcases hside with ⟨rfl, rfl⟩ | ⟨rfl, rfl⟩ <;> simp [step, hl, hg, hr.1]

omit hside

theorem step_cases (sop eop : BitVec 2) (hside : s.lock = true → s.lockGrant = 1 ∨ s.lockGrant = 2)
    (hheld : s.lock = true → (s.lockGrant = 1 → req.getLsbD 0 = true) ∧ (s.lockGrant = 2 → req.getLsbD 1 = true)) :
    Lets s req sop eop 1 0 ∨ Lets s req sop eop 2 1 ∨
      (s.grant req sop = 0 ∧ s.lock = false ∧ (s.step req sop eop).lock = false) := by
  by_cases hl : s.lock = true
  · rcases hside hl with hg | hg
    · exact .inl (lets_locked (.inl ⟨rfl, rfl⟩) hl hg ((hheld hl).1 hg))
    · exact .inr (.inl (lets_locked (.inr ⟨rfl, rfl⟩) hl hg ((hheld hl).2 hg)))
  · rw [Bool.not_eq_true] at hl
    rcases RrArbiter2.grant_cases s.mask (s.arbReq req sop) with hg | ⟨hg, hr⟩ | ⟨hg, hr⟩
    · change s.arbGrant req sop = 0 at hg
      refine .inr (.inr ⟨?_, hl, ?_⟩)
      · rw [RrArbiterPkt.grant, if_neg (by simp [hl]), hg]
      · simp [step, hl, hg]
    · exact .inl (lets_free (.inl ⟨rfl, rfl⟩) hl hg hr)
    · exact .inr (.inl (lets_free (.inr ⟨rfl, rfl⟩) hl hg hr))

end RrArbiterPkt

namespace DramSys

variable {s : DramSys}

def inFlight (s : DramSys) : List DdrReq := s.reqFifo ++ (if s.reqValid then [s.reqData] else [])

def answering (s : DramSys) : List (BitVec 512) :=
  (if s.respValidR then [s.respDataR] else []) ++ (if s.respValid then [s.respData] else []) ++
    (if s.readdatavalid then [s.port.q] else []) ++ (if s.rdenR1 then [s.port.r1] else [])

/-- The order of the requests, and the lock of the packet at its end. -/
structure Front (s : DramSys) : Prop where
  locked : s.arb.lock = true → ∃ o ∈ s.order.getLast?, o.eop = false ∧ s.arb.lockGrant = o.side
  free : s.arb.lock = false → ∀ o ∈ s.order.getLast?, o.eop = true
  chain : s.order.IsChain DramOp.Follows
  writes : s.order.filterMap DramOp.write? ++ s.wrFifo = s.wrIn
  reads : s.order.filterMap DramOp.read? ++ s.rdFifo = s.rdIn

/-- What the memory did is what a serial memory does with the requests in that order. -/
structure Back (m : BitVec 9 → BitVec 512) (s : DramSys) : Prop where
  sent : (s.issued ++ s.inFlight).map DdrReq.op = s.order.map DramOp.op
  mem : s.mem = MemOp.after m (s.issued.map DdrReq.op)
  answers : s.delivered ++ s.respFifo ++ s.answering = MemOp.serve m (s.issued.map DdrReq.op)

/-! ### An edge of `clk` -/

section
variable {i : DramClk}

theorem getLsbD_arbReq0 (h : (s.arbReq i).getLsbD 0 = true) : ∃ w, s.wrOut i = some w := by
  refine Option.isSome_iff_exists.1 ?_
  rw [arbReq] at h
  cases hw : (s.wrOut i).isSome with
  | true => rfl
  | false => simp [hw, BitVec.ofBoolListLE] at h

theorem getLsbD_arbReq1 (h : (s.arbReq i).getLsbD 1 = true) : ∃ r, s.rdOut i = some r := by
  refine Option.isSome_iff_exists.1 ?_
  rw [arbReq] at h
  cases hw : (s.rdOut i).isSome with
  | true => rfl
  | false => simp [hw, BitVec.ofBoolListLE] at h

theorem offered_eq {α : Type} {l : List α} {x : Option α} (h : x ≠ none → l.length < fifoDepth) : offered l x = x := by
  unfold offered
  by_cases hx : x = none
  · rw [hx, ite_self]
  · rw [if_pos (h hx)]

/-- All that an edge does with the two FIFOs and the register behind them. -/
structure Passes (s : DramSys) (i : DramClk) : Prop where
  going : ∀ o ∈ s.taken i, s.arb.lock = true → s.arb.lockGrant = o.side
  first : ∀ o ∈ s.taken i, s.arb.lock = false → o.sop = true
  lock : ∀ o ∈ s.taken i, (s.stepClk i).arb.lock = !o.eop
  lockGrant : ∀ o ∈ s.taken i, (s.stepClk i).arb.lock = true → (s.stepClk i).arb.lockGrant = o.side
  idle : s.taken i = none → s.arb.lock = false ∧ (s.stepClk i).arb.lock = false
  writes : (s.taken i).toList.filterMap DramOp.write? =
    (if (s.arbGrant i).getLsbD 0 && (s.wrOut i).isSome then s.wrFifo.head? else none).toList
  reads : (s.taken i).toList.filterMap DramOp.read? =
    (if (s.arbGrant i).getLsbD 1 && (s.rdOut i).isSome then s.rdFifo.head? else none).toList
  req : (if (s.nextReq i).1 then [(s.nextReq i).2] else []).map DdrReq.op = (s.taken i).toList.map DramOp.op

theorem head_of_wrOut {w : DdrWrite} (h : s.wrOut i = some w) : s.wrFifo.head? = some w := by
  unfold wrOut at h
  split at h
  · exact h
  · cases h

theorem head_of_rdOut {r : DdrRead} (h : s.rdOut i = some r) : s.rdFifo.head? = some r := by
  unfold rdOut at h
  split at h
  · exact h
  · cases h

theorem passes_some {o : DramOp} {k : Nat} (h : RrArbiterPkt.Lets s.arb (s.arbReq i) (s.arbSop i) (s.arbEop i) o.side k)
    (ht : s.taken i = some o) (hsop : (s.arbSop i).getLsbD k = o.sop) (heop : (s.arbEop i).getLsbD k = o.eop)
    (hw : (DramOp.write? o).toList = (if (s.arbGrant i).getLsbD 0 && (s.wrOut i).isSome then s.wrFifo.head? else none).toList)
    (hr : (DramOp.read? o).toList = (if (s.arbGrant i).getLsbD 1 && (s.rdOut i).isSome then s.rdFifo.head? else none).toList)
    (hreq : (if (s.nextReq i).1 then [(s.nextReq i).2] else []).map DdrReq.op = [o.op]) : Passes s i := by
  have hmem : ∀ o' ∈ s.taken i, o' = o := by
    intro o' ho
    rw [ht] at ho
    exact (Option.some.inj ho).symm
  have hone : ∀ {α : Type} (f : DramOp → Option α), (s.taken i).toList.filterMap f = (f o).toList := by
    intro α f
    rw [ht]
    cases hf : f o <;> simp [hf]
  constructor
  case going => exact fun o' ho hl => hmem o' ho ▸ h.going hl
  case first => exact fun o' ho hl => hmem o' ho ▸ hsop.symm.trans (h.first hl)
  case lock => exact fun o' ho => hmem o' ho ▸ h.lock.trans (congrArg Bool.not heop)
  case lockGrant => exact fun o' ho hl => hmem o' ho ▸ h.lockGrant hl
  case idle =>
    intro hn
    rw [ht] at hn
    cases hn
  case writes => rw [hone, hw]
  case reads => rw [hone, hr]
  case req => rw [hreq, ht]; rfl

theorem passes_write (h : RrArbiterPkt.Lets s.arb (s.arbReq i) (s.arbSop i) (s.arbEop i) 1 0) : Passes s i := by
  obtain ⟨w, hw⟩ := getLsbD_arbReq0 h.asks
  have hg : s.arbGrant i = 1 := h.grant
  refine passes_some (o := .write w) h (by rw [taken, if_pos hg, hw, Option.map_some]) ?_ ?_ ?_ ?_ ?_
  · simp [arbSop, hw, BitVec.ofBoolListLE, DramOp.sop]
  · simp [arbEop, hw, BitVec.ofBoolListLE, DramOp.eop]
  · simp [hg, hw, head_of_wrOut hw, DramOp.write?]
  · simp [hg, DramOp.read?]
  · simp [nextReq, hg, wrData, hw, DdrReq.op, DramOp.op]

theorem passes_read (h : RrArbiterPkt.Lets s.arb (s.arbReq i) (s.arbSop i) (s.arbEop i) 2 1) : Passes s i := by
  obtain ⟨r, hr⟩ := getLsbD_arbReq1 h.asks
  have hg : s.arbGrant i = 2 := h.grant
  refine passes_some (o := .read r) h (by rw [taken, if_neg (by rw [hg]; decide), if_pos hg, hr, Option.map_some]) ?_ ?_ ?_ ?_ ?_
  · simp [arbSop, hr, BitVec.ofBoolListLE, DramOp.sop]
  · simp [arbEop, hr, BitVec.ofBoolListLE, DramOp.eop]
  · simp [hg, DramOp.write?]
  · simp [hg, hr, head_of_rdOut hr, DramOp.read?]
  · simp [nextReq, hg, rdData, hr, DdrReq.op, DramOp.op]

theorem passes_none (hg : s.arbGrant i = 0) (hl : s.arb.lock = false) (hl' : (s.stepClk i).arb.lock = false) : Passes s i := by
  have ht : s.taken i = none := by rw [taken, if_neg (by rw [hg]; decide), if_neg (by rw [hg]; decide)]
  constructor
  case idle => exact fun _ => ⟨hl, hl'⟩
  case writes => simp [ht, hg]
  case reads => simp [ht, hg]
  case req => simp [nextReq, hg, ht]
  all_goals
    intro o ho
    rw [ht] at ho
    cases ho

theorem Front.passes (hF : Front s) (hheld : s.Held i) : Passes s i := by
  have hside : s.arb.lock = true → s.arb.lockGrant = 1 ∨ s.arb.lockGrant = 2 := by
    intro hl
    obtain ⟨o, -, -, ho⟩ := hF.locked hl
    cases o with
    | write w => exact .inl ho
    | read r => exact .inr ho
  rcases RrArbiterPkt.step_cases (s.arbSop i) (s.arbEop i) hside hheld with h | h | ⟨hg, hl, hl'⟩
  · exact passes_write h
  · exact passes_read h
  · exact passes_none hg hl hl'

theorem Front.chain_snoc (hF : Front s) {o : DramOp} (hgo : s.arb.lock = true → s.arb.lockGrant = o.side)
    (hfirst : s.arb.lock = false → o.sop = true) : (s.order ++ [o]).IsChain DramOp.Follows := by
  refine List.isChain_append.2 ⟨hF.chain, List.isChain_singleton o, ?_⟩
  intro a ha b hb
  obtain rfl : o = b := by simpa using hb
  by_cases hl : s.arb.lock = true
  · obtain ⟨a', ha', heop, hside⟩ := hF.locked hl
    obtain rfl : a' = a := Option.some.inj (ha'.symm.trans ha)
    exact ⟨fun _ => (hgo hl).symm.trans hside, fun h => absurd (heop.symm.trans h) Bool.false_ne_true⟩
  · rw [Bool.not_eq_true] at hl
    have heop := hF.free hl a ha
    exact ⟨fun h => absurd (h.symm.trans heop) Bool.false_ne_true, fun _ => hfirst hl⟩

theorem Front.stepClk (hF : Front s) (hok : s.Ok (.clk i)) : Front (s.stepClk i) := by
  obtain ⟨hheld, hwr, hrd, -⟩ := hok
  have hP := hF.passes hheld
  have hwrites : (s.stepClk i).order.filterMap DramOp.write? ++ (s.stepClk i).wrFifo = (s.stepClk i).wrIn := by
    change (s.order ++ (s.taken i).toList).filterMap DramOp.write? ++ fifoStep s.wrFifo (offered s.wrFifo i.wr) _ = s.wrIn ++ i.wr.toList
    rw [offered_eq hwr, List.filterMap_append, hP.writes, List.append_assoc, fifoStep_pop, ← List.append_assoc, hF.writes]
  have hreads : (s.stepClk i).order.filterMap DramOp.read? ++ (s.stepClk i).rdFifo = (s.stepClk i).rdIn := by
    change (s.order ++ (s.taken i).toList).filterMap DramOp.read? ++ fifoStep s.rdFifo (offered s.rdFifo i.rd) _ = s.rdIn ++ i.rd.toList
    rw [offered_eq hrd, List.filterMap_append, hP.reads, List.append_assoc, fifoStep_pop, ← List.append_assoc, hF.reads]
  cases ht : s.taken i with
  | none =>
    have horder : (s.stepClk i).order = s.order := by
      change s.order ++ (s.taken i).toList = s.order
      rw [ht, Option.toList_none, List.append_nil]
    obtain ⟨hl, hl'⟩ := hP.idle ht
    refine ⟨fun h => absurd (hl'.symm.trans h) Bool.false_ne_true, fun _ => ?_, ?_, hwrites, hreads⟩
    · rw [horder]
      exact hF.free hl
    · rw [horder]
      exact hF.chain
  | some o =>
    have horder : (s.stepClk i).order = s.order ++ [o] := by
      change s.order ++ (s.taken i).toList = _
      rw [ht]
      rfl
    have hlast : (s.stepClk i).order.getLast? = some o := by rw [horder, List.getLast?_concat]
    have hlock := hP.lock o ht
    refine ⟨fun h => ⟨o, hlast, ?_, hP.lockGrant o ht h⟩, ?_, ?_, hwrites, hreads⟩
    · rw [hlock] at h
      simpa using h
    · intro h o' ho'
      obtain rfl : o = o' := Option.some.inj (hlast.symm.trans ho')
      rw [hlock] at h
      simpa using h
    · rw [horder]
      exact hF.chain_snoc (hP.going o ht) (hP.first o ht)

theorem Back.stepClk {m : BitVec 9 → BitVec 512} (hB : Back m s) (hF : Front s) (hok : s.Ok (.clk i)) : Back m (s.stepClk i) := by
  obtain ⟨hheld, -, -, hreq⟩ := hok
  have hP := hF.passes hheld
  have hpush : s.pushedReq = if s.reqValid then some s.reqData else none := by
    refine offered_eq fun h => hreq ?_
    by_contra hv
    exact h (if_neg hv)
  refine ⟨?_, hB.mem, ?_⟩
  · have hnew : (s.stepClk i).inFlight = s.inFlight ++ (if (s.nextReq i).1 then [(s.nextReq i).2] else []) := by
      change fifoStep s.reqFifo s.pushedReq false ++ (if (s.nextReq i).1 then [(s.nextReq i).2] else []) = _
      rw [hpush]
      cases hv : s.reqValid <;> simp [inFlight, fifoStep, hv]
    change (s.issued ++ (s.stepClk i).inFlight).map DdrReq.op = (s.order ++ (s.taken i).toList).map DramOp.op
    rw [hnew, ← List.append_assoc, List.map_append, hB.sent, hP.req, List.map_append]
  · change s.delivered ++ (if respPop i then s.respFifo.head? else none).toList ++ fifoStep s.respFifo none (respPop i) ++ s.answering = _
    rw [List.append_assoc s.delivered, fifoStep_pop, Option.toList_none, List.append_nil]
    exact hB.answers

end

/-! ### An edge of `emif_clk` -/

section
variable {seen : Bool}

theorem intReq_cases (s : DramSys) (seen : Bool) : s.intReq seen = none ∨ ∃ r, s.intReq seen = some r ∧ s.reqFifo.head? = some r := by
  unfold intReq
  cases hs : seen with
  | false => exact .inl rfl
  | true =>
    cases hr : s.reqFifo.head? with
    | none => exact .inl rfl
    | some r => exact .inr ⟨r, rfl, rfl⟩

theorem after_intReq (s : DramSys) (seen : Bool) : MemOp.after s.mem ((s.intReq seen).toList.map DdrReq.op) = (s.stepEmif seen).mem := by
  change _ = wr (s.emifWrite seen) (s.emifAddress seen) (s.emifWritedata seen) s.mem
  rcases s.intReq_cases seen with h | ⟨r, h, -⟩
  · simp [emifWrite, h, wr, MemOp.after]
  · cases hw : r.wr <;> simp [emifWrite, emifAddress, emifWritedata, h, hw, wr, DdrReq.op, MemOp.after]

theorem serve_intReq (s : DramSys) (seen : Bool) : MemOp.serve s.mem ((s.intReq seen).toList.map DdrReq.op) =
    if s.emifRead seen then [s.mem (s.emifAddress seen)] else [] := by
  rcases s.intReq_cases seen with h | ⟨r, h, -⟩
  · simp [emifRead, h, MemOp.serve]
  · cases hw : r.wr <;> simp [emifRead, emifAddress, h, hw, DdrReq.op, MemOp.serve]

theorem answering_step (s : DramSys) (seen : Bool) : (if s.respValidR then [s.respDataR] else []) ++ (s.stepEmif seen).answering =
    s.answering ++ (if s.emifRead seen then [s.mem (s.emifAddress seen)] else []) := by
  cases hr : s.emifRead seen with
  | false => simp [answering, stepEmif, hr, RdPort.step]
  | true => simp [answering, stepEmif, hr, RdPort.step]

theorem Back.stepEmif {m : BitVec 9 → BitVec 512} (hB : Back m s) (hok : s.Ok (.emif seen)) : Back m (s.stepEmif seen) := by
  have hissued : (s.stepEmif seen).issued.map DdrReq.op = s.issued.map DdrReq.op ++ (s.intReq seen).toList.map DdrReq.op :=
    List.map_append
  have hpush : s.pushedResp = if s.respValidR then some s.respDataR else none := by
    refine offered_eq fun h => hok ?_
    by_contra hv
    exact h (if_neg hv)
  refine ⟨?_, ?_, ?_⟩
  · have hpop : (s.intReq seen).toList ++ (s.stepEmif seen).inFlight = s.inFlight := by
      have hfifo := fifoStep_pop s.reqFifo none (s.intReq seen).isSome
      rw [Option.toList_none, List.append_nil] at hfifo
      change _ ++ (fifoStep s.reqFifo none (s.intReq seen).isSome ++ _) = s.reqFifo ++ _
      rw [← List.append_assoc]
      congr 1
      rcases s.intReq_cases seen with h | ⟨r, h, hr⟩
      · simp [h, fifoStep]
      · rw [h, Option.isSome_some, if_pos rfl, hr] at hfifo
        rw [h]
        exact hfifo
    change (s.issued ++ (s.intReq seen).toList ++ (s.stepEmif seen).inFlight).map DdrReq.op = _
    rw [List.append_assoc, hpop]
    exact hB.sent
  · rw [hissued, MemOp.after_append, ← hB.mem, after_intReq]
  · rw [hissued, MemOp.serve_append, ← hB.mem, serve_intReq, ← hB.answers]
    change s.delivered ++ fifoStep s.respFifo s.pushedResp false ++ _ = _
    have hp : (s.pushedResp).toList = if s.respValidR then [s.respDataR] else [] := by
      rw [hpush]
      cases s.respValidR <;> rfl
    rw [fifoStep, if_neg Bool.false_ne_true, hp]
    simp only [List.append_assoc]
    rw [answering_step]

end

/-! ## Every run is a serial one -/

def Inv (m : BitVec 9 → BitVec 512) (s : DramSys) : Prop := Front s ∧ Back m s

theorem Inv.step {m : BitVec 9 → BitVec 512} (s : DramSys) (t : DramTick) (h : Inv m s) (hok : s.Ok t) : Inv m (s.step t) := by
  obtain ⟨hF, hB⟩ := h
  cases t with
  | clk i => exact ⟨hF.stepClk hok, hB.stepClk hF hok⟩
  | emif seen => exact ⟨⟨hF.locked, hF.free, hF.chain, hF.writes, hF.reads⟩, hB.stepEmif hok⟩

theorem inv_init (m : BitVec 9 → BitVec 512) : Inv m (init m) := by
  refine ⟨⟨fun h => absurd h Bool.false_ne_true, fun _ o ho => ?_, List.isChain_nil, rfl, rfl⟩, rfl, rfl, rfl⟩
  cases ho

structure Quiet (s : DramSys) : Prop where
  wrFifo : s.wrFifo = []
  rdFifo : s.rdFifo = []
  inFlight : s.inFlight = []
  respFifo : s.respFifo = []
  answering : s.answering = []

/-- A packet of two writes, and the two reads of it from behind, which come while it is written. -/
def writeRead : List DramTick :=
  let idle : DramClk := ⟨none, none, true, true, ⟨0, 0, false, false⟩, ⟨0, false, false⟩, false, false, true, true⟩
  [.clk { idle with wr := some ⟨32, 7, true, false⟩ },
    .clk { idle with wr := some ⟨33, 8, false, true⟩, rd := some ⟨33, true, false⟩ },
    .clk { idle with rd := some ⟨32, false, true⟩ },
    .clk idle, .emif true, .clk idle, .emif true, .clk idle] ++
  List.replicate 6 (.emif true) ++ [.clk idle, .clk idle]

theorem writeRead_ok : AllSteps step Ok (init fun _ => 0) writeRead := by decide +kernel

end DramSys

end Pigasus
