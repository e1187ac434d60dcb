import Pigasus.Unread

/-!
# The reassembler after reset

The free list of the out-of-order list is filled one pointer a cycle. Nothing
else happens in the reassembler while no packet comes, so a run that begins
with idle cycles goes on as from `Wrapper.started`.
-/

namespace Pigasus

open Hdl

/-! ## Registers that nobody reads, over two steps -/

section
variable {l : Loc}

theorem ParaQ.Same.trans {a b c : ParaQ} (h : a.Same b) (k : b.Same c) : a.Same c where
  eq := by
    rw [k.eq, h.eq]
  dataAR hw := (k.dataAR (by rw [h.eq]; exact hw)).trans (h.dataAR hw)
  opDataR he := (k.opDataR (by rw [h.eq]; exact he)).trans (h.opDataR he)

theorem Rdw.Same.trans {a b c : Rdw} (h : a.Same l b) (k : b.Same l c) : a.Same l c where
  aR1 := k.aR1.trans h.aR1
  aR2 := k.aR2.trans h.aR2
  bR1 := k.bR1.trans h.bR1
  bR2 := k.bR2.trans h.bR2
  dataBR1 := k.dataBR1.trans h.dataBR1
  dataBR2 := k.dataBR2.trans h.dataBR2
  dataAR1 hv := (k.dataAR1 (h.bR1 ▸ hv)).trans (h.dataAR1 hv)
  dataAR2 hv := (k.dataAR2 (h.bR2 ▸ hv)).trans (h.dataAR2 hv)

theorem FlowTable.Same.trans {a b c : FlowTable} (h : a.Same b) (k : b.Same c) : a.Same c where
  ram := k.ram.trans h.ram
  pq := h.pq.trans k.pq
  pb := k.pb.trans h.pb
  mask := k.mask.trans h.mask
  rdw l := (h.rdw l).trans (k.rdw l)
  rdValidAR := k.rdValidAR.trans h.rdValidAR
  rdValidA := k.rdValidA.trans h.rdValidA
  rdValidBR := k.rdValidBR.trans h.rdValidBR
  rdValidB := k.rdValidB.trans h.rdValidB
  qRdenAR1 := k.qRdenAR1.trans h.qRdenAR1
  lookupTupleR1 hv := (k.lookupTupleR1 (h.rdValidAR.trans hv)).trans (h.lookupTupleR1 hv)
  lookupTupleR2 hv := (k.lookupTupleR2 (h.rdValidA.trans hv)).trans (h.lookupTupleR2 hv)
  lookupTupleBR1 := k.lookupTupleBR1.trans h.lookupTupleBR1
  lookupTupleBR2 := k.lookupTupleBR2.trans h.lookupTupleBR2
  qDequeDoneR := k.qDequeDoneR.trans h.qDequeDoneR
  ch0RdValid := k.ch0RdValid.trans h.ch0RdValid
  ch0BitMap hv := (k.ch0BitMap (h.ch0RdValid.trans hv)).trans (h.ch0BitMap hv)
  ch0Q hv := (k.ch0Q (h.ch0RdValid.trans hv)).trans (h.ch0Q hv)
  qEmptyR := k.qEmptyR.trans h.qEmptyR
  ch0TupleR1 hv := (k.ch0TupleR1 (h.qRdenAR1.trans hv)).trans (h.ch0TupleR1 hv)
  ch0TupleLatchR := k.ch0TupleLatchR.trans h.ch0TupleLatchR
  random := k.random.trans h.random

theorem Decision.Same.trans {a b c : Decision} (h : a.Same b) (k : b.Same c) : a.Same c where
  ch1Opcode := k.ch1Opcode.trans h.ch1Opcode
  ch1BitMap hv := (k.ch1BitMap (h.ch1Wren.trans hv)).trans (h.ch1BitMap hv)
  ch1Wren := k.ch1Wren.trans h.ch1Wren
  ch1Data hv := (k.ch1Data (h.ch1Wren.trans hv)).trans (h.ch1Data hv)
  outMetaData hv := (k.outMetaData (h.outMetaValid.trans hv)).trans (h.outMetaData hv)
  outMetaValid := k.outMetaValid.trans h.outMetaValid
  oooMetaData hv := (k.oooMetaData (h.oooMetaValid.trans hv)).trans (h.oooMetaData hv)
  oooMetaValid := k.oooMetaValid.trans h.oooMetaValid
  oooFceData hv := (k.oooFceData (h.oooFceValid.trans hv)).trans (h.oooFceData hv)
  oooFceValid := k.oooFceValid.trans h.oooFceValid

theorem FastPath.Same.trans {a b c : FastPath} (h : a.Same b) (k : b.Same c) : a.Same c where
  ft := h.ft.trans k.ft
  m8 hv := (k.m8 (h.ft.rdValidAR.trans hv)).trans (h.m8 hv)
  m9 hv := (k.m9 (h.ft.rdValidA.trans hv)).trans (h.m9 hv)
  m10 hv := (k.m10 (h.ft.ch0RdValid.trans hv)).trans (h.m10 hv)
  ch0MetaR1 hv := (k.ch0MetaR1 (h.ft.rdValidAR.trans hv)).trans (h.ch0MetaR1 hv)
  ch0MetaR2 hv := (k.ch0MetaR2 (h.ft.rdValidA.trans hv)).trans (h.ch0MetaR2 hv)
  ch0MetaR3 hv := (k.ch0MetaR3 (h.ft.ch0RdValid.trans hv)).trans (h.ch0MetaR3 hv)
  dec := h.dec.trans k.dec

theorem Wrapper.Same.trans {a b c : Wrapper} (h : a.Same b) (k : b.Same c) : a.Same c where
  valid := k.valid.trans h.valid
  m j hv := (k.m j (h.valid ▸ hv)).trans (h.m j hv)
  hashOk := h.hashOk
  hashOk' := k.hashOk'
  fast := h.fast.trans k.fast
  slow := k.slow.trans h.slow

end

theorem WrapIn.Same.refl {s s' : Wrapper} (h : s.Same s') (i : WrapIn) : i.Same s s' i where
  inMetaData _ := rfl
  tupleInValid := by simp only [Wrapper.tupleInValid, Wrapper.inMetaReady, h.slow, h.stall]
  reorder := rfl

theorem Wrapper.Same.run {s s' : Wrapper} (h : s.Same s') (is : List WrapIn) :
    (run Wrapper.step s is).Same (run Wrapper.step s' is) := by
  induction is generalizing s s' with
  | nil => exact h
  | cons i is ih => exact ih (h.step (.refl h i))

/-! ## Idle cycles -/

/-- The wrapper as it is after reset, apart from the counter and an opcode of the flow table and from the list. -/
def Wrapper.resting (op : PqOp) (random : BitVec 2) (ll : LinkedList) : Wrapper :=
  { Wrapper.reset with
    fast := { FastPath.reset with
      ft := { FlowTable.reset with pq := { ParaQ.reset with opIdR := op }, random := random } }
    slow := { SlowPath.reset with ll := ll } }

/-- The list is asked for nothing. -/
abbrev LlIn.idle : LlIn := FlowReassembly.reset.llIn

section
variable (op : PqOp) (random : BitVec 2) (ll : LinkedList)

theorem Wrapper.resting_req : (resting op random ll).fast.ft.req (resting op random ll).ftIn = 0 := by
  show BitVec.ofBoolListLE [false, false, false, false] = 0#4
  decide

theorem Wrapper.resting_pb : ((resting op random ll).step .idle).fast.ft.pb = FlowTable.resetPortB := by
  have hg : (resting op random ll).fast.ft.grant (resting op random ll).ftIn = 0 := by
    rw [FlowTable.grant, resting_req]
    show RrArbiter.grant 0b1111#4 0 = 0
    decide
  show (resting op random ll).fast.ft.arbStep (resting op random ll).ftIn = _
  unfold FlowTable.arbStep
  rw [hg, if_neg (by decide), if_neg (by decide)]
  rfl

theorem Wrapper.resting_ft :
    ((resting op random ll).step .idle).fast.ft.Same (resting .fastDelete (random + 1) (ll.step .idle)).fast.ft where
  ram := rfl
  pq := ⟨rfl, fun h => (by cases h), fun h => (by cases h)⟩
  pb := (resting_pb op random ll).symm
  mask := by
    show 0b1111#4 = RrArbiter.nextMask 0b1111 ((resting op random ll).fast.ft.req (resting op random ll).ftIn)
    rw [resting_req]
    decide
  rdw l := by
    match l with
    | .ft 0 => exact ⟨rfl, rfl, rfl, rfl, rfl, rfl, fun h => (by simp at h; cases h), fun h => (by simp at h; cases h)⟩
    | .ft 1 | .ft 2 | .ft 3 | .q => exact ⟨rfl, rfl, rfl, rfl, rfl, rfl, fun _ => rfl, fun _ => rfl⟩
  rdValidAR := rfl
  rdValidA := rfl
  rdValidBR := rfl
  rdValidB := rfl
  qRdenAR1 := rfl
  lookupTupleR1 h := by cases h
  lookupTupleR2 h := by cases h
  lookupTupleBR1 := rfl
  lookupTupleBR2 := rfl
  qDequeDoneR := rfl
  ch0RdValid := rfl
  ch0BitMap h := by cases h
  ch0Q h := by cases h
  qEmptyR := rfl
  ch0TupleR1 h := by cases h
  ch0TupleLatchR := rfl
  random := rfl

theorem Wrapper.resting_step :
    ((resting op random ll).step .idle).Same (resting .fastDelete (random + 1) (ll.step .idle)) where
  valid := by
    funext k
    match k with
    | 0 | 1 | 2 | 3 | 4 | 5 | 6 | 7 => rfl
  m k hv := by
    match k with
    | 0 | 1 | 2 | 3 | 4 | 5 | 6 | 7 => cases hv
  hashOk k := by
    simp only [Wrapper.step, vec_get]
    exact HashOk.step (by simp only [Wrapper.resting, Wrapper.reset, vec_get]; exact .reset _ _) _ _ _ _
  hashOk' k := by
    simp only [Wrapper.resting, Wrapper.reset, vec_get]
    exact .reset _ _
  fast := {
    ft := resting_ft op random ll
    m8 := fun h => by cases h
    m9 := fun h => by cases h
    m10 := fun h => by cases h
    ch0MetaR1 := fun h => by cases h
    ch0MetaR2 := fun h => by cases h
    ch0MetaR3 := fun h => by cases h
    dec := by
      constructor
      · rfl
      · intro h; cases h
      · rfl
      · intro h; cases h
      · intro h; cases h
      · rfl
      · intro h; cases h
      · rfl
      · intro h; cases h
      · rfl }
  slow := rfl

theorem Wrapper.resting_hashOk (k : Fin 4) : HashOk ((resting op random ll).hash 0) ((resting op random ll).hash k)
    (BitVec.ofNat 32 k.val) (resting op random ll).m := by
  simp only [Wrapper.resting, Wrapper.reset, vec_get]
  exact .reset _ _

theorem Wrapper.resting_run (n : Nat) :
    (run Wrapper.step (resting .fastDelete random ll) (List.replicate n .idle)).Same
      (resting .fastDelete (random + BitVec.ofNat 2 n) (run LinkedList.step ll (List.replicate n .idle))) := by
  induction n generalizing random ll with
  | zero =>
    rw [show random + BitVec.ofNat 2 0 = random from BitVec.add_zero random]
    exact ⟨rfl, fun _ _ => rfl, resting_hashOk _ random ll, resting_hashOk _ random ll, .refl _, rfl⟩
  | succ n ih =>
    have hr : random + BitVec.ofNat 2 (n + 1) = random + 1 + BitVec.ofNat 2 n := by
      rw [BitVec.ofNat_add, BitVec.add_assoc, BitVec.add_comm (BitVec.ofNat 2 n)]
      rfl
    rw [hr]
    exact ((resting_step _ random ll).run (List.replicate n .idle)).trans (ih (random + 1) (ll.step .idle))

end

/-! ## The free list -/

namespace LinkedList

def freePointers (n : Nat) : List LlPtr := (List.range n).map (BitVec.ofNat 9)

def filling (n : Nat) : LinkedList :=
  { LinkedList.reset with emptylistInValid := true, emptylistInData := BitVec.ofNat 9 n, emptylist := freePointers n }

/-- The list with all its nodes free. -/
def free : LinkedList :=
  { LinkedList.reset with state := .idle, first := true, emptylist := freePointers depth }

theorem freePointers_succ (n : Nat) : freePointers (n + 1) = freePointers n ++ [BitVec.ofNat 9 n] := by
  simp [freePointers, List.range_succ]

theorem filling_ready {n : Nat} (h : n < 512) : (filling n).emptylistInReady = true := by
  simp [emptylistInReady, filling, freePointers, depth, h]

theorem filling_step {n : Nat} (h : n < 511) : (filling n).step .idle = filling (n + 1) := by
  have hr := filling_ready (show n < 512 by omega)
  have hf : (BitVec.ofNat 9 n == 511) = false := by
    rw [beq_eq_false_iff_ne]
    intro he
    have hn := congrArg BitVec.toNat he
    simp at hn
    omega
  have hc : (filling n).control .idle =
      { filling n with emptylistInData := BitVec.ofNat 9 n + 1 } := by
    show (filling n).initStep = _
    unfold initStep
    rw [hr]
    simp only [filling, pulse, hf, LinkedList.reset, Bool.and_self, Bool.and_false, if_true, Bool.not_false, Bool.false_eq_true,
      if_false]
  unfold LinkedList.step
  rw [hc, hr]
  simp only [filling, fifoStep, Bool.and_self, if_true]
  rw [freePointers_succ, BitVec.ofNat_add]
  rfl

theorem filling_run {n : Nat} (h : n < 512) : run LinkedList.step .reset (List.replicate (n + 1) .idle) = filling n := by
  induction n with
  | zero => rfl
  | succ n ih =>
    rw [List.replicate_succ', run_append, ih (by omega)]
    exact filling_step (by omega)

theorem filling_last {n : Nat} (h : n = 511) :
    (filling n).step .idle = { LinkedList.reset with state := .idle, emptylist := freePointers (n + 1) } := by
  have hr := filling_ready (show n < 512 by omega)
  have hf : (BitVec.ofNat 9 n == 511) = true := by
    subst h
    decide
  have ha : BitVec.ofNat 9 n + 1 = 0 := by
    subst h
    decide
  have hc : (filling n).control .idle =
      { filling n with state := .idle, emptylistInValid := false, emptylistInData := 0 } := by
    show (filling n).initStep = _
    unfold initStep
    rw [hr]
    simp only [filling, pulse, hf, ha, LinkedList.reset, Bool.and_self, if_true, Bool.not_true]
  unfold LinkedList.step
  rw [hc, hr]
  simp only [filling, fifoStep, Bool.and_self, if_true]
  rw [freePointers_succ]
  rfl

theorem free_run : run LinkedList.step .reset (List.replicate (depth + 2) .idle) = free := by
  obtain ⟨n, hd, hn⟩ : ∃ n, depth = n + 1 ∧ n = 511 := ⟨511, rfl, rfl⟩
  have hf : free = { LinkedList.reset with state := .idle, first := true, emptylist := freePointers (n + 1) } := by
    rw [free, hd]
  have hq : fifoStep (freePointers (n + 1)) none false = freePointers (n + 1) := by simp [fifoStep]
  rw [hd, List.replicate_add, run_append, filling_run (by omega)]
  show ((filling n).step .idle).step .idle = free
  rw [filling_last hn, hf]
  nth_rewrite 2 [← hq]
  rfl

end LinkedList

/-! ## The start of a run -/

def Wrapper.started : Wrapper := .resting .fastDelete 2 .free

theorem Wrapper.started_same : (run Wrapper.step .reset (List.replicate (LinkedList.depth + 2) .idle)).Same .started := by
  have h1 : (Wrapper.reset.step .idle).Same (.resting .fastDelete 1 (LinkedList.reset.step .idle)) :=
    resting_step .fastInsert 0 .reset
  have h2 := (h1.run (List.replicate (LinkedList.depth + 1) .idle)).trans
    (resting_run 1 (LinkedList.reset.step .idle) (LinkedList.depth + 1))
  have h3 := LinkedList.free_run
  rw [List.replicate_succ, run_cons] at h3
  have h4 : 1 + BitVec.ofNat 2 (LinkedList.depth + 1) = 2#2 := by decide
  rw [h3, h4] at h2
  rw [List.replicate_succ, run_cons]
  exact h2

end Pigasus
