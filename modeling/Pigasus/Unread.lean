import Pigasus.WrapperEnv

/-!
# Registers that nobody reads

A data register beside a valid bit that is not set holds a word that no later
cycle depends on. Two states that agree on everything else behave alike.
-/

namespace Pigasus

open Hdl

/-! ## The queue -/

structure ParaQIn.Same (i i' : ParaQIn) : Prop where
  addrA : i.rdenA = true ∨ i.wrenA = true → i'.addrA = i.addrA
  dataA : i.wrenA = true → i'.dataA = i.dataA
  rdenA : i'.rdenA = i.rdenA
  wrenA : i'.wrenA = i.wrenA
  addrB : i'.addrB = i.addrB
  dataB : i'.dataB = i.dataB
  rdenB : i'.rdenB = i.rdenB
  wrenB : i'.wrenB = i.wrenB
  opEn : i'.opEn = i.opEn
  opId : i'.opId = i.opId
  opData : i.opEn = true → i'.opData = i.opData
  dequeEn : i'.dequeEn = i.dequeEn

/-- The queue `s'` is `s` with other unread data of the fast path in its input registers. -/
structure ParaQ.Same (s s' : ParaQ) : Prop where
  eq : s' = { s with dataAR := s'.dataAR, opDataR := s'.opDataR }
  dataAR : s.wrenAR = true → s'.dataAR = s.dataAR
  opDataR : s.opEnR = true → s'.opDataR = s.opDataR

theorem ParaQ.Same.refl (s : ParaQ) : s.Same s := ⟨rfl, fun _ => rfl, fun _ => rfl⟩

section
variable {s s' : ParaQ} (h : s.Same s')
include h

theorem ParaQ.Same.firstEmpty : s'.firstEmpty = s.firstEmpty := by rw [h.eq]; rfl

theorem ParaQ.Same.stage : s'.stage = s.stage := by
  funext j
  have hi : s'.isInsert = s.isInsert := by rw [h.eq]; rfl
  have hs : s'.shiftVec = s.shiftVec := by rw [h.eq]; rfl
  have he : s'.entries = s.entries := by rw [h.eq]
  have hd : s.isInsert = true → s'.opDataR = s.opDataR := fun hs => h.opDataR (by
    simp only [ParaQ.isInsert, Bool.and_eq_true] at hs
    exact hs.1)
  cases hins : s.isInsert <;> simp only [ParaQ.stage, hi, hs, he, h.firstEmpty, hins, Bool.false_and, Bool.true_and]
  · simp
  · rw [hd hins]

theorem ParaQ.Same.portWrite : s'.portWrite = s.portWrite := by
  funext j
  have ha : s'.wrenAR = s.wrenAR := by rw [h.eq]
  have hb : s'.wrenBR = s.wrenBR ∧ s'.isHitAR = s.isHitAR ∧ s'.isHitBR = s.isHitBR ∧ s'.dataBR = s.dataBR := by
    rw [h.eq]
    exact ⟨rfl, rfl, rfl, rfl⟩
  cases hw : s.wrenAR
  · simp [ParaQ.portWrite, ha, hb, hw]
  · simp [ParaQ.portWrite, ha, hb, hw, h.dataAR hw]

theorem ParaQ.Same.nextEntry : s'.nextEntry = s.nextEntry := by
  funext j
  have hs : s'.shiftVec = s.shiftVec := by rw [h.eq]; rfl
  simp only [ParaQ.nextEntry, h.stage, h.portWrite, hs]

theorem ParaQ.Same.hit {en : Bool} {t t' : Tuple} (ht : en = true → t' = t) : s'.hit en t' = s.hit en t := by
  funext j
  cases en
  · simp [ParaQ.hit]
  · simp only [ParaQ.hit, h.stage, ht rfl]

theorem ParaQ.Same.step {i i' : ParaQIn} (hi : i.Same i') : (s.step i).Same (s'.step i') := by
  refine ⟨?_, hi.dataA, hi.opData⟩
  have hitA : s'.hit (i.rdenA || i.wrenA) i'.addrA = s.hit (i.rdenA || i.wrenA) i.addrA :=
    h.hit fun hen => hi.addrA (by simpa using hen)
  have hitB : s'.hit (i.rdenB || i.wrenB) i.addrB = s.hit (i.rdenB || i.wrenB) i.addrB := h.hit fun _ => rfl
  have hitD : s'.hit (i.opEn && i.opId == .fastDelete) i'.opData.tuple =
      s.hit (i.opEn && i.opId == .fastDelete) i.opData.tuple :=
    h.hit fun hen => by rw [hi.opData (by simp only [Bool.and_eq_true] at hen; exact hen.1)]
  have hq : s'.portWrite 0 = s.portWrite 0 := by rw [h.portWrite]
  have herr : s'.nextError = s.nextError := by rw [h.eq]; rfl
  simp only [ParaQ.step, hitA, hitD, hi.rdenA, hi.wrenA, hi.addrB, hi.dataB, hi.rdenB, hi.wrenB, hi.opEn, hi.opId,
    hi.dequeEn, hitB, h.nextEntry, hq, herr]
  rw [h.eq]
  rfl

end

/-! ## The flow table -/

structure FtIn.Same (i i' : FtIn) : Prop where
  ch0Meta : i.ch0Rden = true → i'.ch0Meta = i.ch0Meta
  ch0Rden : i'.ch0Rden = i.ch0Rden
  ch1Opcode : i'.ch1Opcode = i.ch1Opcode
  ch1BitMap : i.ch1Wren = true → i'.ch1BitMap = i.ch1BitMap
  ch1Wren : i'.ch1Wren = i.ch1Wren
  ch1Data : i.ch1Wren = true → i'.ch1Data = i.ch1Data
  ch2Meta : i'.ch2Meta = i.ch2Meta
  ch2Rden : i'.ch2Rden = i.ch2Rden
  ch3Wren : i'.ch3Wren = i.ch3Wren
  ch3Data : i'.ch3Data = i.ch3Data
  ch3RelPktCnt : i'.ch3RelPktCnt = i.ch3RelPktCnt

/-- The forwarding registers of location `l`; sub-table 0 alone loads the data of port A. -/
structure Rdw.Same (l : Loc) (r r' : Rdw) : Prop where
  aR1 : r'.aR1 = r.aR1
  aR2 : r'.aR2 = r.aR2
  bR1 : r'.bR1 = r.bR1
  bR2 : r'.bR2 = r.bR2
  dataBR1 : r'.dataBR1 = r.dataBR1
  dataBR2 : r'.dataBR2 = r.dataBR2
  dataAR1 : l ≠ .ft 0 ∨ r.bR1 = true → r'.dataAR1 = r.dataAR1
  dataAR2 : l ≠ .ft 0 ∨ r.bR2 = true → r'.dataAR2 = r.dataAR2

structure FlowTable.Same (s s' : FlowTable) : Prop where
  ram : s'.ram = s.ram
  pq : s.pq.Same s'.pq
  pb : s'.pb = s.pb
  mask : s'.mask = s.mask
  rdw : ∀ l, (s.rdw l).Same l (s'.rdw l)
  rdValidAR : s'.rdValidAR = s.rdValidAR
  rdValidA : s'.rdValidA = s.rdValidA
  rdValidBR : s'.rdValidBR = s.rdValidBR
  rdValidB : s'.rdValidB = s.rdValidB
  qRdenAR1 : s'.qRdenAR1 = s.qRdenAR1
  lookupTupleR1 : s.rdValidAR = true → s'.lookupTupleR1 = s.lookupTupleR1
  lookupTupleR2 : s.rdValidA = true → s'.lookupTupleR2 = s.lookupTupleR2
  lookupTupleBR1 : s'.lookupTupleBR1 = s.lookupTupleBR1
  lookupTupleBR2 : s'.lookupTupleBR2 = s.lookupTupleBR2
  qDequeDoneR : s'.qDequeDoneR = s.qDequeDoneR
  ch0RdValid : s'.ch0RdValid = s.ch0RdValid
  ch0BitMap : s.ch0RdValid = true → s'.ch0BitMap = s.ch0BitMap
  ch0Q : s.ch0RdValid = true → s'.ch0Q = s.ch0Q
  qEmptyR : s'.qEmptyR = s.qEmptyR
  ch0TupleR1 : s.qRdenAR1 = true → s'.ch0TupleR1 = s.ch0TupleR1
  ch0TupleLatchR : s'.ch0TupleLatchR = s.ch0TupleLatchR
  random : s'.random = s.random

theorem FlowTable.Same.refl (s : FlowTable) : s.Same s := by
  constructor <;> intros <;> first | rfl | exact .refl _ | (constructor <;> intros <;> rfl)

section
variable {i i' : FtIn} (hi : i.Same i')
include hi

theorem FtIn.Same.wrenA : FlowTable.wrenA i' = FlowTable.wrenA i := by
  funext l
  cases hw : i.ch1Wren
  · cases l <;> simp [FlowTable.wrenA, FlowTable.update, hi.ch1Wren, hw]
  · cases l <;> simp only [FlowTable.wrenA, FlowTable.update, hi.ch1Wren, hi.ch1Opcode, hi.ch1BitMap hw]

theorem FtIn.Same.insert : FlowTable.insert i' = FlowTable.insert i := by
  cases hw : i.ch1Wren
  · simp [FlowTable.insert, hi.ch1Wren, hw]
  · simp only [FlowTable.insert, hi.ch1Wren, hi.ch1Opcode, hi.ch1BitMap hw]

theorem FtIn.Same.delete : FlowTable.delete i' = FlowTable.delete i := by
  cases hw : i.ch1Wren
  · simp [FlowTable.delete, hi.ch1Wren, hw]
  · simp only [FlowTable.delete, hi.ch1Wren, hi.ch1Opcode, hi.ch1BitMap hw]

theorem FtIn.Same.addrA (hr : i.ch0Rden = true ∨ i.ch1Wren = true) : FlowTable.addrA i' = FlowTable.addrA i := by
  funext k
  cases hw : i.ch1Wren
  · have h0 := hi.ch0Meta (by simpa [hw] using hr)
    simp [FlowTable.addrA, hi.ch1Wren, hw, h0]
  · simp [FlowTable.addrA, hi.ch1Wren, hw, hi.ch1Data hw]

theorem FtIn.Same.qAddrA (hr : i.ch0Rden = true ∨ i.ch1Wren = true) : FlowTable.qAddrA i' = FlowTable.qAddrA i := by
  cases hw : i.ch1Wren
  · have h0 := hi.ch0Meta (by simpa [hw] using hr)
    simp [FlowTable.qAddrA, hi.ch1Wren, hw, h0]
  · simp [FlowTable.qAddrA, hi.ch1Wren, hw, hi.ch1Data hw]

end

theorem ch1Wren_of_insert {i : FtIn} (h : FlowTable.insert i = true) : i.ch1Wren = true := by
  simp only [FlowTable.insert, Bool.and_eq_true] at h
  exact h.1.1

theorem ch1Wren_of_delete {i : FtIn} (h : FlowTable.delete i = true) : i.ch1Wren = true := by
  simp only [FlowTable.delete, Bool.and_eq_true] at h
  exact h.1.1

theorem ch0Rden_of_rdenA {s : FlowTable} {i : FtIn} (h : s.rdenA i = true) : i.ch0Rden = true := by
  simp only [FlowTable.rdenA, Bool.and_eq_true] at h
  exact h.1

namespace FlowTable.Same

variable {s s' : FlowTable} (h : s.Same s') {i i' : FtIn} (hi : i.Same i')

section
include h

theorem pqFields : s'.pq.qA = s.pq.qA ∧ s'.pq.qB = s.pq.qB ∧ s'.pq.rdHitA = s.pq.rdHitA ∧ s'.pq.rdHitB = s.pq.rdHitB ∧
    s'.pq.dequeData = s.pq.dequeData ∧ s'.pq.dequeDone = s.pq.dequeDone ∧ s'.pq.full = s.pq.full ∧
    s'.pq.empty = s.pq.empty := by
  rw [h.pq.eq]
  exact ⟨rfl, rfl, rfl, rfl, rfl, rfl, rfl, rfl⟩

theorem ch0BitMapInt (hv : s.rdValidA = true) : s'.ch0BitMapInt = s.ch0BitMapInt := by
  have hh : s'.ftHit = s.ftHit := by simp only [FlowTable.ftHit, h.lookupTupleR2 hv, h.ram, h.pqFields]
  simp only [FlowTable.ch0BitMapInt, hh, (h.rdw _).aR2]

theorem odataA : s'.odataA = s.odataA := by
  funext l
  cases l <;> simp only [FlowTable.odataA, (h.rdw _).aR2, (h.rdw _).dataBR2, h.ram, h.pqFields]

theorem ch2BitMap : s'.ch2BitMap = s.ch2BitMap := by
  have hh : s'.ftHitB = s.ftHitB := by simp only [FlowTable.ftHitB, h.lookupTupleBR2, h.ram, h.pqFields]
  simp only [FlowTable.ch2BitMap, hh, (h.rdw _).bR2]

theorem odataB : s'.odataB = s.odataB := by
  funext l
  cases l with
  | ft k =>
    cases hb : (s.rdw (.ft k)).bR2
    · simp [FlowTable.odataB, (h.rdw _).bR2, hb, h.ram]
    · simp [FlowTable.odataB, (h.rdw _).bR2, hb, (h.rdw _).dataAR2 (.inr hb)]
  | q => simp only [FlowTable.odataB, (h.rdw _).bR2, (h.rdw .q).dataAR2 (.inl (by decide)), h.pqFields]

theorem ch2Q : s'.ch2Q = s.ch2Q := by rw [FlowTable.ch2Q, FlowTable.ch2Q, h.ch2BitMap, h.odataB]

theorem ch2RdValid : s'.ch2RdValid = s.ch2RdValid := by simp only [FlowTable.ch2RdValid, h.pb, h.rdValidB]

theorem slowWrite : s'.slowWrite = s.slowWrite := by
  funext l
  simp only [FlowTable.slowWrite, h.rdValidB, h.ch2BitMap]

theorem slowData : s'.slowData = s.slowData := by simp only [FlowTable.slowData, h.ch2Q, h.pb]

include hi

theorem ch0RdStall : s'.ch0RdStall i' = s.ch0RdStall i := by
  have hc : s'.slowConflict i' = s.slowConflict i := by
    cases hr : i.ch0Rden
    · simp [FlowTable.slowConflict, hi.ch0Rden, hr]
    · simp only [FlowTable.slowConflict, h.pb, hi.ch0Rden, hi.ch0Meta hr]
  simp only [FlowTable.ch0RdStall, hc, h.rdValidAR, h.rdValidA, h.ch0RdValid, hi.ch1Wren, h.pb, h.qDequeDoneR]

theorem rdenA : s'.rdenA i' = s.rdenA i := by
  simp only [FlowTable.rdenA, hi.ch0Rden, h.ch0RdStall hi]

theorem ch1InsertStall : s'.ch1InsertStall i' = s.ch1InsertStall i := by
  simp only [FlowTable.ch1InsertStall, hi.insert, h.pqFields]

theorem req : s'.req i' = s.req i := by
  unfold FlowTable.req
  rw [h.pb, h.qEmptyR, hi.ch3Wren, hi.ch2Rden]

theorem grant : s'.grant i' = s.grant i := by
  rw [FlowTable.grant, h.req hi, h.mask, FlowTable.grant]

theorem ch0TupleLatch : s'.ch0TupleLatch i' = s.ch0TupleLatch i := by
  cases hr : s.rdenA i
  · simp [FlowTable.ch0TupleLatch, h.rdenA hi, hr, h.ch0TupleLatchR]
  · simp [FlowTable.ch0TupleLatch, h.rdenA hi, hr, hi.ch0Meta (ch0Rden_of_rdenA hr)]

theorem headBusy : s'.headBusy i' = s.headBusy i := by
  have h1 : (s'.rdenA i' && decide (i'.ch0Meta.tuple = s.pq.dequeData.tuple)) =
      (s.rdenA i && decide (i.ch0Meta.tuple = s.pq.dequeData.tuple)) := by
    cases hr : s.rdenA i
    · simp [h.rdenA hi, hr]
    · simp only [h.rdenA hi, hr, hi.ch0Meta (ch0Rden_of_rdenA hr)]
  have h2 : (s'.qRdenAR1 && decide (s'.ch0TupleR1 = s.pq.dequeData.tuple)) =
      (s.qRdenAR1 && decide (s.ch0TupleR1 = s.pq.dequeData.tuple)) := by
    cases hr : s.qRdenAR1
    · simp [h.qRdenAR1, hr]
    · simp only [h.qRdenAR1, hr, h.ch0TupleR1 hr]
  simp only [FlowTable.headBusy, h.pqFields, h1, h2]

theorem updateConflict : s'.updateConflict i' = s.updateConflict i := by
  simp only [FlowTable.updateConflict, FlowTable.fastBusy, hi.ch0Rden, h.ch0RdStall hi, hi.ch3Data, h.ch0TupleLatch hi]

theorem lookupConflict (t : Tuple) : s'.lookupConflict i' t = s.lookupConflict i t := by
  simp only [FlowTable.lookupConflict, h.ch0RdValid, h.ch0TupleLatch hi]

theorem arbStep : s'.arbStep i' = s.arbStep i := by
  simp only [FlowTable.arbStep, FlowTable.take3, FlowTable.take2, FlowTable.arbDefault, h.grant hi, h.pb, h.pqFields,
    hi.ch3Wren, hi.ch3Data, hi.ch2Meta, hi.ch3RelPktCnt, h.updateConflict hi, h.lookupConflict hi]

theorem portBStep : s'.portBStep i' = s.portBStep i := by
  have he : s'.ftEmpty = s.ftEmpty := by
    funext k
    simp only [FlowTable.ftEmpty, h.ram]
  unfold FlowTable.portBStep
  rw [h.pb]
  cases s.pb.pState with
  | pArb => exact h.arbStep hi
  | pLookup => simp only [FlowTable.lookupStep, h.pb, h.ram, h.rdValidB, he, h.headBusy hi]
  | pFill => simp only [FlowTable.fillStep, h.pb, h.pqFields]
  | pEvic => simp only [FlowTable.evicStep, h.pb, h.pqFields, h.random]
  | slowUpdateWait => simp only [FlowTable.slowUpdateWaitStep, h.updateConflict hi, h.pb]
  | slowUpdate => simp only [FlowTable.slowUpdateStep, h.pb, h.slowWrite, h.slowData, h.rdValidB]
  | slowLookupWait => simp only [FlowTable.slowLookupWaitStep, h.pb, h.lookupConflict hi]
  | slowLookup => simp only [FlowTable.slowLookupStep, h.pb, h.rdValidB]

theorem ramStep (k : Fin 4) : s'.ramStep i' k = s.ramStep i k := by
  have hm : ∀ m : FtAddr → Fce, wr (wrenA i (.ft k)) (addrA i' k) i'.ch1Data m =
      wr (wrenA i (.ft k)) (addrA i k) i.ch1Data m := by
    intro m
    cases hw : FlowTable.wrenA i (.ft k)
    · rfl
    · have := addrA_of_wrenA hw
      rw [hi.addrA (.inr this), hi.ch1Data this]
  have ha : ∀ (p : RdPort Fce) (m : FtAddr → Fce), p.step (s.rdenA i) (m (addrA i' k)) = p.step (s.rdenA i) (m (addrA i k)) := by
    intro p m
    cases hr : s.rdenA i
    · rfl
    · rw [hi.addrA (.inl (ch0Rden_of_rdenA hr))]
  simp only [FlowTable.ramStep, h.ram, h.pb, hi.wrenA, h.rdenA hi, hm, ha]

theorem pqIn : (s.pqIn i).Same (s'.pqIn i') where
  addrA hr := by
    refine hi.qAddrA ?_
    rcases hr with hr | hr
    · exact .inl (ch0Rden_of_rdenA hr)
    · exact .inr (addrA_of_wrenA (l := .q) hr)
  dataA hw := hi.ch1Data (addrA_of_wrenA (l := .q) hw)
  rdenA := h.rdenA hi
  wrenA := congrFun hi.wrenA .q
  addrB := by rw [FlowTable.pqIn, h.pb]; rfl
  dataB := by rw [FlowTable.pqIn, h.pb]; rfl
  rdenB := by rw [FlowTable.pqIn, h.pb]; rfl
  wrenB := by rw [FlowTable.pqIn, h.pb]; rfl
  opEn := by simp only [FlowTable.pqIn, FlowTable.qOpEn, hi.insert, hi.delete, h.pqFields, h.pb]
  opId := by simp only [FlowTable.pqIn, FlowTable.qOpId, hi.insert, h.pb]
  opData he := by
    simp only [FlowTable.pqIn, FlowTable.qOpEn, FlowTable.qOpData, h.pb, Bool.or_eq_true, Bool.and_eq_true] at he ⊢
    cases hev : s.pb.evict
    · rcases he with (he | he) | he
      · simp [hi.ch1Data (ch1Wren_of_insert he.1)]
      · simp [hi.ch1Data (ch1Wren_of_delete he)]
      · simp [hev] at he
    · rfl
  dequeEn := by rw [FlowTable.pqIn, h.pb]; rfl

theorem rdwStep (l : Loc) : (s.rdwStep i l).Same l (s'.rdwStep i' l) where
  aR1 := by
    cases hr : s.rdenA i
    · cases l <;> simp [FlowTable.rdwStep, FlowTable.rdwA, h.rdenA hi, hr]
    · have hc := Or.inl (b := i.ch1Wren = true) (ch0Rden_of_rdenA hr)
      cases l <;> simp only [FlowTable.rdwStep, FlowTable.rdwA, h.rdenA hi, h.pb, hi.addrA hc, hi.qAddrA hc]
  aR2 := (h.rdw l).aR1
  bR1 := by
    cases hw : FlowTable.wrenA i l
    · cases l <;> simp [FlowTable.rdwStep, FlowTable.rdwB, hi.wrenA, hw]
    · have hc := Or.inr (a := i.ch0Rden = true) (addrA_of_wrenA hw)
      cases l <;> simp only [FlowTable.rdwStep, FlowTable.rdwB, hi.wrenA, h.pb, hi.addrA hc, hi.qAddrA hc]
  bR2 := (h.rdw l).bR1
  dataBR1 := by cases l <;> simp only [FlowTable.rdwStep, FlowTable.dataB, h.pb]
  dataBR2 := (h.rdw l).dataBR1
  dataAR1 hb := by
    simp only [FlowTable.rdwStep] at hb ⊢
    by_cases hl : l = .ft 0
    · subst hl
      have hw : FlowTable.wrenA i (.ft 0) = true := by
        have := hb.resolve_left (fun hn => hn rfl)
        simp only [FlowTable.rdwB, Bool.and_eq_true] at this
        exact this.1.2
      rw [if_pos rfl, if_pos rfl, hi.ch1Data (addrA_of_wrenA hw)]
    · rw [if_neg hl, if_neg hl, (h.rdw l).dataAR1 (.inl hl)]
  dataAR2 hb := by
    simp only [FlowTable.rdwStep] at hb ⊢
    by_cases hl : l = .ft 0
    · rw [if_pos hl, if_pos hl, (h.rdw l).dataAR1 hb]
    · rw [if_neg hl, if_neg hl, (h.rdw l).dataAR2 (.inl hl)]

theorem step : (s.step i).Same (s'.step i') where
  ram := by
    have : s'.ramStep i' = s.ramStep i := funext (h.ramStep hi)
    rw [FlowTable.step, FlowTable.step, this]
  pq := h.pq.step (h.pqIn hi)
  pb := h.portBStep hi
  mask := by rw [FlowTable.step, FlowTable.step, h.req hi, h.mask]
  rdw l := by
    simp only [FlowTable.step, perLoc_get]
    exact h.rdwStep hi l
  rdValidAR := h.rdenA hi
  rdValidA := h.rdValidAR
  rdValidBR := by simp only [FlowTable.step, h.pb]
  rdValidB := h.rdValidBR
  qRdenAR1 := h.rdenA hi
  lookupTupleR1 hr := by simp only [FlowTable.step, hi.ch0Meta (ch0Rden_of_rdenA hr)]
  lookupTupleR2 := h.lookupTupleR1
  lookupTupleBR1 := by simp only [FlowTable.step, h.pb]
  lookupTupleBR2 := h.lookupTupleBR1
  qDequeDoneR := by simp only [FlowTable.step, h.pqFields]
  ch0RdValid := h.rdValidA
  ch0BitMap := h.ch0BitMapInt
  ch0Q hv := by
    have : s.rdValidA = true := hv
    simp only [FlowTable.step, h.ch0BitMapInt this, h.odataA]
  qEmptyR := by simp only [FlowTable.step, h.pqFields]
  ch0TupleR1 hr := by simp only [FlowTable.step, hi.ch0Meta (ch0Rden_of_rdenA hr)]
  ch0TupleLatchR := h.ch0TupleLatch hi
  random := by simp only [FlowTable.step, h.random]

end

end FlowTable.Same

/-! ## The fast path -/

structure FastIn.Same (i i' : FastIn) : Prop where
  m7 : i.ch0Rden = true → i'.m7 = i.m7
  ch0Rden : i'.ch0Rden = i.ch0Rden
  ch0Addr : i.ch0Rden = true → i'.ch0Addr = i.ch0Addr
  ch2Meta : i'.ch2Meta = i.ch2Meta
  ch2Rden : i'.ch2Rden = i.ch2Rden
  ch3Wren : i'.ch3Wren = i.ch3Wren
  ch3Data : i'.ch3Data = i.ch3Data
  ch3RelPktCnt : i'.ch3RelPktCnt = i.ch3RelPktCnt

structure Decision.Same (d d' : Decision) : Prop where
  ch1Opcode : d'.ch1Opcode = d.ch1Opcode
  ch1BitMap : d.ch1Wren = true → d'.ch1BitMap = d.ch1BitMap
  ch1Wren : d'.ch1Wren = d.ch1Wren
  ch1Data : d.ch1Wren = true → d'.ch1Data = d.ch1Data
  outMetaData : d.outMetaValid = true → d'.outMetaData = d.outMetaData
  outMetaValid : d'.outMetaValid = d.outMetaValid
  oooMetaData : d.oooMetaValid = true → d'.oooMetaData = d.oooMetaData
  oooMetaValid : d'.oooMetaValid = d.oooMetaValid
  oooFceData : d.oooFceValid = true → d'.oooFceData = d.oooFceData
  oooFceValid : d'.oooFceValid = d.oooFceValid

theorem Decision.Same.refl (d : Decision) : d.Same d := by
  constructor <;> intros <;> rfl

structure FastPath.Same (s s' : FastPath) : Prop where
  ft : s.ft.Same s'.ft
  m8 : s.ft.rdValidAR = true → s'.m8 = s.m8
  m9 : s.ft.rdValidA = true → s'.m9 = s.m9
  m10 : s.ft.ch0RdValid = true → s'.m10 = s.m10
  ch0MetaR1 : s.ft.rdValidAR = true → s'.ch0MetaR1 = s.ch0MetaR1
  ch0MetaR2 : s.ft.rdValidA = true → s'.ch0MetaR2 = s.ch0MetaR2
  ch0MetaR3 : s.ft.ch0RdValid = true → s'.ch0MetaR3 = s.ch0MetaR3
  dec : s.dec.Same s'.dec

theorem FastPath.Same.refl (s : FastPath) : s.Same s := by
  constructor <;> intros <;> first | rfl | exact .refl _

namespace FastPath.Same

variable {s s' : FastPath} (h : s.Same s') {i i' : FastIn} (hi : i.Same i')
include h hi

theorem ftIn : (s.ftIn i).Same (s'.ftIn i') where
  ch0Meta hr := by simp only [FastPath.ftIn, FastPath.ch0Meta, hi.m7 hr, hi.ch0Addr hr]
  ch0Rden := hi.ch0Rden
  ch1Opcode := h.dec.ch1Opcode
  ch1BitMap := h.dec.ch1BitMap
  ch1Wren := h.dec.ch1Wren
  ch1Data := h.dec.ch1Data
  ch2Meta := hi.ch2Meta
  ch2Rden := hi.ch2Rden
  ch3Wren := hi.ch3Wren
  ch3Data := hi.ch3Data
  ch3RelPktCnt := hi.ch3RelPktCnt

theorem ch1InsertStall : s'.ch1InsertStall i' = s.ch1InsertStall i := h.ft.ch1InsertStall (h.ftIn hi)

theorem stall : s'.stall i' = s.stall i := by
  simp only [FastPath.stall, h.ft.ch0RdStall (h.ftIn hi), h.ch1InsertStall hi]

theorem decision : (s.decision i).Same (s'.decision i') := by
  simp only [FastPath.decision, h.ch1InsertStall hi, h.ft.ch0RdValid]
  split
  · exact h.dec
  · cases hv : s.ft.ch0RdValid
    · constructor <;> simp [FastPath.decideNone, h.dec.ch1Opcode]
    · have hn : FastPath.decideNone s'.dec s'.ft.ch0BitMap s'.ft.ch0Q s'.m10 =
          FastPath.decideNone s.dec s.ft.ch0BitMap s.ft.ch0Q s.m10 := by
        rw [FastPath.decideNone, h.ft.ch0BitMap hv, h.ft.ch0Q hv, h.m10 hv, h.dec.ch1Opcode]
        rfl
      simp only [hn]
      rw [h.ft.ch0BitMap hv, h.ft.ch0Q hv, h.m10 hv, h.ch0MetaR3 hv]
      exact .refl _

theorem step : (s.step i).Same (s'.step i') where
  ft := h.ft.step (h.ftIn hi)
  m8 hr := hi.m7 (ch0Rden_of_rdenA hr)
  m9 := h.m8
  m10 := h.m9
  ch0MetaR1 hr := (h.ftIn hi).ch0Meta (ch0Rden_of_rdenA hr)
  ch0MetaR2 := h.ch0MetaR1
  ch0MetaR3 := h.ch0MetaR2
  dec := h.decision hi

end FastPath.Same

/-! ## The wrapper -/

def HashFunc.validAt (h : HashFunc) : Fin 8 → Bool
  | 0 => h.valid
  | 1 => h.valid1
  | 2 => h.valid2
  | 3 => h.valid3
  | 4 => h.valid4
  | 5 => h.valid5
  | 6 => h.valid6
  | 7 => h.hashedValid

theorem HashFunc.validAt_reset (k : Fin 8) : HashFunc.reset.validAt k = false := by
  match k with
  | 0 | 1 | 2 | 3 | 4 | 5 | 6 | 7 => rfl

theorem HashFunc.validAt_step (h : HashFunc) (iv : BitVec 32) (t : Tuple) (valid : Bool) (k : Fin 8) :
    (h.step false iv t valid).validAt k = if k.val = 0 then valid else h.validAt ⟨k.val - 1, (Nat.sub_le _ _).trans_lt k.isLt⟩ := by
  match k with
  | 0 | 1 | 2 | 3 | 4 | 5 | 6 | 7 => rfl

theorem validAt_next {P : Metadata → Prop} {s : Wrapper} {i : WrapIn}
    (hm : ∀ k, (s.hash 0).validAt k = true → P (s.m k)) (hi : s.tupleInValid i = true → P i.inMetaData) (k : Fin 8)
    (hk : ((s.step i).hash 0).validAt k = true) : P ((s.step i).m k) := by
  simp only [Wrapper.step, vec_get] at hk ⊢
  cases hs : s.stall
  · simp only [hs, HashFunc.validAt_step, Bool.false_eq_true, if_false, Wrapper.pipeStep, vec_get] at hk ⊢
    split_ifs at hk ⊢
    · exact hi hk
    · exact hm _ hk
  · simp only [hs, if_true] at hk ⊢
    exact hm k hk

/-- The wrapper `s'` is `s` with other data where no packet is; the slow path has no such registers. -/
structure Wrapper.Same (s s' : Wrapper) : Prop where
  valid : (s'.hash 0).validAt = (s.hash 0).validAt
  m : ∀ k, (s.hash 0).validAt k = true → s'.m k = s.m k
  hashOk : ∀ k : Fin 4, HashOk (s.hash 0) (s.hash k) (BitVec.ofNat 32 k.val) s.m
  hashOk' : ∀ k : Fin 4, HashOk (s'.hash 0) (s'.hash k) (BitVec.ofNat 32 k.val) s'.m
  fast : s.fast.Same s'.fast
  slow : s'.slow = s.slow

structure WrapIn.Same (s s' : Wrapper) (i i' : WrapIn) : Prop where
  inMetaData : s.tupleInValid i = true → i'.inMetaData = i.inMetaData
  tupleInValid : s'.tupleInValid i' = s.tupleInValid i
  reorder : i'.reorderMetaAlmostFull = i.reorderMetaAlmostFull

namespace Wrapper.Same

theorem reset : Wrapper.reset.Same .reset where
  valid := rfl
  m _ _ := rfl
  hashOk k := by
    simp only [Wrapper.reset, vec_get]
    exact .reset _ _
  hashOk' k := by
    simp only [Wrapper.reset, vec_get]
    exact .reset _ _
  fast := .refl _
  slow := rfl

variable {s s' : Wrapper} (h : s.Same s')
include h

theorem fastIn : s.fastIn.Same s'.fastIn where
  m7 := h.m 7
  ch0Rden := congrFun h.valid 7
  ch0Addr hr := by
    have hr' : (s'.hash 0).hashedValid = true := (congrFun h.valid 7).trans hr
    simp only [Wrapper.fastIn, (h.hashOk _).hashed hr, (h.hashOk' _).hashed hr', h.m 7 hr]
  ch2Meta := by rw [Wrapper.fastIn, h.slow]; rfl
  ch2Rden := by rw [Wrapper.fastIn, h.slow]; rfl
  ch3Wren := by rw [Wrapper.fastIn, h.slow]; rfl
  ch3Data := by rw [Wrapper.fastIn, h.slow]; rfl
  ch3RelPktCnt := by rw [Wrapper.fastIn, h.slow]; rfl

theorem stall : s'.stall = s.stall := h.fast.stall h.fastIn

theorem slowIn {i i' : WrapIn} (hi : i'.reorderMetaAlmostFull = i.reorderMetaAlmostFull) :
    s'.slowIn i' = s.slowIn i := by
  have hr : s'.fast.ft.slowReady s'.ftIn = s.fast.ft.slowReady s.ftIn := by
    rw [FlowTable.slowReady, Wrapper.ftIn, h.fast.ft.grant (h.fast.ftIn h.fastIn)]
    rfl
  have hm : (if s'.fast.dec.oooMetaValid then some s'.fast.dec.oooMetaData else none) =
      if s.fast.dec.oooMetaValid then some s.fast.dec.oooMetaData else none := by
    rw [h.fast.dec.oooMetaValid]
    split_ifs with hv
    · rw [h.fast.dec.oooMetaData hv]
    · rfl
  have hf : (if s'.fast.dec.oooFceValid then some s'.fast.dec.oooFceData else none) =
      if s.fast.dec.oooFceValid then some s.fast.dec.oooFceData else none := by
    rw [h.fast.dec.oooFceValid]
    split_ifs with hv
    · rw [h.fast.dec.oooFceData hv]
    · rfl
  simp only [Wrapper.slowIn, hr, hm, hf, h.fast.ft.ch2Q, h.fast.ft.ch2RdValid, hi]

theorem step {i i' : WrapIn} (hi : i.Same s s' i') : (s.step i).Same (s'.step i') where
  valid := by
    funext k
    simp only [Wrapper.step, vec_get, h.stall, hi.tupleInValid]
    cases s.stall
    · rw [HashFunc.validAt_step, HashFunc.validAt_step, h.valid]
    · exact congrFun h.valid k
  m k hk := by
    simp only [Wrapper.step, vec_get, h.stall] at hk ⊢
    cases hs : s.stall
    · simp only [hs, HashFunc.validAt_step, Bool.false_eq_true, if_false, Wrapper.pipeStep, vec_get] at hk ⊢
      split_ifs at hk ⊢
      · exact hi.inMetaData hk
      · exact h.m _ hk
    · simp only [hs, if_true] at hk ⊢
      exact h.m k hk
  hashOk k := by
    simp only [Wrapper.step, vec_get]
    exact (h.hashOk k).step _ _ _ _
  hashOk' k := by
    simp only [Wrapper.step, vec_get]
    exact (h.hashOk' k).step _ _ _ _
  fast := h.fast.step h.fastIn
  slow := by rw [Wrapper.step, Wrapper.step, h.slow, h.slowIn hi.reorder]

end Wrapper.Same

end Pigasus
