import Pigasus.FastPathSound

/-!
# What port B knows after an edge
-/

namespace Pigasus

open Hdl HashStore

theorem FlowTable.words_of_not_wren {s : FlowTable} {k : Fin 4} (h : (s.pb.ft k).wrenB = false) :
    s.words k = (s.ram k).mem := by
  simp [FlowTable.words, wr, h]

namespace FastPath

variable (s : FastPath) (i : FastIn) (k : Fin 4)

theorem readB_r1 (hr : (s.ft.pb.ft k).rdenB = true) (hw : (s.ft.pb.ft k).wrenB = false) :
    ((s.step i).ft.ram k).b.r1 = s.wordB k := by
  rw [wordB, FlowTable.words_of_not_wren hw]
  simp [FastPath.step, FlowTable.step, FlowTable.ramStep, RdPort.step, hr]

theorem readB_q : ((s.step i).ft.ram k).b.q = (s.ft.ram k).b.r1 := by
  simp [FastPath.step, FlowTable.step, FlowTable.ramStep, RdPort.step]

end FastPath

namespace FastInv

section
variable {h : Tuple → Fin 4 → FtAddr} {s : FastPath} {E : List Fce} {r : ParaQIn} {P : FlowMap} {snap : Found}
  {ph : Phase} {st : Stage} (I : FastInv h s E r P snap ph st) {i : FastIn}
include I

theorem headAt_next (hc : s.Clean i) {p : PortB} (hh : FastPath.HeadAt h p (r.apply E)) (hd : s.ft.pb.qDequeEn = false)
    (hn : ∀ e q, r.apply E = e :: q → FlowTable.delete (s.ftIn i) = true → s.dec.ch1Data.tuple ≠ e.tuple) :
    FastPath.HeadAt h p ((s.ft.pqIn (s.ftIn i)).apply (r.apply E)) := by
  obtain ⟨e, q, hq, hat⟩ := hh
  have hdel : (s.ft.pqIn (s.ftIn i)).isDelete = true → (s.ft.pqIn (s.ftIn i)).opData.tuple ≠ e.tuple := by
    intro hdel
    by_cases he : s.ft.pb.evict = true
    · simp [ParaQIn.isDelete, FlowTable.pqIn, FlowTable.qOpId, he] at hdel
    · rw [Bool.not_eq_true] at he
      rw [isDelete_pqIn he] at hdel
      rw [opData_pqIn he]
      exact hn e q hq hdel
  obtain ⟨q', hq'⟩ := ParaQIn.apply_cons (r := s.ft.pqIn (s.ftIn i)) (E := q) hd hdel
  refine ⟨_, q', hq ▸ hq', ?_⟩
  rw [ParaQIn.write_tuple (I.legal_next hc.2.1)]
  exact hat

/-! ## From `P_ARB` -/

theorem fill_granted (hc : s.Clean i) (hg : s.ft.grant (s.ftIn i) = 0b0001#4) :
    ∃ e q, r.apply E = e :: q ∧ e.tuple = s.ft.pq.dequeData.tuple ∧ Own h s.ft.pq.dequeData ∧
      (FlowTable.delete (s.ftIn i) = true → s.dec.ch1Data.tuple ≠ e.tuple) := by
  obtain ⟨hv, ht⟩ := hc.2.1.2 hg
  obtain ⟨e, q, hq, het⟩ := I.pq.apply_of_stage_zero I.legal.protocol I.queue hv
  have hne := RrArbiter.grant_fill hg
  simp only [Bool.and_eq_true, Bool.not_eq_true'] at hne
  refine ⟨e, q, hq, het.trans ht, (I.head hne.2).2, fun hd => ?_⟩
  rw [het]
  exact (hc.2.1.1 hd).2 (.inr hg)

theorem tuple_ne_of_no_conflict (hst : st.next s i ≠ .idle) (hn : s.ft.updateConflict (s.ftIn i) = false) :
    (s.step i).tuple ≠ i.ch3Data.tuple := by
  intro ht
  have hbusy : s.ft.fastBusy (s.ftIn i) = true := by
    cases hs : st with
    | idle =>
      simp only [hs, Stage.next] at hst
      have hr : s.ft.rdenA (s.ftIn i) = true := by
        by_contra hr
        simp [hr] at hst
      simp only [FlowTable.rdenA, Bool.and_eq_true] at hr
      simp [FlowTable.fastBusy, hr.1]
    | rd1 => simp [FlowTable.fastBusy, FlowTable.ch0RdStall, I.stage.rdValidAR, hs]
    | rd2 => simp [FlowTable.fastBusy, FlowTable.ch0RdStall, I.stage.rdValidA, hs]
    | dec => simp [FlowTable.fastBusy, FlowTable.ch0RdStall, I.stage.ch0RdValid, hs]
    | wr => simp [FlowTable.fastBusy, FlowTable.ch0RdStall, I.ch1Wren, hs]
  have hl : s.ft.ch0TupleLatch (s.ftIn i) = (s.step i).tuple := rfl
  simp only [FlowTable.updateConflict, hbusy, hl, ht] at hn
  simp [FastPath.ftIn] at hn

omit I in
theorem insert_of_wait (hst : st = .wr) (hn : st.next s i = .wr) : (s.step i).dec.ch1Opcode = .insert := by
  simp only [hst, Stage.next] at hn
  split at hn
  · next hw =>
    have hi : FlowTable.insert (s.ftIn i) = true := by
      simp only [FastPath.ch1InsertStall, FlowTable.ch1InsertStall, Bool.and_eq_true] at hw
      exact hw.1
    show (s.decision i).ch1Opcode = _
    simp only [FastPath.decision, hw, if_true]
    simp only [FlowTable.insert, Bool.and_eq_true, beq_iff_eq] at hi
    exact hi.2
  · simp at hn

theorem wr_of_no_conflict (hst : st.next s i = .wr) {t : Tuple} (hn : s.ft.lookupConflict (s.ftIn i) t = false) :
    (s.step i).tuple ≠ t ∨ (s.step i).dec.ch1Opcode = .insert := by
  have hl : s.ft.ch0TupleLatch (s.ftIn i) = (s.step i).tuple := rfl
  cases hs : st with
  | idle | rd1 | rd2 => simp [hs, Stage.next] at hst; try (split at hst <;> simp at hst)
  | dec =>
    left
    intro ht
    simp [FlowTable.lookupConflict, I.stage.ch0RdValid, hs, hl, ht] at hn
  | wr => exact .inr (insert_of_wait hs hst)

theorem port_arb (henv : FastEnv h s i) (hc : s.Clean i) (hS : ph.pState = .pArb) {P' : FlowMap} {snap' : Found} :
    (s.step i).PortData h (r.apply E) (s.ft.pqIn (s.ftIn i)) P' snap' (st.next s i) (ph.next s.ft (s.ftIn i)) := by
  have hn : ph.next s.ft (s.ftIn i) = Phase.arb.next s.ft (s.ftIn i) := by
    cases ph <;> simp [Phase.pState] at hS <;> rfl
  have hpb : (s.step i).ft.pb = s.ft.arbStep (s.ftIn i) := by
    have := I.ctl.pb_step (s.ftIn i)
    cases ph <;> simp [Phase.pState] at hS <;> exact this
  rw [hn]
  unfold Phase.next FlowTable.arbStep at *
  split at hpb
  · next hg =>
    simp only [hg, if_true]
    rw [beq_iff_eq] at hg
    have hd : s.ft.pb.qDequeEn = false := by
      rw [I.ctl.qDequeEn]
      cases ph <;> simp [Phase.pState] at hS <;> rfl
    obtain ⟨e, q, hq, het, hown, hdel⟩ := I.fill_granted hc hg
    have hat : FastPath.At h (s.step i).ft.pb e.tuple := by
      intro k
      rw [hpb, het]
      simpa using hown k
    refine ⟨I.headAt_next hc ⟨e, q, hq, hat⟩ hd fun e' q' hq' => ?_, by simp, by simp⟩
    rw [hq] at hq'
    simp only [List.cons.injEq] at hq'
    exact hq'.1 ▸ hdel
  next hg1 =>
  simp only [hg1, Bool.false_eq_true, if_false]
  split at hpb
  swap
  · next hg2 => simp only [hg2, Bool.false_eq_true, if_false]; trivial
  next hg2 =>
  simp only [hg2, if_true]
  split at hpb
  · next h3 =>
    simp only [h3, if_true]
    have h3' : i.ch3Wren = true := h3
    split at hpb
    · next hcf =>
      simp only [hcf, if_true]
      refine ⟨?_, ?_, fun k => ?_, fun hv => ?_⟩ <;> rw [hpb] at *
      · simp [FlowTable.take3]
      · simp [FlowTable.take3]
      · simp [FlowTable.take3]
      · exact henv.ch3 h3' hv
    · next hcf =>
      simp only [hcf, Bool.false_eq_true, if_false]
      rw [Bool.not_eq_true] at hcf
      refine ⟨⟨?_, ?_, fun k => ?_, fun hv => ?_⟩, fun hst => ?_, by simp, by simp⟩
      · rw [hpb]; simp [FlowTable.take3, FlowTable.slowRead]
      · rw [hpb]; simp [FlowTable.take3, FlowTable.slowRead]
      · rw [hpb]; simp [FlowTable.take3, FlowTable.slowRead]
      · rw [hpb] at hv ⊢; exact henv.ch3 h3' hv
      · rw [hpb]; exact I.tuple_ne_of_no_conflict hst hcf
  · next h3 =>
    simp only [h3, Bool.false_eq_true, if_false]
    have h2 : i.ch2Rden = true := by
      rw [beq_iff_eq] at hg2
      have := RrArbiter.grant_slow hg2
      simp only [Bool.and_eq_true, Bool.or_eq_true] at this
      exact this.2.resolve_left h3
    split at hpb
    · next hcf =>
      simp only [hcf, if_true]
      refine ⟨?_, fun k => ?_⟩ <;> rw [hpb]
      · simp [FlowTable.take2]
      · simp only [FlowTable.take2, vec_get]
        exact henv.ch2 h2 k
    · next hcf =>
      simp only [hcf, Bool.false_eq_true, if_false]
      rw [Bool.not_eq_true] at hcf
      refine ⟨⟨?_, fun k => ?_⟩, fun _ hst => ?_, by simp, by simp, by simp⟩ <;> rw [hpb]
      · simp [FlowTable.take2, FlowTable.slowRead]
      · simp only [FlowTable.take2, FlowTable.slowRead, vec_get]
        exact henv.ch2 h2 k
      · exact I.wr_of_no_conflict hst hcf

/-! ## Filling a sub-table -/

omit I in
theorem occ_wordB_next (hv : (s.viewNext i E r).tab = (s.view1 i E r).tab) (k : Fin 4)
    (ha : ((s.step i).ft.pb.ft k).addrB = (s.ft.pb.ft k).addrB) :
    occ ((s.step i).wordB k) = (s.view1 i E r).tab k (s.ft.pb.ft k).addrB := by
  rw [← hv, ← ha]
  rfl

theorem wordB_empty_next (hv : (s.viewNext i E r).tab = (s.view1 i E r).tab) (k : Fin 4)
    (ha : ((s.step i).ft.pb.ft k).addrB = (s.ft.pb.ft k).addrB) (he : occ (s.wordB k) = none) :
    occ ((s.step i).wordB k) = none := by
  rw [occ_wordB_next hv k ha]
  exact I.tab1_empty he

theorem headBusy_false (hst : st ≠ .rd1) (hr : s.ft.rdenA (s.ftIn i) = false) : s.ft.headBusy (s.ftIn i) = false := by
  simp [FlowTable.headBusy, hr, I.stage.qRdenAR1, hst]

theorem rdenA_false_of_age (hc : s.Clean i) (ha : ph.minAge ≠ 0) : s.ft.rdenA (s.ftIn i) = false := by
  rw [← Bool.not_eq_true]
  exact fun hr => ha (I.of_rdenA hc.2.2.2 hr).2.1

theorem head_not_deleted (hc : s.Clean i) (hS : s.ft.pb.pState = .pLookup) {e : Fce} {q : List Fce}
    (hq : r.apply E = e :: q) (hd : FlowTable.delete (s.ftIn i) = true) : s.dec.ch1Data.tuple ≠ e.tuple := by
  rw [← (I.pq.stage_zero I.legal.protocol I.queue hq).2]
  exact (hc.2.1.1 hd).2 (.inl hS)

theorem port_lookup (hc : s.Clean i) {b : Beat} (hp : ph = .lookup b) {P' : FlowMap} {snap' : Found} :
    (s.step i).PortData h (r.apply E) (s.ft.pqIn (s.ftIn i)) P' snap' (st.next s i) (ph.next s.ft (s.ftIn i)) := by
  subst hp
  have hS : s.ft.pb.pState = .pLookup := I.ctl.pState
  have hpb : (s.step i).ft.pb = s.ft.lookupStep (s.ftIn i) := I.ctl.pb_step (s.ftIn i)
  have haddr : ∀ k, ((s.step i).ft.pb.ft k).addrB = (s.ft.pb.ft k).addrB := by
    intro k
    rw [hpb]
    simp
  have hdq : s.ft.pb.qDequeEn = false := I.ctl.qDequeEn
  have hwB : ∀ k, (s.ft.pb.ft k).wrenB = false := I.ctl.wrenB (by simp) (by simp)
  have hhead : FastPath.HeadAt h (s.step i).ft.pb ((s.ft.pqIn (s.ftIn i)).apply (r.apply E)) := by
    obtain ⟨e, q, hq, hat⟩ := I.port.1
    refine I.headAt_next hc ⟨e, q, hq, fun k => (haddr k).trans (hat k)⟩ hdq fun e' q' hq' hd => ?_
    exact I.head_not_deleted hc hS hq' hd
  have hren := I.rdenA_false_of_age hc (by cases b <;> simp [Phase.minAge])
  cases b with
  | b1 =>
    have hv := congrArg Store.tab (I.viewNext_quiet hc rfl (by simp [Phase.next]) (by simp [Phase.next]))
    refine ⟨hhead, fun _ k hk => I.wordB_empty_next hv k (haddr k) ?_, by simp⟩
    exact occ_eq_none.2 (s.readB_r1 i k (I.ctl.rdenB k) (hwB k) ▸ hk)
  | b2 =>
    have hv := congrArg Store.tab (I.viewNext_quiet hc rfl (by simp [Phase.next]) (by simp [Phase.next]))
    refine ⟨hhead, by simp, fun _ k hk => I.wordB_empty_next hv k (haddr k) ?_⟩
    exact I.port.2.1 rfl k (s.readB_q i k ▸ hk)
  | b3 =>
    have hst : st ≠ .rd1 := by
      rintro rfl
      have := I.age
      simp [Phase.minAge, Stage.age] at this
    have hnb := I.headBusy_false hst hren
    have hvB : s.ft.rdValidB = true := I.ctl.rdValidB
    simp only [Phase.next, hnb, Bool.false_eq_true, if_false]
    unfold FlowTable.lookupStep at hpb
    simp only [hvB, hnb, if_true, Bool.false_eq_true, if_false] at hpb
    split at hpb
    · next hz =>
      -- all ways are taken: the victims were read in their latest version
      simp only [hz, if_true]
      have hv := congrArg Store.tab (I.viewNext_quiet hc rfl (by simp [Phase.next, hnb, hz]) (by simp [Phase.next, hnb, hz]))
      obtain ⟨hrv, hw, hmem⟩ := hc.2.2.2.1 hS hvB hz
      refine ⟨hhead, fun k => ?_⟩
      rw [occ_wordB_next hv k (haddr k), FastPath.view1, fastStore_of_not_wren hw]
      show occ (s.wordB k) = _
      have hk := isZero_iff.1 hz k (List.mem_finRange k)
      have hval : (s.ft.ram k).b.q.valid = true := by simpa [FlowTable.ftEmpty] using hk
      have : s.wordB k = (s.ft.ram k).b.q := by rw [FastPath.wordB, FlowTable.words_of_not_wren (hwB k), hmem k]
      rw [this, occ_of_valid hval, hpb]
      simp
    · next hz =>
      simp only [hz]
      have hv := congrArg Store.tab (I.viewNext_quiet hc rfl (by simp [Phase.next, hnb, hz]) (by simp [Phase.next, hnb, hz]))
      have hemp : (s.step i).ft.pb.ftEmptyR = vec s.ft.ftEmpty := by rw [hpb]
      refine ⟨hhead, by simp, ?_, fun k hk => I.wordB_empty_next hv k (haddr k) ?_⟩
      · by_contra hno
        refine hz (isZero_iff.2 fun k _ => ?_)
        rw [← Bool.not_eq_true]
        exact fun hk => hno ⟨k, by simp [hemp, hk]⟩
      · refine I.port.2.2 rfl k ?_
        simpa [hemp, FlowTable.ftEmpty] using hk

theorem wait_of_age (hc : s.Clean i) (ha : 4 ≤ ph.minAge) (hn : st.next s i = .wr) : (s.step i).dec.ch1Opcode = .insert := by
  have hage := I.age
  have hren := I.rdenA_false_of_age hc (by omega)
  refine insert_of_wait (s := s) ?_ hn
  cases st with
  | wr => rfl
  | idle => simp [Stage.next, hren] at hn
  | rd1 | rd2 | dec => simp only [Stage.age] at hage; omega

theorem port_fill (hc : s.Clean i) {b : Beat} (hp : ph = .fill b) {P' : FlowMap} {snap' : Found} :
    (s.step i).PortData h (r.apply E) (s.ft.pqIn (s.ftIn i)) P' snap' (st.next s i) (ph.next s.ft (s.ftIn i)) := by
  subst hp
  have hpb : (s.step i).ft.pb = s.ft.fillStep := I.ctl.pb_step (s.ftIn i)
  have haddr : ∀ k, ((s.step i).ft.pb.ft k).addrB = (s.ft.pb.ft k).addrB := by
    intro k
    rw [hpb]
    simp
  have hemp : (s.step i).ft.pb.ftEmptyR = s.ft.pb.ftEmptyR := by
    rw [hpb]
    simp
  have hwait := I.wait_of_age hc (by simp [Phase.minAge]) (i := i)
  obtain ⟨hhead, _, hex, hempty⟩ := I.port
  cases b with
  | b1 =>
    obtain ⟨e, hat, ht, hv, _⟩ := I.rep_deque hc rfl
    refine ⟨⟨e, ht, fun k => (haddr k).trans (hat k)⟩, fun _ => hwait, hemp ▸ hex, fun k hk => ?_⟩
    exact I.wordB_empty_next hv k (haddr k) (hempty k (hemp ▸ hk))
  | b2 =>
    have hq := I.viewNext_quiet hc rfl (by simp [Phase.next]) (by simp [Phase.next])
    obtain ⟨e, ht, hat⟩ := hhead
    refine ⟨⟨e, ?_, fun k => (haddr k).trans (hat k)⟩, fun _ => hwait, hemp ▸ hex, fun k hk => ?_⟩
    · exact (congrArg Store.transit hq).trans ht
    · exact I.wordB_empty_next (congrArg Store.tab hq) k (haddr k) (hempty k (hemp ▸ hk))
  | b3 =>
    refine ⟨hwait, fun he => ?_⟩
    rw [hpb, fillStep_evict, I.ctl.evict (by simp)] at he
    simp at he

theorem idle_of_evic {b : Beat} (hp : ph = .evic b) : st = .idle := by
  have := I.age
  subst hp
  cases st <;> simp [Phase.minAge, Stage.age] at this ⊢

theorem length_next (hc : s.Clean i) (hst : st = .idle) (he : s.ft.pb.evict = false) :
    ((s.ft.pqIn (s.ftIn i)).apply (r.apply E)).length =
      if s.ft.pb.qDequeEn then (r.apply E).length - 1 else (r.apply E).length := by
  have hw : (s.ftIn i).ch1Wren = false := by simp [I.ch1Wren, hst]
  rw [I.queue_next hc, FastPath.view1, fastStore_of_not_wren hw]
  simp only [FlowTable.view, FlowTable.evicted, he]
  split <;> simp

theorem port_evic (hc : s.Clean i) {b : Beat} (hp : ph = .evic b) {P' : FlowMap} {snap' : Found} :
    (s.step i).PortData h (r.apply E) (s.ft.pqIn (s.ftIn i)) P' snap' (st.next s i) (ph.next s.ft (s.ftIn i)) := by
  have hst := I.idle_of_evic hp
  subst hp
  have hpb : (s.step i).ft.pb = s.ft.evicStep := I.ctl.pb_step (s.ftIn i)
  have hw : (s.ftIn i).ch1Wren = false := by simp [I.ch1Wren, hst]
  have hren := I.rdenA_false_of_age hc (by simp [Phase.minAge])
  have hst' : st.next s i = .idle := by simp [hst, Stage.next, hren]
  have haddr : ∀ k, ((s.step i).ft.pb.ft k).addrB = (s.ft.pb.ft k).addrB := by
    intro k
    rw [hpb]
    simp
  have hqBR : ∀ k, ((s.step i).ft.pb.ft k).qBR = (s.ft.pb.ft k).qBR := by
    intro k
    rw [hpb]
    simp
  have hlen := I.length_next hc hst (I.ctl.evict (by simp))
  have hok := (ParaQIn.apply_ok I.legal.protocol I.queue).len
  obtain ⟨hhead, hways⟩ := I.port
  -- with the fast path idle the words do not change
  have hword : (s.viewNext i E r).tab = (s.view1 i E r).tab →
      ∀ k, occ ((s.step i).wordB k) = some ((s.step i).ft.pb.ft k).qBR := by
    intro hv k
    rw [occ_wordB_next hv k (haddr k), hqBR, FastPath.view1, fastStore_of_not_wren hw]
    exact hways k
  cases b with
  | b1 =>
    obtain ⟨e, hat, ht, hv, _⟩ := I.rep_deque hc rfl
    obtain ⟨x, q, hx, _⟩ := hhead
    refine ⟨⟨⟨e, ht, fun k => (haddr k).trans (hat k)⟩, ?_⟩, hword hv⟩
    have hdq : s.ft.pb.qDequeEn = true := I.ctl.qDequeEn
    rw [hlen, if_pos hdq, hx]
    rw [hx] at hok
    simp only [List.length_cons] at hok ⊢
    omega
  | b2 =>
    have hq := I.viewNext_quiet hc rfl (by simp [Phase.next]) (by simp [Phase.next])
    obtain ⟨⟨e, ht, hat⟩, hl⟩ := hhead
    have hdq : s.ft.pb.qDequeEn = false := I.ctl.qDequeEn
    refine ⟨⟨⟨e, (congrArg Store.transit hq).trans ht, fun k => (haddr k).trans (hat k)⟩, ?_⟩, hword (congrArg Store.tab hq)⟩
    rw [hlen, hdq]
    exact hl
  | b3 =>
    obtain ⟨k, _, hocc, hev⟩ := I.rep_evic hc rfl
    have hdq : s.ft.pb.qDequeEn = false := I.ctl.qDequeEn
    refine ⟨fun h' => by simp [hst'] at h', fun _ => ⟨hst', ?_, ?_⟩⟩
    · rw [hev]
      exact (occ_eq_some.1 hocc).1
    · rw [hlen, hdq]
      exact hhead.2

/-! ## The slow write -/

theorem port_upWait (henv : FastEnv h s i) (hp : ph = .upWait) {P' : FlowMap} {snap' : Found} :
    (s.step i).PortData h (r.apply E) (s.ft.pqIn (s.ftIn i)) P' snap' (st.next s i) (ph.next s.ft (s.ftIn i)) := by
  subst hp
  have hpb : (s.step i).ft.pb = s.ft.slowUpdateWaitStep (s.ftIn i) := I.ctl.pb_step (s.ftIn i)
  have hport : FastPath.Taken3 h s.ft.pb := I.port
  have hheld : i.ch3Data.tuple = s.ft.pb.ch3DataR.tuple := henv.held I.ctl.pState
  unfold FlowTable.slowUpdateWaitStep at hpb
  simp only [Phase.next]
  split at hpb
  · next hcf =>
    simp only [hcf, if_true]
    show FastPath.Taken3 h _
    rw [hpb]
    exact hport
  · next hcf =>
    simp only [hcf, Bool.false_eq_true, if_false]
    rw [Bool.not_eq_true] at hcf
    refine ⟨⟨?_, ?_, fun k => ?_, fun hv => ?_⟩, fun hst => ?_, by simp, by simp⟩
    · rw [hpb]; exact hport.lookupTuple
    · rw [hpb]; exact hport.qAddr
    · rw [hpb]; simpa [FlowTable.slowRead] using hport.addr k
    · rw [hpb] at hv ⊢; exact hport.own hv
    · rw [hpb]; exact hheld ▸ I.tuple_ne_of_no_conflict hst hcf

theorem tuple_ne_of_busy (hc : s.Clean i) (hb : ph.busy = true)
    (hne : st ≠ .idle → s.tuple ≠ s.ft.pb.ch3DataR.tuple) (hst : st.next s i ≠ .idle) :
    (s.step i).tuple ≠ s.ft.pb.ch3DataR.tuple := by
  by_cases hs : st = .idle
  · have hr : s.ft.rdenA (s.ftIn i) = true := by
      by_contra hr
      simp [hs, Stage.next, hr] at hst
    rw [tuple_next, hr]
    exact (I.of_rdenA hc.2.2.2 hr).2.2 hb
  · rw [I.tuple_next_of_ne hs]
    exact hne hs

omit I in
theorem seesHit_of_queue (hq : QueueOk E) (hpq : PqRel s.ft.pq E r) {o : Found} {t : Tuple} (hr : r.rdenB = true)
    (ha : r.addrB = t) (hs : SeesQueue o t E) : SeesHit o (s.step i).ft.pq.rdHitB (s.step i).ft.pq.qB := by
  have hhit : (s.step i).ft.pq.rdHitB = (r.rdenB && E.any fun e => decide (r.addrB = e.tuple)) :=
    hpq.rdHitB hq (s.ft.pqIn (s.ftIn i))
  refine ⟨?_, fun e he => ?_⟩
  · rw [hhit, hr, ha, Bool.true_and, List.any_eq_true]
    simp only [decide_eq_true_eq]
    exact exists_congr fun e => by rw [← hs e, eq_comm]
  · obtain ⟨hm, het⟩ := (hs e).2 he
    exact hpq.qB hq (s.ft.pqIn (s.ftIn i)) hr hm (by rw [ha, het])

theorem seesQueue_start (hq : s.ft.pb.qWrenB = false) (he : s.ft.pb.evict = false) (t : Tuple) :
    SeesQueue (P t) t (r.apply E) := by
  intro e
  have hp := pendB_id hq
  have hv : (s.ft.view E r).queue = r.apply E := by simp [FlowTable.view, FlowTable.evicted, he, hp]
  rw [← hv]
  exact ⟨fun hm => hm.2 ▸ I.rep.queue.1 hm.1, fun ho => ⟨I.rep.mem_queue ho, I.rep.keyed ho⟩⟩

theorem port_up (hc : s.Clean i) {b : Beat} (hp : ph = .up b) {P' : FlowMap} {snap' : Found}
    (hP : b ≠ .b3 → P' s.ft.pb.ch3DataR.tuple = P s.ft.pb.ch3DataR.tuple) :
    (s.step i).PortData h (r.apply E) (s.ft.pqIn (s.ftIn i)) P' snap' (st.next s i) (ph.next s.ft (s.ftIn i)) := by
  subst hp
  have hpb : (s.step i).ft.pb = s.ft.slowUpdateStep := I.ctl.pb_step (s.ftIn i)
  have haddr : ∀ k, ((s.step i).ft.pb.ft k).addrB = (s.ft.pb.ft k).addrB := by
    intro k
    rw [hpb]
    simp [FlowTable.slowUpdateStep]
  have hdata : (s.step i).ft.pb.ch3DataR = s.ft.pb.ch3DataR := by rw [hpb]; rfl
  obtain ⟨htk, hne, h2, h3⟩ := I.port
  have hne' := I.tuple_ne_of_busy hc rfl hne (i := i)
  have htk' : FastPath.Taken3 h (s.step i).ft.pb := by
    refine ⟨?_, ?_, fun k => ?_, ?_⟩
    · rw [hpb]; exact htk.lookupTuple
    · rw [hpb]; exact htk.qAddr
    · rw [haddr, hdata]; exact htk.addr k
    · rw [hdata]; exact htk.own
  cases b with
  | b1 =>
    refine ⟨htk', hdata ▸ hne', fun _ => ⟨?_, fun k => ?_, ?_, ?_, ?_⟩, by simp⟩
    · rw [hdata]; exact htk.lookupTuple
    · rw [hdata, haddr, hP (by simp), s.readB_r1 i k (I.ctl.rdenB k) (I.ctl.wrenB (by simp) (by simp) k)]
      refine ⟨fun e he het => ?_, fun ha e he => ?_⟩
      · have hw := I.rep.way.1 he
        exact ⟨het ▸ hw.1, het ▸ hw.2.symm⟩
      · have := I.rep.tab_hash he
        rwa [← ha] at this
    · exact I.ctl.qRdenB
    · rw [hdata]; exact htk.qAddr
    · rw [hdata, hP (by simp)]
      exact I.seesQueue_start (I.ctl.qWrenB (by simp)) (I.ctl.evict (by simp)) _
  | b2 =>
    obtain ⟨ht1, hways, hr, ha, hq⟩ := h2 rfl
    refine ⟨htk', hdata ▸ hne', by simp, fun _ => ⟨?_, fun k => ?_, ?_⟩⟩
    · rw [hdata]; exact ht1
    · rw [hdata, haddr, hP (by simp), s.readB_q]
      exact hways k
    · rw [hdata, hP (by simp)]
      exact seesHit_of_queue I.queue I.pq hr ha hq
  | b3 =>
    refine ⟨hdata ▸ hne', fun k _ => ?_, fun hq => ?_⟩
    · rw [hpb]
      simp [FlowTable.slowUpdateStep, FlowTable.slowData]
    · rw [hpb] at hq ⊢
      simp only [FlowTable.slowUpdateStep, FlowTable.slowWrite, Bool.and_eq_true, beq_iff_eq] at hq
      have hhit : s.ft.pq.rdHitB = true := by
        rw [← I.ch2BitMap_q]
        exact (oneHot?_eq_some hq.2).2.1
      exact ⟨hc.2.2.1 I.ctl.pState hq.1 hhit, htk.qAddr.symm, htk.qAddr⟩

/-! ## The slow lookup -/

theorem port_lkWait (hp : ph = .lkWait) {P' : FlowMap} {snap' : Found} :
    (s.step i).PortData h (r.apply E) (s.ft.pqIn (s.ftIn i)) P' snap' (st.next s i) (ph.next s.ft (s.ftIn i)) := by
  subst hp
  have hpb : (s.step i).ft.pb = s.ft.slowLookupWaitStep (s.ftIn i) := I.ctl.pb_step (s.ftIn i)
  have hport : FastPath.Taken2 h s.ft.pb := I.port
  unfold FlowTable.slowLookupWaitStep at hpb
  simp only [Phase.next]
  split at hpb
  · next hcf =>
    simp only [hcf, if_true]
    show FastPath.Taken2 h _
    rw [hpb]
    exact hport
  · next hcf =>
    simp only [hcf, Bool.false_eq_true, if_false]
    rw [Bool.not_eq_true] at hcf
    refine ⟨⟨?_, fun k => ?_⟩, fun _ hst => ?_, by simp, by simp, by simp⟩
    · rw [hpb]; exact hport.qAddr
    · rw [hpb]; simpa [FlowTable.slowRead] using hport.addr k
    · rw [hpb]; exact I.wr_of_no_conflict hst hcf

theorem port_lk {b : Beat} (hp : ph = .lk b) {P' : FlowMap} :
    (s.step i).PortData h (r.apply E) (s.ft.pqIn (s.ftIn i)) P' (if ph = .lk .b1 then P s.ft.pb.lookupTupleB else snap)
      (st.next s i) (ph.next s.ft (s.ftIn i)) := by
  subst hp
  have hpb : (s.step i).ft.pb = s.ft.slowLookupStep := I.ctl.pb_step (s.ftIn i)
  have hlt : (s.step i).ft.pb.lookupTupleB = s.ft.pb.lookupTupleB := by rw [hpb]; rfl
  obtain ⟨htk, _, hnt, h2, h3⟩ := I.port
  have htk' : FastPath.Taken2 h (s.step i).ft.pb := by
    refine ⟨?_, fun k => ?_⟩
    · rw [hpb]; exact htk.qAddr
    · rw [hlt, hpb]; simpa [FlowTable.slowLookupStep] using htk.addr k
  cases b with
  | b1 =>
    rw [if_pos rfl]
    refine ⟨htk', by simp, fun _ e => ?_, fun _ => ⟨?_, fun k => ?_, ?_, ?_, ?_⟩, by simp⟩
    · exact I.rep.not_transit (I.transit_none rfl rfl)
    · rw [hlt]; rfl
    · rw [hlt, s.readB_r1 i k (I.ctl.rdenB k) (I.ctl.wrenB (by simp) (by simp) k)]
      intro e
      have ha : (s.ft.pb.ft k).addrB = h s.ft.pb.lookupTupleB k := htk.addr k
      refine ⟨fun ⟨he, het⟩ => ?_, fun he => ⟨?_, I.rep.keyed he⟩⟩
      · have hw := I.rep.way.1 he
        exact het ▸ hw.1
      · have := I.rep.tab_hash he
        rwa [← ha] at this
    · exact I.ctl.qRdenB
    · rw [hlt]; exact htk.qAddr
    · rw [hlt]
      exact I.seesQueue_start (I.ctl.qWrenB (by simp)) (I.ctl.evict (by simp)) _
  | b2 =>
    rw [if_neg (by simp)]
    obtain ⟨ht1, hways, hr, ha, hq⟩ := h2 rfl
    refine ⟨htk', by simp, fun _ => hnt (by simp), by simp, fun _ => ⟨?_, fun k => ?_, ?_⟩⟩
    · rw [hlt]; exact ht1
    · rw [hlt, s.readB_q]; exact hways k
    · exact seesHit_of_queue I.queue I.pq hr ha hq
  | b3 => trivial

end

end FastInv

end Pigasus
