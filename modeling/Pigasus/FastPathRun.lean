import Pigasus.FastPathPort

/-!
# Runs of the fast path

One edge keeps the invariant, and what it does to the data of the map depends
on the operation that channel 1 or channel 3 completes in it, not on where the
entries are.
-/

namespace Pigasus

open Hdl HashStore

theorem Stage.age_next {s : FastPath} {i : FastIn} (st : Stage) (hr : s.ft.rdenA (s.ftIn i) = false) :
    min (st.age + 1) 4 ≤ (st.next s i).age := by
  cases st <;> simp only [Stage.next] <;> (try split_ifs) <;> simp_all [Stage.age]

/-! ## The operations -/

abbrev FlowData := Tuple → Option Fce

namespace FastPath

def fastOp (s : FastPath) (i : FastIn) (M : FlowData) : FlowData :=
  if s.dec.ch1Wren && !s.ch1InsertStall i then
    match s.dec.ch1Opcode with
    | .nop => M
    | .insert | .update => upd M s.dec.ch1Data.tuple (some s.dec.ch1Data)
    | .delete => upd M s.dec.ch1Data.tuple none
  else M

/-- The write of channel 3 that port B completes in this cycle; it changes an entry that is there. -/
def slowOp (s : FastPath) (M : FlowData) : FlowData :=
  if s.ft.pb.pState == .slowUpdate && s.ft.rdValidB then
    let d := s.ft.pb.ch3DataR
    upd M d.tuple ((M d.tuple).bind fun e => occ { d with slowCnt := e.slowCnt - s.ft.pb.ch3RelPktCntR })
  else M

end FastPath

namespace FastInv

section
variable {h : Tuple → Fin 4 → FtAddr} {s : FastPath} {E : List Fce} {r : ParaQIn} {P : FlowMap} {snap : Found}
  {ph : Phase} {st : Stage} (I : FastInv h s E r P snap ph st) {i : FastIn}
include I

theorem age_next (hc : s.Clean i) : (ph.next s.ft (s.ftIn i)).minAge ≤ (st.next s i).age := by
  have hage := I.age
  have hpos : 1 ≤ (st.next s i).age := by cases st.next s i <;> simp [Stage.age]
  have hnext : ph.minAge ≠ 0 → min (st.age + 1) 4 ≤ (st.next s i).age :=
    fun h0 => st.age_next (I.rdenA_false_of_age hc h0)
  cases ph with
  | arb | filled | updated => simp only [Phase.next]; split_ifs <;> simp [Phase.minAge, hpos]
  | upWait | lkWait => simp only [Phase.next]; split_ifs <;> simp [Phase.minAge]
  | up b | lk b => cases b <;> simp [Phase.next, Phase.minAge]
  | fill b =>
    have := hnext (by simp [Phase.minAge])
    cases b <;> simp [Phase.next, Phase.minAge] at hage ⊢ <;> omega
  | evic b =>
    have hst := I.idle_of_evic rfl
    have hr := I.rdenA_false_of_age hc (by simp [Phase.minAge])
    cases b <;> simp [Phase.next, Phase.minAge, hst, Stage.next, hr, Stage.age]
  | lookup b =>
    have hr := I.rdenA_false_of_age hc (by cases b <;> simp [Phase.minAge])
    have := st.age_next hr
    cases b with
    | b1 | b2 => simp [Phase.next, Phase.minAge] at hage ⊢; omega
    | b3 =>
      simp only [Phase.next]
      split_ifs with hb he
      · simp [Phase.minAge]
      · obtain ⟨hd, hw, _⟩ := hc.2.2.2.1 I.ctl.pState I.ctl.rdValidB he
        rw [I.stage.ch0RdValid, decide_eq_false_iff_not] at hd
        rw [I.stage.ch1Wren, decide_eq_false_iff_not] at hw
        cases st <;> simp [Phase.minAge, Stage.age, Stage.next, hr] at hage hd hw ⊢
      · simp [Phase.minAge] at hage ⊢
        omega

theorem own_write {e : Fce} {q : List Fce} (hq : E = e :: q) (hd : r.dequeEn = true) :
    (r.write e).valid = true ∧ Own h (r.write e) := by
  have ht : (s.ft.view E r).transit = some (r.write e) := by simp [FlowTable.view, hd, hq]
  exact I.own (I.rep.transit.1 ht)

theorem head_next (hn : (s.step i).ft.qEmptyR = false) :
    (s.step i).ft.pq.dequeData.valid = true ∧ Own h (s.step i).ft.pq.dequeData := by
  have he : E.isEmpty = false := by
    rw [← I.pq.empty I.queue]
    exact hn
  obtain ⟨e, q, hq⟩ : ∃ e q, E = e :: q := by
    cases hE : E with
    | nil => simp [hE] at he
    | cons e q => exact ⟨e, q, rfl⟩
  by_cases hd : r.dequeEn = true
  · have hd' : (s.step i).ft.pq.dequeData = r.write e := I.pq.dequeData_of_deque _ hq hd
    rw [hd']
    exact I.own_write hq hd
  · rw [Bool.not_eq_true] at hd
    have hd' : (s.step i).ft.pq.dequeData = E.headD .zero := I.pq.dequeData _ hd
    have hm : e ∈ E := by simp [hq]
    rw [hd', hq]
    exact ⟨I.queue.valid e hm, I.ownE e hm⟩

theorem ownQ_next (hc : s.Clean i) : ∀ e ∈ (s.ft.pqIn (s.ftIn i)).apply (r.apply E), Own h e := by
  intro e he
  rw [I.queue_next hc] at he
  have hm : e ∈ (s.view1 i E r).queue := by
    split at he
    · exact List.mem_of_mem_tail he
    · exact he
  exact (I.own1 (I.rep1.queue.1 hm)).2

theorem insertIdle_next (hc : s.Clean i) (hi : (s.ft.pqIn (s.ftIn i)).isInsert = true) : st.next s i = .idle := by
  by_cases he : s.ft.pb.evict = true
  · obtain ⟨hp, hst, _⟩ := I.of_evict he
    have hr := I.rdenA_false_of_age hc (by simp [hp, Phase.minAge])
    simp [hst, Stage.next, hr]
  · rw [Bool.not_eq_true] at he
    rw [isInsert_pqIn he, Bool.and_eq_true, Bool.not_eq_true'] at hi
    have hs : s.ch1InsertStall i = false := by simp [FastPath.ch1InsertStall, FlowTable.ch1InsertStall, hi.2]
    simp [(I.of_insert hi.1).1, Stage.next, hs]

theorem rdw_next (hc : s.Clean i) (l : Loc) :
    ((s.step i).ft.rdw l).aR1 = false ∧ ((s.step i).ft.rdw l).aR2 = false ∧
      ((s.step i).ft.rdw l).bR1 = false ∧ ((s.step i).ft.rdw l).bR2 = false := by
  have hl := I.rdw l
  have hstep : (s.step i).ft.rdw l = s.ft.rdwStep (s.ftIn i) l := by simp [FastPath.step, FlowTable.step]
  rw [hstep]
  exact ⟨I.rdwA_false hc.1 hc.2.2.2 l, hl.1, I.rdwB_false hc.1 l, hl.2.2.1⟩

theorem fatal_next : (s.step i).ft.pq.isErrorFatal = false := I.pq.not_fatal I.queue I.legal _ I.fatal

/-- What the queue is asked to do in a cycle shows two cycles later. -/
theorem fatal_next_next (hk : s.HeadKept i) (j : FastIn) : ((s.step i).step j).ft.pq.isErrorFatal = false :=
  (I.pq.step I.legal.protocol I.queue _).not_fatal (ParaQIn.apply_ok I.legal.protocol I.queue) (I.legal_next hk) _ I.fatal_next

/-! ## The next map -/

theorem next_of {P' : FlowMap} (henv : FastEnv h s i) (hc : s.Clean i)
    (hrep : Rep Fce.tuple h (s.viewNext i E r) P') (hown : ∀ {t e}, P'.data t = some e → e.valid = true ∧ Own h e)
    (hkeep : st ≠ .wr → st.next s i ≠ .idle → P' (s.step i).tuple = P (s.step i).tuple)
    (hwait : s.ch1InsertStall i = true → P s.tuple = none → P' s.tuple = none)
    (hup : ∀ b, ph = .up b → b ≠ .b3 → P' s.ft.pb.ch3DataR.tuple = P s.ft.pb.ch3DataR.tuple) :
    FastInv h (s.step i) (r.apply E) (s.ft.pqIn (s.ftIn i)) P' (if ph = .lk .b1 then P s.ft.pb.lookupTupleB else snap)
      (ph.next s.ft (s.ftIn i)) (st.next s i) where
  ctl := I.ctl.step _
  stage := I.stage.step i
  age := I.age_next hc
  pq := I.pq.step I.legal.protocol I.queue _
  queue := ParaQIn.apply_ok I.legal.protocol I.queue
  legal := I.legal_next hc.2.1
  fatal := I.fatal_next
  rep := hrep
  own hp := hown (by rw [Located.data, hp]; rfl)
  ownE := I.ownQ
  ownQ := I.ownQ_next hc
  head := I.head_next
  insertIdle := I.insertIdle_next hc
  rdw := I.rdw_next hc
  fast := I.fast_next henv hc hkeep hwait
  port := by
    cases hp : ph with
    | arb | filled | updated => simpa only [hp] using I.port_arb henv hc (by rw [hp]; rfl)
    | lookup b => simpa only [hp] using I.port_lookup hc hp
    | fill b => simpa only [hp] using I.port_fill hc hp
    | evic b => simpa only [hp] using I.port_evic hc hp
    | upWait => simpa only [hp] using I.port_upWait henv hp
    | up b => simpa only [hp] using I.port_up hc hp (hup b hp)
    | lkWait => simpa only [hp] using I.port_lkWait hp
    | lk b => simpa only [hp] using I.port_lk hp

theorem data_map1 : (s.map1 i P).data = s.fastOp i P.data := by
  have hw := I.ch1Wren (i := i)
  simp only [FastPath.map1, fastMap, FastPath.fastOp]
  by_cases hacc : (s.dec.ch1Wren && !s.ch1InsertStall i) = true
  swap
  · rw [if_neg hacc]
    exact congrArg _ (if_neg hacc)
  rw [if_pos hacc]
  refine (congrArg _ (if_pos hacc)).trans ?_
  have hst : st = .wr := by
    rw [Bool.and_eq_true] at hacc
    simpa [I.stage.ch1Wren] using hacc.1
  obtain ⟨_, hop⟩ := I.opOk hst (i := i)
  show Located.data (match s.dec.ch1Opcode with | .nop => _ | .insert => _ | .update => _ | .delete => _) = _
  cases hc : s.dec.ch1Opcode with
  | nop => rfl
  | insert => exact Located.data_add P _ _
  | delete => exact Located.data_erase P _
  | update =>
    have hx : (s.ftIn i).ch1Opcode = .update := hc
    rw [hx] at hop
    obtain ⟨_, l, e, hp, _⟩ := hop
    refine (Located.data_set P _ _).trans ?_
    have hd : P.data (s.ftIn i).ch1Data.tuple = some e := by rw [Located.data, hp]; rfl
    rw [hd]
    rfl

theorem data_slowMap (hp : ph = .up .b3) (hown : Own h s.ft.pb.ch3DataR) :
    (slowMap s.ft (s.map1 i P)).data = s.slowOp (s.map1 i P).data := by
  obtain ⟨hfound, hnone⟩ := I.found_update hp
  have hm : s.map1 i P s.ft.pb.ch3DataR.tuple = P s.ft.pb.ch3DataR.tuple := by
    subst hp
    exact I.map1_of_ne fun hst ht => I.port.2.1 (by simp [hst]) ht.symm
  have hS : (s.ft.pb.pState == .slowUpdate && s.ft.rdValidB) = true := by
    rw [I.ctl.pState, I.ctl.rdValidB, hp]
    rfl
  simp only [FastPath.slowOp, hS, if_true]
  cases ho : oneHot? Loc.all s.ft.ch2BitMap with
  | none =>
    have hd : (s.map1 i P).data s.ft.pb.ch3DataR.tuple = none := by rw [Located.data, hm, hnone ho hown]; rfl
    rw [hd, Option.bind_none]
    funext t
    simp only [slowMap, ho, upd]
    split
    · next ht => rw [ht, hd]
    · rfl
  | some l =>
    obtain ⟨⟨e, he, hq⟩, _⟩ := hfound l ho
    have hd : (s.map1 i P).data s.ft.pb.ch3DataR.tuple = some e := by rw [Located.data, hm, he]; rfl
    simp only [slowMap, ho, hd, Option.bind_some, ← hq]
    by_cases hv : s.ft.pb.ch3DataR.valid = true
    · rw [if_pos hv, Located.data_set, hd, occ_of_valid (by exact hv)]
      rfl
    · rw [if_neg hv, Located.data_erase]
      rw [Bool.not_eq_true] at hv
      rw [occ_eq_none.2 (by exact hv)]

theorem slowOp_of_ne (hp : ph ≠ .up .b3) (M : FlowData) : s.slowOp M = M := by
  have hS : (s.ft.pb.pState == .slowUpdate && s.ft.rdValidB) = false := by
    rw [I.ctl.pState, I.ctl.rdValidB]
    rcases ph with _ | _ | _ | ⟨_ | _ | _⟩ | ⟨_ | _ | _⟩ | ⟨_ | _ | _⟩ | _ | ⟨_ | _ | _⟩ | _ | ⟨_ | _ | _⟩ <;>
      simp [Phase.pState, Phase.reads] at hp ⊢
  simp [FastPath.slowOp, hS]

theorem map1_of_not_wr (hst : st ≠ .wr) : s.map1 i P = P := by
  funext t
  exact I.map1_of_ne fun hw => absurd hw hst

omit I in
theorem map1_of_stall (hs : s.ch1InsertStall i = true) : s.map1 i P = P := by
  have hs' : s.ft.ch1InsertStall (s.ftIn i) = true := hs
  simp [FastPath.map1, fastMap, hs']

theorem own_data1 {t : Tuple} {e : Fce} (hd : (s.map1 i P).data t = some e) : e.valid = true ∧ Own h e := by
  obtain ⟨x, hx, rfl⟩ := Option.map_eq_some_iff.1 hd
  exact I.own1 (p := x.1) hx

theorem no_lookup_of_age (hc : s.Clean i) (ha : 4 ≤ ph.minAge) (hst : st ≠ .wr) : st.next s i = .idle := by
  have hage := I.age
  have hr := I.rdenA_false_of_age hc (by omega)
  cases st with
  | wr => exact absurd rfl hst
  | idle => simp [Stage.next, hr]
  | rd1 | rd2 | dec => simp [Stage.age] at hage; omega

theorem next_of_move {P' : FlowMap} (henv : FastEnv h s i) (hc : s.Clean i)
    (hrep : Rep Fce.tuple h (s.viewNext i E r) P') (hd : P'.data = (s.map1 i P).data)
    (hm : P' = s.map1 i P ∨ 4 ≤ ph.minAge) :
    FastInv h (s.step i) (r.apply E) (s.ft.pqIn (s.ftIn i)) P' (if ph = .lk .b1 then P s.ft.pb.lookupTupleB else snap)
      (ph.next s.ft (s.ftIn i)) (st.next s i) := by
  refine I.next_of henv hc hrep (fun hp => I.own_data1 (hd ▸ hp)) (fun hst hn => ?_) (fun hs hp => ?_) fun b hb _ => ?_
  · rcases hm with rfl | ha
    · rw [I.map1_of_not_wr hst]
    · exact absurd (I.no_lookup_of_age hc ha hst) hn
  · have : P'.data s.tuple = none := by rw [hd, map1_of_stall hs, Located.data, hp]; rfl
    exact Option.map_eq_none_iff.1 this
  · rcases hm with rfl | ha
    · subst hb
      exact I.map1_of_ne fun hst ht => I.port.2.1 (by simp [hst]) ht.symm
    · simp [hb, Phase.minAge] at ha

omit I in
theorem slowMap_of_ne {t : Tuple} (ht : t ≠ s.ft.pb.ch3DataR.tuple) : slowMap s.ft P t = P t := by
  unfold slowMap
  cases oneHot? Loc.all s.ft.ch2BitMap with
  | none => rfl
  | some _ => by_cases hv : s.ft.pb.ch3DataR.valid = true <;> simp [hv, ht]

omit I in
theorem slowMap_self :
    slowMap s.ft P s.ft.pb.ch3DataR.tuple = P s.ft.pb.ch3DataR.tuple ∨
      slowMap s.ft P s.ft.pb.ch3DataR.tuple =
        (P s.ft.pb.ch3DataR.tuple).bind fun x => (occ s.ft.slowData).map fun e => (x.1, e) := by
  unfold slowMap
  cases oneHot? Loc.all s.ft.ch2BitMap with
  | none => exact .inl rfl
  | some _ =>
    right
    have hv : s.ft.slowData.valid = s.ft.pb.ch3DataR.valid := rfl
    cases hp : P s.ft.pb.ch3DataR.tuple <;> by_cases hb : s.ft.pb.ch3DataR.valid = true <;> simp [hp, hb, occ, hv]

theorem next_of_update (henv : FastEnv h s i) (hc : s.Clean i) (hp : ph = .up .b3) :
    FastInv h (s.step i) (r.apply E) (s.ft.pqIn (s.ftIn i)) (slowMap s.ft (s.map1 i P)) snap
      (ph.next s.ft (s.ftIn i)) (st.next s i) := by
  have hsnap : (if ph = .lk .b1 then P s.ft.pb.lookupTupleB else snap) = snap := by simp [hp]
  refine hsnap ▸ I.next_of henv hc (I.rep_update hc hp) (fun {t e} hd => ?_) (fun hst hn => ?_) (fun hs hn => ?_)
    fun b hb hb3 => ?_
  · obtain ⟨x, hx, rfl⟩ := Option.map_eq_some_iff.1 hd
    by_cases ht : t = s.ft.pb.ch3DataR.tuple
    · subst ht
      rcases slowMap_self (s := s) (P := s.map1 i P) with h1 | h1
      · exact I.own1 (p := x.1) (h1 ▸ hx)
      · rw [h1, Option.bind_eq_some_iff] at hx
        obtain ⟨y, _, hy⟩ := hx
        obtain ⟨e, he, rfl⟩ := Option.map_eq_some_iff.1 hy
        obtain ⟨hv, rfl⟩ := occ_eq_some.1 he
        subst hp
        exact ⟨hv, I.port.1.own hv⟩
    · rw [slowMap_of_ne ht] at hx
      exact I.own1 (p := x.1) hx
  · have ht : (s.step i).tuple ≠ s.ft.pb.ch3DataR.tuple := by
      subst hp
      exact I.tuple_ne_of_busy hc rfl I.port.2.1 hn
    rw [slowMap_of_ne ht, I.map1_of_not_wr hst]
  · rw [map1_of_stall hs]
    by_cases ht : s.tuple = s.ft.pb.ch3DataR.tuple
    · rw [ht] at hn ⊢
      rcases slowMap_self (s := s) (P := P) with h1 | h1 <;> simp [h1, hn]
    · rw [slowMap_of_ne ht, hn]
  · simp [hp] at hb
    exact absurd hb.symm hb3

theorem step (henv : FastEnv h s i) (hc : s.Clean i) :
    ∃ P', FastInv h (s.step i) (r.apply E) (s.ft.pqIn (s.ftIn i)) P'
        (if ph = .lk .b1 then P s.ft.pb.lookupTupleB else snap) (ph.next s.ft (s.ftIn i)) (st.next s i) ∧
      ((ph = .up .b3 → Own h s.ft.pb.ch3DataR) → P'.data = s.slowOp (s.fastOp i P.data)) := by
  by_cases hup : ph = .up .b3
  · refine ⟨slowMap s.ft (s.map1 i P), ?_, fun hown => ?_⟩
    · simpa [hup] using I.next_of_update henv hc hup
    · rw [I.data_slowMap hup (hown hup), I.data_map1]
  suffices hmove : ∃ P', Rep Fce.tuple h (s.viewNext i E r) P' ∧ P'.data = (s.map1 i P).data ∧
      (P' = s.map1 i P ∨ 4 ≤ ph.minAge) by
    obtain ⟨P', hrep, hd, hm⟩ := hmove
    exact ⟨P', I.next_of_move henv hc hrep hd hm, fun _ => by rw [I.slowOp_of_ne hup, hd, I.data_map1]⟩
  by_cases hd : ph.deques .b1 = true
  · obtain ⟨e, _, _, _, hrep⟩ := I.rep_deque hc hd
    refine ⟨_, hrep, by simp, .inr ?_⟩
    rcases of_decide_eq_true hd with rfl | rfl <;> simp [Phase.minAge]
  by_cases hf : ph = .fill .b3
  · obtain ⟨k, hrep⟩ := I.rep_fill hc hf
    exact ⟨_, hrep, by simp, .inr (by simp [hf, Phase.minAge])⟩
  by_cases he : ph = .evic .b3
  · obtain ⟨k, hrep, _⟩ := I.rep_evic hc he
    exact ⟨_, hrep, by simp, .inr (by simp [he, Phase.minAge])⟩
  · rw [Bool.not_eq_true] at hd
    refine ⟨_, ?_, rfl, .inl rfl⟩
    rw [I.viewNext_quiet hc hd ?_ ?_]
    · exact I.rep1
    · have := (ph.next_beats s.ft (s.ftIn i)).2.2.2.2
      intro hn
      simp [hn, Phase.deques, hf, he] at this
    · intro hn
      rcases ph with _ | _ | _ | ⟨_ | _ | _⟩ | ⟨_ | _ | _⟩ | ⟨_ | _ | _⟩ | _ | ⟨_ | _ | _⟩ | _ | ⟨_ | _ | _⟩ <;>
        simp only [Phase.next] at hn <;> (try split_ifs at hn) <;> simp at hn hup

theorem ch2_result (hp : ph = .lk .b3) : SeesAll snap s.ft.ch2BitMap s.ft.ch2Q := by
  subst hp
  obtain ⟨_, _, hnt, _, h3⟩ := I.port
  obtain ⟨ht, hways, hq⟩ := h3 rfl
  refine seesAll_sel (hnt (by simp)) (fun l => ?_) fun l e ho => ?_
  · cases l with
    | ft k => rw [I.ch2BitMap_ft, ht, hit_iff]; exact exists_congr fun e => hways k e
    | q => rw [I.ch2BitMap_q]; exact hq.1
  · cases l with
    | ft k => rw [I.odataB_ft]; exact (occ_eq_some.1 ((hways k e).2 ho).1).2
    | q => rw [I.odataB_q]; exact hq.2 e ho

end

theorem reset {h : Tuple → Fin 4 → FtAddr} :
    FastInv h .reset [] .idle (fun _ => none) none .arb .idle where
  ctl := .reset
  stage := .reset
  age := by simp [Phase.minAge]
  pq := .reset
  queue := .nil
  legal := .idle []
  fatal := rfl
  rep := by
    have htab : ∀ k a, (FastPath.reset.ft.view [] .idle).tab k a = none := by
      intro k a
      simp [FlowTable.view, FlowTable.words, wr, FastPath.reset, FlowTable.reset, FlowTable.resetPortB,
        FlowTable.resetSubPortB, occ, Fce.zero]
    have hq : (FastPath.reset.ft.view [] .idle).queue = [] := rfl
    have ht : (FastPath.reset.ft.view [] .idle).transit = none := rfl
    constructor <;> simp [htab, hq, ht]
  own := by simp
  ownE := by simp
  ownQ := by simp [ParaQIn.apply, ParaQIn.remain, ParaQIn.inserted, ParaQIn.idle, ParaQIn.isInsert, ParaQIn.isDelete]
  head := by simp [FastPath.reset, FlowTable.reset]
  insertIdle := by simp
  rdw l := by cases l <;> simp [FastPath.reset, FlowTable.reset, FlowTable.resetRdw]
  fast := trivial
  port := trivial

end FastInv

end Pigasus
