import Mathlib.Data.Fintype.Pi
import Pigasus.FastPathInv

/-!
# The fast path keeps its invariant

One edge of the flow table with its decision stage, from the effect of the two
ports on the view to the invariant of the next state.
-/

namespace Pigasus

open Hdl HashStore

theorem fillWay_unique : ∀ {e : Fin 4 → Bool}, (∃ k, e k = true) →
    ∃ k, e k = true ∧ ∀ j, FlowTable.fillWay e j = decide (j = k) := by
  decide

/-! ## Lookups -/

theorem Loc.place_inj {l l' : Loc} (h : l.place = l'.place) : l = l' := by
  cases l <;> cases l' <;> simp_all [Loc.place]

theorem Loc.mem_all (l : Loc) : l ∈ Loc.all := by
  rcases l with k | _
  · revert k; decide
  · decide

theorem Loc.all_nodup : Loc.all.Nodup := by decide

theorem hit_iff {t : Tuple} {d : Fce} : (decide (t = d.tuple) && d.valid) = true ↔ ∃ e, occ d = some e ∧ e.tuple = t := by
  simp only [Bool.and_eq_true, decide_eq_true_eq, occ_eq_some]
  constructor
  · rintro ⟨h1, h2⟩
    exact ⟨d, ⟨h2, rfl⟩, h1.symm⟩
  · rintro ⟨e, ⟨h2, rfl⟩, h1⟩
    exact ⟨h1.symm, h2⟩

theorem foldl_only {f : Loc → Bool} (hf : ∀ l, f l = false) (b : BitMap) :
    Loc.all.foldl (fun b l => if f l then BitMap.only l else b) b = b := by
  simp [Loc.all, hf]

theorem oneHot_sel {o : Found} {b : BitMap} {d : Loc → Fce} (hb : ∀ l, b l = true → ∃ e, o = some (l.place, e) ∧ d l = e)
    {l : Loc} (hl : b l = true) :
    oneHot? Loc.all b = some l ∧ ∃ e, o = some (l.place, e) ∧ FlowTable.sel b d = e := by
  obtain ⟨e, ho, hd⟩ := hb l hl
  have h1 : oneHot? Loc.all b = some l := by
    refine oneHot?_of_unique Loc.all_nodup (Loc.mem_all l) fun l' _ => ⟨fun hl' => ?_, fun h => h ▸ hl⟩
    obtain ⟨e', ho', _⟩ := hb l' hl'
    rw [ho] at ho'
    simp only [Option.some.injEq, Prod.mk.injEq] at ho'
    exact (Loc.place_inj ho'.1).symm
  exact ⟨h1, e, ho, by simp [FlowTable.sel, h1, hd]⟩

theorem seesAll_sel {o : Found} {b : BitMap} {d : Loc → Fce} (ht : ∀ e, o ≠ some (.transit, e))
    (hb : ∀ l, b l = true ↔ ∃ e, o = some (l.place, e)) (hd : ∀ l e, o = some (l.place, e) → d l = e) :
    SeesAll o b (FlowTable.sel b d) := by
  refine ⟨hb, ?_⟩
  match ho : o with
  | none =>
    have hz : isZero Loc.all b = true := isZero_iff.2 fun l _ => by
      rw [← Bool.not_eq_true, hb]
      simp
    simp [FlowTable.sel, oneHot?_of_isZero hz]
  | some (p, e) =>
    obtain ⟨l, rfl⟩ : ∃ l : Loc, p = l.place := by
      cases p with
      | way k => exact ⟨.ft k, rfl⟩
      | queue => exact ⟨.q, rfl⟩
      | transit => exact absurd rfl (ht e)
    obtain ⟨_, e', he', hs⟩ := oneHot_sel (fun l' hl' => ((hb l').1 hl').imp fun e' he' => ⟨he', hd l' e' he'⟩)
      ((hb l).2 ⟨e, rfl⟩)
    simp only [Option.some.injEq, Prod.mk.injEq, true_and] at he'
    simp [hs, he']

theorem SeesAll.miss {o : Found} {b : BitMap} {q : Fce} (hs : SeesAll o b q) (hn : ∀ e, o ≠ some (.transit, e))
    (hz : isZero Loc.all b = true) : o = none := by
  have hz := isZero_iff.1 hz
  match o with
  | none => rfl
  | some (.way k, e) => exact absurd ((hs.1 (.ft k)).2 ⟨e, rfl⟩) (by simp [hz (.ft k) (Loc.mem_all _)])
  | some (.queue, e) => exact absurd ((hs.1 .q).2 ⟨e, rfl⟩) (by simp [hz .q (Loc.mem_all _)])
  | some (.transit, e) => exact absurd rfl (hn e)

theorem SeesAll.hit {o : Found} {b : BitMap} {q : Fce} (hs : SeesAll o b q) (hz : isZero Loc.all b ≠ true) :
    ∃ l e, b l = true ∧ o = some (l.place, e) ∧ q = e := by
  obtain ⟨l, hl⟩ : ∃ l, b l = true := by
    by_contra hno
    exact hz (isZero_iff.2 fun l _ => by simpa using fun hl => hno ⟨l, hl⟩)
  obtain ⟨e, he⟩ := (hs.1 l).1 hl
  exact ⟨l, e, hl, he, by simp [hs.2, he]⟩

/-! ## The two views around an edge -/

def slowMap (s : FlowTable) (P : FlowMap) : FlowMap :=
  match oneHot? Loc.all s.ch2BitMap with
  | some _ => if s.pb.ch3DataR.valid then P.set s.pb.ch3DataR.tuple s.slowData else P.erase s.pb.ch3DataR.tuple
  | none => P

namespace FastPath

abbrev view1 (s : FastPath) (i : FastIn) (E : List Fce) (r : ParaQIn) : FlowStore :=
  fastStore s.ft (s.ftIn i) (s.ft.view E r)

abbrev map1 (s : FastPath) (i : FastIn) (P : FlowMap) : FlowMap := fastMap s.ft (s.ftIn i) P

abbrev viewNext (s : FastPath) (i : FastIn) (E : List Fce) (r : ParaQIn) : FlowStore :=
  (s.step i).ft.view (r.apply E) (s.ft.pqIn (s.ftIn i))

end FastPath

namespace FastInv

section
variable {h : Tuple → Fin 4 → FtAddr} {s : FastPath} {E : List Fce} {r : ParaQIn} {P : FlowMap} {snap : Found}
  {ph : Phase} {st : Stage} (I : FastInv h s E r P snap ph st) {i : FastIn}
include I

/-! ## The stall of port A -/

theorem ch1Wren : (s.ftIn i).ch1Wren = decide (st = .wr) := I.stage.ch1Wren

theorem opOk (hw : st = .wr) : OpOk h P (s.ftIn i).ch1Opcode (s.ftIn i).ch1BitMap (s.ftIn i).ch1Data := by
  have := I.fast
  subst hw
  exact this.2

theorem ch1Data_tuple (hw : st = .wr) : (s.ftIn i).ch1Data.tuple = s.tuple := by
  have := I.fast
  subst hw
  exact this.1

theorem of_rdenA (hc : s.EvictQuiet i) (hr : s.ft.rdenA (s.ftIn i) = true) :
    st = .idle ∧ ph.minAge = 0 ∧ (ph.busy = true → i.m7.tuple ≠ s.ft.pb.ch3DataR.tuple) := by
  refine ⟨I.stage.idle_of_rdenA i hr, ?_, fun hb ht => ?_⟩
  · have hS := I.ctl.pState
    have hf := I.ctl.qDequeDoneR
    have he := hc.2
    simp only [FlowTable.rdenA, FlowTable.ch0RdStall, Bool.and_eq_true, Bool.not_eq_true', Bool.or_eq_false_iff] at hr
    cases ph with
    | lookup b | fill b => simp_all [Phase.pState]
    | filled => simp_all
    | evic b =>
      have := he hS
      simp only [FlowTable.rdenA, FlowTable.ch0RdStall] at this
      simp_all
    | _ => rfl
  · have hb := I.ctl.slowBusy.trans hb
    simp only [FlowTable.rdenA, FlowTable.ch0RdStall, FlowTable.slowConflict, Bool.and_eq_true, Bool.not_eq_true',
      Bool.or_eq_false_iff] at hr
    have := hr.2.2
    simp [hb, FastPath.ftIn, FastPath.ch0Meta, ht] at this
    exact absurd hr.1 (by simp [FastPath.ftIn, this])

theorem wrenB_false (h0 : ph.minAge = 0) (hu : ph ≠ .updated) (k : Fin 4) : (s.ft.pb.ft k).wrenB = false :=
  I.ctl.wrenB (fun hp => by simp [hp, Phase.minAge] at h0) hu k

/-! ## No read during a write -/

theorem rdwA_false (ha : s.NoAlias i) (he : s.EvictQuiet i) (l : Loc) : s.ft.rdwA (s.ftIn i) l = false := by
  rw [← Bool.not_eq_true]
  intro hr
  have hren : s.ft.rdenA (s.ftIn i) = true := by
    cases l <;> simp only [FlowTable.rdwA, Bool.and_eq_true] at hr <;> exact hr.1.1
  obtain ⟨hidle, h0, hbusy⟩ := I.of_rdenA he hren
  -- the only write that can be pending is the one of a slow update
  have hu : ph = .updated := by
    by_contra hu
    cases l with
    | ft k => simp [FlowTable.rdwA, I.wrenB_false h0 hu k] at hr
    | q => simp [FlowTable.rdwA, I.ctl.qWrenB hu] at hr
  subst hu
  obtain ⟨_, hB, hq⟩ := I.port
  cases l with
  | ft k =>
    simp only [FlowTable.rdwA, Bool.and_eq_true, decide_eq_true_eq] at hr
    have hA : FlowTable.addrA (s.ftIn i) k = i.ch0Addr k := by
      rw [FlowTable.addrA, I.ch1Wren, hidle]
      rfl
    exact hbusy rfl (((ha k).1 hren hr.1.2 (hA ▸ hr.2)).trans (hB k hr.1.2))
  | q =>
    simp only [FlowTable.rdwA, Bool.and_eq_true, decide_eq_true_eq] at hr
    have hm : FlowTable.qAddrA (s.ftIn i) = i.m7.tuple := by
      rw [FlowTable.qAddrA, I.ch1Wren, hidle]
      rfl
    exact hbusy rfl (by rw [← hm, hr.2]; exact (hq hr.1.2).2.2)

theorem of_qWrenB (hq : s.ft.pb.qWrenB = true) :
    ph = .updated ∧ s.ft.pb.qDataB.valid = true ∧ s.ft.pb.qDataB.tuple = s.ft.pb.qAddrB ∧
      (st ≠ .idle → s.tuple ≠ s.ft.pb.qAddrB) := by
  have hu : ph = .updated := by
    by_contra hu
    simp [I.ctl.qWrenB hu] at hq
  subst hu
  obtain ⟨hne, _, hB⟩ := I.port
  exact ⟨rfl, (hB hq).1, (hB hq).2.1, (hB hq).2.2 ▸ hne⟩

theorem of_evict (he : s.ft.pb.evict = true) :
    ph = .filled ∧ st = .idle ∧ s.ft.pb.evictData.valid = true ∧ (r.apply E).length < 8 := by
  have hf : ph = .filled := by
    by_contra hf
    simp [I.ctl.evict hf] at he
  subst hf
  exact ⟨rfl, I.port.2 he⟩

theorem queue_found {e : Fce} (he : e ∈ r.apply E) : ∃ e', P e.tuple = some (.queue, e') := by
  refine ⟨s.ft.pendB e, ?_⟩
  rw [← pendB_tuple (fun hq => (I.of_qWrenB hq).2.2.1) e]
  exact I.rep.queue.1 (List.mem_append_left _ (List.mem_map_of_mem he))

theorem wrenA_way {k : Fin 4} (hw : FlowTable.wrenA (s.ftIn i) (.ft k) = true) :
    st = .wr ∧ s.dec.ch1Opcode ≠ .insert ∧ ∃ e, P s.tuple = some (.way k, e) ∧ (s.ftIn i).ch1Data.addr k = h s.tuple k := by
  have hst : st = .wr := by
    have := addrA_of_wrenA hw
    rw [I.ch1Wren] at this
    simpa using this
  obtain ⟨ha, ho⟩ := I.opOk hst (i := i)
  have ht := I.ch1Data_tuple hst (i := i)
  simp only [FlowTable.wrenA, FlowTable.update, Bool.and_eq_true, Bool.or_eq_true, beq_iff_eq] at hw
  refine ⟨hst, ?_, ?_⟩
  · rcases hw.1.2 with h' | h' <;> simp only [FastPath.ftIn] at h' <;> simp [h']
  · rcases hw.1.2 with h' | h' <;> rw [h'] at ho <;> obtain ⟨_, l, e, hp, hb⟩ := ho
    all_goals
      have hl : Loc.ft k = l := by simpa [hb] using hw.2
      subst hl
      exact ⟨e, ht ▸ hp, by rw [ha, ht]⟩

theorem wrenA_queue (hw : FlowTable.wrenA (s.ftIn i) .q = true) :
    st = .wr ∧ s.dec.ch1Opcode ≠ .insert ∧ ∃ e, P s.tuple = some (.queue, e) := by
  have hst : st = .wr := by
    have := addrA_of_wrenA hw
    rw [I.ch1Wren] at this
    simpa using this
  obtain ⟨ha, ho⟩ := I.opOk hst (i := i)
  have ht := I.ch1Data_tuple hst (i := i)
  simp only [FlowTable.wrenA, Bool.and_eq_true, beq_iff_eq] at hw
  rw [hw.1.2] at ho
  obtain ⟨_, l, e, hp, hb⟩ := ho
  have hl : Loc.q = l := by simpa [hb] using hw.2
  subst hl
  refine ⟨hst, ?_, e, ht ▸ hp⟩
  have := hw.1.2
  simp only [FastPath.ftIn] at this
  simp [this]

theorem rdwB_queue : s.ft.rdwB (s.ftIn i) .q = false := by
  rw [← Bool.not_eq_true]
  intro hr
  simp only [FlowTable.rdwB, Bool.and_eq_true, decide_eq_true_eq, I.ctl.qRdenB] at hr
  obtain ⟨hst, hins, _⟩ := I.wrenA_queue hr.1.2
  have hA : FlowTable.qAddrA (s.ftIn i) = s.tuple := by
    rw [FlowTable.qAddrA, I.ch1Wren, hst]
    exact I.ch1Data_tuple hst (i := i)
  have hport := I.port
  unfold Phase.slowReads at hr
  simp only [decide_eq_true_eq] at hr
  obtain ⟨⟨rfl | rfl, _⟩, hB⟩ := hr
  · obtain ⟨ht3, hne, _⟩ := hport
    exact hne (by simp [hst]) (by rw [← hA, ← hB, ht3.qAddr])
  · obtain ⟨ht2, hne, _⟩ := hport
    exact (hne rfl hst).elim (· (by rw [← hA, ← hB, ht2.qAddr])) hins

theorem rdwB_false (hn : s.NoAlias i) (l : Loc) : s.ft.rdwB (s.ftIn i) l = false := by
  rw [← Bool.not_eq_true]
  intro hr
  have hS := I.ctl.pState
  cases l with
  | ft k =>
    simp only [FlowTable.rdwB, Bool.and_eq_true, decide_eq_true_eq] at hr
    obtain ⟨hst, hins, e, hp, _⟩ := I.wrenA_way hr.1.2
    have ha : FlowTable.addrA (s.ftIn i) k = s.dec.ch1Data.addr k := by
      rw [FlowTable.addrA, I.ch1Wren, hst]
      rfl
    have hB := (hn k).2 hr.1.2 hr.1.1 (by rw [← ha, hr.2])
    rw [I.ctl.rdenB k] at hr
    have ht : s.dec.ch1Data.tuple = s.tuple := I.ch1Data_tuple hst (i := i)
    have hport := I.port
    unfold Phase.reads at hr
    simp only [decide_eq_true_eq] at hr
    obtain ⟨⟨rfl | rfl | rfl, _⟩, _⟩ := hr
    · -- the head of the queue would also be in the sub-table
      obtain ⟨⟨x, q, hx, _⟩, _⟩ := hport
      simp only [FastPath.tupleB, hS, Phase.pState, if_true, ht, (I.pq.stage_zero I.legal.protocol I.queue hx).2] at hB
      obtain ⟨x', hx'⟩ := I.queue_found (e := x) (by simp [hx])
      rw [hB, hx'] at hp
      simp at hp
    · obtain ⟨ht3, hne, _⟩ := hport
      simp only [FastPath.tupleB, hS, Phase.pState, reduceCtorEq, if_false, ht, ht3.lookupTuple] at hB
      exact hne (by simp [hst]) hB
    · obtain ⟨_, hne, _⟩ := hport
      simp only [FastPath.tupleB, hS, Phase.pState, reduceCtorEq, if_false, ht] at hB
      exact (hne rfl hst).elim (· hB) hins
  | q =>
    rw [I.rdwB_queue] at hr
    cases hr

/-! ## The request to the queue -/

theorem deque_ne_nil (hd : s.ft.pb.qDequeEn = true) : FastPath.HeadAt h s.ft.pb (r.apply E) := by
  rw [I.ctl.qDequeEn] at hd
  have hport := I.port
  unfold Phase.deques at hd
  simp only [decide_eq_true_eq] at hd
  rcases hd with rfl | rfl <;> exact hport.1

theorem length_apply_lt (hst : st ≠ .idle) (hf : s.ft.pq.full = false) : (r.apply E).length < 8 := by
  have hn : r.isInsert = false := by
    rw [← Bool.not_eq_true]
    exact fun hi => hst (I.insertIdle hi)
  rw [I.pq.full I.queue] at hf
  have := I.queue.len
  have := (ParaQIn.remain_sublist (r := r) E).length_le
  simp only [decide_eq_false_iff_not] at hf
  simp only [ParaQIn.apply, ParaQIn.inserted, hn, Bool.false_eq_true, if_false, List.append_nil, List.length_map]
  omega

theorem evicted_fresh (he : s.ft.pb.evict = true) {e : Fce} (hm : e ∈ r.apply E) : s.ft.pb.evictData.tuple ≠ e.tuple := by
  have hn := I.rep.nodup
  simp only [FlowTable.view, FlowTable.evicted, he, if_true, List.map_append] at hn
  intro ht
  refine List.disjoint_of_nodup_append hn (a := e.tuple) ?_ (by simp [ht])
  rw [List.map_map]
  refine List.mem_map.2 ⟨e, hm, pendB_tuple (fun hq => (I.of_qWrenB hq).2.2.1) e⟩

theorem of_insert (hi : FlowTable.insert (s.ftIn i) = true) :
    st = .wr ∧ P s.tuple = none ∧ s.dec.ch1Data.valid = true ∧ s.dec.ch1Data.tuple = s.tuple := by
  simp only [FlowTable.insert, Bool.and_eq_true, beq_iff_eq, I.ch1Wren, decide_eq_true_eq] at hi
  obtain ⟨_, ho⟩ := I.opOk hi.1.1 (i := i)
  have ht := I.ch1Data_tuple hi.1.1 (i := i)
  rw [hi.2] at ho
  exact ⟨hi.1.1, ht ▸ ho.2.1, ho.1, ht⟩

theorem legal_next (hk : s.HeadKept i) : Legal (r.apply E) (s.ft.pqIn (s.ftIn i)) where
  writeA hw := by
    have hw' : FlowTable.wrenA (s.ftIn i) .q = true := hw
    obtain ⟨hst, _, _⟩ := I.wrenA_queue hw'
    have hren : s.ft.rdenA (s.ftIn i) = false := by
      rw [← Bool.not_eq_true]
      intro hr
      simp [I.stage.idle_of_rdenA i hr] at hst
    obtain ⟨_, ho⟩ := I.opOk hst (i := i)
    simp only [FlowTable.wrenA, Bool.and_eq_true, beq_iff_eq] at hw'
    rw [hw'.1.2] at ho
    refine ⟨ho.1, ?_, hren⟩
    simp [FlowTable.pqIn, FlowTable.qAddrA, hw'.1.1]
  writeB hw := ⟨(I.of_qWrenB hw).2.1, (I.of_qWrenB hw).2.2.1⟩
  disjoint hw hB ha := by
    obtain ⟨hst, _, _⟩ := I.wrenA_queue (i := i) hw
    have hA : FlowTable.qAddrA (s.ftIn i) = s.tuple := by
      rw [FlowTable.qAddrA, I.ch1Wren, hst]
      exact I.ch1Data_tuple hst (i := i)
    exfalso
    rcases Bool.or_eq_true_iff.1 hB with hB | hB
    · have hr : s.ft.pb.qRdenB = true := hB
      have := I.rdwB_queue (i := i)
      simp [FlowTable.rdwB, hr, show FlowTable.wrenA (s.ftIn i) .q = true from hw,
        show s.ft.pb.qAddrB = FlowTable.qAddrA (s.ftIn i) from ha.symm] at this
    · exact (I.of_qWrenB hB).2.2.2 (by simp [hst]) (hA ▸ ha)
  valid hi := by
    by_cases he : s.ft.pb.evict = true
    · simp [FlowTable.pqIn, FlowTable.qOpData, he, (I.of_evict he).2.2.1]
    · rw [Bool.not_eq_true] at he
      rw [isInsert_pqIn he, Bool.and_eq_true] at hi
      rw [opData_pqIn he]
      exact (I.of_insert hi.1).2.2.1
  fresh hi e hm := by
    by_cases he : s.ft.pb.evict = true
    · simpa [FlowTable.pqIn, FlowTable.qOpData, he] using I.evicted_fresh he hm
    · rw [Bool.not_eq_true] at he
      rw [isInsert_pqIn he, Bool.and_eq_true] at hi
      rw [opData_pqIn he]
      obtain ⟨_, hn, _, ht⟩ := I.of_insert hi.1
      obtain ⟨e', he'⟩ := I.queue_found hm
      intro heq
      rw [← heq, show (s.ftIn i).ch1Data.tuple = s.tuple from ht, hn] at he'
      simp at he'
  room hi := by
    left
    by_cases he : s.ft.pb.evict = true
    · exact (I.of_evict he).2.2.2
    · rw [Bool.not_eq_true] at he
      rw [isInsert_pqIn he, Bool.and_eq_true, Bool.not_eq_true'] at hi
      exact I.length_apply_lt (by simp [(I.of_insert hi.1).1]) hi.2
  deque hd := by
    obtain ⟨e, q, hq, _⟩ := I.deque_ne_nil hd
    simp [hq]
  dequeDelete hd hdel := by
    exfalso
    have hd : s.ft.pb.qDequeEn = true := hd
    have he : s.ft.pb.evict = false := by
      refine I.ctl.evict fun hf => ?_
      have := I.ctl.qDequeEn
      rw [hd, hf] at this
      simp [Phase.deques] at this
    rw [isDelete_pqIn he] at hdel
    simpa [hd] using (hk.1 hdel).1

/-! ## The view after the edge -/

theorem rep1 : Rep Fce.tuple h (s.view1 i E r) (s.map1 i P) :=
  rep_fast I.rep fun hw => I.opOk (by simpa [I.ch1Wren] using hw)

theorem own1 {t : Tuple} {p : Place (Fin 4)} {e : Fce} (hp : s.map1 i P t = some (p, e)) : e.valid = true ∧ Own h e := by
  unfold FastPath.map1 fastMap at hp
  split at hp
  · next hw =>
    rw [Bool.and_eq_true, I.ch1Wren, decide_eq_true_eq] at hw
    obtain ⟨ha, ho⟩ := I.opOk hw.1 (i := i)
    cases hop : (s.ftIn i).ch1Opcode with
    | nop => simp [hop] at ho
    | insert =>
      rw [hop] at ho hp
      by_cases ht : t = (s.ftIn i).ch1Data.tuple
      · subst ht
        simp only [Located.add_self, Option.some.injEq, Prod.mk.injEq] at hp
        exact hp.2 ▸ ⟨ho.1, ha⟩
      · simp only [Located.add_of_ne _ _ ht] at hp
        exact I.own hp
    | update =>
      rw [hop] at ho hp
      by_cases ht : t = (s.ftIn i).ch1Data.tuple
      · subst ht
        simp only [Located.set_self, Option.map_eq_some_iff, Prod.mk.injEq] at hp
        obtain ⟨_, _, _, rfl⟩ := hp
        exact ⟨ho.1, ha⟩
      · simp only [Located.set_of_ne _ _ ht] at hp
        exact I.own hp
    | delete =>
      rw [hop] at hp
      by_cases ht : t = (s.ftIn i).ch1Data.tuple
      · subst ht; simp at hp
      · simp only [Located.erase_of_ne _ ht] at hp
        exact I.own hp
  · exact I.own hp

theorem map1_of_ne {t : Tuple} (ht : st = .wr → t ≠ s.tuple) : s.map1 i P t = P t := by
  unfold FastPath.map1 fastMap
  split
  · next hw =>
    rw [Bool.and_eq_true, I.ch1Wren, decide_eq_true_eq] at hw
    have hne : t ≠ (s.ftIn i).ch1Data.tuple := I.ch1Data_tuple hw.1 (i := i) ▸ ht hw.1
    cases (s.ftIn i).ch1Opcode <;> simp [hne]
  · rfl

theorem mem_next (k : Fin 4) (a : FtAddr) : occ ((s.ft.ramStep (s.ftIn i) k).mem a) = (s.view1 i E r).tab k a := by
  refine words_step k (fun hA hB ha => ?_) a
  obtain ⟨hst, hins, e, hp, hk⟩ := I.wrenA_way hA
  have hport := I.port
  have hph : ph = .filled ∨ ph = .updated := by
    by_contra hn
    rw [not_or] at hn
    simp [I.ctl.wrenB hn.1 hn.2 k] at hB
  rcases hph with rfl | rfl
  · exact hins (hport.1 hst)
  · -- both ports would write the word of the same flow
    have hs := I.rep.tab_hash hp
    rw [← hk, ← ha] at hs
    simp only [FlowTable.view, FlowTable.words, wr_apply, hB, and_self, if_true, occ_eq_some] at hs
    refine hport.1 (by simp [hst]) ?_
    rw [← hport.2.1 k hB, hs.2, I.rep.keyed hp]

theorem viewNext_tab (k : Fin 4) (a : FtAddr) :
    (s.viewNext i E r).tab k a =
      if ((s.step i).ft.pb.ft k).wrenB = true ∧ a = ((s.step i).ft.pb.ft k).addrB
        then occ ((s.step i).ft.pb.ft k).dataB else (s.view1 i E r).tab k a := by
  have hm : ((s.step i).ft.ram k).mem = (s.ft.ramStep (s.ftIn i) k).mem := by
    simp [FastPath.step, FlowTable.step]
  rw [← I.mem_next k a]
  simp only [FlowTable.view, FlowTable.words, wr_apply, hm]
  split <;> rfl

theorem evict_false_of_deque (hd : s.ft.pb.qDequeEn = true) : s.ft.pb.evict = false := by
  refine I.ctl.evict fun hf => ?_
  have := I.ctl.qDequeEn
  rw [hd, hf] at this
  simp [Phase.deques] at this

theorem queue_next (hc : s.Clean i) :
    (s.ft.pqIn (s.ftIn i)).apply (r.apply E) =
      if s.ft.pb.qDequeEn then (s.view1 i E r).queue.tail else (s.view1 i E r).queue := by
  by_cases he : s.ft.pb.evict = true
  · obtain ⟨rfl, hst, _, _⟩ := I.of_evict he
    have hw : (s.ftIn i).ch1Wren = false := by simp [I.ch1Wren, hst]
    have hB : s.ft.pb.qWrenB = false := I.ctl.qWrenB (by simp)
    have hd : s.ft.pb.qDequeEn = false := I.ctl.qDequeEn
    have hp := pendB_id hB
    rw [apply_pqIn_evict s.ft (s.ftIn i) he hw hB hd, FastPath.view1, fastStore_of_not_wren hw]
    simp [hd, FlowTable.view, hp, FlowTable.evicted, he]
  · rw [Bool.not_eq_true] at he
    refine apply_pqIn he (fun hq => (I.of_qWrenB hq).2.2.1) ?_ fun hd => ⟨?_, ?_⟩
    · simp [FlowTable.view, FlowTable.evicted, he]
    · obtain ⟨e, q, hq, _⟩ := I.deque_ne_nil hd
      simp [hq]
    · rw [← Bool.not_eq_true]
      intro hdel
      simpa [hd] using (hc.2.1.1 hdel).1

theorem transit_next (hd : s.ft.pb.qDequeEn = false) (hdone : s.ft.pq.dequeDone = false) :
    (s.viewNext i E r).transit = (s.ft.view E r).transit := by
  have hdq : (s.ft.pqIn (s.ftIn i)).dequeEn = false := hd
  have hdn : (s.step i).ft.pq.dequeDone = r.dequeEn := I.pq.deque
  simp only [FlowTable.view, hdq, hdone, hdn, Bool.false_eq_true, if_false]
  split
  · next hr =>
    cases hE : E with
    | nil => exact absurd hE (I.legal.deque hr)
    | cons e q =>
      have : (s.step i).ft.pq.dequeData = r.write e := I.pq.dequeData_of_deque (s.ft.pqIn (s.ftIn i)) hE hr
      simp [this]
  · rfl

theorem viewNext_queue (hc : s.Clean i) (hd : s.ft.pb.qDequeEn = false) (he : (s.step i).ft.pb.evict = false) :
    (s.viewNext i E r).queue = (s.view1 i E r).queue.map (s.step i).ft.pendB := by
  have := I.queue_next hc
  rw [hd] at this
  simp only [FlowTable.view, FlowTable.evicted, he, this]
  simp

theorem viewNext_quiet (hc : s.Clean i) (hd : ph.deques .b1 = false)
    (hf : ph.next s.ft (s.ftIn i) ≠ .filled) (hu : ph.next s.ft (s.ftIn i) ≠ .updated) : s.viewNext i E r = s.view1 i E r := by
  have hctl : Ctl (s.step i).ft (ph.next s.ft (s.ftIn i)) := I.ctl.step (s.ftIn i)
  have hdq : s.ft.pb.qDequeEn = false := I.ctl.qDequeEn.trans hd
  have hdn : s.ft.pq.dequeDone = false := by
    have hb := (ph.next_beats s.ft (s.ftIn i)).2.2.2.2
    rw [I.ctl.dequeDone, ← hb]
    simp [hf]
  have hp := pendB_id (hctl.qWrenB hu)
  have htab : (s.viewNext i E r).tab = (s.view1 i E r).tab := by
    funext k a
    rw [I.viewNext_tab, hctl.wrenB hf hu k]
    simp
  have hq : (s.viewNext i E r).queue = (s.view1 i E r).queue := by
    rw [I.viewNext_queue hc hdq (hctl.evict hf), hp, List.map_id]
  have ht : (s.viewNext i E r).transit = (s.view1 i E r).transit := I.transit_next hdq hdn
  exact Store.ext htab hq ht

theorem tab1_empty {k : Fin 4} {a : FtAddr} (he : (s.ft.view E r).tab k a = none) : (s.view1 i E r).tab k a = none := by
  show (if _ then _ else _) = _
  split
  · next hA =>
    obtain ⟨_, _, e, hp, hk⟩ := I.wrenA_way hA.1
    have := I.rep.tab_hash hp
    rw [← hk, ← hA.2, he] at this
    simp at this
  · exact he

theorem transit_none (hd2 : ph.deques .b2 = false) (hd3 : ph.deques .b3 = false) : (s.ft.view E r).transit = none := by
  have h2 : r.dequeEn = false := I.pq.deque.symm.trans (I.ctl.dequeEnR.trans hd2)
  have h3 : s.ft.pq.dequeDone = false := I.ctl.dequeDone.trans hd3
  simp [FlowTable.view, h2, h3]

theorem rep_deque (hc : s.Clean i) (hd : ph.deques .b1 = true) :
    ∃ e, FastPath.At h s.ft.pb e.tuple ∧ (s.viewNext i E r).transit = some e ∧
      (s.viewNext i E r).tab = (s.view1 i E r).tab ∧
      Rep Fce.tuple h (s.viewNext i E r) ((s.map1 i P).move e.tuple .transit) := by
  have hctl : Ctl (s.step i).ft (ph.next s.ft (s.ftIn i)) := I.ctl.step (s.ftIn i)
  have hdq : s.ft.pb.qDequeEn = true := I.ctl.qDequeEn.trans hd
  have hb : ph = .fill .b1 ∨ ph = .evic .b1 := by simpa [Phase.deques] using hd
  have hn : ph.next s.ft (s.ftIn i) ≠ .filled ∧ ph.next s.ft (s.ftIn i) ≠ .updated := by
    rcases hb with rfl | rfl <;> simp [Phase.next]
  have hev := I.evict_false_of_deque hdq
  have hdel : FlowTable.delete (s.ftIn i) = false := by
    rw [← Bool.not_eq_true]
    intro hdel
    simpa [hdq] using (hc.2.1.1 hdel).1
  obtain ⟨x, xs, hx, hat⟩ := I.deque_ne_nil hdq
  have hq1 : (s.view1 i E r).queue =
      (r.apply E).map (s.ft.pqIn (s.ftIn i)).write ++ (s.ft.pqIn (s.ftIn i)).inserted :=
    fastStore_queue hev (fun hq => (I.of_qWrenB hq).2.2.1) (by simp [FlowTable.view, FlowTable.evicted, hev]) hdel
  rw [hx, List.map_cons, List.cons_append] at hq1
  have htab : (s.viewNext i E r).tab = (s.view1 i E r).tab := by
    funext k a
    rw [I.viewNext_tab, hctl.wrenB hn.1 hn.2 k]
    simp
  have hq : (s.viewNext i E r).queue = (s.view1 i E r).queue.tail := by
    have hp := pendB_id (hctl.qWrenB hn.2)
    have := I.queue_next hc
    rw [hdq] at this
    simp only [FlowTable.view, hp, FlowTable.evicted, hctl.evict hn.1, List.map_id, this]
    simp
  have ht : (s.viewNext i E r).transit = some ((s.ft.pqIn (s.ftIn i)).write x) := by
    have : (s.ft.pqIn (s.ftIn i)).dequeEn = true := hdq
    simp [FlowTable.view, this, hx]
  have ht0 : (s.view1 i E r).transit = none := by
    show (s.ft.view E r).transit = none
    refine I.transit_none ?_ ?_ <;> rcases hb with rfl | rfl <;> rfl
  refine ⟨(s.ft.pqIn (s.ftIn i)).write x, ?_, ht, htab, ?_⟩
  · rw [ParaQIn.write_tuple (I.legal_next hc.2.1)]
    exact hat
  · have hrep := I.rep1.deque hq1 ht0
    have heq : s.viewNext i E r =
        { s.view1 i E r with
          queue := xs.map (s.ft.pqIn (s.ftIn i)).write ++ (s.ft.pqIn (s.ftIn i)).inserted
          transit := some ((s.ft.pqIn (s.ftIn i)).write x) } :=
      Store.ext htab (by rw [hq, hq1]; rfl) ht
    rw [heq]
    exact hrep

theorem transit_b3 (hd3 : ph.deques .b3 = true) : (s.ft.view E r).transit = some s.ft.pq.dequeData := by
  have h2 : r.dequeEn = false := by
    rw [← I.pq.deque, I.ctl.dequeEnR]
    simp only [Phase.deques, decide_eq_true_eq, decide_eq_false_iff_not] at hd3 ⊢
    rcases hd3 with rfl | rfl <;> simp
  have h3 : s.ft.pq.dequeDone = true := I.ctl.dequeDone.trans hd3
  simp [FlowTable.view, h2, h3]

theorem viewNext_transit_none (hd1 : ph.deques .b1 = false) (hd2 : ph.deques .b2 = false) :
    (s.viewNext i E r).transit = none := by
  have h1 : (s.ft.pqIn (s.ftIn i)).dequeEn = false := I.ctl.qDequeEn.trans hd1
  have h2 : (s.step i).ft.pq.dequeDone = false := I.ctl.dequeEnR.trans hd2
  simp [FlowTable.view, h1, h2]

theorem tab_placed {k : Fin 4} {e : Fce} (hv : e.valid = true) (hat : FastPath.At h s.ft.pb e.tuple)
    (hw : ∀ j, ((s.step i).ft.pb.ft j).wrenB = decide (j = k) ∧
      ((s.step i).ft.pb.ft j).addrB = (s.ft.pb.ft j).addrB ∧ ((s.step i).ft.pb.ft j).dataB = e) :
    (s.viewNext i E r).tab = ((s.view1 i E r).put k (h e.tuple k) (some e)).tab := by
  funext j a
  obtain ⟨h1, h2, h3⟩ := hw j
  rw [I.viewNext_tab, h1, h2, h3, hat j, occ_of_valid hv]
  simp only [decide_eq_true_eq, Store.put]
  by_cases hj : j = k
  · subst hj; simp
  · simp [hj]

theorem rep_fill (hc : s.Clean i) (hp : ph = .fill .b3) :
    ∃ k, Rep Fce.tuple h (s.viewNext i E r) ((s.map1 i P).move s.ft.pq.dequeData.tuple (.way k)) := by
  subst hp
  obtain ⟨⟨e, he, hat⟩, _, hex, hempty⟩ := I.port
  have ht := I.transit_b3 rfl
  have hee : s.ft.pq.dequeData = e := by simpa [ht] using he
  subst hee
  obtain ⟨k, hk, huniq⟩ := fillWay_unique hex
  have hpb : (s.step i).ft.pb = s.ft.fillStep := I.ctl.pb_step (s.ftIn i)
  have hdone : s.ft.pq.dequeDone = true := I.ctl.dequeDone
  have hwB : ∀ j, (s.ft.pb.ft j).wrenB = false := I.ctl.wrenB (by simp) (by simp)
  have hdq : s.ft.pb.qDequeEn = false := I.ctl.qDequeEn
  have hval := (I.own (I.rep.transit.1 ht)).1
  have htab : (s.viewNext i E r).tab =
      ((s.view1 i E r).put k (h s.ft.pq.dequeData.tuple k) (some s.ft.pq.dequeData)).tab := by
    refine I.tab_placed hval hat fun j => ?_
    simp [hpb, FlowTable.fillStep, hdone, huniq, hwB]
  have hq : (s.viewNext i E r).queue = (s.view1 i E r).queue := by
    have hqw : (s.step i).ft.pb.qWrenB = false := by
      rw [hpb]
      simpa [FlowTable.fillStep, hdone] using I.ctl.qWrenB (by simp)
    have hev : (s.step i).ft.pb.evict = false := by
      rw [hpb]
      simpa [FlowTable.fillStep, hdone] using I.ctl.evict (by simp)
    have hp := pendB_id hqw
    rw [I.viewNext_queue hc hdq hev, hp, List.map_id]
  refine ⟨k, ?_⟩
  have hs0 : (s.view1 i E r).tab k (h s.ft.pq.dequeData.tuple k) = none := by
    refine I.tab1_empty ?_
    rw [← hat k]
    exact hempty k hk
  have hrep := I.rep1.place (k := k) (e := s.ft.pq.dequeData) ht hs0
  have heq : s.viewNext i E r =
      { (s.view1 i E r).put k (h s.ft.pq.dequeData.tuple k) (some s.ft.pq.dequeData) with transit := none } :=
    Store.ext htab hq (I.viewNext_transit_none rfl rfl)
  rw [heq]
  exact hrep

theorem rep_evic (hc : s.Clean i) (hp : ph = .evic .b3) :
    ∃ k, Rep Fce.tuple h (s.viewNext i E r)
      (((s.map1 i P).move (s.ft.pb.ft k).qBR.tuple .queue).move s.ft.pq.dequeData.tuple (.way k)) ∧
      occ (s.ft.pb.ft k).qBR = some (s.ft.pb.ft k).qBR ∧ (s.step i).ft.pb.evictData = (s.ft.pb.ft k).qBR := by
  subst hp
  obtain ⟨⟨⟨e, he, hat⟩, _⟩, hways⟩ := I.port
  have ht := I.transit_b3 rfl
  have hee : s.ft.pq.dequeData = e := by simpa [ht] using he
  subst hee
  have hst : st = .idle := by
    have := I.age
    cases st <;> simp [Phase.minAge, Stage.age] at this ⊢
  have hw : (s.ftIn i).ch1Wren = false := by simp [I.ch1Wren, hst]
  have hpb : (s.step i).ft.pb = s.ft.evicStep := I.ctl.pb_step (s.ftIn i)
  have hdone : s.ft.pq.dequeDone = true := I.ctl.dequeDone
  have hwB : ∀ j, (s.ft.pb.ft j).wrenB = false := I.ctl.wrenB (by simp) (by simp)
  have hdq : s.ft.pb.qDequeEn = false := I.ctl.qDequeEn
  have hval := (I.own (I.rep.transit.1 ht)).1
  have h1 : s.view1 i E r = s.ft.view E r := fastStore_of_not_wren hw _
  generalize hk : s.ft.random.toFin = k
  have hv := hways k
  have hocc : occ (s.ft.pb.ft k).qBR = some (s.ft.pb.ft k).qBR := by
    rw [occ_eq_some] at hv
    exact occ_of_valid (hv.2 ▸ hv.1)
  have htab : (s.viewNext i E r).tab =
      ((s.view1 i E r).put k (h s.ft.pq.dequeData.tuple k) (some s.ft.pq.dequeData)).tab := by
    refine I.tab_placed hval hat fun j => ?_
    simp [hpb, FlowTable.evicStep, hdone, hwB, hk]
  have hq : (s.viewNext i E r).queue = (s.view1 i E r).queue ++ [(s.ft.pb.ft k).qBR] := by
    have hqw : (s.step i).ft.pb.qWrenB = false := by
      rw [hpb]
      simpa [FlowTable.evicStep, hdone] using I.ctl.qWrenB (by simp)
    have hp := pendB_id hqw
    have := I.queue_next hc
    rw [hdq] at this
    simp only [FlowTable.view, hp, FlowTable.evicted, List.map_id, this, hpb]
    simp [FlowTable.evicStep, hdone, hk]
  refine ⟨k, ?_, hocc, ?_⟩
  · have hs0 : (s.view1 i E r).tab k (h s.ft.pq.dequeData.tuple k) = some (s.ft.pb.ft k).qBR := by
      rw [h1, ← hat k]
      exact hv
    have hrep := I.rep1.swap (k := k) (e := s.ft.pq.dequeData) ht hs0
    have heq : s.viewNext i E r =
        { (s.view1 i E r).put k (h s.ft.pq.dequeData.tuple k) (some s.ft.pq.dequeData) with
          queue := (s.view1 i E r).queue ++ [(s.ft.pb.ft k).qBR], transit := none } :=
      Store.ext htab hq (I.viewNext_transit_none rfl rfl)
    rw [heq]
    exact hrep
  · rw [hpb]
    simp [FlowTable.evicStep, hdone, hk]

theorem ch2BitMap_eq : s.ft.ch2BitMap = s.ft.ftHitB := foldl_only (fun l => (I.rdw l).2.2.2) _

theorem ch2BitMap_ft (k : Fin 4) :
    s.ft.ch2BitMap (.ft k) = (decide (s.ft.lookupTupleBR2 = (s.ft.ram k).b.q.tuple) && (s.ft.ram k).b.q.valid) := by
  rw [I.ch2BitMap_eq]
  simp [FlowTable.ftHitB, PerLoc.get]

theorem ch2BitMap_q : s.ft.ch2BitMap .q = s.ft.pq.rdHitB := by
  rw [I.ch2BitMap_eq]
  rfl

theorem odataB_ft (k : Fin 4) : s.ft.odataB (.ft k) = (s.ft.ram k).b.q := by
  simp [FlowTable.odataB, (I.rdw (.ft k)).2.2.2]

theorem odataB_q : s.ft.odataB .q = s.ft.pq.qB := by
  simp [FlowTable.odataB, (I.rdw .q).2.2.2]

theorem found_update (hp : ph = .up .b3) :
    (∀ l, oneHot? Loc.all s.ft.ch2BitMap = some l →
      (∃ e, P s.ft.pb.ch3DataR.tuple = some (l.place, e) ∧ s.ft.ch2Q = e) ∧
        ∀ k, l = .ft k → (s.ft.pb.ft k).addrB = h s.ft.pb.ch3DataR.tuple k) ∧
    (oneHot? Loc.all s.ft.ch2BitMap = none → Own h s.ft.pb.ch3DataR → P s.ft.pb.ch3DataR.tuple = none) := by
  subst hp
  obtain ⟨htk, _, _, h3⟩ := I.port
  obtain ⟨ht, hways, hq⟩ := h3 rfl
  have hb : ∀ l, s.ft.ch2BitMap l = true →
      ∃ e, P s.ft.pb.ch3DataR.tuple = some (l.place, e) ∧ s.ft.odataB l = e := by
    intro l hl
    cases l with
    | ft k =>
      rw [I.ch2BitMap_ft, ht] at hl
      obtain ⟨e, he, het⟩ := hit_iff.1 hl
      exact ⟨e, ((hways k).1 e he het).1, by rw [I.odataB_ft]; exact (occ_eq_some.1 he).2⟩
    | q =>
      rw [I.ch2BitMap_q] at hl
      obtain ⟨e, he⟩ := hq.1.1 hl
      exact ⟨e, he, by rw [I.odataB_q]; exact hq.2 e he⟩
  refine ⟨fun l hl => ?_, fun hnone hown => ?_⟩
  · have hl' := (oneHot?_eq_some hl).2.1
    refine ⟨(oneHot_sel hb hl').2, ?_⟩
    rintro k rfl
    rw [I.ch2BitMap_ft, ht] at hl'
    obtain ⟨e, he, het⟩ := hit_iff.1 hl'
    exact ((hways k).1 e he het).2
  · -- every location that could hold the flow was read
    have hz : ∀ l, ¬ s.ft.ch2BitMap l = true := by
      intro l hl
      simp [(oneHot_sel hb hl).1] at hnone
    match ho : P s.ft.pb.ch3DataR.tuple with
    | none => rfl
    | some (.way k, e) =>
      have he := (hways k).2 ((htk.addr k).trans (hown k)) e ho
      refine absurd ?_ (hz (.ft k))
      rw [I.ch2BitMap_ft, ht]
      exact hit_iff.2 ⟨e, he, I.rep.keyed ho⟩
    | some (.queue, e) =>
      refine absurd ?_ (hz .q)
      rw [I.ch2BitMap_q]
      exact hq.1.2 ⟨e, ho⟩
    | some (.transit, e) => exact absurd ho (I.rep.not_transit (I.transit_none rfl rfl))

theorem rep_update (hc : s.Clean i) (hp : ph = .up .b3) :
    Rep Fce.tuple h (s.viewNext i E r) (slowMap s.ft (s.map1 i P)) := by
  have hfound := (I.found_update hp).1
  subst hp
  obtain ⟨htk, hne, _, h3⟩ := I.port
  have hpb : (s.step i).ft.pb = s.ft.slowUpdateStep := I.ctl.pb_step (s.ftIn i)
  have hv : s.ft.rdValidB = true := I.ctl.rdValidB
  have hdq : s.ft.pb.qDequeEn = false := I.ctl.qDequeEn
  have hev : (s.step i).ft.pb.evict = false := by
    rw [hpb]
    exact I.ctl.evict (by simp)
  have h1 : s.map1 i P s.ft.pb.ch3DataR.tuple = P s.ft.pb.ch3DataR.tuple := by
    refine I.map1_of_ne fun hst => ?_
    exact (hne (by simp [hst])).symm
  have htr : (s.viewNext i E r).transit = (s.view1 i E r).transit := I.transit_next hdq I.ctl.dequeDone
  have htab : (s.viewNext i E r).tab = fun k a =>
      if oneHot? Loc.all s.ft.ch2BitMap = some (.ft k) ∧ a = (s.ft.pb.ft k).addrB then occ s.ft.slowData
      else (s.view1 i E r).tab k a := by
    funext k a
    rw [I.viewNext_tab, hpb]
    simp [FlowTable.slowUpdateStep, FlowTable.slowWrite, hv]
  have hpend : ∀ e, (s.step i).ft.pendB e =
      if oneHot? Loc.all s.ft.ch2BitMap = some .q ∧ e.tuple = s.ft.pb.ch3DataR.tuple then s.ft.slowData else e := by
    intro e
    rw [FlowTable.pendB, hpb]
    simp only [FlowTable.slowUpdateStep, FlowTable.slowWrite, hv, htk.qAddr, Bool.true_and]
    by_cases hq : oneHot? Loc.all s.ft.ch2BitMap = some .q <;> by_cases ht : e.tuple = s.ft.pb.ch3DataR.tuple
    · simp [hq, ht]
    · simp [hq, ht, Ne.symm ht]
    · simp [hq]
    · simp [hq]
  have hq := I.viewNext_queue hc hdq hev
  have heq : s.viewNext i E r = ⟨(s.viewNext i E r).tab, (s.viewNext i E r).queue, (s.viewNext i E r).transit⟩ := rfl
  rw [heq, htab, hq, htr]
  unfold slowMap
  cases hone : oneHot? Loc.all s.ft.ch2BitMap with
  | none =>
    have hid : (s.step i).ft.pendB = id := by
      funext e
      simp [hpend, hone]
    simpa [hid] using I.rep1
  | some l =>
    obtain ⟨⟨e, he, _⟩, haddr⟩ := hfound l hone
    rw [← h1] at he
    have htd : s.ft.slowData.tuple = s.ft.pb.ch3DataR.tuple := rfl
    cases l with
    | q =>
      have hvalid : s.ft.pb.ch3DataR.valid = true := by
        refine hc.2.2.1 I.ctl.pState hv ?_
        rw [← I.ch2BitMap_q]
        exact (oneHot?_eq_some hone).2.1
      have hfun : (s.step i).ft.pendB = fun x => if x.tuple = s.ft.pb.ch3DataR.tuple then s.ft.slowData else x := by
        funext x
        simp [hpend, hone]
      simpa [hvalid, hfun] using I.rep1.set_queue he htd
    | ft k =>
      have hid : (s.step i).ft.pendB = id := by
        funext e
        simp [hpend, hone]
      have hput : ∀ o, occ s.ft.slowData = o →
          (fun j a => if some (Loc.ft k) = some (Loc.ft j) ∧ a = (s.ft.pb.ft j).addrB then occ s.ft.slowData
            else (s.view1 i E r).tab j a) = ((s.view1 i E r).put k (h s.ft.pb.ch3DataR.tuple k) o).tab := by
        rintro o rfl
        funext j a
        simp only [Store.put, Option.some.injEq, Loc.ft.injEq]
        by_cases hj : j = k
        · subst hj; simp [haddr j rfl]
        · simp [hj, Ne.symm hj]
      rw [hid, List.map_id]
      by_cases hvalid : s.ft.pb.ch3DataR.valid = true
      · have hv' : s.ft.slowData.valid = true := hvalid
        rw [hput _ (occ_of_valid hv'), if_pos hvalid]
        exact I.rep1.set_way he htd
      · have hv' : s.ft.slowData.valid = false := by rw [← Bool.not_eq_true]; exact hvalid
        rw [hput _ (occ_eq_none.2 hv'), if_neg hvalid]
        exact I.rep1.erase_way he

/-! ## The lookup under way -/

omit I in
theorem tuple_next : (s.step i).tuple = if s.ft.rdenA (s.ftIn i) then i.m7.tuple else s.tuple := rfl

theorem tuple_next_of_ne (hst : st ≠ .idle) : (s.step i).tuple = s.tuple := by
  have : s.ft.rdenA (s.ftIn i) = false := by
    rw [← Bool.not_eq_true]
    exact fun hr => hst (I.stage.idle_of_rdenA i hr)
  rw [tuple_next, this]
  rfl

theorem fast_rd1 (henv : FastEnv h s i) (hc : s.Clean i) (hr : s.ft.rdenA (s.ftIn i) = true) {P' : FlowMap}
    (hP : P' (s.step i).tuple = P (s.step i).tuple) :
    (s.step i).FastData h (r.apply E) (s.ft.pqIn (s.ftIn i)) P' .rd1 := by
  obtain ⟨hidle, h0, _⟩ := I.of_rdenA hc.2.2.2 hr
  have hw : (s.ftIn i).ch1Wren = false := by simp [I.ch1Wren, hidle]
  have ht : (s.step i).tuple = i.m7.tuple := by rw [tuple_next, hr]; rfl
  have hrd : i.ch0Rden = true := by
    simp only [FlowTable.rdenA, Bool.and_eq_true] at hr
    exact hr.1
  have haddr : ∀ k, FlowTable.addrA (s.ftIn i) k = h i.m7.tuple k := by
    intro k
    rw [FlowTable.addrA, hw]
    exact henv.ch0 hrd k
  refine ⟨ht.symm, ht.symm, ?_, ?_, hr, ?_, ?_⟩
  · rw [ht]
    exact henv.ch0 hrd
  · intro k e
    rw [hP, ht]
    -- no write is pending at the word that is read
    have hd : ((s.step i).ft.ram k).a.r1 = s.ft.words k (h i.m7.tuple k) := by
      have hrdw := I.rdwA_false hc.1 hc.2.2.2 (.ft k)
      simp only [FlowTable.rdwA, hr, Bool.true_and, haddr, Bool.and_eq_false_iff, decide_eq_false_iff_not] at hrdw
      have : ¬ ((s.ft.pb.ft k).wrenB = true ∧ h i.m7.tuple k = (s.ft.pb.ft k).addrB) := by
        rintro ⟨h1, h2⟩
        rcases hrdw with h' | h'
        · simp [h1] at h'
        · exact h' h2
      simp only [FlowTable.words, wr_apply, this, if_false]
      simp [FastPath.step, FlowTable.step, FlowTable.ramStep, RdPort.step, hr, haddr]
    rw [hd]
    constructor
    · intro hw
      have := (I.rep.way (k := k) (a := h i.m7.tuple k) (e := e)).1 hw.1
      exact hw.2 ▸ this.1
    · intro ho
      exact ⟨I.rep.tab_hash ho, I.rep.keyed ho⟩
  · show FlowTable.qAddrA (s.ftIn i) = _
    rw [FlowTable.qAddrA, hw, ht]
    rfl
  · intro e
    rw [hP, ht]
    have hev : s.ft.pb.evict = false := I.ctl.evict fun hf => by simp [hf, Phase.minAge] at h0
    have hpend : (s.ft.pqIn (s.ftIn i)).write = s.ft.pendB := by
      funext x
      simp [write_pqIn, FlowTable.wrenA, hw]
    have hq : (s.ft.view E r).queue = (r.apply E).map (s.ft.pqIn (s.ftIn i)).write := by
      simp [FlowTable.view, FlowTable.evicted, hev, hpend]
    rw [← hq]
    exact ⟨fun hm => hm.2 ▸ I.rep.queue.1 hm.1, fun ho => ⟨I.rep.mem_queue ho, I.rep.keyed ho⟩⟩

theorem fast_rd2 (hst : st = .rd1) {P' : FlowMap} (hP : P' (s.step i).tuple = P (s.step i).tuple) :
    (s.step i).FastData h (r.apply E) (s.ft.pqIn (s.ftIn i)) P' .rd2 := by
  subst hst
  have ht := I.tuple_next_of_ne (i := i) (by simp)
  obtain ⟨h1, h2, h3, hways, hr, ha, hq⟩ := I.fast
  have hhit : (s.step i).ft.pq.rdHitA = (r.rdenA && E.any fun e => decide (r.addrA = e.tuple)) :=
    I.pq.rdHitA I.queue (s.ft.pqIn (s.ftIn i))
  rw [ht] at hP
  simp only [FastPath.FastData, ht, hP]
  refine ⟨h1, h2, h3, ?_, ?_, ?_⟩
  · intro k
    have : ((s.step i).ft.ram k).a.q = (s.ft.ram k).a.r1 := by
      simp [FastPath.step, FlowTable.step, FlowTable.ramStep, RdPort.step]
    rw [this]
    exact hways k
  · rw [hhit, hr, ha, Bool.true_and, List.any_eq_true]
    simp only [decide_eq_true_eq]
    constructor
    · rintro ⟨e, he, het⟩
      exact ⟨r.write e, (hq _).1 ⟨List.mem_map_of_mem he, by rw [ParaQIn.write_tuple I.legal, het]⟩⟩
    · rintro ⟨e, he⟩
      obtain ⟨hm, het⟩ := (hq e).2 he
      obtain ⟨x, hx, rfl⟩ := List.mem_map.1 hm
      exact ⟨x, hx, by rw [← het, ParaQIn.write_tuple I.legal]⟩
  · intro e he
    obtain ⟨hm, het⟩ := (hq e).2 he
    obtain ⟨x, hx, rfl⟩ := List.mem_map.1 hm
    rw [ParaQIn.write_tuple I.legal] at het
    rw [← ParaQIn.readA_eq I.legal hr]
    exact I.pq.qA I.queue (s.ft.pqIn (s.ftIn i)) hr hx (by rw [ha, het])

theorem not_transit_of_age (hst : st.age ≤ 3) {t : Tuple} {e : Fce} : P t ≠ some (.transit, e) := by
  have hage := I.age
  refine I.rep.not_transit (I.transit_none ?_ ?_)
  all_goals
    cases ph <;> simp only [Phase.minAge] at hage <;> first | omega | rfl

theorem fast_dec (hst : st = .rd2) {P' : FlowMap} (hP : P' (s.step i).tuple = P (s.step i).tuple) :
    (s.step i).FastData h (r.apply E) (s.ft.pqIn (s.ftIn i)) P' .dec := by
  have hnt := fun e => I.not_transit_of_age (t := s.tuple) (e := e) (by simp [hst, Stage.age])
  subst hst
  have ht := I.tuple_next_of_ne (i := i) (by simp)
  obtain ⟨h1, h2, h3, hways, hq⟩ := I.fast
  rw [ht] at hP
  simp only [FastPath.FastData, ht, hP]
  refine ⟨h2, h3, ?_⟩
  have hb : s.ft.ch0BitMapInt = s.ft.ftHit := foldl_only (fun l => (I.rdw l).2.1) _
  show SeesAll _ s.ft.ch0BitMapInt (FlowTable.sel s.ft.ch0BitMapInt s.ft.odataA)
  rw [hb]
  refine seesAll_sel hnt ?_ ?_
  · intro l
    cases l with
    | ft k =>
      simp only [FlowTable.ftHit, PerLoc.get, vec_get, h1, hit_iff]
      exact exists_congr fun e => hways k e
    | q => exact hq.1
  · intro l e ho
    cases l with
    | ft k =>
      have := ((hways k) e).2 ho
      simp only [FlowTable.odataA, (I.rdw (.ft k)).2.1, Bool.false_eq_true, if_false]
      exact (occ_eq_some.1 this.1).2
    | q =>
      simp only [FlowTable.odataA, (I.rdw .q).2.1, Bool.false_eq_true, if_false]
      exact hq.2 e ho

theorem not_insertStall (hst : st ≠ .wr) : s.ch1InsertStall i = false := by
  rw [← Bool.not_eq_true]
  exact fun hs => hst (I.stage.wr_of_insertStall i hs)

theorem fast_wr (hst : st = .dec) (hw : (s.decision i).ch1Wren = true) {P' : FlowMap}
    (hP : P' (s.step i).tuple = P (s.step i).tuple) :
    (s.step i).FastData h (r.apply E) (s.ft.pqIn (s.ftIn i)) P' .wr := by
  have hnt := fun e => I.not_transit_of_age (t := s.tuple) (e := e) (by simp [hst, Stage.age])
  have hns := I.not_insertStall (i := i) (by simp [hst])
  have hv : s.ft.ch0RdValid = true := by simp [I.stage.ch0RdValid, hst]
  subst hst
  have ht := I.tuple_next_of_ne (i := i) (by simp)
  rw [ht] at hP
  obtain ⟨h1, h2, hb, hq⟩ := I.fast
  show (s.decision i).ch1Data.tuple = _ ∧
    OpOk h P' (s.decision i).ch1Opcode (s.decision i).ch1BitMap (s.decision i).ch1Data
  rw [ht]
  unfold FastPath.decision at hw ⊢
  simp only [hns, hv, Bool.not_true, Bool.false_eq_true, if_false] at hw ⊢
  by_cases hz : isZero Loc.all s.ft.ch0BitMap = true
  · -- a miss: the flow is in no location, and it cannot be in transit
    have hn : P s.tuple = none := SeesAll.miss ⟨hb, hq⟩ hnt hz
    simp only [hz, if_true, FastPath.decideMiss, FastPath.insertData, OpOk, h1]
    refine ⟨trivial, h2, trivial, hP.trans hn, fun l => ?_⟩
    simp [BitMap.only]
  · -- a hit: the write goes to the one location of the flow
    obtain ⟨l, e, hl, he, hqe⟩ := SeesAll.hit ⟨hb, hq⟩ hz
    have htup : s.ft.ch0Q.tuple = s.tuple := hqe ▸ I.rep.keyed he
    have hown : ∀ k, s.ft.ch0Q.addr k = h s.tuple k := fun k => by
      rw [← htup]
      exact hqe ▸ (I.own he).2 k
    have hloc : ∃ l e, P' s.tuple = some (l.place, e) ∧ ∀ l', s.ft.ch0BitMap l' = decide (l' = l) := by
      refine ⟨l, e, hP.trans he, fun l' => ?_⟩
      rw [Bool.eq_iff_iff, hb, decide_eq_true_eq]
      refine ⟨fun ⟨e', he'⟩ => ?_, fun h' => h' ▸ ⟨e, he⟩⟩
      rw [he] at he'
      simp only [Option.some.injEq, Prod.mk.injEq] at he'
      exact (Loc.place_inj he'.1).symm
    simp only [hz, Bool.false_eq_true, if_false] at hw ⊢
    unfold FastPath.decideHit at hw ⊢
    simp only at hw ⊢
    split_ifs at hw ⊢ <;>
      simp_all [FastPath.decideNone, OpOk]

theorem fast_wait (hs : s.ch1InsertStall i = true) {P' : FlowMap} (hP : P s.tuple = none → P' s.tuple = none) :
    (s.step i).FastData h (r.apply E) (s.ft.pqIn (s.ftIn i)) P' .wr := by
  have hst := I.stage.wr_of_insertStall i hs
  have ht := I.tuple_next_of_ne (i := i) (by simp [hst])
  have hi : FlowTable.insert (s.ftIn i) = true := by
    simp only [FastPath.ch1InsertStall, FlowTable.ch1InsertStall, Bool.and_eq_true] at hs
    exact hs.1
  obtain ⟨_, hn, _, htt⟩ := I.of_insert hi
  obtain ⟨ha, ho⟩ := I.opOk hst (i := i)
  show (s.decision i).ch1Data.tuple = _ ∧
    OpOk h P' (s.decision i).ch1Opcode (s.decision i).ch1BitMap (s.decision i).ch1Data
  rw [ht]
  unfold FastPath.decision
  simp only [hs, if_true]
  simp only [FlowTable.insert, Bool.and_eq_true, beq_iff_eq] at hi
  have hop : s.dec.ch1Opcode = .insert := hi.2
  simp only [FastPath.ftIn, hop] at ho ha
  refine ⟨htt, ha, ?_⟩
  rw [hop]
  refine ⟨ho.1, ?_, ho.2.2⟩
  rw [htt]
  exact hP hn

theorem fast_next (henv : FastEnv h s i) (hc : s.Clean i) {P' : FlowMap}
    (hkeep : st ≠ .wr → st.next s i ≠ .idle → P' (s.step i).tuple = P (s.step i).tuple)
    (hwait : s.ch1InsertStall i = true → P s.tuple = none → P' s.tuple = none) :
    (s.step i).FastData h (r.apply E) (s.ft.pqIn (s.ftIn i)) P' (st.next s i) := by
  cases hst : st with
  | idle =>
    simp only [hst, Stage.next] at hkeep ⊢
    split
    · next hr => exact I.fast_rd1 henv hc hr (hkeep (by simp) (by simp [hr]))
    · trivial
  | rd1 => exact I.fast_rd2 hst (hkeep (by simp [hst]) (by simp [hst, Stage.next]))
  | rd2 => exact I.fast_dec hst (hkeep (by simp [hst]) (by simp [hst, Stage.next]))
  | dec =>
    simp only [hst, Stage.next] at hkeep ⊢
    split
    · next hw => exact I.fast_wr hst hw (hkeep (by simp) (by simp [hw]))
    · trivial
  | wr =>
    simp only [Stage.next]
    split
    · next hs => exact I.fast_wait hs (hwait hs)
    · trivial

end

end FastInv

end Pigasus
