import Pigasus.TrafficManager

/-!
# The traffic manager keeps triples together
-/

namespace Pigasus

open Hdl Frames

/-! ## What is to be put out -/

def expectedPkt (ts : List Triple) : List (Flit512 × Bool) := ts.flatMap fun t => t.pkt.flits.map fun b => (b, t.checked)

def expectedMeta (ts : List Triple) : List Metadata := (ts.filter Triple.checked).map Triple.metaData

def expectedUsr (ts : List Triple) : List Flit512 := (ts.filter Triple.checked).flatMap fun t => t.rules.flits

section
variable (ts : List Triple) (t : Triple)

theorem expectedPkt_snoc : expectedPkt (ts ++ [t]) = expectedPkt ts ++ t.pkt.flits.map fun b => (b, t.checked) := by
  simp [expectedPkt]

theorem expectedMeta_snoc : expectedMeta (ts ++ [t]) = expectedMeta ts ++ if t.checked then [t.metaData] else [] := by
  cases h : t.checked <;> simp [expectedMeta, h]

theorem expectedUsr_snoc : expectedUsr (ts ++ [t]) = expectedUsr ts ++ if t.checked then t.rules.flits else [] := by
  cases h : t.checked <;> simp [expectedUsr, h]

theorem expectedPkt_channel :
    ((expectedPkt ts).filter Prod.snd).map Prod.fst = (ts.filter Triple.checked).flatMap fun t => t.pkt.flits := by
  induction ts with
  | nil => rfl
  | cons t ts ih =>
    have hcons : expectedPkt (t :: ts) = (t.pkt.flits.map fun b => (b, t.checked)) ++ expectedPkt ts := rfl
    rw [hcons, List.filter_append, List.map_append, ih]
    cases h : t.checked <;> simp [h, Function.comp_def, List.filter_map]

end

/-! ## One stream -/

namespace Source

variable {α : Type} {q : Source α} (arrives : Bool)

theorem all_step (takes : Bool) : (q.step arrives takes).all = (if takes then q.waiting.tail else q.waiting) ++ q.coming := by
  have hc : (if arrives then q.coming.head? else none).toList ++ (if arrives then q.coming.tail else q.coming) = q.coming := by
    cases arrives
    · rfl
    · cases q.coming <;> rfl
  unfold step all fifoStep
  rw [List.append_assoc, hc]

theorem all_step_false : (q.step arrives false).all = q.all := all_step arrives false

theorem waiting_step_false (h : q.waiting ≠ []) : (q.step arrives false).waiting ≠ [] := by
  unfold step fifoStep
  simp [h]

end Source

/-- A frame of which `sent` has been taken from the source and `rest` has not. -/
structure Side (f : Frame512) (sent rest : List Flit512) (q : Source Flit512) (done : Bool) (later : List Flit512) : Prop where
  flits : f.flits = sent ++ rest
  all : q.all = rest ++ later
  done_iff : done = true ↔ rest = []

def taken (done : Bool) (q : Source Flit512) : Option Flit512 := if done then none else q.waiting.head?

namespace Side

variable {f : Frame512} {sent rest later : List Flit512} {q : Source Flit512} {done : Bool}

theorem begin (h : q.all = f.flits ++ later) : Side f [] f.flits q false later :=
  ⟨rfl, h, by simp [f.flits_ne_nil]⟩

theorem step (h : Side f sent rest q done later) (arrives : Bool) :
    ∃ rest', Side f (sent ++ (taken done q).toList) rest' (q.step arrives (!done))
      (TrafficManager.atEop (taken done q) || done) later := by
  obtain ⟨hf, ha, hd⟩ := h
  cases done with
  | true =>
    refine ⟨rest, ?_, ?_, ?_⟩
    · simp [taken, hf]
    · rw [← ha]
      exact q.all_step_false arrives
    · simpa [taken, TrafficManager.atEop] using hd
  | false =>
    cases hw : q.waiting with
    | nil =>
      refine ⟨rest, ?_, ?_, ?_⟩
      · simp [taken, hw, hf]
      · rw [← ha, Source.all_step, hw, Source.all, hw]
        rfl
      · simpa [taken, hw, TrafficManager.atEop] using hd
    | cons x w =>
      have hne : rest ≠ [] := fun hr => absurd (hd.2 hr) Bool.false_ne_true
      obtain ⟨y, rest', rfl⟩ := List.exists_cons_of_ne_nil hne
      have hx : x = y ∧ w ++ q.coming = rest' ++ later := by
        rw [Source.all, hw] at ha
        simpa using ha
      obtain ⟨rfl, hr⟩ := hx
      refine ⟨rest', ?_, ?_, ?_⟩
      · simp [taken, hw, hf]
      · rw [Source.all_step, hw]
        exact hr
      · have hm := Marked.mark_iff hf
        simpa [taken, hw, TrafficManager.atEop] using hm

theorem sent_of_done (h : Side f sent rest q true later) : f.flits = sent ∧ q.all = later := by
  have hr := h.done_iff.1 rfl
  have hf := h.flits
  have ha := h.all
  subst hr
  exact ⟨by simpa using hf, by simpa using ha⟩

end Side

/-! ## The whole manager -/

namespace TmSys

structure Idle (done later : List Triple) (s : TmSys) : Prop where
  state : s.tm.state = .idle
  pktDone : s.tm.pktDoneR = false
  ruleDone : s.tm.ruleDoneR = false
  pkt : s.pkt.all = later.flatMap fun t => t.pkt.flits
  metaData : s.metaData.all = later.map Triple.metaData
  usr : s.usr.all = later.flatMap fun t => t.rules.flits
  outPkt : s.outPkt = expectedPkt done
  outMeta : s.outMeta = expectedMeta done
  outUsr : s.outUsr = expectedUsr done

structure NoCheck (done later : List Triple) (t : Triple) (sent rest : List Flit512) (s : TmSys) : Prop where
  state : s.tm.state = .noCheck
  pktDone : s.tm.pktDoneR = false
  ruleDone : s.tm.ruleDoneR = false
  unchecked : t.checked = false
  pkt : Side t.pkt sent rest s.pkt false (later.flatMap fun t => t.pkt.flits)
  metaData : s.metaData.all = t.metaData :: later.map Triple.metaData
  metaWaits : s.metaData.waiting ≠ []
  usr : s.usr.all = t.rules.last :: later.flatMap fun t => t.rules.flits
  usrWaits : s.usr.waiting ≠ []
  outPkt : s.outPkt = expectedPkt done ++ sent.map fun b => (b, false)
  outMeta : s.outMeta = expectedMeta done
  outUsr : s.outUsr = expectedUsr done

structure Check (done later : List Triple) (t : Triple) (sent rest sentU restU : List Flit512) (s : TmSys) : Prop where
  state : s.tm.state = .check
  checked : t.checked = true
  notDone : (s.tm.ruleDoneR && s.tm.pktDoneR) = false
  pkt : Side t.pkt sent rest s.pkt s.tm.pktDoneR (later.flatMap fun t => t.pkt.flits)
  metaData : s.metaData.all = t.metaData :: later.map Triple.metaData
  metaWaits : s.metaData.waiting ≠ []
  usr : Side t.rules sentU restU s.usr s.tm.ruleDoneR (later.flatMap fun t => t.rules.flits)
  outPkt : s.outPkt = expectedPkt done ++ sent.map fun b => (b, true)
  outMeta : s.outMeta = expectedMeta done
  outUsr : s.outUsr = expectedUsr done ++ sentU

/-- The triples `done` have gone through, and `later` are untouched behind the one at work. -/
inductive Inv (ts : List Triple) (s : TmSys) : Prop
  | idle {done later} (hts : ts = done ++ later) (h : Idle done later s)
  | noCheck {done later t sent rest} (hts : ts = done ++ t :: later) (h : NoCheck done later t sent rest s)
  | check {done later t sent rest sentU restU} (hts : ts = done ++ t :: later) (h : Check done later t sent rest sentU restU s)

variable {ts : List Triple} {s : TmSys}

theorem Inv.reset (ts : List Triple) : Inv ts (.reset ts) :=
  .idle (List.nil_append ts).symm ⟨rfl, rfl, rfl, rfl, rfl, rfl, rfl, rfl, rfl⟩

theorem Source.head_of_waiting {α : Type} {q : Source α} {x : α} {l : List α} (hq : q.waiting ≠ []) (ha : q.all = x :: l) :
    q.waiting.head? = some x ∧ q.waiting.tail ++ q.coming = l := by
  cases hw : q.waiting with
  | nil => exact absurd hw hq
  | cons y w =>
    rw [Source.all, hw] at ha
    simpa using ha

theorem Idle.step {done later : List Triple} (h : Idle done later s) (i : TmTick) : Inv (done ++ later) (s.step i) := by
  obtain ⟨hs, hp, hr, pkt, metaData, usr, outPkt, outMeta, outUsr⟩ := h
  have hpr : s.tm.inPktReady = false := by simp [TrafficManager.inPktReady, hs]
  have hur : s.tm.inUsrReady (s.tmIn i) = false := by simp [TrafficManager.inUsrReady, hs]
  have hmr : s.tm.inMetaReady (s.tmIn i) = false := by
    simp [TrafficManager.inMetaReady, TrafficManager.checkDone, TrafficManager.noCheckDone, hs]
  have hcd : s.tm.checkDone (s.tmIn i) = false := by simp [TrafficManager.checkDone, hs]
  -- nothing is taken and nothing is put out
  have hpkt : (s.step i).pkt.all = s.pkt.all := by
    show (s.pkt.step i.pktArrives s.tm.inPktReady).all = _
    rw [hpr, Source.all_step_false]
  have hmeta : (s.step i).metaData.all = s.metaData.all := by
    show (s.metaData.step i.metaArrives (s.tm.inMetaReady (s.tmIn i))).all = _
    rw [hmr, Source.all_step_false]
  have husr : (s.step i).usr.all = s.usr.all := by
    show (s.usr.step i.usrArrives (s.tm.inUsrReady (s.tmIn i))).all = _
    rw [hur, Source.all_step_false]
  have hop : (s.step i).outPkt = s.outPkt := by simp [TmSys.step, TrafficManager.step, hpr]
  have hom : (s.step i).outMeta = s.outMeta := by simp [TmSys.step, TrafficManager.step, hcd]
  have hou : (s.step i).outUsr = s.outUsr := by simp [TmSys.step, TrafficManager.step, hur]
  have hdp : (s.step i).tm.pktDoneR = false := by
    simp [TmSys.step, TrafficManager.step, TrafficManager.pktDone, hs, hp]
  have hdr : (s.step i).tm.ruleDoneR = false := by
    simp [TmSys.step, TrafficManager.step, TrafficManager.ruleDone, hs, hr]
  have hst : (s.step i).tm.state = if TrafficManager.transit (s.tmIn i) then
      (if TrafficManager.atEop (s.tmIn i).usr then .noCheck else .check) else .idle := by
    simp [TmSys.step, TrafficManager.step, TrafficManager.nextState, hs]
  by_cases ht : TrafficManager.transit (s.tmIn i) = true
  · rw [if_pos ht] at hst
    simp only [TrafficManager.transit, Bool.and_eq_true, Option.isSome_iff_ne_none, TmSys.tmIn, ne_eq,
      List.head?_eq_none_iff] at ht
    cases later with
    | nil =>
      rw [Source.all] at metaData
      simp only [List.map_nil, List.append_eq_nil_iff] at metaData
      exact absurd metaData.1 ht.1.2
    | cons t later =>
      have hmw : (s.step i).metaData.waiting ≠ [] := by
        show (s.metaData.step i.metaArrives (s.tm.inMetaReady (s.tmIn i))).waiting ≠ []
        rw [hmr]
        exact Source.waiting_step_false _ ht.1.2
      have huw : (s.step i).usr.waiting ≠ [] := by
        show (s.usr.step i.usrArrives (s.tm.inUsrReady (s.tmIn i))).waiting ≠ []
        rw [hur]
        exact Source.waiting_step_false _ ht.2
      have hpb := Side.begin (f := t.pkt) (q := (s.step i).pkt) (hpkt.trans pkt)
      cases hb : t.rules.body with
      | nil =>
        have hf : t.rules.flits = [t.rules.last] := by simp [Marked.flits, hb]
        rw [List.flatMap_cons, hf] at usr
        have hx := (Source.head_of_waiting ht.2 usr).1
        have he : TrafficManager.atEop (s.tmIn i).usr = true := by
          simp [TmSys.tmIn, hx, TrafficManager.atEop, t.rules.last_mark]
        rw [if_pos he] at hst
        exact .noCheck rfl ⟨hst, hdp, hdr, by simp [Triple.checked, hb], hpb, hmeta.trans metaData, hmw, husr.trans usr, huw,
          by simp [hop, outPkt], hom.trans outMeta, hou.trans outUsr⟩
      | cons x b =>
        have hx := usr
        rw [List.flatMap_cons, Marked.flits, hb, List.cons_append] at hx
        have hx := (Source.head_of_waiting ht.2 hx).1
        have he : TrafficManager.atEop (s.tmIn i).usr = false := by
          have hm := t.rules.body_mark x (by simp [hb])
          simp [TmSys.tmIn, hx, TrafficManager.atEop, hm]
        rw [he] at hst
        have hub := Side.begin (f := t.rules) (q := (s.step i).usr) (husr.trans usr)
        exact .check rfl ⟨hst, by simp [Triple.checked, hb], by simp [hdp], hdp ▸ hpb, hmeta.trans metaData, hmw, hdr ▸ hub,
          by simp [hop, outPkt], hom.trans outMeta, by simp [hou, outUsr]⟩
  · rw [if_neg ht] at hst
    exact .idle rfl ⟨hst, hdp, hdr, hpkt.trans pkt, hmeta.trans metaData, husr.trans usr, hop.trans outPkt, hom.trans outMeta,
      hou.trans outUsr⟩

theorem NoCheck.step {done later : List Triple} {t : Triple} {sent rest : List Flit512} (h : NoCheck done later t sent rest s)
    (i : TmTick) : Inv (done ++ t :: later) (s.step i) := by
  obtain ⟨hs, hp, hr, ht, pkt, metaData, metaWaits, usr, usrWaits, outPkt, outMeta, outUsr⟩ := h
  have hpr : s.tm.inPktReady = true := by simp [TrafficManager.inPktReady, hs]
  have hur : s.tm.inUsrReady (s.tmIn i) = TrafficManager.atEop (taken false s.pkt) := by
    simp [TrafficManager.inUsrReady, hs, tmIn, taken]
  have hmr : s.tm.inMetaReady (s.tmIn i) = TrafficManager.atEop (taken false s.pkt) := by
    simp [TrafficManager.inMetaReady, TrafficManager.checkDone, TrafficManager.noCheckDone, hs, hpr, tmIn, taken]
  have hcd : s.tm.checkDone (s.tmIn i) = false := by simp [TrafficManager.checkDone, hs]
  obtain ⟨rest', hside⟩ := pkt.step i.pktArrives
  have hpkt : (s.step i).pkt = s.pkt.step i.pktArrives (!false) := by simp [TmSys.step, hpr]
  rw [Bool.or_false, ← hpkt] at hside
  have hop : (s.step i).outPkt = expectedPkt done ++ (sent ++ (taken false s.pkt).toList).map fun b => (b, false) := by
    simp [TmSys.step, TrafficManager.step, hpr, outPkt, hs, tmIn, taken]
  have hom : (s.step i).outMeta = s.outMeta := by simp [TmSys.step, TrafficManager.step, hcd]
  have hou : (s.step i).outUsr = s.outUsr := by simp [TmSys.step, TrafficManager.step, hs]
  have hdp : (s.step i).tm.pktDoneR = false := by
    simp [TmSys.step, TrafficManager.step, TrafficManager.pktDone, hs, hp]
  have hdr : (s.step i).tm.ruleDoneR = false := by
    simp [TmSys.step, TrafficManager.step, TrafficManager.ruleDone, hs, hr]
  have hst : (s.step i).tm.state = if TrafficManager.atEop (taken false s.pkt) then .idle else .noCheck := by
    simp [TmSys.step, TrafficManager.step, TrafficManager.nextState, TrafficManager.noCheckDone, hs, hpr, tmIn, taken]
  have hm : (s.step i).metaData = s.metaData.step i.metaArrives (TrafficManager.atEop (taken false s.pkt)) := by
    simp [TmSys.step, hmr]
  have hu : (s.step i).usr = s.usr.step i.usrArrives (TrafficManager.atEop (taken false s.pkt)) := by
    simp [TmSys.step, hur]
  cases he : TrafficManager.atEop (taken false s.pkt)
  · rw [he] at hst hm hu hside
    refine .noCheck rfl ⟨hst, hdp, hdr, ht, hside, ?_, ?_, ?_, ?_, hop, hom.trans outMeta, hou.trans outUsr⟩
    · rw [hm, Source.all_step_false, metaData]
    · rw [hm]
      exact Source.waiting_step_false _ metaWaits
    · rw [hu, Source.all_step_false, usr]
    · rw [hu]
      exact Source.waiting_step_false _ usrWaits
  · rw [he] at hst hm hu hside
    obtain ⟨hf, hall⟩ := hside.sent_of_done
    rw [← hf] at hop
    have hne : ¬ t.checked = true := by simp [ht]
    refine .idle (List.append_cons done t later) ⟨hst, hdp, hdr, hall, ?_, ?_, ?_, ?_, ?_⟩
    · rw [hm, Source.all_step]
      exact (Source.head_of_waiting metaWaits metaData).2
    · rw [hu, Source.all_step]
      exact (Source.head_of_waiting usrWaits usr).2
    · rw [hop, expectedPkt_snoc, ht]
    · rw [hom, outMeta, expectedMeta_snoc, if_neg hne, List.append_nil]
    · rw [hou, outUsr, expectedUsr_snoc, if_neg hne, List.append_nil]

theorem Check.step {done later : List Triple} {t : Triple} {sent rest sentU restU : List Flit512}
    (h : Check done later t sent rest sentU restU s) (i : TmTick) : Inv (done ++ t :: later) (s.step i) := by
  obtain ⟨hs, ht, -, pkt, metaData, metaWaits, usr, outPkt, outMeta, outUsr⟩ := h
  have hpr : s.tm.inPktReady = !s.tm.pktDoneR := by simp [TrafficManager.inPktReady, hs]
  have hur : s.tm.inUsrReady (s.tmIn i) = !s.tm.ruleDoneR := by simp [TrafficManager.inUsrReady, hs]
  have hpt : (if s.tm.inPktReady then (s.tmIn i).pkt else none) = taken s.tm.pktDoneR s.pkt := by
    rw [hpr]
    cases s.tm.pktDoneR <;> rfl
  have hut : (if s.tm.inUsrReady (s.tmIn i) && s.tm.state == .check then (s.tmIn i).usr else none) =
      taken s.tm.ruleDoneR s.usr := by
    rw [hur, hs]
    cases s.tm.ruleDoneR <;> rfl
  have hpd : (s.tm.pktDone (s.tmIn i) || s.tm.pktDoneR) =
      (TrafficManager.atEop (taken s.tm.pktDoneR s.pkt) || s.tm.pktDoneR) := by
    unfold TrafficManager.pktDone
    rw [hpr, hs]
    cases s.tm.pktDoneR <;> simp [taken, tmIn]
  have hrd : (s.tm.ruleDone (s.tmIn i) || s.tm.ruleDoneR) =
      (TrafficManager.atEop (taken s.tm.ruleDoneR s.usr) || s.tm.ruleDoneR) := by
    unfold TrafficManager.ruleDone
    rw [hur, hs]
    cases s.tm.ruleDoneR <;> simp [taken, tmIn]
  obtain ⟨rest', hps⟩ := pkt.step i.pktArrives
  obtain ⟨restU', hus⟩ := usr.step i.usrArrives
  have hpkt : (s.step i).pkt = s.pkt.step i.pktArrives (!s.tm.pktDoneR) := by simp [TmSys.step, hpr]
  have husr : (s.step i).usr = s.usr.step i.usrArrives (!s.tm.ruleDoneR) := by simp [TmSys.step, hur]
  rw [← hpkt, ← hpd] at hps
  rw [← husr, ← hrd] at hus
  have hop : (s.step i).outPkt = expectedPkt done ++ (sent ++ (taken s.tm.pktDoneR s.pkt).toList).map fun b => (b, true) := by
    simp only [TmSys.step, TrafficManager.step, hpt, outPkt, hs, List.map_append, List.append_assoc]
    rfl
  have hou : (s.step i).outUsr = expectedUsr done ++ (sentU ++ (taken s.tm.ruleDoneR s.usr).toList) := by
    simp only [TmSys.step, TrafficManager.step, hut, outUsr, List.append_assoc]
  have hcd : s.tm.checkDone (s.tmIn i) =
      ((s.tm.ruleDone (s.tmIn i) || s.tm.ruleDoneR) && (s.tm.pktDone (s.tmIn i) || s.tm.pktDoneR)) := by
    simp [TrafficManager.checkDone, hs]
  have hmr : s.tm.inMetaReady (s.tmIn i) = s.tm.checkDone (s.tmIn i) := by
    simp [TrafficManager.inMetaReady, TrafficManager.noCheckDone, hs]
  have hm : (s.step i).metaData = s.metaData.step i.metaArrives (s.tm.checkDone (s.tmIn i)) := by
    simp [TmSys.step, hmr]
  have hst : (s.step i).tm.state = if s.tm.checkDone (s.tmIn i) then .idle else .check := by
    simp [TmSys.step, TrafficManager.step, TrafficManager.nextState, hs]
  have hdp : (s.step i).tm.pktDoneR = (!s.tm.checkDone (s.tmIn i) && (s.tm.pktDone (s.tmIn i) || s.tm.pktDoneR)) := rfl
  have hdr : (s.step i).tm.ruleDoneR = (!s.tm.checkDone (s.tmIn i) && (s.tm.ruleDone (s.tmIn i) || s.tm.ruleDoneR)) := rfl
  have hom : (s.step i).outMeta = s.outMeta ++ (if s.tm.checkDone (s.tmIn i) then (s.tmIn i).metaData else none).toList := rfl
  cases hc : s.tm.checkDone (s.tmIn i)
  · rw [hc] at hst hm hdp hdr hom
    simp only [Bool.not_false, Bool.true_and] at hdp hdr
    rw [hc] at hcd
    rw [← hdp] at hps hcd
    rw [← hdr] at hus hcd
    refine .check rfl ⟨hst, ht, hcd.symm, hps, ?_, ?_, hus, hop, ?_, hou⟩
    · rw [hm, Source.all_step_false, metaData]
    · rw [hm]
      exact Source.waiting_step_false _ metaWaits
    · rw [hom, outMeta]
      simp
  · rw [hc] at hst hm hdp hdr hom
    rw [hc, Eq.comm, Bool.and_eq_true] at hcd
    rw [hcd.2] at hps
    rw [hcd.1] at hus
    obtain ⟨hfp, hap⟩ := hps.sent_of_done
    obtain ⟨hfu, hau⟩ := hus.sent_of_done
    obtain ⟨hhead, htail⟩ := Source.head_of_waiting metaWaits metaData
    refine .idle (List.append_cons done t later) ⟨hst, hdp, hdr, hap, ?_, hau, ?_, ?_, ?_⟩
    · rw [hm, Source.all_step]
      exact htail
    · rw [hop, expectedPkt_snoc, ht, hfp]
    · rw [hom, outMeta, expectedMeta_snoc, if_pos ht]
      simp [tmIn, hhead]
    · rw [hou, expectedUsr_snoc, if_pos ht, hfu]

theorem Inv.step (h : Inv ts s) (i : TmTick) : Inv ts (s.step i) := by
  cases h with
  | idle hts h => exact hts ▸ h.step i
  | noCheck hts h => exact hts ▸ h.step i
  | check hts h => exact hts ▸ h.step i

theorem Inv.prefixes (h : Inv ts s) :
    s.outPkt <+: expectedPkt ts ∧ s.outMeta <+: expectedMeta ts ∧ s.outUsr <+: expectedUsr ts := by
  have hsplit : ∀ done later : List Triple, expectedPkt (done ++ later) = expectedPkt done ++ expectedPkt later ∧
      expectedMeta (done ++ later) = expectedMeta done ++ expectedMeta later ∧
      expectedUsr (done ++ later) = expectedUsr done ++ expectedUsr later := by
    intro done later
    simp [expectedPkt, expectedMeta, expectedUsr]
  cases h with
  | @idle done later hts h =>
    obtain ⟨h1, h2, h3⟩ := hsplit done later
    rw [hts, h1, h2, h3, h.outPkt, h.outMeta, h.outUsr]
    exact ⟨List.prefix_append _ _, List.prefix_append _ _, List.prefix_append _ _⟩
  | @noCheck done later t sent rest hts h =>
    obtain ⟨h1, h2, h3⟩ := hsplit done (t :: later)
    have hp : expectedPkt (t :: later) = sent.map (fun b => (b, false)) ++ (rest.map (fun b => (b, false)) ++ expectedPkt later) := by
      simp [expectedPkt, h.pkt.flits, h.unchecked]
    rw [hts, h1, h2, h3, h.outPkt, h.outMeta, h.outUsr, hp, ← List.append_assoc]
    exact ⟨List.prefix_append _ _, List.prefix_append _ _, List.prefix_append _ _⟩
  | @check done later t sent rest sentU restU hts h =>
    obtain ⟨h1, h2, h3⟩ := hsplit done (t :: later)
    have hp : expectedPkt (t :: later) = sent.map (fun b => (b, true)) ++ (rest.map (fun b => (b, true)) ++ expectedPkt later) := by
      simp [expectedPkt, h.pkt.flits, h.checked]
    have hu : expectedUsr (t :: later) = sentU ++ (restU ++ expectedUsr later) := by
      simp [expectedUsr, h.usr.flits, h.checked]
    rw [hts, h1, h2, h3, h.outPkt, h.outMeta, h.outUsr, hp, hu, ← List.append_assoc, ← List.append_assoc (expectedUsr done)]
    exact ⟨List.prefix_append _ _, List.prefix_append _ _, List.prefix_append _ _⟩

/-! ## Everything is put out -/

def Arrived (s : TmSys) : Prop := s.pkt.coming = [] ∧ s.metaData.coming = [] ∧ s.usr.coming = []

def Complete (ts : List Triple) (s : TmSys) : Prop :=
  s.outPkt = expectedPkt ts ∧ s.outMeta = expectedMeta ts ∧ s.outUsr = expectedUsr ts

/-- A cycle without back-pressure. -/
def go : TmTick := ⟨false, false, false, false, false, false⟩

/-- The words that are left, where a metadata word stands for the two changes of state of its packet. -/
def work (s : TmSys) : Nat :=
  s.pkt.all.length + s.usr.all.length + (2 * s.metaData.all.length - if s.tm.state = .idle then 0 else 1)

theorem Arrived.step (h : Arrived s) (i : TmTick) : Arrived (s.step i) := by
  obtain ⟨h1, h2, h3⟩ := h
  simp [Arrived, TmSys.step, Source.step, h1, h2, h3]

theorem Complete.step (h : Complete ts s) {i : TmTick} (hi : Inv ts (s.step i)) : Complete ts (s.step i) := by
  obtain ⟨h1, h2, h3⟩ := h
  obtain ⟨p1, p2, p3⟩ := hi.prefixes
  have grown : ∀ {α : Type} {a b c : List α}, a ++ b <+: c → a = c → a ++ b = c := by
    intro α a b c hp ha
    subst ha
    exact hp.eq_of_length_le (by simp)
  exact ⟨grown p1 h1, grown p2 h2, grown p3 h3⟩

section
variable {α : Type} (q : Source α)

theorem length_step_le (arrives takes : Bool) : (q.step arrives takes).all.length ≤ q.all.length := by
  rw [Source.all_step, Source.all]
  cases takes with
  | false => simp
  | true => simp

theorem length_step_take (arrives : Bool) (h : q.waiting ≠ []) : (q.step arrives true).all.length + 1 = q.all.length := by
  rw [Source.all_step, Source.all]
  cases hw : q.waiting with
  | nil => exact absurd hw h
  | cons x w =>
    simp only [if_true, List.tail_cons, List.length_append, List.length_cons]
    omega

variable {q}

theorem waiting_of_arrived {x l : List α} (hc : q.coming = []) (ha : q.all = x ++ l) (hx : x ≠ []) : q.waiting ≠ [] := by
  rw [Source.all, hc, List.append_nil] at ha
  simp [ha, hx]

end

theorem work_step (s : TmSys) : (s.step go).work = (s.pkt.step false s.tm.inPktReady).all.length +
    (s.usr.step false (s.tm.inUsrReady (s.tmIn go))).all.length +
    (2 * (s.metaData.step false (s.tm.inMetaReady (s.tmIn go))).all.length - if (s.step go).tm.state = .idle then 0 else 1) := rfl

theorem work_falls_of_busy (hs : s.tm.state ≠ .idle) (hmw : s.metaData.waiting ≠ [])
    (hst : (s.step go).tm.state = .idle ↔ s.tm.inMetaReady (s.tmIn go) = true)
    (htake : (s.tm.inPktReady = true ∧ s.pkt.waiting ≠ []) ∨ (s.tm.inUsrReady (s.tmIn go) = true ∧ s.usr.waiting ≠ [])) :
    (s.step go).work < s.work := by
  have hp := length_step_le s.pkt false s.tm.inPktReady
  have hu := length_step_le s.usr false (s.tm.inUsrReady (s.tmIn go))
  have hm := length_step_take s.metaData false hmw
  rw [work_step, work, if_neg hs]
  by_cases hr : s.tm.inMetaReady (s.tmIn go) = true
  · rw [if_pos (hst.2 hr), hr]
    omega
  · have hr' : s.tm.inMetaReady (s.tmIn go) = false := by simpa using hr
    rw [if_neg fun h => hr (hst.1 h), hr', Source.all_step_false]
    rcases htake with ⟨h1, h2⟩ | ⟨h1, h2⟩
    · rw [h1] at hp ⊢
      have := length_step_take s.pkt false h2
      omega
    · rw [h1] at hu ⊢
      have := length_step_take s.usr false h2
      omega

theorem Inv.work_falls (h : Inv ts s) (ha : Arrived s) : (s.step go).work < s.work ∨ Complete ts s := by
  obtain ⟨ap, am, au⟩ := ha
  have hst : (s.step go).tm.state = s.tm.nextState (s.tmIn go) := rfl
  cases h with
  | @idle done later hts h =>
    cases later with
    | nil =>
      right
      rw [List.append_nil] at hts
      subst hts
      exact ⟨h.outPkt, h.outMeta, h.outUsr⟩
    | cons t later =>
      left
      have hmw : s.metaData.waiting ≠ [] := waiting_of_arrived (x := [t.metaData]) am h.metaData (by simp)
      have huw : s.usr.waiting ≠ [] := waiting_of_arrived au h.usr t.rules.flits_ne_nil
      have htr : TrafficManager.transit (s.tmIn go) = true := by
        simp [TrafficManager.transit, TrafficManager.notAlmostFull, tmIn, go, Option.isSome_iff_ne_none, hmw, huw]
      have hne : (s.step go).tm.state ≠ .idle := by
        rw [hst]
        simp only [TrafficManager.nextState, h.state, htr, if_true]
        split <;> simp
      have hml : 0 < s.metaData.all.length := by simp [h.metaData]
      have hp := length_step_le s.pkt false s.tm.inPktReady
      have hu := length_step_le s.usr false (s.tm.inUsrReady (s.tmIn go))
      have hm := length_step_le s.metaData false (s.tm.inMetaReady (s.tmIn go))
      rw [work_step, if_neg hne, work, if_pos h.state]
      omega
  | @noCheck done later t sent rest hts h =>
    left
    have hne : rest ≠ [] := fun hr => absurd (h.pkt.done_iff.2 hr) Bool.false_ne_true
    refine work_falls_of_busy (by simp [h.state]) h.metaWaits ?_ (.inl ⟨?_, waiting_of_arrived ap h.pkt.all hne⟩)
    · rw [hst]
      simp [TrafficManager.nextState, TrafficManager.inMetaReady, TrafficManager.checkDone, h.state]
    · simp [TrafficManager.inPktReady, h.state]
  | @check done later t sent rest sentU restU hts h =>
    left
    refine work_falls_of_busy (by simp [h.state]) h.metaWaits ?_ ?_
    · rw [hst]
      simp [TrafficManager.nextState, TrafficManager.inMetaReady, TrafficManager.noCheckDone, h.state]
    · cases hp : s.tm.pktDoneR
      · have hne : rest ≠ [] := fun hr => absurd (hp.symm.trans (h.pkt.done_iff.2 hr)) Bool.false_ne_true
        exact .inl ⟨by simp [TrafficManager.inPktReady, h.state, hp], waiting_of_arrived ap h.pkt.all hne⟩
      · have hu : s.tm.ruleDoneR = false := by simpa [hp] using h.notDone
        have hne : restU ≠ [] := fun hr => absurd (hu.symm.trans (h.usr.done_iff.2 hr)) Bool.false_ne_true
        exact .inr ⟨by simp [TrafficManager.inUsrReady, h.state, hu], waiting_of_arrived au h.usr.all hne⟩

end TmSys

/-- Whatever the arrival times and the back-pressure, what is put out is the beginning of the packets in order, each on
the channel of its group, and of the metadata and groups of those on channel 1; and when all has arrived, as many cycles
without back-pressure as there are words complete it. -/
theorem trafficManager_keepsTriples (ts : List Triple) (is : List TmTick) :
    let s := run TmSys.step (.reset ts) is
    (s.outPkt <+: expectedPkt ts ∧ s.outMeta <+: expectedMeta ts ∧ s.outUsr <+: expectedUsr ts) ∧
      (s.outPkt.filter Prod.snd).map Prod.fst <+: (ts.filter Triple.checked).flatMap (fun t => t.pkt.flits) ∧
      (s.Arrived → ∀ n, s.work ≤ n → (run TmSys.step s (List.replicate n TmSys.go)).Complete ts) := by
  intro s
  have hinv : TmSys.Inv ts s := run_inv TmSys.step (fun s i (h : TmSys.Inv ts s) (_ : True) => h.step i) is _ (.reset ts)
    (allSteps_of_forall _ (fun _ _ => trivial) _ _)
  refine ⟨hinv.prefixes, ?_, fun ha n hn => ?_⟩
  · rw [← expectedPkt_channel]
    exact (hinv.prefixes.1.filter _).map _
  exact run_reaches TmSys.step (TmSys.Complete ts) TmSys.work
    (fun s i (h : TmSys.Inv ts s ∧ s.Arrived) (_ : True) => ⟨h.1.step i, h.2.step i⟩) (fun s h => h.1.work_falls h.2) (fun s h hc => hc.step h.1) n
    ⟨hinv, ha⟩ (.inl hn) (allSteps_of_forall _ (fun _ _ => trivial) _ _)

end Pigasus
