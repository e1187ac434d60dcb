import Pigasus.FastPathRun
import Pigasus.HashFunc

/-!
# The flow table is a map

The entries that the four sub-tables and the queue store, in a state with no
operation in flight, against the map that the operations of channels 1 and 3
build up one after another, and the lookups of channels 0 and 2 against it.
-/

namespace Pigasus

open Hdl HashStore

inductive Slot
  | ft (k : Fin 4) (a : FtAddr)
  | q (j : Fin 8)

def FlowTable.slot (s : FlowTable) : Slot → Fce
  | .ft k a => (s.ram k).mem a
  | .q j => s.pq.entries j

/-- The valid entries of `s` are those of `M`, each in one slot and at its own address. -/
structure FlowTable.IsMap (s : FlowTable) (M : FlowData) : Prop where
  unique : ∀ l l', (s.slot l).valid = true → (s.slot l').valid = true → (s.slot l).tuple = (s.slot l').tuple → l = l'
  own : ∀ k a, ((s.ram k).mem a).valid = true → ((s.ram k).mem a).addr k = a
  entries : ∀ t e, M t = some e ↔ e.valid = true ∧ e.tuple = t ∧ ∃ l, s.slot l = e

def Returns (M : FlowData) (t : Tuple) (b : BitMap) (q : Fce) : Prop :=
  (isZero Loc.all b = true ↔ M t = none) ∧ q = (M t).getD .zero

theorem SeesAll.returns {P : FlowMap} {t : Tuple} {b : BitMap} {q : Fce} (hs : SeesAll (P t) b q)
    (hn : ∀ e, P t ≠ some (.transit, e)) : Returns P.data t b q := by
  refine ⟨?_, hs.2⟩
  rw [isZero_iff, Located.data, Option.map_eq_none_iff]
  constructor
  · exact fun hz => hs.miss hn (isZero_iff.2 hz)
  · intro hp l _
    rw [← Bool.not_eq_true, hs.1, hp]
    simp

namespace FastPath

/-- The fast path has no lookup, port B no task and the queue no request. -/
def Quiet (s : FastPath) : Prop :=
  s.ft.rdValidAR = false ∧ s.ft.rdValidA = false ∧ s.ft.ch0RdValid = false ∧ s.dec.ch1Wren = false ∧
    s.ft.pb.pState = .pArb ∧ s.ft.pb.slowBusy = false ∧ s.ft.qDequeDoneR = false ∧
    s.ft.pq.opEnR = false ∧ s.ft.pq.wrenAR = false ∧ s.ft.pq.wrenBR = false

def track (x : FastPath × FlowData) (i : FastIn) : FastPath × FlowData := (x.1.step i, x.1.slowOp (x.1.fastOp i x.2))

end FastPath

/-- As `FastEnv`, with the addresses of every entry that channel 3 writes those of its tuple. -/
def MapEnv (h : Tuple → Fin 4 → FtAddr) (s : FastPath) (i : FastIn) : Prop :=
  FastEnv h s i ∧ (i.ch3Wren = true → Own h i.ch3Data)

instance (h : Tuple → Fin 4 → FtAddr) (s : FastPath) (i : FastIn) : Decidable (MapEnv h s i) := by
  unfold MapEnv; infer_instance

instance (s : FastPath) : Decidable s.Quiet := by unfold FastPath.Quiet; infer_instance

/-! ## Quiet states -/

section
variable {h : Tuple → Fin 4 → FtAddr} {s : FastPath} {E : List Fce} {r : ParaQIn} {P : FlowMap} {snap : Found}
  {ph : Phase} {st : Stage} (I : FastInv h s E r P snap ph st)
include I

theorem FastInv.phase_of_quiet (hq : s.Quiet) : ph = .arb := by
  obtain ⟨_, _, _, _, hS, hb, hd, _⟩ := hq
  rw [I.ctl.pState] at hS
  rw [I.ctl.slowBusy] at hb
  rw [I.ctl.qDequeDoneR] at hd
  cases ph <;> simp [Phase.pState, Phase.busy] at hS hb hd ⊢

theorem FastInv.apply_of_quiet (hq : s.Quiet) : r.apply E = E := by
  have hp := I.phase_of_quiet hq
  obtain ⟨_, _, _, _, _, _, _, ho, ha, hb⟩ := hq
  rw [I.pq.opEn] at ho
  rw [I.pq.wrenA] at ha
  rw [I.pq.wrenB] at hb
  have hd : r.dequeEn = false := by rw [← I.pq.deque, I.ctl.dequeEnR, hp]; rfl
  have hw : r.write = id := by
    funext e
    simp [ParaQIn.write, ha, hb]
  simp [ParaQIn.apply, ParaQIn.remain, ParaQIn.inserted, ParaQIn.isInsert, ParaQIn.isDelete, ho, hd, hw]

theorem FastInv.queue_of_quiet (hq : s.Quiet) : (s.ft.view E r).queue = E := by
  have hp := I.phase_of_quiet hq
  subst hp
  have hpend := pendB_id (I.ctl.qWrenB (by simp))
  simp [FlowTable.view, FlowTable.evicted, I.ctl.evict (by simp), I.apply_of_quiet hq, hpend]

theorem FastInv.tab_of_quiet (hq : s.Quiet) (k : Fin 4) (a : FtAddr) :
    (s.ft.view E r).tab k a = occ ((s.ft.ram k).mem a) := by
  have hp := I.phase_of_quiet hq
  subst hp
  have hw := FlowTable.words_of_not_wren (I.ctl.wrenB (by simp) (by simp) k)
  simp [FlowTable.view, hw]

theorem FastInv.slot_found (hq : s.Quiet) {l : Slot} (hv : (s.ft.slot l).valid = true) :
    match l with
    | .ft k a => P (s.ft.slot l).tuple = some (.way k, s.ft.slot l) ∧ h (s.ft.slot l).tuple k = a
    | .q j => P (s.ft.slot l).tuple = some (.queue, s.ft.slot l) ∧ E[j.val]? = some (s.ft.slot l) := by
  cases l with
  | ft k a =>
    refine I.rep.way.1 ?_
    rw [I.tab_of_quiet hq]
    exact occ_of_valid hv
  | q j =>
    have he : E[j.val]? = some (s.ft.pq.entries j) := by
      have hj := I.pq.entries j
      cases hE : E[j.val]? with
      | none =>
        rw [hE] at hj
        simp only [FlowTable.slot, hj] at hv
        cases hv
      | some e =>
        rw [hE] at hj
        rw [hj]
        rfl
    refine ⟨I.rep.queue.1 ?_, he⟩
    rw [I.queue_of_quiet hq]
    exact List.mem_of_getElem? he

theorem FastInv.slot_of_found (hq : s.Quiet) {t : Tuple} {p : Place (Fin 4)} {e : Fce} (hp : P t = some (p, e)) :
    ∃ l, s.ft.slot l = e := by
  cases p with
  | way k =>
    have ht := I.rep.tab_hash hp
    rw [I.tab_of_quiet hq] at ht
    exact ⟨.ft k (h t k), (occ_eq_some.1 ht).2⟩
  | queue =>
    have hm := I.rep.mem_queue hp
    rw [I.queue_of_quiet hq] at hm
    obtain ⟨j, hj, rfl⟩ := List.mem_iff_getElem.1 hm
    have hlen := I.queue.len
    refine ⟨.q ⟨j, by omega⟩, ?_⟩
    simp [FlowTable.slot, I.pq.entries, hj]
  | transit =>
    have hp' := I.phase_of_quiet hq
    subst hp'
    exact absurd hp (I.rep.not_transit (I.transit_none rfl rfl))

theorem FastInv.isMap (hq : s.Quiet) : s.ft.IsMap P.data where
  unique l l' hv hv' ht := by
    have h1 := I.slot_found hq hv
    have h2 := I.slot_found hq hv'
    cases l with
    | ft k a =>
      cases l' with
      | ft k' a' =>
        have hP := h1.1.symm.trans (ht ▸ h2.1)
        simp only [Option.some.injEq, Prod.mk.injEq, Place.way.injEq] at hP
        obtain ⟨rfl, _⟩ := hP
        rw [← h1.2, ← h2.2, ht]
      | q j =>
        have hP := h1.1.symm.trans (ht ▸ h2.1)
        simp at hP
    | q j =>
      cases l' with
      | ft k' a' =>
        have hP := h1.1.symm.trans (ht ▸ h2.1)
        simp at hP
      | q j' =>
        have hj : tupleAt E (s.ft.slot (.q j)).tuple j.val = true := by simp [tupleAt, h1.2]
        have hj' : tupleAt E (s.ft.slot (.q j)).tuple j'.val = true := by simp [tupleAt, h2.2, ht]
        exact congrArg Slot.q (Fin.ext (tupleAt_unique I.queue hj hj'))
  own k a hv := by
    obtain ⟨hp, ha⟩ := I.slot_found hq (l := .ft k a) hv
    exact ((I.own hp).2 k).trans ha
  entries t e := by
    constructor
    · intro hd
      obtain ⟨⟨p, e'⟩, hp, rfl⟩ := Option.map_eq_some_iff.1 hd
      exact ⟨(I.own hp).1, I.rep.keyed hp, I.slot_of_found hq hp⟩
    · rintro ⟨hv, rfl, l, rfl⟩
      have hs := I.slot_found hq hv
      cases l <;> simp [Located.data, hs.1]

theorem FastInv.phase_of_slowRead (hS : s.ft.pb.pState = .slowLookup) (hr : s.ft.pb.qRdenB = true) : ph = .lk .b1 := by
  rw [I.ctl.qRdenB] at hr
  rw [I.ctl.pState] at hS
  rcases of_decide_eq_true hr with rfl | rfl
  · cases hS
  · rfl

theorem FastInv.ch2_returns (hS : s.ft.pb.pState = .slowLookup) (hr : s.ft.pb.qRdenB = true) {i j : FastIn}
    (hi : FastEnv h s i ∧ s.Clean i) (hj : FastEnv h (s.step i) j ∧ (s.step i).Clean j) :
    ((s.step i).step j).ft.ch2RdValid = true ∧
      Returns P.data s.ft.pb.lookupTupleB ((s.step i).step j).ft.ch2BitMap ((s.step i).step j).ft.ch2Q := by
  have hp := I.phase_of_slowRead hS hr
  subst hp
  obtain ⟨P1, I1, _⟩ := I.step hi.1 hi.2
  obtain ⟨P2, I2, _⟩ := I1.step hj.1 hj.2
  refine ⟨?_, (I2.ch2_result rfl).returns (P := P) ?_⟩
  · rw [FlowTable.ch2RdValid, I2.ctl.pState, I2.ctl.rdValidB]
    rfl
  · exact fun e => I.rep.not_transit (I.transit_none rfl rfl)

theorem FastInv.ch0_returns (hv : s.ft.ch0RdValid = true) : Returns P.data s.m10.tuple s.ft.ch0BitMap s.ft.ch0Q := by
  have hst : st = .dec := by simpa [I.stage.ch0RdValid] using hv
  subst hst
  obtain ⟨hm, _, hs⟩ := I.fast
  rw [hm]
  exact hs.returns fun e => I.not_transit_of_age (by simp [Stage.age])

end

/-! ## Runs -/

def MapInv (h : Tuple → Fin 4 → FtAddr) (x : FastPath × FlowData) : Prop :=
  (∃ E r P snap ph st, FastInv h x.1 E r P snap ph st ∧ P.data = x.2) ∧
    (x.1.ft.pb.pState = .slowUpdateWait ∨ x.1.ft.pb.pState = .slowUpdate → Own h x.1.ft.pb.ch3DataR)

theorem own3_next {h : Tuple → Fin 4 → FtAddr} {s : FlowTable} {i : FtIn} {ph : Phase} (hc : Ctl s ph)
    (hi : i.ch3Wren = true → Own h i.ch3Data)
    (ho : s.pb.pState = .slowUpdateWait ∨ s.pb.pState = .slowUpdate → Own h s.pb.ch3DataR)
    (hS : (s.step i).pb.pState = .slowUpdateWait ∨ (s.step i).pb.pState = .slowUpdate) :
    Own h (s.step i).pb.ch3DataR := by
  rw [hc.pb_step i] at hS ⊢
  rw [hc.pState] at ho
  cases ph with
  | arb | filled | updated =>
    simp only [Phase.portB, FlowTable.arbStep] at hS ⊢
    split_ifs at hS ⊢ with h1 h2 h3 h4 <;> simp [FlowTable.arbDefault, FlowTable.take2, FlowTable.slowRead] at hS <;>
      exact hi h3
  | lookup b =>
    simp only [Phase.portB, FlowTable.lookupStep] at hS ⊢
    split_ifs at hS <;> simp [hc.pState, Phase.pState] at hS
  | fill b =>
    simp only [Phase.portB, FlowTable.fillStep] at hS ⊢
    split_ifs at hS <;> simp [hc.pState, Phase.pState] at hS
  | evic b =>
    simp only [Phase.portB, FlowTable.evicStep] at hS ⊢
    split_ifs at hS <;> simp [hc.pState, Phase.pState] at hS
  | upWait =>
    have := ho (.inl rfl)
    simp only [Phase.portB, FlowTable.slowUpdateWaitStep]
    split_ifs <;> exact this
  | up b => exact ho (.inr rfl)
  | lkWait =>
    simp only [Phase.portB, FlowTable.slowLookupWaitStep] at hS ⊢
    split_ifs at hS <;> simp [FlowTable.slowRead, hc.pState, Phase.pState] at hS
  | lk b =>
    simp only [Phase.portB, FlowTable.slowLookupStep] at hS ⊢
    split_ifs at hS <;> simp at hS

theorem allSteps_fst {ok : FastPath → FastIn → Prop} {is : List FastIn} {x : FastPath × FlowData}
    (ha : AllSteps FastPath.step ok x.1 is) : AllSteps FastPath.track (fun x i => ok x.1 i) x is := by
  induction is generalizing x with
  | nil => trivial
  | cons i is ih => exact ⟨ha.1, ih (x := FastPath.track x i) ha.2⟩

theorem MapInv.step {h : Tuple → Fin 4 → FtAddr} {x : FastPath × FlowData} {i : FastIn} (hx : MapInv h x)
    (hi : MapEnv h x.1 i ∧ x.1.Clean i) : MapInv h (FastPath.track x i) := by
  obtain ⟨⟨E, r, P, snap, ph, st, I, hd⟩, hown⟩ := hx
  obtain ⟨P', I', hd'⟩ := I.step hi.1.1 hi.2
  refine ⟨⟨_, _, P', _, _, _, I', ?_⟩, own3_next I.ctl hi.1.2 hown⟩
  rw [hd' fun hp => hown (.inr (by rw [I.ctl.pState, hp]; rfl)), hd]
  rfl

/-- In a run without unhandled port conflicts the flow table is the map of its operations. -/
theorem flowTable_isMap (h : Tuple → Fin 4 → FtAddr) (is : List FastIn)
    (hok : AllSteps FastPath.step (fun s i => MapEnv h s i ∧ s.Clean i) .reset is) :
    let x := run FastPath.track (.reset, fun _ => none) is
    (x.1.Quiet → x.1.ft.IsMap x.2) ∧
      (x.1.ft.ch0RdValid = true → Returns x.2 x.1.m10.tuple x.1.ft.ch0BitMap x.1.ft.ch0Q) ∧
      (x.1.ft.pb.pState = .slowLookup → x.1.ft.pb.qRdenB = true → ∀ i j, MapEnv h x.1 i ∧ x.1.Clean i →
        MapEnv h (x.1.step i) j ∧ (x.1.step i).Clean j →
        ((x.1.step i).step j).ft.ch2RdValid = true ∧
          Returns x.2 x.1.ft.pb.lookupTupleB ((x.1.step i).step j).ft.ch2BitMap ((x.1.step i).step j).ft.ch2Q) := by
  intro x
  have hreset : MapInv h (.reset, fun _ => none) :=
    ⟨⟨_, _, _, _, _, _, .reset, rfl⟩, by simp [FastPath.reset, FlowTable.reset, FlowTable.resetPortB]⟩
  have hsteps := allSteps_fst (x := (FastPath.reset, fun _ => none)) hok
  have hx : MapInv h x := run_inv FastPath.track (fun _ _ => MapInv.step) is _ hreset hsteps
  obtain ⟨⟨E, r, P, snap, ph, st, I, hd⟩, -⟩ := hx
  rw [← hd]
  exact ⟨I.isMap, I.ch0_returns, fun hS hr i j hi hj => I.ch2_returns hS hr ⟨hi.1.1, hi.2⟩ ⟨hj.1.1, hj.2⟩⟩

/-! ## A delete that meets the deque of its entry -/

def FastIn.none : FastIn := ⟨.zero, false, vec fun _ => 0, .zero, false, false, .zero, 0⟩

def FastIn.lookup (m : Metadata) : FastIn := { FastIn.none with m7 := m, ch0Rden := true, ch0Addr := vec (ftAddr m.tuple) }

/-- A packet that opens a flow and, `n + 1` cycles later, one that closes it. -/
def openClose (n : Nat) : List FastIn :=
  FastIn.lookup (.tcp tupleA 100 10 1 0x10) :: List.replicate n FastIn.none ++
    FastIn.lookup (.tcp tupleA 110 10 2 0x11) :: List.replicate 12 FastIn.none

theorem flowTable_isMap_openClose :
    let x := run FastPath.track (.reset, fun _ => none) (openClose 14)
    x.1.Quiet ∧ x.1.ft.IsMap x.2 := by
  have hok : AllSteps FastPath.step (fun s i => MapEnv ftAddr s i ∧ s.Clean i) .reset (openClose 14) := by decide +kernel
  refine ⟨by decide +kernel, (flowTable_isMap ftAddr (openClose 14) hok).1 (by decide +kernel)⟩

/-- The closing packet deletes the flow in the cycle in which port B takes it out of the queue: the flow stays. -/
theorem flowTable_not_isMap :
    AllSteps FastPath.step (MapEnv ftAddr) .reset (openClose 6) ∧
      let x := run FastPath.track (.reset, fun _ => none) (openClose 6)
      x.1.Quiet ∧ ¬ x.1.ft.IsMap x.2 := by
  refine ⟨by decide +kernel, by decide +kernel, fun hm => ?_⟩
  have hslot : ((run FastPath.track (.reset, fun _ => none) (openClose 6)).1.ft.slot (.ft 0 (ftAddr tupleA 0))).valid = true ∧
      (run FastPath.track (.reset, fun _ => none) (openClose 6)).2
        ((run FastPath.track (.reset, fun _ => none) (openClose 6)).1.ft.slot (.ft 0 (ftAddr tupleA 0))).tuple = none := by
    decide +kernel
  have := (hm.entries _ _).2 ⟨hslot.1, rfl, _, rfl⟩
  simp [hslot.2] at this

end Pigasus
