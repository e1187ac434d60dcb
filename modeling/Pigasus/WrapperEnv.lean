import Pigasus.FastPathRun
import Pigasus.FlowTableWrapper

/-!
# The flow table in the reassembler

The wrapper gives its flow table the environment that the invariant of the fast
path asks for: the addresses on every channel are the hashes of the tuple beside
them, and the slow path holds an entry on channel 3 while port B has to wait.
-/

namespace Pigasus

open Hdl HashStore

/-! ## The hash pipeline -/

open HashFunc in
/-- The words of the pipeline `p` belong to the metadata beside them; `v` has the valid bits. -/
structure HashOk (v p : HashFunc) (initval : BitVec 32) (m : Vec Metadata 8) : Prop where
  s0 : v.valid = true → p.s0 = load initval (m 0).tuple
  s1 : v.valid1 = true → p.s1 = stage1 (load initval (m 1).tuple)
  s2 : v.valid2 = true → p.s2 = stage2 (stage1 (load initval (m 2).tuple))
  s3 : v.valid3 = true → p.s3 = stage3 (stage2 (stage1 (load initval (m 3).tuple)))
  s4 : v.valid4 = true → p.s4 = stage4 (stage3 (stage2 (stage1 (load initval (m 4).tuple))))
  s5 : v.valid5 = true → p.s5 = stage5 (stage4 (stage3 (stage2 (stage1 (load initval (m 5).tuple)))))
  s6 : v.valid6 = true → p.s6 = stage6 (stage5 (stage4 (stage3 (stage2 (stage1 (load initval (m 6).tuple))))))
  hashed : v.hashedValid = true → p.hashed = hash initval (m 7).tuple

theorem HashOk.reset (initval : BitVec 32) (m : Vec Metadata 8) : HashOk .reset .reset initval m := by
  constructor <;> simp [HashFunc.reset]

theorem HashOk.step {v p : HashFunc} {initval : BitVec 32} {m : Vec Metadata 8} (h : HashOk v p initval m)
    (stall : Bool) (iv : BitVec 32) (d : Metadata) (valid : Bool) :
    HashOk (v.step stall iv d.tuple valid) (p.step stall initval d.tuple valid) initval
      (if stall then m else Wrapper.pipeStep m d) := by
  cases stall with
  | true => exact h
  | false =>
    constructor <;> intro hv <;>
      simp only [HashFunc.step, Bool.false_eq_true, if_false, Wrapper.pipeStep, vec_get, hash] at hv ⊢
    · rfl
    · rw [h.s0 hv]; rfl
    · rw [h.s1 hv]; rfl
    · rw [h.s2 hv]; rfl
    · rw [h.s3 hv]; rfl
    · rw [h.s4 hv]; rfl
    · rw [h.s5 hv]; rfl
    · rw [h.s6 hv]; rfl

/-! ## Channels 2 and 3 -/

def Rewrites (e d : Fce) : Prop := d.tuple = e.tuple ∧ d.addr = e.addr ∧ (d.valid = true → e.valid = true)

theorem Rewrites.own {h : Tuple → Fin 4 → FtAddr} {e d : Fce} (hr : Rewrites e d) (he : e.valid = true → Own h e)
    (hd : d.valid = true) : Own h d := by
  intro k
  rw [hr.2.1, hr.1]
  exact he (hr.2.2 hd) k

theorem Rewrites.refl (e : Fce) : Rewrites e e := ⟨rfl, rfl, id⟩

namespace FlowReassembly

variable (s : FlowReassembly) (ll : LinkedList) (i : FrIn)

theorem releaseAlone_ch3Data : Rewrites s.ch3Data s.releaseAlone.ch3Data := by
  refine ⟨rfl, rfl, fun hv => ?_⟩
  simp only [releaseAlone] at hv
  split at hv
  · cases hv
  · exact hv

theorem drainLast_ch3Data (h : Entry) : Rewrites s.ch3Data (s.drainLast h).ch3Data := by
  refine ⟨rfl, rfl, fun hv => ?_⟩
  simp only [drainLast] at hv
  split at hv
  · cases hv
  · exact hv

theorem inorder_ch3Data : Rewrites s.ch3Data (s.inorder ll i).ch3Data := by
  unfold inorder
  split
  · split
    · exact .refl _
    · exact s.releaseAlone_ch3Data
  · exact .refl _
  · split
    · split
      · exact s.drainLast_ch3Data _
      · split <;> exact .refl _
    · exact ⟨rfl, rfl, id⟩
  · split <;> exact .refl _
  · exact .refl _

theorem outOfOrder_ch3Data : Rewrites s.ch3Data (s.outOfOrder ll).ch3Data := by
  unfold outOfOrder storeStart storePointer
  split <;> (try split) <;> exact ⟨rfl, rfl, id⟩

theorem compare_ch3Data (hs : s.state = .compare) : Rewrites s.ch3Data (s.step ll i).ch3Data := by
  simp only [step, hs]
  split
  · exact s.inorder_ch3Data ll i
  · split
    · exact s.outOfOrder_ch3Data ll
    · exact .refl _

theorem inorder_ch3Wren : (s.inorder ll i).ch3Wren = false ∨ (s.inorder ll i).state = .waitWrReady := by
  unfold inorder
  split
  · split
    · exact .inl rfl
    · exact .inr rfl
  · exact .inl rfl
  · split
    · split
      · exact .inr rfl
      · split <;> exact .inl rfl
    · exact .inr rfl
  · split <;> exact .inl rfl
  · exact .inl rfl

theorem outOfOrder_ch3Wren : (s.outOfOrder ll).ch3Wren = false ∨ (s.outOfOrder ll).state = .waitWrReady := by
  unfold outOfOrder storeStart storePointer
  split
  · split <;> exact .inl rfl
  · split <;> exact .inl rfl
  · exact .inl rfl
  · split
    · cases hw : s.ch3WrTemp || ll.updatePValid with
      | false => exact .inl hw
      | true => exact .inr (by simp [storeDone, hw])
    · exact .inl rfl
  · exact .inl rfl

theorem inorder_ch2 : (s.inorder ll i).ch2Meta = s.ch2Meta ∧ (s.inorder ll i).ch2Rden = s.ch2Rden := by
  unfold inorder
  split <;> (try split) <;> (try split) <;> (try split) <;> exact ⟨rfl, rfl⟩

theorem outOfOrder_ch2 : (s.outOfOrder ll).ch2Meta = s.ch2Meta ∧ (s.outOfOrder ll).ch2Rden = s.ch2Rden := by
  unfold outOfOrder storeStart storePointer
  split <;> (try split) <;> exact ⟨rfl, rfl⟩

theorem ch2Meta_next (hr : (s.step ll i).ch2Rden = true) :
    (s.state = .idle ∧ i.fceValid = true ∧ (s.step ll i).ch2Meta = ⟨i.fceData.tuple, i.fceData.addr⟩) ∨
      (s.ch2Rden = true ∧ (s.step ll i).ch2Meta = s.ch2Meta) := by
  unfold step at hr ⊢
  cases hS : s.state with
  | idle =>
    simp only [hS] at hr ⊢
    split at hr
    · next ht =>
      simp only [Bool.and_eq_true] at ht
      left
      simp [ht, take]
    · cases hr
  | getFce =>
    simp only [hS, getFceStep, Bool.and_eq_true] at hr ⊢
    exact .inr ⟨hr.1, trivial⟩
  | compare =>
    right
    simp only [hS] at hr ⊢
    split at hr
    · next h1 =>
      rw [(s.inorder_ch2 ll i).2] at hr
      rw [if_pos h1]
      exact ⟨hr, (s.inorder_ch2 ll i).1⟩
    · next h1 =>
      rw [if_neg h1]
      split at hr
      · next h2 =>
        rw [(s.outOfOrder_ch2 ll).2] at hr
        rw [if_pos h2]
        exact ⟨hr, (s.outOfOrder_ch2 ll).1⟩
      · next h2 =>
        rw [if_neg h2]
        exact ⟨hr, rfl⟩
  | waitWrReady =>
    simp only [hS] at hr
    cases hr

def WrenOk : Prop := s.ch3Wren = true → s.state = .idle ∨ s.state = .waitWrReady

theorem WrenOk.step {s : FlowReassembly} (hs : s.WrenOk) (ll : LinkedList) (i : FrIn) : (s.step ll i).WrenOk := by
  intro hw
  unfold FlowReassembly.step at hw ⊢
  cases hS : s.state with
  | idle =>
    simp only [hS] at hw
    split at hw <;> cases hw
  | getFce =>
    simp only [hS] at hw
    have := hs hw
    simp [hS] at this
  | compare =>
    simp only [hS] at hw ⊢
    split at hw
    · next h1 =>
      rw [if_pos h1]
      exact .inr ((s.inorder_ch3Wren ll i).resolve_left (by simp [hw]))
    · next h1 =>
      rw [if_neg h1]
      split at hw
      · next h2 =>
        rw [if_pos h2]
        exact .inr ((s.outOfOrder_ch3Wren ll).resolve_left (by simp [hw]))
      · next h2 =>
        rw [if_neg h2]
        exact .inl rfl
  | waitWrReady =>
    simp only [waitWrReadyStep]
    split <;> simp

end FlowReassembly

/-! ## The environment -/

structure EnvOk (s : Wrapper) : Prop where
  hash : ∀ k, HashOk (s.hash 0) (s.hash k) (BitVec.ofNat 32 k.val) s.m
  ooo : s.fast.dec.oooFceValid = true → Own ftAddr s.fast.dec.oooFceData
  fifo : ∀ e ∈ s.slow.oooFceFifo, Own ftAddr e
  ch2 : s.slow.fr.ch2Rden = true → ∀ k, s.slow.fr.ch2Meta.addr k = ftAddr s.slow.fr.ch2Meta.tuple k
  ch3 : s.slow.fr.ch3Data.valid = true → Own ftAddr s.slow.fr.ch3Data
  wren : s.slow.fr.WrenOk
  held : s.fast.ft.pb.pState = .slowUpdateWait →
    (s.slow.fr.state = .idle ∨ s.slow.fr.state = .getFce) ∧ s.slow.fr.ch3Data.tuple = s.fast.ft.pb.ch3DataR.tuple

theorem EnvOk.reset : EnvOk .reset where
  hash k := by
    simp only [Wrapper.reset, vec_get]
    exact .reset _ _
  ooo := by simp [Wrapper.reset, FastPath.reset, FastPath.resetDecision]
  fifo := by simp [Wrapper.reset, SlowPath.reset]
  ch2 := by simp [Wrapper.reset, SlowPath.reset, FlowReassembly.reset]
  ch3 := by simp [Wrapper.reset, SlowPath.reset, FlowReassembly.reset, Fce.zero]
  wren := by simp [FlowReassembly.WrenOk, Wrapper.reset, SlowPath.reset, FlowReassembly.reset]
  held := by simp [Wrapper.reset, FastPath.reset, FlowTable.reset, FlowTable.resetPortB]

theorem EnvOk.fastEnv {s : Wrapper} (h : EnvOk s) : FastEnv ftAddr s.fast s.fastIn where
  ch0 hv k := by simp [Wrapper.fastIn, ftAddr, (h.hash k).hashed hv]
  ch2 := h.ch2
  ch3 _ := h.ch3
  held hS := (h.held hS).2

section
variable {s : Wrapper} (h : EnvOk s) (i : WrapIn)
include h

theorem EnvOk.fifo_next : ∀ e ∈ (s.step i).slow.oooFceFifo, Own ftAddr e := by
  intro e he
  have hm : e ∈ fifoStep s.slow.oooFceFifo (s.slowIn i).oooFce s.slow.fr.fceReady := he
  simp only [fifoStep, List.mem_append] at hm
  rcases hm with hm | hm
  · refine h.fifo e ?_
    split at hm
    · exact List.mem_of_mem_tail hm
    · exact hm
  · simp only [Wrapper.slowIn] at hm
    split at hm
    · next hv =>
      simp only [Option.toList_some, List.mem_singleton] at hm
      exact hm ▸ h.ooo hv
    · simp at hm

theorem EnvOk.ch2_next (hr : (s.step i).slow.fr.ch2Rden = true) (k : Fin 4) :
    (s.step i).slow.fr.ch2Meta.addr k = ftAddr (s.step i).slow.fr.ch2Meta.tuple k := by
  have hfr : (s.step i).slow.fr = s.slow.fr.step s.slow.ll (s.slow.frIn (s.slowIn i)) := rfl
  rw [hfr] at hr ⊢
  rcases FlowReassembly.ch2Meta_next _ _ _ hr with ⟨_, hv, hm⟩ | ⟨hr', hm⟩
  · rw [hm]
    have hmem : s.slow.oooFceFifo.headD .zero ∈ s.slow.oooFceFifo := by
      cases hf : s.slow.oooFceFifo with
      | nil => simp [SlowPath.frIn, hf] at hv
      | cons e l => simp
    exact h.fifo _ hmem k
  · rw [hm]
    exact h.ch2 hr' k

omit h in
theorem slowReady_of_grant (hg : s.fast.ft.grant s.ftIn = 0b0010#4) : s.fast.ft.slowReady s.ftIn = true := by
  rw [FlowTable.slowReady, hg]
  rfl

theorem EnvOk.taken (hg : s.fast.ft.grant s.ftIn = 0b0010#4) (hw : s.slow.fr.ch3Wren = true) :
    ((s.step i).slow.fr.state = .idle ∨ (s.step i).slow.fr.state = .getFce) ∧
      (s.step i).slow.fr.ch3Data = s.slow.fr.ch3Data := by
  show ((s.slow.fr.step s.slow.ll (s.slow.frIn (s.slowIn i))).state = _ ∨ _) ∧ _ = _
  rcases h.wren hw with hst | hst
  · simp only [Wrapper.step, SlowPath.step, FlowReassembly.step, hst]
    split
    · exact ⟨.inr rfl, rfl⟩
    · exact ⟨.inl hst, rfl⟩
  · have hr : (s.slow.frIn (s.slowIn i)).ch3Ready = true := slowReady_of_grant hg
    simp only [Wrapper.step, SlowPath.step, FlowReassembly.step, hst, FlowReassembly.waitWrReadyStep, hr, if_true]
    simp

theorem EnvOk.held_next {ph : Phase} (hc : Ctl s.fast.ft ph) (hS : (s.step i).fast.ft.pb.pState = .slowUpdateWait) :
    ((s.step i).slow.fr.state = .idle ∨ (s.step i).slow.fr.state = .getFce) ∧
      (s.step i).slow.fr.ch3Data.tuple = (s.step i).fast.ft.pb.ch3DataR.tuple := by
  have hpb : (s.step i).fast.ft.pb = ph.portB s.fast.ft s.ftIn := hc.pb_step s.ftIn
  have hn : ph.next s.fast.ft s.ftIn = .upWait := by
    have := (hc.portB s.ftIn).pState
    rw [← hpb, hS] at this
    generalize ph.next s.fast.ft s.ftIn = n at this
    cases n <;> simp [Phase.pState] at this ⊢
  rw [hpb]
  cases ph with
  | arb | filled | updated =>
    simp only [Phase.next] at hn
    split_ifs at hn with h1 h2 h3 h4
    rw [beq_iff_eq] at h2
    obtain ⟨hst, hd⟩ := h.taken i h2 h3
    have hg : ¬ s.fast.ft.grant s.ftIn = 0b0001#4 := by simpa using h1
    refine ⟨hst, ?_⟩
    rw [hd]
    simp only [Phase.portB, FlowTable.arbStep, h2, h3, h4, if_true]
    rfl
  | upWait =>
    obtain ⟨hst, ht⟩ := h.held hc.pState
    have hv : (s.slow.frIn (s.slowIn i)).ch2RdValid = false := by
      show s.fast.ft.ch2RdValid = false
      simp [FlowTable.ch2RdValid, hc.pState, Phase.pState]
    simp only [Phase.next] at hn
    split_ifs at hn with h1
    simp only [Phase.portB, FlowTable.slowUpdateWaitStep, h1, if_true]
    rcases hst with hst | hst
    · simp only [Wrapper.step, SlowPath.step, FlowReassembly.step, hst]
      split
      · exact ⟨.inr rfl, ht⟩
      · exact ⟨.inl hst, ht⟩
    · simp only [Wrapper.step, SlowPath.step, FlowReassembly.step, hst, FlowReassembly.getFceStep, hv]
      simp [ht]
  | lookup b | up b | lk b | fill b | evic b =>
    cases b <;> simp only [Phase.next] at hn <;> (try split_ifs at hn) <;> simp at hn
  | lkWait =>
    simp only [Phase.next] at hn
    split_ifs at hn

end

/-! ## The decision stage and the slow lookup -/

theorem decideHit_oooFceData (d : Decision) (q : Fce) (m : Metadata) :
    (FastPath.decideHit d q m).oooFceData = d.oooFceData := by
  unfold FastPath.decideHit
  split_ifs <;> rfl

section
variable {s : Wrapper} {E : List Fce} {r : ParaQIn} {P : FlowMap} {snap : Found} {ph : Phase} {st : Stage}
  (I : FastInv ftAddr s.fast E r P snap ph st) (h : EnvOk s) (i : WrapIn)
include I h

theorem EnvOk.ooo_next (hv : (s.step i).fast.dec.oooFceValid = true) : Own ftAddr (s.step i).fast.dec.oooFceData := by
  have hd : (s.step i).fast.dec = s.fast.decision s.fastIn := rfl
  rw [hd] at hv ⊢
  unfold FastPath.decision at hv ⊢
  split at hv
  · next hs =>
    rw [if_pos hs]
    exact h.ooo hv
  · next hs =>
    rw [if_neg hs]
    split at hv
    · cases hv
    · next hval =>
      rw [if_neg hval]
      simp only [Bool.not_eq_true', Bool.not_eq_false] at hval
      split at hv
      · cases hv
      · next hz =>
        rw [if_neg hz]
        have hst : st = .dec := by simpa [I.stage.ch0RdValid] using hval
        subst hst
        obtain ⟨_, _, hsees⟩ := I.fast
        obtain ⟨l, e, _, he, hq⟩ := hsees.hit hz
        rw [decideHit_oooFceData]
        exact hq ▸ (I.own he).2

theorem EnvOk.ch3_next (hsnap : ∀ p e, snap = some (p, e) → Own ftAddr e)
    (hv : (s.step i).slow.fr.ch3Data.valid = true) : Own ftAddr (s.step i).slow.fr.ch3Data := by
  have hfr : (s.step i).slow.fr = s.slow.fr.step s.slow.ll (s.slow.frIn (s.slowIn i)) := rfl
  rw [hfr] at hv ⊢
  cases hS : s.slow.fr.state with
  | idle =>
    simp only [FlowReassembly.step, hS] at hv ⊢
    split at hv
    · next ht => rw [if_pos ht]; exact h.ch3 hv
    · next ht => rw [if_neg ht]; exact h.ch3 hv
  | getFce =>
    simp only [FlowReassembly.step, hS, FlowReassembly.getFceStep] at hv ⊢
    split at hv
    · next hr =>
      rw [if_pos hr]
      have hp : ph = .lk .b3 := by
        have hr' : s.fast.ft.ch2RdValid = true := hr
        simp only [FlowTable.ch2RdValid, Bool.and_eq_true, beq_iff_eq, I.ctl.pState, I.ctl.rdValidB] at hr'
        rcases of_decide_eq_true hr'.2 with rfl | rfl | rfl <;> simp [Phase.pState] at hr' ⊢
      obtain ⟨_, hq⟩ := I.ch2_result hp
      have hq' : (s.slow.frIn (s.slowIn i)).ch2Q = (snap.map Prod.snd).getD .zero := hq
      rw [hq'] at hv ⊢
      cases hs : snap with
      | none => simp [hs, Fce.zero] at hv
      | some x => exact hsnap x.1 x.2 hs
    · next hr => rw [if_neg hr]; exact h.ch3 hv
  | compare => exact (s.slow.fr.compare_ch3Data _ _ hS).own h.ch3 hv
  | waitWrReady =>
    simp only [FlowReassembly.step, hS, FlowReassembly.waitWrReadyStep] at hv ⊢
    exact h.ch3 hv

theorem EnvOk.step (hsnap : ∀ p e, snap = some (p, e) → Own ftAddr e) : EnvOk (s.step i) where
  hash k := by
    simp only [Wrapper.step, vec_get]
    exact (h.hash k).step _ _ _ _
  ooo := h.ooo_next I i
  fifo := h.fifo_next i
  ch2 := h.ch2_next i
  ch3 := h.ch3_next I i hsnap
  wren := h.wren.step _ _
  held := h.held_next i I.ctl

end

def WrapInv (s : Wrapper) : Prop :=
  EnvOk s ∧ ∃ E r P snap ph st, FastInv ftAddr s.fast E r P snap ph st ∧ ∀ p e, snap = some (p, e) → Own ftAddr e

theorem WrapInv.reset : WrapInv .reset := ⟨.reset, _, _, _, _, _, _, .reset, by simp⟩

theorem WrapInv.step (s : Wrapper) (i : WrapIn) (h : WrapInv s) (hc : s.fast.Clean s.fastIn) : WrapInv (s.step i) := by
  obtain ⟨henv, E, r, P, snap, ph, st, I, hsnap⟩ := h
  obtain ⟨P', I', _⟩ := I.step henv.fastEnv hc
  refine ⟨henv.step I i hsnap, _, _, P', _, _, _, I', fun p e he => ?_⟩
  split at he
  · exact (I.own he).2
  · exact hsnap p e he

/-! ## Port conflicts and errors of the queue -/

/-- The two ports do not meet in a cycle that steps without port conflicts lead to, if in the cycle itself different flows
do not meet at one word and no lookup starts in an eviction. -/
theorem rdw_false (is : List WrapIn) (hok : AllSteps Wrapper.step (fun s _ => s.fast.Clean s.fastIn) .reset is) :
    let s := run Wrapper.step .reset is
    s.fast.NoAlias s.fastIn → s.fast.EvictQuiet s.fastIn →
      ∀ l, s.fast.ft.rdwA s.ftIn l = false ∧ s.fast.ft.rdwB s.ftIn l = false := by
  intro s ha he l
  obtain ⟨_, _, _, _, _, _, _, I, _⟩ := run_inv Wrapper.step WrapInv.step is _ .reset hok
  exact ⟨I.rdwA_false ha he l, I.rdwB_false ha l⟩

/-- A packet that opens a flow and, `n + 1` cycles later, the next one of the flow, with flags `flags`. -/
def twoPackets (n : Nat) (flags : BitVec 9) : List WrapIn :=
  .packet (.tcp tupleA 100 10 1 0x10) :: List.replicate n .idle ++
    .packet (.tcp tupleA 110 10 2 flags) :: List.replicate 20 .idle

-- the cycle in which the second packet writes
theorem rdw_false_twoPackets :
    let s := run Wrapper.step .reset ((twoPackets 0 0x10).take 17)
    s.fast.dec.ch1Wren = true ∧ ∀ l, s.fast.ft.rdwA s.ftIn l = false ∧ s.fast.ft.rdwB s.ftIn l = false :=
  ⟨by decide +kernel,
    rdw_false ((twoPackets 0 0x10).take 17) (by decide +kernel) (by decide +kernel) (by decide +kernel)⟩

def aliasRun : List WrapIn :=
  ([.tcp tupleA 100 10 1 0x10, .tcp tupleB 100 10 2 0x10, .tcp tupleB 200 10 3 0x10, .tcp tupleA 110 10 4 0x10].map
      fun m => { WrapIn.packet m with reorderMetaAlmostFull := true }) ++
    List.replicate 33 { WrapIn.idle with reorderMetaAlmostFull := true } ++ List.replicate 2 .idle

/-- The slow lookup of one flow meets the fast update of the other at their common address. -/
theorem rdw_aliasRun :
    let s := run Wrapper.step .reset aliasRun
    s.fast.ft.rdwB s.ftIn (.ft 0) = true := by
  decide +kernel

/-- `para_Q` reports no fatal error behind steps without port conflicts, and none in the two cycles that follow: in the
first of them only the head of the queue has to be kept. -/
theorem paraQ_not_fatal (is : List WrapIn) (hok : AllSteps Wrapper.step (fun s _ => s.fast.Clean s.fastIn) .reset is) :
    let s := run Wrapper.step .reset is
    s.fast.ft.pq.isErrorFatal = false ∧ (∀ i, (s.step i).fast.ft.pq.isErrorFatal = false) ∧
      (s.fast.HeadKept s.fastIn → ∀ i j, ((s.step i).step j).fast.ft.pq.isErrorFatal = false) := by
  obtain ⟨_, _, _, _, _, _, _, I, _⟩ := run_inv Wrapper.step WrapInv.step is _ .reset hok
  exact ⟨I.fatal, fun _ => I.fatal_next, fun hk _ _ => I.fatal_next_next hk _⟩

theorem paraQ_not_fatal_twoPackets : (run Wrapper.step .reset (twoPackets 1 0x10)).fast.ft.pq.isErrorFatal = false :=
  (paraQ_not_fatal (twoPackets 1 0x10) (by decide +kernel)).1

/-- The second packet deletes its flow in the cycle in which port B takes it out of the queue. -/
theorem paraQ_fatal_twoPackets : (run Wrapper.step .reset (twoPackets 2 0x11)).fast.ft.pq.isErrorFatal = true := by
  decide +kernel

end Pigasus
