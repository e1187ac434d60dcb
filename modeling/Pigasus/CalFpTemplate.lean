import Pigasus.NfMatcherSound

/-!
# The fingerprint module of the generator

`cal_fp.template` renders the layers of the checked-in `cal_fp.sv`, but its
accumulator is cleared at the end of a packet, whatever is in the last layer. The
two modules differ as soon as a match arrives together with the end marker of the
packet before.
-/

namespace Pigasus

open Hdl

/-- The indices of one cycle and the end marker. -/
structure CalTick where
  din : NfLanes (Option (BitVec 17))
  last : Bool

/-- No index comes in together with an end marker. -/
def CalTick.Apart (t : CalTick) : Prop := t.last = true → ∀ i j, t.din i j = none

def CalTick.idle : CalTick := ⟨lanes fun _ _ => none, false⟩

/-- The index 5 of bucket 2 at byte 3. -/
def CalTick.match5 (last : Bool) : CalTick := ⟨lanes fun i j => if i = 2 ∧ j = 3 then some 5 else none, last⟩

def CalTick.mark : CalTick := ⟨lanes fun _ _ => none, true⟩

namespace CalFp

/-- The module that `cal_fp.template` renders to for eight buckets and 16 bytes. -/
def templateStep (s : CalFp) (din : NfLanes (Option (BitVec 17))) (last : Bool) : CalFp :=
  { s.step din last with
    subFp := vec fun i =>
      if s.lastR 4 then 0
      else match s.l4 i 0 with
        | some x => s.subFp i ||| x
        | none => s.subFp i }

/-- `fp_valid` and `fp_data` of every cycle. -/
def outputs (step : CalFp → NfLanes (Option (BitVec 17)) → Bool → CalFp) : CalFp → List CalTick → List (Bool × Fingerprint) :=
  trace (fun s t => step s t.din t.last) fun s => (s.fpValid, s.fpData)

/-- Nothing travels beside an end marker. -/
def MarkersAlone (s : CalFp) : Prop := ∀ k : Fin 5, s.lastR k = true → Stage k.val s fun _ _ => none

theorem MarkersAlone.step {s : CalFp} (h : MarkersAlone s) {t : CalTick} (ht : t.Apart) :
    MarkersAlone (s.step t.din t.last) := by
  intro k hk
  obtain ⟨k, hk5⟩ := k
  cases k with
  | zero =>
    have hl : t.last = true := by
      simp only [CalFp.step] at hk
      rwa [shiftIn_zero] at hk
    exact stage_zero _ _ (ht hl)
  | succ k =>
    have hl : s.lastR ⟨k, by omega⟩ = true := by
      simp only [CalFp.step] at hk
      rwa [shiftIn_succ] at hk
    exact stage_succ _ _ k (h ⟨k, by omega⟩ hl)

theorem MarkersAlone.reset : MarkersAlone default := by
  intro k _
  exact CalFp.stage_default k.val

theorem MarkersAlone.templateStep_eq {s : CalFp} (h : MarkersAlone s) (din : NfLanes (Option (BitVec 17))) (last : Bool) :
    s.templateStep din last = s.step din last := by
  have hz : s.lastR 4 = true → ∀ i, s.restart i = 0 := by
    intro hl i
    have h4 : s.l4 i = _ := h 4 hl i
    rw [restart, h4, tree_getD]
    simp [orBits]
  have hs : (s.templateStep din last).subFp = (s.step din last).subFp := by
    apply vec_ext
    intro i
    simp only [templateStep, CalFp.step, vec_get]
    cases hl : s.lastR 4 with
    | false => rfl
    | true => simp [hz hl i]
  unfold templateStep at hs ⊢
  exact congrArg (fun x => { s.step din last with subFp := x }) hs

end CalFp

/-- From reset, both modules show the same `fp_valid` and `fp_data` in every cycle when no index comes in together with
an end marker. -/
theorem calFp_agrees (ts : List CalTick) (h : ∀ t ∈ ts, t.Apart) :
    CalFp.outputs CalFp.templateStep default ts = CalFp.outputs CalFp.step default ts := by
  suffices hs : ∀ s : CalFp, s.MarkersAlone → CalFp.outputs CalFp.templateStep s ts = CalFp.outputs CalFp.step s ts from
    hs default .reset
  induction ts with
  | nil => intro s _; rfl
  | cons t ts ih =>
    intro s hs
    simp only [CalFp.outputs, trace, hs.templateStep_eq] at ih ⊢
    rw [ih (fun t ht => h t (List.mem_cons_of_mem _ ht)) _ (hs.step (h t List.mem_cons_self))]

theorem calFp_agrees_twoPackets :
    (∀ t ∈ [CalTick.match5 false, .mark, .match5 false, .mark] ++ List.replicate 7 .idle, t.Apart) ∧
      CalFp.outputs CalFp.templateStep default ([CalTick.match5 false, .mark, .match5 false, .mark] ++ List.replicate 7 .idle) =
        CalFp.outputs CalFp.step default ([CalTick.match5 false, .mark, .match5 false, .mark] ++ List.replicate 7 .idle) := by
  have h : ∀ t ∈ [CalTick.match5 false, .mark, .match5 false, .mark] ++ List.replicate 7 .idle, t.Apart := by
    intro t ht
    simp only [List.cons_append, List.nil_append, List.mem_cons, List.mem_replicate] at ht
    rcases ht with rfl | rfl | rfl | rfl | ⟨-, rfl⟩
    · intro hl; cases hl
    · intro _ i j; exact lanes_get _ i j
    · intro hl; cases hl
    · intro _ i j; exact lanes_get _ i j
    · intro hl; cases hl
  exact ⟨h, calFp_agrees _ h⟩

/-- The first match of a packet arrives with the end marker of the packet before: the template loses it, and the
fingerprint of the second packet is empty. -/
theorem calFp_template_differs :
    (CalFp.outputs CalFp.step default ([CalTick.match5 true, .mark] ++ List.replicate 7 .idle))[7]? =
        some (true, vec fun i => if i = 2 then 0x20 else 0) ∧
      (CalFp.outputs CalFp.templateStep default ([CalTick.match5 true, .mark] ++ List.replicate 7 .idle))[7]? =
        some (true, vec fun _ => 0) := by
  decide +kernel

end Pigasus
