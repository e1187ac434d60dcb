import Pigasus.MatcherSound

/-!
# Pauses in a packet

With harmless pauses the lanes receive what they receive without pauses. A pause
in front of a window that reaches over two beats loses it.
-/

namespace Pigasus

open Hdl

namespace MatchSys

instance (T : FpTables) (sent cur : List FpBeat) (byte : Byte) : Decidable (PauseHarmless T sent cur byte) := by
  unfold PauseHarmless
  split <;> infer_instance

instance (T : FpTables) (s : MatchSys) (c : Bool) (i : FpTick) : Decidable (PausesHarmless T s c i) := by
  unfold PausesHarmless
  infer_instance

def slots (T : FpTables) (c : Bool) : MatchSys → List FpTick → List FpSlot → List FpSlot
  | _, [], hist => hist
  | _, _ :: _, [] => []
  | s, i :: is, a :: l => slots T c (s.step T c i) is (pushed T c a s i :: a :: l)

theorem Flow.slots {T : FpTables} {c : Bool} (is : List FpTick) {s : MatchSys} {hist : List FpSlot}
    (h : Flow T hist s) : Flow T (slots T c s is hist) (run (MatchSys.step T c) s is) := by
  induction is generalizing s hist with
  | nil => exact h
  | cons i is ih =>
    cases hist with
    | nil => exact absurd h.pipe.long (by simp)
    | cons a l => exact ih h.step

theorem out_run (T : FpTables) (c : Bool) (p : Matcher) (ps : List FpPacket) (is : List FpTick) (i : Fin 8) (j : Fin 32) :
    (run (MatchSys.step T c) (start p ps) is).out i j =
      given T ((MatchSys.slots T c (start p ps) is p.seeds).drop 21) i j :=
  ((Flow.start p).slots is).out i j

end MatchSys

/-- Two runs over the same packets report the same, one with pauses in the packets, all of them harmless, and one
without, when both are given room until everything has come out. -/
theorem beatSpacing_irrelevant (T : FpTables) (p q : Matcher) (ps : List FpPacket) (is js : List FpTick)
    (h : AllSteps (MatchSys.step T false) (fun s i => MatchSys.PausesHarmless T s false i) (.start p ps) is) :
    MatchSys.Reports T false (fun i j => ps.flatMap (report T i j)) (run (MatchSys.step T false) (.start p ps) is) ∧
      ∀ bus n m ks ls, (run (MatchSys.step T false) (.start p ps) is).work ≤ n →
        (run (MatchSys.step T true) (.start q ps) js).work ≤ m → ks.length = 23 → ls.length = 23 → ∀ i j,
        (run (MatchSys.step T false) (.start p ps) (is ++ (List.replicate n (MatchSys.go bus) ++ ks))).out i j =
          (run (MatchSys.step T true) (.start q ps) (js ++ (List.replicate m (MatchSys.go bus) ++ ls))).out i j := by
  have hok : AllSteps (MatchSys.step T true) (fun s i => MatchSys.PausesHarmless T s true i) (.start q ps) js :=
    allSteps_of_forall _ (fun _ i => MatchSys.pausesHarmless_of_offer (Bool.or_true i.offer)) js _
  obtain ⟨_, _, h1⟩ := (MatchSys.Inv.start p).after is h
  obtain ⟨_, _, h2⟩ := (MatchSys.Inv.start q).after js hok
  refine ⟨h1.reports, fun bus n m ks ls hn hm hk hl i j => ?_⟩
  rw [run_append _ _ is, run_append _ _ js, h1.reports.delivered bus n ks hn hk, h2.reports.delivered bus m ls hm hl]

/-! ## A packet of two beats with a pause -/

/-- A filter that lets everything pass, and one index in bucket 1. -/
def oneIndex : FpTables where
  matchTable _ := 0
  bitmap i a := if i = 1 ∧ a = HashPort.bmAddr 0x1093#16 then 1 <<< (HashPort.bmBit 0x1093#16).toNat else 0

/-- A beat with one byte that is not 0. -/
def beatOf (k : Fin 32) : FpBeat := ⟨vec fun j => if j = k then 1 else 0, 0⟩

def quietBus : FpWord := ⟨false, false, 0, vec fun _ => 0⟩

def pauseTick : FpTick := ⟨false, quietBus, false⟩

/-- The first beat, a pause and the second beat. -/
def pausedTicks : List FpTick := [pauseTick, MatchSys.go quietBus, pauseTick, MatchSys.go quietBus]

/-- The index is reported in the second beat, away from the pause. -/
theorem beatSpacing_irrelevant_away :
    AllSteps (MatchSys.step oneIndex false) (fun s i => MatchSys.PausesHarmless oneIndex s false i)
        (.start default [⟨beatOf 3, [beatOf 10]⟩]) pausedTicks ∧
      MatchSys.Reports oneIndex false (fun i j => [⟨beatOf 3, [beatOf 10]⟩].flatMap (report oneIndex i j))
        (run (MatchSys.step oneIndex false) (.start default [⟨beatOf 3, [beatOf 10]⟩]) pausedTicks) := by
  have h : AllSteps (MatchSys.step oneIndex false) (fun s i => MatchSys.PausesHarmless oneIndex s false i)
      (.start default [⟨beatOf 3, [beatOf 10]⟩]) pausedTicks := by decide +kernel
  exact ⟨h, (beatSpacing_irrelevant oneIndex default default _ pausedTicks [] h).1⟩

/-- The window of bucket 1 that ends at the first byte of the second beat has the index. It is reported when the
beats are contiguous and lost behind the pause, in which the bus holds what the second beat begins with. -/
theorem pause_losesWindow :
    (run (MatchSys.step oneIndex true) (.start default [⟨beatOf 31, [beatOf 5]⟩])
        (pausedTicks ++ List.replicate 23 pauseTick)).out 1 0 = [⟨false, 1, 0x1093⟩, mark 1] ∧
      ∀ i j, (run (MatchSys.step oneIndex false) (.start default [⟨beatOf 31, [beatOf 5]⟩])
        (pausedTicks ++ List.replicate 23 pauseTick)).out i j = [mark i] := by
  simp only [MatchSys.out_run]
  decide +kernel

end Pigasus
