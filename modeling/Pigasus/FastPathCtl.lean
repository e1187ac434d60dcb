import Pigasus.FlowTableCtl
import Pigasus.FastPath

/-!
# The control of the fast path

A lookup goes through the stages `rd1`, `rd2`, `dec` and, when it writes, `wr`;
only one is under way at a time. The fill of a sub-table lets the lookup in
front of it finish and accepts no other.
-/

namespace Pigasus

open Hdl

/-- The stage of the lookup under way: `rd_valid_a_r`, `rd_valid_a`, `ch0_rd_valid`, `ch1_wren`. -/
inductive Stage
  | idle | rd1 | rd2 | dec | wr
  deriving DecidableEq

namespace Stage

def next (s : FastPath) (i : FastIn) : Stage → Stage
  | idle => if s.ft.rdenA (s.ftIn i) then .rd1 else .idle
  | rd1 => .rd2
  | rd2 => .dec
  | dec => if (s.decision i).ch1Wren then .wr else .idle
  | wr => if s.ch1InsertStall i then .wr else .idle

/-- How far the lookup is; with none under way it is done. -/
def age : Stage → Nat
  | rd1 => 1
  | rd2 => 2
  | dec => 3
  | wr => 4
  | idle => 5

end Stage

/-- The flag registers of the fast path are those of the stage `st`. -/
structure StageCtl (s : FastPath) (st : Stage) : Prop where
  rdValidAR : s.ft.rdValidAR = decide (st = .rd1)
  rdValidA : s.ft.rdValidA = decide (st = .rd2)
  ch0RdValid : s.ft.ch0RdValid = decide (st = .dec)
  ch1Wren : s.dec.ch1Wren = decide (st = .wr)
  qRdenAR1 : s.ft.qRdenAR1 = decide (st = .rd1)

theorem StageCtl.reset : StageCtl .reset .idle := by constructor <;> rfl

section
variable {s : FastPath} {st : Stage} (h : StageCtl s st) (i : FastIn)
include h

theorem StageCtl.idle_of_rdenA (hr : s.ft.rdenA (s.ftIn i) = true) : st = .idle := by
  simp only [FlowTable.rdenA, FlowTable.ch0RdStall, FastPath.ftIn, h.rdValidAR, h.rdValidA, h.ch0RdValid, h.ch1Wren,
    Bool.and_eq_true, Bool.not_eq_true', Bool.or_eq_false_iff, decide_eq_false_iff_not] at hr
  cases st <;> simp_all

theorem StageCtl.wr_of_insertStall (hs : s.ch1InsertStall i = true) : st = .wr := by
  simp only [FastPath.ch1InsertStall, FlowTable.ch1InsertStall, FlowTable.insert, FastPath.ftIn, h.ch1Wren,
    Bool.and_eq_true, decide_eq_true_eq] at hs
  exact hs.1.1.1

theorem StageCtl.decision_ch1Wren (hd : st ≠ .dec) : (s.decision i).ch1Wren = (s.ch1InsertStall i && s.dec.ch1Wren) := by
  have hv : s.ft.ch0RdValid = false := by simp [h.ch0RdValid, hd]
  unfold FastPath.decision
  split
  · next hs => simp [hs]
  · next hs => simp [hs, hv, FastPath.decideNone]

theorem StageCtl.step : StageCtl (s.step i) (st.next s i) := by
  have hr : st ≠ .idle → s.ft.rdenA (s.ftIn i) = false := by
    intro hne
    rw [← Bool.not_eq_true]
    exact fun hr => hne (h.idle_of_rdenA i hr)
  have hs : st ≠ .wr → s.ch1InsertStall i = false := by
    intro hne
    rw [← Bool.not_eq_true]
    exact fun hs => hne (h.wr_of_insertStall i hs)
  constructor
  · show s.ft.rdenA (s.ftIn i) = _
    cases st <;> simp only [Stage.next] <;> (try rw [hr (by simp)]) <;> (try split_ifs) <;> simp_all
  · show s.ft.rdValidAR = _
    rw [h.rdValidAR]
    cases st <;> simp only [Stage.next] <;> (try split_ifs) <;> simp
  · show s.ft.rdValidA = _
    rw [h.rdValidA]
    cases st <;> simp only [Stage.next] <;> (try split_ifs) <;> simp
  · show (s.decision i).ch1Wren = _
    by_cases hd : st = .dec
    · subst hd
      simp only [Stage.next]
      split_ifs with hw <;> simp [hw]
    · rw [h.decision_ch1Wren i hd, h.ch1Wren]
      cases st <;> simp only [Stage.next] <;> (try split_ifs) <;> simp_all
  · show s.ft.rdenA (s.ftIn i) = _
    cases st <;> simp only [Stage.next] <;> (try rw [hr (by simp)]) <;> (try split_ifs) <;> simp_all

end

end Pigasus
