import Pigasus.Dependency
import Mathlib.Data.List.Perm.Basic
import Mathlib.Data.List.Nodup

/-!
# Scheduling of the generator's passes

`PassManager` of the generator sweeps over the passes that are left, in the order in
which they were added, and runs each one whose dependencies have finished, until no
pass is left. A pass that finishes can free others later in the same sweep.
-/

namespace Pigasus

open Relation Dependency

/-- What `get_dependencies` returns: `add_pass` puts a single object into a list. -/
inductive PassDeps
  | list (l : List String)
  | single (d : String)
  deriving DecidableEq

def PassDeps.toList : PassDeps → List String
  | .list l => l
  | .single d => [d]

structure PassType where
  name : String
  getDependencies : PassDeps
  deriving DecidableEq

def PassType.deps (p : PassType) : List String := p.getDependencies.toList

structure PassManager where
  -- a `dict`: in the order of insertion
  passes : List PassType
  dependencies : String → List String

/-- The state of `schedule_and_run_passes` at the head of its `while`. -/
structure Schedule where
  passes : List PassType
  finished : List String
  -- the runs, in their order
  ran : List PassType

structure Sweep where
  finished : List String
  ran : List PassType
  deleteList : List String

namespace PassManager

def new : PassManager := ⟨[], fun _ => []⟩

def addPass (m : PassManager) (p : PassType) : PassManager where
  passes :=
    if m.passes.any (·.name == p.name) then m.passes.map fun q => if q.name == p.name then p else q
    else m.passes ++ [p]
  dependencies := fun n => if n = p.name then p.deps else m.dependencies n

def canRun (d : String → List String) (finished : List String) (p : PassType) : Bool := (d p.name).all finished.contains

def visit (d : String → List String) (s : Sweep) (p : PassType) : Sweep :=
  if canRun d s.finished p then ⟨s.finished ++ [p.name], s.ran ++ [p], s.deleteList ++ [p.name]⟩ else s

def sweep (d : String → List String) (s : Schedule) : Schedule :=
  let r := s.passes.foldl (visit d) ⟨s.finished, s.ran, []⟩
  ⟨s.passes.filter fun p => !r.deleteList.contains p.name, r.finished, r.ran⟩

def loopStep (d : String → List String) (s : Schedule) : Schedule := if s.passes.isEmpty then s else sweep d s

/-- `schedule_and_run_passes` after `n` turns of the `while`, or where it has ended before. -/
def scheduleAndRunPasses (m : PassManager) (n : Nat) : Schedule := (loopStep m.dependencies)^[n] ⟨m.passes, [], []⟩

def Terminates (m : PassManager) : Prop := ∃ n, (m.scheduleAndRunPasses n).passes = []

end PassManager

def passNames (ps : List PassType) : List String := ps.map PassType.name

/-- The pass of the first name declares the second as a dependency. -/
def PassDep (ps : List PassType) (x y : String) : Prop := ∃ p ∈ ps, p.name = x ∧ y ∈ p.deps

namespace PassManager

variable {d : String → List String} {ps : List PassType}

theorem canRun_iff {fin : List String} {p : PassType} : canRun d fin p = true ↔ ∀ x ∈ d p.name, x ∈ fin := by
  simp [canRun]

/-! ## Registration -/

theorem addPass_new {m : PassManager} {p : PassType} (h : p.name ∉ passNames m.passes) :
    (m.addPass p).passes = m.passes ++ [p] := by
  have hany : m.passes.any (·.name == p.name) = false := by
    rw [List.any_eq_false]
    intro q hq he
    exact h (List.mem_map.mpr ⟨q, hq, by simpa using he⟩)
  simp [addPass, hany]

theorem registered_gen : ∀ (ps : List PassType) (m : PassManager), (passNames (m.passes ++ ps)).Nodup →
    (∀ p ∈ m.passes, m.dependencies p.name = p.deps) →
    (ps.foldl addPass m).passes = m.passes ++ ps ∧
      ∀ p ∈ m.passes ++ ps, (ps.foldl addPass m).dependencies p.name = p.deps
  | [], m, _, hd => by simpa using hd
  | p :: ps, m, hn, hd => by
    have hfresh : p.name ∉ passNames m.passes := by
      intro hm
      rw [passNames, List.map_append, List.nodup_append'] at hn
      exact hn.2.2 hm List.mem_cons_self
    have hp := addPass_new hfresh
    have hn' : (passNames ((m.addPass p).passes ++ ps)).Nodup := by
      rw [hp, List.append_assoc]
      exact hn
    have hd' : ∀ q ∈ (m.addPass p).passes, (m.addPass p).dependencies q.name = q.deps := by
      intro q hq
      rw [hp] at hq
      by_cases he : q.name = p.name
      · -- of this name there is only the pass that was just added
        obtain hq | hq := List.mem_append.mp hq
        · exact absurd (List.mem_map.mpr ⟨q, hq, he⟩) hfresh
        · obtain rfl := List.mem_singleton.mp hq
          simp [addPass]
      · obtain hq | hq := List.mem_append.mp hq
        · rw [← hd q hq]
          exact if_neg he
        · exact absurd (congrArg PassType.name (List.mem_singleton.mp hq)) he
    have := registered_gen ps (m.addPass p) hn' hd'
    rwa [hp, List.append_assoc] at this

theorem registered (h : (passNames ps).Nodup) : (ps.foldl addPass new).passes = ps ∧
    ∀ p ∈ ps, (ps.foldl addPass new).dependencies p.name = p.deps :=
  registered_gen ps new h (fun _ hp => absurd hp List.not_mem_nil)

/-! ## One sweep -/

def runnable (d : String → List String) : List String → List PassType → List PassType
  | _, [] => []
  | fin, p :: l => if canRun d fin p then p :: runnable d (fin ++ [p.name]) l else runnable d fin l

theorem foldl_visit : ∀ (l : List PassType) (s : Sweep), l.foldl (visit d) s =
    ⟨s.finished ++ passNames (runnable d s.finished l), s.ran ++ runnable d s.finished l,
      s.deleteList ++ passNames (runnable d s.finished l)⟩
  | [], s => by simp [runnable, passNames]
  | p :: l, s => by
    rw [List.foldl_cons, foldl_visit l]
    by_cases h : canRun d s.finished p = true
    · simp [visit, runnable, h, passNames]
    · simp [visit, runnable, h]

theorem runnable_sublist : ∀ (l : List PassType) (fin : List String), (runnable d fin l).Sublist l
  | [], _ => .slnil
  | p :: l, fin => by
    unfold runnable
    by_cases h : canRun d fin p = true
    · rw [if_pos h]
      exact (runnable_sublist l _).cons_cons p
    · rw [if_neg h]
      exact (runnable_sublist l _).cons p

theorem not_canRun_of_runnable_nil : ∀ (l : List PassType) (fin : List String), runnable d fin l = [] →
    ∀ p ∈ l, canRun d fin p = false
  | [], _, _, _, hp => absurd hp List.not_mem_nil
  | q :: l, fin, h, p, hp => by
    unfold runnable at h
    by_cases hq : canRun d fin q = true
    · rw [if_pos hq] at h
      exact absurd h (List.cons_ne_nil _ _)
    · rw [if_neg hq] at h
      obtain rfl | hp := List.mem_cons.mp hp
      · exact Bool.eq_false_iff.mpr hq
      · exact not_canRun_of_runnable_nil l fin h p hp

/-- Every pass comes behind all of its dependencies. -/
def InOrder (d : String → List String) (l : List PassType) : Prop :=
  ∀ a p b, l = a ++ p :: b → ∀ x ∈ d p.name, x ∈ passNames a

theorem inOrder_snoc {l : List PassType} {p : PassType} :
    InOrder d (l ++ [p]) ↔ InOrder d l ∧ ∀ x ∈ d p.name, x ∈ passNames l := by
  constructor
  · intro h
    refine ⟨?_, h l p [] rfl⟩
    intro a q b he
    exact h a q (b ++ [p]) (by simp [he])
  · rintro ⟨h, hp⟩ a q b he
    obtain rfl | ⟨b, r, rfl⟩ := List.eq_nil_or_concat b
    · -- the split is at the new pass
      obtain ⟨rfl, hpq⟩ := List.append_inj' he rfl
      obtain rfl := List.head_eq_of_cons_eq hpq
      exact hp
    · have he' : l ++ [p] = (a ++ q :: b) ++ [r] := by simpa using he
      exact h a q b (List.append_inj' he' rfl).1

theorem inOrder_runnable : ∀ (l ran : List PassType), InOrder d ran → InOrder d (ran ++ runnable d (passNames ran) l)
  | [], ran, h => by simpa [runnable] using h
  | p :: l, ran, h => by
    unfold runnable
    by_cases hp : canRun d (passNames ran) p = true
    · rw [if_pos hp]
      have := inOrder_runnable l (ran ++ [p]) (inOrder_snoc.mpr ⟨h, canRun_iff.mp hp⟩)
      simpa [passNames] using this
    · rw [if_neg hp]
      exact inOrder_runnable l ran h

/-! ## The loop -/

structure Sched (d : String → List String) (ps : List PassType) (s : Schedule) : Prop where
  finished : s.finished = passNames s.ran
  perm : (s.ran ++ s.passes).Perm ps
  order : InOrder d s.ran

theorem eq_of_name (hn : (passNames ps).Nodup) {p q : PassType} (hp : p ∈ ps) (hq : q ∈ ps) (h : p.name = q.name) : p = q :=
  List.inj_on_of_nodup_map hn hp hq h

theorem runnable_perm (fin : List String) (hn : (passNames ps).Nodup) :
    (runnable d fin ps ++ ps.filter fun p => !(passNames (runnable d fin ps)).contains p.name).Perm ps := by
  have hsub := runnable_sublist (d := d) ps fin
  refine List.Perm.trans (List.Perm.append_right _ ?_)
    (List.filter_append_perm (fun p => (passNames (runnable d fin ps)).contains p.name) ps)
  rw [List.perm_ext_iff_of_nodup (hsub.nodup hn.of_map) (hn.of_map.filter _)]
  intro p
  simp only [List.mem_filter, List.contains_iff_mem]
  constructor
  · intro hp
    exact ⟨hsub.subset hp, List.mem_map_of_mem hp⟩
  · rintro ⟨hp, hm⟩
    obtain ⟨q, hq, he⟩ := List.mem_map.mp hm
    rwa [← eq_of_name hn (hsub.subset hq) hp he]

variable {s : Schedule}

theorem sweep_eq : sweep d s =
    ⟨s.passes.filter fun p => !(passNames (runnable d s.finished s.passes)).contains p.name,
      s.finished ++ passNames (runnable d s.finished s.passes), s.ran ++ runnable d s.finished s.passes⟩ := by
  simp only [sweep, foldl_visit, List.nil_append]

theorem Sched.names_nodup (h : Sched d ps s) (hn : (passNames ps).Nodup) : (passNames (s.ran ++ s.passes)).Nodup :=
  (h.perm.map _).nodup_iff.mpr hn

theorem Sched.left_nodup (h : Sched d ps s) (hn : (passNames ps).Nodup) : (passNames s.passes).Nodup := by
  have := h.names_nodup hn
  rw [passNames, List.map_append] at this
  exact this.of_append_right

theorem Sched.swept (h : Sched d ps s) (hn : (passNames ps).Nodup) : Sched d ps (sweep d s) := by
  rw [sweep_eq]
  constructor
  · simp [h.finished, passNames]
  · have hp := runnable_perm (d := d) s.finished (h.left_nodup hn)
    rw [List.append_assoc]
    exact (hp.append_left s.ran).trans h.perm
  · have := inOrder_runnable s.passes s.ran h.order
    rwa [← h.finished] at this

theorem Sched.next (h : Sched d ps s) (hn : (passNames ps).Nodup) : Sched d ps (loopStep d s) := by
  unfold loopStep
  by_cases he : s.passes.isEmpty = true
  · rw [if_pos he]
    exact h
  · rw [if_neg he]
    exact h.swept hn

theorem loopStep_shrinks (s : Schedule) : loopStep d s = s ∨ (loopStep d s).passes.length < s.passes.length := by
  unfold loopStep
  by_cases he : s.passes.isEmpty = true
  · exact .inl (if_pos he)
  rw [if_neg he, sweep_eq]
  cases hr : runnable d s.finished s.passes with
  | nil =>
    left
    simp [passNames]
  | cons p l =>
    right
    have hp : p ∈ s.passes := by
      apply (runnable_sublist (d := d) s.passes s.finished).subset
      rw [hr]
      exact List.mem_cons_self
    apply List.length_filter_lt_length_iff_exists.mpr
    exact ⟨p, hp, by simp [passNames]⟩

theorem not_canRun_of_rest (h : loopStep d s = s) {p : PassType} (hp : p ∈ s.passes) : canRun d s.finished p = false := by
  have hne : s.passes.isEmpty = false := by
    rw [List.isEmpty_eq_false_iff]
    exact List.ne_nil_of_mem hp
  rw [loopStep, hne, if_neg Bool.false_ne_true, sweep_eq] at h
  apply not_canRun_of_runnable_nil s.passes s.finished _ p hp
  have hran := congrArg Schedule.ran h
  simpa using hran

/-! ## Which passes run -/

def Registered (ps : List PassType) : Set String := {x | x ∈ passNames ps}

theorem registered_finite : (Registered ps).Finite := (passNames ps).finite_toSet

section
variable (hd : ∀ p ∈ ps, d p.name = p.deps)

include hd in
theorem passDep_iff {p : PassType} (hp : p ∈ ps) {x : String} : PassDep ps p.name x ↔ x ∈ d p.name := by
  constructor
  · rintro ⟨q, hq, he, hx⟩
    rwa [← he, hd q hq]
  · intro hx
    rw [hd p hp] at hx
    exact ⟨p, hp, rfl, hx⟩

include hd in
theorem InOrder.grounded (l : List PassType) (h : InOrder d l) (hl : ∀ p ∈ l, p ∈ ps) :
    ∀ x ∈ passNames l, Grounded (PassDep ps) (Registered ps) x := by
  -- from the first run on: a pass only needs those in front of it
  induction l using List.reverseRecOn with
  | nil => simp [passNames]
  | append_singleton l p ih =>
    obtain ⟨ho, hp⟩ := inOrder_snoc.mp h
    have ih := ih ho fun q hq => hl q (List.mem_append_left _ hq)
    have hps : p ∈ ps := hl p (by simp)
    intro x hx
    rw [passNames, List.map_append, List.mem_append] at hx
    obtain hx | hx := hx
    · exact ih x hx
    · obtain rfl := List.mem_singleton.mp hx
      refine .intro _ (List.mem_map_of_mem hps) fun y hy => ?_
      exact ih y (hp y ((passDep_iff hd hps).mp hy))

include hd in
theorem Sched.ran_of_grounded (h : Sched d ps s) (hrest : loopStep d s = s) {x : String}
    (hx : Grounded (PassDep ps) (Registered ps) x) : x ∈ passNames s.ran := by
  induction hx with
  | intro x hreg hdep ih =>
    obtain ⟨p, hp, rfl⟩ := List.mem_map.mp hreg
    by_contra hnot
    have hleft : p ∈ s.passes := by
      obtain hr | hr := List.mem_append.mp (h.perm.symm.subset hp)
      · exact absurd (List.mem_map_of_mem hr) hnot
      · exact hr
    -- it is left although all its dependencies have finished
    have hno := not_canRun_of_rest hrest hleft
    rw [← Bool.not_eq_true, canRun_iff, h.finished] at hno
    apply hno
    intro y hy
    exact ih y ((passDep_iff hd hp).mpr hy)

include hd in
theorem Sched.mem_ran_iff (h : Sched d ps s) (hn : (passNames ps).Nodup) (hrest : loopStep d s = s) {p : PassType} :
    p ∈ s.ran ↔ p ∈ ps ∧ Grounded (PassDep ps) (Registered ps) p.name := by
  have hsub : ∀ q ∈ s.ran, q ∈ ps := fun q hq => h.perm.subset (List.mem_append_left _ hq)
  constructor
  · intro hp
    exact ⟨hsub p hp, h.order.grounded hd s.ran hsub _ (List.mem_map_of_mem hp)⟩
  · rintro ⟨hp, hg⟩
    obtain ⟨q, hq, he⟩ := List.mem_map.mp (h.ran_of_grounded hd hrest hg)
    rwa [← eq_of_name hn (hsub q hq) hp he]

end

/-! ## Whole runs -/

section
variable (hn : (passNames ps).Nodup)

/-- The passes are registered one after the other. -/
def addAll (ps : List PassType) : PassManager := ps.foldl addPass new

include hn in
theorem sched_run (n : Nat) : Sched (addAll ps).dependencies ps ((addAll ps).scheduleAndRunPasses n) := by
  unfold scheduleAndRunPasses
  induction n with
  | zero =>
    refine ⟨rfl, ?_, ?_⟩
    · simp [addAll, (registered hn).1]
    · intro a p b he
      exact absurd he.symm (by simp)
  | succ n ih =>
    rw [Function.iterate_succ_apply']
    exact ih.next hn

include hn in
theorem run_rests (n : Nat) (h : ps.length ≤ n) :
    loopStep (addAll ps).dependencies ((addAll ps).scheduleAndRunPasses n) = (addAll ps).scheduleAndRunPasses n := by
  apply iterate_fixed _ (fun s => s.passes.length) loopStep_shrinks
  simpa [addAll, (registered hn).1] using h

theorem ran_mono {m : PassManager} {n k : Nat} (h : n ≤ k) :
    (m.scheduleAndRunPasses n).ran <+: (m.scheduleAndRunPasses k).ran := by
  induction h with
  | refl => exact List.prefix_refl _
  | step _ ih =>
    refine ih.trans ?_
    unfold scheduleAndRunPasses
    rw [Function.iterate_succ_apply']
    generalize (loopStep m.dependencies)^[_] _ = s
    unfold loopStep
    by_cases he : s.passes.isEmpty = true
    · rw [if_pos he]
    · rw [if_neg he, sweep_eq]
      exact List.prefix_append _ _

include hn in
theorem ran_iff {p : PassType} : (∃ n, p ∈ ((addAll ps).scheduleAndRunPasses n).ran) ↔
    p ∈ ps ∧ Grounded (PassDep ps) (Registered ps) p.name := by
  have hrest := (sched_run hn ps.length).mem_ran_iff (registered hn).2 hn (run_rests hn _ le_rfl) (p := p)
  constructor
  · rintro ⟨n, hp⟩
    have hk := sched_run hn (max n ps.length)
    rw [← hk.mem_ran_iff (registered hn).2 hn (run_rests hn _ (le_max_right _ _))]
    exact (ran_mono (le_max_left _ _)).subset hp
  · intro hp
    exact ⟨ps.length, hrest.mpr hp⟩

include hn in
theorem terminates_iff_grounded : (addAll ps).Terminates ↔ ∀ x ∈ Registered ps, Grounded (PassDep ps) (Registered ps) x := by
  constructor
  · rintro ⟨n, hend⟩ x hx
    obtain ⟨p, hp, rfl⟩ := List.mem_map.mp hx
    have hperm := (sched_run hn n).perm
    rw [hend, List.append_nil] at hperm
    exact ((ran_iff hn).mp ⟨n, hperm.symm.subset hp⟩).2
  · intro hg
    refine ⟨ps.length, List.eq_nil_iff_forall_not_mem.mpr fun p hp => ?_⟩
    have hs := sched_run hn ps.length
    have hps : p ∈ ps := hs.perm.subset (List.mem_append_right _ hp)
    have hran := (hs.mem_ran_iff (registered hn).2 hn (run_rests hn _ le_rfl)).mpr
      ⟨hps, hg _ (List.mem_map_of_mem hps)⟩
    -- a pass that has run is not left
    have hnd := hs.names_nodup hn
    rw [passNames, List.map_append, List.nodup_append'] at hnd
    exact hnd.2.2 (List.mem_map_of_mem hran) (List.mem_map_of_mem hp)

include hn in
theorem ran_nodup (n : Nat) : ((addAll ps).scheduleAndRunPasses n).ran.Nodup := by
  have h := ((sched_run hn n).names_nodup hn).of_map
  exact h.of_append_left

end

/-- A pass that is not registered, or that depends on itself through others. -/
def Broken (ps : List PassType) (x : String) : Prop := x ∉ passNames ps ∨ TransGen (PassDep ps) x x

end PassManager

end Pigasus
