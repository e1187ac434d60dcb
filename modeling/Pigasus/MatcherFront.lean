import Pigasus.TrafficManager

/-!
# The two copies of a packet in front of the matchers

`string_matcher_wrapper` and `non_fast_pattern_wrapper` send each flit through
`pkt_almost_full_nogap` and two registers into `bypass_pkt_fifo` and `in_pkt_fifo`.
Neither FIFO can refuse a flit: the pace is taken from `almost_full`, which is a
cycle late and read at the end of a packet only. The FIFOs themselves are not part of
the source, and one of them is read on another clock: when a read frees its place, and
how far the reported fill level is behind, is left open.
-/

namespace Pigasus

open Hdl

/-! ## The model -/

def fullLevel : Nat := 470

def fifoDepth : Nat := 512

/-- How many places the write side sees freed in a cycle, and the reported `fill_level`. -/
structure FifoTick where
  freed : Nat
  level : Nat

/-- `unified_pkt_fifo` with `almost_full`, from its write side: the flits that take a place, and those before them. -/
structure PktFifo where
  flits : List Flit512
  almostFull : Bool
  overflow : Bool
  out : List Flit512

def PktFifo.step (x : PktFifo) (push : Option Flit512) (t : FifoTick) : PktFifo where
  flits := x.flits.drop t.freed ++ (if x.flits.length < fifoDepth then push else none).toList
  almostFull := decide (fullLevel ≤ t.level)
  overflow := x.overflow || (push.isSome && decide (fifoDepth ≤ x.flits.length))
  out := x.out ++ x.flits.take t.freed

structure CopyTick where
  valid : Bool
  bypass : FifoTick
  inPkt : FifoTick

/-- `send` is the state of `pkt_almost_full_nogap`; behind `temp` are the two stages of `hyper_pipe`. -/
structure CopySys where
  send : Bool
  temp : Option Flit512
  hp0 : Option Flit512
  hp1 : Option Flit512
  bypass : PktFifo
  inPkt : PktFifo
  src : List Flit512
  taken : List Flit512

namespace CopySys

variable (s : CopySys) (t : CopyTick)

def pipedAlmostFull : Bool := s.bypass.almostFull || s.inPkt.almostFull

/-- The flit that `in_valid` and `in_ready` hand over. -/
def accepted : Option Flit512 := if s.send && t.valid then s.src.head? else none

def step : CopySys where
  send := if s.send then !((s.accepted t).any (·.eop) && s.pipedAlmostFull) else !s.pipedAlmostFull
  temp := s.accepted t
  hp0 := s.temp
  hp1 := s.hp0
  bypass := s.bypass.step s.hp1 t.bypass
  inPkt := s.inPkt.step s.hp1 t.inPkt
  src := if (s.accepted t).isSome then s.src.tail else s.src
  taken := s.taken ++ (s.accepted t).toList

def init (flits : List Flit512) : CopySys :=
  ⟨false, none, none, none, ⟨[], false, false, []⟩, ⟨[], false, false, []⟩, flits, []⟩

/-- The reported levels miss at most `L` flits, as levels of at most `L` cycles ago do. -/
def Lag (L : Nat) (s : CopySys) (t : CopyTick) : Prop :=
  s.bypass.flits.length ≤ t.bypass.level + L ∧ s.inPkt.flits.length ≤ t.inPkt.level + L

instance (L : Nat) (s : CopySys) (t : CopyTick) : Decidable (Lag L s t) := inferInstanceAs (Decidable (_ ∧ _))

end CopySys

/-- From a flit that `k` flits of its packet stand in front of: no packet has more than `l` flits. -/
def PacketsWithin (l : Nat) : Nat → List Flit512 → Prop
  | _, [] => True
  | k, f :: fs => k < l ∧ PacketsWithin l (if f.eop then 0 else k + 1) fs

instance (l : Nat) : ∀ k fs, Decidable (PacketsWithin l k fs)
  | _, [] => isTrue trivial
  | k, f :: fs =>
    have := instDecidablePacketsWithin l (if f.eop then 0 else k + 1) fs
    inferInstanceAs (Decidable (_ ∧ _))

/-- The room above `FULL_LEVEL` that is left when a packet starts. -/
def maxPacket (L : Nat) : Nat := fifoDepth - fullLevel - 4 - L

/-! ## The invariant -/

namespace CopySys

variable {L : Nat} {s : CopySys} {t : CopyTick} {x : PktFifo} {u : FifoTick} {k : Nat}

def piped (s : CopySys) : List Flit512 := s.hp1.toList ++ s.hp0.toList ++ s.temp.toList

/-- What holds of each of the FIFOs when `k` flits of a packet are taken. -/
structure Side (L : Nat) (s : CopySys) (x : PktFifo) (k : Nat) : Prop where
  same : x.out ++ x.flits ++ s.piped = s.taken
  fine : x.overflow = false
  -- `almost_full` tells of the cycle before
  calm : x.almostFull = false → x.flits.length + s.piped.length ≤ fullLevel + 3 + L
  load : x.flits.length + s.piped.length ≤ fifoDepth
  busy : s.send = true → x.flits.length + s.piped.length ≤ fullLevel + 4 + L + k

structure Inv (L : Nat) (flits : List Flit512) (s : CopySys) (k : Nat) : Prop where
  cut : s.taken ++ s.src = flits
  within : PacketsWithin (maxPacket L) k s.src
  rest : s.send = false → k = 0
  bypass : Side L s s.bypass k
  inPkt : Side L s s.inPkt k

theorem length_toList_le {α : Type} (o : Option α) : o.toList.length ≤ 1 := by
  cases o <;> simp

theorem piped_le (s : CopySys) : s.piped.length ≤ 3 := by
  have h1 := length_toList_le s.hp1
  have h2 := length_toList_le s.hp0
  have h3 := length_toList_le s.temp
  rw [piped, List.length_append, List.length_append]
  omega

theorem Side.room (h : Side L s x k) : s.hp1 ≠ none → x.flits.length < fifoDepth := by
  intro hne
  obtain ⟨f, hf⟩ := Option.ne_none_iff_exists'.1 hne
  have hl := h.load
  rw [piped, hf, List.length_append, List.length_append, Option.toList_some, List.length_singleton] at hl
  omega

theorem Side.flits_step (h : Side L s x k) (u : FifoTick) : (x.step s.hp1 u).flits = x.flits.drop u.freed ++ s.hp1.toList := by
  rw [PktFifo.step]
  by_cases hp : s.hp1 = none
  · rw [hp, ite_self]
  · rw [if_pos (h.room hp)]

theorem Side.same_step (h : Side L s x k) (u : FifoTick) :
    (x.step s.hp1 u).out ++ (x.step s.hp1 u).flits ++ (s.step t).piped = (s.step t).taken := by
  have hout : (x.step s.hp1 u).out ++ (x.step s.hp1 u).flits = x.out ++ x.flits ++ s.hp1.toList := by
    rw [h.flits_step, PktFifo.step, ← List.append_assoc, List.append_assoc x.out, List.take_append_drop]
  rw [hout]
  show x.out ++ x.flits ++ s.hp1.toList ++ (s.hp0.toList ++ s.temp.toList ++ (s.accepted t).toList) = s.taken ++ (s.accepted t).toList
  rw [← h.same, piped]
  simp only [List.append_assoc]

theorem Side.length_step (h : Side L s x k) (u : FifoTick) :
    (x.step s.hp1 u).flits.length + (s.step t).piped.length ≤ x.flits.length + s.piped.length + (s.accepted t).toList.length := by
  have hp : (s.step t).piped.length = s.hp0.toList.length + s.temp.toList.length + (s.accepted t).toList.length := by
    rw [piped, List.length_append, List.length_append]
    rfl
  rw [h.flits_step, hp, piped, List.length_append, List.length_append, List.length_append, List.length_drop]
  omega

theorem Side.step (h : Side L s x k) (hu : x.flits.length ≤ u.level + L) {k' : Nat} (hk : (s.accepted t).isSome = true → s.send = true ∧ k < maxPacket L)
    (hbusy : (s.step t).send = true → x.flits.length + s.piped.length + (s.accepted t).toList.length ≤ fullLevel + 4 + L + k') :
    Side L (s.step t) (x.step s.hp1 u) k' := by
  have hlen := h.length_step (t := t) u
  refine ⟨h.same_step u, ?_, ?_, ?_, fun hs => hlen.trans (hbusy hs)⟩
  · rw [PktFifo.step, h.fine, Bool.false_or]
    by_cases hp : s.hp1 = none
    · simp [hp]
    · have hr := h.room hp
      simp
      omega
  · intro haf
    have hlt : u.level < fullLevel := by simpa [PktFifo.step] using haf
    have hp := piped_le s
    have ha := length_toList_le (s.accepted t)
    omega
  · by_cases ha : (s.accepted t).isSome = true
    · obtain ⟨hs, hlt⟩ := hk ha
      have hb := h.busy hs
      have h1 := length_toList_le (s.accepted t)
      simp only [maxPacket, fullLevel, fifoDepth] at *
      omega
    · have hz : (s.accepted t).toList.length = 0 := by simpa using ha
      have hl := h.load
      omega

theorem Inv.calm {flits : List Flit512} (h : Inv L flits s k) (haf : s.pipedAlmostFull = false) :
    s.bypass.flits.length + s.piped.length ≤ fullLevel + 3 + L ∧ s.inPkt.flits.length + s.piped.length ≤ fullLevel + 3 + L := by
  rw [pipedAlmostFull, Bool.or_eq_false_iff] at haf
  exact ⟨h.bypass.calm haf.1, h.inPkt.calm haf.2⟩

theorem Inv.step_idle {flits : List Flit512} (h : Inv L flits s k) (hl : Lag L s t) (ha : s.accepted t = none) : Inv L flits (s.step t) k := by
  have hz : (s.accepted t).toList.length = 0 := by rw [ha]; rfl
  have hk : (s.accepted t).isSome = true → s.send = true ∧ k < maxPacket L := by simp [ha]
  have hsend : (s.step t).send = if s.send then true else !s.pipedAlmostFull := by simp [CopySys.step, ha]
  have hbusy : ∀ x, Side L s x k → (s.pipedAlmostFull = false → x.flits.length + s.piped.length ≤ fullLevel + 3 + L) → (s.step t).send = true →
      x.flits.length + s.piped.length + (s.accepted t).toList.length ≤ fullLevel + 4 + L + k := by
    intro x hx hcalm hs
    rw [hz]
    by_cases hb : s.send = true
    · exact hx.busy hb
    · rw [hsend, if_neg hb, Bool.not_eq_true'] at hs
      have := hcalm hs
      omega
  refine ⟨?_, ?_, ?_, h.bypass.step hl.1 hk (hbusy _ h.bypass fun hp => (h.calm hp).1),
    h.inPkt.step hl.2 hk (hbusy _ h.inPkt fun hp => (h.calm hp).2)⟩
  · simpa [CopySys.step, ha] using h.cut
  · simpa [CopySys.step, ha] using h.within
  · intro hs
    refine h.rest ?_
    rw [hsend] at hs
    by_contra hb
    rw [if_pos (by simpa using hb)] at hs
    cases hs

theorem Inv.step_take {flits : List Flit512} {f : Flit512} (h : Inv L flits s k) (hlag : Lag L s t) (ha : s.accepted t = some f) :
    Inv L flits (s.step t) (if f.eop then 0 else k + 1) := by
  have hsv : (s.send && t.valid) = true := by
    by_contra hc
    rw [accepted, if_neg hc] at ha
    cases ha
  obtain ⟨hs, -⟩ := Bool.and_eq_true_iff.1 hsv
  rw [accepted, if_pos hsv] at ha
  obtain ⟨l, hl⟩ := List.head?_eq_some_iff.1 ha
  have hacc : s.accepted t = some f := by rw [accepted, if_pos hsv, ha]
  have hone : (s.accepted t).toList.length = 1 := by rw [hacc]; rfl
  have hwith := h.within
  rw [hl] at hwith
  have hsend : (s.step t).send = !(f.eop && s.pipedAlmostFull) := by simp [CopySys.step, hs, hacc]
  have hbusy : ∀ x, Side L s x k → (s.pipedAlmostFull = false → x.flits.length + s.piped.length ≤ fullLevel + 3 + L) → (s.step t).send = true →
      x.flits.length + s.piped.length + (s.accepted t).toList.length ≤ fullLevel + 4 + L + (if f.eop then 0 else k + 1) := by
    intro x hx hcalm hgo
    rw [hone]
    by_cases he : f.eop = true
    · -- the packet ends, and the next one may follow at once
      rw [hsend, he, Bool.true_and, Bool.not_eq_true'] at hgo
      have := hcalm hgo
      rw [if_pos he]
      omega
    · have := hx.busy hs
      rw [if_neg he]
      omega
  refine ⟨?_, ?_, ?_, h.bypass.step hlag.1 (fun _ => ⟨hs, hwith.1⟩) (hbusy _ h.bypass fun hp => (h.calm hp).1),
    h.inPkt.step hlag.2 (fun _ => ⟨hs, hwith.1⟩) (hbusy _ h.inPkt fun hp => (h.calm hp).2)⟩
  · rw [← h.cut, hl]
    simp [CopySys.step, hacc, hl]
  · simpa [CopySys.step, hacc, hl] using hwith.2
  · intro hgo
    rw [hsend, Bool.not_eq_false', Bool.and_eq_true] at hgo
    rw [if_pos hgo.1]

def Kept (L : Nat) (flits : List Flit512) (s : CopySys) : Prop := ∃ k, Inv L flits s k

theorem Kept.step {flits : List Flit512} (s : CopySys) (t : CopyTick) (h : Kept L flits s) (hl : Lag L s t) : Kept L flits (s.step t) := by
  obtain ⟨k, h⟩ := h
  cases ha : s.accepted t with
  | none => exact ⟨k, h.step_idle hl ha⟩
  | some f => exact ⟨_, h.step_take hl ha⟩

theorem inv_init {flits : List Flit512} (h : PacketsWithin (maxPacket L) 0 flits) : Inv L flits (init flits) 0 := by
  have hs : Side L (init flits) ⟨[], false, false, []⟩ 0 :=
    ⟨rfl, rfl, fun _ => by simp [piped, init], by simp [piped, init], fun _ => by simp [piped, init]⟩
  exact ⟨rfl, h, fun _ => rfl, hs, hs⟩

/-- With fill levels that miss at most `L` flits and packets of at most `38 - L` flits no FIFO refuses a flit, however
slowly the two are read: both copies are the flits that were taken, in their order. -/
theorem copies_complete (L : Nat) (flits : List Flit512) (hlen : PacketsWithin (maxPacket L) 0 flits) (ts : List CopyTick)
    (hlag : AllSteps CopySys.step (Lag L) (init flits) ts) :
    let s := run CopySys.step (init flits) ts
    s.taken ++ s.src = flits ∧
      (s.bypass.overflow = false ∧ s.bypass.out ++ s.bypass.flits ++ s.piped = s.taken) ∧
      (s.inPkt.overflow = false ∧ s.inPkt.out ++ s.inPkt.flits ++ s.piped = s.taken) := by
  obtain ⟨k, h⟩ : Kept L flits (run CopySys.step (init flits) ts) := run_inv CopySys.step Kept.step ts _ ⟨0, inv_init hlen⟩ hlag
  exact ⟨h.cut, ⟨h.bypass.fine, h.bypass.same⟩, ⟨h.inPkt.fine, h.inPkt.same⟩⟩

-- a packet of 32 flits, with levels that are up to six flits behind
theorem copies_complete_large :
    let flits : List Flit512 := List.replicate 31 ⟨0, false, false, 0⟩ ++ [⟨0, false, true, 0⟩]
    let ts := (List.range 36).map fun n => (⟨true, ⟨0, n - 10⟩, ⟨0, n - 10⟩⟩ : CopyTick)
    let s := run CopySys.step (init flits) ts
    s.taken.length = 32 ∧ s.bypass.out ++ s.bypass.flits ++ s.piped = s.taken := by
  exact ⟨by decide +kernel, (copies_complete 6 _ (by decide) _ (by decide +kernel)).2.1.2⟩

end CopySys

end Pigasus
