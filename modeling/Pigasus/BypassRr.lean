import Pigasus.BypassNfSound

/-!
# The round-robin front

`bypass_nf_front_rr` sends packets to the matcher and around it in turn, whatever the fill
levels. Each of its steps is a step of `bypass_nf_front` under some fill levels, so that
all that holds of the one for every back-pressure holds of the other.
-/

namespace Pigasus

open Hdl

structure NfFrontRr where
  state : NfState
  last : NfState
  done : Flags
  out : Bus
  bypass : Bus

namespace NfFrontRr

variable (s : NfFrontRr)

def reset : NfFrontRr := ⟨.idle, .bypass, .clear, .reset, .reset⟩

def ready : Flags := s.done.ready (s.state != .idle)

def step (i : Bus) : NfFrontRr :=
  match s.state with
  | .idle =>
    { s with
      state := if i.pktValid then (if s.last = .bypass then .pushNf else .bypass) else .idle
      done := .clear
      out := s.out.load i
      bypass := s.bypass.load i }
  | .pushNf =>
    { state := if s.done.all then .idle else .pushNf
      last := if s.done.all then .pushNf else s.last
      done := s.done.carry i
      out := i.carry s.done
      bypass := s.bypass.load i }
  | .bypass =>
    { state := if s.done.all then .idle else .bypass
      last := if s.done.all then .bypass else s.last
      done := s.done.carry i
      out := s.out.load i
      bypass := i.carry s.done }

def toFront : NfFront := ⟨s.state, s.done, s.out, s.bypass⟩

theorem toFront_step (i : Bus) : (s.step i).toFront = s.toFront.step i (s.last != .bypass) false := by
  cases hs : s.state with
  | idle =>
    by_cases hl : s.last = .bypass
    · simp [step, toFront, NfFront.step, hs, hl]
    · have hb : (s.last != .bypass) = true := bne_iff_ne.2 hl
      simp [step, toFront, NfFront.step, hs, hl, hb]
  | pushNf => simp [step, toFront, NfFront.step, hs]
  | bypass => simp [step, toFront, NfFront.step, hs]

end NfFrontRr

/-! ## The whole system -/

structure RrSys where
  src : NfSource
  front : NfFrontRr
  nfIns : List NfIn
  nfQ : Three
  toBypass : Three
  bypassQ : Three
  back : NfBack
  out : Three

namespace RrSys

def reset (ts : List Triple) : RrSys where
  src := ⟨⟨(Three.of ts).pkt, []⟩, ⟨(Three.of ts).metaData, []⟩, ⟨(Three.of ts).usr, []⟩⟩
  front := .reset
  nfIns := []
  nfQ := .nil
  toBypass := .nil
  bypassQ := .nil
  back := .reset
  out := .nil

def nextNfIns (s : RrSys) (i : NfTick) : List NfIn := s.nfIns ++ [⟨s.front.out, i.nfAlmostFull⟩]

def step (p : NfPath) (s : RrSys) (i : NfTick) : RrSys where
  src := s.src.step i.arrives s.front.ready
  front := s.front.step s.src.waiting.bus
  nfIns := s.nextNfIns i
  nfQ := s.nfQ.drop (s.back.ready .pushNf) ++ p.out (s.nextNfIns i)
  toBypass := s.toBypass ++ s.front.bypass.beat
  bypassQ := s.bypassQ.drop (s.back.ready .bypass) ++ s.front.bypass.beat
  back := s.back.step s.nfQ.bus s.bypassQ.bus i.backPktAlmostFull
  out := s.out ++ s.back.out.beat

variable {p : NfPath} {ts : List Triple} {s : RrSys}

def toSys (s : RrSys) : NfSys := ⟨s.src, s.front.toFront, s.nfIns, s.nfQ, s.toBypass, s.bypassQ, s.back, s.out⟩

/-- The fill levels under which `bypass_nf_front` does the same. -/
def tick (s : RrSys) (i : NfTick) : NfTick := { i with outPktAlmostFull := s.front.last != .bypass, bypassPktAlmostFull := false }

theorem toSys_step (s : RrSys) (i : NfTick) : (s.step p i).toSys = s.toSys.step p (s.tick i) := by
  have hfront := s.front.toFront_step s.src.waiting.bus
  unfold toSys step NfSys.step
  simp only [hfront]
  rfl

/-! ## In turn -/

/-- The metadata words that went to the path `b`, with the one in its register. -/
def metas (s : RrSys) (b : Bool) : Nat := ((s.toSys.given b).metaData ++ (s.front.toFront.port b).beat.metaData).length

/-- It is, or will be, the turn of path `b`. The matcher's path has had the metadata of one packet more if this is the
bypass, but for those of the packet in work. -/
inductive InTurn (s : RrSys) : Prop
  | idle (b : Bool) (hs : s.front.state = .idle) (hl : s.front.last = pathState (!b)) (hm : s.metas b + b.toNat = s.metas (!b))
  | busy (b : Bool) (hs : s.front.state = pathState b) (hl : s.front.last = pathState (!b))
      (hm : s.metas b + b.toNat = s.metas (!b) + s.front.done.metaData.toNat)

theorem metas_step (s : RrSys) (i : NfTick) (b : Bool) :
    (s.step p i).metas b = s.metas b + ((s.step p i).front.toFront.port b).beat.metaData.length := by
  unfold metas
  rw [toSys_step, NfSys.given_step, Three.append_metaData, List.length_append]
  rfl

theorem metaData_load {r i : Bus} (h : r.beat = .nil) : (r.load i).beat.metaData.length = 0 := by
  rw [Bus.beat_load h]
  rfl

theorem metaData_carry (i : Bus) (d : Flags) : (i.carry d).beat.metaData.length + d.metaData.toNat = (d.carry i).metaData.toNat := by
  cases hd : d.metaData <;> cases hv : i.metaValid <;> simp [Bus.carry, Bus.beat, Flags.carry, hd, hv]

theorem port_idle (h : NfSys.FrontInv ts s.toSys) (hs : s.front.state = .idle) (b : Bool) : (s.front.toFront.port b).beat = .nil := by
  cases h with
  | idle ent _ _ port _ => exact port b
  | busy ent c _ hc => exact absurd (hs.symm.trans hc) (NfSys.pathState_ne_idle c).symm

theorem port_other (h : NfSys.FrontInv ts s.toSys) {b : Bool} (hs : s.front.state = pathState b) :
    (s.front.toFront.port (!b)).beat = .nil := by
  cases h with
  | idle ent hi => exact absurd (hs.symm.trans hi) (NfSys.pathState_ne_idle b)
  | busy ent c _ hc _ _ _ port =>
    have hbc : b = c := by
      have := hs.symm.trans hc
      cases b <;> cases c <;> simp_all [pathState]
    rw [hbc]
    exact port

theorem metas_busy (h : NfSys.FrontInv ts s.toSys) {b : Bool} (hs : s.front.state = pathState b) (i : NfTick) :
    (s.step p i).metas b + s.front.done.metaData.toNat = s.metas b + (s.step p i).front.done.metaData.toNat ∧
      (s.step p i).metas (!b) = s.metas (!b) := by
  have hfront := s.front.toFront_step s.src.waiting.bus
  obtain ⟨-, hd, hpb, hpo⟩ := NfFront.step_busy (s := s.front.toFront) hs s.src.waiting.bus (s.front.last != .bypass) false
  rw [← hfront] at hd hpb hpo
  have hdone : (s.step p i).front.done = s.front.done.carry s.src.waiting.bus := hd
  rw [metas_step, metas_step]
  constructor
  · have hport : (s.step p i).front.toFront.port b = s.src.waiting.bus.carry s.front.done := hpb
    have hcarry := metaData_carry s.src.waiting.bus s.front.done
    rw [hport, hdone, ← hcarry]
    omega
  · have hport : (s.step p i).front.toFront.port (!b) = (s.front.toFront.port (!b)).load s.src.waiting.bus := hpo
    rw [hport, metaData_load (port_other h hs)]
    rfl

theorem metas_idle (h : NfSys.FrontInv ts s.toSys) (hs : s.front.state = .idle) (i : NfTick) (b : Bool) :
    (s.step p i).metas b = s.metas b := by
  have hfront := s.front.toFront_step s.src.waiting.bus
  obtain ⟨-, hp, -⟩ := NfFront.step_idle (s := s.front.toFront) hs s.src.waiting.bus (s.front.last != .bypass) false
  have hport : (s.step p i).front.toFront.port b = (s.front.toFront.port b).load s.src.waiting.bus := by
    rw [← hp b, ← hfront]
    rfl
  rw [metas_step, hport, metaData_load (port_idle h hs b)]
  rfl

theorem metaData_of_all {d : Flags} (h : d.all = true) : d.metaData = true := by
  simp only [Flags.all, Bool.and_eq_true] at h
  exact h.1.2

theorem InTurn.step (ht : InTurn s) (h : NfSys.FrontInv ts s.toSys) (i : NfTick) : InTurn (s.step p i) := by
  cases ht with
  | idle b hs hl hm =>
    have hb := metas_idle (p := p) h hs i
    have hlast : (s.step p i).front.last = pathState (!b) := by simp [RrSys.step, NfFrontRr.step, hs, hl]
    by_cases hv : s.src.waiting.bus.pktValid = true
    · refine .busy b ?_ hlast ?_
      · cases b <;> simp [RrSys.step, NfFrontRr.step, hs, hl, hv, pathState]
      · rw [hb, hb, hm]
        simp [RrSys.step, NfFrontRr.step, hs, Flags.clear]
    · refine .idle b ?_ hlast (by rw [hb, hb, hm])
      simp [RrSys.step, NfFrontRr.step, hs, hv]
  | busy b hs hl hm =>
    obtain ⟨hown, hother⟩ := metas_busy (p := p) h hs i
    have hfront : (s.step p i).front.toFront = _ := s.front.toFront_step s.src.waiting.bus
    obtain ⟨hst, hd, -⟩ := NfFront.step_busy (s := s.front.toFront) hs s.src.waiting.bus (s.front.last != .bypass) false
    rw [← hfront] at hst hd
    replace hst : (s.step p i).front.state = if s.front.done.all then .idle else pathState b := hst
    have hlast : (s.step p i).front.last = if s.front.done.all then pathState b else s.front.last := by
      cases b <;> simp [RrSys.step, NfFrontRr.step, hs, pathState]
    by_cases ha : s.front.done.all = true
    · -- the metadata have passed before
      have h1 := metaData_of_all ha
      have hdone : (s.step p i).front.done.metaData = true := by
        rw [show (s.step p i).front.done = s.front.done.carry s.src.waiting.bus from hd]
        simp [Flags.carry, h1]
      rw [h1, Bool.toNat_true] at hm
      rw [h1, hdone] at hown
      have hb : b.toNat + (!b).toNat = 1 := by cases b <;> rfl
      refine .idle (!b) (by rw [hst, if_pos ha]) (by rw [hlast, if_pos ha, Bool.not_not]) ?_
      rw [Bool.not_not]
      omega
    · refine .busy b (by rw [hst, if_neg ha]) (by rw [hlast, if_neg ha, hl]) ?_
      omega

theorem InTurn.balanced (h : InTurn s) : s.metas true ≤ s.metas false ∧ s.metas false ≤ s.metas true + 1 := by
  have hbit : s.front.done.metaData.toNat ≤ 1 := Bool.toNat_le _
  cases h with
  | idle b _ _ hm | busy b _ _ hm => cases b <;> simp only [Bool.not_false, Bool.not_true, Bool.toNat_false, Bool.toNat_true] at hm <;> omega

structure Inv (p : NfPath) (ts : List Triple) (s : RrSys) : Prop where
  front : NfSys.FrontInv ts s.toSys
  back : NfSys.BackInv p s.toSys
  turn : InTurn s

theorem Inv.step (s : RrSys) (i : NfTick) (h : Inv p ts s) (_ : True) : Inv p ts (s.step p i) := by
  refine ⟨?_, ?_, h.turn.step h.front i⟩
  · rw [toSys_step]
    exact h.front.step _
  · rw [toSys_step]
    exact h.back.step _

theorem inv_reset (p : NfPath) (ts : List Triple) : Inv p ts (reset ts) := ⟨.reset ts, .reset ts, .idle false rfl rfl rfl⟩

theorem tick_free (s : RrSys) : NfSys.Free (s.tick NfSys.go) := ⟨Bool.and_false _, rfl, rfl⟩

/-- Every cycle is a cycle of `bypass_nf_front` under some fill levels. So the triples enter one path each and leave it
whole and in order, and all of them once they have arrived and nothing behind the paths holds back. The two paths take
turns: the matcher's path is never behind, and never more than one packet ahead. -/
theorem rr_keepsTriples (p : NfPath) (ts : List Triple) (is : List NfTick) :
    let s := run (step p) (reset ts) is
    (∀ i, (s.step p i).toSys = s.toSys.step p (s.tick i)) ∧
    (∃ (ent order : List (Triple × Bool)) (later ps : List Triple), ts = ent.map Prod.fst ++ later ∧
      (∀ b, (Three.of (onPath b ent.dropLast)).Begins (s.toSys.given b) ∧ (s.toSys.given b).Begins (.of (onPath b ent))) ∧
      Passes (onPath false ent) ps ∧
      (Three.of (order.dropLast.map Prod.fst)).Begins s.out ∧ s.out.Begins (.of (order.map Prod.fst)) ∧
      onPath true order <+: onPath true ent ∧ onPath false order <+: ps) ∧
    (s.toSys.Arrived → ∃ N, ∀ n, N ≤ n → (run (step p) s (List.replicate n NfSys.go)).toSys.Complete ts) ∧
    s.metas true ≤ s.metas false ∧ s.metas false ≤ s.metas true + 1 := by
  intro s
  have hinv : Inv p ts s := run_inv (step p) Inv.step is (reset ts) (inv_reset p ts) (allSteps_of_forall _ (fun _ _ => trivial) _ _)
  refine ⟨toSys_step s, NfSys.sequence_of_inv hinv.front hinv.back, ?_, hinv.turn.balanced⟩
  exact NfSys.FrontInv.completes (fun s => ⟨s.tick NfSys.go, s.tick_free, toSys_step s NfSys.go⟩) hinv.front hinv.back

end RrSys

end Pigasus
