import Pigasus.FlowControlSound
import Mathlib.Data.List.Induction

/-!
# The credit never overflows the receiver

The credit, the flits on the way and the counts that come back always make up
the depth of the peer's input buffer. The threshold leaves room for the packet
that is being sent and for the cycles that the back-pressure is late.
-/

namespace Pigasus

open Hdl Frames

/-! ## Where a packet is cut -/

def partRead (l : List Flit512) : Nat := (l.reverse.takeWhile fun f => !f.eop).length

theorem partRead_snoc (l : List Flit512) (f : Flit512) : partRead (l ++ [f]) = if f.eop then 0 else partRead l + 1 := by
  cases hf : f.eop <;> simp [partRead, hf]

theorem partRead_of_body {l : List Flit512} (h : ∀ f ∈ l, f.eop = false) : partRead l = l.length := by
  induction l using List.reverseRecOn with
  | nil => rfl
  | append_singleton l f ih =>
    have hf : f.eop = false := h f (by simp)
    rw [partRead_snoc, hf, ih fun g hg => h g (by simp [hg])]
    simp

theorem partRead_append_frame (p : UserPkt) (l : List Flit512) : partRead (p.flits ++ l) = partRead l := by
  induction l using List.reverseRecOn with
  | nil =>
    have hp : p.flits = p.body ++ [p.last] := rfl
    rw [List.append_nil, hp, partRead_snoc, p.last_mark]
    rfl
  | append_singleton l f ih => rw [← List.append_assoc, partRead_snoc, partRead_snoc, ih]

theorem userFlits_cut {ps : List UserPkt} : ∀ {a r : List Flit512} {x : Flit512}, userFlits ps = a ++ x :: r →
    (x.sop = true ↔ partRead a = 0) ∧ partRead a < 32 := by
  induction ps with
  | nil =>
    intro a r x h
    simp [userFlits] at h
  | cons p ps ih =>
    intro a r x h
    have hc : userFlits (p :: ps) = p.flits ++ userFlits ps := rfl
    rw [hc] at h
    rcases List.append_eq_append_iff.1 h with ⟨b, rfl, hb⟩ | ⟨b, hb, hx⟩
    · rw [partRead_append_frame]
      exact ih hb
    · cases b with
      | nil =>
        rw [List.append_nil] at hb
        rw [← hb, ← List.append_nil p.flits, partRead_append_frame]
        exact ih (a := []) (by simpa using hx.symm)
      | cons y b =>
        obtain ⟨rfl, hr⟩ := List.cons.inj hx
        have hsop := p.sop a x b hb
        have hbody : ∀ f ∈ a, f.eop = false := by
          intro f hf
          obtain ⟨a₁, a₂, rfl⟩ := List.append_of_mem hf
          have hcut : p.toMarked.flits = a₁ ++ f :: (a₂ ++ x :: b) := by
            have : p.toMarked.flits = _ := hb
            simpa using this
          have := Marked.mark_iff hcut
          simpa using this
        have hlen : a.length < 32 := by
          have h1 := congrArg List.length hb
          have h2 := p.short
          have h3 : p.flits.length = p.body.length + 1 := by simp [UserPkt.flits, Marked.flits]
          rw [List.length_append, List.length_cons] at h1
          omega
        rw [partRead_of_body hbody, hsop, List.length_eq_zero_iff]
        exact ⟨Iff.rfl, hlen⟩

theorem userFlits_end (ps : List UserPkt) : partRead (userFlits ps) = 0 := by
  induction ps with
  | nil => rfl
  | cons p ps ih =>
    have hc : userFlits (p :: ps) = p.flits ++ userFlits ps := rfl
    rw [hc, partRead_append_frame, ih]

theorem partRead_lt {ps : List UserPkt} {a r : List Flit512} (h : a ++ r = userFlits ps) : partRead a < 32 := by
  cases r with
  | nil =>
    rw [List.append_nil] at h
    rw [h, userFlits_end]
    decide
  | cons x r => exact (userFlits_cut h.symm).2

namespace FcSys

variable {ps : Both (List UserPkt)} {s : FcSys} {t : Both FcTick} {d : Bool}

def totals (ps : Both (List UserPkt)) : Both (List Flit512) := .of fun d => userFlits (ps d)

/-! ## What `ack_gen` counts -/

/-- `ack_gen` of `!d` has counted what was read but for the packet it is in. -/
structure Counted (s : FcSys) (d : Bool) : Prop where
  num : partRead (s.got !d) ≠ 0 → (s.node !d).ackGen.numFlit.toNat = partRead (s.got !d)
  made : sum (s.made !d) + partRead (s.got !d) = (s.got !d).length

theorem cut_read (h : Inv (totals ps) s d) (ho : s.NoOverflow (!d)) {f : Flit512} (hf : (s.node !d).userInFlit (t !d) = some f) :
    (f.sop = true ↔ partRead (s.got !d) = 0) ∧ partRead (s.got !d) < 32 := by
  have hin := userIn_step (t := t) ho
  have hdata := h.data
  rw [totals, Both.of_apply, flight, onWay, ← hin, hf] at hdata
  have hcut : userFlits (ps d) = s.got (!d) ++ f :: (((s.step t).node !d).userIn ++ userPart (s.link d) ++ (s.node d).userOut.q ++
      (s.node d).intUserOut.toList ++ s.src d) := by
    rw [← hdata]
    simp only [Option.toList_some, List.append_assoc, List.cons_append, List.nil_append]
  exact userFlits_cut hcut

theorem Counted.step (hc : Counted s d) (h : Inv (totals ps) s d) (ho : s.NoOverflow (!d)) : Counted (s.step t) d := by
  have hm : (s.step t).made (!d) = s.made (!d) ++ fresh ((s.step t).node !d).ackGen := by
    rw [step_node]
    exact Both.of_apply _ (!d)
  have hg : ((s.step t).node !d).ackGen = (s.node !d).ackGen.step ((s.node !d).userInFlit (t !d)) := by
    rw [step_node]
    rfl
  cases hf : (s.node !d).userInFlit (t !d) with
  | none =>
    have hgot : (s.step t).got (!d) = s.got (!d) := by simp [got_step, hf]
    rw [hf] at hg
    refine ⟨?_, ?_⟩
    · rw [hgot, hg]
      exact hc.num
    · rw [hgot, hm, hg]
      simpa [fresh, AckGen.step] using hc.made
  | some f =>
    obtain ⟨hsop, hlt⟩ := cut_read (t := t) h ho hf
    have hgot : (s.step t).got (!d) = s.got (!d) ++ [f] := by simp [got_step, hf]
    rw [hf] at hg
    have hnum : ((s.step t).node !d).ackGen.numFlit.toNat = partRead (s.got !d) + 1 := by
      rw [hg]
      by_cases hs : f.sop = true
      · simp [AckGen.step, hs, hsop.1 hs]
      · have hn := hc.num fun h0 => hs (hsop.2 h0)
        have h1 : (1 : BitVec 8).toNat = 1 := rfl
        simp only [AckGen.step, hs, Bool.false_eq_true, if_false, BitVec.toNat_add, hn, h1]
        omega
    cases he : f.eop with
    | false =>
      refine ⟨?_, ?_⟩
      · rw [hgot, partRead_snoc, he]
        exact fun _ => hnum
      · have hfr : fresh ((s.step t).node !d).ackGen = [] := by simp [fresh, hg, AckGen.step, he]
        rw [hgot, hm, hfr, List.append_nil, partRead_snoc, he, List.length_append, List.length_singleton, ← hc.made]
        simp only [Bool.false_eq_true, if_false]
        omega
    | true =>
      refine ⟨?_, ?_⟩
      · rw [hgot, partRead_snoc, he]
        exact fun h0 => absurd rfl h0
      · have hfr : sum (fresh ((s.step t).node !d).ackGen) = partRead (s.got !d) + 1 := by
          by_cases hs : f.sop = true
          · simp [fresh, hg, AckGen.step, he, hs, sum, hsop.1 hs]
          · have hn := hc.num fun h0 => hs (hsop.2 h0)
            have h1 : (1 : BitVec 32).toNat = 1 := rfl
            simp only [fresh, hg, AckGen.step, he, hs, Bool.false_eq_true, if_false, if_true, sum, List.map_cons, List.map_nil,
              List.sum_cons, List.sum_nil, BitVec.toNat_add, BitVec.toNat_setWidth, hn, h1]
            omega
        rw [hgot, hm, sum_append, hfr, partRead_snoc, he, List.length_append, List.length_singleton, ← hc.made]
        simp only [if_true]
        omega

theorem Counted.reset (total : Both (List Flit512)) (d : Bool) : Counted (.reset total) d := by
  cases d <;> exact ⟨fun h => absurd rfl h, rfl⟩

/-! ## The pace -/

/-- The position in its packet of what the user of `d` has handed over. -/
def position (s : FcSys) (d : Bool) : Nat := partRead (s.got (!d) ++ s.flight d)

/-- The flit in the register behind `pkt_almost_full`. -/
def held (s : FcSys) (d : Bool) : Nat := if (s.node d).intUserOut.isSome then 1 else 0

/-- How much of the credit and of `user_out_fifo` the back-pressure leaves. -/
structure Pace (s : FcSys) (d : Bool) : Prop where
  credit : (s.node d).txCredit + s.paid d = inBufDepth + sum (s.applied d)
  enough : 65 + s.held d ≤ (s.node d).txCredit
  sending : (s.node d).sending = true → 97 + s.held d ≤ (s.node d).txCredit + s.position d
  isOpen : (s.node d).almostFull = false → 99 ≤ (s.node d).txCredit
  fill1 : (s.node d).userOut.q.length ≤ (s.node d).userOut.fill1 + 1
  fill2 : (s.node d).userOut.fill1 ≤ (s.node d).userOut.fill2 + 1
  room : (s.node d).userOut.q.length + s.held d ≤ 497
  sendingRoom : (s.node d).sending = true → (s.node d).userOut.q.length + s.held d ≤ 465 + s.position d
  openRoom : (s.node d).almostFull = false → (s.node d).userOut.q.length ≤ 463

/-- The credit, what is on the way, what is partly read and what is acknowledged make up the peer's buffer. -/
def Conserved (s : FcSys) (d : Bool) : Prop :=
  (s.node d).txCredit + (s.onWay d).length + partRead (s.got !d) + sum (s.pending d) = inBufDepth

theorem Pace.conserved {total : Both (List Flit512)} (hp : Pace s d) (hc : Counted s d) (h : Inv total s d) : Conserved s d := by
  have h1 := hp.credit
  have h2 := hc.made
  have h3 := congrArg sum h.count
  rw [sum_append] at h3
  unfold paid at h1
  rw [List.length_append] at h1
  unfold Conserved
  omega

theorem Conserved.userIn_lt (hc : Conserved s d) (hp : Pace s d) : (s.node !d).userIn.length < inBufDepth := by
  have h1 := hp.enough
  unfold Conserved onWay at hc
  simp only [List.length_append] at hc
  omega

theorem held_le (s : FcSys) (d : Bool) : s.held d ≤ 1 := by
  unfold held
  split <;> omega

theorem ds_le_pending (s : FcSys) (d : Bool) : ((s.node d).ds.getD 0).toNat ≤ sum (s.pending d) := by
  have hs : sum (s.node d).ds.toList = ((s.node d).ds.getD 0).toNat := by cases (s.node d).ds <;> simp [sum]
  simp only [pending, sum_append, hs]
  omega

section
variable {total : Both (List Flit512)}

theorem txCredit_step (hp : Pace s d) (hc : Conserved s d) :
    ((s.step t).node d).txCredit + s.held d = (s.node d).txCredit + ((s.node d).ds.getD 0).toNat := by
  have h1 := hp.enough
  have h2 := ds_le_pending s d
  have h3 : inBufDepth = 16384 := rfl
  unfold Conserved at hc
  rw [step_node]
  show (_ + _ + _) % 2 ^ 32 + _ = _
  unfold held at h1 ⊢
  split <;> split at h1 <;> omega

theorem length_userOut_step (ho : s.NoOverflow d) :
    ((s.step t).node d).userOut.q.length ≤ (s.node d).userOut.q.length + s.held d := by
  have h1 := congrArg List.length (FcFifo.q_step ho.1 ((s.node d).takeUser (t d)))
  have hi : (s.node d).intUserOut.toList.length = s.held d := by
    unfold held
    cases (s.node d).intUserOut <;> rfl
  simp only [List.length_append, hi] at h1
  rw [step_node]
  show ((s.node d).userOut.step _ _).q.length ≤ _
  omega

theorem open_step (hp : Pace s d) (hf : ((s.step t).node d).almostFull = false) :
    100 ≤ (s.node d).txCredit ∧ (s.node d).userOut.q.length ≤ 462 := by
  rw [step_node] at hf
  have hf : (decide ((s.node d).txCredit < dsThresh) || decide (460 < (s.node d).userOut.fill (t d).outLag) ||
      decide (460 < (s.node d).ackFifo.fill (t d).ackLag)) = false := hf
  simp only [Bool.or_eq_false_iff, decide_eq_false_iff_not, Nat.not_lt] at hf
  obtain ⟨⟨h1, h2⟩, -⟩ := hf
  have h3 := hp.fill1
  have h4 := hp.fill2
  refine ⟨h1, ?_⟩
  revert h2
  generalize (t d).outLag = l
  match l with
  | 0 => exact fun h => Nat.le_trans h (by decide)
  | 1 =>
    intro h
    have h : (s.node d).userOut.fill1 ≤ 460 := h
    omega
  | 2 =>
    intro h
    have h : (s.node d).userOut.fill2 ≤ 460 := h
    omega

theorem position_step (h : ∀ d, Inv total s d) (hp : ∀ d, Plain (total d)) (ho : ∀ d, s.NoOverflow d) (d : Bool) :
    (s.step t).position d = match ((s.node d).accepted (s.offered t d)) with
      | none => s.position d
      | some f => if f.eop then 0 else s.position d + 1 := by
  have hw := onWay_step (t := t) h hp ho d
  have hi : ((s.step t).node d).intUserOut = (s.node d).accepted (s.offered t d) := by
    rw [step_node]
    rfl
  unfold position flight
  rw [← List.append_assoc, hw, hi]
  cases (s.node d).accepted (s.offered t d) with
  | none => simp
  | some f =>
    rw [Option.toList_some, partRead_snoc]
    simp

theorem held_step (s : FcSys) (t : Both FcTick) (d : Bool) :
    (s.step t).held d = if ((s.node d).accepted (s.offered t d)).isSome then 1 else 0 := by
  unfold held
  rw [step_node]
  rfl

theorem sending_step (s : FcSys) (t : Both FcTick) (d : Bool) : ((s.step t).node d).sending =
    if (s.node d).sending then !((s.offered t d).any Flit512.eop && (s.node d).almostFull) else !(s.node d).almostFull := by
  rw [step_node]
  rfl

end

theorem position_lt (h : Inv (totals ps) s d) : s.position d < 32 := by
  have hdata := h.data
  rw [totals, Both.of_apply] at hdata
  exact partRead_lt hdata

theorem Pace.step (h : ∀ d, Inv (totals ps) s d) (hp : ∀ d, Plain (totals ps d)) (ho : ∀ d, s.NoOverflow d) (hc : Conserved s d)
    (hpace : Pace s d) : Pace (s.step t) d := by
  have hcr := txCredit_step (t := t) hpace hc
  have hq := length_userOut_step (t := t) (ho d)
  have hheld := held_le s d
  have hpos := position_lt (h d)
  have hposition := position_step (t := t) h hp ho d
  have hheld' := held_step s t d
  have hsend := sending_step s t d
  have hopen := open_step (t := t) hpace
  obtain ⟨credit, enough, sending, isOpen, fill1, fill2, room, sendingRoom, openRoom⟩ := hpace
  have hfill : ((s.step t).node d).userOut.fill1 = (s.node d).userOut.q.length ∧
      ((s.step t).node d).userOut.fill2 = (s.node d).userOut.fill1 := by
    rw [step_node]
    exact ⟨rfl, rfl⟩
  have hcredit : ((s.step t).node d).txCredit + (s.step t).paid d = inBufDepth + sum ((s.step t).applied d) := by
    have hpd := paid_step (t := t) h hp ho d
    have hap := applied_step s t d
    have hh : (if (s.node d).intUserOut.isSome then 1 else 0) = s.held d := rfl
    omega
  cases hs : (s.node d).sending with
  | false =>
    -- nothing is taken; the state changes when the back-pressure is off
    have hacc : (s.node d).accepted (s.offered t d) = none := by simp [FcNode.accepted, hs]
    rw [hacc] at hposition hheld'
    simp only [Option.isSome_none, Bool.false_eq_true, if_false] at hposition hheld'
    rw [hs] at hsend
    refine ⟨hcredit, by omega, ?_, ?_, by omega, by omega, by omega, ?_, ?_⟩
    · intro h'
      have := isOpen (by simpa [hsend] using h')
      omega
    · intro h'
      have := hopen h'
      omega
    · intro h'
      have := openRoom (by simpa [hsend] using h')
      omega
    · intro h'
      have := hopen h'
      omega
  | true =>
    have hacc : (s.node d).accepted (s.offered t d) = s.offered t d := by simp [FcNode.accepted, hs]
    have h1 := sending hs
    have h2 := sendingRoom hs
    rw [hacc] at hposition hheld'
    rw [hs, if_pos rfl] at hsend
    cases hof : s.offered t d with
    | none =>
      rw [hof] at hposition hheld'
      simp only [Option.isSome_none, Bool.false_eq_true, if_false] at hposition hheld'
      refine ⟨hcredit, by omega, fun _ => by omega, fun h' => ?_, by omega, by omega, by omega, fun _ => by omega, fun h' => ?_⟩
      · have := hopen h'
        omega
      · have := hopen h'
        omega
    | some f =>
      rw [hof] at hposition hheld' hsend
      simp only [Option.isSome_some, if_true] at hposition hheld'
      cases he : f.eop with
      | false =>
        simp only [he, Bool.false_eq_true, if_false] at hposition
        refine ⟨hcredit, by omega, fun _ => by omega, fun h' => ?_, by omega, by omega, by omega, fun _ => by omega, fun h' => ?_⟩
        · have := hopen h'
          omega
        · have := hopen h'
          omega
      | true =>
        -- the end of a packet: the next one begins only when the back-pressure is off
        simp only [he, if_true] at hposition
        simp only [Option.any_some, he, Bool.true_and] at hsend
        refine ⟨hcredit, by omega, fun h' => ?_, fun h' => ?_, by omega, by omega, by omega, fun h' => ?_, fun h' => ?_⟩
        · have := isOpen (by simpa [hsend] using h')
          omega
        · have := hopen h'
          omega
        · have := openRoom (by simpa [hsend] using h')
          omega
        · have := hopen h'
          omega

theorem Pace.reset (total : Both (List Flit512)) (d : Bool) : Pace (.reset total) d := by
  have hn : (FcSys.reset total).node d = .reset := by cases d <;> rfl
  have hh : (FcSys.reset total).held d = 0 := by
    unfold held
    rw [hn]
    rfl
  have hc : (FcSys.reset total).paid d = 0 ∧ (FcSys.reset total).applied d = [] := by cases d <;> exact ⟨rfl, rfl⟩
  refine ⟨?_, ?_, ?_, ?_, ?_, ?_, ?_, ?_, ?_⟩
  all_goals simp [hn, hh, hc, FcNode.reset, FcFifo.empty, inBufDepth, sum]

/-- The queue of acknowledgements of `d` takes what it is given. -/
def AckRoom (s : FcSys) (d : Bool) : Prop := (s.node d).ackOut.isSome → (s.node d).ackFifo.q.length < fcFifoDepth

instance (s : FcSys) (d : Bool) : Decidable (s.AckRoom d) := inferInstanceAs (Decidable (_ → _))

structure Sound (ps : Both (List UserPkt)) (s : FcSys) : Prop where
  inv : ∀ d, Inv (totals ps) s d
  counted : ∀ d, Counted s d
  pace : ∀ d, Pace s d

namespace Sound

theorem conserved (h : Sound ps s) (d : Bool) : Conserved s d := (h.pace d).conserved (h.counted d) (h.inv d)

theorem userIn_lt (h : Sound ps s) (d : Bool) : (s.node d).userIn.length < inBufDepth := by
  have hl := (h.conserved (!d)).userIn_lt (h.pace (!d))
  rwa [Bool.not_not] at hl

theorem noOverflow (h : Sound ps s) (ha : ∀ d, s.AckRoom d) (d : Bool) : s.NoOverflow d := by
  have hr := (h.pace d).room
  refine ⟨?_, fun _ => h.userIn_lt d, ha d⟩
  intro _
  unfold fcFifoDepth
  omega

theorem step (h : Sound ps s) (hp : ∀ d, Plain (totals ps d)) (ha : ∀ d, s.AckRoom d) : Sound ps (s.step t) := by
  have ho := h.noOverflow ha
  exact ⟨fun d => Inv.step h.inv hp ho d, fun d => (h.counted d).step (h.inv d) (ho _),
    fun d => (h.pace d).step h.inv hp ho (h.conserved d)⟩

theorem reset (ps : Both (List UserPkt)) : Sound ps (.reset (totals ps)) :=
  ⟨fun d => .reset _ d, fun d => .reset _ d, fun d => .reset _ d⟩

end Sound

end FcSys

/-- In every run of two nodes in which the queues of acknowledgements do not overflow, and for packets that are not taken for
acknowledgements: the credit, the flits that are sent and not read, those of the packet that is partly read and the counts
that are on the way make up the peer's input buffer, so that its queue is never full. -/
theorem flowControl_conserves (ps : Both (List UserPkt)) (hp : ∀ d, ∀ p ∈ ps d, ∀ f ∈ p.flits, isAck f = false)
    (ts : List (Both FcTick)) (ha : AllSteps FcSys.step (fun s _ => ∀ d, s.AckRoom d) (.reset (.of fun d => userFlits (ps d))) ts) :
    let s := run FcSys.step (.reset (.of fun d => userFlits (ps d))) ts
    ∀ d, (s.node d).txCredit + (s.onWay d).length + partRead (s.got !d) + FcSys.sum (s.pending d) = inBufDepth ∧
      0 < (s.node d).txCredit ∧ (s.node d).userIn.length < inBufDepth := by
  intro s d
  have hplain : ∀ d, FcSys.Plain (FcSys.totals ps d) := by
    intro d
    rw [FcSys.totals, Both.of_apply]
    exact plain_userFlits (hp d)
  have hs : FcSys.Sound ps s :=
    run_inv FcSys.step (fun s t (h : FcSys.Sound ps s) (ha : ∀ d, s.AckRoom d) => h.step hplain ha) ts _ (.reset ps) ha
  have he := (hs.pace d).enough
  exact ⟨hs.conserved d, by omega, hs.userIn_lt d⟩

theorem flowControl_conserves_read :
    let s := run FcSys.step (.reset (.of fun d => userFlits (onePkt d))) (List.replicate 8 busyTick)
    (s.node false).txCredit + (s.onWay false).length + partRead (s.got !false) + FcSys.sum (s.pending false) = inBufDepth ∧
      s.got true = [⟨7, true, true, 0⟩] :=
  ⟨(flowControl_conserves onePkt (by decide +kernel) (List.replicate 8 busyTick) (by decide +kernel) false).1, by decide +kernel⟩

end Pigasus
