import Pigasus.FlowControl

/-!
# What two nodes exchange

The flits that are on the way in one direction, and the counts of the
acknowledgements that are on the way back.
-/

namespace Pigasus

open Hdl Frames

/-! ## Acknowledgements -/

def hdrSport (h : BitVec 336) : BitVec 16 := h.extractLsb' 48 16

theorem udpSport_ackPkt (h : BitVec 336) (c : BitVec 32) : udpSport (ackPkt h c) = hdrSport h := by
  apply BitVec.eq_of_getLsbD_eq
  intro i hi
  simp only [udpSport, ackPkt, hdrSport, BitVec.getLsbD_extractLsb', BitVec.getLsbD_append, hi, decide_true, Bool.true_and]
  have h1 : ¬ 224 + i < 144 := by omega
  have h2 : ¬ 224 + i - 144 < 32 := by omega
  have h3 : 224 + i - 144 - 32 = 48 + i := by omega
  simp [h1, h2, h3]

theorem ackData_ackPkt (h : BitVec 336) (c : BitVec 32) : ackData (ackPkt h c) = c := by
  apply BitVec.eq_of_getLsbD_eq
  intro i hi
  simp only [ackData, ackPkt, BitVec.getLsbD_extractLsb', BitVec.getLsbD_append, hi, decide_true, Bool.true_and]
  have h1 : ¬ 144 + i < 144 := by omega
  have h2 : 144 + i - 144 < 32 := by omega
  have h3 : 144 + i - 144 = i := by omega
  simp [h1, h3, hi]

theorem hdrSport_hdr (x : BitVec 512) : hdrSport (AckGen.hdr x) = ackPktPort := by
  apply BitVec.eq_of_getLsbD_eq
  intro i hi
  simp only [hdrSport, AckGen.hdr, BitVec.getLsbD_extractLsb', BitVec.getLsbD_append, hi, decide_true, Bool.true_and]
  have h1 : 48 + i < 64 := by omega
  have h2 : ¬ 48 + i < 32 := by omega
  have h3 : ¬ 48 + i - 32 < 16 := by omega
  have h4 : 48 + i - 32 - 16 = i := by omega
  simp [h1, h2, h3, h4]

/-! ## Queues -/

section
variable {α : Type}

theorem chain {g p a b c e i a' b' c' p' e' : List α} (h1 : p ++ a' = a ++ b) (h2 : b' ++ c' = c ++ p')
    (h3 : p' ++ e' = e ++ i) : g ++ p ++ (a' ++ b' ++ c' ++ e') = g ++ (a ++ b ++ c ++ e) ++ i := by
  calc g ++ p ++ (a' ++ b' ++ c' ++ e')
      = g ++ (p ++ a') ++ (b' ++ c') ++ e' := by simp only [List.append_assoc]
    _ = g ++ (a ++ b) ++ c ++ (p' ++ e') := by rw [h1, h2]; simp only [List.append_assoc]
    _ = g ++ (a ++ b ++ c ++ e) ++ i := by rw [h3]; simp only [List.append_assoc]

theorem chain_back {g p c e o f b' c' p' e' f' : List α} (h1 : b' ++ c' = c ++ p') (h2 : p' ++ e' = e ++ o) :
    g ++ p ++ (b' ++ c' ++ e' ++ f ++ f') = g ++ (p ++ c ++ e ++ o ++ f) ++ f' := by
  calc g ++ p ++ (b' ++ c' ++ e' ++ f ++ f')
      = g ++ p ++ (b' ++ c') ++ e' ++ f ++ f' := by simp only [List.append_assoc]
    _ = g ++ p ++ c ++ (p' ++ e') ++ f ++ f' := by rw [h1]; simp only [List.append_assoc]
    _ = g ++ (p ++ c ++ e ++ o ++ f) ++ f' := by rw [h2]; simp only [List.append_assoc]

end

def userPart (l : List LinkFlit) : List Flit512 := (l.filter fun x => !x.ack).map LinkFlit.flit

def ackPart (l : List LinkFlit) : List Flit512 := (l.filter fun x => x.ack).map LinkFlit.flit

theorem userPart_append (l m : List LinkFlit) : userPart (l ++ m) = userPart l ++ userPart m := by simp [userPart]

theorem ackPart_append (l m : List LinkFlit) : ackPart (l ++ m) = ackPart l ++ ackPart m := by simp [ackPart]

def counts (l : List Flit512) : List (BitVec 32) := l.map fun f => ackData f.data

theorem counts_append (l m : List Flit512) : counts (l ++ m) = counts l ++ counts m := by simp [counts]

theorem FcNode.userPart_out (s : FcNode) (t : FcTick) :
    userPart (s.out t).toList = (if s.takeUser t then s.userOut.q.head? else none).toList := by
  unfold FcNode.out FcNode.takeAck FcNode.takeUser
  cases t.outReady <;> cases s.grantAck t
  · rfl
  · rfl
  · cases s.userOut.q <;> rfl
  · cases s.ackFifo.q <;> rfl

theorem FcNode.ackPart_out (s : FcNode) (t : FcTick) :
    ackPart (s.out t).toList = (if s.takeAck t then s.ackFifo.q.head? else none).toList := by
  unfold FcNode.out FcNode.takeAck FcNode.takeUser
  cases t.outReady <;> cases s.grantAck t
  · rfl
  · rfl
  · cases s.userOut.q <;> rfl
  · cases s.ackFifo.q <;> rfl

namespace FcSys

variable {total : Both (List Flit512)} {s : FcSys} {t : Both FcTick}

/-- The flits of the user of `d` that have been paid for and not been read. -/
def onWay (s : FcSys) (d : Bool) : List Flit512 :=
  (s.node !d).userIn ++ (s.node !d).userFifo.toList ++ userPart (s.link d) ++ (s.node d).userOut.q

def flight (s : FcSys) (d : Bool) : List Flit512 := s.onWay d ++ (s.node d).intUserOut.toList

def fresh (g : AckGen) : List (BitVec 32) := if g.ackValid then [g.data] else []

def pending (s : FcSys) (d : Bool) : List (BitVec 32) :=
  (s.node d).ds.toList ++ counts (ackPart (s.link !d)) ++ counts (s.node !d).ackFifo.q ++
    counts (s.node !d).ackOut.toList ++ fresh (s.node !d).ackGen

/-- No queue of `d` is given a flit while it is full. -/
def NoOverflow (s : FcSys) (d : Bool) : Prop :=
  ((s.node d).intUserOut.isSome → (s.node d).userOut.q.length < fcFifoDepth) ∧
    ((s.node d).userFifo.isSome → (s.node d).userIn.length < inBufDepth) ∧
    ((s.node d).ackOut.isSome → (s.node d).ackFifo.q.length < fcFifoDepth)

instance (s : FcSys) (d : Bool) : Decidable (s.NoOverflow d) := inferInstanceAs (Decidable (_ ∧ _ ∧ _))

/-- What holds of the flits from `d` and of the acknowledgements that `!d` makes for them. -/
structure Inv (total : Both (List Flit512)) (s : FcSys) (d : Bool) : Prop where
  data : s.got (!d) ++ s.flight d ++ s.src d = total d
  link : ∀ x ∈ s.link (!d), x.ack = true → isAck x.flit = true
  ackFifo : ∀ f ∈ (s.node !d).ackFifo.q, isAck f = true
  ackOut : ∀ f ∈ (s.node !d).ackOut.toList, isAck f = true
  port : s.got (!d) ≠ [] → hdrSport (s.node !d).ackGen.udpHdr = ackPktPort
  valid : (s.node !d).ackGen.ackValid = true → s.got (!d) ≠ []
  count : s.applied d ++ s.pending d = s.made (!d)

structure Plain (l : List Flit512) : Prop where
  notAck : ∀ f ∈ l, isAck f = false
  sop : ∀ f ∈ l.head?, f.sop = true

section
variable (h : ∀ d, Inv total s d) (hp : ∀ d, Plain (total d))

include h hp in
theorem ack_iff {d : Bool} {x : LinkFlit} (hx : x ∈ s.link d) : isAck x.flit = x.ack := by
  cases ha : x.ack with
  | true =>
    have hl := (h (!d)).link x
    rw [Bool.not_not] at hl
    exact hl hx ha
  | false =>
    apply (hp d).notAck
    have hu : x.flit ∈ userPart (s.link d) := List.mem_map.2 ⟨x, List.mem_filter.2 ⟨hx, by simp [ha]⟩, rfl⟩
    rw [← (h d).data, flight, onWay]
    simp only [List.mem_append]
    exact .inl (.inr (.inl (.inl (.inr hu))))

theorem mem_link_of_arriving {d : Bool} {x : LinkFlit} (hx : s.arriving t d = some x) : x ∈ s.link (!d) := by
  unfold arriving at hx
  split at hx
  · exact List.mem_of_mem_head? hx
  · cases hx

include h hp in
theorem userFifo_step (d : Bool) : ((s.step t).node d).userFifo.toList = userPart (s.arriving t d).toList := by
  show (((s.step t).node d).userFifo).toList = _
  rw [show (s.step t).node d = s.nextNode t d from Both.of_apply _ d]
  cases ha : s.arriving t d with
  | none => simp [nextNode, ha, FcNode.step, userPart]
  | some x =>
    have hk := ack_iff h hp (mem_link_of_arriving ha)
    cases hx : x.ack <;> simp [nextNode, ha, FcNode.step, userPart, hk, hx]

include h hp in
theorem ds_step (d : Bool) : ((s.step t).node d).ds.toList = counts (ackPart (s.arriving t d).toList) := by
  rw [show (s.step t).node d = s.nextNode t d from Both.of_apply _ d]
  cases ha : s.arriving t d with
  | none => simp [nextNode, ha, FcNode.step, ackPart, counts]
  | some x =>
    have hk := ack_iff h hp (mem_link_of_arriving ha)
    cases hx : x.ack <;> simp [nextNode, ha, FcNode.step, ackPart, counts, hk, hx]

end

theorem link_step (s : FcSys) (t : Both FcTick) (d : Bool) :
    (s.arriving t !d).toList ++ (s.step t).link d = s.link d ++ ((s.node d).out (t d)).toList := by
  have hl : (s.step t).link d = fifoStep (s.link d) ((s.node d).out (t d)) (t !d).inValid := Both.of_apply _ d
  rw [hl, ← fifoStep_pop (s.link d) _ (t !d).inValid]
  unfold arriving
  rw [Bool.not_not]

theorem step_node (s : FcSys) (t : Both FcTick) (d : Bool) : (s.step t).node d = s.nextNode t d := Both.of_apply _ d

theorem userIn_step {d : Bool} (ho : s.NoOverflow d) : ((s.node d).userInFlit (t d)).toList ++ ((s.step t).node d).userIn =
    (s.node d).userIn ++ (s.node d).userFifo.toList := by
  rw [step_node]
  show _ ++ fifoStep _ _ _ = _
  have hpush : (if (s.node d).userIn.length < inBufDepth then (s.node d).userFifo else none) = (s.node d).userFifo := by
    cases hu : (s.node d).userFifo with
    | none => simp
    | some f => rw [if_pos (ho.2.1 (by simp [hu]))]
  rw [hpush]
  exact fifoStep_pop _ _ _

theorem FcFifo.q_step {f : FcFifo} {push : Option Flit512} (ho : push.isSome → f.q.length < fcFifoDepth) (pop : Bool) :
    (if pop then f.q.head? else none).toList ++ (f.step push pop).q = f.q ++ push.toList := by
  have hpush : (if f.q.length < fcFifoDepth then push else none) = push := by
    cases push with
    | none => simp
    | some x => rw [if_pos (ho rfl)]
  show _ ++ fifoStep _ _ _ = _
  rw [hpush]
  exact fifoStep_pop _ _ _

theorem src_step (s : FcSys) (t : Both FcTick) (d : Bool) :
    ((s.step t).node d).intUserOut.toList ++ (s.step t).src d = s.src d := by
  have hs : (s.step t).src d = if ((s.node d).accepted (s.offered t d)).isSome then (s.src d).tail else s.src d := Both.of_apply _ d
  rw [hs, step_node]
  show ((s.node d).accepted (s.offered t d)).toList ++ _ = _
  unfold FcNode.accepted offered
  cases (s.node d).sending <;> cases (t d).userOutValid <;> cases s.src d <;> simp

theorem got_step (s : FcSys) (t : Both FcTick) (d : Bool) :
    (s.step t).got d = s.got d ++ ((s.node d).userInFlit (t d)).toList := Both.of_apply _ d

section
variable (h : ∀ d, Inv total s d) (hp : ∀ d, Plain (total d)) (ho : ∀ d, s.NoOverflow d) (d : Bool)

include h hp ho

theorem onWay_step :
    (s.step t).got (!d) ++ (s.step t).onWay d = s.got (!d) ++ s.onWay d ++ (s.node d).intUserOut.toList := by
  have h1 := userIn_step (t := t) (ho (!d))
  have h2 := congrArg userPart (link_step s t d)
  rw [userPart_append, userPart_append, FcNode.userPart_out, ← userFifo_step h hp] at h2
  have h3 := FcFifo.q_step (ho d).1 ((s.node d).takeUser (t d))
  rw [got_step, onWay, onWay]
  refine chain h1 h2 ?_
  rw [step_node]
  exact h3

theorem data_step : (s.step t).got (!d) ++ (s.step t).flight d ++ (s.step t).src d = total d := by
  rw [← (h d).data, flight, flight, ← List.append_assoc, onWay_step h hp ho d, List.append_assoc _ _ ((s.step t).src d),
    src_step s t d]
  simp only [List.append_assoc]

theorem count_step :
    (s.step t).applied d ++ (s.step t).pending d = (s.step t).made (!d) := by
  have ha : (s.step t).applied d = s.applied d ++ (s.node d).ds.toList := Both.of_apply _ d
  have hm : (s.step t).made (!d) = s.made (!d) ++ fresh ((s.step t).node !d).ackGen := by
    rw [step_node]
    exact Both.of_apply _ (!d)
  have h2 := congrArg (fun l => counts (ackPart l)) (link_step s t (!d))
  simp only [ackPart_append, counts_append, FcNode.ackPart_out, Bool.not_not] at h2
  rw [← ds_step h hp] at h2
  have h3 := congrArg counts (FcFifo.q_step (ho (!d)).2.2 ((s.node !d).takeAck (t !d)))
  rw [counts_append, counts_append] at h3
  have h5 : counts ((s.step t).node !d).ackOut.toList = fresh (s.node !d).ackGen := by
    rw [step_node]
    unfold fresh
    show counts (if (s.node !d).ackGen.ackValid then _ else none).toList = _
    cases (s.node !d).ackGen.ackValid with
    | false => rfl
    | true => simp [counts, ackData_ackPkt]
  have hq : ((s.step t).node !d).ackFifo = (s.node !d).ackFifo.step (s.node !d).ackOut ((s.node !d).takeAck (t !d)) := by
    rw [step_node]
    rfl
  rw [ha, hm, ← (h d).count, pending, pending, h5, hq]
  exact chain_back h2 h3

theorem port_step (hg : (s.step t).got (!d) ≠ []) : hdrSport ((s.step t).node !d).ackGen.udpHdr = ackPktPort := by
  rw [got_step] at hg
  rw [step_node]
  show hdrSport ((s.node !d).ackGen.step ((s.node !d).userInFlit (t !d))).udpHdr = _
  cases hf : (s.node !d).userInFlit (t !d) with
  | none =>
    rw [hf] at hg
    exact (h d).port (by simpa using hg)
  | some f =>
    by_cases hs : f.sop = true
    · simp [AckGen.step, hs, hdrSport_hdr]
    · simp only [AckGen.step, hs, if_false, Bool.false_eq_true]
      apply (h d).port
      -- the first flit that is read begins a packet
      intro hn
      have hin := userIn_step (t := t) (ho (!d))
      have hdata := (h d).data
      rw [hn, flight, onWay, ← hin, hf] at hdata
      exact hs ((hp d).sop f (by rw [← hdata]; simp))

omit h hp ho in
theorem valid_step (hv : ((s.step t).node !d).ackGen.ackValid = true) : (s.step t).got (!d) ≠ [] := by
  rw [step_node] at hv
  rw [got_step]
  have hv : ((s.node !d).ackGen.step ((s.node !d).userInFlit (t !d))).ackValid = true := hv
  cases hf : (s.node !d).userInFlit (t !d) with
  | none => simp [hf, AckGen.step] at hv
  | some f => simp

omit hp ho in
theorem ackOut_step : ∀ f ∈ ((s.step t).node !d).ackOut.toList, isAck f = true := by
  intro f hf
  rw [step_node] at hf
  have hf : f ∈ (if (s.node !d).ackGen.ackValid then
      some ⟨ackPkt (s.node !d).ackGen.udpHdr (s.node !d).ackGen.data, true, true, 0⟩ else none : Option Flit512).toList := hf
  cases hv : (s.node !d).ackGen.ackValid with
  | false => simp [hv] at hf
  | true =>
    rw [hv] at hf
    have hport := (h d).port ((h d).valid hv)
    simp only [if_true, Option.toList_some, List.mem_singleton] at hf
    simp [hf, isAck, udpSport_ackPkt, hport]

omit hp in
theorem ackFifo_step : ∀ f ∈ ((s.step t).node !d).ackFifo.q, isAck f = true := by
  intro f hf
  rw [step_node] at hf
  have hq := FcFifo.q_step (ho (!d)).2.2 ((s.node !d).takeAck (t !d))
  have hm : f ∈ (s.node !d).ackFifo.q ++ (s.node !d).ackOut.toList := hq ▸ List.mem_append_right _ hf
  rcases List.mem_append.1 hm with hm | hm
  · exact (h d).ackFifo f hm
  · exact (h d).ackOut f hm

omit hp ho in
theorem linkAcks_step : ∀ x ∈ (s.step t).link (!d), x.ack = true → isAck x.flit = true := by
  intro x hx ha
  have hm : x ∈ s.link (!d) ++ ((s.node !d).out (t !d)).toList := link_step s t (!d) ▸ List.mem_append_right _ hx
  rcases List.mem_append.1 hm with hm | hm
  · exact (h d).link x hm ha
  · apply (h d).ackFifo
    have hp : x.flit ∈ ackPart ((s.node !d).out (t !d)).toList := List.mem_map.2 ⟨x, List.mem_filter.2 ⟨hm, ha⟩, rfl⟩
    rw [FcNode.ackPart_out] at hp
    split at hp
    · exact List.mem_of_mem_head? (by simpa using hp)
    · cases hp

theorem Inv.step : Inv total (s.step t) d :=
  ⟨data_step h hp ho d, linkAcks_step h d, ackFifo_step h ho d, ackOut_step h d, port_step h hp ho d,
    valid_step d, count_step h hp ho d⟩

end

/-! ## The credit -/

def paid (s : FcSys) (d : Bool) : Nat := (s.got (!d) ++ s.onWay d).length

def sum (l : List (BitVec 32)) : Nat := (l.map BitVec.toNat).sum

theorem sum_append (l m : List (BitVec 32)) : sum (l ++ m) = sum l + sum m := by simp [sum]

def Paid (s : FcSys) (d : Bool) : Prop :=
  ((s.node d).txCredit + s.paid d) % 2 ^ 32 = (inBufDepth + sum (s.applied d)) % 2 ^ 32

theorem applied_step (s : FcSys) (t : Both FcTick) (d : Bool) :
    sum ((s.step t).applied d) = sum (s.applied d) + ((s.node d).ds.getD 0).toNat := by
  have ha : (s.step t).applied d = s.applied d ++ (s.node d).ds.toList := Both.of_apply _ d
  rw [ha, sum_append]
  cases (s.node d).ds <;> simp [sum]

theorem paid_step (h : ∀ d, Inv total s d) (hp : ∀ d, Plain (total d)) (ho : ∀ d, s.NoOverflow d) (d : Bool) :
    (s.step t).paid d = s.paid d + if (s.node d).intUserOut.isSome then 1 else 0 := by
  unfold paid
  rw [onWay_step h hp ho d, List.length_append]
  cases (s.node d).intUserOut <;> rfl

theorem Paid.step (h : ∀ d, Inv total s d) (hp : ∀ d, Plain (total d)) (ho : ∀ d, s.NoOverflow d) {d : Bool} (hc : s.Paid d) :
    (s.step t).Paid d := by
  unfold Paid at hc ⊢
  rw [applied_step, paid_step h hp ho, step_node]
  show ((_ + _ + _) % 2 ^ 32 + _) % 2 ^ 32 = _
  split <;> omega

theorem Inv.reset (total : Both (List Flit512)) (d : Bool) : Inv total (.reset total) d := by
  cases d <;> exact ⟨rfl, by simp [FcSys.reset, Both.get], by simp [FcSys.reset, Both.get, FcNode.reset, FcFifo.empty],
    by simp [FcSys.reset, Both.get, FcNode.reset], fun hg => absurd rfl hg, fun hv => absurd hv Bool.false_ne_true, rfl⟩

/-! ## What is on the way arrives -/

/-- Everything moves, and the users send nothing more. -/
def go : Both FcTick := .of fun _ => ⟨false, true, true, false, true, 0, 0⟩

def linkWork (l : List LinkFlit) : Nat := (l.map fun x => if isAck x.flit then 1 else 7).sum

/-- A flit counts for the places that are before it, those of its acknowledgement included. -/
def work (s : FcSys) (d : Bool) : Nat :=
  9 * (s.node d).intUserOut.toList.length + 8 * (s.node d).userOut.q.length + linkWork (s.link d) +
    6 * (s.node d).userFifo.toList.length + 5 * (s.node d).userIn.length + 4 * (fresh (s.node d).ackGen).length +
    3 * (s.node d).ackOut.toList.length + 2 * (s.node d).ackFifo.q.length

/-- The words that move at `d` in a cycle. -/
def moves (s : FcSys) (d : Bool) : Nat :=
  (s.node d).intUserOut.toList.length + ((s.node d).out (go d)).toList.length + (s.arriving go d).toList.length +
    (s.node d).userFifo.toList.length + ((s.node d).userInFlit (go d)).toList.length

theorem linkWork_append (l m : List LinkFlit) : linkWork (l ++ m) = linkWork l + linkWork m := by simp [linkWork]

theorem go_apply (d : Bool) : go d = ⟨false, true, true, false, true, 0, 0⟩ := Both.of_apply _ d

section
variable (h : ∀ d, Inv total s d) (d : Bool)

theorem intUserOut_go : ((s.step go).node d).intUserOut = none := by
  rw [step_node]
  show (s.node d).accepted (s.offered go d) = none
  simp [FcNode.accepted, offered, go_apply]

theorem fresh_step_le : (fresh ((s.step t).node d).ackGen).length ≤ ((s.node d).userInFlit (t d)).toList.length := by
  rw [step_node]
  show (fresh ((s.node d).ackGen.step ((s.node d).userInFlit (t d)))).length ≤ _
  cases (s.node d).userInFlit (t d) with
  | none => simp [fresh, AckGen.step]
  | some f =>
    unfold fresh
    split <;> simp

theorem ackOut_step_length : ((s.step t).node d).ackOut.toList.length = (fresh (s.node d).ackGen).length := by
  rw [step_node]
  show (if (s.node d).ackGen.ackValid then _ else none : Option Flit512).toList.length = _
  unfold fresh
  cases (s.node d).ackGen.ackValid <;> rfl

theorem userFifo_step_work : 6 * ((s.step t).node d).userFifo.toList.length + (s.arriving t d).toList.length ≤
    linkWork (s.arriving t d).toList := by
  rw [step_node]
  cases ha : s.arriving t d with
  | none => simp [nextNode, ha, FcNode.step, linkWork]
  | some x => cases hx : isAck x.flit <;> simp [nextNode, ha, FcNode.step, linkWork, hx]

include h in
theorem out_work (t : FcTick) : linkWork ((s.node d).out t).toList + ((s.node d).out t).toList.length ≤
    8 * (if (s.node d).takeUser t then (s.node d).userOut.q.head? else none).toList.length +
      2 * (if (s.node d).takeAck t then (s.node d).ackFifo.q.head? else none).toList.length := by
  have hack := (h (!d)).ackFifo
  rw [Bool.not_not] at hack
  unfold FcNode.out FcNode.takeAck FcNode.takeUser
  cases t.outReady <;> cases (s.node d).grantAck t
  · simp [linkWork]
  · simp [linkWork]
  · cases hq : (s.node d).userOut.q with
    | nil => simp [linkWork]
    | cons f q => cases hf : isAck f <;> simp [linkWork, hf]
  · cases hq : (s.node d).ackFifo.q with
    | nil => simp [linkWork]
    | cons f q => simp [linkWork, hack f (by simp [hq])]

variable (ho : ∀ d, s.NoOverflow d)

include h ho in
theorem work_step : (s.step go).work d + s.moves d + linkWork (s.arriving go !d).toList ≤
    s.work d + linkWork (s.arriving go d).toList := by
  have h1 := congrArg List.length (FcFifo.q_step (ho d).1 ((s.node d).takeUser (go d)))
  have h2 := congrArg List.length (FcFifo.q_step (ho d).2.2 ((s.node d).takeAck (go d)))
  have h3 := congrArg List.length (userIn_step (t := go) (ho d))
  have h4 := congrArg linkWork (link_step s go d)
  have h5 := fresh_step_le (s := s) (t := go) d
  have h6 := ackOut_step_length (s := s) (t := go) d
  have h7 := userFifo_step_work (s := s) (t := go) d
  have h8 := out_work h d (go d)
  have hint := intUserOut_go (s := s) d
  simp only [List.length_append] at h1 h2 h3
  rw [linkWork_append, linkWork_append] at h4
  have hu : ((s.step go).node d).userOut = (s.node d).userOut.step (s.node d).intUserOut ((s.node d).takeUser (go d)) := by
    rw [step_node]
    rfl
  have ha : ((s.step go).node d).ackFifo = (s.node d).ackFifo.step (s.node d).ackOut ((s.node d).takeAck (go d)) := by
    rw [step_node]
    rfl
  unfold work moves
  rw [hu, ha, hint]
  simp only [Option.toList_none, List.length_nil]
  omega

theorem moves_of_flight (hf : s.flight d ≠ []) : 0 < s.moves d + s.moves (!d) := by
  by_contra hn
  have hz : s.moves d = 0 ∧ s.moves (!d) = 0 := by omega
  obtain ⟨h1, h2⟩ := hz
  simp only [moves, Nat.add_eq_zero_iff, List.length_eq_zero_iff] at h1 h2
  obtain ⟨⟨⟨⟨hint, hout⟩, -⟩, -⟩, -⟩ := h1
  obtain ⟨⟨⟨⟨-, -⟩, harr⟩, hfifo⟩, hin⟩ := h2
  apply hf
  have hlink : s.link d = [] := by
    unfold arriving at harr
    rw [go_apply, Bool.not_not] at harr
    cases hl : s.link d with
    | nil => rfl
    | cons x l => simp [hl] at harr
  have huserIn : (s.node !d).userIn = [] := by
    unfold FcNode.userInFlit at hin
    rw [go_apply] at hin
    cases hl : (s.node !d).userIn with
    | nil => rfl
    | cons x l => simp [hl] at hin
  have huserOut : (s.node d).userOut.q = [] := by
    unfold FcNode.out FcNode.takeAck FcNode.takeUser at hout
    rw [go_apply] at hout
    cases hl : (s.node d).userOut.q with
    | nil => rfl
    | cons x l =>
      unfold FcNode.grantAck at hout
      cases hb : (s.node d).locked <;> cases ha : (s.node d).ackFifo.q <;> simp [hl, hb, ha] at hout
  simp [flight, onWay, hlink, huserIn, huserOut, hfifo, hint, userPart]

end

theorem flight_go (h : ∀ d, Inv total s d) (hp : ∀ d, Plain (total d)) (ho : ∀ d, s.NoOverflow d) {d : Bool} (hf : s.flight d = []) :
    (s.step go).flight d = [] := by
  have hw := onWay_step (t := go) h hp ho d
  simp only [flight, List.append_eq_nil_iff] at hf
  have hin : (s.node !d).userInFlit (go !d) = none := by
    have hn := hf.1
    simp only [onWay, List.append_eq_nil_iff] at hn
    simp [FcNode.userInFlit, hn.1.1.1]
  rw [got_step, hin, hf.1, hf.2] at hw
  simp only [Option.toList_none, List.append_nil, List.append_right_eq_self] at hw
  simp [flight, hw, intUserOut_go]

theorem flight_le_work (s : FcSys) (d : Bool) : (s.flight d).length ≤ s.work d + s.work (!d) := by
  have hl : (userPart (s.link d)).length ≤ linkWork (s.link d) := by
    induction s.link d with
    | nil => exact Nat.zero_le _
    | cons x l ih =>
      have hc := linkWork_append [x] l
      have hx : 1 ≤ linkWork [x] := by
        simp only [linkWork, List.map_cons, List.map_nil, List.sum_cons, List.sum_nil]
        split <;> omega
      have hu : (userPart (x :: l)).length ≤ (userPart l).length + 1 := by
        unfold userPart
        rw [List.filter_cons]
        split <;> simp
      rw [List.singleton_append] at hc
      omega
  simp only [flight, onWay, work, List.length_append]
  omega

theorem drains (hp : ∀ d, Plain (total d)) (n : Nat) : ∀ s : FcSys, (∀ d, Inv total s d) →
    AllSteps FcSys.step (fun s _ => ∀ d, s.NoOverflow d) s (List.replicate n go) →
    s.work false + s.work true ≤ n ∨ (∀ d, s.flight d = []) → ∀ d, (run FcSys.step s (List.replicate n go)).flight d = [] := by
  induction n with
  | zero =>
    intro s h _ hw
    rcases hw with hw | hw
    · intro d
      have hl := flight_le_work s d
      apply List.eq_nil_of_length_eq_zero
      show (s.flight d).length = 0
      cases d
      · rw [Bool.not_false] at hl
        omega
      · rw [Bool.not_true] at hl
        omega
    · exact hw
  | succ n ih =>
    intro s h ho hw
    rw [List.replicate_succ] at ho ⊢
    refine ih (s.step go) (fun d => Inv.step h hp ho.1 d) ho.2 ?_
    by_cases hf : ∀ d, s.flight d = []
    · exact .inr fun d => flight_go h hp ho.1 (hf d)
    · left
      have hw := hw.resolve_right hf
      obtain ⟨d, hd⟩ := not_forall.1 hf
      have hm := moves_of_flight d hd
      have w1 := work_step h false ho.1
      have w2 := work_step h true ho.1
      rw [Bool.not_false] at w1
      rw [Bool.not_true] at w2
      cases d
      · rw [Bool.not_false] at hm
        omega
      · rw [Bool.not_true] at hm
        omega

theorem src_go (s : FcSys) (d : Bool) (n : Nat) : (run FcSys.step s (List.replicate n go)).src d = s.src d := by
  induction n generalizing s with
  | zero => rfl
  | succ n ih =>
    have hs := src_step s go d
    rw [intUserOut_go] at hs
    rw [List.replicate_succ, run_cons, ih]
    exact hs

theorem Inv.run (hp : ∀ d, Plain (total d)) {ts : List (Both FcTick)} (h : ∀ d, Inv total s d ∧ s.Paid d)
    (ho : AllSteps FcSys.step (fun s _ => ∀ d, s.NoOverflow d) s ts) :
    ∀ d, Inv total (run FcSys.step s ts) d ∧ (run FcSys.step s ts).Paid d := by
  refine @run_inv _ _ FcSys.step (fun s => ∀ d, Inv total s d ∧ s.Paid d) (fun s _ => ∀ d, s.NoOverflow d) ?_ ts s h ho
  intro s t h ho d
  have hi : ∀ d, Inv total s d := fun d => (h d).1
  exact ⟨Inv.step hi hp ho d, (h d).2.step hi hp ho⟩

theorem Paid.reset (total : Both (List Flit512)) (d : Bool) : (FcSys.reset total).Paid d := by
  cases d <;> rfl

end FcSys

/-! ## Flow control is transparent -/

theorem UserPkt.sop_head (p : UserPkt) : ∀ f ∈ p.flits.head?, f.sop = true := by
  intro f hf
  obtain ⟨r, hr⟩ := List.head?_eq_some_iff.1 hf
  exact (p.sop [] f r hr).2 rfl

theorem plain_userFlits {ps : List UserPkt} (h : ∀ p ∈ ps, ∀ f ∈ p.flits, isAck f = false) : FcSys.Plain (userFlits ps) := by
  refine ⟨?_, ?_⟩
  · intro f hf
    obtain ⟨p, hp, hfp⟩ := List.mem_flatMap.1 hf
    exact h p hp f hfp
  · intro f hf
    cases ps with
    | nil => simp [userFlits] at hf
    | cons p ps =>
      apply p.sop_head f
      obtain ⟨x, l, hx⟩ := List.exists_cons_of_ne_nil p.toMarked.flits_ne_nil
      have hx : p.flits = x :: l := hx
      simpa [userFlits, hx] using hf

/-- While no queue overflows and no packet of a user is a single flit with the port of the acknowledgements: what the
peer's user has read, what is on the way and what is still to be sent make up what the user sends; the credit falls with
each flit that is sent and rises with the acknowledgements that the peer has made, in their order; and once the users
pause everything accepted is read. -/
theorem flowControl_transparent (ps : Both (List UserPkt)) (hp : ∀ d, ∀ p ∈ ps d, ∀ f ∈ p.flits, isAck f = false)
    (ts : List (Both FcTick)) (ho : AllSteps FcSys.step (fun s _ => ∀ d, s.NoOverflow d) (.reset (.of fun d => userFlits (ps d))) ts) :
    let s := run FcSys.step (.reset (.of fun d => userFlits (ps d))) ts
    (∀ d, s.got (!d) ++ s.flight d ++ s.src d = userFlits (ps d) ∧ s.applied d ++ s.pending d = s.made (!d) ∧ s.Paid d) ∧
      ∀ n, s.work false + s.work true ≤ n →
        AllSteps FcSys.step (fun s _ => ∀ d, s.NoOverflow d) s (List.replicate n FcSys.go) →
        ∀ d, (run FcSys.step s (List.replicate n FcSys.go)).got (!d) ++ s.src d = userFlits (ps d) := by
  intro s
  have hplain : ∀ d, FcSys.Plain ((Both.of fun d => userFlits (ps d)) d) := by
    intro d
    rw [Both.of_apply]
    exact plain_userFlits (hp d)
  have hinv := FcSys.Inv.run hplain (fun d => ⟨.reset _ d, .reset _ d⟩) ho
  refine ⟨?_, ?_⟩
  · intro d
    have hdata := (hinv d).1.data
    rw [Both.of_apply] at hdata
    exact ⟨hdata, (hinv d).1.count, (hinv d).2⟩
  · intro n hn hgo d
    have hdata := ((FcSys.Inv.run hplain hinv hgo) d).1.data
    rw [Both.of_apply, FcSys.drains hplain n s (fun d => (hinv d).1) hgo (.inl hn) d, List.append_nil, FcSys.src_go] at hdata
    exact hdata

def UserPkt.single (x : BitVec 512) (e : BitVec 6) : UserPkt where
  body := []
  last := ⟨x, true, true, e⟩
  body_mark := by simp
  last_mark := rfl
  sop := sop_first rfl (by simp)
  short := by decide

def busyTick : Both FcTick := ⟨⟨true, true, true, false, true, 0, 0⟩, ⟨false, true, true, false, true, 0, 0⟩⟩

def onePkt : Both (List UserPkt) := ⟨[.single 7 0], []⟩

theorem flowControl_transparent_read :
    let s := run FcSys.step (.reset (.of fun d => userFlits (onePkt d))) (List.replicate 8 busyTick)
    s.got (!false) ++ s.flight false ++ s.src false = userFlits (onePkt false) ∧ s.got true = [⟨7, true, true, 0⟩] :=
  ⟨((flowControl_transparent onePkt (by decide +kernel) (List.replicate 8 busyTick) (by decide +kernel)).1 false).1,
    by decide +kernel⟩

/-- A packet of the user with the port of the acknowledgements is swallowed by the peer, whose credit grows. -/
theorem flowControl_swallows :
    let s := run FcSys.step (.reset (.of fun d => userFlits (if d then [] else [.single (0xFFFF#512 <<< 224 ||| 5#512 <<< 144) 0])))
      (List.replicate 8 busyTick)
    s.src false = [] ∧ s.flight false = [] ∧ s.got true = [] ∧ s.made false = [] ∧ s.applied true = [5#32] ∧
      (s.node true).txCredit = inBufDepth + 5 := by
  decide +kernel

end Pigasus
