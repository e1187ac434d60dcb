import Pigasus.FlowControlCredit

/-!
# The queue of acknowledgements

An acknowledgement stands for a whole packet, so those that are on the way stand for
consecutive packets, whose flits fit into the credit. With short packets these are more
than the queue can take: while `out_ready` is low nothing keeps the user from reading.
-/

namespace Pigasus

open Hdl Frames

/-! ## The sizes of the packets that were read -/

/-- The sizes of the packets that end in the flits, behind `n` flits of the packet in work. -/
def sizesFrom : Nat → List Flit512 → List Nat
  | _, [] => []
  | n, f :: l => if f.eop then (n + 1) :: sizesFrom 0 l else sizesFrom (n + 1) l

def carried : Nat → List Flit512 → Nat
  | n, [] => n
  | n, f :: l => if f.eop then carried 0 l else carried (n + 1) l

theorem sizesFrom_append : ∀ (n : Nat) (l m : List Flit512), sizesFrom n (l ++ m) = sizesFrom n l ++ sizesFrom (carried n l) m
  | _, [], _ => rfl
  | n, f :: l, m => by
    rw [List.cons_append]
    by_cases hf : f.eop = true
    · simp [sizesFrom, carried, hf, sizesFrom_append 0 l m]
    · simp [sizesFrom, carried, hf, sizesFrom_append (n + 1) l m]

theorem carried_snoc : ∀ (n : Nat) (l : List Flit512) (f : Flit512), carried n (l ++ [f]) = if f.eop then 0 else carried n l + 1
  | _, [], _ => rfl
  | n, g :: l, f => by
    rw [List.cons_append]
    by_cases hg : g.eop = true
    · simp [carried, hg, carried_snoc 0 l f]
    · simp [carried, hg, carried_snoc (n + 1) l f]

theorem carried_eq (l : List Flit512) : carried 0 l = partRead l := by
  induction l using List.reverseRecOn with
  | nil => rfl
  | append_singleton l f ih => rw [carried_snoc, partRead_snoc, ih]

theorem sizesFrom_snoc (l : List Flit512) (f : Flit512) :
    sizesFrom 0 (l ++ [f]) = sizesFrom 0 l ++ if f.eop then [partRead l + 1] else [] := by
  rw [sizesFrom_append, carried_eq]
  by_cases hf : f.eop = true
  · simp [sizesFrom, hf]
  · simp [sizesFrom, hf]

theorem sizesFrom_frame : ∀ (n : Nat) (body : List Flit512) (last : Flit512) (l : List Flit512),
    (∀ f ∈ body, f.eop = false) → last.eop = true →
    sizesFrom n (body ++ last :: l) = (n + body.length + 1) :: sizesFrom 0 l
  | n, [], last, l, _, hl => by simp [sizesFrom, hl]
  | n, f :: body, last, l, hb, hl => by
    have hf : f.eop = false := hb f List.mem_cons_self
    have ih := sizesFrom_frame (n + 1) body last l (fun g hg => hb g (List.mem_cons_of_mem _ hg)) hl
    rw [List.cons_append, sizesFrom, hf, if_neg Bool.false_ne_true, ih, List.length_cons]
    congr 1
    omega

def pktFlits (p : UserPkt) : Nat := p.flits.length

theorem sizes_userFlits (ps : List UserPkt) : sizesFrom 0 (userFlits ps) = ps.map pktFlits := by
  induction ps with
  | nil => rfl
  | cons p ps ih =>
    have hc : userFlits (p :: ps) = p.body ++ p.last :: userFlits ps := by simp [userFlits, UserPkt.flits, Marked.flits]
    rw [hc, sizesFrom_frame 0 p.body p.last _ p.body_mark p.last_mark, ih, List.map_cons]
    simp [pktFlits, UserPkt.flits, Marked.flits]

theorem length_userFlits (ps : List UserPkt) : (userFlits ps).length = (ps.map pktFlits).sum := by
  simp only [userFlits, List.length_flatMap]
  rfl

/-- Consecutive packets that fit into the credit are no more than the queue of acknowledgements can take. -/
def FitsAcks (ps : List UserPkt) : Prop :=
  ∀ a w r, ps = a ++ w ++ r → (userFlits w).length ≤ inBufDepth → w.length ≤ fcFifoDepth

theorem fitsAcks_of_full {ps : List UserPkt} (h : ∀ p ∈ ps, pktFlits p = 32) : FitsAcks ps := by
  rintro a w r rfl hw
  have hsum : (w.map pktFlits).sum = 32 * w.length := by
    rw [List.map_congr_left fun p hp => h p (by simp [hp]), List.map_const', List.sum_replicate_nat, Nat.mul_comm]
  rw [length_userFlits, hsum] at hw
  unfold inBufDepth at hw
  unfold fcFifoDepth
  omega

namespace FcSys

variable {ps : Both (List UserPkt)} {s : FcSys} {t : Both FcTick} {d : Bool}

/-- The acknowledgements that `!d` has made count the packets that were read there. -/
def Sized (s : FcSys) (d : Bool) : Prop := (s.made !d).map BitVec.toNat = sizesFrom 0 (s.got !d)

theorem ackValid_step (s : FcSys) (t : Both FcTick) (d : Bool) :
    ((s.step t).node d).ackGen.ackValid = ((s.node d).userInFlit (t d)).any Flit512.eop := by
  rw [step_node]
  show ((s.node d).ackGen.step ((s.node d).userInFlit (t d))).ackValid = _
  cases (s.node d).userInFlit (t d) <;> rfl

theorem made_step (s : FcSys) (t : Both FcTick) (d : Bool) : (s.step t).made d = s.made d ++ fresh ((s.step t).node d).ackGen := by
  rw [step_node]
  exact Both.of_apply _ d

theorem Sized.step (h : Sized s d) (hc : Counted s d) (hc' : Counted (s.step t) d) : Sized (s.step t) d := by
  unfold Sized at h ⊢
  have hm := made_step s t !d
  have hv := ackValid_step s t !d
  have hgot := got_step s t !d
  cases hf : (s.node !d).userInFlit (t !d) with
  | none =>
    rw [hf] at hv hgot
    have hfr : fresh ((s.step t).node !d).ackGen = [] := by simp [fresh, hv]
    rw [hm, hfr, hgot]
    simpa using h
  | some f =>
    rw [hf, Option.toList_some] at hgot
    rw [hf] at hv
    rw [hm, hgot, List.map_append, h, sizesFrom_snoc]
    congr 1
    by_cases he : f.eop = true
    · -- the count of the acknowledgement is what the flits read make up
      have h1 := hc.made
      have h2 := hc'.made
      rw [hm, hgot, sum_append, partRead_snoc, if_pos he, List.length_append, List.length_singleton] at h2
      have hfr : fresh ((s.step t).node !d).ackGen = [((s.step t).node !d).ackGen.data] := by simp [fresh, hv, he]
      rw [hfr] at h2 ⊢
      simp only [sum, List.map_cons, List.map_nil, List.sum_cons, List.sum_nil] at h2
      unfold sum at h1
      rw [if_pos he, List.map_cons, List.map_nil]
      congr 1
      omega
    · have hfr : fresh ((s.step t).node !d).ackGen = [] := by simp [fresh, hv, he]
      rw [hfr, if_neg he]
      rfl

theorem Sized.reset (total : Both (List Flit512)) (d : Bool) : Sized (.reset total) d := by cases d <;> rfl

theorem pending_window (h : Inv (totals ps) s d) (hz : Sized s d) :
    ∃ a w r, ps d = a ++ w ++ r ∧ w.map pktFlits = (s.pending d).map BitVec.toNat := by
  have hdata := h.data
  rw [totals, Both.of_apply, List.append_assoc] at hdata
  have hs : (ps d).map pktFlits = (s.applied d).map BitVec.toNat ++ (s.pending d).map BitVec.toNat ++
      sizesFrom (carried 0 (s.got !d)) (s.flight d ++ s.src d) := by
    rw [← sizes_userFlits, ← hdata, sizesFrom_append, ← hz, ← h.count, List.map_append]
  obtain ⟨l, r, hps, hl, -⟩ := List.map_eq_append_iff.mp hs
  obtain ⟨a, w, rfl, -, hw⟩ := List.map_eq_append_iff.mp hl
  exact ⟨a, w, r, hps, hw⟩

theorem acks_le_pending (s : FcSys) (d : Bool) :
    (s.node !d).ackFifo.q.length + (s.node !d).ackOut.toList.length ≤ (s.pending d).length := by
  simp only [pending, counts, List.length_append, List.length_map]
  omega

theorem Sound.ackRoom (h : Sound ps s) (hz : ∀ d, Sized s d) (hw : ∀ d, FitsAcks (ps d)) (d : Bool) : s.AckRoom d := by
  intro hsome
  obtain ⟨a, w, r, hps, hsize⟩ := pending_window (h.inv !d) (hz !d)
  have hsum : (userFlits w).length = sum (s.pending !d) := by rw [length_userFlits, hsize, sum]
  have hlen : w.length = (s.pending !d).length := by simpa using congrArg List.length hsize
  have hcons := h.conserved !d
  have hfit := hw (!d) a w r hps (by unfold Conserved at hcons; omega)
  have hle := acks_le_pending s !d
  rw [Bool.not_not] at hle
  have hone : (s.node d).ackOut.toList.length = 1 := by
    cases ho : (s.node d).ackOut with
    | none => simp [ho] at hsome
    | some f => rfl
  omega

end FcSys

/-- In every run with such packets the queues of acknowledgements take all they are given, however `out_ready` behaves. -/
theorem ackFifo_takes_all (ps : Both (List UserPkt)) (hp : ∀ d, ∀ p ∈ ps d, ∀ f ∈ p.flits, isAck f = false)
    (hw : ∀ d, FitsAcks (ps d)) (ts : List (Both FcTick)) :
    AllSteps FcSys.step (fun s _ => ∀ d, s.AckRoom d) (.reset (.of fun d => userFlits (ps d))) ts := by
  have hplain : ∀ d, FcSys.Plain (FcSys.totals ps d) := by
    intro d
    rw [FcSys.totals, Both.of_apply]
    exact plain_userFlits (hp d)
  have key : ∀ (ts : List (Both FcTick)) (s : FcSys), FcSys.Sound ps s → (∀ d, s.Sized d) →
      AllSteps FcSys.step (fun s _ => ∀ d, s.AckRoom d) s ts := by
    intro ts
    induction ts with
    | nil => exact fun _ _ _ => trivial
    | cons t ts ih =>
      intro s hs hz
      have hroom := hs.ackRoom hz hw
      have hs' : FcSys.Sound ps (s.step t) := hs.step hplain hroom
      exact ⟨hroom, ih _ hs' fun d => (hz d).step (hs.counted d) (hs'.counted d)⟩
  exact key ts _ (.reset ps) fun d => .reset _ d

/-- A packet of 32 flits. -/
def UserPkt.full : UserPkt where
  body := ⟨7, true, false, 0⟩ :: List.replicate 30 ⟨7, false, false, 0⟩
  last := ⟨7, false, true, 0⟩
  body_mark := by decide
  last_mark := rfl
  sop := sop_first rfl (by decide)
  short := by decide

/-- The user of node 0 sends, node 1 never gets its own words out. -/
def stuckTick : Both FcTick := ⟨⟨true, true, true, false, true, 0, 0⟩, ⟨false, true, false, false, true, 0, 0⟩⟩

theorem ackFifo_takes_all_full : AllSteps FcSys.step (fun s _ => ∀ d, s.AckRoom d)
    (.reset (.of fun _ => userFlits (List.replicate 600 .full))) (List.replicate 20000 stuckTick) :=
  ackFifo_takes_all (.of fun _ => List.replicate 600 .full)
    (fun d p hp => by
      rw [Both.of_apply] at hp
      rw [List.eq_of_mem_replicate hp]
      decide)
    (fun d => by
      rw [Both.of_apply]
      refine fitsAcks_of_full fun p hp => ?_
      rw [List.eq_of_mem_replicate hp]
      decide)
    _

/-! ## An overflow -/

def oneFlit : Flit512 := ⟨7, true, true, 0⟩

/-- Every stage from node 0 to the user of node 1 has such a packet, `k` are left to send, and `n` acknowledgements wait. -/
structure FcSys.Stuck (k n : Nat) (s : FcSys) : Prop where
  sending : (s.node false).sending = true
  notFull : (s.node false).almostFull = false
  unlocked : (s.node false).locked = false
  credit : (s.node false).txCredit = k + 15865
  noReturn : (s.node false).ds = none
  handed : (s.node false).intUserOut = some oneFlit
  userOut : (s.node false).userOut.q = [oneFlit]
  noAcks : (s.node false).ackFifo.q = []
  link : (s.link false).map LinkFlit.flit = [oneFlit]
  back : (s.link true).isEmpty = true
  src : s.src false = List.replicate k oneFlit
  arrived : (s.node true).userFifo = some oneFlit
  userIn : (s.node true).userIn = [oneFlit]
  acked : (s.node true).ackGen.ackValid = true
  ackOut : (s.node true).ackOut.isSome = true
  waits : (s.node true).ackFifo.q.length = n
  idle : (s.node false).userIn = [] ∧ (s.node false).userFifo = none ∧ (s.node false).ackGen.ackValid = false ∧
    (s.node false).ackOut = none

namespace FcSys.Stuck

variable {k n : Nat} {s : FcSys}

theorem sends (h : s.Stuck k n) : (s.node false).takeUser (stuckTick false) = true ∧
    (s.node false).takeAck (stuckTick false) = false ∧ (s.node false).out (stuckTick false) = some ⟨oneFlit, false⟩ := by
  have hg : (s.node false).grantAck (stuckTick false) = false := by simp [FcNode.grantAck, h.noAcks]
  have htu : (s.node false).takeUser (stuckTick false) = true := by
    rw [FcNode.takeUser, hg]
    rfl
  have hta : (s.node false).takeAck (stuckTick false) = false := by
    rw [FcNode.takeAck, hg]
    rfl
  refine ⟨htu, hta, ?_⟩
  rw [FcNode.out, hta, htu, h.userOut]
  rfl

theorem silent (g : FcNode) : g.takeAck (stuckTick true) = false ∧ g.out (stuckTick true) = none := by
  have ht : stuckTick true = ⟨false, true, false, false, true, 0, 0⟩ := rfl
  simp [FcNode.out, FcNode.takeAck, FcNode.takeUser, ht]

theorem step (h : s.Stuck (k + 1) n) (hn : n < fcFifoDepth) (hk : k < 2 ^ 31) : (s.step stuckTick).Stuck k (n + 1) := by
  obtain ⟨x, hx, hxf⟩ := List.map_eq_singleton_iff.1 h.link
  have hback : s.link true = [] := List.isEmpty_iff.1 h.back
  obtain ⟨hin, hfifo, hgen, hout⟩ := h.idle
  obtain ⟨f, hf⟩ := Option.isSome_iff_exists.1 h.ackOut
  have ht0 : stuckTick false = ⟨true, true, true, false, true, 0, 0⟩ := rfl
  have ht1 : stuckTick true = ⟨false, true, false, false, true, 0, 0⟩ := rfl
  have hack : isAck oneFlit = false := by decide +kernel
  have hoff : s.offered stuckTick false = some oneFlit := by simp [offered, ht0, h.src, List.replicate_succ]
  have ha0 : s.arriving stuckTick false = none := by simp [arriving, ht0, hback]
  have ha1 : (s.arriving stuckTick true).map LinkFlit.flit = some oneFlit := by simp [arriving, ht1, hx, hxf]
  obtain ⟨htu, hta, ho0⟩ := h.sends
  obtain ⟨hta1, ho1⟩ := silent (s.node true)
  have hnode : ∀ d, (s.step stuckTick).node d = s.nextNode stuckTick d := by
    intro d
    simp [FcSys.step]
  have hlink : ∀ d, (s.step stuckTick).link d = fifoStep (s.link d) ((s.node d).out (stuckTick d)) (stuckTick !d).inValid := by
    intro d
    simp [FcSys.step]
  have hth : ¬ (s.node false).txCredit < dsThresh := by
    rw [h.credit, dsThresh]
    omega
  constructor
  case sending => simp [hnode, nextNode, FcNode.step, h.sending, h.notFull]
  case notFull => simp [hnode, nextNode, FcNode.step, hth, ht0, FcFifo.fill, h.userOut, h.noAcks]
  case unlocked => simp [hnode, nextNode, FcNode.step, h.unlocked, h.userOut, oneFlit]
  case credit =>
    have hds : (none : Option (BitVec 32)).getD 0 = 0#32 := rfl
    have hmod : (k + 1 + 15865 + 0 + (2 ^ 32 - 1)) % 2 ^ 32 = k + 15865 := by omega
    simp only [hnode, nextNode, FcNode.step, h.credit, h.noReturn, h.handed, hds, BitVec.toNat_zero, Option.isSome_some,
      if_true, hmod]
  case noReturn => simp [hnode, nextNode, FcNode.step, ha0]
  case handed => simp [hnode, nextNode, FcNode.step, FcNode.accepted, h.sending, hoff]
  case userOut => simp [hnode, nextNode, FcNode.step, FcFifo.step, fifoStep, h.userOut, h.handed, htu, fcFifoDepth]
  case noAcks => simp [hnode, nextNode, FcNode.step, FcFifo.step, fifoStep, h.noAcks, hout, hta]
  case link => rw [hlink, ho0, hx]; rfl
  case back => rw [hlink, ho1, hback]; rfl
  case src => simp [FcSys.step, FcNode.accepted, h.sending, hoff, h.src]
  case arrived => simp [hnode, nextNode, FcNode.step, ha1, hack]
  case userIn => simp [hnode, nextNode, FcNode.step, fifoStep, h.arrived, h.userIn, ht1, inBufDepth]
  case acked => simp [hnode, nextNode, FcNode.step, AckGen.step, FcNode.userInFlit, h.userIn, ht1, oneFlit]
  case ackOut => simp [hnode, nextNode, FcNode.step, h.acked]
  case waits => simp [hnode, nextNode, FcNode.step, FcFifo.step, fifoStep, hta1, h.waits, hn, hf]
  case idle => simp [hnode, nextNode, FcNode.step, fifoStep, hin, hfifo, hgen, ha0, AckGen.step, FcNode.userInFlit]

theorem run : ∀ (m n : Nat) {s : FcSys}, s.Stuck (k + m) n → n + m ≤ fcFifoDepth → k + m ≤ 2 ^ 31 →
    (Hdl.run FcSys.step s (List.replicate m stuckTick)).Stuck k (n + m)
  | 0, _, _, h, _, _ => h
  | m + 1, n, s, h, hm, hk => by
    have hstep : (s.step stuckTick).Stuck (k + m) (n + 1) := Stuck.step h (by omega) (by omega)
    have hrun := Stuck.run m (n + 1) hstep (by omega) (by omega)
    rw [show n + 1 + m = n + (m + 1) by omega] at hrun
    exact hrun

end FcSys.Stuck

/-- After 520 packets of one flit the queue is full, and one more acknowledgement is written to it. -/
theorem ackFifo_overflows :
    let s := run FcSys.step (.reset (.of fun d => userFlits (if d then [] else List.replicate 520 (.single 7 0))))
      (List.replicate 520 stuckTick)
    (s.node true).ackOut.isSome = true ∧ (s.node true).ackFifo.q.length = fcFifoDepth := by
  intro s
  -- after eight cycles every stage has a flit
  have hbase : (run FcSys.step (.reset (.of fun d => userFlits (if d then [] else List.replicate 520 (.single 7 0))))
      (List.replicate 8 stuckTick)).Stuck (1 + 512) 0 := by
    constructor <;> decide +kernel
  have h := hbase.run 512 0 (Nat.le_refl _) (by omega)
  rw [← run_append, List.replicate_append_replicate, show 8 + 512 = 520 from rfl, Nat.zero_add] at h
  have hs : s.Stuck 1 512 := h
  exact ⟨hs.ackOut, hs.waits⟩

end Pigasus
