import Pigasus.Struct
import Mathlib.Data.List.Pairwise

/-!
# The packets of a flow

What the slow path is for: a flow has the next expected sequence number and the packets
that came too early, in order. An expected packet takes the packets that follow it
along, an early packet is kept if it meets no other one, and everything else is dropped.
-/

namespace Pigasus

structure SlowPkt where
  info : Metadata
  pos : 0 < info.len.toNat
  fits : info.seq.toNat + info.len.toNat < 2 ^ 32
  flag : info.pktFlags = .check

structure OooPkt where
  seq : BitVec 32
  len : BitVec 16
  pktID : PktId
  flits : BitVec 5
  last7Bytes : BitVec 56
  deriving DecidableEq, Repr

namespace OooPkt

variable (x : OooPkt)

def first : Nat := x.seq.toNat

def stop : Nat := x.seq.toNat + x.len.toNat

def endSeq : BitVec 32 := x.seq + x.len.setWidth 32

def meets (y : OooPkt) : Bool := decide (x.first < y.stop) && decide (y.first < x.stop)

/-- The packet has a byte, and its end is a sequence number. -/
structure Ok : Prop where
  pos : x.first < x.stop
  fits : x.stop < 2 ^ 32

variable {x}

theorem Ok.toNat_endSeq (h : x.Ok) : x.endSeq.toNat = x.stop := by
  have := h.fits
  simp only [endSeq, stop, BitVec.toNat_add, BitVec.toNat_setWidth] at *
  omega

end OooPkt

def SlowPkt.stored (p : SlowPkt) : OooPkt := ⟨p.info.seq, p.info.len, p.info.pktID, p.info.flits, p.info.last7Bytes⟩

theorem SlowPkt.ok (p : SlowPkt) : p.stored.Ok := by
  have := p.pos
  have := p.fits
  constructor <;> simp only [SlowPkt.stored, OooPkt.first, OooPkt.stop] <;> omega

/-- The packets of the list that follow each other from `e` on, and the others. -/
def splitAt (e : BitVec 32) : List OooPkt → List OooPkt × List OooPkt
  | [] => ([], [])
  | y :: l => if y.seq = e then (y :: (splitAt y.endSeq l).1, (splitAt y.endSeq l).2) else ([], y :: l)

def endOf (e : BitVec 32) (l : List OooPkt) : BitVec 32 := l.foldl (fun _ y => y.endSeq) e

def insertAt (x : OooPkt) : List OooPkt → List OooPkt
  | [] => [x]
  | y :: l => if x.stop ≤ y.first then x :: y :: l else y :: insertAt x l

abbrev Emit := PktId × Bool

structure OooFlow where
  seq : BitVec 32
  list : List OooPkt

namespace OooFlow

variable (A : OooFlow) (p : SlowPkt)

def next : OooFlow :=
  if p.info.seq = A.seq then
    ⟨endOf p.info.endSeq (splitAt p.info.endSeq A.list).1, (splitAt p.info.endSeq A.list).2⟩
  else if p.info.seq > A.seq then
    if A.list.any p.stored.meets then A else ⟨A.seq, insertAt p.stored A.list⟩
  else A

def emits : List Emit :=
  if p.info.seq = A.seq then
    (p.info.pktID, false) :: (splitAt p.info.endSeq A.list).1.map fun y => (y.pktID, false)
  else if p.info.seq > A.seq then if A.list.any p.stored.meets then [(p.info.pktID, true)] else []
  else [(p.info.pktID, true)]

/-- The packets are in order, without a common byte, and above the expected sequence number. -/
structure Ordered : Prop where
  sorted : A.list.Pairwise fun x y => x.stop ≤ y.first
  ok : ∀ x ∈ A.list, x.Ok
  above : ∀ x ∈ A.list, A.seq.toNat < x.first

def Clear : Prop := p.info.seq = A.seq → ∀ y ∈ A.list.head?, p.stored.stop ≤ y.first

instance : Decidable (A.Clear p) := inferInstanceAs (Decidable (_ → _))

variable {A p}

/-! ## Early packets -/

theorem mem_insertAt {x y : OooPkt} {l : List OooPkt} : y ∈ insertAt x l ↔ y = x ∨ y ∈ l := by
  induction l with
  | nil => simp [insertAt]
  | cons z l ih =>
    unfold insertAt
    split
    · simp
    · simp only [List.mem_cons, ih]
      tauto

theorem insertAt_append {x : OooPkt} {pre l : List OooPkt} (hx : x.Ok) (hp : ∀ y ∈ pre, y.Ok ∧ y.stop ≤ x.first) :
    insertAt x (pre ++ l) = pre ++ insertAt x l := by
  induction pre with
  | nil => rfl
  | cons y pre ih =>
    obtain ⟨hy, hs⟩ := hp y List.mem_cons_self
    have h1 := hx.pos
    have h2 := hy.pos
    rw [List.cons_append, insertAt, if_neg (by omega), ih fun z hz => hp z (List.mem_cons_of_mem _ hz), List.cons_append]

theorem any_meets_append {x : OooPkt} {pre l : List OooPkt} (hp : ∀ y ∈ pre, y.stop ≤ x.first) :
    (pre ++ l).any x.meets = l.any x.meets := by
  have : pre.any x.meets = false := by
    rw [List.any_eq_false]
    intro y hy
    have := hp y hy
    simp only [OooPkt.meets, Bool.and_eq_true, decide_eq_true_eq]
    omega
  rw [List.any_append, this, Bool.false_or]

theorem any_meets_of_le {x y : OooPkt} {l : List OooPkt} (hs : (y :: l).Pairwise fun x y => x.stop ≤ y.first)
    (hok : ∀ z ∈ y :: l, z.Ok) (hx : x.stop ≤ y.first) : (y :: l).any x.meets = false := by
  rw [List.any_eq_false]
  intro z hz
  have hz' : x.stop ≤ z.first := by
    rcases List.mem_cons.1 hz with rfl | hz
    · exact hx
    · have := (List.pairwise_cons.1 hs).1 z hz
      have := (hok y List.mem_cons_self).pos
      omega
  simp only [OooPkt.meets, Bool.and_eq_true, decide_eq_true_eq]
  omega

theorem insertAt_sorted {x : OooPkt} {l : List OooPkt} (hs : l.Pairwise fun x y => x.stop ≤ y.first)
    (hok : ∀ z ∈ l, z.Ok) (hx : x.Ok) (hm : l.any x.meets = false) :
    (insertAt x l).Pairwise fun x y => x.stop ≤ y.first := by
  induction l with
  | nil => simp [insertAt]
  | cons y l ih =>
    rw [List.pairwise_cons] at hs
    rw [List.any_cons, Bool.or_eq_false_iff] at hm
    have hy := (hok y List.mem_cons_self).pos
    unfold insertAt
    split
    · next hle =>
      refine List.pairwise_cons.2 ⟨fun z hz => ?_, List.pairwise_cons.2 hs⟩
      rcases List.mem_cons.1 hz with rfl | hz
      · exact hle
      · have := hs.1 z hz
        omega
    · next hle =>
      refine List.pairwise_cons.2 ⟨fun z hz => ?_, ih hs.2 (fun z hz => hok z (List.mem_cons_of_mem _ hz)) hm.2⟩
      rcases mem_insertAt.1 hz with rfl | hz
      · have hmy := hm.1
        simp only [OooPkt.meets, Bool.and_eq_false_iff, decide_eq_false_iff_not] at hmy
        omega
      · exact hs.1 z hz

/-! ## The expected packet -/

theorem splitAt_append (e : BitVec 32) (l : List OooPkt) : (splitAt e l).1 ++ (splitAt e l).2 = l := by
  induction l generalizing e with
  | nil => rfl
  | cons y l ih =>
    unfold splitAt
    split
    · simp [ih]
    · rfl

theorem splitAt_above {e : BitVec 32} {l : List OooPkt} (hs : l.Pairwise fun x y => x.stop ≤ y.first)
    (hok : ∀ z ∈ l, z.Ok) (he : ∀ y ∈ l.head?, e.toNat ≤ y.first) :
    ∀ y ∈ (splitAt e l).2, (endOf e (splitAt e l).1).toNat < y.first := by
  induction l generalizing e with
  | nil => exact nofun
  | cons y l ih =>
    rw [List.pairwise_cons] at hs
    have hy := hok y List.mem_cons_self
    unfold splitAt
    split
    · refine ih hs.2 (fun z hz => hok z (List.mem_cons_of_mem _ hz)) fun z hz => ?_
      rw [hy.toNat_endSeq]
      exact hs.1 z (List.mem_of_head? hz)
    · next hne =>
      have h1 : e.toNat ≤ y.first := he y rfl
      have h2 : e.toNat ≠ y.first := fun h => hne (BitVec.eq_of_toNat_eq h.symm)
      intro z hz
      show e.toNat < z.first
      rcases List.mem_cons.1 hz with rfl | hz
      · omega
      · have := hs.1 z hz
        have := hy.pos
        omega

theorem Ordered.next (h : A.Ordered) (hc : A.Clear p) : (A.next p).Ordered := by
  have hp := p.ok
  unfold OooFlow.next
  split
  · next heq =>
    have happ := splitAt_append p.info.endSeq A.list
    have hmem : ∀ y ∈ (splitAt p.info.endSeq A.list).2, y ∈ A.list := fun y hy => by
      rw [← happ]
      exact List.mem_append_right _ hy
    refine ⟨?_, fun y hy => h.ok y (hmem y hy), splitAt_above h.sorted h.ok fun y hy => ?_⟩
    · have hs := h.sorted
      rw [← happ] at hs
      exact (List.pairwise_append.1 hs).2.1
    · have he : p.info.endSeq.toNat = p.stored.stop := hp.toNat_endSeq
      rw [he]
      exact hc heq y hy
  split
  · next hlt =>
    split
    · exact h
    · next hm =>
      have hm : A.list.any p.stored.meets = false := by simpa using hm
      refine ⟨insertAt_sorted h.sorted h.ok hp hm, fun y hy => ?_, fun y hy => ?_⟩
      · rcases mem_insertAt.1 hy with rfl | hy
        · exact hp
        · exact h.ok y hy
      · rcases mem_insertAt.1 hy with rfl | hy
        · exact hlt
        · exact h.above y hy
  · exact h

def after (e : BitVec 32) (ps : List SlowPkt) : OooFlow := ps.foldl OooFlow.next ⟨e, []⟩

def emitted (A : OooFlow) : List SlowPkt → List Emit
  | [] => []
  | p :: ps => A.emits p ++ emitted (A.next p) ps

theorem after_concat (e : BitVec 32) (ps : List SlowPkt) (p : SlowPkt) : after e (ps ++ [p]) = (after e ps).next p := by
  simp [after]

theorem emitted_concat (A : OooFlow) (ps : List SlowPkt) (p : SlowPkt) :
    emitted A (ps ++ [p]) = emitted A ps ++ (ps.foldl OooFlow.next A).emits p := by
  induction ps generalizing A with
  | nil => simp [emitted]
  | cons q ps ih => simp [emitted, ih]

end OooFlow

end Pigasus
