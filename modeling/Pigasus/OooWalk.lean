import Pigasus.OooList

/-!
# The place of an early packet

`linked_list` walks along the nodes of a flow until it finds the place of the packet, or a
node that meets it. It then links a new node in front of the nodes, between two of them
or behind them.
-/

namespace Pigasus

open Hdl

/-! ## The walk along the list -/

namespace LinkedList

structure For (i : LlIn) (p : SlowPkt) : Prop where
  seq : i.seq = p.info.seq
  len : i.len = p.info.len
  node : ∀ next last, newNode i next last = p.stored.node next last

/-- The nodes `pre` are in front of `p`, and the walk is at the first node of `cur`. -/
structure Place (p : SlowPkt) (pre cur : List (LlPtr × OooPkt)) (s : LinkedList) : Prop where
  done : s.done = false
  discard : s.discard = false
  updatePValid : s.updatePValid = false
  outReady : s.emptylistOutReady = false
  inValid : s.emptylistInValid = false
  head : s.headOutValid = false
  startP : s.startP = p.info.seq
  endP : s.endP = p.info.seq + p.info.len.setWidth 32 - 1
  passed : ∀ n ∈ pre, n.2.stop ≤ p.stored.first
  addr : ∀ n ∈ cur.head?, s.addr = n.1
  first : s.first = pre.isEmpty
  prevAddr : ∀ n ∈ pre.getLast?, s.prevAddr = n.1

/-- The nodes are in the memory. A flow without nodes has the free pointer `q`. -/
structure Walk (p : SlowPkt) (q : LlPtr) (pre cur : List (LlPtr × OooPkt)) (s : LinkedList) : Prop where
  place : Place p pre cur s
  fresh : cur = [] → pre = [] ∧ s.addr = q ∧ q ∉ s.emptylist ∧ (s.memNext q).valid = false
  held : Held s.memNext s.emptylist (pre ++ cur)

variable {p : SlowPkt} {q : LlPtr} {pre cur : List (LlPtr × OooPkt)} {s : LinkedList} {i : LlIn}

theorem Place.emptylist (h : Place p pre cur s) : (s.step i).emptylist = s.emptylist := by
  rw [step_emptylist _ _ (fun hv => by rw [h.inValid] at hv; cases hv)]
  exact freeNext_of_not h.outReady h.inValid

structure Keeps (c s : LinkedList) : Prop where
  done : c.done = s.done
  discard : c.discard = s.discard
  updatePValid : c.updatePValid = s.updatePValid
  outReady : c.emptylistOutReady = false
  inValid : c.emptylistInValid = s.emptylistInValid
  head : c.headOutValid = s.headOutValid
  startP : c.startP = s.startP
  endP : c.endP = s.endP
  addr : c.addr = s.addr
  first : c.first = s.first
  prevAddr : c.prevAddr = s.prevAddr

theorem Place.keep (h : Place p pre cur s) (k : Keeps (s.control i) s) : Place p pre cur (s.step i) :=
  ⟨k.done.trans h.done, k.discard.trans h.discard, k.updatePValid.trans h.updatePValid, k.outReady, k.inValid.trans h.inValid,
    k.head.trans h.head, k.startP.trans h.startP, k.endP.trans h.endP, h.passed, fun n hn => k.addr.trans (h.addr n hn),
    k.first.trans h.first, fun n hn => k.prevAddr.trans (h.prevAddr n hn)⟩

theorem Walk.keep (h : Walk p q pre cur s) (k : Keeps (s.control i) s) (hw : (s.control i).llWr = false) :
    Walk p q pre cur (s.step i) ∧ (s.step i).memNext = s.memNext := by
  have hm : (s.step i).memNext = s.memNext := by rw [step_memNext, hw]; rfl
  refine ⟨⟨h.place.keep k, fun hc => ?_, by rw [hm, h.place.emptylist]; exact h.held⟩, hm⟩
  obtain ⟨h1, h2, h3⟩ := h.fresh hc
  rw [hm, h.place.emptylist]
  exact ⟨h1, k.addr.trans h2, h3⟩

structure AtRead (s : LinkedList) : Prop where
  state : s.state = .read
  cycle : s.cycle = 0
  noRead : s.NoRead

structure AtReadValid (k : Nat) (s : LinkedList) : Prop where
  state : s.state = .readValid
  cycle : s.cycle = 0
  llWr : s.llWr = false
  reading : s.Reading (s.memNext s.addr) k

structure AtCompare (s : LinkedList) : Prop where
  state : s.state = .compare
  cycle : s.cycle = 0
  llWr : s.llWr = false
  noRead : s.NoRead
  entry : s.entry = s.memNext s.addr

theorem Walk.read (h : Walk p q pre cur s) (hr : s.AtRead) :
    Walk p q pre cur (s.step i) ∧ (s.step i).AtReadValid 0 := by
  have hc : s.control i = s.readStep := by simp [control, hr.state]
  have hk : Keeps (s.control i) s := by
    rw [hc]
    exact ⟨rfl, rfl, rfl, rfl, rfl, rfl, rfl, rfl, rfl, rfl, rfl⟩
  obtain ⟨hw, hm⟩ := h.keep hk (by rw [hc]; rfl)
  refine ⟨hw, by simp [step, hc, readStep], ?_, by simp [step, hc, readStep], ?_⟩
  · simpa [step, hc, readStep, pulse] using hr.cycle
  · refine ⟨by simp [step, hc, readStep], hr.noRead.rd, hr.noRead.rdR1, ?_⟩
    rw [hm]
    simp [step, hc, readStep, pulse, memNext]

theorem Walk.readValid {k : Nat} (h : Walk p q pre cur s) (hr : s.AtReadValid k) (hk : k < 3) :
    Walk p q pre cur (s.step i) ∧ (k < 2 ∧ (s.step i).AtReadValid (k + 1) ∨ (s.step i).AtCompare) := by
  have hc : s.control i = s.readValidStep := by simp [control, hr.state]
  have hrd : (s.control i).llRd = false := by rw [hc]; rfl
  have hwr : (s.control i).llWr = false := by rw [hc]; exact hr.llWr
  have hk : Keeps (s.control i) s := by
    rw [hc]
    exact ⟨rfl, rfl, rfl, rfl, rfl, rfl, rfl, rfl, rfl, rfl, rfl⟩
  obtain ⟨hw, hm⟩ := h.keep hk hwr
  have haddr : (s.step i).addr = s.addr := by simp [step, hc, readValidStep, pulse]
  have hcyc : (s.step i).cycle = 0 := by simpa [step, hc, readValidStep, pulse] using hr.cycle
  have hst : (s.step i).state = if s.llRdValid then .compare else .readValid := by simp [step, hc, readValidStep]
  refine ⟨hw, ?_⟩
  have hred := hr.reading
  -- the memory answers two cycles after the request
  obtain rfl | rfl | rfl : k = 0 ∨ k = 1 ∨ k = 2 := by omega
  · refine .inl ⟨by omega, by rw [hst, hred.2.2.1]; rfl, hcyc, hwr, ?_⟩
    rw [hm, haddr]
    exact hred.step_zero hrd
  · refine .inl ⟨by omega, by rw [hst, hred.2.2.1]; rfl, hcyc, hwr, ?_⟩
    rw [hm, haddr]
    exact hred.step_one hrd
  · refine .inr ⟨by rw [hst, hred.2.2.1]; rfl, hcyc, hwr, hred.step_two hrd, ?_⟩
    rw [hm, haddr, ← hred.2.2.2]
    simp [step, hc, readValidStep, hred.2.2.1]

/-! ## The place of the packet -/

theorem endP_lt_iff (p : SlowPkt) (y : OooPkt) (next : LlPtr) (last : Bool) :
    p.info.seq + p.info.len.setWidth 32 - 1 < (y.node next last).seq ↔ p.stored.stop ≤ y.first := by
  have h1 := p.pos
  have h2 := p.fits
  simp only [OooPkt.node, OooPkt.stop, OooPkt.first, SlowPkt.stored, BitVec.lt_def, BitVec.toNat_sub, BitVec.toNat_add,
    BitVec.toNat_setWidth, BitVec.toNat_ofNat, BitVec.ofNat_eq_ofNat]
  omega

theorem startP_gt_iff (p : SlowPkt) {y : OooPkt} (hy : y.Ok) (next : LlPtr) (last : Bool) :
    p.info.seq > entryEnd (y.node next last) ↔ y.stop ≤ p.stored.first := by
  have h1 := hy.pos
  have h2 := hy.fits
  simp only [OooPkt.stop, OooPkt.first] at h1 h2
  simp only [entryEnd, OooPkt.node, OooPkt.stop, OooPkt.first, SlowPkt.stored, gt_iff_lt, BitVec.lt_def, BitVec.toNat_sub,
    BitVec.toNat_add, BitVec.toNat_setWidth, BitVec.toNat_ofNat, BitVec.ofNat_eq_ofNat]
  omega

structure Inserted (p : SlowPkt) (q : LlPtr) (N N' : List (LlPtr × OooPkt)) (s : LinkedList) : Prop where
  rests : s.Rests
  done : s.done = true
  discard : s.discard = false
  held : Held s.memNext s.freeNext N'
  list : N'.map Prod.snd = insertAt p.stored (N.map Prod.snd)
  apart : (N.map Prod.snd).any p.stored.meets = false
  moved : s.updatePValid = true → N ≠ [] ∧ ∀ n ∈ N'.head?, s.updateP = n.1
  kept : s.updatePValid = false → ∀ n ∈ N'.head?, n.1 = q

structure Refused (p : SlowPkt) (N : List (LlPtr × OooPkt)) (s : LinkedList) : Prop where
  rests : s.Rests
  done : s.done = true
  discard : s.discard = true
  updatePValid : s.updatePValid = false
  held : Held s.memNext s.freeNext N
  meets : (N.map Prod.snd).any p.stored.meets = true

theorem Place.allocated {c : LinkedList} {x : Entry} {f : LlPtr} {F : List LlPtr} (h : Place p pre cur s)
    (hF : s.emptylist = f :: F) (hc : s.control i = c)
    (hw : c.llWr = true ∧ c.llWrAddr = f ∧ c.llWrData = x) (ho : c.emptylistOutReady = true) (hi : c.emptylistInValid = false) :
    (s.step i).memNext = upd s.memNext f x ∧ (s.step i).freeNext = F := by
  constructor
  · rw [step_memNext, hc, hw.1, hw.2.1, hw.2.2]
    rfl
  · rw [freeNext, h.emptylist, hF]
    show (if (s.control i).emptylistOutReady then _ else _) ++ (if (s.control i).emptylistInValid then _ else _) = _
    rw [hc, ho, hi]
    simp

theorem held_of_linked {M M' : LlPtr → Entry} {f : LlPtr} {F : List LlPtr} {N N' : List (LlPtr × OooPkt)}
    (h : Held M (f :: F) N) (hl : Chain.Linked OooPkt.node M' N')
    (hp : (N'.map Prod.fst).Perm (f :: N.map Prod.fst)) (hM : ∀ a ∈ F, M' a = M a) : Held M' F N' := by
  refine ⟨hl, ?_, fun a ha => ?_⟩
  · have : (F ++ N'.map Prod.fst).Perm (f :: F ++ N.map Prod.fst) :=
      (List.Perm.append_left F hp).trans (List.perm_middle)
    exact this.nodup_iff.2 h.nodup
  · rw [hM a ha]
    exact h.zero a (List.mem_cons_of_mem _ ha)

theorem fresh_pointer {M : LlPtr → Entry} {F : List LlPtr} {N : List (LlPtr × OooPkt)} {f : LlPtr} (h : Held M (f :: F) N) :
    f ∉ N.map Prod.fst ∧ ∀ a ∈ F, a ≠ f ∧ ∀ n ∈ N, a ≠ n.1 := by
  obtain ⟨hF, -, hN⟩ := List.nodup_append.1 h.nodup
  refine ⟨fun hm => hN f List.mem_cons_self f hm rfl, fun a ha => ⟨?_, fun n hn => ?_⟩⟩
  · rintro rfl
    exact (List.nodup_cons.1 hF).1 ha
  · exact hN a (List.mem_cons_of_mem _ ha) n.1 (List.mem_map_of_mem hn)

section
variable {y : OooPkt} {next : LlPtr} {last : Bool} (h : Place p pre cur s) (hS : s.state = .compare)
  (he : s.entry = y.node next last) (hy : y.Ok)
include h hS he

theorem control_front (hle : p.stored.stop ≤ y.first) :
    s.control i = if s.first then s.insertFront i else s.insertBetween i := by
  have h1 : s.endP < s.entry.seq := by
    rw [h.endP, he]
    exact (endP_lt_iff ..).2 hle
  have h2 : s.entry.valid = true := by rw [he]; rfl
  simp only [control, hS, compareStep, h2, h1, if_true]

include hy

theorem control_behind (hle : y.stop ≤ p.stored.first) : s.control i = if last then s.insertTail i else s.pass := by
  have hp := p.ok.pos
  have hpos := hy.pos
  have h1 : ¬ s.endP < s.entry.seq := by
    rw [h.endP, he, endP_lt_iff]
    omega
  have h2 : s.entry.valid = true := by rw [he]; rfl
  have h3 : s.startP > entryEnd s.entry := by
    rw [h.startP, he]
    exact (startP_gt_iff p hy ..).2 hle
  have h4 : s.entry.last = last := by rw [he]; rfl
  simp only [control, hS, compareStep, h2, h1, h3, h4, if_true, if_false]

theorem control_meets (h1 : ¬ p.stored.stop ≤ y.first) (h2 : ¬ y.stop ≤ p.stored.first) : s.control i = s.refuse := by
  have h1 : ¬ s.endP < s.entry.seq := by rwa [h.endP, he, endP_lt_iff]
  have h3 : ¬ s.startP > entryEnd s.entry := by rwa [h.startP, he, startP_gt_iff p hy]
  have h2 : s.entry.valid = true := by rw [he]; rfl
  simp only [control, hS, compareStep, h2, h1, h3, if_true, if_false]

end

theorem Place.rests {c : LinkedList} (h : Place p pre cur s) (hn : s.NoRead) (hc : s.control i = c) (hS : c.state = .idle)
    (hr : c.llRd = false) (hh : c.headOutValid = s.headOutValid) (hi : c.emptylistInValid = s.emptylistInValid) :
    (s.step i).Rests := by
  subst hc
  exact ⟨hS, hn.step hr, hh.trans h.head, .inr (hi.trans h.inValid)⟩

theorem Walk.compare_empty (h : Walk p q [] [] s) (hc : s.AtCompare) (hi : For i p) :
    Inserted p q [] [(q, p.stored)] (s.step i) := by
  obtain ⟨-, ha, hq, hz⟩ := h.fresh rfl
  have hv : s.entry.valid = false := by rw [hc.entry, ha, hz]
  have hf : s.first = true := h.place.first
  have hctl : s.control i = s.insertEmpty i := by simp [control, hc.state, compareStep, hv]
  have hmem : (s.step i).memNext = upd s.memNext q (p.stored.node 0 true) := by
    rw [step_memNext, hctl]
    simp [insertEmpty, hf, ha, hi.node, wr]
  have hfree : (s.step i).freeNext = s.emptylist := by
    rw [freeNext, h.place.emptylist]
    simp [step, hctl, insertEmpty, pulse, h.place.inValid]
  have hn := h.held.nodup
  refine ⟨h.place.rests hc.noRead hctl rfl hc.noRead.rd rfl rfl, by simp [step, hctl, insertEmpty], ?_, ?_, rfl, rfl, ?_, ?_⟩
  · simpa [step, hctl, insertEmpty, pulse] using h.place.discard
  · rw [hmem, hfree]
    refine ⟨⟨⟨0, Chain.upd_same⟩, trivial⟩, ?_, fun f hf => ?_⟩
    · rw [List.nodup_append]
      refine ⟨(List.nodup_append.1 hn).1, by simp, fun a ha b hb => ?_⟩
      rw [show b = q by simpa using hb]
      exact fun he => hq (he ▸ ha)
    · have hfq : f ≠ q := fun he => hq (he ▸ hf)
      rw [Chain.upd_ne hfq]
      exact h.held.zero f hf
  · intro hu
    simp [step, hctl, insertEmpty, pulse, h.place.updatePValid] at hu
  · simp

section
variable {y : LlPtr × OooPkt} {l : List (LlPtr × OooPkt)} (hs : ((pre ++ y :: l).map Prod.snd).Pairwise fun a b => a.stop ≤ b.first)
  (hok : ∀ x ∈ (pre ++ y :: l).map Prod.snd, x.Ok)
include hs hok

theorem insertAt_front (hp : ∀ n ∈ pre, n.2.stop ≤ p.stored.first) (hle : p.stored.stop ≤ y.2.first) :
    insertAt p.stored ((pre ++ y :: l).map Prod.snd) = (pre.map Prod.snd) ++ p.stored :: y.2 :: l.map Prod.snd ∧
      ((pre ++ y :: l).map Prod.snd).any p.stored.meets = false := by
  rw [List.map_append, List.map_cons] at hs hok ⊢
  constructor
  · rw [OooFlow.insertAt_append p.ok, insertAt, if_pos hle]
    intro x hx
    obtain ⟨n, hn, rfl⟩ := List.mem_map.1 hx
    exact ⟨hok _ (List.mem_append_left _ hx), hp n hn⟩
  · rw [OooFlow.any_meets_append]
    · exact OooFlow.any_meets_of_le (List.pairwise_append.1 hs).2.1 (fun z hz => hok z (List.mem_append_right _ hz)) hle
    · intro x hx
      obtain ⟨n, hn, rfl⟩ := List.mem_map.1 hx
      exact hp n hn

end

theorem insertAt_end {N : List (LlPtr × OooPkt)} (hok : ∀ x ∈ N.map Prod.snd, x.Ok) (hp : ∀ n ∈ N, n.2.stop ≤ p.stored.first) :
    insertAt p.stored (N.map Prod.snd) = N.map Prod.snd ++ [p.stored] ∧ (N.map Prod.snd).any p.stored.meets = false := by
  have hx : ∀ x ∈ N.map Prod.snd, x.stop ≤ p.stored.first := by
    intro x hx
    obtain ⟨n, hn, rfl⟩ := List.mem_map.1 hx
    exact hp n hn
  constructor
  · have := OooFlow.insertAt_append (l := []) p.ok fun x hx' => ⟨hok x hx', hx x hx'⟩
    simpa [insertAt] using this
  · have := OooFlow.any_meets_append (l := []) hx
    simpa using this

theorem Walk.compare_front {y : LlPtr × OooPkt} {l : List (LlPtr × OooPkt)} (h : Walk p q [] (y :: l) s) (hc : s.AtCompare)
    (hi : For i p) (hf : s.emptylist ≠ []) (hs : ((y :: l).map Prod.snd).Pairwise fun a b => a.stop ≤ b.first)
    (hok : ∀ x ∈ (y :: l).map Prod.snd, x.Ok) (hle : p.stored.stop ≤ y.2.first) :
    ∃ f, Inserted p q (y :: l) ((f, p.stored) :: y :: l) (s.step i) := by
  obtain ⟨f, F, hF⟩ := List.exists_cons_of_ne_nil hf
  obtain ⟨x, hx, -⟩ := h.held.linked.1.mem_eq
  have ha : s.addr = y.1 := h.place.addr y rfl
  have he : s.entry = y.2.node x l.isEmpty := by rw [hc.entry, ha, hx]
  have hfirst : s.first = true := h.place.first
  have hctl : s.control i = s.insertFront i := by rw [control_front h.place hc.state he hle, hfirst]; rfl
  have hout : s.emptylistOutData = f := by simp [emptylistOutData, hF]
  obtain ⟨hmem, hfree⟩ := h.place.allocated hF hctl (x := p.stored.node y.1 false)
    ⟨rfl, hout, by simp [insertFront, allocate, hi.node, ha]⟩ rfl h.place.inValid
  have hheld := h.held
  rw [hF] at hheld
  obtain ⟨hfy, hfree'⟩ := fresh_pointer hheld
  obtain ⟨h1, h2⟩ := @insertAt_front p [] y l hs hok nofun hle
  refine ⟨f, h.place.rests hc.noRead hctl rfl hc.noRead.rd rfl rfl, by simp [step, hctl, insertFront, allocate], ?_, ?_, h1.symm,
    h2, fun _ => ⟨by simp, ?_⟩, ?_⟩
  · simpa [step, hctl, insertFront, allocate] using h.place.discard
  · rw [hmem, hfree]
    exact held_of_linked hheld (hheld.linked.cons p.stored hfy) (by simp) fun a ha => Chain.upd_ne (hfree' a ha).1
  · simp [step, hctl, insertFront, hout]
  · intro hu
    simp [step, hctl, insertFront] at hu

section
variable {y : LlPtr × OooPkt} {l : List (LlPtr × OooPkt)}

structure AtPrev (k : Nat) (s : LinkedList) : Prop where
  state : s.state = .compare
  cycle : s.cycle = 1
  llWr : s.llWr = false
  entry : s.entry = s.memNext s.addr
  reading : s.Reading (s.memNext s.prevAddr) k

structure AtPrevGot (s : LinkedList) : Prop where
  state : s.state = .compare
  cycle : s.cycle = 2
  entry : s.entry = s.memNext s.addr
  noRead : s.NoRead
  prevEntry : s.prevEntry = s.memNext s.prevAddr

/-- The node `n` has been linked to the first free pointer, and `y` is behind it. -/
structure Linking (p : SlowPkt) (pre cur : List (LlPtr × OooPkt)) (n y : LlPtr × OooPkt) (c : Nat) (last : Bool)
    (s : LinkedList) : Prop where
  place : Place p pre cur s
  state : s.state = .compare
  cycle : s.cycle = c
  noRead : s.NoRead
  entry : ∃ x, s.entry = y.2.node x last
  held : ∃ M, Held M s.emptylist (pre ++ cur) ∧ s.memNext = upd M n.1 (n.2.node s.emptylistOutData false)

theorem Walk.cell (h : Walk p q pre (y :: l) s) :
    ∃ x, s.memNext s.addr = y.2.node x l.isEmpty ∧ ∀ m ∈ l.head?, x = m.1 := by
  rw [h.place.addr y rfl]
  exact h.held.linked.of_append.1.mem_eq

theorem Walk.first_eq_false (h : Walk p q pre cur s) (hp : pre ≠ []) : s.first = false := by
  rw [h.place.first]
  simpa using hp

theorem Walk.between_control (h : Walk p q pre (y :: l) s) (hS : s.state = .compare) (he : s.entry = s.memNext s.addr)
    (hp : pre ≠ []) (hle : p.stored.stop ≤ y.2.first) : s.control i = s.insertBetween i := by
  obtain ⟨x, hx, -⟩ := h.cell
  rw [control_front h.place hS (he.trans hx) hle, h.first_eq_false hp]
  rfl

theorem Walk.compare_between (h : Walk p q pre (y :: l) s) (hc : s.AtCompare) (hp : pre ≠ [])
    (hle : p.stored.stop ≤ y.2.first) : Walk p q pre (y :: l) (s.step i) ∧ (s.step i).AtPrev 0 := by
  have hctl := h.between_control (i := i) hc.state hc.entry hp hle
  simp only [insertBetween, hc.cycle] at hctl
  have hk : Keeps (s.control i) s := by
    rw [hctl]
    exact ⟨rfl, rfl, rfl, rfl, rfl, rfl, rfl, rfl, rfl, rfl, rfl⟩
  obtain ⟨hw, hm⟩ := h.keep hk (by rw [hctl])
  refine ⟨hw, ?_, ?_, ?_, ?_, ?_⟩
  · simpa [step, hctl, pulse] using hc.state
  · simp [step, hctl]
  · simp [step, hctl]
  · rw [hm]
    simpa [step, hctl, pulse] using hc.entry
  · refine ⟨by simp [step, hctl], hc.noRead.rd, hc.noRead.rdR1, ?_⟩
    rw [hm]
    simp [step, hctl, pulse, memNext]

theorem Walk.prev {k : Nat} (h : Walk p q pre (y :: l) s) (hc : s.AtPrev k) (hk : k < 3) (hp : pre ≠ [])
    (hle : p.stored.stop ≤ y.2.first) :
    Walk p q pre (y :: l) (s.step i) ∧ (k < 2 ∧ (s.step i).AtPrev (k + 1) ∨ (s.step i).AtPrevGot) := by
  have hctl := h.between_control (i := i) hc.state hc.entry hp hle
  simp only [insertBetween, hc.cycle] at hctl
  have hkeep : Keeps (s.control i) s := by
    rw [hctl]
    exact ⟨rfl, rfl, rfl, rfl, rfl, rfl, rfl, rfl, rfl, rfl, rfl⟩
  have hwr : (s.control i).llWr = false := by rw [hctl]; exact hc.llWr
  have hrd : (s.control i).llRd = false := by rw [hctl]
  obtain ⟨hw, hm⟩ := h.keep hkeep hwr
  have hst : (s.step i).state = .compare := by simpa [step, hctl, pulse] using hc.state
  have hent : (s.step i).entry = (s.step i).memNext (s.step i).addr := by
    rw [hm]
    simpa [step, hctl, pulse] using hc.entry
  have hprev : (s.step i).prevAddr = s.prevAddr := by simp [step, hctl, pulse]
  have hcyc : (s.step i).cycle = if s.llRdValid then 2 else 1 := by simp [step, hctl]
  refine ⟨hw, ?_⟩
  have hred := hc.reading
  -- in cycle 1 the machine waits for the node in front
  obtain rfl | rfl | rfl : k = 0 ∨ k = 1 ∨ k = 2 := by omega
  · refine .inl ⟨by omega, hst, by rw [hcyc, hred.2.2.1]; rfl, hwr, hent, ?_⟩
    rw [hm, hprev]
    exact hred.step_zero hrd
  · refine .inl ⟨by omega, hst, by rw [hcyc, hred.2.2.1]; rfl, hwr, hent, ?_⟩
    rw [hm, hprev]
    exact hred.step_one hrd
  · refine .inr ⟨hst, by rw [hcyc, hred.2.2.1]; rfl, hent, hred.step_two hrd, ?_⟩
    rw [hm, hprev, ← hred.2.2.2]
    simp [step, hctl, hred.2.2.1]

theorem Walk.prevGot {n : LlPtr × OooPkt} (h : Walk p q (pre ++ [n]) (y :: l) s) (hc : s.AtPrevGot)
    (hle : p.stored.stop ≤ y.2.first) : Linking p (pre ++ [n]) (y :: l) n y 3 l.isEmpty (s.step i) := by
  have hctl := h.between_control (i := i) hc.state hc.entry (by simp) hle
  simp only [insertBetween, hc.cycle] at hctl
  have hk : Keeps (s.control i) s := by
    rw [hctl]
    exact ⟨rfl, rfl, rfl, rfl, rfl, rfl, rfl, rfl, rfl, rfl, rfl⟩
  have hprev : s.prevAddr = n.1 := h.place.prevAddr n (by simp)
  have hlink := h.held.linked
  rw [List.append_assoc, List.singleton_append] at hlink
  obtain ⟨x, hx, -⟩ := hlink.of_append.1.mem_eq
  obtain ⟨z, hz, -⟩ := h.cell
  have hout : (s.step i).emptylistOutData = s.emptylistOutData := by rw [emptylistOutData, h.place.emptylist]; rfl
  refine ⟨h.place.keep hk, ?_, by simp [step, hctl], hc.noRead.step (by rw [hctl]; exact hc.noRead.rd), ⟨z, ?_⟩,
    s.memNext, by rw [h.place.emptylist]; exact h.held, ?_⟩
  · simpa [step, hctl, pulse] using hc.state
  · rw [← hz, ← hc.entry]
    simp [step, hctl, pulse]
  · rw [step_memNext, hctl, hout]
    simp only [wr, if_true, hc.prevEntry, hprev, hx]
    rfl

theorem Linking.between {n : LlPtr × OooPkt} {last : Bool} (h : Linking p (pre ++ [n]) (y :: l) n y 3 last s) (hi : For i p)
    (hf : s.emptylist ≠ []) (hs : ((pre ++ [n] ++ y :: l).map Prod.snd).Pairwise fun a b => a.stop ≤ b.first)
    (hok : ∀ x ∈ (pre ++ [n] ++ y :: l).map Prod.snd, x.Ok) (hle : p.stored.stop ≤ y.2.first)
    (hq : ∀ m ∈ (pre ++ [n] ++ y :: l).head?, m.1 = q) :
    ∃ f, Inserted p q (pre ++ [n] ++ y :: l) (pre ++ n :: (f, p.stored) :: y :: l) (s.step i) := by
  obtain ⟨f, F, hF⟩ := List.exists_cons_of_ne_nil hf
  obtain ⟨x, he⟩ := h.entry
  obtain ⟨M, hheld, hM⟩ := h.held
  have ha : s.addr = y.1 := h.place.addr y rfl
  have hfirst : s.first = false := by rw [h.place.first]; simp
  have hctl : s.control i = s.insertBetween i := by rw [control_front h.place h.state he hle, hfirst]; rfl
  -- the node in front has been written in cycle 2, the new one follows
  simp only [insertBetween, h.cycle] at hctl
  have hout : s.emptylistOutData = f := by simp [emptylistOutData, hF]
  obtain ⟨hmem, hfree⟩ := h.place.allocated hF hctl (x := p.stored.node y.1 false)
    ⟨rfl, hout, by simp [allocate, hi.node, ha]⟩ rfl h.place.inValid
  rw [hF] at hheld
  have hnd := (List.nodup_append.1 hheld.nodup).2.1
  obtain ⟨hfN, hfree'⟩ := fresh_pointer hheld
  obtain ⟨h1, h2⟩ := insertAt_front hs hok h.place.passed hle
  have hassoc : pre ++ [n] ++ y :: l = pre ++ n :: y :: l := by simp
  refine ⟨f, h.place.rests h.noRead hctl rfl h.noRead.rd rfl rfl, by simp [step, hctl, allocate], ?_, ?_, ?_, h2, ?_, ?_⟩
  · simpa [step, hctl, allocate] using h.place.discard
  · rw [hmem, hfree, hM, hout]
    have hl := hheld.linked
    rw [hassoc] at hl hnd hfN
    refine held_of_linked hheld (hl.insert hnd p.stored hfN) ?_ fun a ha => ?_
    · rw [hassoc]
      have : (pre.map Prod.fst ++ [n.1] ++ f :: y.1 :: l.map Prod.fst).Perm _ := List.perm_middle
      simpa using this
    · obtain ⟨haf, haN⟩ := hfree' a ha
      rw [Chain.upd_ne haf, Chain.upd_ne (haN n (by simp))]
  · rw [h1]
    simp
  · intro hu
    simp [step, hctl, allocate, h.place.updatePValid] at hu
  · intro _ m hm
    refine hq m ?_
    cases pre <;> simpa using hm

theorem Walk.compare_tail (h : Walk p q pre [y] s) (hc : s.AtCompare) (hy : y.2.Ok) (hle : y.2.stop ≤ p.stored.first) :
    Linking p pre [y] y y 1 true (s.step i) := by
  obtain ⟨x, hx, -⟩ := h.cell
  have hctl : s.control i = s.insertTail i := by rw [control_behind h.place hc.state (hc.entry.trans hx) hy hle]; rfl
  simp only [insertTail, hc.cycle] at hctl
  have hk : Keeps (s.control i) s := by
    rw [hctl]
    exact ⟨rfl, rfl, rfl, rfl, rfl, rfl, rfl, rfl, rfl, rfl, rfl⟩
  have hout : (s.step i).emptylistOutData = s.emptylistOutData := by rw [emptylistOutData, h.place.emptylist]; rfl
  have ha : s.addr = y.1 := h.place.addr y rfl
  refine ⟨h.place.keep hk, ?_, by simp [step, hctl], hc.noRead.step (by rw [hctl]; exact hc.noRead.rd), ⟨x, ?_⟩,
    s.memNext, by rw [h.place.emptylist]; exact h.held, ?_⟩
  · simpa [step, hctl, pulse] using hc.state
  · rw [show true = ([] : List (LlPtr × OooPkt)).isEmpty from rfl, ← hx, ← hc.entry]
    simp [step, hctl, pulse]
  · rw [step_memNext, hctl, hout]
    simp only [wr, if_true, hc.entry, ha]
    rw [← ha, hx]
    rfl

theorem Linking.tail (h : Linking p pre [y] y y 1 true s) (hi : For i p) (hf : s.emptylist ≠ [])
    (hok : ∀ x ∈ (pre ++ [y]).map Prod.snd, x.Ok) (hle : y.2.stop ≤ p.stored.first)
    (hq : ∀ m ∈ (pre ++ [y]).head?, m.1 = q) : ∃ f, Inserted p q (pre ++ [y]) (pre ++ [y, (f, p.stored)]) (s.step i) := by
  obtain ⟨f, F, hF⟩ := List.exists_cons_of_ne_nil hf
  obtain ⟨x, he⟩ := h.entry
  obtain ⟨M, hheld, hM⟩ := h.held
  have hctl : s.control i = s.insertTail i := by
    rw [control_behind h.place h.state he (hok y.2 (by simp)) hle]
    rfl
  -- the last node has lost its mark in cycle 0, and the new one gets it
  simp only [insertTail, h.cycle] at hctl
  have hout : s.emptylistOutData = f := by simp [emptylistOutData, hF]
  obtain ⟨hmem, hfree⟩ := h.place.allocated hF hctl (x := p.stored.node 0 true)
    ⟨rfl, hout, by simp [allocate, hi.node]⟩ rfl h.place.inValid
  rw [hF] at hheld
  have hnd := (List.nodup_append.1 hheld.nodup).2.1
  obtain ⟨hfN, hfree'⟩ := fresh_pointer hheld
  have hpass : ∀ m ∈ pre ++ [y], m.2.stop ≤ p.stored.first := by
    intro m hm
    rcases List.mem_append.1 hm with hm | hm
    · exact h.place.passed m hm
    · rw [List.mem_singleton.1 hm]
      exact hle
  obtain ⟨h1, h2⟩ := insertAt_end hok hpass
  refine ⟨f, h.place.rests h.noRead hctl rfl h.noRead.rd rfl rfl, by simp [step, hctl, allocate], ?_, ?_, ?_, h2, ?_, ?_⟩
  · simpa [step, hctl, allocate] using h.place.discard
  · rw [hmem, hfree, hM, hout]
    refine held_of_linked hheld (hheld.linked.concat hnd p.stored 0 hfN) ?_ fun a ha => ?_
    · have : (pre.map Prod.fst ++ [y.1] ++ [f]).Perm _ := List.perm_append_comm
      simpa using this
    · obtain ⟨haf, haN⟩ := hfree' a ha
      rw [Chain.upd_ne haf, Chain.upd_ne (haN y (by simp))]
  · rw [h1]
    simp
  · intro hu
    simp [step, hctl, allocate, h.place.updatePValid] at hu
  · intro _ m hm
    refine hq m ?_
    cases pre <;> simpa using hm

theorem Walk.pass {m : LlPtr × OooPkt} (h : Walk p q pre (y :: m :: l) s) (hc : s.AtCompare) (hy : y.2.Ok)
    (hle : y.2.stop ≤ p.stored.first) : Walk p q (pre ++ [y]) (m :: l) (s.step i) ∧ (s.step i).AtRead := by
  obtain ⟨x, hx, hm⟩ := h.cell
  have hctl : s.control i = s.pass := by rw [control_behind h.place hc.state (hc.entry.trans hx) hy hle]; rfl
  have hmem : (s.step i).memNext = s.memNext := by
    rw [step_memNext, hctl]
    simp [LinkedList.pass, pulse, hc.llWr, wr]
  have ha : s.addr = y.1 := h.place.addr y rfl
  refine ⟨⟨⟨?_, ?_, ?_, ?_, ?_, ?_, ?_, ?_, ?_, ?_, ?_, ?_⟩, by simp, ?_⟩, ?_, ?_, hc.noRead.step (by rw [hctl]; exact hc.noRead.rd)⟩
  · simpa [step, hctl, LinkedList.pass, pulse] using h.place.done
  · simpa [step, hctl, LinkedList.pass, pulse] using h.place.discard
  · simpa [step, hctl, LinkedList.pass, pulse] using h.place.updatePValid
  · simp [step, hctl, LinkedList.pass, pulse]
  · simpa [step, hctl, LinkedList.pass, pulse] using h.place.inValid
  · simpa [step, hctl, LinkedList.pass, pulse] using h.place.head
  · simpa [step, hctl, LinkedList.pass, pulse] using h.place.startP
  · simpa [step, hctl, LinkedList.pass, pulse] using h.place.endP
  · intro n hn
    rcases List.mem_append.1 hn with hn | hn
    · exact h.place.passed n hn
    · rw [List.mem_singleton.1 hn]
      exact hle
  · intro n hn
    obtain rfl : m = n := by simpa using hn
    simp [step, hctl, LinkedList.pass, hc.entry, hx, OooPkt.node, hm m rfl]
  · simp [step, hctl, LinkedList.pass]
  · intro n hn
    obtain rfl : y = n := by simpa using hn
    simp [step, hctl, LinkedList.pass, ha]
  · rw [hmem, h.place.emptylist]
    simpa using h.held
  · simp [step, hctl, LinkedList.pass]
  · simpa [step, hctl, LinkedList.pass, pulse] using hc.cycle

theorem Walk.refuse (h : Walk p q pre (y :: l) s) (hc : s.AtCompare) (hy : y.2.Ok) (h1 : ¬ p.stored.stop ≤ y.2.first)
    (h2 : ¬ y.2.stop ≤ p.stored.first) : Refused p (pre ++ y :: l) (s.step i) := by
  obtain ⟨x, hx, -⟩ := h.cell
  have hctl : s.control i = s.refuse := control_meets h.place hc.state (hc.entry.trans hx) hy h1 h2
  have hmem : (s.step i).memNext = s.memNext := by
    rw [step_memNext, hctl]
    simp [LinkedList.refuse, pulse, hc.llWr, wr]
  have hfree : (s.step i).freeNext = s.emptylist := by
    rw [freeNext, h.place.emptylist]
    simp [step, hctl, LinkedList.refuse, pulse, h.place.inValid]
  refine ⟨h.place.rests hc.noRead hctl rfl hc.noRead.rd rfl rfl, by simp [step, hctl, LinkedList.refuse],
    by simp [step, hctl, LinkedList.refuse], ?_, by rw [hmem, hfree]; exact h.held, ?_⟩
  · simpa [step, hctl, LinkedList.refuse, pulse] using h.place.updatePValid
  · rw [List.any_eq_true]
    refine ⟨y.2, by simp, ?_⟩
    simp only [OooPkt.meets, Bool.and_eq_true, decide_eq_true_eq]
    omega

end

/-! ## All of the walk -/

inductive Walks (p : SlowPkt) (q : LlPtr) (N : List (LlPtr × OooPkt)) : Nat → LinkedList → Prop
  | read {pre cur ll} (hN : N = pre ++ cur) (h : Walk p q pre cur ll) (hr : ll.AtRead) : Walks p q N (10 + 5 * cur.length) ll
  | readValid {pre cur ll k} (hN : N = pre ++ cur) (h : Walk p q pre cur ll) (hr : ll.AtReadValid k) (hk : k < 3) :
      Walks p q N (9 - k + 5 * cur.length) ll
  | compare {pre cur ll} (hN : N = pre ++ cur) (h : Walk p q pre cur ll) (hr : ll.AtCompare) :
      Walks p q N (6 + 5 * cur.length) ll
  | prev {pre y l ll k} (hN : N = pre ++ y :: l) (h : Walk p q pre (y :: l) ll) (hr : ll.AtPrev k) (hk : k < 3)
      (hp : pre ≠ []) (hle : p.stored.stop ≤ y.2.first) : Walks p q N (5 - k) ll
  | prevGot {pre y l ll} (hN : N = pre ++ y :: l) (h : Walk p q pre (y :: l) ll) (hr : ll.AtPrevGot) (hp : pre ≠ [])
      (hle : p.stored.stop ≤ y.2.first) : Walks p q N 2 ll
  | between {pre n y l ll b} (hN : N = pre ++ [n] ++ y :: l) (h : Linking p (pre ++ [n]) (y :: l) n y 3 b ll)
      (hle : p.stored.stop ≤ y.2.first) : Walks p q N 1 ll
  | tail {pre y ll} (hN : N = pre ++ [y]) (h : Linking p pre [y] y y 1 true ll) (hle : y.2.stop ≤ p.stored.first) :
      Walks p q N 1 ll

theorem Walks.quiet {n : Nat} {ll : LinkedList} {N : List (LlPtr × OooPkt)} (h : Walks p q N n ll) : ll.done = false ∧ ll.updatePValid = false := by
  cases h with
  | read _ h | readValid _ h | compare _ h | prev _ h | prevGot _ h => exact ⟨h.place.done, h.place.updatePValid⟩
  | between _ h | tail _ h => exact ⟨h.place.done, h.place.updatePValid⟩

theorem Walks.step {n : Nat} {ll : LinkedList} {i : LlIn} {N : List (LlPtr × OooPkt)} (h : Walks p q N n ll) (hi : For i p)
    (hf : ll.emptylist ≠ []) (hs : (N.map Prod.snd).Pairwise fun a b => a.stop ≤ b.first) (hok : ∀ x ∈ N.map Prod.snd, x.Ok)
    (hq : ∀ n ∈ N.head?, n.1 = q) :
    (∃ m < n, Walks p q N m (ll.step i)) ∨ (∃ N', Inserted p q N N' (ll.step i)) ∨ Refused p N (ll.step i) := by
  cases h with
  | read hN h hr =>
    obtain ⟨h, hr⟩ := h.read (i := i) hr
    exact .inl ⟨_, by omega, .readValid hN h hr (by omega)⟩
  | readValid hN h hr hk =>
    obtain ⟨h, ⟨hk, hr⟩ | hr⟩ := h.readValid (i := i) hr hk
    · exact .inl ⟨_, by omega, .readValid hN h hr (by omega)⟩
    · exact .inl ⟨_, by omega, .compare hN h hr⟩
  | @compare pre cur _ hN h hr =>
    subst hN
    cases cur with
    | nil =>
      obtain ⟨rfl, -⟩ := h.fresh rfl
      exact .inr (.inl ⟨_, h.compare_empty hr hi⟩)
    | cons y l =>
      have hy : y.2.Ok := hok y.2 (by simp)
      by_cases h1 : p.stored.stop ≤ y.2.first
      · cases pre with
        | nil =>
          obtain ⟨f, hins⟩ := h.compare_front hr hi hf hs hok h1
          exact .inr (.inl ⟨_, hins⟩)
        | cons n pre =>
          obtain ⟨h, hr⟩ := h.compare_between (i := i) hr (by simp) h1
          exact .inl ⟨_, by omega, .prev rfl h hr (by omega) (by simp) h1⟩
      · by_cases h2 : y.2.stop ≤ p.stored.first
        · cases l with
          | nil => exact .inl ⟨_, by omega, .tail rfl (h.compare_tail hr hy h2) h2⟩
          | cons m l =>
            obtain ⟨h, hr⟩ := h.pass (i := i) hr hy h2
            exact .inl ⟨_, by simp only [List.length_cons]; omega, .read (by simp) h hr⟩
        · exact .inr (.inr (h.refuse hr hy h1 h2))
  | prev hN h hr hk hp hle =>
    obtain ⟨h, ⟨hk, hr⟩ | hr⟩ := h.prev (i := i) hr hk hp hle
    · exact .inl ⟨_, by omega, .prev hN h hr (by omega) hp hle⟩
    · exact .inl ⟨_, by omega, .prevGot hN h hr hp hle⟩
  | @prevGot pre y l _ hN h hr hp hle =>
    obtain ⟨pre, n, rfl⟩ := (List.eq_nil_or_concat' pre).resolve_left hp
    exact .inl ⟨_, Nat.lt_succ_self 1, .between hN (h.prevGot hr hle) hle⟩
  | between hN h hle =>
    subst hN
    obtain ⟨f, hins⟩ := h.between hi hf hs hok hle hq
    exact .inr (.inl ⟨_, hins⟩)
  | tail hN h hle =>
    subst hN
    obtain ⟨f, hins⟩ := h.tail hi hf hok hle hq
    exact .inr (.inl ⟨_, hins⟩)

end LinkedList

end Pigasus
