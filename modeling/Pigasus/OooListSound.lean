import Pigasus.OooInsert
import Pigasus.Startup

/-!
# The list of a flow is in order

Each cycle leads from one phase to the next one, so after every packet the nodes of the
flow are the packets that are kept, in order.
-/

namespace Pigasus

open Hdl

/-- The flow table answers a read and takes a write. -/
def SlowTick.serves (t : SlowTick) : Bool := t.ch2RdValid && t.ch3Ready

namespace FlowSys

open LinkedList

/-- With `n` more answers of the flow table the packet in work is done. -/
inductive Inv (e : BitVec 32) (s : FlowSys) : Nat → Prop
  | rest {N} (h : AtRest e N s) : Inv e s 0
  | fetch {prev p N} (h : Fresh e prev p N s) (hS : s.fr.state = .getFce) : Inv e s (22 + 6 * N.length)
  | compare {prev p N} (h : Fresh e prev p N s) (hS : s.fr.state = .compare) (hf : s.fr.fceDataR = s.entry)
      (hd : s.fr.ch3Data = s.entry) : Inv e s (21 + 6 * N.length)
  | writes {N} (h : Writes e N s) : Inv e s 1
  -- the nodes behind an expected packet
  | asks {prev p D n l} (h : Drain e prev p D n l s) (ha : Drain.Asks n s) : Inv e s (7 + 6 * l.length)
  | reads {prev p D n l k} (h : Drain e prev p D n l s) (hr : Drain.Reads n k s) (hk : k < 3) : Inv e s (6 - k + 6 * l.length)
  | gotOne {prev p D n l} (h : Drain e prev p D n l s) (hg : Drain.Got n 1 s) : Inv e s (3 + 6 * l.length)
  | gotTwo {prev p D n l} (h : Drain e prev p D n l s) (hg : Drain.Got n 2 s) : Inv e s (2 + 6 * l.length)
  -- an early packet
  | asksPtr {prev p} (h : Stores e prev p [] 1 s) (ha : AsksPtr s) : Inv e s 17
  | gotPtr {prev p q} (h : Stores e prev p [] 1 s) (ha : GotPtr q s) : Inv e s 16
  | hands {prev p N q} (h : Stores e prev p N 2 s) (ha : Hands N q s) : Inv e s (15 + 5 * N.length)
  | starts {prev p N q} (h : Stores e prev p N 3 s) (ha : Hands.Sent N q p s) (hs : Hands.Starts N q s) :
      Inv e s (14 + 5 * N.length)
  | walks {prev p N q m} (h : Stores e prev p N 3 s) (ha : Hands.Sent N q p s) (hs : s.fr.llStart = false)
      (hw : Walks p q N m s.ll) : Inv e s (3 + m)
  | inserted {prev p N N' q} (h : Stores e prev p N 3 s) (ha : Hands.Sent N q p s) (hs : s.fr.llStart = false)
      (hi : Inserted p q N N' s.ll) : Inv e s 2
  | refused {prev p N q} (h : Stores e prev p N 3 s) (ha : Hands.Sent N q p s) (hs : s.fr.llStart = false)
      (hr : Refused p N s.ll) : Inv e s 1

/-- A free pointer is there, no reader holds up the release of the list, and an expected packet
does not reach into it. -/
structure Smooth (e : BitVec 32) (s : FlowSys) (t : SlowTick) : Prop where
  free : s.ll.emptylist ≠ []
  flows : s.pauses t = false
  clear : s.takes t = true → (OooFlow.after e s.taken).Clear t.pkt

instance (e : BitVec 32) (s : FlowSys) (t : SlowTick) : Decidable (Smooth e s t) :=
  decidable_of_iff (s.ll.emptylist ≠ [] ∧ s.pauses t = false ∧ (s.takes t = true → (OooFlow.after e s.taken).Clear t.pkt))
    ⟨fun ⟨a, b, c⟩ => ⟨a, b, c⟩, fun ⟨a, b, c⟩ => ⟨a, b, c⟩⟩

variable {e : BitVec 32} {s : FlowSys} {N : List (LlPtr × OooPkt)}

theorem Inv.step {n : Nat} (s : FlowSys) (t : SlowTick) (h : Inv e s n) (hok : Smooth e s t) :
    ∃ m, Inv e (s.step t) m ∧ (s.fr.state ≠ .idle → m ≤ n ∧ (t.serves = true → m < n)) := by
  -- but for the two that wait for the flow table, no phase lasts
  have less {m : Nat} (hm : m < n) (hi : Inv e (s.step t) m) :
      ∃ m, Inv e (s.step t) m ∧ (s.fr.state ≠ .idle → m ≤ n ∧ (t.serves = true → m < n)) :=
    ⟨m, hi, fun _ => ⟨Nat.le_of_lt hm, fun _ => hm⟩⟩
  cases h with
  | rest h =>
    obtain h' | ⟨prev, p, h', hS⟩ := h.step hok.clear
    · exact ⟨_, .rest h', fun hn => absurd h.state hn⟩
    · exact ⟨_, .fetch h' hS, fun hn => absurd h.state hn⟩
  | fetch h hS =>
    obtain ⟨h', ⟨hv, hS'⟩ | ⟨hS', hf, hd⟩⟩ := h.fetch (t := t) hS
    · exact ⟨_, .fetch h' hS', fun _ => ⟨Nat.le_refl _, fun hs => by simp [SlowTick.serves, hv] at hs⟩⟩
    · have hentry := step_entry (t := t) h.work.wren
      exact less (by omega) (.compare h' hS' (hf.trans hentry.symm) (hd.trans hentry.symm))
  | @compare prev p N h hS hf hd =>
    by_cases hq : p.info.seq = (OooFlow.after e prev).seq
    · obtain ⟨N, hw⟩ | ⟨n, l, rfl, hdr, ha⟩ := h.release (t := t) hS hf hd hq
      · exact less (by omega) (.writes hw)
      · exact less (by simp only [List.length_cons]; omega) (.asks hdr ha)
    by_cases hlt : p.info.seq > (OooFlow.after e prev).seq
    · obtain ⟨hst, ha, rfl⟩ | ⟨q, hst, ha⟩ := h.store (t := t) hS hf hd hlt
      · exact less (by omega) (.asksPtr hst ha)
      · exact less (by omega) (.hands hst ha)
    · exact less (by omega) (.rest (h.behind hS hf hd hq hlt))
  | writes h =>
    obtain ⟨hw, h⟩ | h := h.step (t := t)
    · exact ⟨_, .writes h, fun _ => ⟨Nat.le_refl _, fun hs => by simp [SlowTick.serves, hw] at hs⟩⟩
    · exact less Nat.one_pos (.rest h)
  | asks h ha =>
    obtain ⟨h, hr⟩ := ha.step (t := t) h
    exact less (by omega) (.reads h hr (by omega))
  | reads h hr hk =>
    obtain ⟨h, ⟨hk, hr⟩ | hg⟩ := hr.step (t := t) h hk
    · exact less (by omega) (.reads h hr (by omega))
    · exact less (by omega) (.gotOne h hg)
  | gotOne h hg =>
    obtain ⟨h, hg⟩ := hg.step_one (t := t) h
    exact less (by omega) (.gotTwo h hg)
  | gotTwo h hg =>
    obtain ⟨N, hw⟩ | ⟨m, l', rfl, h, ha⟩ := hg.step_two h hok.flows
    · exact less (by omega) (.writes hw)
    · exact less (by simp only [List.length_cons]; omega) (.asks h ha)
  | asksPtr h ha =>
    obtain ⟨q, h, hg⟩ := ha.step (t := t) h hok.free
    exact less (by omega) (.gotPtr h hg)
  | gotPtr h ha =>
    obtain ⟨h, hh⟩ := ha.step (t := t) h
    exact less (Nat.lt_succ_self 15) (.hands h hh)
  | hands h ha =>
    obtain ⟨h, hs, hst⟩ := ha.step (t := t) h
    exact less (by omega) (.starts h hs hst)
  | starts h ha hs =>
    obtain ⟨hw, hr⟩ := hs.step (t := t) h ha
    obtain ⟨h, ha, hl⟩ := ha.wait (t := t) h hs.done hs.updatePValid
    exact less (by omega) (.walks h ha hl (.read rfl hw hr))
  | @walks prev p N q m h ha hs hw =>
    have hlist := h.points.list
    have hsort : (N.map Prod.snd).Pairwise fun a b => a.stop ≤ b.first := by
      rw [hlist]
      exact h.work.ordered.sorted
    have hnok : ∀ x ∈ N.map Prod.snd, x.Ok := by
      rw [hlist]
      exact h.work.ordered.ok
    obtain ⟨hd, hu⟩ := hw.quiet
    obtain ⟨h', ha', hl⟩ := ha.wait (t := t) h hd hu
    obtain ⟨m', hm, hw⟩ | ⟨N', hi⟩ | hr := hw.step ha.req hok.free hsort hnok ha.startsAt.head
    · exact less (by omega) (.walks h' ha' hl hw)
    · exact less (by omega) (.inserted h' ha' hl hi)
    · exact less (by omega) (.refused h' ha' hl hr)
  | inserted h ha hs hi =>
    obtain h | h := inserted_step (t := t) h ha hs hi
    · exact less (by omega) (.writes h)
    · exact less (by omega) (.rest h)
  | refused h ha hs hr => exact less Nat.one_pos (.rest (refused_step h ha hs hr))

theorem Inv.atRest {n : Nat} (h : Inv e s n) (hS : s.fr.state = .idle) : ∃ N, AtRest e N s := by
  cases h with
  | rest h => exact ⟨_, h⟩
  | fetch _ h | compare _ h =>
    rw [hS] at h
    cases h
  | writes h | asks h | reads h | gotOne h | gotTwo h | asksPtr h | gotPtr h | hands h | starts h | walks h | inserted h | refused h =>
    have := h.state
    rw [hS] at this
    cases this

theorem Inv.idle (h : Inv e s 0) : s.fr.state = .idle := by
  generalize hn : 0 = n at h
  cases h with
  | rest h => exact h.state
  | _ => omega

/-- The packet in work is done when the flow table has answered often enough. -/
theorem Inv.returns (us : List SlowTick) {n : Nat} {s : FlowSys} (h : Inv e s n) (hs : AllSteps FlowSys.step (Smooth e) s us)
    (hn : n ≤ us.countP SlowTick.serves) : ∃ k ≤ us.length, (run FlowSys.step s (us.take k)).fr.state = .idle := by
  induction us generalizing n s with
  | nil =>
    obtain rfl : n = 0 := Nat.le_zero.1 hn
    exact ⟨0, Nat.le_refl _, h.idle⟩
  | cons t us ih =>
    by_cases hS : s.fr.state = .idle
    · exact ⟨0, Nat.zero_le _, hS⟩
    obtain ⟨m, hm, hlt⟩ := h.step s t hs.1
    obtain ⟨hle, hlt⟩ := hlt hS
    have hcount : m ≤ us.countP SlowTick.serves := by
      rw [List.countP_cons] at hn
      split at hn
      · next hv => exact Nat.le_of_lt_succ (Nat.lt_of_lt_of_le (hlt hv) hn)
      · exact hle.trans hn
    obtain ⟨k, hk, hidle⟩ := ih hm hs.2 hcount
    exact ⟨k + 1, Nat.succ_le_succ hk, hidle⟩

/-- The nodes that are reached from the entry, and what has been put out. -/
structure InOrder (e : BitVec 32) (s : FlowSys) : Prop where
  chain : ∃ N : List (LlPtr × OooPkt), (N.map Prod.fst).Nodup ∧ Chain.Linked OooPkt.node s.ll.memNext N ∧
    Points s.entry (.after e s.taken) N
  ordered : (OooFlow.after e s.taken).Ordered
  out : s.out = OooFlow.emitted ⟨e, []⟩ s.taken

theorem AtRest.inOrder (h : AtRest e N s) : InOrder e s :=
  ⟨⟨N, (List.nodup_append.1 h.held.nodup).2.1, h.held.linked, h.points⟩, h.ordered, h.out⟩

theorem reset_atRest {ll : LinkedList} {entry : Fce} (hl : entry.llValid = false) (hr : ll.Rests)
    (hh : Held ll.memNext ll.freeNext []) : AtRest entry.seq [] (reset ll entry) where
  state := rfl
  calm := ⟨rfl, rfl, rfl, rfl⟩
  rests := hr
  wren := nofun
  held := hh
  points := ⟨rfl, rfl, hl, nofun⟩
  ordered := ⟨.nil, nofun, nofun⟩
  out := rfl

/-- The list waits and has no node of the flow. -/
structure Ready (ll : LinkedList) : Prop where
  rests : ll.Rests
  held : Held ll.memNext ll.freeNext []

theorem ready_free : Ready .free where
  rests := ⟨rfl, ⟨rfl, rfl, rfl⟩, rfl, .inl rfl⟩
  held := by
    refine ⟨trivial, ?_, fun _ _ => rfl⟩
    have hn : (freePointers depth).Nodup := by
      refine List.Nodup.map_on (fun a ha b hb h => ?_) List.nodup_range
      have := congrArg BitVec.toNat h
      simp only [BitVec.toNat_ofNat, depth, List.mem_range] at this ha hb
      omega
    rw [freeNext_of_not (s := LinkedList.free) rfl rfl]
    simpa only [free, List.map_nil, List.append_nil] using hn

/-- After each packet the nodes that are reached from the entry are the packets that are kept, in order, and what has been
put out is what the packets made it put out. At any time the packet in work is done when the flow table has answered a
number of times. -/
theorem list_in_order (ll : LinkedList) (entry : Fce) (hl : entry.llValid = false) (hr : Ready ll) (ts : List SlowTick)
    (hs : AllSteps step (Smooth entry.seq) (reset ll entry) ts) :
    let s := run step (reset ll entry) ts
    (s.fr.state = .idle → InOrder entry.seq s) ∧
      ∃ n, ∀ us, AllSteps step (Smooth entry.seq) s us → n ≤ us.countP SlowTick.serves →
        ∃ k ≤ us.length, (run step s (us.take k)).fr.state = .idle := by
  have hkeep : ∀ s t, (∃ n, Inv entry.seq s n) → Smooth entry.seq s t → ∃ n, Inv entry.seq (s.step t) n := by
    rintro s t ⟨n, h⟩ hok
    obtain ⟨m, h, -⟩ := h.step s t hok
    exact ⟨m, h⟩
  obtain ⟨n, h⟩ := run_inv step hkeep ts _ ⟨0, .rest (reset_atRest hl hr.rests hr.held)⟩ hs
  refine ⟨fun hS => ?_, n, fun us hu hn => h.returns us hu hn⟩
  obtain ⟨N, h⟩ := h.atRest hS
  exact h.inOrder

def somePkt (id : PktId) (seq : BitVec 32) (len : BitVec 16) (hp : 0 < len.toNat)
    (hf : seq.toNat + len.toNat < 2 ^ 32) : SlowPkt where
  info := { Metadata.zero with pktID := id, seq := seq, len := len, pktFlags := .check }
  pos := hp
  fits := hf
  flag := rfl

def tenBytes (k : Fin 16) : SlowPkt :=
  somePkt (.ofNat _ k.val) (.ofNat 32 (100 + 10 * k.val)) 10 (by decide) (by revert k; decide)

def fourFree : LinkedList := { LinkedList.reset with state := .idle, emptylist := [1, 2, 3, 4] }

theorem ready_fourFree : Ready fourFree where
  rests := ⟨rfl, ⟨rfl, rfl, rfl⟩, rfl, .inl rfl⟩
  held := ⟨trivial, by decide, fun _ _ => rfl⟩

def flowEntry : Fce := { Fce.zero with valid := true, seq := 100 }

def waits (n : Nat) (full : Bool) : List SlowTick :=
  List.replicate n ⟨tenBytes 0, false, .zero, false, true, true, true, full⟩

def offers (p : SlowPkt) : SlowTick := ⟨p, true, .zero, true, true, true, true, false⟩

def feed (p : SlowPkt) : List SlowTick := offers p :: waits 30 false

/-- An early packet at 110, one that meets it and one at 130, then the expected one. -/
def smoothTicks : List SlowTick :=
  feed (tenBytes 1) ++ feed (somePkt 9 115 10 (by decide) (by decide)) ++ feed (tenBytes 3) ++ feed (tenBytes 0)

theorem list_in_order_smooth :
    (run step (reset fourFree flowEntry) smoothTicks).out = [(9, true), (0, false), (1, false)] ∧
      InOrder 100 (run step (reset fourFree flowEntry) smoothTicks) :=
  ⟨by decide +kernel,
    (list_in_order fourFree flowEntry rfl ready_fourFree smoothTicks (by decide +kernel)).1 (by decide +kernel)⟩

def nodeSeqs (mem : LlPtr → Entry) : Nat → LlPtr → List (BitVec 32)
  | 0, _ => []
  | n + 1, a => (mem a).seq :: if (mem a).last then [] else nodeSeqs mem n (mem a).next

/-- The expected packet reaches into the one that is kept. -/
def reachingTicks : List SlowTick := feed (tenBytes 1) ++ feed (somePkt 2 100 15 (by decide) (by decide))

/-- The reader has no room in one cycle of the release, then four early packets come. -/
def pausingTicks : List SlowTick :=
  feed (tenBytes 1) ++ feed (tenBytes 2) ++ offers (tenBytes 0) :: (waits 7 false ++ waits 1 true ++ waits 20 false) ++
    feed (tenBytes 4) ++ feed (tenBytes 6) ++ feed (tenBytes 8) ++ feed (tenBytes 10)

/-- The first node is below the expected sequence number; and a node is lost since its
pointer was given back twice. -/
theorem list_not_in_order :
    (AllSteps step (fun s _ => s.ll.emptylist ≠ []) (reset fourFree flowEntry) reachingTicks ∧
      let s := run step (reset fourFree flowEntry) reachingTicks
      s.fr.state = .idle ∧ s.taken.length = 2 ∧ s.entry.llValid = true ∧ s.entry.seq = 115 ∧
        nodeSeqs s.ll.memNext 4 s.entry.pointer = [110]) ∧
    (AllSteps step (fun s _ => s.ll.emptylist ≠ []) (reset fourFree flowEntry) pausingTicks ∧
      let s := run step (reset fourFree flowEntry) pausingTicks
      s.fr.state = .idle ∧ s.taken.length = 7 ∧ s.entry.llValid = true ∧ s.entry.seq = 130 ∧
        nodeSeqs s.ll.memNext 4 s.entry.pointer = [140, 160, 200] ∧
        (OooFlow.after 100 s.taken).list.map OooPkt.seq = [140, 160, 180, 200] ∧
        s.out = [(0, false), (1, false), (2, false)]) := by
  decide +kernel

end FlowSys

end Pigasus
