import Pigasus.PktBuffer
import Pigasus.PktDataShiftSound
import Mathlib.Data.List.ReduceOption

/-!
# The admission of frames

`input_comp` between the wire and a free list that behaves in any way. A frame whose
first flit finds a free `pktID` is to give one metadata word. Three things stand in the
way of this: the free list is asked for at every flit, it is popped behind a lock, and
the line in front of the last one is whatever was on the bus.
-/

namespace Pigasus

open Hdl

/-! ## The last bytes of a frame -/

def lastSeven (l : List Byte) : List Byte := (List.replicate 7 0 ++ l).drop l.length

def joinBytes (l : List Byte) : BitVec 56 := l.foldl (fun x b => x <<< 8 ||| b.setWidth 56) 0

theorem lastSeven_of_long {l m : List Byte} (h : 7 ≤ m.length) : lastSeven (l ++ m) = m.drop (m.length - 7) := by
  rw [lastSeven, ← List.append_assoc, List.length_append, List.drop_append, List.drop_of_length_le (by simp; omega),
    List.nil_append]
  congr 1
  simp
  omega

namespace EthFrame

def lastLine (f : EthFrame) : Line × BitVec 6 := f.lines.getLast f.ne_nil

/-- The bytes of the frame: all lines but the last, and the last one without its empty bytes. -/
def bytes (f : EthFrame) : List Byte :=
  f.lines.dropLast.flatMap (fun p => p.1.toList) ++ f.lastLine.1.toList.take (64 - f.lastLine.2.toNat)

def metaOf (f : EthFrame) (id : PktId) : Metadata :=
  { Metadata.zero with
    pktID := id
    empty := f.lastLine.2
    flits := BitVec.ofNat 5 f.lines.length
    last7Bytes := joinBytes (lastSeven f.bytes) }

end EthFrame

namespace InputComp

theorem toList_ofList {l m : List Byte} (hm : m.length = 64) (h : l.take 64 = m) : (Line.ofList l).toList = m := by
  rw [Line.ofList_congr (h.trans (List.take_of_length_le hm.le).symm), Line.ofList_toList hm]

theorem low56_shr (d : Line) (e : BitVec 6) (l : List Byte) (h : e.toNat ≤ 57 ∨ l = []) :
    low56 (d.shr e.toNat) = joinBytes (lastSeven (l ++ d.toList.take (64 - e.toNat))) := by
  have he : e.toNat < 64 := e.isLt
  have hd := Line.toList_length d
  have hs : (d.shr e.toNat).toList = List.replicate e.toNat 0 ++ d.toList.take (64 - e.toNat) := by
    refine toList_ofList ?_ ?_
    · simp [hd]
      omega
    · rw [List.take_append, List.length_replicate, List.take_of_length_le (by simp; omega)]
  rw [low56, hs]
  refine congrArg (List.foldl _ 0) ?_
  by_cases h57 : e.toNat ≤ 57
  · rw [lastSeven_of_long (by simp [hd]; omega), List.drop_append, List.drop_of_length_le (by simpa using h57), List.nil_append]
    congr 1
    simp [hd]
    omega
  · obtain rfl := h.resolve_left h57
    rw [List.nil_append, lastSeven, List.drop_append, List.drop_append, List.drop_replicate, List.drop_replicate]
    simp only [List.length_replicate, List.length_take, hd]
    congr 2 <;> omega

theorem low56_or (c d : Line) (e : BitVec 6) (l : List Byte) :
    low56 ((c.shl (64 - e.toNat)).or (d.shr e.toNat)) =
      joinBytes (lastSeven (l ++ c.toList ++ d.toList.take (64 - e.toNat))) := by
  have he : e.toNat < 64 := e.isLt
  have hc := Line.toList_length c
  have hd := Line.toList_length d
  have hs : ((c.shl (64 - e.toNat)).or (d.shr e.toNat)).toList = c.toList.drop (64 - e.toNat) ++ d.toList.take (64 - e.toNat) := by
    have := Line.shl_or_shr c d (64 - e.toNat)
    rw [show 64 - (64 - e.toNat) = e.toNat by omega] at this
    rw [this]
    refine toList_ofList ?_ ?_
    · simp [hc, hd]
    · rw [List.take_append, List.take_of_length_le (by simp [hc]), List.length_drop, hc]
      congr 2
      omega
  rw [low56, hs, List.append_assoc, lastSeven_of_long (by simp [hc]; omega)]
  refine congrArg (List.foldl _ 0) ?_
  rw [List.drop_append, List.drop_append, List.drop_drop]
  simp only [List.length_append, List.length_drop, List.length_take, hc, hd]
  congr 2 <;> omega

theorem last7Bytes_eq (s : InputComp) (i : CompIn) (pre : List (Line × BitVec 6)) (hs : i.eth.sop = true ↔ pre = [])
    (hr : 57 < i.eth.empty.toNat → ∀ p ∈ pre.getLast?, s.ethDataR = p.1) :
    s.last7Bytes i =
      joinBytes (lastSeven (pre.flatMap (fun p => p.1.toList) ++ i.eth.data.toList.take (64 - i.eth.empty.toNat))) := by
  unfold last7Bytes
  by_cases he : i.eth.empty.toNat ≤ 57
  · rw [if_pos (by simp [he])]
    exact low56_shr _ _ _ (.inl he)
  rcases List.eq_nil_or_concat' pre with rfl | ⟨pre, p, rfl⟩
  · rw [if_pos (by simp [hs.2 rfl])]
    exact low56_shr _ _ _ (.inr rfl)
  · have hf : i.eth.sop = false := by simpa using hs
    rw [if_neg (by simp [he, hf]), hr (by omega) p (by simp), List.flatMap_append, List.flatMap_singleton]
    exact low56_or _ _ _ _

end InputComp

theorem EthFrame.metaOf_eq {f : EthFrame} {pre : List (Line × BitVec 6)} {p : Line × BitVec 6}
    (h : f.lines = pre ++ [p]) (id : PktId) :
    f.metaOf id =
      { Metadata.zero with
        pktID := id
        empty := p.2
        flits := BitVec.ofNat 5 (pre.length + 1)
        last7Bytes := joinBytes (lastSeven (pre.flatMap (fun p => p.1.toList) ++ p.1.toList.take (64 - p.2.toNat))) } := by
  have hl : f.lastLine = p := by simp [lastLine, h]
  simp [metaOf, bytes, hl, h]

/-! ## The wire and the free list -/

/-- A cycle: whether the next flit is on the wire (`idle` is there if not), and the
`pktID` at the head of the free list. -/
structure AdmitTick where
  offer : Bool
  idle : PktFlit
  free : Option PktId
  deriving DecidableEq

/-- `prev` is the line of the last flit that was on the wire, `found` what the first
flit of each frame found in the free list, `done` the number of frames that have ended. -/
structure AdmitSys where
  comp : InputComp
  eth : List PktFlit
  prev : Line
  found : List (Option PktId)
  done : Nat
  metas : List Metadata
  popped : List PktId

namespace AdmitSys

def reset (fs : List EthFrame) : AdmitSys where
  comp := .reset
  eth := fs.flatMap EthFrame.flits
  prev := vec fun _ => 0
  found := []
  done := 0
  metas := []
  popped := []

variable (s : AdmitSys) (i : AdmitTick)

def compIn : CompIn where
  ethValid := i.offer && !s.eth.isEmpty
  eth := if i.offer then s.eth.headD i.idle else i.idle
  emptylistValid := i.free.isSome
  emptylistData := i.free.getD 0

def step : AdmitSys :=
  let x := s.compIn i
  let c := s.comp.step x
  { comp := c
    eth := if x.ethValid then s.eth.tail else s.eth
    prev := if x.ethValid then x.eth.data else s.prev
    found := if x.ethValid && x.eth.sop then s.found ++ [i.free] else s.found
    done := if x.ethValid && x.eth.eop then s.done + 1 else s.done
    metas := if c.metaValid then s.metas ++ [c.metaData] else s.metas
    popped := if InputComp.emptylistReady x then s.popped ++ i.free.toList else s.popped }

/-- Every metadata word is that of a frame whose first flit found a `pktID`, in order,
and the ids taken are those of the metadata and of the frame on the wire. -/
structure Admitted (fs : List EthFrame) (s : AdmitSys) : Prop where
  started : s.done ≤ s.found.length ∧ s.found.length ≤ s.done + 1
  all : s.eth = [] → s.done = fs.length ∧ s.found.length = fs.length
  metas : s.metas = ((fs.take s.done).zip s.found).filterMap fun p => p.2.map p.1.metaOf
  popped : s.popped = s.metas.map Metadata.pktID ++ (s.found.drop s.done).reduceOption

def Locks : Prop := s.comp.lock = false ∧ (s.step i).comp.lock = true

def NoId : Prop := (s.compIn i).ethValid = true ∧ (s.compIn i).eth.sop = true ∧ i.free = none

instance : Decidable (s.Locks i) := inferInstanceAs (Decidable (_ ∧ _))

instance : Decidable (s.NoId i) := inferInstanceAs (Decidable (_ ∧ _))

/-- The free list stays there for the flits of an open frame and gives nothing behind
the lock, and a last flit of less than seven bytes follows its line on the bus. -/
structure Steady : Prop where
  open_frame : (s.compIn i).ethValid = true → (s.compIn i).eth.sop = false → s.comp.lock = false → i.free ≠ none
  locked : (s.compIn i).ethValid = true → (s.compIn i).eth.sop = true → s.comp.lock = true → i.free = none
  bus : (s.compIn i).ethValid = true → (s.compIn i).eth.sop = false → (s.compIn i).eth.eop = true →
    57 < (s.compIn i).eth.empty.toNat → s.comp.ethDataR = s.prev

instance : Decidable (s.Steady i) :=
  decidable_of_iff
    (((s.compIn i).ethValid = true → (s.compIn i).eth.sop = false → s.comp.lock = false → i.free ≠ none) ∧
      ((s.compIn i).ethValid = true → (s.compIn i).eth.sop = true → s.comp.lock = true → i.free = none) ∧
      ((s.compIn i).ethValid = true → (s.compIn i).eth.sop = false → (s.compIn i).eth.eop = true →
        57 < (s.compIn i).eth.empty.toNat → s.comp.ethDataR = s.prev))
    ⟨fun ⟨a, b, c⟩ => ⟨a, b, c⟩, fun ⟨a, b, c⟩ => ⟨a, b, c⟩⟩

/-! ## Frames in work -/

def metasOf (fs : List EthFrame) (found : List (Option PktId)) : List Metadata :=
  (fs.zip found).filterMap fun p => p.2.map p.1.metaOf

theorem metasOf_concat {fs : List EthFrame} {found : List (Option PktId)} (h : fs.length = found.length) (f : EthFrame)
    (o : Option PktId) : metasOf (fs ++ [f]) (found ++ [o]) = metasOf fs found ++ (o.map f.metaOf).toList := by
  rw [metasOf, List.zip_append h, List.filterMap_append]
  cases o <;> rfl

theorem metasOf_pktID {fs : List EthFrame} {found : List (Option PktId)} (h : fs.length = found.length) :
    (metasOf fs found).map Metadata.pktID = found.reduceOption := by
  induction fs generalizing found with
  | nil =>
    obtain rfl : found = [] := List.length_eq_zero_iff.1 h.symm
    rfl
  | cons f fs ih =>
    cases found with
    | nil => cases h
    | cons o found =>
      have := ih (Nat.succ.inj h)
      cases o with
      | none => simpa [metasOf] using this
      | some id => simpa [metasOf, EthFrame.metaOf] using this

structure Between (gone rest : List EthFrame) (s : AdmitSys) : Prop where
  eth : s.eth = rest.flatMap EthFrame.flits
  done : s.done = gone.length
  found : s.found.length = gone.length
  metas : s.metas = metasOf gone s.found
  popped : s.popped = s.found.reduceOption
  flits : s.comp.lock = false → s.comp.flits = 1

structure Within (gone rest : List EthFrame) (f : EthFrame) (pre post : List (Line × BitVec 6))
    (before : List (Option PktId)) (o : Option PktId) (s : AdmitSys) : Prop where
  lines : f.lines = pre ++ post
  ne_nil : pre ≠ [] ∧ post ≠ []
  eth : s.eth = ethFlits false post ++ rest.flatMap EthFrame.flits
  done : s.done = gone.length
  found : s.found = before ++ [o]
  length : before.length = gone.length
  metas : s.metas = metasOf gone before
  popped : s.popped = s.found.reduceOption
  prev : ∀ p ∈ pre.getLast?, s.prev = p.1
  lock : s.comp.lock = o.isNone
  comp : ∀ id ∈ o, s.comp.currentEmpty = id ∧ s.comp.flits = BitVec.ofNat 5 (pre.length + 1)

def Inv (fs : List EthFrame) (s : AdmitSys) : Prop :=
  ∃ gone rest, (fs = gone ++ rest ∧ Between gone rest s) ∨
    ∃ f pre post before o, fs = gone ++ f :: rest ∧ Within gone rest f pre post before o s

structure After (gone rest : List EthFrame) (f : EthFrame) (pre : List (Line × BitVec 6)) (p : Line × BitVec 6)
    (l : List (Line × BitVec 6)) (before : List (Option PktId)) (o : Option PktId) (s : AdmitSys) : Prop where
  lines : f.lines = pre ++ p :: l
  eth : s.eth = ethFlits false l ++ rest.flatMap EthFrame.flits
  done : s.done = if l.isEmpty then gone.length + 1 else gone.length
  found : s.found = before ++ [o]
  length : before.length = gone.length
  metas : s.metas = if l.isEmpty then metasOf gone before ++ (o.map f.metaOf).toList else metasOf gone before
  popped : s.popped = s.found.reduceOption
  prev : s.prev = p.1
  lock : s.comp.lock = o.isNone
  comp : ∀ id ∈ o, s.comp.currentEmpty = id ∧
    s.comp.flits = if l.isEmpty then 1 else BitVec.ofNat 5 (pre.length + 1 + 1)

variable {s : AdmitSys} {i : AdmitTick} {fs gone rest : List EthFrame} {f : EthFrame}
  {pre l : List (Line × BitVec 6)} {p : Line × BitVec 6} {before : List (Option PktId)} {o : Option PktId}

theorem After.inv (h : After gone rest f pre p l before o s) (hfs : fs = gone ++ f :: rest) : Inv fs s := by
  by_cases hl : l = []
  · subst hl
    refine ⟨gone ++ [f], rest, .inl ⟨by simp [hfs], ?_⟩⟩
    refine ⟨by simpa [ethFlits] using h.eth, by simpa using h.done, by simp [h.found, h.length], ?_, h.popped, ?_⟩
    · rw [h.metas, h.found, metasOf_concat h.length.symm]
      rfl
    · intro hk
      rw [h.lock] at hk
      obtain ⟨id, rfl⟩ : ∃ id, o = some id := Option.isSome_iff_exists.1 (by simpa using hk)
      exact (h.comp id rfl).2
  · have he : l.isEmpty = false := by simpa using hl
    have hd := h.done
    have hm := h.metas
    have hc := h.comp
    simp only [he, Bool.false_eq_true, if_false] at hd hm hc
    refine ⟨gone, rest, .inr ⟨f, pre ++ [p], l, before, o, hfs, ?_⟩⟩
    exact ⟨by simp [h.lines], ⟨by simp, hl⟩, h.eth, hd, h.found, h.length, hm, h.popped, by simp [h.prev], h.lock,
      by simpa using hc⟩

/-! ## One cycle -/

theorem step_idle (h : (s.compIn i).ethValid = false) (hi : Inv fs s) : Inv fs (s.step i) := by
  have ha : s.comp.accepts (s.compIn i) = false := by simp [InputComp.accepts, h]
  have hc : (s.step i).comp = { s.comp.step (s.compIn i) with lock := s.comp.lock } := by
    simp [step, InputComp.step, h]
  have hs : s.step i = { s with comp := s.comp.step (s.compIn i) } := by
    simp [step, InputComp.step, InputComp.emptylistReady, h, ha]
  obtain ⟨gone, rest, ⟨hfs, h⟩ | ⟨f, pre, post, before, o, hfs, h⟩⟩ := hi
  · refine ⟨gone, rest, .inl ⟨hfs, ?_⟩⟩
    rw [hs]
    exact ⟨h.eth, h.done, h.found, h.metas, h.popped, by simpa [InputComp.step, ha, *] using h.flits⟩
  · refine ⟨gone, rest, .inr ⟨f, pre, post, before, o, hfs, ?_⟩⟩
    rw [hs]
    exact ⟨h.lines, h.ne_nil, h.eth, h.done, h.found, h.length, h.metas, h.popped, h.prev,
      by simpa [InputComp.step, *] using h.lock, by simpa [InputComp.step, ha] using h.comp⟩

theorem compIn_eth {x : PktFlit} {k : List PktFlit} (hv : (s.compIn i).ethValid = true) (h : s.eth = x :: k) :
    (s.compIn i).eth = x := by
  have ho : i.offer = true := (Bool.and_eq_true_iff.1 hv).1
  simp [compIn, ho, h]

@[simp] theorem compIn_emptylistValid : (s.compIn i).emptylistValid = i.free.isSome := rfl

@[simp] theorem compIn_emptylistData : (s.compIn i).emptylistData = i.free.getD 0 := rfl

theorem after_flit (hv : (s.compIn i).ethValid = true) (hl : f.lines = pre ++ p :: l)
    (he : s.eth = ⟨pre.isEmpty, l.isEmpty, p.2, p.1⟩ :: (ethFlits false l ++ rest.flatMap EthFrame.flits))
    (hd : s.done = gone.length) (hm : s.metas = metasOf gone before) (hn : before.length = gone.length)
    (hf : (if pre.isEmpty then s.found ++ [i.free] else s.found) = before ++ [o]) (hp : s.popped = s.found.reduceOption)
    (hacc : (!s.comp.lock && i.free.isSome) = o.isSome)
    (hid : ∀ id ∈ o, (if pre.isEmpty then i.free.getD 0 else s.comp.currentEmpty) = id ∧
      s.comp.flits = BitVec.ofNat 5 (pre.length + 1))
    (hbus : l = [] → 57 < p.2.toNat → ∀ q ∈ pre.getLast?, s.comp.ethDataR = q.1) :
    After gone rest f pre p l before o (s.step i) := by
  have hx := compIn_eth hv he
  have ha : s.comp.accepts (s.compIn i) = o.isSome := by
    simp [← hacc, InputComp.accepts, hv]
  have hmeta : (s.comp.step (s.compIn i)).metaValid = (o.isSome && l.isEmpty) := by simp [InputComp.step, ha, hx]
  refine ⟨hl, ?_, ?_, ?_, hn, ?_, ?_, ?_, ?_, ?_⟩
  · simp [step, hv, he]
  · simp [step, hv, hx, hd]
  · simpa [step, hv, hx] using hf
  · simp only [step, hmeta, hm]
    by_cases hlast : l = []
    · subst hlast
      cases o with
      | none => simp
      | some id =>
        have h7 := s.comp.last7Bytes_eq (s.compIn i) pre (by simp [hx]) (by simpa [hx] using hbus rfl)
        obtain ⟨h1, h2⟩ := hid id rfl
        rw [hx] at h7
        simpa [InputComp.step, ha, hx, EthFrame.metaOf_eq hl, h2, h7] using h1
    · simp [hlast]
  · -- the free list is popped with every first flit
    simp only [step, InputComp.emptylistReady, hv, hx, hp, Bool.true_and]
    by_cases h0 : pre = []
    · cases hfr : i.free <;> simp [h0, List.reduceOption_append]
    · simp [h0]
  · simp [step, hv, hx]
  · have hk : (s.step i).comp.lock = !(!s.comp.lock && i.free.isSome) := by simp [step, InputComp.step, hv]
    rw [hk, hacc, Option.not_isSome]
  · rintro id rfl
    obtain ⟨h1, h2⟩ := hid id rfl
    refine ⟨by simpa [step, InputComp.step, ha, hx] using h1, ?_⟩
    simp only [step, InputComp.step, ha, hx, h2]
    cases l <;> simp [BitVec.ofNat_add]

theorem inv_step (s : AdmitSys) (i : AdmitTick) (h : Inv fs s) (hs : s.Steady i) : Inv fs (s.step i) := by
  by_cases hv : (s.compIn i).ethValid = true
  swap
  · exact step_idle (by simpa using hv) h
  have hne : s.eth ≠ [] := by simpa using (Bool.and_eq_true_iff.1 hv).2
  obtain ⟨gone, rest, ⟨hfs, h⟩ | ⟨f, pre, post, before, o, hfs, h⟩⟩ := h
  · -- between two frames
    cases rest with
    | nil => exact absurd (by simpa using h.eth) hne
    | cons f rest =>
      obtain ⟨p, l, hl⟩ := List.exists_cons_of_ne_nil f.ne_nil
      have he : s.eth = ⟨true, l.isEmpty, p.2, p.1⟩ :: (ethFlits false l ++ rest.flatMap EthFrame.flits) := by
        rw [h.eth, List.flatMap_cons, EthFrame.flits, hl, ethFlits_cons, List.cons_append]
      have hx := compIn_eth hv he
      suffices ha : After gone rest f [] p l s.found i.free (s.step i) from ha.inv hfs
      refine after_flit hv hl he h.done h.metas h.found rfl h.popped ?_ ?_ nofun
      · cases hk : s.comp.lock with
        | false => simp
        | true => simp [hs.locked hv (by rw [hx]) hk]
      · intro id hid
        refine ⟨by simp_all, h.flits ?_⟩
        by_contra hk
        rw [hs.locked hv (by rw [hx]) (by simpa using hk)] at hid
        cases hid
  · -- inside a frame, whose flits are all taken or all passed over
    obtain ⟨p, l, rfl⟩ := List.exists_cons_of_ne_nil h.ne_nil.2
    have hpre : pre.isEmpty = false := by simpa using h.ne_nil.1
    have he : s.eth = ⟨pre.isEmpty, l.isEmpty, p.2, p.1⟩ :: (ethFlits false l ++ rest.flatMap EthFrame.flits) := by
      rw [h.eth, ethFlits_cons, List.cons_append, hpre]
    have hx := compIn_eth hv he
    have hsop : (s.compIn i).eth.sop = false := by rw [hx, ← hpre]
    refine (after_flit hv h.lines he h.done h.metas h.length (by simpa [hpre] using h.found) h.popped ?_ ?_ ?_).inv hfs
    · rw [h.lock]
      cases o with
      | none => rfl
      | some id =>
        have := hs.open_frame hv hsop (by rw [h.lock]; rfl)
        simpa [Option.isSome_iff_ne_none] using this
    · simpa [hpre] using h.comp
    · rintro rfl hp q hq
      rw [← h.prev q hq]
      exact hs.bus hv hsop (by rw [hx]; rfl) (by rwa [hx])

theorem Inv.admitted (h : Inv fs s) : Admitted fs s := by
  obtain ⟨gone, rest, ⟨rfl, h⟩ | ⟨f, pre, post, before, o, rfl, h⟩⟩ := h
  · have hn : gone.length = s.found.length := h.found.symm
    refine ⟨by rw [h.done, h.found]; omega, fun he => ?_, ?_, ?_⟩
    · rw [h.eth] at he
      cases rest with
      | nil => simp [h.done, h.found]
      | cons f rest =>
        obtain ⟨p, l, hl⟩ := List.exists_cons_of_ne_nil f.ne_nil
        simp [EthFrame.flits, hl, ethFlits_cons] at he
    · rw [h.metas, h.done, List.take_left]
      rfl
    · rw [h.popped, h.metas, metasOf_pktID hn, h.done, hn, List.drop_length]
      simp
  · obtain ⟨p, l, rfl⟩ := List.exists_cons_of_ne_nil h.ne_nil.2
    refine ⟨by simp [h.done, h.found, h.length], fun he => ?_, ?_, ?_⟩
    · rw [h.eth, ethFlits_cons] at he
      cases he
    · rw [h.metas, h.done, h.found, List.take_left, ← List.append_nil gone, List.zip_append (by simpa using h.length.symm)]
      simp [metasOf]
    · rw [h.popped, h.metas, metasOf_pktID h.length.symm, h.found, h.done, ← h.length, List.drop_left,
        List.reduceOption_append]

theorem reset_inv (fs : List EthFrame) : Inv fs (reset fs) :=
  ⟨[], fs, .inl ⟨rfl, rfl, rfl, rfl, rfl, rfl, fun _ => rfl⟩⟩

theorem noId_of_locks (s : AdmitSys) (i : AdmitTick) (hs : s.Steady i) (h : s.Locks i) : s.NoId i := by
  obtain ⟨h0, h1⟩ := h
  have hl : (s.compIn i).ethValid = true ∧ i.free = none := by
    simpa [step, InputComp.step, h0, compIn] using h1
  refine ⟨hl.1, ?_, hl.2⟩
  by_contra hc
  exact hs.open_frame hl.1 (by simpa using hc) h0 hl.2

/-- A frame whose first flit finds a `pktID` gives one metadata word with its own data,
and no `pktID` is taken for another. -/
theorem frames_admitted (fs : List EthFrame) (is : List AdmitTick)
    (hs : AllSteps step Steady (reset fs) is) :
    AllSteps step (fun s i => s.Locks i → s.NoId i) (reset fs) is ∧ Admitted fs (run step (reset fs) is) :=
  ⟨allSteps_of_inv step inv_step (fun s i _ => noId_of_locks s i) is _ (reset_inv fs) hs,
    (run_inv step inv_step is _ (reset_inv fs) hs).admitted⟩

/-! ## Concrete frames -/

def lineOf (b : Byte) : Line := vec fun _ => b

/-- A frame of two lines, with four bytes in the second one. -/
def twoLines : EthFrame := ⟨[(lineOf 1, 0), (lineOf 2, 60)], by simp, by simp⟩

def oneLine : EthFrame := ⟨[(lineOf 3, 4)], by simp, by simp⟩

def onWire (o : Option PktId) : AdmitTick := ⟨true, PktDataShift.zeroFlit, o⟩

def offWire (o : Option PktId) : AdmitTick := ⟨false, PktDataShift.zeroFlit, o⟩

theorem frames_admitted_two :
    AllSteps step Steady (reset [twoLines, oneLine, oneLine])
        [onWire (some 3), onWire (some 4), offWire none, onWire (some 4), onWire none] ∧
      Admitted [twoLines, oneLine, oneLine]
        (run step (reset [twoLines, oneLine, oneLine])
          [onWire (some 3), onWire (some 4), offWire none, onWire (some 4), onWire none]) :=
  ⟨by decide +kernel, (frames_admitted _ _ (by decide +kernel)).2⟩

/-- The free list runs empty in a frame and the frame is lost; an idle cycle in front of
the last flit puts other bytes into its metadata; an id is taken behind the lock. -/
theorem frames_not_admitted :
    (¬ AllSteps step (fun s i => s.Locks i → s.NoId i) (reset [twoLines]) [onWire (some 3), onWire none] ∧
      ¬ Admitted [twoLines] (run step (reset [twoLines]) [onWire (some 3), onWire none])) ∧
    ¬ Admitted [twoLines] (run step (reset [twoLines]) [onWire (some 3), offWire (some 4), onWire (some 4)]) ∧
    ¬ Admitted [oneLine, oneLine] (run step (reset [oneLine, oneLine]) [onWire none, onWire (some 5)]) := by
  refine ⟨⟨by decide +kernel, fun h => ?_⟩, fun h => ?_, fun h => ?_⟩
  · exact absurd h.metas (by decide +kernel)
  · exact absurd h.metas (by decide +kernel)
  · exact absurd h.popped (by decide +kernel)

end AdmitSys

end Pigasus
