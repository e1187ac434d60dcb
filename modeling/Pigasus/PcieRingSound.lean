import Pigasus.PcieRing

/-!
# The host processes the PDUs that the FPGA hands over

Slots are counted from the start of the run; the place of slot `n` in the ring is
`n % bufferSize`. Behind each stale copy of a pointer is a count, and the counts
stay in order.
-/

namespace Pigasus

open Hdl

/-! ## Places in the ring -/

def place (n : Nat) : Nat := n % bufferSize

theorem place_lt (n : Nat) : place n < bufferSize := Nat.mod_lt _ (by decide)

theorem place_add {n k : Nat} (h : place n + k < bufferSize) : place (n + k) = place n + k := by
  simp only [place, bufferSize] at *
  omega

theorem place_add_wrap {n k : Nat} (h : bufferSize ≤ place n + k) (hk : k ≤ bufferSize) : place (n + k) = place n + k - bufferSize := by
  simp only [place, bufferSize] at *
  omega

theorem place_ne {a n b : Nat} (h1 : a ≤ n) (h2 : n < b) (h3 : b < a + bufferSize) : place n ≠ place b := by
  simp only [place, bufferSize] at *
  omega

theorem newTail_place {n k : Nat} (hk : k < bufferSize) : newTail (place n) k = place (n + k) := by
  unfold newTail
  by_cases h : place n + k ≥ bufferSize
  · rw [if_pos h]
    simp only [place, bufferSize] at *
    omega
  · rw [if_neg h]
    simp only [place, bufferSize] at *
    omega

theorem freeSlot_place {h n : Nat} (h1 : h ≤ n) (h2 : n < h + bufferSize) : freeSlot (place h) (place n) + 1 + n = h + bufferSize := by
  unfold freeSlot
  by_cases hp : place n ≥ place h
  · rw [if_pos hp]
    simp only [place, bufferSize] at *
    omega
  · rw [if_neg hp]
    simp only [place, bufferSize] at *
    omega

theorem lowSize_place {n k : Nat} (hk : k < 4096) (h : place n + k > bufferSize) :
    lowSize (place n) + place n = bufferSize ∧ highSize (place n) k + lowSize (place n) = k := by
  have := place_lt n
  simp only [lowSize, highSize, bufferSize] at *
  omega

/-! ## The stream of slots -/

def slotsOf (ps : List Pdu) : List (BitVec 512) := ps.flatMap Pdu.slots

def total (ps : List Pdu) : Nat := (slotsOf ps).length

theorem slotsOf_append (a b : List Pdu) : slotsOf (a ++ b) = slotsOf a ++ slotsOf b := List.flatMap_append

theorem total_append (a b : List Pdu) : total (a ++ b) = total a + total b := by
  rw [total, slotsOf_append, List.length_append]
  rfl

theorem getElem?_mono {a : List Pdu} (b : List Pdu) {n : Nat} {d : BitVec 512} (h : (slotsOf a)[n]? = some d) :
    (slotsOf (a ++ b))[n]? = some d := by
  rw [slotsOf_append, List.getElem?_append_left (List.getElem?_eq_some_iff.1 h).1]
  exact h

def Ends (ps : List Pdu) (n : Nat) : Prop := ∃ a b, ps = a ++ b ∧ n = total a

theorem Ends.mono {ps : List Pdu} {n : Nat} (h : Ends ps n) (qs : List Pdu) : Ends (ps ++ qs) n := by
  obtain ⟨a, b, rfl, rfl⟩ := h
  exact ⟨a, b ++ qs, List.append_assoc .., rfl⟩

theorem Ends.total (ps : List Pdu) : Ends ps (total ps) := ⟨ps, [], (List.append_nil _).symm, rfl⟩

theorem Ends.next {a b : List Pdu} {n : Nat} (h : Ends (a ++ b) n) (hn : Pigasus.total a < n) :
    ∃ p l, b = p :: l ∧ Pigasus.total a + p.slots.length ≤ n := by
  obtain ⟨a', b', he, rfl⟩ := h
  rcases List.append_eq_append_iff.1 he with ⟨l, rfl, rfl⟩ | ⟨l, rfl, rfl⟩
  · cases l with
    | nil => simp at hn
    | cons p l =>
      refine ⟨p, l ++ b', rfl, ?_⟩
      rw [total_append]
      simp [Pigasus.total, slotsOf]
  · rw [total_append] at hn
    omega

/-! ## Writes and operations on their way -/

/-- The writes bring the slots from `n` to `m`, each to its place, and tails at the ends of PDUs. -/
inductive Brings (ps : List Pdu) : Nat → List HostWrite → Nat → Prop
  | nil (n : Nat) : Brings ps n [] n
  | slot {n d l m} : (slotsOf ps)[n]? = some d → Brings ps (n + 1) l m → Brings ps n (.slot (place n) d :: l) m
  | tail {n l m} : Ends ps n → Brings ps n l m → Brings ps n (.tail (place n) :: l) m

/-- The operations do; `first` is the count of the first slot of the block, which is at `base`. -/
inductive Fetches (ps : List Pdu) (first base : Nat) : Nat → List MoverOp → Nat → Prop
  | nil (n : Nat) : Fetches ps first base n [] n
  | read {n l m} : first ≤ n → Fetches ps first base (n + 1) l m → Fetches ps first base n (.read (base + (n - first)) (place n) :: l) m
  | tail {n l m} : Ends ps n → Fetches ps first base n l m → Fetches ps first base n (.tail (place n) :: l) m

section
variable {ps : List Pdu} {first base n m k : Nat} {l l₁ l₂ : List MoverOp} {ws : List HostWrite}

theorem Brings.mono (h : Brings ps n ws m) (qs : List Pdu) : Brings (ps ++ qs) n ws m := by
  induction h with
  | nil n => exact .nil n
  | slot hd _ ih => exact .slot (getElem?_mono qs hd) ih
  | tail he _ ih => exact .tail (he.mono qs) ih

theorem Brings.append {ws' : List HostWrite} (h : Brings ps n ws m) (h' : Brings ps m ws' k) : Brings ps n (ws ++ ws') k := by
  induction h with
  | nil n => exact h'
  | slot hd _ ih => exact .slot hd (ih h')
  | tail he _ ih => exact .tail he (ih h')

theorem Brings.le (h : Brings ps n ws m) : n ≤ m := by
  induction h with
  | nil n => exact Nat.le_refl n
  | slot _ _ ih => omega
  | tail _ _ ih => exact ih

theorem Fetches.le (h : Fetches ps first base n l m) : n ≤ m := by
  induction h with
  | nil n => exact Nat.le_refl n
  | read _ _ ih => omega
  | tail _ _ ih => exact ih

theorem Fetches.append (h : Fetches ps first base n l₁ m) (h' : Fetches ps first base m l₂ k) : Fetches ps first base n (l₁ ++ l₂) k := by
  induction h with
  | nil n => exact h'
  | read hf _ ih => exact .read hf (ih h')
  | tail he _ ih => exact .tail he (ih h')

theorem Fetches.quiet (h : Fetches ps first base n l m) (hn : n = m) (qs : List Pdu) (f b : Nat) : Fetches (ps ++ qs) f b n l m := by
  induction h with
  | nil n => exact .nil n
  | read _ h _ =>
    have := h.le
    omega
  | tail he _ ih => exact .tail (he.mono qs) (ih hn)

theorem Fetches.quiet_left (h : Fetches ps first base n (l₁ ++ l₂) m) (hn : n = m) : Fetches ps first base n l₁ m := by
  induction l₁ generalizing n with
  | nil =>
    subst hn
    exact .nil n
  | cons o l₁ ih =>
    cases h with
    | read _ h =>
      have := h.le
      omega
    | tail he h => exact .tail he (ih h hn)

theorem fetches_readOps (hf : first ≤ n) (hk : place n + k ≤ bufferSize) :
    Fetches ps first base n (readOps (base + (n - first)) (place n) k) (n + k) := by
  induction k generalizing n with
  | zero => exact .nil n
  | succ k ih =>
    refine .read hf ?_
    rw [show base + (n - first) + 1 = base + (n + 1 - first) by omega, show n + (k + 1) = n + 1 + k by omega]
    cases k with
    | zero => exact .nil _
    | succ k =>
      have hp : place (n + 1) = place n + 1 := place_add (by omega)
      rw [← hp]
      exact ih (by omega) (by omega)

end

theorem nextOp_ops (ds : List Desc) : (nextOp ds).1.toList ++ (nextOp ds).2.flatMap Desc.ops = ds.flatMap Desc.ops := by
  cases ds with
  | nil => rfl
  | cons d l =>
    cases d with
    | done v => rfl
    | data src dst n =>
      cases n with
      | zero => rfl
      | succ n => rfl

namespace PcieSys

variable {s : PcieSys} {n q first base' : Nat}

def queued (s : PcieSys) : List MoverOp := s.rd2.toList ++ s.rd1.toList ++ s.descs.flatMap Desc.ops

def held (s : PcieSys) : List MoverOp := if s.f2c.descValid then s.f2c.descData.ops else []

theorem clock_queued (s : PcieSys) (c : ClockIn) : (s.clock c).queued =
    s.rd1.toList ++ s.descs.flatMap Desc.ops ++ if c.descReady then s.held else [] := by
  have hn : (if c.fetch then nextOp s.descs else (none, s.descs)).1.toList ++
      (if c.fetch then nextOp s.descs else (none, s.descs)).2.flatMap Desc.ops = s.descs.flatMap Desc.ops := by
    split
    · exact nextOp_ops s.descs
    · rfl
  have hh : (if s.f2c.descValid && c.descReady then [s.f2c.descData] else []).flatMap Desc.ops = if c.descReady then s.held else [] := by
    cases hv : s.f2c.descValid <;> cases hr : c.descReady <;> simp [held, hv]
  simp only [queued, clock, List.flatMap_append, hh]
  rw [← hn]
  simp only [List.append_assoc]

theorem respond {w : Nat} (hw : Brings s.handed w s.writes n) {l : List MoverOp} (h : Fetches s.handed first s.base n (s.rd2.toList ++ l) q)
    (hd : n < q → first ≤ n → (slotsOf s.handed)[n]? = some (s.ringRead (s.base + (n - first)))) :
    ∃ n', n ≤ n' ∧ Brings s.handed w (s.writes ++ s.response s.rd2) n' ∧ Fetches s.handed first s.base n' l q ∧
      ∀ a d, s.rd2 = some (.read a d) → a = s.base + (n - first) ∧ n' = n + 1 ∧ first ≤ n := by
  cases hr : s.rd2 with
  | none =>
    rw [hr] at h
    refine ⟨n, Nat.le_refl n, ?_, h, by simp⟩
    simpa [response] using hw
  | some o =>
    rw [hr] at h
    cases h with
    | read hf h =>
      refine ⟨n + 1, by omega, hw.append (.slot (hd ?_ hf) (.nil _)), h, ?_⟩
      · have := h.le
        omega
      · intro a d he
        cases he
        exact ⟨rfl, rfl, hf⟩
    | tail he h => exact ⟨n, Nat.le_refl n, hw.append (.tail he (.nil _)), h, by simp⟩

/-- The block was handed over last, and its first slot has the count `first`. -/
def Current (s : PcieSys) (b : PduBlock) (first : Nat) : Prop := s.block = some b ∧ ∃ old, s.handed = old ++ b.pdus ∧ first = total old

section
variable {b : PduBlock}

theorem Current.total (h : s.Current b first) : Pigasus.total s.handed = first + b.size := by
  obtain ⟨_, old, ho, rfl⟩ := h
  rw [ho, total_append]
  rfl

theorem Current.read (h : s.Current b first) {k : Nat} (h1 : first ≤ k) (h2 : k < first + b.size) :
    (slotsOf s.handed)[k]? = some (s.ringRead (s.base + (k - first))) := by
  obtain ⟨hb, old, ho, rfl⟩ := h
  have hlt : k - Pigasus.total old < b.slots.length := by
    have : b.size = b.slots.length := rfl
    omega
  rw [ho, slotsOf_append, List.getElem?_append_right h1]
  show b.slots[k - Pigasus.total old]? = _
  simp only [ringRead, hb, Option.map_some, Option.getD_some, Nat.add_sub_cancel_left]
  rw [List.getD_eq_getElem?_getD, List.getElem?_eq_getElem hlt]
  rfl

theorem size_lt (b : PduBlock) : b.size < 4096 := by
  have := b.fits
  have h : b.size = (b.pdus.flatMap Pdu.slots).length := rfl
  omega

end

/-- Where the transfer of the last block is; `q` counts the slots whose descriptors are made, `n` those that are fetched. -/
inductive Stage (s : PcieSys) (n q first : Nat) : Prop
  | ended (hs : s.f2c.state = .idle) (wait : s.ringWait = true) (start : s.dmaStart = false) (done : s.f2c.dmaDone = true)
      (out : s.f2c.outTail = place q) (tot : q = total s.handed) (quiet : n = q)
  | idle (hs : s.f2c.state = .idle) (wait : s.ringWait = false) (start : s.dmaStart = false) (done : s.f2c.dmaDone = false)
      (valid : s.f2c.descValid = false) (tail0 : s.tail0 = place q) (tot : q = total s.handed) (quiet : n = q)
  | started (b : PduBlock) (cur : s.Current b q) (hs : s.f2c.state = .idle) (wait : s.ringWait = true) (start : s.dmaStart = true)
      (done : s.f2c.dmaDone = false) (valid : s.f2c.descValid = false) (tail0 : s.tail0 = place q) (quiet : n = q)
  | desc (b : PduBlock) (cur : s.Current b q) (hs : s.f2c.state = .desc) (wait : s.ringWait = true) (start : s.dmaStart = false)
      (done : s.f2c.dmaDone = false) (valid : s.f2c.descValid = false) (size : s.f2c.sizeR = b.size) (tail0 : s.tail0 = place q)
      (tail : s.tail = place q) (quiet : n = q)
  | descWrap (b : PduBlock) (cur : s.Current b first) (hs : s.f2c.state = .descWrap) (wait : s.ringWait = true)
      (start : s.dmaStart = false) (done : s.f2c.dmaDone = false) (size : s.f2c.sizeR = b.size) (tail0 : s.tail0 = place first)
      (tail : s.tail = place first) (wrap : place first + b.size > bufferSize) (hq : q = first + lowSize (place first))
  | done (b : PduBlock) (cur : s.Current b first) (hs : s.f2c.state = .done) (wait : s.ringWait = true) (start : s.dmaStart = false)
      (done : s.f2c.dmaDone = false) (size : s.f2c.sizeR = b.size) (tail0 : s.tail0 = place first) (tail : s.tail = place first)
      (hq : q = first + b.size)
  | wait (b : PduBlock) (cur : s.Current b first) (hs : s.f2c.state = .wait) (wait : s.ringWait = true) (start : s.dmaStart = false)
      (done : s.f2c.dmaDone = false) (size : s.f2c.sizeR = b.size) (out : s.f2c.outTail = place q) (hq : q = first + b.size)

/-- The FPGA's side: `w` slots are written, `h` are released as far as the FPGA knows. -/
structure Moves (s : PcieSys) (h w n q first : Nat) : Prop where
  brings : Brings s.handed w s.writes n
  fetches : Fetches s.handed first s.base n (s.queued ++ s.held) q
  stage : s.Stage n q first
  head : s.head = place h
  le : h ≤ q
  room : q < h + bufferSize
  -- the second descriptor of a block is not checked again
  wrapRoom : s.f2c.state = .descWrap → total s.handed < h + bufferSize

theorem Stage.read (h : s.Stage n q first) (hn : n < q) (hf : first ≤ n) :
    (slotsOf s.handed)[n]? = some (s.ringRead (s.base + (n - first))) := by
  cases h with
  | ended hs wait start done out tot quiet => omega
  | idle hs wait start done valid tail0 tot quiet => omega
  | started b cur hs wait start done valid tail0 quiet => omega
  | desc b cur hs wait start done valid size tail0 tail quiet => omega
  | descWrap b cur hs wait start done size tail0 tail wrap hq =>
    have := lowSize_place (size_lt b) wrap
    exact cur.read hf (by omega)
  | done b cur hs wait start done size tail0 tail hq => exact cur.read hf (by omega)
  | wait b cur hs wait start done size out hq => exact cur.read hf (by omega)

section
variable {h w : Nat} (c : ClockIn)

/-- What is on its way behind the operation that comes to its end. -/
def rest (s : PcieSys) : List MoverOp := s.rd1.toList ++ s.descs.flatMap Desc.ops

theorem ops_eq (s : PcieSys) : s.queued ++ s.held = s.rd2.toList ++ (s.rest ++ s.held) := by
  simp only [queued, rest, List.append_assoc]

theorem taken_of_wait (hw : s.ringWait = true) : s.taken c = none := by simp [taken, hw]

theorem clock_handed (hw : s.ringWait = true) : (s.clock c).handed = s.handed := by simp [clock, taken_of_wait c hw]

theorem clock_block (hw : s.ringWait = true) : (s.clock c).block = s.block := by simp [clock, taken_of_wait c hw]

theorem clock_base (hw : s.ringWait = true) : (s.clock c).base = s.base := by rw [base, clock_block c hw, base]

theorem clock_current {b : PduBlock} (hw : s.ringWait = true) (hc : s.Current b first) : (s.clock c).Current b first := by
  rw [Current, clock_block c hw, clock_handed c hw]
  exact hc

theorem clock_fetches {q' : Nat} (hw : s.ringWait = true) (hf : Fetches s.handed first s.base n (s.rest ++ s.held) q)
    (hk : c.descReady = false → s.held = (s.clock c).held ∧ q' = q)
    (hn : c.descReady = true → Fetches s.handed first s.base q (s.clock c).held q') :
    Fetches (s.clock c).handed first (s.clock c).base n ((s.clock c).queued ++ (s.clock c).held) q' := by
  rw [clock_handed c hw, clock_base c hw, clock_queued]
  cases hr : c.descReady with
  | false =>
    obtain ⟨h1, rfl⟩ := hk hr
    rw [← h1]
    simpa [rest] using hf
  | true =>
    have := hf.append (hn hr)
    simpa [rest, List.append_assoc] using this

structure Answered (s : PcieSys) (h w n n' q first : Nat) : Prop where
  moves : s.Moves h w n q first
  brings : Brings s.handed w (s.writes ++ s.response s.rd2) n'
  fetches : Fetches s.handed first s.base n' (s.rest ++ s.held) q
  le : n ≤ n'
  read : ∀ a d, s.rd2 = some (.read a d) → a = s.base + (n - first) ∧ n' = n + 1 ∧ first ≤ n

theorem Moves.answered (hm : s.Moves h w n q first) : ∃ n', s.Answered h w n n' q first := by
  have hf := hm.fetches
  rw [ops_eq] at hf
  obtain ⟨n', hle, hb, hf, hr⟩ := respond hm.brings hf hm.stage.read
  exact ⟨n', hm, hb, hf, hle, hr⟩

theorem clock_working (wait : s.ringWait = true) (done : s.f2c.dmaDone = false) :
    (s.clock c).ringWait = true ∧ (s.clock c).dmaStart = false := by
  simp [PcieSys.clock, wait, done]

theorem clock_tails {k : Nat} (done : s.f2c.dmaDone = false) (tail0 : s.tail0 = place k) :
    (s.clock c).tail0 = place k ∧ (s.clock c).tail = place k := by
  simp [PcieSys.clock, done, tail0]

section
variable {n' : Nat} {b : PduBlock} (ha : s.Answered h w n n' q first)
include ha

theorem Answered.brings_clock (wait : s.ringWait = true) : Brings (s.clock c).handed w (s.clock c).writes n' := by
  rw [clock_handed c wait]
  exact ha.brings

theorem Answered.eq_of_quiet (quiet : n = q) : n' = q := by
  have h1 := ha.le
  have h2 := ha.fetches.le
  omega

theorem Answered.ended (hs : s.f2c.state = .idle) (wait : s.ringWait = true)
    (start : s.dmaStart = false) (done : s.f2c.dmaDone = true) (out : s.f2c.outTail = place q) (tot : q = total s.handed)
    (quiet : n = q) :
    ∃ n' q' first', (s.clock c).Moves h w n' q' first' := by
  have hf := ha.fetches
  obtain rfl : n' = q := ha.eq_of_quiet quiet
  have hheld : (s.clock c).held = [] := by simp [held, PcieSys.clock, Fpga2Cpu.step, hs]
  refine ⟨n', n', first, ha.brings_clock c wait, ?_, .idle ?_ ?_ ?_ ?_ ?_ ?_ (by rw [clock_handed c wait]; exact tot) rfl,
    ha.moves.head, ha.moves.le, ha.moves.room, ?_⟩
  · rw [clock_handed c wait, clock_base c wait, clock_queued, hheld, List.append_nil]
    cases c.descReady with
    | false => simpa [rest] using hf.quiet_left rfl
    | true => exact hf
  all_goals simp [PcieSys.clock, Fpga2Cpu.step, hs, f2cIn, start, wait, done, out]

theorem Answered.idle (hs : s.f2c.state = .idle) (wait : s.ringWait = false)
    (start : s.dmaStart = false) (done : s.f2c.dmaDone = false) (valid : s.f2c.descValid = false) (tail0 : s.tail0 = place q)
    (tot : q = total s.handed) (quiet : n = q) :
    ∃ n' q' first', (s.clock c).Moves h w n' q' first' := by
  have hf := ha.fetches
  obtain rfl : n' = q := ha.eq_of_quiet quiet
  have hheld : s.held = [] := by simp [held, valid]
  have hheld' : (s.clock c).held = [] := by simp [held, PcieSys.clock, Fpga2Cpu.step, hs]
  have hhanded : (s.clock c).handed = s.handed ++ ((s.taken c).map PduBlock.pdus).getD [] := rfl
  have hstate : (s.clock c).f2c.state = .idle := by simp [PcieSys.clock, Fpga2Cpu.step, hs, f2cIn, start]
  have hdone : (s.clock c).f2c.dmaDone = false := by simp [PcieSys.clock, Fpga2Cpu.step, hs]
  have hvalid : (s.clock c).f2c.descValid = false := by simp [PcieSys.clock, Fpga2Cpu.step, hs]
  have htail0 : (s.clock c).tail0 = place n' := by simp [PcieSys.clock, done, tail0]
  refine ⟨n', n', first, ?_, ?_, ?_, ha.moves.head, ha.moves.le, ha.moves.room, by simp [hstate]⟩
  · rw [hhanded]
    exact ha.brings.mono _
  · rw [hhanded, hheld', List.append_nil, clock_queued, hheld, ite_self, List.append_nil]
    rw [hheld, List.append_nil] at hf
    exact hf.quiet rfl _ _ _
  · cases ht : s.taken c with
    | none =>
      rw [ht] at hhanded
      exact .idle hstate (by simp [PcieSys.clock, wait, ht]) (by simp [PcieSys.clock, wait, ht, start]) hdone hvalid htail0
        (by rw [hhanded]; simpa using tot) rfl
    | some b =>
      rw [ht] at hhanded
      refine .started b ⟨?_, s.handed, hhanded, tot⟩ hstate ?_ ?_ hdone hvalid htail0 rfl
      all_goals simp [PcieSys.clock, wait, ht]

theorem Answered.started (cur : s.Current b q) (hs : s.f2c.state = .idle)
    (wait : s.ringWait = true) (start : s.dmaStart = true) (done : s.f2c.dmaDone = false) (valid : s.f2c.descValid = false)
    (tail0 : s.tail0 = place q) (quiet : n = q) :
    ∃ n' q' first', (s.clock c).Moves h w n' q' first' := by
  obtain rfl : n' = q := ha.eq_of_quiet quiet
  have hheld : s.held = [] := by simp [held, valid]
  have hheld' : (s.clock c).held = [] := by simp [held, PcieSys.clock, Fpga2Cpu.step, hs]
  refine ⟨n', n', first, ha.brings_clock c wait, clock_fetches c wait ha.fetches (fun _ => ⟨by rw [hheld, hheld'], rfl⟩)
    (fun _ => by rw [hheld']; exact .nil _), .desc b (clock_current c wait cur) ?_ ?_ ?_ ?_ ?_ ?_ ?_ ?_ rfl, ha.moves.head, ha.moves.le,
    ha.moves.room, ?_⟩
  all_goals simp [PcieSys.clock, Fpga2Cpu.step, hs, f2cIn, start, wait, done, tail0, cur.1]

theorem Answered.desc (cur : s.Current b q) (hs : s.f2c.state = .desc)
    (wait : s.ringWait = true) (done : s.f2c.dmaDone = false) (valid : s.f2c.descValid = false) (size : s.f2c.sizeR = b.size)
    (tail0 : s.tail0 = place q) (tail : s.tail = place q) (quiet : n = q) :
    ∃ n' q' first', (s.clock c).Moves h w n' q' first' := by
  have hf := ha.fetches
  have hmle := ha.moves.le
  have hmroom := ha.moves.room
  obtain rfl : n' = q := ha.eq_of_quiet quiet
  have hheld : s.held = [] := by simp [held, valid]
  obtain ⟨htail0, htail⟩ := clock_tails c done tail0
  obtain ⟨hwait, hstart⟩ := clock_working c wait done
  have hlt := size_lt b
  -- the old operations carry no reads, so they fit the new block
  have hq : Fetches s.handed n' s.base n' s.rest n' := by
    rw [hheld, List.append_nil] at hf
    simpa using hf.quiet rfl [] n' s.base
  have hadd : ∀ q', Fetches s.handed n' s.base n' (s.clock c).held q' →
      Fetches (s.clock c).handed n' (s.clock c).base n' ((s.clock c).queued ++ (s.clock c).held) q' := by
    intro q' hh
    rw [clock_handed c wait, clock_base c wait, clock_queued, hheld, ite_self, List.append_nil]
    exact hq.append hh
  have hfree := freeSlot_place ha.moves.le ha.moves.room
  by_cases hfits : freeSlot s.head s.tail ≥ b.size
  · rw [ha.moves.head, tail] at hfits
    have hroom : n' + b.size < h + bufferSize := by omega
    by_cases hwrap : place n' + b.size > bufferSize
    · have hlow := lowSize_place hlt hwrap
      have hf2c : (s.clock c).f2c = { s.f2c with
          descValid := true, descData := .data s.base (place n') (lowSize (place n')), state := .descWrap } := by
        simp [PcieSys.clock, Fpga2Cpu.step, hs, f2cIn, size, tail, ha.moves.head, hfits, hwrap]
      refine ⟨n', n' + lowSize (place n'), n', ha.brings_clock c wait, hadd _ ?_,
        .descWrap b (clock_current c wait cur) (by rw [hf2c]) hwait hstart
        (by rw [hf2c]; exact done) (by rw [hf2c]; exact size) htail0 htail hwrap rfl, ha.moves.head, by omega, by omega, fun _ => ?_⟩
      · have := @fetches_readOps s.handed n' s.base n' (lowSize (place n')) (Nat.le_refl _) (by omega)
        simpa [held, hf2c, Desc.ops] using this
      · rw [clock_handed c wait, cur.total]
        exact hroom
    · have hf2c : (s.clock c).f2c = { s.f2c with descValid := true, descData := .data s.base (place n') b.size, state := .done } := by
        simp [PcieSys.clock, Fpga2Cpu.step, hs, f2cIn, size, tail, ha.moves.head, hfits, hwrap]
      refine ⟨n', n' + b.size, n', ha.brings_clock c wait, hadd _ ?_, .done b (clock_current c wait cur) (by rw [hf2c]) hwait hstart
        (by rw [hf2c]; exact done) (by rw [hf2c]; exact size) htail0 htail rfl, ha.moves.head, by omega, by omega, by simp [hf2c]⟩
      have := @fetches_readOps s.handed n' s.base n' b.size (Nat.le_refl _) (by omega)
      simpa [held, hf2c, Desc.ops] using this
  · have hf2c : (s.clock c).f2c = s.f2c := by
      simp [PcieSys.clock, Fpga2Cpu.step, hs, f2cIn, size, hfits]
    have hheld' : (s.clock c).held = [] := by rw [held, hf2c, valid]; rfl
    exact ⟨n', n', n', ha.brings_clock c wait, hadd _ (by rw [hheld']; exact .nil _),
      .desc b (clock_current c wait cur) (by rw [hf2c]; exact hs) hwait
      hstart (by rw [hf2c]; exact done) (by rw [hf2c]; exact valid) (by rw [hf2c]; exact size) htail0 htail rfl, ha.moves.head,
      ha.moves.le, ha.moves.room,
      by simp [hf2c, hs]⟩

theorem Answered.keeps (wait : s.ringWait = true) (hready : c.descReady = false) (hf2c : (s.clock c).f2c = s.f2c)
    (hst : (s.clock c).Stage n' q first) : ∃ n' q' first', (s.clock c).Moves h w n' q' first' := by
  have hheld : s.held = (s.clock c).held := by rw [held, held, hf2c]
  exact ⟨n', q, first, ha.brings_clock c wait, clock_fetches c wait ha.fetches (fun _ => ⟨hheld, rfl⟩)
    (fun ht => by rw [hready] at ht; cases ht), hst, ha.moves.head, ha.moves.le, ha.moves.room,
    by rw [hf2c, clock_handed c wait]; exact ha.moves.wrapRoom⟩

theorem Answered.hands {q' : Nat} (wait : s.ringWait = true) (hready : c.descReady = true)
    (hdesc : Fetches s.handed first s.base q (s.clock c).held q') (hst : (s.clock c).Stage n' q' first)
    (hle : q ≤ q') (hroom : q' < h + bufferSize) (hs : (s.clock c).f2c.state ≠ .descWrap) :
    ∃ n' q' first', (s.clock c).Moves h w n' q' first' :=
  ⟨n', q', first, ha.brings_clock c wait,
    clock_fetches c wait ha.fetches (fun ht => by rw [hready] at ht; cases ht) (fun _ => hdesc), hst, ha.moves.head,
    ha.moves.le.trans hle, hroom, fun h => absurd h hs⟩

theorem Answered.descWrap (cur : s.Current b first) (hs : s.f2c.state = .descWrap)
    (wait : s.ringWait = true) (done : s.f2c.dmaDone = false) (size : s.f2c.sizeR = b.size) (tail0 : s.tail0 = place first)
    (tail : s.tail = place first) (wrap : place first + b.size > bufferSize) (hq : q = first + lowSize (place first)) :
    ∃ n' q' first', (s.clock c).Moves h w n' q' first' := by
  obtain ⟨htail0, htail⟩ := clock_tails c done tail0
  obtain ⟨hwait, hstart⟩ := clock_working c wait done
  have hlow := lowSize_place (size_lt b) wrap
  cases hready : c.descReady with
  | false =>
    have hf2c : (s.clock c).f2c = s.f2c := by simp [PcieSys.clock, Fpga2Cpu.step, hs, f2cIn, hready]
    exact ha.keeps c wait hready hf2c (.descWrap b (clock_current c wait cur) (by rw [hf2c]; exact hs) hwait hstart
      (by rw [hf2c]; exact done) (by rw [hf2c]; exact size) htail0 htail wrap hq)
  | true =>
    have hf2c : (s.clock c).f2c = { s.f2c with
        descValid := true, descData := .data (s.base + lowSize (place first)) 0 (highSize (place first) b.size), state := .done } := by
      simp [PcieSys.clock, Fpga2Cpu.step, hs, f2cIn, hready, size, tail]
    have hplace : place q = 0 := by
      rw [hq, place_add_wrap (by omega) (by omega)]
      omega
    have hlt := size_lt b
    have hbig : 4096 ≤ bufferSize := by decide
    have hroom := ha.moves.wrapRoom hs
    rw [cur.total] at hroom
    have hsum : q + highSize (place first) b.size = first + b.size := by omega
    have hdesc : Fetches s.handed first s.base q (s.clock c).held (first + b.size) := by
      have := @fetches_readOps s.handed first s.base q (highSize (place first) b.size) (by omega) (by rw [hplace]; omega)
      rw [hplace, show q - first = lowSize (place first) by omega, hsum] at this
      simpa [held, hf2c, Desc.ops] using this
    exact ha.hands c wait hready hdesc (.done b (clock_current c wait cur) (by rw [hf2c]) hwait hstart (by rw [hf2c]; exact done)
      (by rw [hf2c]; exact size) htail0 htail rfl) (by omega) hroom (by simp [hf2c])

theorem Answered.done (cur : s.Current b first) (hs : s.f2c.state = .done)
    (wait : s.ringWait = true) (done : s.f2c.dmaDone = false) (size : s.f2c.sizeR = b.size) (tail0 : s.tail0 = place first)
    (tail : s.tail = place first) (hq : q = first + b.size) :
    ∃ n' q' first', (s.clock c).Moves h w n' q' first' := by
  obtain ⟨htail0, htail⟩ := clock_tails c done tail0
  obtain ⟨hwait, hstart⟩ := clock_working c wait done
  cases hready : c.descReady with
  | false =>
    have hf2c : (s.clock c).f2c = s.f2c := by simp [PcieSys.clock, Fpga2Cpu.step, hs, f2cIn, hready]
    exact ha.keeps c wait hready hf2c (.done b (clock_current c wait cur) (by rw [hf2c]; exact hs) hwait hstart
      (by rw [hf2c]; exact done) (by rw [hf2c]; exact size) htail0 htail hq)
  | true =>
    have hnew : newTail (place first) b.size = place q := by
      have := size_lt b
      have hbig : 4096 ≤ bufferSize := by decide
      rw [hq, newTail_place (by omega)]
    have hf2c : (s.clock c).f2c = { s.f2c with
        descValid := true, descData := .done (place q), state := .wait, outTail := place q } := by
      simp [PcieSys.clock, Fpga2Cpu.step, hs, f2cIn, hready, size, tail, hnew]
    have hend : Ends s.handed q := by
      rw [hq, ← cur.total]
      exact Ends.total _
    have hdesc : Fetches s.handed first s.base q (s.clock c).held q := by
      simpa [held, hf2c, Desc.ops] using Fetches.tail hend (.nil _)
    exact ha.hands c wait hready hdesc (.wait b (clock_current c wait cur) (by rw [hf2c]) hwait hstart (by rw [hf2c]; exact done)
      (by rw [hf2c]; exact size) (by rw [hf2c]) hq) (Nat.le_refl q) ha.moves.room (by simp [hf2c])

theorem Answered.wait (cur : s.Current b first) (hs : s.f2c.state = .wait)
    (wait : s.ringWait = true) (done : s.f2c.dmaDone = false) (size : s.f2c.sizeR = b.size) (out : s.f2c.outTail = place q)
    (hq : q = first + b.size) :
    ∃ n' q' first', (s.clock c).Moves h w n' q' first' := by
  have hle := ha.fetches.le
  obtain ⟨hwait, hstart⟩ := clock_working c wait done
  have hout : (s.clock c).f2c.outTail = place q := by simp [PcieSys.clock, Fpga2Cpu.step, hs, out]
  have hsize : (s.clock c).f2c.sizeR = b.size := by simp [PcieSys.clock, Fpga2Cpu.step, hs, size]
  have hfetches : Fetches (s.clock c).handed first (s.clock c).base n' ((s.clock c).queued ++ (s.clock c).held) q := by
    apply clock_fetches c wait ha.fetches
    · intro hready
      simp [held, PcieSys.clock, Fpga2Cpu.step, hs, f2cIn, hready]
    · intro hready
      have : (s.clock c).held = [] := by simp [held, PcieSys.clock, Fpga2Cpu.step, hs, f2cIn, hready]
      rw [this]
      exact .nil _
  by_cases hlast : ∃ d, s.rd2 = some (.read (s.base + s.f2c.sizeR - 1) d)
  · -- the last slot of the block has come
    obtain ⟨d, hd⟩ := hlast
    obtain ⟨h1, h2, h3⟩ := ha.read _ _ hd
    rw [size] at h1
    have hpos : 0 < b.size := by
      obtain ⟨p, l, hp⟩ := List.exists_cons_of_ne_nil b.ne
      have := List.length_pos_iff.2 p.ne
      rw [PduBlock.size, PduBlock.slots, hp]
      simp only [List.flatMap_cons, List.length_append]
      omega
    refine ⟨n', q, first, ha.brings_clock c wait, hfetches, .ended ?_ hwait hstart ?_ hout ?_ (by omega), ha.moves.head, ha.moves.le,
      ha.moves.room, ?_⟩
    · simp [PcieSys.clock, Fpga2Cpu.step, hs, f2cIn, hd]
    · simp [PcieSys.clock, Fpga2Cpu.step, hs, f2cIn, hd]
    · rw [clock_handed c wait, cur.total, hq]
    · simp [PcieSys.clock, Fpga2Cpu.step, hs, f2cIn, hd]
  · have hno : ((s.f2cIn c).readValid && (s.f2cIn c).readAddr == (s.f2cIn c).dmaBase + s.f2c.sizeR - 1) = false := by
      cases hrd : s.rd2 with
      | none => simp [f2cIn, hrd]
      | some o =>
        cases o with
        | tail v => simp [f2cIn, hrd]
        | read a d =>
          have hne : a ≠ s.base + s.f2c.sizeR - 1 := by
            rintro rfl
            exact hlast ⟨d, hrd⟩
          simp [f2cIn, hrd, hne]
    have hstate : (s.clock c).f2c.state = .wait := by simp only [PcieSys.clock, Fpga2Cpu.step, hs, hno, Bool.false_eq_true, if_false]
    have hdone : (s.clock c).f2c.dmaDone = false := by
      simp only [PcieSys.clock, Fpga2Cpu.step, hs, hno, Bool.false_eq_true, if_false, done]
    exact ⟨n', q, first, ha.brings_clock c wait, hfetches, .wait b (clock_current c wait cur) hstate hwait hstart hdone hsize hout hq,
      ha.moves.head, ha.moves.le,
      ha.moves.room, by simp [hstate]⟩

end

theorem Moves.clock (hm : s.Moves h w n q first) : ∃ n' q' first', (s.clock c).Moves h w n' q' first' := by
  obtain ⟨n', ha⟩ := hm.answered
  cases hm.stage with
  | ended hs wait start done out tot quiet => exact ha.ended c hs wait start done out tot quiet
  | idle hs wait start done valid tail0 tot quiet => exact ha.idle c hs wait start done valid tail0 tot quiet
  | started b cur hs wait start done valid tail0 quiet => exact ha.started c cur hs wait start done valid tail0 quiet
  | desc b cur hs wait start done valid size tail0 tail quiet => exact ha.desc c cur hs wait done valid size tail0 tail quiet
  | descWrap b cur hs wait start done size tail0 tail wrap hq => exact ha.descWrap c cur hs wait done size tail0 tail wrap hq
  | done b cur hs wait start done size tail0 tail hq => exact ha.done c cur hs wait done size tail0 tail hq
  | wait b cur hs wait start done size out hq => exact ha.wait c cur hs wait done size out hq

end

theorem Moves.frame {h w h' w' : Nat} (hm : s.Moves h w n q first) (ws : List HostWrite) (mem : HostMem) (host : Host) (hws : List Nat)
    (hd : Nat) (owned : Nat → Bool) (hb : Brings s.handed w' ws n) (hh : hd = place h') (h1 : h ≤ h') (h2 : h' ≤ q) :
    Moves { s with writes := ws, mem := mem, host := host, headWrites := hws, head := hd, owned := owned } h' w' n q first := by
  have hroom := hm.room
  refine ⟨hb, hm.fetches, ?_, hh, h2, by omega, fun hst => ?_⟩
  · cases hm.stage with
    | ended hs wait start done out tot quiet => exact .ended hs wait start done out tot quiet
    | idle hs wait start done valid tail0 tot quiet => exact .idle hs wait start done valid tail0 tot quiet
    | started b cur hs wait start done valid tail0 quiet => exact .started b cur hs wait start done valid tail0 quiet
    | desc b cur hs wait start done valid size tail0 tail quiet => exact .desc b cur hs wait start done valid size tail0 tail quiet
    | descWrap b cur hs wait start done size tail0 tail wrap hq => exact .descWrap b cur hs wait start done size tail0 tail wrap hq
    | done b cur hs wait start done size tail0 tail hq => exact .done b cur hs wait start done size tail0 tail hq
    | wait b cur hs wait start done size out hq => exact .wait b cur hs wait start done size out hq
  · have := hm.wrapRoom hst
    exact Nat.lt_of_lt_of_le this (by omega)

/-! ## The host's side -/

/-- The PDU `p` is the next one, and it is below the tail that the host can see. -/
structure Next (s : PcieSys) (rel v : Nat) (a : List Pdu) (p : Pdu) (l : List Pdu) : Prop where
  cut : s.handed = a ++ p :: l
  rel_eq : rel = total a
  below : rel + p.slots.length ≤ v

/-- Behind the ring the slots up to `k` are copies of those at its start. -/
def Copied (s : PcieSys) (rel k : Nat) : Prop :=
  ∀ i < k, (slotsOf s.handed)[rel + (bufferSize - place rel) + i]? = some (s.mem.slot (bufferSize + i))

inductive HostAt (s : PcieSys) (rel v : Nat) : Prop
  | poll (a b : List Pdu) (hs : s.host.pc = .poll) (cut : s.handed = a ++ b) (hrel : rel = total a)
      (hp : s.host.processed = a.map Pdu.slots)
  | fill (a : List Pdu) (p : Pdu) (l : List Pdu) (hs : s.host.pc = .fill) (next : s.Next rel v a p l)
      (hp : s.host.processed = a.map Pdu.slots)
  | copy (a : List Pdu) (p : Pdu) (l : List Pdu) (hs : s.host.pc = .copy) (next : s.Next rel v a p l)
      (hp : s.host.processed = a.map Pdu.slots) (flit : s.host.flit = p.slots.length) (got : s.host.got = [])
      (hk : bufferSize + s.host.k < place rel + p.slots.length) (copied : s.Copied rel s.host.k)
  | proc (a : List Pdu) (p : Pdu) (l : List Pdu) (hs : s.host.pc = .proc) (next : s.Next rel v a p l)
      (hp : s.host.processed = a.map Pdu.slots) (flit : s.host.flit = p.slots.length) (hk : s.host.k < p.slots.length)
      (got : s.host.got = p.slots.take s.host.k) (copied : s.Copied rel (place rel + p.slots.length - bufferSize))
  | release (a : List Pdu) (p : Pdu) (l : List Pdu) (hs : s.host.pc = .release) (next : s.Next rel v a p l)
      (hp : s.host.processed = (a ++ [p]).map Pdu.slots) (flit : s.host.flit = p.slots.length)

/-- The host has released `rel` of the `v` slots that it can see, and `w` are written. -/
structure HostSide (s : PcieSys) (rel v w : Nat) : Prop where
  le : rel ≤ v
  le_written : v ≤ w
  mem : ∀ n, rel ≤ n → n < w → (slotsOf s.handed)[n]? = some (s.mem.slot (place n))
  tail : s.mem.tail = place v
  ends : Ends s.handed v
  owned : ∀ a, s.owned a = true → ∃ n, rel ≤ n ∧ n < w ∧ place n = a
  head : s.host.cpuHead = place rel
  pos : s.HostAt rel v

section
variable {rel v w : Nat} {a l : List Pdu} {p : Pdu}

theorem Next.slot (h : s.Next rel v a p l) {i : Nat} (hi : i < p.slots.length) : (slotsOf s.handed)[rel + i]? = p.slots[i]? := by
  rw [h.cut, h.rel_eq, slotsOf_append, List.getElem?_append_right (by simp [total])]
  have : slotsOf (p :: l) = p.slots ++ slotsOf l := rfl
  rw [this, List.getElem?_append_left (by simp [total]; omega)]
  congr 1
  simp [total]

theorem Next.read (h : s.Next rel v a p l) (hv : v ≤ w) (hm : ∀ n, rel ≤ n → n < w → (slotsOf s.handed)[n]? = some (s.mem.slot (place n)))
    {k : Nat} (hc : s.Copied rel k) {i : Nat} (hi : i < p.slots.length) (hk : place rel + i < bufferSize + k) :
    p.slots[i]? = some (s.mem.slot (place rel + i)) := by
  rw [← h.slot hi]
  have hw := h.below
  by_cases hp : place rel + i < bufferSize
  · rw [← place_add hp]
    exact hm _ (by omega) (by omega)
  · have := hc (place rel + i - bufferSize) (by omega)
    have hlt := place_lt rel
    rwa [show rel + (bufferSize - place rel) + (place rel + i - bufferSize) = rel + i by omega,
      show bufferSize + (place rel + i - bufferSize) = place rel + i by omega] at this

theorem Copied.zero : s.Copied rel 0 := fun i hi => absurd hi (Nat.not_lt_zero i)

theorem HostAt.mono (h : s.HostAt rel v) {s' : PcieSys} {v' : Nat} (qs : List Pdu) (hh : s'.handed = s.handed ++ qs) (hv : v ≤ v')
    (hhost : s'.host = s.host) (hc : ∀ i, s'.mem.slot (bufferSize + i) = s.mem.slot (bufferSize + i)) : s'.HostAt rel v' := by
  have hnext : ∀ a p l, s.Next rel v a p l → s'.Next rel v' a p (l ++ qs) := by
    intro a p l hn
    have := hn.below
    exact ⟨by rw [hh, hn.cut]; simp, hn.rel_eq, by omega⟩
  have hcopied : ∀ k, s.Copied rel k → s'.Copied rel k := by
    intro k hk i hi
    rw [hh, hc]
    exact getElem?_mono qs (hk i hi)
  cases h with
  | poll a b hs cut hrel hp => exact .poll a (b ++ qs) (by rw [hhost]; exact hs) (by rw [hh, cut]; simp) hrel (by rw [hhost]; exact hp)
  | fill a p l hs next hp => exact .fill a p (l ++ qs) (by rw [hhost]; exact hs) (hnext _ _ _ next) (by rw [hhost]; exact hp)
  | copy a p l hs next hp flit got hk copied =>
    refine .copy a p (l ++ qs) ?_ (hnext _ _ _ next) ?_ ?_ ?_ ?_ ?_
    all_goals rw [hhost]
    · exact hs
    · exact hp
    · exact flit
    · exact got
    · exact hk
    · exact hcopied _ copied
  | proc a p l hs next hp flit hk got copied =>
    refine .proc a p (l ++ qs) ?_ (hnext _ _ _ next) ?_ ?_ ?_ ?_ (hcopied _ copied)
    all_goals rw [hhost]
    · exact hs
    · exact hp
    · exact flit
    · exact hk
    · exact got
  | release a p l hs next hp flit =>
    exact .release a p (l ++ qs) (by rw [hhost]; exact hs) (hnext _ _ _ next) (by rw [hhost]; exact hp) (by rw [hhost]; exact flit)

theorem HostSide.clock (h : s.HostSide rel v w) (c : ClockIn) : (s.clock c).HostSide rel v w :=
  ⟨h.le, h.le_written, fun n hn hw => getElem?_mono _ (h.mem n hn hw), h.tail, h.ends.mono _, h.owned, h.head,
    h.pos.mono _ rfl (Nat.le_refl _) rfl (fun _ => rfl)⟩

theorem HostSide.write_slot (h : s.HostSide rel v w) (hw : w < rel + bufferSize) {d : BitVec 512} (hd : (slotsOf s.handed)[w]? = some d)
    (ws : List HostWrite) :
    HostSide { s with writes := ws, mem := { s.mem with slot := upd s.mem.slot (place w) d }, owned := upd s.owned (place w) true }
      rel v (w + 1) := by
  have hle := h.le
  have hle' := h.le_written
  refine ⟨hle, by omega, ?_, h.tail, h.ends, ?_, h.head, ?_⟩
  · intro n hn hlt
    by_cases hnw : n = w
    · subst hnw
      simpa [upd] using hd
    · have hne := place_ne hn (show n < w by omega) hw
      have := h.mem n hn (by omega)
      simpa [upd, hne] using this
  · intro x hx
    by_cases hxw : x = place w
    · exact ⟨w, by omega, by omega, hxw.symm⟩
    · have hx' : s.owned x = true := by simpa [upd, hxw] using hx
      obtain ⟨n, hn1, hn2, hn3⟩ := h.owned x hx'
      exact ⟨n, hn1, by omega, hn3⟩
  · refine h.pos.mono [] (by simp) (Nat.le_refl _) rfl (fun i => ?_)
    have := place_lt w
    have hne : bufferSize + i ≠ place w := by omega
    simp [upd, hne]

theorem HostSide.write_tail (h : s.HostSide rel v w) (he : Ends s.handed w) (ws : List HostWrite) :
    HostSide { s with writes := ws, mem := { s.mem with tail := place w } } rel w w :=
  ⟨Nat.le_trans h.le h.le_written, Nat.le_refl w, h.mem, rfl, he, h.owned, h.head,
    h.pos.mono [] (by simp) h.le_written rfl (fun _ => rfl)⟩

theorem Pdu.flit_of_head {p : Pdu} {x : BitVec 512} (h : p.slots[0]? = some x) : (x.extractLsb' 224 32).toNat = p.slots.length := by
  have hx : p.slots.head p.ne = x := by
    rw [← Option.some_inj, ← h, List.head_eq_getElem, List.getElem?_eq_getElem]
  rw [← hx]
  exact p.flit

theorem nextHead_place {k : Nat} (hk : k ≤ 64) (h1 : s.host.cpuHead = place rel) (h2 : s.host.flit = k) :
    s.host.nextHead = place (rel + k) := by
  have hbig : 64 ≤ bufferSize := by decide
  rw [Host.nextHead, h1, h2]
  by_cases h : place rel + k < bufferSize
  · rw [if_pos h, place_add h]
  · rw [if_neg h, place_add_wrap (by omega) (by omega)]

theorem hostStep_tail (s : PcieSys) : s.hostStep.mem.tail = s.mem.tail := by
  cases hs : s.host.pc with
  | poll | fill | copy | release => simp [hostStep, Host.step, hs]
  | proc =>
    simp only [hostStep, Host.step, hs]
    split <;> rfl

theorem hostStep_slot (s : PcieSys) (n : Nat) : s.hostStep.mem.slot (place n) = s.mem.slot (place n) := by
  cases hs : s.host.pc with
  | poll | fill | release => simp [hostStep, Host.step, hs]
  | copy =>
    have hlt := place_lt n
    have hne : place n ≠ bufferSize + s.host.k := by omega
    simp [hostStep, Host.step, hs, upd, hne]
  | proc =>
    simp only [hostStep, Host.step, hs]
    split <;> rfl

theorem hostStep_head (hr : s.host.pc ≠ .release) : s.hostStep.host.cpuHead = s.host.cpuHead := by
  cases hs : s.host.pc with
  | poll | fill | copy => simp [hostStep, Host.step, hs]
  | proc =>
    simp only [hostStep, Host.step, hs]
    split <;> rfl
  | release => exact absurd hs hr

theorem HostSide.stay (h : s.HostSide rel v w) (hr : s.host.pc ≠ .release) (hpos : s.hostStep.HostAt rel v) :
    s.hostStep.HostSide rel v w ∧ s.hostStep.headWrites = s.headWrites := by
  have howned : s.hostStep.owned = s.owned := by simp [hostStep, hr]
  refine ⟨⟨h.le, h.le_written, fun n hn hw => ?_, ?_, h.ends, ?_, ?_, hpos⟩, by simp [hostStep, hr]⟩
  · rw [hostStep_slot]
    exact h.mem n hn hw
  · rw [hostStep_tail]
    exact h.tail
  · rw [howned]
    exact h.owned
  · rw [hostStep_head hr]
    exact h.head

theorem HostSide.poll {b : List Pdu} (h : s.HostSide rel v w) (hs : s.host.pc = .poll) (cut : s.handed = a ++ b)
    (hrel : rel = total a) (hp : s.host.processed = a.map Pdu.slots) : s.hostStep.HostAt rel v := by
  have hproc : s.hostStep.host.processed = a.map Pdu.slots := by simp [hostStep, Host.step, hs, hp]
  have hle := h.le
  have h4 := h.ends
  by_cases he : s.mem.tail = s.host.cpuHead
  · exact .poll a b (by simp [hostStep, Host.step, hs, he]) cut hrel hproc
  · have hne : rel ≠ v := by
      rintro rfl
      exact he (h.tail.trans h.head.symm)
    rw [cut] at h4
    obtain ⟨p, l, rfl, hpl⟩ := h4.next (by omega)
    exact .fill a p l (by simp [hostStep, Host.step, hs, he]) ⟨cut, hrel, by omega⟩ hproc

theorem Next.hostStep (next : s.Next rel v a p l) : s.hostStep.Next rel v a p l := ⟨next.cut, next.rel_eq, next.below⟩

theorem HostSide.fill (h : s.HostSide rel v w) (hs : s.host.pc = .fill) (next : s.Next rel v a p l)
    (hp : s.host.processed = a.map Pdu.slots) : s.hostStep.HostAt rel v := by
  have hproc : s.hostStep.host.processed = a.map Pdu.slots := by simp [PcieSys.hostStep, Host.step, hs, hp]
  have hpos := List.length_pos_iff.2 p.ne
  have hlt := place_lt rel
  have hflit : s.hostStep.host.flit = p.slots.length := by
    rw [← Pdu.flit_of_head (next.read h.le_written h.mem Copied.zero hpos hlt), ← h.head]
    simp only [PcieSys.hostStep, Host.step, hs]
    rfl
  have hk : s.hostStep.host.k = 0 := by simp [PcieSys.hostStep, Host.step, hs]
  have hgot : s.hostStep.host.got = [] := by simp [PcieSys.hostStep, Host.step, hs]
  have hpc : s.hostStep.host.pc = if place rel + p.slots.length > bufferSize then .copy else .proc := by
    have : s.hostStep.host.pc = if s.host.cpuHead + s.hostStep.host.flit > bufferSize && s.host.cpuHead + s.hostStep.host.flit != bufferSize
        then .copy else .proc := by simp only [PcieSys.hostStep, Host.step, hs]
    rw [this, hflit, h.head]
    by_cases hw : place rel + p.slots.length > bufferSize
    · have hne : place rel + p.slots.length ≠ bufferSize := by omega
      simp [hw, hne]
    · simp [hw]
  by_cases hw : place rel + p.slots.length > bufferSize
  · rw [if_pos hw] at hpc
    exact .copy a p l hpc next.hostStep hproc hflit hgot (by rw [hk]; exact hw) (by rw [hk]; exact Copied.zero)
  · rw [if_neg hw] at hpc
    refine .proc a p l hpc next.hostStep hproc hflit (by rw [hk]; exact hpos) (by rw [hk, hgot]; rfl) ?_
    rw [show place rel + p.slots.length - bufferSize = 0 by omega]
    exact Copied.zero

theorem HostSide.copied_succ (h : s.HostSide rel v w) (hs : s.host.pc = .copy) (next : s.Next rel v a p l)
    (hk : bufferSize + s.host.k < place rel + p.slots.length) (copied : s.Copied rel s.host.k) :
    s.hostStep.Copied rel (s.host.k + 1) := by
  have hmem : s.hostStep.mem = { s.mem with slot := upd s.mem.slot (bufferSize + s.host.k) (s.mem.slot s.host.k) } := by
    simp [PcieSys.hostStep, Host.step, hs]
  have hhanded : s.hostStep.handed = s.handed := rfl
  have hlt := place_lt rel
  have hle := p.le
  have hbig : 64 ≤ bufferSize := by decide
  have hwr := next.below
  have hlv := h.le_written
  intro i hi
  rw [hmem, hhanded]
  by_cases hik : i = s.host.k
  · subst hik
    have hpl : place (rel + (bufferSize - place rel + s.host.k)) = s.host.k := by
      rw [place_add_wrap (by omega) (by omega)]
      omega
    have := h.mem (rel + (bufferSize - place rel + s.host.k)) (by omega) (by omega)
    rw [hpl, ← Nat.add_assoc] at this
    simpa [upd] using this
  · have := copied i (by omega)
    simpa [upd, hik] using this

theorem HostSide.copy (h : s.HostSide rel v w) (hs : s.host.pc = .copy) (next : s.Next rel v a p l)
    (hp : s.host.processed = a.map Pdu.slots) (flit : s.host.flit = p.slots.length) (got : s.host.got = [])
    (hk : bufferSize + s.host.k < place rel + p.slots.length) (copied : s.Copied rel s.host.k) : s.hostStep.HostAt rel v := by
  have hproc : s.hostStep.host.processed = a.map Pdu.slots := by simp [PcieSys.hostStep, Host.step, hs, hp]
  have hflit : s.hostStep.host.flit = p.slots.length := by simp [PcieSys.hostStep, Host.step, hs, flit]
  have hgot : s.hostStep.host.got = [] := by simp [PcieSys.hostStep, Host.step, hs, got]
  have hcopied := h.copied_succ hs next hk copied
  by_cases hmore : s.host.k + 1 < s.host.cpuHead + s.host.flit - bufferSize
  · have hk' : s.hostStep.host.k = s.host.k + 1 := by simp [PcieSys.hostStep, Host.step, hs, hmore]
    rw [h.head, flit] at hmore
    refine .copy a p l ?_ next.hostStep hproc hflit hgot (by rw [hk']; omega) (by rw [hk']; exact hcopied)
    simp [PcieSys.hostStep, Host.step, hs, h.head, flit, hmore]
  · have hk' : s.hostStep.host.k = 0 := by simp [PcieSys.hostStep, Host.step, hs, hmore]
    have hpc : s.hostStep.host.pc = .proc := by simp [PcieSys.hostStep, Host.step, hs, hmore]
    rw [h.head, flit] at hmore
    refine .proc a p l hpc next.hostStep hproc hflit (by rw [hk']; exact List.length_pos_iff.2 p.ne) (by rw [hk', hgot]; rfl) ?_
    rw [show place rel + p.slots.length - bufferSize = s.host.k + 1 by omega]
    exact hcopied

theorem HostSide.proc (h : s.HostSide rel v w) (hs : s.host.pc = .proc) (next : s.Next rel v a p l)
    (hp : s.host.processed = a.map Pdu.slots) (flit : s.host.flit = p.slots.length) (hk : s.host.k < p.slots.length)
    (got : s.host.got = p.slots.take s.host.k) (copied : s.Copied rel (place rel + p.slots.length - bufferSize)) :
    s.hostStep.HostAt rel v := by
  have hmem : s.hostStep.mem = s.mem := by
    simp only [PcieSys.hostStep, Host.step, hs]
    split <;> rfl
  have hflit : s.hostStep.host.flit = p.slots.length := by
    simp only [PcieSys.hostStep, Host.step, hs]
    split <;> exact flit
  have hgot : s.host.got ++ [s.mem.slot (s.host.cpuHead + s.host.k)] = p.slots.take (s.host.k + 1) := by
    have hread := next.read h.le_written h.mem copied hk (by omega)
    rw [got, h.head, List.take_add_one, hread]
    rfl
  by_cases hmore : s.host.k + 1 < s.host.flit
  · have hk' : s.hostStep.host.k = s.host.k + 1 := by simp [PcieSys.hostStep, Host.step, hs, hmore]
    refine .proc a p l (by simp [PcieSys.hostStep, Host.step, hs, hmore]) next.hostStep
      (by simp [PcieSys.hostStep, Host.step, hs, hmore, hp]) hflit (by rw [hk']; omega) ?_ fun i hi => ?_
    · rw [hk', ← hgot]
      simp [PcieSys.hostStep, Host.step, hs, hmore]
    · rw [hmem]
      exact copied i hi
  · refine .release a p l (by simp [PcieSys.hostStep, Host.step, hs, hmore]) next.hostStep ?_ hflit
    have hall : p.slots.take (s.host.k + 1) = p.slots := List.take_of_length_le (by omega)
    have : s.hostStep.host.processed = s.host.processed ++ [s.host.got ++ [s.mem.slot (s.host.cpuHead + s.host.k)]] := by
      simp [PcieSys.hostStep, Host.step, hs, hmore]
    rw [this, hgot, hall, hp, List.map_append]
    rfl

theorem HostSide.release (h : s.HostSide rel v w) (hs : s.host.pc = .release) (next : s.Next rel v a p l)
    (hp : s.host.processed = (a ++ [p]).map Pdu.slots) (flit : s.host.flit = p.slots.length) :
    s.hostStep.HostSide (rel + p.slots.length) v w ∧ s.hostStep.headWrites = s.headWrites ++ [place (rel + p.slots.length)] := by
  have hnew := nextHead_place p.le h.head flit
  refine ⟨⟨next.below, h.le_written, fun n hn hw => ?_, ?_, h.ends, fun x hx => ?_, ?_, ?_⟩, by simp [PcieSys.hostStep, hs, hnew]⟩
  · rw [hostStep_slot]
    exact h.mem n (by omega) hw
  · rw [hostStep_tail]
    exact h.tail
  · have hx' : s.owned x = true ∧ s.releases x = false := by simpa [PcieSys.hostStep, hs] using hx
    obtain ⟨n, hn1, hn2, hn3⟩ := h.owned x hx'.1
    refine ⟨n, ?_, hn2, hn3⟩
    by_contra hlt
    have hrel : s.releases x = true := by
      rw [releases, List.any_eq_true]
      refine ⟨n - rel, List.mem_range.2 (by rw [flit]; omega), ?_⟩
      rw [h.head, ← hn3, beq_iff_eq, place, place, Nat.mod_add_mod, show rel + (n - rel) = n by omega]
    rw [hrel] at hx'
    cases hx'.2
  · simp [PcieSys.hostStep, Host.step, hs, hnew]
  · refine .poll (a ++ [p]) l (by simp [PcieSys.hostStep, Host.step, hs]) (by rw [List.append_assoc]; exact next.cut) ?_
      (by simp [PcieSys.hostStep, Host.step, hs, hp])
    rw [total_append, next.rel_eq]
    simp [total, slotsOf]

theorem HostSide.host (h : s.HostSide rel v w) : ∃ rel', rel ≤ rel' ∧ s.hostStep.HostSide rel' v w ∧
    (s.hostStep.headWrites = s.headWrites ∨ s.hostStep.headWrites = s.headWrites ++ [place rel']) := by
  have stay (hr : s.host.pc ≠ .release) (hpos : s.hostStep.HostAt rel v) : ∃ rel', rel ≤ rel' ∧ s.hostStep.HostSide rel' v w ∧
      (s.hostStep.headWrites = s.headWrites ∨ s.hostStep.headWrites = s.headWrites ++ [place rel']) := by
    obtain ⟨hside, hwrites⟩ := h.stay hr hpos
    exact ⟨rel, Nat.le_refl _, hside, .inl hwrites⟩
  cases h.pos with
  | poll a b hs cut hrel hp => exact stay (by simp [hs]) (h.poll hs cut hrel hp)
  | fill a p l hs next hp => exact stay (by simp [hs]) (h.fill hs next hp)
  | copy a p l hs next hp flit got hk copied => exact stay (by simp [hs]) (h.copy hs next hp flit got hk copied)
  | proc a p l hs next hp flit hk got copied => exact stay (by simp [hs]) (h.proc hs next hp flit hk got copied)
  | release a p l hs next hp flit =>
    obtain ⟨hside, hwrites⟩ := h.release hs next hp flit
    exact ⟨rel + p.slots.length, Nat.le_add_right _ _, hside, .inr hwrites⟩

end

/-! ## The whole system -/

def Heads (s : PcieSys) (h rel : Nat) : Prop := ∃ hs : List Nat, s.headWrites = hs.map place ∧ (h :: hs ++ [rel]).Pairwise (· ≤ ·)

def Inv (s : PcieSys) : Prop := ∃ h rel v w n q first, s.Moves h w n q first ∧ s.HostSide rel v w ∧ s.Heads h rel

theorem Heads.le {h rel : Nat} (hh : s.Heads h rel) : h ≤ rel := by
  obtain ⟨hs, _, hp⟩ := hh
  exact List.rel_of_pairwise_cons hp (by simp)

theorem Heads.mono {h rel rel' : Nat} (hh : s.Heads h rel) (hle : rel ≤ rel') {s' : PcieSys}
    (he : s'.headWrites = s.headWrites ∨ s'.headWrites = s.headWrites ++ [place rel']) : s'.Heads h rel' := by
  obtain ⟨hs, h1, h2⟩ := hh
  rw [List.pairwise_append] at h2
  obtain ⟨h3, _, h4⟩ := h2
  have hall : ∀ x ∈ h :: hs, x ≤ rel' := fun x hx => Nat.le_trans (h4 x hx rel (by simp)) hle
  have hp : (h :: hs ++ [rel']).Pairwise (· ≤ ·) := by
    rw [List.pairwise_append]
    exact ⟨h3, by simp, fun x hx y hy => by simp at hy; subst hy; exact hall x hx⟩
  rcases he with he | he
  · exact ⟨hs, by rw [he, h1], hp⟩
  · refine ⟨hs ++ [rel'], by rw [he, h1]; simp, ?_⟩
    rw [show h :: (hs ++ [rel']) ++ [rel'] = (h :: hs ++ [rel']) ++ [rel'] by simp, List.pairwise_append]
    refine ⟨hp, by simp, fun x hx y hy => ?_⟩
    simp only [List.mem_singleton] at hy
    subst hy
    rcases List.mem_append.1 hx with hx | hx
    · exact hall x hx
    · simp only [List.mem_singleton] at hx
      omega

theorem Inv.step (e : PcieEvent) (h : s.Inv) : (s.step e).Inv := by
  obtain ⟨hd, rel, v, w, n, q, first, hm, hh, hds⟩ := h
  have hwn := hm.brings.le
  have hnq := hm.fetches.le
  have hroom := hm.room
  have hle := hds.le
  have h1 := hh.le
  have h2 := hh.le_written
  cases e with
  | clock c =>
    obtain ⟨n', q', first', hm'⟩ := hm.clock c
    exact ⟨hd, rel, v, w, n', q', first', hm', hh.clock c, hds⟩
  | host =>
    obtain ⟨rel', hrel, hh', he⟩ := hh.host
    exact ⟨hd, rel', v, w, n, q, first, hm.frame s.writes _ _ _ s.head _ hm.brings hm.head (Nat.le_refl _) hm.le, hh', hds.mono hrel he⟩
  | write =>
    show (s.write).Inv
    have hb := hm.brings
    cases hws : s.writes with
    | nil =>
      have : s.write = s := by simp [PcieSys.write, hws]
      rw [this]
      exact ⟨hd, rel, v, w, n, q, first, hm, hh, hds⟩
    | cons x l =>
      rw [hws] at hb
      cases hb with
      | slot hdat hb =>
        have hlt := hb.le
        simp only [PcieSys.write, hws]
        exact ⟨hd, rel, v, w + 1, n, q, first, hm.frame l _ s.host s.headWrites s.head _ hb hm.head (Nat.le_refl _) hm.le,
          hh.write_slot (by omega) hdat l, hds⟩
      | tail hend hb =>
        simp only [PcieSys.write, hws]
        exact ⟨hd, rel, w, w, n, q, first, hm.frame l _ s.host s.headWrites s.head s.owned hb hm.head (Nat.le_refl _) hm.le,
          hh.write_tail hend l, hds⟩
  | head =>
    show (s.headStep).Inv
    obtain ⟨hs, h3, h4⟩ := hds
    cases hs with
    | nil =>
      have : s.headStep = s := by simp [PcieSys.headStep, h3]
      rw [this]
      exact ⟨hd, rel, v, w, n, q, first, hm, hh, ⟨[], h3, h4⟩⟩
    | cons x hs =>
      have hx : x ≤ rel := List.rel_of_pairwise_cons (List.Pairwise.of_cons h4) (by simp)
      have hdx : hd ≤ x := List.rel_of_pairwise_cons h4 (by simp)
      rw [List.map_cons] at h3
      simp only [PcieSys.headStep, h3]
      refine ⟨x, rel, v, w, n, q, first, hm.frame s.writes s.mem s.host _ _ s.owned hm.brings rfl hdx (by omega), ?_, ⟨hs, rfl,
        h4.of_cons⟩⟩
      exact ⟨hh.le, hh.le_written, hh.mem, hh.tail, hh.ends, hh.owned, hh.head,
        hh.pos.mono [] (by simp) (Nat.le_refl _) rfl (fun _ => rfl)⟩

theorem inv_init (slot : Nat → BitVec 512) : (init slot).Inv := by
  refine ⟨0, 0, 0, 0, 0, 0, 0, ⟨.nil 0, .nil 0, .idle rfl rfl rfl rfl rfl rfl rfl rfl, rfl, Nat.le_refl 0, by decide, by simp [init]⟩,
    ⟨Nat.le_refl 0, Nat.le_refl 0, by omega, rfl, Ends.total [], by simp [init], rfl, .poll [] [] rfl rfl rfl rfl⟩, [], rfl, by simp⟩

theorem Inv.processed_of_handed (h : s.Inv) : s.host.processed <+: s.handed.map Pdu.slots := by
  obtain ⟨hd, rel, v, w, n, q, first, hm, hh, hds⟩ := h
  cases hh.pos with
  | poll a b hs cut hrel hp =>
    rw [hp, cut, List.map_append]
    exact List.prefix_append ..
  | fill a p l hs next hp =>
    rw [hp, next.cut, List.map_append]
    exact List.prefix_append ..
  | copy a p l hs next hp flit got hk copied =>
    rw [hp, next.cut, List.map_append]
    exact List.prefix_append ..
  | proc a p l hs next hp flit hk got copied =>
    rw [hp, next.cut, List.map_append]
    exact List.prefix_append ..
  | release a p l hs next hp flit =>
    rw [hp, next.cut, show a ++ p :: l = (a ++ [p]) ++ l by simp]
    exact (List.prefix_append (a ++ [p]) l).map Pdu.slots

theorem Inv.not_owned (h : s.Inv) {dst : Nat} {d : BitVec 512} {l : List HostWrite} (hw : s.writes = .slot dst d :: l) :
    dst < bufferSize ∧ s.owned dst = false := by
  obtain ⟨hd, rel, v, w, n, q, first, hm, hh, hds⟩ := h
  have hb := hm.brings
  rw [hw] at hb
  cases hb with
  | slot hdat hb =>
    refine ⟨place_lt w, ?_⟩
    cases ho : s.owned (place w) with
    | false => rfl
    | true =>
      obtain ⟨k, h1, h2, h3⟩ := hh.owned _ ho
      have hle := hds.le
      have h4 := hb.le
      have h5 := hm.fetches.le
      have h6 := hm.room
      exact absurd h3 (place_ne h1 h2 (by omega))

end PcieSys

/-- In every run the host processes the PDUs in the order in which they were handed over, each with its slots, and a
slot that the host has not released is not written. -/
theorem hostRing_delivers (slot : Nat → BitVec 512) (es : List PcieEvent) :
    let s := Hdl.run PcieSys.step (PcieSys.init slot) es
    s.host.processed <+: s.handed.map Pdu.slots ∧
      ∀ dst d l, s.writes = .slot dst d :: l → dst < bufferSize ∧ s.owned dst = false := by
  have h : (Hdl.run PcieSys.step (PcieSys.init slot) es).Inv :=
    @run_inv _ _ PcieSys.step PcieSys.Inv (fun _ _ => True) (fun s e hs _ => hs.step e) es _ (PcieSys.inv_init slot)
      (allSteps_of_forall _ (fun _ _ => trivial) es _)
  exact ⟨h.processed_of_handed, fun dst d l hw => h.not_owned hw⟩

def Pdu.one : Pdu := ⟨[BitVec.ofNat 512 (2 ^ 224)], by simp, by simp, by decide +kernel⟩

/-- One block with this PDU, from `dma_start` to the release by the host. -/
def PcieEvent.oneBlock : List PcieEvent :=
  [.clock ⟨false, false, some ⟨4000, [Pdu.one], by simp, by decide⟩⟩, .clock ⟨false, false, none⟩, .clock ⟨false, false, none⟩,
    .clock ⟨true, false, none⟩, .clock ⟨true, true, none⟩, .clock ⟨false, true, none⟩, .clock ⟨false, true, none⟩, .clock ⟨false, false,
    none⟩,
    .clock ⟨false, false, none⟩, .write, .write, .host, .host, .host, .host]

theorem hostRing_delivers_oneBlock : let s := Hdl.run PcieSys.step (PcieSys.init fun _ => 0) PcieEvent.oneBlock
    s.host.processed = [Pdu.one.slots] ∧ s.host.processed <+: s.handed.map Pdu.slots :=
  ⟨by decide +kernel, (hostRing_delivers (fun _ => 0) PcieEvent.oneBlock).1⟩

end Pigasus
