import Pigasus.DramWrapper
import Mathlib.Data.List.Perm.Subperm

/-!
# Checked packets leave the buffer

The other half of `pdu_data_mover`, in the build without `NO_C2F`. The host answers each
PDU with its `pdu_id`: a packet that did not match is read back from the buffer, one that
matched is not, and in both cases the `pdu_id` goes back to the list of free ones.
-/

namespace Pigasus

open Hdl

/-- `pdu_metadata_t` from the host; of the action only `ACTION_MATCH` is looked at. -/
structure CpuMeta where
  pduId : BitVec 8
  isMatch : Bool
  flits : BitVec 5
  pduSize : BitVec 11
  deriving DecidableEq

/-- What `resp_gen_data` says about an answer of the memory. -/
structure RespMark where
  sop : Bool
  eop : Bool
  empty : BitVec 6
  deriving DecidableEq

inductive RdState
  | init | idle | first | middle
  deriving DecidableEq

/-- `cur` has the registers `flits`, `pdu_id`, `action` and `pdu_size`. -/
structure PduRead where
  state : RdState
  flitsCnt : Nat
  cur : CpuMeta
  freeValid : Bool
  freeData : BitVec 8
  rdAddr : Nat
  deriving DecidableEq

structure PduReadIn where
  cpu : Option CpuMeta
  nomatchAlmostFull : Bool
  rdAlmostFull : Bool
  respAlmostFull : Bool
  emptylistReady : Bool

namespace PduRead

variable (s : PduRead) (i : PduReadIn)

def reset : PduRead := ⟨.init, 0, ⟨0, false, 0, 0⟩, false, 0, 0⟩

/-- `flits_cnt == (flits - 1)`, in 32 bits -/
def atLast : Bool := s.flitsCnt + 1 == s.cur.flits.toNat

def firstReady : Bool := s.state == .first && (s.cur.isMatch || s.cur.flits == 1)

def middleReady : Bool := s.state == .middle && s.atLast

def cpuReady : Bool := (s.state == .idle || s.firstReady || s.middleReady) && !i.nomatchAlmostFull

def accepted : Option CpuMeta := if s.cpuReady i then i.cpu else none

def readyToMove : Bool := i.cpu.isSome && !i.nomatchAlmostFull && !i.rdAlmostFull && !i.respAlmostFull

def nextJob : RdState := if readyToMove i then .first else .idle

def lastEmpty (m : CpuMeta) : BitVec 6 := BitVec.ofNat 6 ((m.flits.toNat <<< 5) + 2 ^ 11 - m.pduSize.toNat)

def step : PduRead :=
  let s' := { s with cur := (s.accepted i).getD s.cur }
  match s.state with
  | .init =>
    if s.freeValid && i.emptylistReady then
      if s.freeData = 255 then { s' with freeData := s.freeData + 1, freeValid := false, state := .idle }
      else { s' with freeData := s.freeData + 1, freeValid := true }
    else { s' with freeValid := true }
  | .idle => { s' with flitsCnt := 0, freeValid := false, state := nextJob i }
  | .first =>
    if s.cur.isMatch then { s' with freeValid := true, freeData := s.cur.pduId, state := nextJob i }
    else if s.cur.flits = 1 then
      { s' with rdAddr := s.cur.pduId.toNat <<< 5, freeValid := true, freeData := s.cur.pduId, state := nextJob i }
    else { s' with rdAddr := s.cur.pduId.toNat <<< 5, freeValid := false, flitsCnt := (s.flitsCnt + 1) % 32, state := .middle }
  | .middle =>
    if s.atLast then
      { s' with rdAddr := (s.rdAddr + 1) % 2 ^ 27, freeValid := true, freeData := s.cur.pduId, flitsCnt := 0, state := nextJob i }
    else { s' with rdAddr := (s.rdAddr + 1) % 2 ^ 27, freeValid := false, flitsCnt := (s.flitsCnt + 1) % 32 }

/-- The request and the mark that are registered as valid in this cycle. -/
def emits : List (DdrRead × RespMark) :=
  match s.state with
  | .first =>
    if s.cur.isMatch then []
    else
      let eop := s.cur.flits == 1
      [(⟨s.cur.pduId.toNat <<< 5, true, eop⟩, ⟨true, eop, if eop then lastEmpty s.cur else 0⟩)]
  | .middle => [(⟨(s.rdAddr + 1) % 2 ^ 27, false, s.atLast⟩, ⟨false, s.atLast, if s.atLast then lastEmpty s.cur else 0⟩)]
  | _ => []

end PduRead

/-! ## The system -/

structure ReadTick where
  cpu : Option CpuMeta
  nomatchAlmostFull : Bool
  rdAlmostFull : Bool
  respAlmostFull : Bool
  -- `pdu_gen` takes a `pdu_id`
  take : Bool

/-- With the list of free ids, those that packets and the host have, the answers of the host so far
and the requests so far. -/
structure ReadSys where
  mover : PduRead
  free : List (BitVec 8)
  out : List (BitVec 8)
  jobs : List CpuMeta
  reqs : List (DdrRead × RespMark)

namespace ReadSys

variable (s : ReadSys) (t : ReadTick)

def pduNum : Nat := 256

def readIn : PduReadIn where
  cpu := t.cpu
  nomatchAlmostFull := t.nomatchAlmostFull
  rdAlmostFull := t.rdAlmostFull
  respAlmostFull := t.respAlmostFull
  emptylistReady := s.free.length < pduNum

def accepted : Option CpuMeta := s.mover.accepted (s.readIn t)

def pushed : Option (BitVec 8) := if s.mover.freeValid && decide (s.free.length < pduNum) then some s.mover.freeData else none

def taken : Option (BitVec 8) := if t.take then s.free.head? else none

def afterAnswer : List (BitVec 8) :=
  match s.accepted t with
  | some m => s.out.erase m.pduId
  | none => s.out

def step : ReadSys where
  mover := s.mover.step (s.readIn t)
  free := fifoStep s.free s.pushed t.take
  out := s.afterAnswer t ++ (s.taken t).toList
  jobs := s.jobs ++ (s.accepted t).toList
  reqs := s.reqs ++ s.mover.emits

def reset : ReadSys := ⟨PduRead.reset, [], [], [], []⟩

/-- The host answers an id that is out, once, with the size of its packet, and a metadata word that is taken is also served. -/
def Ok : Prop := ∀ m ∈ s.accepted t,
  m.pduId ∈ s.out ∧ (m.isMatch = false → m.flits ≠ 0) ∧ t.rdAlmostFull = false ∧ t.respAlmostFull = false

instance : Decidable (s.Ok t) := inferInstanceAs (Decidable (∀ m ∈ s.accepted t, _ ∧ _))

end ReadSys

/-! ## What an answer of the host asks for -/

namespace CpuMeta

variable (m : CpuMeta)

def request (k : Nat) : DdrRead × RespMark :=
  let eop := k + 1 == m.flits.toNat
  (⟨m.pduId.toNat * 32 + k, k == 0, eop⟩, ⟨k == 0, eop, if eop then PduRead.lastEmpty m else 0⟩)

def requests : List (DdrRead × RespMark) := if m.isMatch then [] else (List.range m.flits.toNat).map m.request

theorem drop_requests (h : m.isMatch = false) {k : Nat} (hk : k < m.flits.toNat) :
    m.requests.drop k = m.request k :: m.requests.drop (k + 1) := by
  have hr : m.requests = (List.range m.flits.toNat).map m.request := if_neg (by rw [h]; exact Bool.false_ne_true)
  rw [hr, List.drop_eq_getElem_cons (by rwa [List.length_map, List.length_range]), List.getElem_map, List.getElem_range]

theorem drop_requests_end (h : m.isMatch = false) : m.requests.drop m.flits.toNat = [] := by
  have hr : m.requests = (List.range m.flits.toNat).map m.request := if_neg (by rw [h]; exact Bool.false_ne_true)
  rw [hr]
  exact List.drop_of_length_le (by rw [List.length_map, List.length_range])

end CpuMeta

/-! ## One step of the mover -/

namespace PduRead

variable {s : PduRead} {i : PduReadIn}

structure Fits (s : PduRead) : Prop where
  init : s.state = .init → s.freeValid = false → s.freeData = 0
  first : s.state = .first → s.flitsCnt = 0 ∧ (s.cur.isMatch = false → s.cur.flits ≠ 0)
  middle : s.state = .middle → s.cur.isMatch = false ∧ 0 < s.flitsCnt ∧ s.flitsCnt < s.cur.flits.toNat ∧
    s.rdAddr + 1 = s.cur.pduId.toNat * 32 + s.flitsCnt

def todo (s : PduRead) : List (DdrRead × RespMark) :=
  match s.state with
  | .first => s.cur.requests
  | .middle => s.cur.requests.drop s.flitsCnt
  | _ => []

def allIds : List (BitVec 8) := (List.range 256).map (BitVec.ofNat 8)

def returning (s : PduRead) : List (BitVec 8) := if s.freeValid then [s.freeData] else []

/-- The ids that the mover has: those it has not given out yet, or the one at hand and the one in the register. -/
def held (s : PduRead) : List (BitVec 8) :=
  match s.state with
  | .init => if s.freeValid then (List.range' s.freeData.toNat (256 - s.freeData.toNat)).map (BitVec.ofNat 8) else allIds
  | .idle => s.returning
  | _ => s.cur.pduId :: s.returning

def Between (s : PduRead) : Prop := s.state = .idle ∨ s.firstReady = true ∨ s.middleReady = true

def Serves (s : PduRead) (i : PduReadIn) : Prop :=
  ∀ m ∈ s.accepted i, (m.isMatch = false → m.flits ≠ 0) ∧ i.rdAlmostFull = false ∧ i.respAlmostFull = false

theorem Between.cpuReady (h : s.Between) (i : PduReadIn) : s.cpuReady i = !i.nomatchAlmostFull := by
  unfold PduRead.cpuReady
  rcases h with h | h | h
  · simp [h]
  · simp [h]
  · simp [h]

theorem accepted_of_not_between (hi : s.state ≠ .idle) (hf : s.firstReady = false) (hm : s.middleReady = false) : s.accepted i = none := by
  unfold accepted cpuReady
  rw [if_neg]
  simp [hi, hf, hm]

theorem fits_idle (h : s.state = .idle) : Fits s := by
  constructor <;> intro h' <;> rw [h] at h' <;> cases h'

theorem fits_init (h : s.state = .init) (hv : s.freeValid = true) : Fits s := by
  refine ⟨fun _ h' => absurd (hv.symm.trans h') (by decide), ?_, ?_⟩ <;> intro h' <;> rw [h] at h' <;> cases h'

theorem fits_middle (h : s.state = .middle) (hfit : s.cur.isMatch = false ∧ 0 < s.flitsCnt ∧ s.flitsCnt < s.cur.flits.toNat ∧
    s.rdAddr + 1 = s.cur.pduId.toNat * 32 + s.flitsCnt) : Fits s := by
  refine ⟨?_, ?_, fun _ => hfit⟩ <;> intro h' <;> rw [h] at h' <;> cases h'

theorem nextJob_eq (hb : s.Between) (hs : s.Serves i) : nextJob i = if (s.accepted i).isSome then .first else .idle := by
  have hr := hb.cpuReady i
  unfold nextJob
  congr 1
  cases ha : s.accepted i with
  | some m =>
    obtain ⟨-, h1, h2⟩ := hs m ha
    unfold accepted at ha
    split at ha
    · rename_i hc
      rw [hr] at hc
      have hn : i.nomatchAlmostFull = false := by simpa using hc
      simp [readyToMove, ha, hn, h1, h2]
    · cases ha
  | none =>
    unfold accepted at ha
    rw [hr] at ha
    cases hn : i.nomatchAlmostFull with
    | true => simp [readyToMove, hn]
    | false =>
      rw [hn] at ha
      have hcpu : i.cpu = none := ha
      simp [readyToMove, hcpu]

theorem next_held {s' : PduRead} (hb : s.Between) (hs : s.Serves i) (hst : s'.state = nextJob i)
    (hcur : s'.cur = (s.accepted i).getD s.cur) :
    s'.held = ((s.accepted i).map CpuMeta.pduId).toList ++ s'.returning ∧ s'.todo = ((s.accepted i).map CpuMeta.requests).getD [] := by
  rw [nextJob_eq hb hs] at hst
  cases ha : s.accepted i with
  | none =>
    rw [ha] at hst
    change s'.state = .idle at hst
    unfold held todo
    rw [hst]
    exact ⟨rfl, rfl⟩
  | some m =>
    rw [ha] at hst hcur
    change s'.state = .first at hst
    change s'.cur = m at hcur
    unfold held todo
    rw [hst, hcur]
    exact ⟨rfl, rfl⟩

theorem next_fits {s' : PduRead} (hb : s.Between) (hs : s.Serves i) (hst : s'.state = nextJob i)
    (hcur : s'.cur = (s.accepted i).getD s.cur) (hcnt : s'.flitsCnt = 0) : Fits s' := by
  rw [nextJob_eq hb hs] at hst
  cases ha : s.accepted i with
  | none =>
    rw [ha] at hst
    exact fits_idle hst
  | some m =>
    rw [ha] at hst hcur
    change s'.state = .first at hst
    change s'.cur = m at hcur
    constructor
    · intro h
      rw [hst] at h
      cases h
    · intro _
      rw [hcur]
      exact ⟨hcnt, (hs m ha).1⟩
    · intro h
      rw [hst] at h
      cases h

/-- What one edge does: the registers stay in order, requests move from `todo` to what is
registered, and ids move but none is lost or made. -/
structure Moves (s : PduRead) (i : PduReadIn) : Prop where
  fits : Fits (s.step i)
  reqs : s.emits ++ (s.step i).todo = s.todo ++ ((s.accepted i).map CpuMeta.requests).getD []
  ids : (s.returning ++ (s.step i).held).Perm (((s.accepted i).map CpuMeta.pduId).toList ++ s.held)

theorem moves_last {s' : PduRead} (hstep : s.step i = s') (hb : s.Between) (hs : s.Serves i) (hst : s'.state = nextJob i)
    (hcur : s'.cur = (s.accepted i).getD s.cur) (hcnt : s'.flitsCnt = 0) (hemit : s.emits = s.todo)
    (hret : s'.returning = [s.cur.pduId]) (hheld : s.held = s.cur.pduId :: s.returning) : Moves s i := by
  obtain ⟨hh, ht⟩ := next_held hb hs hst hcur
  subst hstep
  refine ⟨next_fits hb hs hst hcur hcnt, by rw [hemit, ht], ?_⟩
  rw [hh, hret, hheld]
  -- `returning ++ (acc ++ [id])` and `acc ++ id :: returning`
  refine List.perm_append_comm.trans ?_
  rw [List.append_assoc]
  exact List.Perm.refl _

theorem moves_idle (hst : s.state = .idle) (hs : s.Serves i) : Moves s i := by
  have hb : s.Between := .inl hst
  have hstep : s.step i = { s with cur := (s.accepted i).getD s.cur, flitsCnt := 0, freeValid := false, state := nextJob i } := by
    simp [step, hst]
  have hnext : (s.step i).state = nextJob i := by rw [hstep]
  have hcur : (s.step i).cur = (s.accepted i).getD s.cur := by rw [hstep]
  obtain ⟨hh, ht⟩ := next_held hb hs hnext hcur
  refine ⟨next_fits hb hs hnext hcur (by rw [hstep]), ?_, ?_⟩
  · rw [ht]
    simp [emits, todo, hst]
  · have hret : (s.step i).returning = [] := by simp [hstep, returning]
    have hheld : s.held = s.returning := by simp [held, hst]
    rw [hh, hret, hheld, List.append_nil]
    exact List.perm_append_comm

theorem request_zero (m : CpuMeta) : m.request 0 = (⟨m.pduId.toNat <<< 5, true, m.flits == 1⟩,
    ⟨true, m.flits == 1, if m.flits == 1 then lastEmpty m else 0⟩) := by
  have h1 : (1 == m.flits.toNat) = (m.flits == 1) := by
    rw [Bool.eq_iff_iff, beq_iff_eq, beq_iff_eq, BitVec.toNat_eq]
    exact eq_comm
  simp only [CpuMeta.request, Nat.zero_add, Nat.add_zero, h1, Nat.shiftLeft_eq]
  rfl

theorem moves_first (hst : s.state = .first) (hf : Fits s) (hs : s.Serves i) : Moves s i := by
  obtain ⟨hcnt, hne⟩ := hf.first hst
  have htodo : s.todo = s.cur.requests := by simp [todo, hst]
  have hheld : s.held = s.cur.pduId :: s.returning := by simp [held, hst]
  by_cases hm : s.cur.isMatch = true
  · have hstep : s.step i = { s with cur := (s.accepted i).getD s.cur, freeValid := true, freeData := s.cur.pduId, state := nextJob i } := by
      simp [step, hst, hm]
    refine moves_last hstep (.inr (.inl (by simp [firstReady, hst, hm]))) hs rfl rfl hcnt ?_ (by simp [returning]) hheld
    rw [htodo, CpuMeta.requests, if_pos hm]
    simp [emits, hst, hm]
  · rw [Bool.not_eq_true] at hm
    have hpos : 0 < s.cur.flits.toNat := by
      have := hne hm
      rw [Ne, BitVec.toNat_eq] at this
      exact Nat.pos_of_ne_zero this
    have hemit : s.emits = [s.cur.request 0] := by
      rw [request_zero]
      simp [emits, hst, hm]
    have hdrop : s.cur.requests = s.cur.request 0 :: s.cur.requests.drop 1 := by
      have := s.cur.drop_requests hm hpos
      rwa [List.drop_zero] at this
    by_cases h1 : s.cur.flits = 1
    · have hstep : s.step i = { s with
          cur := (s.accepted i).getD s.cur, rdAddr := s.cur.pduId.toNat <<< 5, freeValid := true, freeData := s.cur.pduId, state := nextJob i } := by
        simp [step, hst, hm, h1]
      refine moves_last hstep (.inr (.inl (by simp [firstReady, hst, h1]))) hs rfl rfl hcnt ?_ (by simp [returning]) hheld
      have hend := s.cur.drop_requests_end hm
      rw [h1] at hend
      rw [hemit, htodo, hdrop]
      exact congrArg _ hend.symm
    · have hlt : 1 < s.cur.flits.toNat := by
        have hnat : ¬ s.cur.flits.toNat = 1 := fun h => h1 (BitVec.eq_of_toNat_eq h)
        omega
      replace h1 : ¬ s.cur.flits = 1#5 := h1
      have hacc : s.accepted i = none :=
        accepted_of_not_between (by rw [hst]; decide) (by simp [firstReady, hst, hm, h1]) (by simp [middleReady, hst])
      have hstep : s.step i = { s with
          cur := s.cur, rdAddr := s.cur.pduId.toNat <<< 5, freeValid := false, flitsCnt := 1, state := .middle } := by
        simp [step, hst, hm, h1, hacc, hcnt]
      refine ⟨?_, ?_, ?_⟩
      · rw [hstep]
        exact fits_middle rfl ⟨hm, Nat.one_pos, hlt, by rw [Nat.shiftLeft_eq]⟩
      · rw [hemit, htodo, hacc, hstep]
        change _ ++ s.cur.requests.drop 1 = _ ++ []
        rw [List.append_nil, hdrop]
        rfl
      · rw [hacc, hheld, hstep]
        exact List.perm_append_comm

theorem request_next {m : CpuMeta} {k a : Nat} (hk : 0 < k) (ha : a + 1 = m.pduId.toNat * 32 + k) (hlt : k < m.flits.toNat) :
    m.request k = (⟨(a + 1) % 2 ^ 27, false, k + 1 == m.flits.toNat⟩,
      ⟨false, k + 1 == m.flits.toNat, if k + 1 == m.flits.toNat then lastEmpty m else 0⟩) := by
  have h0 : (k == 0) = false := by
    rw [beq_eq_false_iff_ne]
    exact Nat.pos_iff_ne_zero.1 hk
  have hid := m.pduId.isLt
  have hfl := m.flits.isLt
  have hsmall : (a + 1) % 2 ^ 27 = m.pduId.toNat * 32 + k := by
    rw [ha]
    exact Nat.mod_eq_of_lt (by omega)
  simp only [CpuMeta.request, h0, hsmall]

theorem moves_middle (hst : s.state = .middle) (hf : Fits s) (hs : s.Serves i) : Moves s i := by
  obtain ⟨hm, hpos, hlt, haddr⟩ := hf.middle hst
  have htodo : s.todo = s.cur.request s.flitsCnt :: s.cur.requests.drop (s.flitsCnt + 1) := by
    rw [← s.cur.drop_requests hm hlt]
    simp [todo, hst]
  have hheld : s.held = s.cur.pduId :: s.returning := by simp [held, hst]
  have hemit : s.emits = [s.cur.request s.flitsCnt] := by
    rw [request_next hpos haddr hlt]
    simp [emits, hst, atLast]
  by_cases hl : s.atLast = true
  · have hstep : s.step i = { s with
        cur := (s.accepted i).getD s.cur, rdAddr := (s.rdAddr + 1) % 2 ^ 27, freeValid := true, freeData := s.cur.pduId,
        flitsCnt := 0, state := nextJob i } := by
      simp [step, hst, hl]
    refine moves_last hstep (.inr (.inr (by simp [middleReady, hst, hl]))) hs rfl rfl rfl ?_ (by simp [returning]) hheld
    have hend := s.cur.drop_requests_end hm
    have heq : s.flitsCnt + 1 = s.cur.flits.toNat := by simpa [atLast] using hl
    rw [hemit, htodo, heq, hend]
  · have hne : s.flitsCnt + 1 ≠ s.cur.flits.toNat := by simpa [atLast] using hl
    have hfl := s.cur.flits.isLt
    have hmod : (s.flitsCnt + 1) % 32 = s.flitsCnt + 1 := Nat.mod_eq_of_lt (by omega)
    have hacc : s.accepted i = none :=
      accepted_of_not_between (by rw [hst]; decide) (by simp [firstReady, hst]) (by simp [middleReady, hst, hl])
    have hid := s.cur.pduId.isLt
    have hsmall : (s.rdAddr + 1) % 2 ^ 27 = s.rdAddr + 1 := Nat.mod_eq_of_lt (by omega)
    have hstep : s.step i = { s with cur := s.cur, rdAddr := s.rdAddr + 1, freeValid := false, flitsCnt := s.flitsCnt + 1 } := by
      unfold step
      rw [hst, hacc]
      simp only [hl, hmod, hsmall]
      rfl
    refine ⟨?_, ?_, ?_⟩
    · rw [hstep]
      refine fits_middle hst ⟨hm, Nat.succ_pos _, ?_, ?_⟩
      · change s.flitsCnt + 1 < s.cur.flits.toNat
        omega
      · change s.rdAddr + 1 + 1 = s.cur.pduId.toNat * 32 + (s.flitsCnt + 1)
        omega
    · have htodo' : (s.step i).todo = s.cur.requests.drop (s.flitsCnt + 1) := by simp [hstep, todo, hst]
      rw [hemit, htodo, hacc, htodo']
      exact (List.append_nil _).symm
    · have hheld' : (s.step i).held = [s.cur.pduId] := by simp [hstep, held, hst, returning]
      rw [hacc, hheld, hheld']
      exact List.perm_append_comm

theorem moves_init (hst : s.state = .init) (hf : Fits s) (hready : s.freeValid = true → i.emptylistReady = true) : Moves s i := by
  have hacc : s.accepted i = none :=
    accepted_of_not_between (by rw [hst]; decide) (by simp [firstReady, hst]) (by simp [middleReady, hst])
  have hlocal : ∀ s' : PduRead, s.step i = s' → (s'.state = .init ∨ s'.state = .idle) → s.emits ++ s'.todo = s.todo ++ [] := by
    intro s' _ h
    rcases h with h | h <;> simp [emits, todo, hst, h]
  cases hv : s.freeValid with
  | false =>
    have h0 := hf.init hst hv
    have hstep : s.step i = { s with cur := s.cur, freeValid := true } := by simp [step, hst, hv, hacc]
    refine ⟨fits_init (by rw [hstep]; exact hst) (by rw [hstep]), ?_, ?_⟩
    · rw [hacc]
      exact hlocal _ rfl (.inl (by rw [hstep]; exact hst))
    · have hheld : s.held = allIds := by simp [held, hst, hv]
      have hheld' : (s.step i).held = allIds := by simp [hstep, held, hst, h0, allIds, List.range_eq_range']
      have hret : s.returning = [] := by simp [returning, hv]
      rw [hacc, hheld, hheld', hret]
      exact List.Perm.refl _
  | true =>
    have hr := hready hv
    have hheld : s.held = s.freeData :: (List.range' (s.freeData.toNat + 1) (255 - s.freeData.toNat)).map (BitVec.ofNat 8) := by
      have hlt := s.freeData.isLt
      have hn : 256 - s.freeData.toNat = (255 - s.freeData.toNat) + 1 := by omega
      simp only [held, hst, hv, if_true]
      rw [hn, List.range'_succ, List.map_cons, BitVec.ofNat_toNat, BitVec.setWidth_eq]
    have hret : s.returning = [s.freeData] := by simp [returning, hv]
    by_cases hl : s.freeData = 255
    · have hstep : s.step i = { s with cur := s.cur, freeData := s.freeData + 1, freeValid := false, state := .idle } := by
        simp [step, hst, hv, hr, hl, hacc]
      refine ⟨fits_idle (by rw [hstep]), ?_, ?_⟩
      · rw [hacc]
        exact hlocal _ rfl (.inr (by rw [hstep]))
      · have hheld' : (s.step i).held = [] := by simp [hstep, held, returning]
        rw [hacc, hheld, hheld', hret, hl]
        exact List.Perm.refl _
    · have hlt : s.freeData.toNat < 255 := by
        have hlt := s.freeData.isLt
        have hnat : ¬ s.freeData.toNat = 255 := fun h => hl (BitVec.eq_of_toNat_eq h)
        omega
      replace hl : ¬ s.freeData = 255#8 := hl
      have hstep : s.step i = { s with cur := s.cur, freeData := s.freeData + 1, freeValid := true } := by
        simp [step, hst, hv, hr, hl, hacc]
      have hnat : (s.freeData + 1).toNat = s.freeData.toNat + 1 := by
        rw [BitVec.toNat_add]
        exact Nat.mod_eq_of_lt (by change _ + 1 < 256; omega)
      refine ⟨fits_init (by rw [hstep]; exact hst) (by rw [hstep]), ?_, ?_⟩
      · rw [hacc]
        exact hlocal _ rfl (.inl (by rw [hstep]; exact hst))
      · have hheld' : (s.step i).held = (List.range' (s.freeData.toNat + 1) (255 - s.freeData.toNat)).map (BitVec.ofNat 8) := by
          have hn : 256 - (s.freeData.toNat + 1) = 255 - s.freeData.toNat := by omega
          rw [hstep, held]
          simp only [hst, if_true]
          rw [hnat, hn]
        rw [hacc, hheld, hheld', hret]
        exact List.Perm.refl _

theorem moves (hf : Fits s) (hs : s.Serves i) (hready : s.freeValid = true → i.emptylistReady = true) : Moves s i := by
  cases hst : s.state with
  | init => exact moves_init hst hf hready
  | idle => exact moves_idle hst hs
  | first => exact moves_first hst hf hs
  | middle => exact moves_middle hst hf hs

theorem returning_subset (s : PduRead) : s.returning ⊆ s.held := by
  intro x hx
  unfold returning at hx
  split at hx
  · rename_i hv
    obtain rfl := List.mem_singleton.1 hx
    cases hst : s.state with
    | init =>
      simp only [held, hst, hv, if_true, List.mem_map, List.mem_range']
      exact ⟨s.freeData.toNat, ⟨0, by have := s.freeData.isLt; omega, by omega⟩, by simp⟩
    | idle => simp [held, hst, returning, hv]
    | first => simp [held, hst, returning, hv]
    | middle => simp [held, hst, returning, hv]
  · cases hx

end PduRead

/-! ## Runs -/

namespace ReadSys

open PduRead

variable {s : ReadSys} {t : ReadTick}

/-- Every id is free, out, or with the mover, and the requests so far with those to come are those of the answers so far. -/
structure Inv (s : ReadSys) : Prop where
  fits : Fits s.mover
  ids : (s.free ++ s.out ++ s.mover.held).Perm allIds
  reqs : s.reqs ++ s.mover.todo = (s.jobs.map CpuMeta.requests).flatten

theorem Inv.room (h : Inv s) (hv : s.mover.freeValid = true) : s.free.length < pduNum := by
  have hlen : s.free.length + s.out.length + s.mover.held.length = 256 := by
    have := h.ids.length_eq
    simpa [allIds, Nat.add_assoc] using this
  have hmem : s.mover.freeData ∈ s.mover.held := s.mover.returning_subset (by simp [returning, hv])
  have hpos := List.length_pos_of_mem hmem
  change s.free.length < 256
  omega

theorem pushed_eq (h : Inv s) : s.pushed.toList = s.mover.returning := by
  unfold pushed returning
  by_cases hv : s.mover.freeValid = true
  · have hroom := h.room hv
    simp [hv, hroom]
  · simp [hv]

theorem afterAnswer_perm (hok : s.Ok t) : (((s.accepted t).map CpuMeta.pduId).toList ++ s.afterAnswer t).Perm s.out := by
  unfold afterAnswer
  cases ha : s.accepted t with
  | none => exact List.Perm.refl _
  | some m => exact (List.perm_cons_erase (hok m ha).1).symm

theorem Inv.step (s : ReadSys) (t : ReadTick) (h : Inv s) (hok : s.Ok t) : Inv (s.step t) := by
  have hserve : s.mover.Serves (s.readIn t) := fun m hm => (hok m hm).2
  have hready : s.mover.freeValid = true → (s.readIn t).emptylistReady = true := by
    intro hv
    exact decide_eq_true (h.room hv)
  have hM := moves h.fits hserve hready
  refine ⟨hM.fits, ?_, ?_⟩
  · have hfifo : ((s.taken t).toList ++ (s.step t).free).Perm (s.free ++ s.mover.returning) := by
      have := fifoStep_pop s.free s.pushed t.take
      rw [pushed_eq h] at this
      exact List.Perm.of_eq this
    have hids : (s.mover.returning ++ (s.step t).mover.held).Perm (((s.accepted t).map CpuMeta.pduId).toList ++ s.mover.held) := hM.ids
    rw [List.perm_iff_count]
    intro a
    -- each id is counted: taken ones go from `free` to `out`, answered ones from `out` to the mover
    have h1 := hfifo.count_eq a
    have h2 := hids.count_eq a
    have h3 := (afterAnswer_perm hok).count_eq a
    have h4 := h.ids.count_eq a
    have hout : (s.step t).out = s.afterAnswer t ++ (s.taken t).toList := rfl
    rw [hout]
    simp only [List.count_append] at h1 h2 h3 h4 ⊢
    omega
  · change s.reqs ++ s.mover.emits ++ (s.mover.step (s.readIn t)).todo = ((s.jobs ++ (s.accepted t).toList).map CpuMeta.requests).flatten
    rw [List.append_assoc, hM.reqs, ← List.append_assoc, h.reqs, List.map_append, List.flatten_append]
    congr 1
    change ((s.accepted t).map CpuMeta.requests).getD [] = _
    cases s.accepted t <;> simp

theorem inv_reset : Inv reset := by
  refine ⟨⟨fun _ _ => rfl, ?_, ?_⟩, List.Perm.refl _, rfl⟩
  · intro h
    cases h
  · intro h
    cases h

theorem inv_run (ts : List ReadTick) (h : AllSteps step Ok reset ts) : Inv (run step reset ts) :=
  run_inv step Inv.step ts reset inv_reset h

theorem nodup_allIds : allIds.Nodup := by
  refine List.Nodup.map_on ?_ List.nodup_range
  intro a ha b hb hab
  have := congrArg BitVec.toNat hab
  rwa [BitVec.toNat_ofNat, BitVec.toNat_ofNat, Nat.mod_eq_of_lt (List.mem_range.1 ha), Nat.mod_eq_of_lt (List.mem_range.1 hb)] at this

/-- The reads are those that the answers of the host ask for, in their order, flit by flit, and all of
them when the mover is idle. -/
theorem reads_answered (ts : List ReadTick) (h : AllSteps step Ok reset ts) :
    let s := run step reset ts
    s.reqs <+: (s.jobs.map CpuMeta.requests).flatten ∧
      (s.mover.state = .idle → s.reqs = (s.jobs.map CpuMeta.requests).flatten) := by
  intro s
  have hI := inv_run ts h
  refine ⟨⟨_, hI.reqs⟩, ?_⟩
  intro hst
  have htodo : s.mover.todo = [] := by simp [todo, hst]
  rw [← hI.reqs, htodo, List.append_nil]

/-- The ids are laid out, two of them are taken, and the host answers the second with a packet of
three flits and the first with a match. -/
def twoAnswers : List ReadTick :=
  let rest : ReadTick := ⟨none, false, false, false, false⟩
  List.replicate 257 rest ++ [{ rest with take := true }, { rest with take := true },
    { rest with cpu := some ⟨1, false, 3, 150⟩ }, rest, rest, { rest with cpu := some ⟨0, true, 1, 60⟩ }, rest, rest]

theorem twoAnswers_ok : AllSteps step Ok reset twoAnswers := by decide +kernel

-- one evaluation of the run for both witnesses
theorem twoAnswers_run : (run step reset twoAnswers).jobs.length = 2 ∧
    (run step reset twoAnswers).reqs.map (fun r => (r.1.addr, r.1.eop)) = [(32, false), (33, false), (34, true)] ∧
    (run step reset twoAnswers).mover.state = .idle := by decide +kernel

theorem reads_answered_twoAnswers : AllSteps step Ok reset twoAnswers ∧
    (run step reset twoAnswers).reqs.map (fun r => (r.1.addr, r.1.eop)) = [(32, false), (33, false), (34, true)] ∧
    (run step reset twoAnswers).reqs = ((run step reset twoAnswers).jobs.map CpuMeta.requests).flatten :=
  ⟨twoAnswers_ok, twoAnswers_run.2.1, (reads_answered twoAnswers twoAnswers_ok).2 twoAnswers_run.2.2⟩

end ReadSys

end Pigasus
