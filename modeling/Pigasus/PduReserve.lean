import Pigasus.PcieRing
import Pigasus.PduGenSound
import Pigasus.RulePackerSound

/-!
# PDUs and the reserves of the rings

`ring_buffer` keeps `THRESHOLD` slots free for a PDU, and the host has a page
behind its ring for the slots of a PDU that wraps. `rule_packer_32_512` in front
of `pdu_gen` puts sixteen words into a flit and no limit on the flits of a group.
-/

namespace Pigasus

open Hdl Frames

def threshold : Nat := 64  -- `THRESHOLD` of `ring_buffer`

/-- `allocated_size` of `dma_run`, in bytes: the word of the tail in a slot of its own, the ring and a page. -/
def allocatedSize : Nat := (bufferSize + 1) * 16 * 4 + 4096

/-- `copy_size` of `dma_run`. -/
def copySize (cpuHead pduFlit : Nat) : Nat := if cpuHead + pduFlit > bufferSize then cpuHead + pduFlit - bufferSize else 0

/-- The first byte behind the `memcpy`, which starts at `kdata[(BUFFER_SIZE+1)*16]`. -/
def copyEnd (cpuHead pduFlit : Nat) : Nat := (bufferSize + 1) * 16 * 4 + copySize cpuHead pduFlit * 16 * 4

/-! ## The rule path -/

def Flit.toFlit512 (f : Flit 32 16) : Flit512 where
  data := (List.finRange 16).foldr (fun j x => x <<< 32 ||| (f.data j).setWidth 512) 0
  sop := f.sop
  eop := f.eop
  empty := 0

def groupBeats (ws : List (BitVec 32)) : List (RuleBeat 32) := ws.map wordBeat ++ [eopBeat]

structure PduJob where
  pkt : StreamPkt
  words : List (BitVec 32)

/-- The packer and the generator; the rules of the generator are the queue between the two. Beside them the slots that
the PDU under way has so far, and for each committed PDU its slots and the size that was announced. -/
structure RulePath where
  front : PackSys 32 16
  pdu : PduSys
  filled : Nat
  pdus : List (Nat × BitVec 12)

structure RulePathTick where
  front : PackTick
  pdu : PduTick
  metaData : Metadata
  base : PduAddr

namespace RulePath

def reset (g : PduGen) (jobs : List PduJob) (mem : PduAddr → PduSlot) : RulePath :=
  ⟨.reset (jobs.flatMap fun j => groupBeats j.words), ⟨g, jobs.flatMap fun j => j.pkt.flits, [], mem, []⟩, 0, []⟩

/-- A flit of the packet, a flit of rules and the header take a slot each; the beat that ends the rules takes none. -/
def fill (n : Nat) (s : PduSys) (t : RulePathTick) : Nat :=
  match s.gen.state with
  | .start => 0
  | .write => n + (s.genIn t.metaData t.base t.pdu).pkt.toList.length
  | .writeRuleId => n + ((s.genIn t.metaData t.base t.pdu).rule.toList.filter fun f => !f.eop).length
  | .writeHead => n + 1
  | .wait => n

def step (s : RulePath) (t : RulePathTick) : RulePath :=
  let q := s.pdu.step t.metaData t.base t.pdu
  let n := fill s.filled s.pdu t
  { front := s.front.step packer32 t.front
    pdu := { q with rules := q.rules ++ (s.front.accepted t.front).map Flit.toFlit512 }
    filled := n
    pdus := if q.gen.updateValid then s.pdus ++ [(n, q.gen.updateSize)] else s.pdus }

end RulePath

def wordFlits (k : Nat) : Nat := (k + 15) / 16

def PduJob.slots (j : PduJob) : Nat := j.pkt.flits.length + wordFlits j.words.length + 1

def groupMarks (ws : List (BitVec 32)) : List Bool := List.replicate (wordFlits ws.length) false ++ [true]

/-! ## The packer -/

namespace PackSys

variable {κ : PackerKind 32 16} {s : PackSys 32 16} {i : PackTick}

def marks (s : PackSys 32 16) : List Bool := (s.flits ++ s.waiting).map Flit.eop

/-- The marks of the flits still to be put out, with `c` words in the register. -/
def toCome (c : Nat) : List (RuleBeat 32) → List Bool
  | [] => []
  | b :: bs =>
    if b.eop then if c = 0 then true :: toCome 0 bs else false :: true :: toCome 0 bs
    else if c + 1 = 16 then false :: toCome 0 bs else toCome (c + 1) bs

theorem toCome_group (ws : List (BitVec 32)) (bs : List (RuleBeat 32)) {c : Nat} (hc : c < 16) :
    toCome c (groupBeats ws ++ bs) = List.replicate (wordFlits (c + ws.length)) false ++ true :: toCome 0 bs := by
  induction ws generalizing c with
  | nil =>
    show toCome c (eopBeat :: bs) = _
    by_cases h0 : c = 0
    · simp [toCome, eopBeat, h0, wordFlits]
    · have hw : wordFlits (c + ([] : List (BitVec 32)).length) = 1 := by
        simp only [wordFlits, List.length_nil]
        omega
      rw [hw]
      simp [toCome, eopBeat, h0]
  | cons w ws ih =>
    show toCome c (wordBeat w :: (groupBeats ws ++ bs)) = _
    rw [List.length_cons]
    by_cases hfull : c + 1 = 16
    · rw [toCome, if_neg (by simp [wordBeat]), if_pos hfull, ih (by decide),
        show wordFlits (c + (ws.length + 1)) = wordFlits (0 + ws.length) + 1 by unfold wordFlits; omega, List.replicate_succ]
      rfl
    · rw [toCome, if_neg (by simp [wordBeat]), if_neg hfull, ih (by omega), show c + (ws.length + 1) = c + 1 + ws.length by omega]

theorem toCome_groups (gs : List (List (BitVec 32))) : toCome 0 (gs.flatMap groupBeats) = gs.flatMap groupMarks := by
  induction gs with
  | nil => rfl
  | cons ws gs ih =>
    rw [List.flatMap_cons, toCome_group ws _ (by decide), ih, Nat.zero_add, List.flatMap_cons, groupMarks, List.append_assoc]
    rfl

theorem marks_of_not_ready (hr : i.ready = false) : (s.step κ i).marks = s.marks := by
  have hacc : s.accepted i = [] := by simp [accepted, hr]
  have hpk : (s.step κ i).pk = { s.pk with outData := s.pk.nextData κ (s.packIn i) } := by
    simp [step, Packer.step, packIn, hr]
  have hw : (s.step κ i).waiting.map Flit.eop = s.waiting.map Flit.eop := by
    unfold waiting
    rw [hpk]
    cases s.pk.outValid <;> rfl
  rw [marks, marks, List.map_append, List.map_append, hw]
  simp [step, hacc]

theorem marks_of_ready (hr : i.ready = true) :
    (s.step κ i).marks =
      s.marks ++ if s.pk.forms (s.packIn i) then [(s.packIn i).beat.eop && s.pk.intCnt == 0] else [] := by
  have hacc : s.accepted i = s.waiting := by simp [accepted, waiting, hr]
  have hpk : (s.step κ i).pk = s.pk.step κ (s.packIn i) := rfl
  have hready : (s.packIn i).outReady = true := hr
  have hw : (s.step κ i).waiting.map Flit.eop =
      if s.pk.forms (s.packIn i) then [(s.packIn i).beat.eop && s.pk.intCnt == 0] else [] := by
    rw [waiting, hpk, Packer.step, if_pos hready]
    by_cases hf : s.pk.forms (s.packIn i) = true
    · have hv : (s.packIn i).valid = true := by
        rw [Packer.forms, Bool.and_eq_true] at hf
        exact hf.1
      simp [hf, hv, Packer.flit]
    · simp [hf]
  rw [marks, marks, List.map_append, hw, ← hacc]
  rfl

theorem marks_toCome_step :
    (s.step κ i).marks ++ toCome (s.step κ i).pk.intCnt (s.step κ i).pend = s.marks ++ toCome s.pk.intCnt s.pend := by
  by_cases hr : i.ready = true
  swap
  · have hr := Bool.eq_false_iff.2 hr
    have ht : s.takes i = false := by simp [takes, Packer.inReady, packIn, hr]
    have hcnt : (s.step κ i).pk.intCnt = s.pk.intCnt := by simp [step, Packer.step, packIn, hr]
    rw [marks_of_not_ready hr, hcnt]
    simp [step, ht]
  have hready : (s.packIn i).outReady = true := hr
  have hcnt : (s.step κ i).pk.intCnt =
      if (s.packIn i).valid then if s.pk.forms (s.packIn i) then 0 else s.pk.intCnt + 1 else s.pk.intCnt := by
    simp [step, Packer.step, hready]
  have hpend : (s.step κ i).pend = if s.takes i then s.pend.tail else s.pend := rfl
  rw [marks_of_ready hr, hcnt, hpend, List.append_assoc]
  by_cases hv : (s.packIn i).valid = true
  swap
  · have hv := Bool.eq_false_iff.2 hv
    have hf : s.pk.forms (s.packIn i) = false := by simp [Packer.forms, hv]
    have ht : s.takes i = false := by simp [takes, hv]
    simp [hf, hv, ht]
  -- a word, the sixteenth of which puts the flit out; an end, before which the words that wait go out
  obtain ⟨b, bs, hb, hbeat⟩ : ∃ b bs, s.pend = b :: bs ∧ (s.packIn i).beat = b := ⟨_, _, pend_of_valid hv, rfl⟩
  rw [if_pos hv, hb]
  by_cases he : b.eop = true
  · have hf : s.pk.forms (s.packIn i) = true := by simp [Packer.forms, hv, hbeat, he]
    by_cases hc : s.pk.intCnt = 0
    · have ht : s.takes i = true := by simp [takes, hv, Packer.inReady, hready, hc]
      simp [hf, ht, hc, hbeat, he, toCome]
    · have ht : s.takes i = false := by simp [takes, Packer.inReady, hbeat, he, hc]
      simp [hf, ht, hc, hbeat, he, toCome]
  · have ht : s.takes i = true := by simp [takes, hv, Packer.inReady, hready, hbeat, he]
    by_cases hfull : s.pk.intCnt + 1 = 16
    · have hf : s.pk.forms (s.packIn i) = true := by simp [Packer.forms, hv, hfull]
      rw [if_pos hf, if_pos hf, if_pos ht, toCome, if_neg he, if_pos hfull, hbeat, Bool.eq_false_iff.2 he]
      rfl
    · have hf : ¬ s.pk.forms (s.packIn i) = true := by
        simp only [Packer.forms, hv, hbeat, Bool.eq_false_iff.2 he, Bool.true_and, Bool.false_or, beq_iff_eq]
        exact hfull
      rw [if_neg hf, if_neg hf, if_pos ht, toCome, if_neg he, if_neg hfull]
      rfl

end PackSys

/-! ## The generator -/

namespace PduSys

variable {jobs past : List PduJob} {ms : List Bool} {s : PduSys} {t : RulePathTick} {n : Nat}

def pktsOf (jobs : List PduJob) : List Flit512 := jobs.flatMap fun j => j.pkt.flits

def marksOf (jobs : List PduJob) : List Bool := jobs.flatMap fun j => groupMarks j.words

/-- The generator is done with the jobs `past`: `pkt` has the flits of packets that it has not taken yet, `marks` the marks
of the rule flits. Of the job at hand it has counted what it has taken. -/
inductive Counts (jobs past : List PduJob) (g : PduGen) (pkt : List Flit512) (marks : List Bool) (n : Nat) : Prop
  | start (r : List PduJob) (hr : jobs = past ++ r) (hs : g.state = .start ∨ g.state = .wait) (pkt : pkt = pktsOf r)
      (marks : marks = marksOf r)
  | idle (hr : jobs = past) (hs : g.state = .write) (low : g.updateValid = false) (pkt : pkt = []) (marks : marks = [])
  | write (j : PduJob) (r : List PduJob) (hr : jobs = past ++ j :: r) (a b : List Flit512) (hs : g.state = .write)
      (low : g.updateValid = false) (split : j.pkt.flits = a ++ b) (more : b ≠ []) (pkt : pkt = b ++ pktsOf r)
      (marks : marks = groupMarks j.words ++ marksOf r) (flit : g.pduFlit = BitVec.ofNat 16 n) (size : n = a.length)
  | rules (j : PduJob) (r : List PduJob) (hr : jobs = past ++ j :: r) (k : Nat) (hs : g.state = .writeRuleId)
      (low : g.updateValid = false) (pkt : pkt = pktsOf r) (marks : marks = List.replicate k false ++ true :: marksOf r)
      (flit : g.pduFlit = BitVec.ofNat 16 n) (size : n + k + 1 = j.slots)
  | head (j : PduJob) (r : List PduJob) (hr : jobs = past ++ j :: r) (hs : g.state = .writeHead) (pkt : pkt = pktsOf r)
      (marks : marks = marksOf r) (flit : g.pduFlit = BitVec.ofNat 16 (n + 1)) (size : n + 1 = j.slots)

def genNext (s : PduSys) (t : RulePathTick) : PduGen := s.gen.step (s.genIn t.metaData t.base t.pdu)

def pktNext (s : PduSys) (t : RulePathTick) : List Flit512 := (s.step t.metaData t.base t.pdu).pkt

def rulesNext (s : PduSys) (t : RulePathTick) : List Flit512 := (s.step t.metaData t.base t.pdu).rules

theorem pkt_of_state (h : s.gen.state ≠ .write) : s.pktNext t = s.pkt := by
  simp [pktNext, step, h]

theorem rules_of_state (h : s.gen.state ≠ .writeRuleId) : s.rulesNext t = s.rules := by
  simp [rulesNext, step, h]

theorem updateValid_of_write (hs : s.gen.state = .write) : (s.genNext t).updateValid = s.gen.updateValid := by
  rw [genNext, PduGen.step, hs]
  cases (s.genIn t.metaData t.base t.pdu).pkt <;> rfl

theorem updateValid_of_rule (hs : s.gen.state = .writeRuleId) : (s.genNext t).updateValid = s.gen.updateValid := by
  rw [genNext, PduGen.step, hs]
  cases (s.genIn t.metaData t.base t.pdu).rule with
  | none => rfl
  | some f =>
    show (s.gen.writeRule f).updateValid = s.gen.updateValid
    unfold PduGen.writeRule
    split <;> rfl

/-- What a step does for the jobs: nothing is committed, and one may be given up; or the job at hand is committed. -/
def Moves (jobs past : List PduJob) (s : PduSys) (t : RulePathTick) (ms : List Bool) (n : Nat) : Prop :=
  ((s.genNext t).updateValid = false ∧ ∃ past', past <+: past' ∧ Counts jobs past' (s.genNext t) (s.pktNext t) ms n) ∨
    ∃ j, (s.genNext t).updateValid = true ∧ n = j.slots ∧ (s.genNext t).updateSize = BitVec.ofNat 12 n ∧
      Counts jobs (past ++ [j]) (s.genNext t) (s.pktNext t) ms n

theorem Counts.quiet (h : Counts jobs past (s.genNext t) (s.pktNext t) ms n) (hv : (s.genNext t).updateValid = false) :
    Moves jobs past s t ms n :=
  .inl ⟨hv, past, List.prefix_refl past, h⟩

namespace Counts

variable {j : PduJob} {r : List PduJob}

theorem start_step (hr : jobs = past ++ r) (hs : s.gen.state = .start ∨ s.gen.state = .wait) (pkt : s.pkt = pktsOf r)
    (marks : ms = marksOf r) : Moves jobs past s t ms (RulePath.fill n s t) := by
  have hpkt : s.pktNext t = pktsOf r := by
    rw [pkt_of_state, pkt]
    rcases hs with hs | hs <;> simp [hs]
  have hlow : (s.genNext t).updateValid = false := by
    rcases hs with hs | hs <;> simp [genNext, PduGen.step, hs]
  refine quiet ?_ hlow
  rcases hs with hs | hs
  · have hn : RulePath.fill n s t = 0 := by simp [RulePath.fill, hs]
    rw [hn]
    by_cases hc : s.gen.canStart (s.genIn t.metaData t.base t.pdu) = true
    · have hgen : (s.genNext t).state = .write ∧ (s.genNext t).pduFlit = 0 := by
        simp [genNext, PduGen.step, hs, hc]
      cases r with
      | nil => exact .idle (by rw [hr, List.append_nil]) hgen.1 hlow hpkt marks
      | cons j r => exact .write j r hr [] j.pkt.flits hgen.1 hlow rfl j.pkt.toMarked.flits_ne_nil hpkt marks hgen.2 rfl
    · refine .start r hr (.inl ?_) hpkt marks
      simp [genNext, PduGen.step, hs, hc]
  · refine .start r hr ?_ hpkt marks
    by_cases hc : (s.genIn t.metaData t.base t.pdu).pdumetaReady = true <;> simp [genNext, PduGen.step, hs, hc]

theorem write_step (hr : jobs = past ++ j :: r) {a b : List Flit512} (hs : s.gen.state = .write) (low : s.gen.updateValid = false)
    (split : j.pkt.flits = a ++ b) (more : b ≠ []) (pkt : s.pkt = b ++ pktsOf r) (marks : ms = groupMarks j.words ++ marksOf r)
    (flit : s.gen.pduFlit = BitVec.ofNat 16 n) (size : n = a.length) : Moves jobs past s t ms (RulePath.fill n s t) := by
  have hlow : (s.genNext t).updateValid = false := (updateValid_of_write hs).trans low
  refine quiet ?_ hlow
  obtain ⟨x, b, rfl⟩ := List.exists_cons_of_ne_nil more
  by_cases hv : t.pdu.pktValid = true
  · have hin : (s.genIn t.metaData t.base t.pdu).pkt = some x := by simp [genIn, hv, pkt]
    have hn : RulePath.fill n s t = n + 1 := by simp [RulePath.fill, hs, hin]
    have hgen : s.genNext t = s.gen.writePkt (s.genIn t.metaData t.base t.pdu) x := by simp [genNext, PduGen.step, hs, hin]
    have hpkt : s.pktNext t = b ++ pktsOf r := by simp [pktNext, step, hs, hv, pkt]
    have hflit : (s.genNext t).pduFlit = BitVec.ofNat 16 (n + 1) := by
      rw [hgen, PduGen.writePkt, flit]
      exact ofNat_succ _
    have heop : x.eop = true ↔ b = [] := j.pkt.toMarked.mark_iff split
    rw [hn]
    by_cases he : b = []
    · refine .rules j r hr (wordFlits j.words.length) ?_ hlow ?_ ?_ hflit ?_
      · simp [hgen, PduGen.writePkt, heop.2 he]
      · rw [hpkt, he, List.nil_append]
      · rw [marks, groupMarks, List.append_assoc, List.singleton_append]
      · rw [PduJob.slots, split, he, size, List.length_append, List.length_singleton]
    · refine .write j r hr (a ++ [x]) b ?_ hlow ?_ he hpkt marks hflit ?_
      · simp [hgen, PduGen.writePkt, Bool.eq_false_iff.2 (mt heop.1 he)]
      · rw [split, List.append_assoc, List.singleton_append]
      · rw [size, List.length_append, List.length_singleton]
  · have hin : (s.genIn t.metaData t.base t.pdu).pkt = none := by simp [genIn, hv]
    have hn : RulePath.fill n s t = n := by simp [RulePath.fill, hs, hin]
    rw [hn]
    refine .write j r hr a (x :: b) ?_ hlow split more ?_ marks ?_ size
    · simp [genNext, PduGen.step, hs, hin]
    · rw [← pkt]
      simp [pktNext, step, hv]
    · rw [← flit]
      simp [genNext, PduGen.step, hs, hin]

theorem idle_step (hr : jobs = past) (hs : s.gen.state = .write) (low : s.gen.updateValid = false) (pkt : s.pkt = [])
    (marks : ms = []) : Moves jobs past s t ms (RulePath.fill n s t) := by
  have hin : (s.genIn t.metaData t.base t.pdu).pkt = none := by simp [genIn, pkt]
  have hlow : (s.genNext t).updateValid = false := (updateValid_of_write hs).trans low
  refine quiet (.idle hr ?_ hlow (by simp [pktNext, step, pkt]) marks) hlow
  simp [genNext, PduGen.step, hs, hin]

theorem rules_step {k : Nat} {late : List Bool} (hr : jobs = past ++ j :: r) (hs : s.gen.state = .writeRuleId)
    (low : s.gen.updateValid = false) (pkt : s.pkt = pktsOf r)
    (marks : s.rules.map Flit512.eop ++ late = List.replicate k false ++ true :: marksOf r)
    (flit : s.gen.pduFlit = BitVec.ofNat 16 n) (size : n + k + 1 = j.slots) :
    Moves jobs past s t ((s.rulesNext t).map Flit512.eop ++ late) (RulePath.fill n s t) := by
  have hlow : (s.genNext t).updateValid = false := (updateValid_of_rule hs).trans low
  have hpkt : s.pktNext t = pktsOf r := by rw [pkt_of_state (by simp [hs]), pkt]
  cases hin : (s.genIn t.metaData t.base t.pdu).rule with
  | none =>
    have hrules : s.rulesNext t = s.rules := by
      by_cases hv : t.pdu.ruleValid = true
      · have hnil : s.rules = [] := by simpa [genIn, hv] using hin
        simp [rulesNext, step, hnil]
      · simp [rulesNext, step, hv]
    have hn : RulePath.fill n s t = n := by simp [RulePath.fill, hs, hin]
    rw [hn]
    refine quiet (.rules j r hr k ?_ hlow hpkt (hrules ▸ marks) ?_ size) hlow
    · simp [genNext, PduGen.step, hs, hin]
    · rw [← flit]
      simp [genNext, PduGen.step, hs, hin]
  | some f =>
    have hgen : s.genNext t = s.gen.writeRule f := by simp [genNext, PduGen.step, hs, hin]
    have hv : t.pdu.ruleValid = true := by
      by_contra hv
      simp [genIn, hv] at hin
    obtain ⟨fs, hfs⟩ : ∃ fs, s.rules = f :: fs := by
      apply List.head?_eq_some_iff.1
      simpa [genIn, hv] using hin
    have hrules : s.rulesNext t = fs := by simp [rulesNext, step, hs, hv, hfs]
    have hflit : (s.genNext t).pduFlit = BitVec.ofNat 16 (n + 1) := by
      rw [hgen, ← ofNat_succ, ← flit]
      unfold PduGen.writeRule
      split <;> rfl
    rw [hfs] at marks
    rw [hrules]
    cases k with
    | zero =>
      obtain ⟨he, hmarks⟩ := List.cons.inj marks
      have hn : RulePath.fill n s t = n := by simp [RulePath.fill, hs, hin, he]
      rw [hn]
      by_cases hc : 0 < s.gen.ruleCnt
      · refine quiet (.head j r hr ?_ hpkt hmarks hflit size) hlow
        rw [hgen, PduGen.writeRule, if_pos he]
        exact if_pos hc
      · -- no rule flit was counted: the packet is given up
        refine .inl ⟨hlow, past ++ [j], List.prefix_append _ _, .start r (by rw [hr, List.append_assoc]; rfl) (.inr ?_) hpkt hmarks⟩
        rw [hgen, PduGen.writeRule, if_pos he]
        exact if_neg hc
    | succ k =>
      obtain ⟨he, hmarks⟩ := List.cons.inj marks
      have hn : RulePath.fill n s t = n + 1 := by simp [RulePath.fill, hs, hin, he]
      rw [hn]
      refine quiet (.rules j r hr k ?_ hlow hpkt hmarks hflit (by omega)) hlow
      rw [hgen, PduGen.writeRule, if_neg (by simp [he]), hs]

theorem head_step (hr : jobs = past ++ j :: r) (hs : s.gen.state = .writeHead) (pkt : s.pkt = pktsOf r) (marks : ms = marksOf r)
    (flit : s.gen.pduFlit = BitVec.ofNat 16 (n + 1)) (size : n + 1 = j.slots) : Moves jobs past s t ms (RulePath.fill n s t) := by
  have hn : RulePath.fill n s t = n + 1 := by simp [RulePath.fill, hs]
  rw [hn]
  refine .inr ⟨j, ?_, size, ?_, .start r (by rw [hr, List.append_assoc]; rfl) (.inr ?_) ?_ marks⟩
  · simp [genNext, PduGen.step, hs]
  · have hsize : (s.genNext t).updateSize = s.gen.pduFlit.setWidth 12 := by simp [genNext, PduGen.step, hs]
    rw [hsize, flit]
    exact BitVec.setWidth_ofNat_of_le (by decide) _
  · simp [genNext, PduGen.step, hs]
  · rw [pkt_of_state (by simp [hs]), pkt]

theorem step {late : List Bool} (h : Counts jobs past s.gen s.pkt (s.rules.map Flit512.eop ++ late) n) :
    Moves jobs past s t ((s.rulesNext t).map Flit512.eop ++ late) (RulePath.fill n s t) := by
  by_cases hstate : s.gen.state = .writeRuleId
  · cases h with
    | start r hr hs => simp [hstate] at hs
    | idle hr hs => simp [hstate] at hs
    | write j r hr a b hs => simp [hstate] at hs
    | rules j r hr k hs low pkt marks flit size => exact rules_step hr hs low pkt marks flit size
    | head j r hr hs => simp [hstate] at hs
  · rw [rules_of_state hstate]
    cases h with
    | start r hr hs pkt marks => exact start_step hr hs pkt marks
    | idle hr hs low pkt marks => exact idle_step hr hs low pkt marks
    | write j r hr a b hs low split more pkt marks flit size => exact write_step hr hs low split more pkt marks flit size
    | rules j r hr k hs => exact absurd hs hstate
    | head j r hr hs pkt marks flit size => exact head_step hr hs pkt marks flit size

theorem past_sublist {g : PduGen} {pkt : List Flit512} (h : Counts jobs past g pkt ms n) : past.Sublist jobs := by
  cases h with
  | start r hr => exact hr ▸ List.sublist_append_left past r
  | idle hr => exact hr ▸ List.Sublist.refl _
  | write j r hr => exact hr ▸ List.sublist_append_left past _
  | rules j r hr => exact hr ▸ List.sublist_append_left past _
  | head j r hr => exact hr ▸ List.sublist_append_left past _

end Counts

end PduSys

/-! ## The slots of a PDU -/

namespace RulePath

variable {jobs : List PduJob} {s : RulePath} {t : RulePathTick}

def late (s : RulePath) : List Bool := s.front.waiting.map Flit.eop ++ PackSys.toCome s.front.pk.intCnt s.front.pend

theorem late_step : (s.front.accepted t.front).map Flit.eop ++ (s.step t).late = s.late := by
  have h : (s.step t).front.marks ++ PackSys.toCome (s.step t).front.pk.intCnt (s.step t).front.pend =
      s.front.marks ++ PackSys.toCome s.front.pk.intCnt s.front.pend := PackSys.marks_toCome_step
  have hflits : (s.step t).front.flits = s.front.flits ++ s.front.accepted t.front := rfl
  unfold PackSys.marks at h
  rw [hflits] at h
  simp only [List.map_append, List.append_assoc, List.append_cancel_left_eq] at h
  exact h

/-- What is logged for a PDU of the job. -/
def entry (j : PduJob) : Nat × BitVec 12 := (j.slots, BitVec.ofNat 12 j.slots)

/-- The generator is done with `past`, and has committed the PDUs of the jobs `cs` of them. -/
structure Inv (jobs past cs : List PduJob) (s : RulePath) : Prop where
  counts : PduSys.Counts jobs past s.pdu.gen s.pdu.pkt (s.pdu.rules.map Flit512.eop ++ s.late) s.filled
  among : cs.Sublist past
  pdus : s.pdus = cs.map entry

theorem Inv.reset {g : PduGen} (hg : g.state = .start) (jobs : List PduJob) (mem : PduAddr → PduSlot) :
    Inv jobs [] [] (reset g jobs mem) := by
  refine ⟨.start jobs rfl (.inl hg) rfl ?_, List.Sublist.refl _, rfl⟩
  show PackSys.toCome 0 (jobs.flatMap fun j => groupBeats j.words) = PduSys.marksOf jobs
  have h := PackSys.toCome_groups (jobs.map PduJob.words)
  rwa [List.flatMap_map, List.flatMap_map] at h

def Held (jobs : List PduJob) (s : RulePath) : Prop := ∃ past cs, Inv jobs past cs s

theorem Held.step (h : Held jobs s) : Held jobs (s.step t) := by
  obtain ⟨past, cs, h⟩ := h
  have hrules : (s.step t).pdu.rules.map Flit512.eop =
      (s.pdu.rulesNext t).map Flit512.eop ++ (s.front.accepted t.front).map Flit.eop := by
    simp only [RulePath.step, PduSys.rulesNext, List.map_append, List.map_map]
    rfl
  have hmarks : (s.step t).pdu.rules.map Flit512.eop ++ (s.step t).late = (s.pdu.rulesNext t).map Flit512.eop ++ s.late := by
    rw [hrules, List.append_assoc, late_step]
  have hpdus : (s.step t).pdus =
      if (s.pdu.genNext t).updateValid then s.pdus ++ [(fill s.filled s.pdu t, (s.pdu.genNext t).updateSize)] else s.pdus := rfl
  rcases h.counts.step (t := t) with ⟨hv, past', hpast, hc⟩ | ⟨j, hv, hn, hsize, hc⟩
  · refine ⟨past', cs, ?_, h.among.trans hpast.sublist, ?_⟩
    · rw [hmarks]
      exact hc
    · rw [hpdus, hv, if_neg Bool.false_ne_true, h.pdus]
  · refine ⟨past ++ [j], cs ++ [j], ?_, h.among.append_right [j], ?_⟩
    · rw [hmarks]
      exact hc
    · rw [hpdus, hv, if_pos rfl, hsize, hn, h.pdus, List.map_append]
      rfl

theorem reserves_iff (n : Nat) :
    (n ≤ threshold ∧ ∀ cpuHead < bufferSize, copyEnd cpuHead (BitVec.ofNat 12 n).toNat ≤ allocatedSize) ↔ n ≤ threshold := by
  refine ⟨And.left, fun hn => ⟨hn, fun cpuHead hh => ?_⟩⟩
  have h64 : (BitVec.ofNat 12 n).toNat = n := by
    unfold threshold at hn
    rw [BitVec.toNat_ofNat, Nat.mod_eq_of_lt (by omega)]
  have hcopy : copySize cpuHead n ≤ 64 := by
    unfold threshold at hn
    unfold copySize
    generalize bufferSize = size at *
    split <;> omega
  rw [h64]
  exact Nat.add_le_add_left (by omega : copySize cpuHead n * 16 * 4 ≤ 4096) _

end RulePath

/-- Whatever the timing, the committed PDUs are those of some of the packets with their groups, in order. Each takes a slot
for every flit of the packet, for every sixteen words or part of it, and for the header, of which twelve bits are announced; it
fits both reserves exactly when these are at most 64. -/
theorem pdu_fits (g : PduGen) (jobs : List PduJob) (mem : PduAddr → PduSlot) (ts : List RulePathTick) (hg : g.state = .start) :
    let s := run RulePath.step (.reset g jobs mem) ts
    ∃ cs : List PduJob, cs.Sublist jobs ∧ s.pdus.length = cs.length ∧ ∀ (k : Nat) (j : PduJob), cs[k]? = some j →
      ∃ slots size, s.pdus[k]? = some (slots, size) ∧ slots = j.pkt.flits.length + (j.words.length + 15) / 16 + 1 ∧
        size = BitVec.ofNat 12 slots ∧
        ((slots ≤ threshold ∧ ∀ cpuHead < bufferSize, copyEnd cpuHead size.toNat ≤ allocatedSize) ↔
          j.pkt.flits.length + (j.words.length + 15) / 16 + 1 ≤ 64) := by
  intro s
  have hheld : s.Held jobs :=
    run_inv _ (fun _ _ h _ => h.step) ts _ ⟨[], [], .reset hg jobs mem⟩ (allSteps_of_forall _ (fun _ _ => trivial) ts _)
  obtain ⟨past, cs, h⟩ := hheld
  refine ⟨cs, h.among.trans h.counts.past_sublist, by rw [h.pdus, List.length_map], ?_⟩
  intro k j hj
  refine ⟨j.slots, BitVec.ofNat 12 j.slots, ?_, rfl, rfl, RulePath.reserves_iff j.slots⟩
  rw [h.pdus, List.getElem?_map, hj]
  rfl

/-- A packet of 32 flits. -/
def StreamPkt.full : StreamPkt where
  body := ⟨9, true, false, 0⟩ :: List.replicate 30 ⟨9, false, false, 0⟩
  last := ⟨9, false, true, 0⟩
  body_mark := by decide
  last_mark := rfl
  sop := sop_first rfl (by decide)

/-- Nothing waits. -/
def RulePath.go : RulePathTick := ⟨⟨true, true⟩, PduSys.go, default, 4095⟩

theorem pdu_fits_full :
    let s := run RulePath.step (.reset PduGen.reset [⟨.full, List.replicate 496 7⟩] fun _ => default) (List.replicate 520 RulePath.go)
    s.pdu.updates = [64] ∧ s.pdus = [(64, 64)] ∧ ∃ cs : List PduJob, cs.Sublist [⟨.full, List.replicate 496 7⟩] ∧ cs.length = 1 := by
  refine ⟨by decide +kernel, by decide +kernel, ?_⟩
  obtain ⟨cs, hcs, hlen, -⟩ := pdu_fits PduGen.reset [⟨.full, List.replicate 496 7⟩] (fun _ => default)
    (List.replicate 520 RulePath.go) rfl
  refine ⟨cs, hcs, hlen.symm.trans ?_⟩
  decide +kernel

/-- With 513 words the PDU of a packet of 32 flits has 66 slots, and the host copies to bytes behind its buffer. -/
theorem pdu_exceeds :
    let s := run RulePath.step (.reset PduGen.reset [⟨.full, List.replicate 513 7⟩] fun _ => default) (List.replicate 520 RulePath.go)
    StreamPkt.full.flits.length ≤ 32 ∧ s.pdu.updates = [66] ∧ s.pdus = [(66, 66)] ∧ threshold < 66 ∧
      allocatedSize < copyEnd (bufferSize - 1) 66 := by
  decide +kernel

end Pigasus
