import Pigasus.PktBuffer

/-!
# Metadata and packets in step

`pkt_data_shift` takes its packets and its metadata from two queues. The metadata are
asked for with the first flit of a packet, whether or not the packet can be started, so
the two stay in step only as long as no reader holds a first flit back.
-/

namespace Pigasus

open Hdl

structure PairedPkt where
  info : Metadata
  lines : List (Line × BitVec 6)
  ne_nil : lines ≠ []

def PairedPkt.flits (p : PairedPkt) : List PktFlit := ethFlits true p.lines

/-- What is offered, what is on the bus when no flit is, and the state of the readers. -/
structure PairTick where
  pkt : Bool
  info : Bool
  idle : PktFlit
  pktFull : Bool
  metaFull : Bool

/-- The shifter behind its two queues. `firsts` and `taken` count the first flits and the
metadata that have been consumed, `shifted` has the metadata that each packet was started
with and `sent` those that have been put out. -/
structure PairSys where
  core : PktDataShift
  flits : List PktFlit
  metas : List Metadata
  firsts : Nat
  taken : Nat
  shifted : List Metadata
  sent : List Metadata
  deriving DecidableEq

namespace PktDataShift

def inPacket (s : PktDataShift) : Bool :=
  match s.state with
  | .udp | .tcp => true
  | _ => false

/-- The protocol in `state` and the bytes in `last7Bytes` are those of `m`. -/
def Uses (m : Metadata) (s : PktDataShift) : Prop :=
  match s.state with
  | .first => True
  | .udp | .udpLast | .singleUdp => m.prot = protUdp
  | .tcp | .tcpLast | .singleTcp => m.prot ≠ protUdp ∧ s.last7Bytes = m.last7Bytes

end PktDataShift

namespace PairSys

def reset (ps : List PairedPkt) : PairSys where
  core := .reset
  flits := ps.flatMap PairedPkt.flits
  metas := ps.map PairedPkt.info
  firsts := 0
  taken := 0
  shifted := []
  sent := []

variable (s : PairSys) (i : PairTick)

def input : ShiftIn where
  pktValid := i.pkt && !s.flits.isEmpty
  pkt := if i.pkt then s.flits.headD i.idle else i.idle
  metaValid := i.info && !s.metas.isEmpty
  metaData := s.metas.headD .zero
  outPktAlmostFull := i.pktFull
  outMetaAlmostFull := i.metaFull

def takesFlit : Bool := (s.input i).pktValid && s.core.inPktReady (s.input i)

def takesFirst : Bool := s.takesFlit i && (s.input i).pkt.sop

def takesMeta : Bool := (s.input i).metaValid && PktDataShift.inMetaReady (s.input i)

def step : PairSys where
  core := s.core.step (s.input i)
  flits := if s.takesFlit i then s.flits.tail else s.flits
  metas := if s.takesMeta i then s.metas.tail else s.metas
  firsts := if s.takesFirst i then s.firsts + 1 else s.firsts
  taken := if s.takesMeta i then s.taken + 1 else s.taken
  shifted := if s.takesFirst i then s.shifted ++ [(s.input i).metaData] else s.shifted
  sent := if s.core.outMetaValid then s.sent ++ [s.core.outMetaData] else s.sent

/-- The packets that have been started are the first ones, each with its own metadata,
and the metadata of every other packet are still in the queue. -/
structure Paired (ps : List PairedPkt) (s : PairSys) : Prop where
  count : s.taken = s.firsts
  shifted : s.shifted = (ps.take s.firsts).map PairedPkt.info
  waiting : s.metas = (ps.drop s.firsts).map PairedPkt.info
  core : ∀ m ∈ s.shifted.getLast?, s.core.Uses m
  sent : s.sent ++ (if s.core.outMetaValid then [s.core.outMetaData] else []) = s.shifted

/-- No reader is almost full while a first flit and metadata are offered. -/
def Unblocked : Prop :=
  (s.input i).pktValid = true → (s.input i).pkt.sop = true → (s.input i).metaValid = true →
    i.pktFull = false ∧ i.metaFull = false

instance : Decidable (s.Unblocked i) := inferInstanceAs (Decidable (_ → _))

/-! ## Packets in work -/

/-- `gone` have been started and `rest` are to come; `post` is left of the last one that was started. -/
structure Inv (gone rest : List PairedPkt) (post : List (Line × BitVec 6)) (s : PairSys) : Prop where
  flits : s.flits = ethFlits false post ++ rest.flatMap PairedPkt.flits
  inPacket : s.core.inPacket = !post.isEmpty
  metas : s.metas = rest.map PairedPkt.info
  firsts : s.firsts = gone.length
  taken : s.taken = gone.length
  shifted : s.shifted = gone.map PairedPkt.info
  core : ∀ m ∈ s.shifted.getLast?, s.core.Uses m
  sent : s.sent ++ (if s.core.outMetaValid then [s.core.outMetaData] else []) = s.shifted

theorem Inv.paired {ps gone rest : List PairedPkt} {post : List (Line × BitVec 6)} {s : PairSys} (hp : ps = gone ++ rest)
    (h : Inv gone rest post s) : Paired ps s := by
  subst hp
  refine ⟨by rw [h.taken, h.firsts], ?_, ?_, h.core, h.sent⟩
  · rw [h.shifted, h.firsts, List.take_left]
  · rw [h.metas, h.firsts, List.drop_left]

end PairSys

/-! ## The states of the shifter -/

namespace PktDataShift

variable {s : PktDataShift} {i : ShiftIn} {m : Metadata}

theorem uses_start (h : s.inPacket = false) (hs : starts i = true) : (s.step i).Uses i.metaData := by
  have h7 : isUdp i = true ↔ i.metaData.prot = protUdp := by simp [isUdp]
  cases hst : s.state <;> simp_all [inPacket, step, update, first, final, Uses] <;> grind

theorem uses_idle (h : s.inPacket = false) (hs : starts i = false) (m : Metadata) : (s.step i).Uses m := by
  cases hst : s.state <;> simp_all [inPacket, step, update, first, final, Uses]

theorem inPacket_outside (h : s.inPacket = false) : (s.step i).inPacket = (starts i && !i.pkt.eop) := by
  cases hst : s.state <;> cases hs : starts i <;> simp_all [inPacket, step, update, first, final] <;> grind

theorem uses_inside (h : s.inPacket = true) (hu : s.Uses m) : (s.step i).Uses m := by
  cases hst : s.state <;> simp_all [inPacket, step, update, middle, Uses] <;> grind

theorem inPacket_inside (h : s.inPacket = true) : (s.step i).inPacket = !(i.pktValid && i.pkt.eop) := by
  cases hst : s.state <;> simp_all [inPacket, step, update, middle] <;> grind

theorem inPktReady_inside (h : s.inPacket = true) : s.inPktReady i = true := by
  cases hst : s.state <;> simp_all [inPacket, inPktReady]

theorem inPktReady_outside (h : s.inPacket = false) : s.inPktReady i = proceed i := by
  cases hst : s.state <;> simp_all [inPacket, inPktReady]

end PktDataShift

/-! ## One cycle -/

namespace PairSys

variable {s : PairSys} {i : PairTick} {ps gone rest : List PairedPkt} {post : List (Line × BitVec 6)}

theorem input_pkt {x : PktFlit} {k : List PktFlit} (hv : (s.input i).pktValid = true) (h : s.flits = x :: k) :
    (s.input i).pkt = x := by
  have ho : i.pkt = true := (Bool.and_eq_true_iff.1 hv).1
  simp [input, ho, h]

theorem sent_step (s : PairSys) (i : PairTick) :
    (s.step i).sent ++ (if (s.step i).core.outMetaValid then [(s.step i).core.outMetaData] else []) =
      s.sent ++ (if s.core.outMetaValid then [s.core.outMetaData] else []) ++
        if s.takesMeta i then [(s.input i).metaData] else [] := by
  have h1 : (s.step i).sent = s.sent ++ if s.core.outMetaValid then [s.core.outMetaData] else [] := by
    cases h : s.core.outMetaValid <;> simp [step, h]
  rw [h1]
  rfl

theorem inside_step {p : Line × BitVec 6} (h : Inv gone rest (p :: post) s) :
    ∃ post', Inv gone rest post' (s.step i) := by
  have hin : s.core.inPacket = true := by simpa using h.inPacket
  have hflits := h.flits
  rw [ethFlits_cons, List.cons_append] at hflits
  have hmeta : s.takesMeta i = false := by
    by_contra hc
    obtain ⟨-, hr⟩ := Bool.and_eq_true_iff.1 (by simpa using hc : s.takesMeta i = true)
    obtain ⟨hsop, hv⟩ := Bool.and_eq_true_iff.1 hr
    rw [input_pkt hv hflits] at hsop
    cases hsop
  have hready := s.core.inPktReady_inside (i := s.input i) hin
  have hfirst : s.takesFirst i = false := by
    by_contra hc
    obtain ⟨ht, hsop⟩ := Bool.and_eq_true_iff.1 (by simpa using hc : s.takesFirst i = true)
    rw [input_pkt (Bool.and_eq_true_iff.1 ht).1 hflits] at hsop
    cases hsop
  have hsent : (s.step i).sent ++ (if (s.step i).core.outMetaValid then [(s.step i).core.outMetaData] else []) =
      (s.step i).shifted := by
    rw [sent_step, h.sent]
    simp [step, hmeta, hfirst]
  have hcore : ∀ m ∈ (s.step i).shifted.getLast?, (s.step i).core.Uses m := by
    intro m hm
    exact PktDataShift.uses_inside hin (h.core m (by simpa [step, hfirst] using hm))
  have hpk : (s.step i).core.inPacket = _ := PktDataShift.inPacket_inside (i := s.input i) hin
  by_cases hv : (s.input i).pktValid = true
  · have hx := input_pkt hv hflits
    refine ⟨post, ?_, ?_, by simpa [step, hmeta] using h.metas, by simpa [step, hfirst] using h.firsts,
      by simpa [step, hmeta] using h.taken, by simpa [step, hfirst] using h.shifted, hcore, hsent⟩
    · simp [step, takesFlit, hv, hready, hflits]
    · simp [hpk, hv, hx]
  · have hv : (s.input i).pktValid = false := by simpa using hv
    refine ⟨p :: post, ?_, ?_, by simpa [step, hmeta] using h.metas, by simpa [step, hfirst] using h.firsts,
      by simpa [step, hmeta] using h.taken, by simpa [step, hfirst] using h.shifted, hcore, hsent⟩
    · simpa [step, takesFlit, hv] using h.flits
    · simp [hpk, hv]

theorem takesMeta_outside (h : s.core.inPacket = false) (hu : s.Unblocked i) :
    s.takesMeta i = PktDataShift.starts (s.input i) ∧ s.takesFirst i = PktDataShift.starts (s.input i) := by
  have hr := s.core.inPktReady_outside (i := s.input i) h
  constructor
  · by_cases hc : (s.input i).pktValid = true ∧ (s.input i).pkt.sop = true ∧ (s.input i).metaValid = true
    · obtain ⟨h1, h2, h3⟩ := hc
      obtain ⟨h4, h5⟩ := hu h1 h2 h3
      have h4 : (s.input i).outPktAlmostFull = false := h4
      have h5 : (s.input i).outMetaAlmostFull = false := h5
      simp [takesMeta, PktDataShift.inMetaReady, PktDataShift.starts, PktDataShift.proceed, h1, h2, h3, h4, h5]
    · have h1 : s.takesMeta i = false := by
        by_contra hc'
        simp [takesMeta, PktDataShift.inMetaReady] at hc'
        exact hc ⟨hc'.2.2, hc'.2.1, hc'.1⟩
      have h2 : PktDataShift.starts (s.input i) = false := by
        by_contra hc'
        simp [PktDataShift.starts, PktDataShift.proceed] at hc'
        exact hc ⟨hc'.2.2.2.1, hc'.2.2.2.2, hc'.1⟩
      rw [h1, h2]
  · simp [takesFirst, takesFlit, hr, PktDataShift.starts, Bool.and_comm]

theorem outside_step (h : Inv gone rest [] s) (hu : s.Unblocked i) (hp : ps = gone ++ rest) :
    ∃ gone' rest' post', ps = gone' ++ rest' ∧ Inv gone' rest' post' (s.step i) := by
  have hin : s.core.inPacket = false := by simpa using h.inPacket
  obtain ⟨hmeta, hfirst⟩ := takesMeta_outside hin hu
  have hsent := sent_step s i
  rw [h.sent, hmeta] at hsent
  have hpk : (s.step i).core.inPacket = _ := PktDataShift.inPacket_outside (i := s.input i) hin
  have hflits : s.flits = rest.flatMap PairedPkt.flits := by simpa [ethFlits] using h.flits
  -- between two packets the flit at the head is a first one
  have htake : s.takesFlit i = PktDataShift.starts (s.input i) := by
    rw [← hfirst, takesFirst]
    by_cases hv : (s.input i).pktValid = true
    swap
    · simp [takesFlit, hv]
    cases rest with
    | nil => simp [input, hflits] at hv
    | cons p rest =>
      obtain ⟨q, l, hl⟩ := List.exists_cons_of_ne_nil p.ne_nil
      rw [List.flatMap_cons, PairedPkt.flits, hl, ethFlits_cons, List.cons_append] at hflits
      simp [input_pkt hv hflits]
  by_cases hs : PktDataShift.starts (s.input i) = true
  · rw [hs] at hmeta hfirst hsent htake
    have hv : (s.input i).pktValid = true := (Bool.and_eq_true_iff.1 htake).1
    cases rest with
    | nil => simp [input, hflits] at hv
    | cons p rest =>
      obtain ⟨q, l, hl⟩ := List.exists_cons_of_ne_nil p.ne_nil
      rw [List.flatMap_cons, PairedPkt.flits, hl, ethFlits_cons, List.cons_append] at hflits
      have hx := input_pkt hv hflits
      have hm : (s.input i).metaData = p.info := by simp [input, h.metas]
      have hshift : (s.step i).shifted = s.shifted ++ [p.info] := by simp [step, hfirst, hm]
      refine ⟨gone ++ [p], rest, l, by simp [hp], ?_, ?_, ?_, ?_, ?_, ?_, ?_, ?_⟩
      · simp [step, htake, hflits]
      · simp [hpk, hs, hx]
      · simp [step, hmeta, h.metas]
      · simp [step, hfirst, h.firsts]
      · simp [step, hmeta, h.taken]
      · simp [hshift, h.shifted]
      · intro m hm'
        obtain rfl : p.info = m := by simpa [hshift] using hm'
        rw [← hm]
        exact PktDataShift.uses_start hin hs
      · rw [hsent, hshift, hm]
        rfl
  · have hs : PktDataShift.starts (s.input i) = false := by simpa using hs
    rw [hs] at hmeta hfirst hsent htake
    have hshift : (s.step i).shifted = s.shifted := by simp [step, hfirst]
    refine ⟨gone, rest, [], hp, ?_, ?_, ?_, ?_, ?_, ?_, ?_, ?_⟩
    · simpa [step, htake] using h.flits
    · simp [hpk, hs]
    · simpa [step, hmeta] using h.metas
    · simpa [step, hfirst] using h.firsts
    · simpa [step, hmeta] using h.taken
    · rw [hshift, h.shifted]
    · intro m _
      exact PktDataShift.uses_idle hin hs m
    · rw [hsent, hshift]
      simp

def Reached (ps : List PairedPkt) (s : PairSys) : Prop := ∃ gone rest post, ps = gone ++ rest ∧ Inv gone rest post s

theorem reached_step (s : PairSys) (i : PairTick) (h : Reached ps s) (hu : s.Unblocked i) : Reached ps (s.step i) := by
  obtain ⟨gone, rest, post, hp, h⟩ := h
  cases post with
  | nil => exact outside_step h hu hp
  | cons p post =>
    obtain ⟨post', h'⟩ := inside_step (i := i) h
    exact ⟨gone, rest, post', hp, h'⟩

theorem reached_reset (ps : List PairedPkt) : Reached ps (reset ps) :=
  ⟨[], ps, [], rfl, rfl, rfl, rfl, rfl, rfl, rfl, nofun, rfl⟩

theorem takesFirst_of_takesMeta (s : PairSys) (i : PairTick) (h : Reached ps s) (hu : s.Unblocked i)
    (hm : s.takesMeta i = true) : s.takesFirst i = true := by
  obtain ⟨gone, rest, post, -, h⟩ := h
  cases hin : s.core.inPacket with
  | false =>
    obtain ⟨h1, h2⟩ := takesMeta_outside hin hu
    rw [h2, ← h1, hm]
  | true =>
    obtain ⟨-, hr⟩ := Bool.and_eq_true_iff.1 hm
    obtain ⟨hsop, hv⟩ := Bool.and_eq_true_iff.1 hr
    simp [takesFirst, takesFlit, hv, hsop, PktDataShift.inPktReady_inside hin]

/-- The `k`-th packet is shifted with the `k`-th metadata. -/
theorem packets_paired (ps : List PairedPkt) (is : List PairTick) (hu : AllSteps step Unblocked (reset ps) is) :
    AllSteps step (fun s i => (s.step i).core.outMetaValid = true → s.takesFirst i = true) (reset ps) is ∧
      Paired ps (run step (reset ps) is) := by
  refine ⟨allSteps_of_inv step reached_step (fun s i => takesFirst_of_takesMeta s i) is _ (reached_reset ps) hu, ?_⟩
  obtain ⟨gone, rest, post, hp, h⟩ := run_inv step reached_step is _ (reached_reset ps) hu
  exact h.paired hp

/-! ## A reader that is almost full -/

def tcpPkt (b : BitVec 56) : PairedPkt where
  info := { Metadata.zero with last7Bytes := b }
  lines := [(vec fun _ => 1, 0), (vec fun _ => 2, 0)]
  ne_nil := by simp

def offered (full : Bool) : PairTick := ⟨true, true, PktDataShift.zeroFlit, full, false⟩

theorem packets_paired_two :
    AllSteps step Unblocked (reset [tcpPkt 1, tcpPkt 2]) [offered false, offered true, offered false, offered false] ∧
      Paired [tcpPkt 1, tcpPkt 2]
        (run step (reset [tcpPkt 1, tcpPkt 2]) [offered false, offered true, offered false, offered false]) :=
  ⟨by decide +kernel, (packets_paired _ _ (by decide +kernel)).2⟩

/-- Behind one cycle of an almost full reader. -/
def afterFull (n : Nat) : PairSys :=
  run step (reset [tcpPkt 1, tcpPkt 2]) (offered true :: List.replicate n (offered false))

/-- One cycle of an almost full reader in front of the first packet: its metadata are put out, the
packet is shifted with those of the second one, and the second one waits for ever. -/
theorem packets_not_paired :
    ¬ AllSteps step (fun s i => (s.step i).core.outMetaValid = true → s.takesFirst i = true)
        (reset [tcpPkt 1, tcpPkt 2]) [offered true] ∧
      ¬ Paired [tcpPkt 1, tcpPkt 2] (afterFull 0) ∧ (afterFull 1).shifted = [(tcpPkt 2).info] ∧
      (afterFull 8).step (offered false) = afterFull 8 ∧ (afterFull 8).metas = [] ∧
      (afterFull 8).flits = (tcpPkt 2).flits := by
  refine ⟨by decide +kernel, fun h => ?_, by decide +kernel, by decide +kernel, by decide +kernel, by decide +kernel⟩
  exact absurd h.count (by decide +kernel)

end PairSys

end Pigasus
