import Pigasus.FlowTableMap
import Pigasus.Parser
import Pigasus.Unread

/-!
# Which frames touch the flow state

Unsupported frames carry arbitrary bytes where a TCP frame has its tuple, its
sequence number and its flags. Of these only the ones that look like a bare ACK
are kept away from the flow table; when no others arrive, the flow table and the
out-of-order packets depend on the TCP frames alone.
-/

namespace Pigasus

open Hdl

/-! ## Packets in the wrapper -/

structure Wrapper.OnlyTcp (s : Wrapper) : Prop where
  m : ∀ k, (s.hash 0).validAt k = true → (s.m k).prot = protTcp
  m8 : s.fast.ft.rdValidAR = true → s.fast.m8.prot = protTcp
  m9 : s.fast.ft.rdValidA = true → s.fast.m9.prot = protTcp
  m10 : s.fast.ft.ch0RdValid = true → s.fast.m10.prot = protTcp
  -- the decision stage keeps the packet it has decided on in both of its metadata registers
  ch1 : s.fast.dec.ch1Wren = true → s.fast.dec.oooMetaData.prot = protTcp
  out : s.fast.dec.outMetaValid = true → s.fast.dec.outMetaData.prot = protTcp
  ooo : s.fast.dec.oooMetaValid = true → s.fast.dec.oooMetaData.prot = protTcp
  held : ∀ m ∈ s.slow.oooMetaFifo, m.prot = protTcp
  taken : s.slow.fr.state ≠ .idle ∨ s.slow.fr.ch3Wren = true → s.slow.fr.metaDataR.prot = protTcp
  reorder : s.slow.fr.reorderValid = true ∨ s.slow.fr.state = .getFce ∨ s.slow.fr.state = .compare →
    s.slow.fr.reorderMeta.prot = protTcp

namespace Wrapper.OnlyTcp

theorem reset : Wrapper.reset.OnlyTcp where
  m k hk := by
    simp only [Wrapper.reset, vec_get, HashFunc.validAt_reset] at hk
    cases hk
  m8 h := by cases h
  m9 h := by cases h
  m10 h := by cases h
  ch1 h := by cases h
  out h := by cases h
  ooo h := by cases h
  held m hm := by cases hm
  taken h := by rcases h with h | h <;> simp [Wrapper.reset, SlowPath.reset, FlowReassembly.reset] at h
  reorder h := by rcases h with h | h | h <;> cases h

theorem decideNone_prot (d : Decision) (b : BitMap) (q : Fce) (m : Metadata) :
    (FastPath.decideNone d b q m).outMetaData.prot = m.prot ∧ (FastPath.decideNone d b q m).oooMetaData.prot = m.prot :=
  ⟨rfl, rfl⟩

theorem decideHit_prot {d : Decision} {q : Fce} {m : Metadata} (ho : d.outMetaData.prot = m.prot)
    (hf : d.oooMetaData.prot = m.prot) :
    (FastPath.decideHit d q m).outMetaData.prot = m.prot ∧ (FastPath.decideHit d q m).oooMetaData.prot = m.prot := by
  simp only [FastPath.decideHit]
  split_ifs <;> exact ⟨by first | exact ho | rfl, hf⟩

theorem decision_prot {s : FastPath} (i : FastIn) (hm : s.ft.ch0RdValid = true → s.m10.prot = protTcp)
    (h1 : s.dec.ch1Wren = true → s.dec.oooMetaData.prot = protTcp)
    (h2 : s.dec.outMetaValid = true → s.dec.outMetaData.prot = protTcp)
    (h3 : s.dec.oooMetaValid = true → s.dec.oooMetaData.prot = protTcp) :
    ((s.decision i).ch1Wren = true → (s.decision i).oooMetaData.prot = protTcp) ∧
      ((s.decision i).outMetaValid = true → (s.decision i).outMetaData.prot = protTcp) ∧
      ((s.decision i).oooMetaValid = true → (s.decision i).oooMetaData.prot = protTcp) := by
  unfold FastPath.decision
  by_cases hs : s.ch1InsertStall i = true
  · simp only [hs, if_true]
    exact ⟨h1, h2, h3⟩
  · simp only [hs]
    cases hv : s.ft.ch0RdValid
    · simp [FastPath.decideNone]
    · have hd := decideNone_prot s.dec s.ft.ch0BitMap s.ft.ch0Q s.m10
      simp only [Bool.not_true, Bool.false_eq_true, if_false]
      rw [← hm hv]
      split_ifs
      · exact ⟨fun _ => hd.2, fun _ => hd.1, fun _ => hd.2⟩
      · have hh := decideHit_prot (q := s.ft.ch0Q) hd.1 hd.2
        exact ⟨fun _ => hh.2, fun _ => hh.1, fun _ => hh.2⟩

end Wrapper.OnlyTcp

namespace FlowReassembly

variable (s : FlowReassembly) (ll : LinkedList) (i : FrIn)

/-- The packet under comparison is kept, and what is released has its protocol or the one released before. -/
def Holds (t : FlowReassembly) : Prop :=
  t.metaDataR = s.metaDataR ∧ (t.reorderMeta.prot = s.metaDataR.prot ∨ t.reorderMeta.prot = s.reorderMeta.prot)

theorem inorder_holds : s.Holds (s.inorder ll i) := by
  unfold inorder
  split
  · split
    · exact ⟨rfl, .inl rfl⟩
    · refine ⟨rfl, .inl ?_⟩
      simp only [releaseAlone]
      split_ifs <;> rfl
  · exact ⟨rfl, .inr rfl⟩
  · split
    · split
      · refine ⟨rfl, .inr ?_⟩
        simp only [drainLast]
        split_ifs <;> rfl
      · split <;> exact ⟨rfl, .inr rfl⟩
    · exact ⟨rfl, .inr rfl⟩
  · split <;> exact ⟨rfl, .inr rfl⟩
  · exact ⟨rfl, .inr rfl⟩

theorem outOfOrder_holds : s.Holds (s.outOfOrder ll) := by
  unfold outOfOrder storeStart storePointer
  split
  · split <;> exact ⟨rfl, .inr rfl⟩
  · split <;> exact ⟨rfl, .inr rfl⟩
  · exact ⟨rfl, .inr rfl⟩
  · split
    · refine ⟨rfl, ?_⟩
      cases hd : ll.discard
      · exact .inr (by simp [storeDone, hd])
      · exact .inl (by simp [storeDone, hd])
    · exact ⟨rfl, .inr rfl⟩
  · exact ⟨rfl, .inr rfl⟩

theorem compare_holds (hs : s.state = .compare) : s.Holds (s.step ll i) := by
  simp only [step, hs]
  split
  · exact s.inorder_holds ll i
  · split
    · exact s.outOfOrder_holds ll
    · exact ⟨rfl, .inl rfl⟩

variable {s i}

theorem step_prot (hin : i.metaValid = true → i.metaData.prot = protTcp)
    (ht : s.state ≠ .idle ∨ s.ch3Wren = true → s.metaDataR.prot = protTcp)
    (hr : s.reorderValid = true ∨ s.state = .getFce ∨ s.state = .compare → s.reorderMeta.prot = protTcp) :
    ((s.step ll i).state ≠ .idle ∨ (s.step ll i).ch3Wren = true → (s.step ll i).metaDataR.prot = protTcp) ∧
      ((s.step ll i).reorderValid = true ∨ (s.step ll i).state = .getFce ∨ (s.step ll i).state = .compare →
        (s.step ll i).reorderMeta.prot = protTcp) := by
  cases hS : s.state with
  | idle =>
    simp only [step, hS]
    split_ifs with h
    · have hm := hin (by simp only [Bool.and_eq_true] at h; exact h.1.1)
      exact ⟨fun _ => hm, fun _ => hm⟩
    · simp [idleDefault, hS]
  | getFce =>
    simp only [step, hS]
    exact ⟨fun _ => ht (.inl (by simp [hS])), fun _ => hr (.inr (.inl hS))⟩
  | compare =>
    obtain ⟨hm, ho⟩ := s.compare_holds ll i hS
    have ht := ht (.inl (by simp [hS]))
    refine ⟨fun _ => hm ▸ ht, fun _ => ?_⟩
    rcases ho with ho | ho
    · exact ho.trans ht
    · exact ho.trans (hr (.inr (.inr hS)))
  | waitWrReady =>
    have ht := ht (.inl (by simp [hS]))
    simp only [step, hS]
    refine ⟨fun _ => ht, fun h => ?_⟩
    simp only [waitWrReadyStep] at h
    cases hc : i.ch3Ready <;> simp [hc] at h

end FlowReassembly

namespace Wrapper.OnlyTcp

theorem step {s : Wrapper} {i : WrapIn} (h : s.OnlyTcp) (hi : s.tupleInValid i = true → i.inMetaData.prot = protTcp) :
    (s.step i).OnlyTcp := by
  obtain ⟨h1, h2, h3⟩ := decision_prot s.fastIn h.m10 h.ch1 h.out h.ooo
  have hfr := FlowReassembly.step_prot (s := s.slow.fr) s.slow.ll (i := s.slow.frIn (s.slowIn i)) (fun hv => by
    simp only [SlowPath.frIn] at hv ⊢
    cases hl : s.slow.oooMetaFifo with
    | nil => simp [hl] at hv
    | cons m l => exact h.held m (by simp [hl])) h.taken h.reorder
  refine ⟨validAt_next (P := fun m => m.prot = protTcp) h.m hi, fun hr => h.m 7 (ch0Rden_of_rdenA hr), h.m8, h.m9, h1, h2, h3, ?_, hfr.1, hfr.2⟩
  intro m hm
  simp only [Wrapper.step, SlowPath.step, fifoStep, List.mem_append] at hm
  rcases hm with hm | hm
  · split_ifs at hm
    · exact h.held m (List.mem_of_mem_tail hm)
    · exact h.held m hm
  · simp only [Wrapper.slowIn] at hm
    split_ifs at hm with hv
    · simp only [Option.toList_some, List.mem_singleton] at hm
      exact hm ▸ h.ooo hv
    · cases hm

end Wrapper.OnlyTcp

/-! ## Frames that are kept away -/

def WrapIn.tcpOnly (i : WrapIn) : WrapIn :=
  if i.inMetaValid && i.inMetaData.prot == protTcp then i else { i with inMetaData := .zero, inMetaValid := false }

theorem WrapIn.same_tcpOnly {s s' : Wrapper} (h : s.Same s') {i : WrapIn}
    (hi : i.inMetaValid = true → i.inMetaData.prot = protTcp ∨ Wrapper.fPkt i.inMetaData = true) :
    i.Same s s' i.tcpOnly := by
  have hr : s'.inMetaReady i = s.inMetaReady i := by simp only [Wrapper.inMetaReady, h.slow, h.stall]
  by_cases ht : i.inMetaValid = true ∧ i.inMetaData.prot = protTcp
  · have : i.tcpOnly = i := by simp [WrapIn.tcpOnly, ht]
    rw [this]
    exact ⟨fun _ => rfl, by simp only [Wrapper.tupleInValid, hr], rfl⟩
  · have hn : i.tcpOnly = { i with inMetaData := .zero, inMetaValid := false } := by
      simp only [WrapIn.tcpOnly, Bool.and_eq_true, beq_iff_eq, ht, if_false]
    have hv : s.tupleInValid i = false := by
      cases hv : i.inMetaValid
      · simp [Wrapper.tupleInValid, hv]
      · have hf := (hi hv).resolve_left fun hp => ht ⟨hv, hp⟩
        simp [Wrapper.tupleInValid, hf]
    rw [hn]
    exact ⟨fun h1 => absurd (hv ▸ h1) (by decide), by rw [hv]; rfl, rfl⟩

/-- The flow state is touched on behalf of TCP packets only, and no others leave towards the data mover's queue. -/
structure Wrapper.TouchedByTcp (s : Wrapper) : Prop where
  -- The packet that an insert, update or delete of the fast path is for.
  fast : s.fast.dec.ch1Wren = true → s.fast.dec.oooMetaData.prot = protTcp
  -- The packet that a write of the slow path is for.
  slow : s.slow.fr.ch3Wren = true → s.slow.fr.metaDataR.prot = protTcp
  enters : s.fast.dec.oooMetaValid = true → s.fast.dec.oooMetaData.prot = protTcp
  held : ∀ m ∈ s.slow.oooMetaFifo, m.prot = protTcp
  inorder : ∀ i, ∀ m ∈ (s.out i).inorder, m.prot = protTcp
  reorder : ∀ i, ∀ m ∈ (s.out i).reorder, m.prot = protTcp

theorem Wrapper.OnlyTcp.touchedByTcp {s : Wrapper} (h : s.OnlyTcp) : s.TouchedByTcp where
  fast := h.ch1
  slow hw := h.taken (.inr hw)
  enters := h.ooo
  held := h.held
  inorder i m hm := by
    simp only [Wrapper.out, Option.mem_def] at hm
    split_ifs at hm with hv
    exact Option.some.inj hm ▸ h.out hv
  reorder i m hm := by
    simp only [Wrapper.out, Option.mem_def] at hm
    split_ifs at hm with hv
    exact Option.some.inj hm ▸ h.reorder (.inl hv)

def notTcp (m : Metadata) : Bool := m.prot != protTcp

/-- Two wrappers have the same flow entries, the same moves of entries under way and the same out-of-order packets. -/
structure Wrapper.SameFlows (s s' : Wrapper) : Prop where
  entries : s'.fast.ft.slot = s.fast.ft.slot
  moves : s'.fast.ft.pb = s.fast.ft.pb
  ooo : s'.slow = s.slow

/-- Frames that are not TCP stay apart from the flow state. -/
structure Front.Separates (s : Front) : Prop where
  touched : s.ftw.TouchedByTcp
  -- They leave once each, in their order, on the forward output.
  once : s.forwarded.filter notTcp ++ ((s.fifo ++ s.push.toList).filter notTcp).map Wrapper.forwardMetaData =
    (s.parsed.filter notTcp).map Wrapper.forwardMetaData
  flags : ∀ m ∈ s.forwarded, m.prot ≠ protTcp → m.pktFlags = if m.prot = protUdp then .check else .forward
  -- Nothing but the forward output holds one back that is next in line.
  leaves : ∀ m ∈ s.fifo.head?, m.prot ≠ protTcp → ∀ i : FrontIn, i.forwardMetaReady = true →
    (s.step i).forwarded = s.forwarded ++ [Wrapper.forwardMetaData m] ∧ (s.step i).fifo = s.fifo.tail ++ s.push.toList
  -- Without them the flow state would be the same.
  alone : s.ftw.SameFlows (run Wrapper.step .reset (s.ftwIns.map WrapIn.tcpOnly))

namespace Front

/-- An unsupported frame that the parser takes over looks like a bare ACK. -/
def NsAck (_ : Front) (i : FrontIn) : Prop :=
  ∀ m ∈ frame i, m.prot = protNs → Wrapper.ackPkt m = true

instance (s : Front) (i : FrontIn) : Decidable (s.NsAck i) :=
  inferInstanceAs (Decidable (∀ m ∈ frame i, m.prot = protNs → Wrapper.ackPkt m = true))

structure Inv (s : Front) : Prop where
  onlyTcp : s.ftw.OnlyTcp
  waiting : ∀ m ∈ s.fifo ++ s.push.toList, m.prot = protTcp ∨ Wrapper.fPkt m = true
  once : s.forwarded.filter notTcp ++ ((s.fifo ++ s.push.toList).filter notTcp).map Wrapper.forwardMetaData =
    (s.parsed.filter notTcp).map Wrapper.forwardMetaData
  flags : ∀ m ∈ s.forwarded, m.pktFlags = if m.prot = protUdp then .check else .forward
  same : s.ftw.Same (run Wrapper.step .reset (s.ftwIns.map WrapIn.tcpOnly))

theorem Inv.reset : Front.reset.Inv where
  onlyTcp := .reset
  waiting m hm := by simp [Front.reset, push, Parser.reset] at hm
  once := rfl
  flags m hm := by cases hm
  same := .reset

variable {s : Front} {i : FrontIn}

theorem push_step : (s.step i).push = frame i := by
  unfold push frame Front.step Parser.step
  split_ifs <;> simp_all

theorem forwardMetaData_flags (m : Metadata) : (Wrapper.forwardMetaData m).pktFlags =
    if (Wrapper.forwardMetaData m).prot = protUdp then .check else .forward := by
  simp [Wrapper.forwardMetaData, Wrapper.udpPkt]

/-- The FIFO after the edge, without the frame that the parser hands over. -/
def rest (s : Front) (i : FrontIn) : List Metadata :=
  if s.ftw.inMetaReady (s.ftwIn i) then s.fifo.tail else s.fifo

theorem forward_split (hw : ∀ m ∈ s.fifo, m.prot = protTcp ∨ Wrapper.fPkt m = true) :
    (s.ftw.out (s.ftwIn i)).forward.toList.filter notTcp ++ ((s.rest i).filter notTcp).map Wrapper.forwardMetaData =
      (s.fifo.filter notTcp).map Wrapper.forwardMetaData := by
  have hprot (m : Metadata) : notTcp (Wrapper.forwardMetaData m) = notTcp m := rfl
  cases hl : s.fifo with
  | nil => simp [rest, Wrapper.out, ftwIn, hl]
  | cons m l =>
    have hm := hw m (by simp [hl])
    cases hf : Wrapper.fPkt m
    · have hp : notTcp m = false := by simpa [notTcp, hf] using hm
      have ho : (s.ftw.out (s.ftwIn i)).forward = none := by simp [Wrapper.out, ftwIn, hl, hf]
      rw [ho]
      unfold rest
      split_ifs <;> simp [hl, hp]
    · cases hr : i.forwardMetaReady
      · simp [rest, Wrapper.inMetaReady, Wrapper.out, ftwIn, hl, hf, hr]
      · cases hp : notTcp m <;> simp [rest, Wrapper.inMetaReady, Wrapper.out, ftwIn, hl, hf, hr, hp, hprot]

theorem frame_bypasses (ho : s.NsAck i) (m : Metadata) (hm : m ∈ frame i) :
    m.prot = protTcp ∨ Wrapper.fPkt m = true := by
  have hf : m = i.parser.inPktData.metadata i.parser.inMetaData := by
    simp only [frame, Option.mem_def] at hm
    split_ifs at hm
    exact (Option.some.inj hm).symm
  rcases i.parser.inPktData.metadata_prot i.parser.inMetaData with hp | hp | hp <;> rw [← hf] at hp
  · exact .inl hp
  · exact .inr (by simp [Wrapper.fPkt, Wrapper.udpPkt, hp])
  · exact .inr (by simp [Wrapper.fPkt, ho m hm hp])

theorem Inv.step (h : s.Inv) (ho : s.NsAck i) : (s.step i).Inv := by
  have hw : ∀ m ∈ s.fifo, m.prot = protTcp ∨ Wrapper.fPkt m = true := fun m hm => h.waiting m (by simp [hm])
  have hin : (s.ftwIn i).inMetaValid = true →
      (s.ftwIn i).inMetaData.prot = protTcp ∨ Wrapper.fPkt (s.ftwIn i).inMetaData = true := by
    intro hv
    cases hl : s.fifo with
    | nil => simp [ftwIn, hl] at hv
    | cons m l =>
      simp only [ftwIn, hl, List.headD_cons]
      exact hw m (by simp [hl])
  have hfifo : (s.step i).fifo = s.rest i ++ s.push.toList := rfl
  refine ⟨h.onlyTcp.step fun hv => ?_, ?_, ?_, ?_, ?_⟩
  · simp only [Wrapper.tupleInValid, Bool.and_eq_true, Bool.not_eq_true'] at hv
    exact (hin hv.1.1).resolve_right (by simp [hv.2])
  · intro m hm
    rw [push_step, hfifo] at hm
    rcases List.mem_append.1 hm with hm | hm
    · refine h.waiting m (List.mem_append.2 ((List.mem_append.1 hm).imp_left fun hm => ?_))
      unfold rest at hm
      split_ifs at hm
      · exact List.mem_of_mem_tail hm
      · exact hm
    · exact frame_bypasses ho m (by simpa using hm)
  · have hs := forward_split (i := i) hw
    have h1 := h.once
    rw [push_step, hfifo]
    simp only [Front.step, List.filter_append, List.map_append, List.append_assoc] at h1 ⊢
    rw [← h1, ← hs]
    simp only [List.append_assoc]
  · intro m hm
    rcases List.mem_append.1 hm with hm | hm
    · exact h.flags m hm
    · simp only [Wrapper.out] at hm
      split_ifs at hm
      · simp only [Option.toList_some, List.mem_singleton] at hm
        exact hm ▸ forwardMetaData_flags _
      · cases hm
  · simp only [Front.step, List.map_append, List.map_cons, List.map_nil, run_append, run_cons, run_nil]
    exact h.same.step (WrapIn.same_tcpOnly h.same hin)

theorem Inv.separates (h : s.Inv) : s.Separates where
  touched := h.onlyTcp.touchedByTcp
  once := h.once
  flags m hm _ := h.flags m hm
  leaves m hm hp i hr := by
    have hf := (h.waiting m (by simp [List.mem_of_mem_head? hm])).resolve_left hp
    cases hl : s.fifo with
    | nil => simp [hl] at hm
    | cons m' l =>
      obtain rfl : m' = m := by simpa [hl] using hm
      simp [Front.step, fifoStep, Wrapper.inMetaReady, Wrapper.out, ftwIn, hl, hf, hr]
  alone := by
    refine ⟨?_, h.same.fast.ft.pb, h.same.slow⟩
    funext l
    cases l with
    | ft k a => simp only [FlowTable.slot, h.same.fast.ft.ram]
    | q j => rw [FlowTable.slot, h.same.fast.ft.pq.eq]; rfl

end Front

/-- In every run in which each unsupported frame looks like a bare ACK, frames that are not TCP stay
apart from the flow state. -/
theorem flowState_separates (is : List FrontIn) (hok : AllSteps Front.step Front.NsAck .reset is) :
    (run Front.step .reset is).Separates :=
  (run_inv Front.step (fun _ _ h ho => Front.Inv.step h ho) is _ .reset hok).separates

/-- A frame with an IPv4 header without options and a TCP header without options. -/
def header (ethType : BitVec 16) (prot : BitVec 8) (ipLen : BitVec 16) (t : Tuple) (seq : BitVec 32)
    (flags : BitVec 9) : Header :=
  (ethType.setWidth 512 <<< 400) ||| (0x45#512 <<< 392) ||| (ipLen.setWidth 512 <<< 368) |||
    (prot.setWidth 512 <<< 320) ||| (t.sIP.setWidth 512 <<< 272) ||| (t.dIP.setWidth 512 <<< 240) |||
    (t.sPort.setWidth 512 <<< 224) ||| (t.dPort.setWidth 512 <<< 208) ||| (seq.setWidth 512 <<< 176) |||
    (5#512 <<< 140) ||| (flags.setWidth 512 <<< 128)

def FrontIn.idle : FrontIn := ⟨⟨0, false, false, false, .zero, false⟩, false, true, false⟩

def FrontIn.frame (d : Header) (id : PktId) : FrontIn :=
  { FrontIn.idle with parser := ⟨d, true, true, true, { Metadata.zero with pktID := id }, true⟩ }

/-- A TCP frame that opens a flow, a UDP frame with its tuple, an ARP frame that looks like a bare ACK
of the flow, and the next TCP frame of the flow, which comes too early. -/
def mixedFrames : List FrontIn :=
  [.frame (header 0x0800 0x06 50 tupleA 100 0x10) 1, .frame (header 0x0800 0x11 50 tupleA 300 0x10) 2,
    .frame (header 0x0806 0x06 40 tupleA 110 0x10) 3, .frame (header 0x0800 0x06 50 tupleA 200 0x10) 4] ++
    List.replicate 40 .idle

theorem flowState_separates_mixedFrames :
    (run Front.step .reset mixedFrames).parsed.map (·.prot) = [protTcp, protUdp, protNs, protTcp] ∧
      (run Front.step .reset mixedFrames).Separates :=
  ⟨by decide +kernel, flowState_separates mixedFrames (by decide +kernel)⟩

/-- An ARP frame with the SYN bit at the place of the TCP flags opens a flow and is not forwarded. -/
theorem flowState_arpFrame :
    let s := run Front.step .reset (.frame (header 0x0806 0x00 0 tupleA 7 0x02) 1 :: List.replicate 26 .idle)
    s.parsed.map (·.prot) = [protNs] ∧ s.forwarded = [] ∧ s.fifo = [] ∧
      (s.ftw.fast.ft.slot (.ft 0 (ftAddr tupleA 0))).valid = true ∧
      (s.ftw.fast.ft.slot (.ft 0 (ftAddr tupleA 0))).tuple = tupleA := by
  decide +kernel

end Pigasus
