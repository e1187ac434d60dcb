import Pigasus.FlowView

/-!
# The invariant of the fast path

What the registers of the fast path and of the port B state machine know about
the map of flows, stage by stage and phase by phase.
-/

namespace Pigasus

open Hdl HashStore

/-- Where the map has a flow, and its entry. -/
abbrev Found := Option (Place (Fin 4) × Fce)

def Own (h : Tuple → Fin 4 → FtAddr) (e : Fce) : Prop := ∀ k, e.addr k = h e.tuple k

/-- The word `d` read from sub-table `k` holds the flow `t` exactly when the map has it there. -/
def SeesWay (o : Found) (t : Tuple) (k : Fin 4) (d : Fce) : Prop :=
  ∀ e, (occ d = some e ∧ e.tuple = t) ↔ o = some (.way k, e)

/-- As `SeesWay`, for a word read at an address that may not be the flow's own. -/
def SeesAddr (h : Tuple → Fin 4 → FtAddr) (o : Found) (t : Tuple) (k : Fin 4) (a : FtAddr) (d : Fce) : Prop :=
  (∀ e, occ d = some e → e.tuple = t → o = some (.way k, e) ∧ a = h t k) ∧
    (a = h t k → ∀ e, o = some (.way k, e) → occ d = some e)

/-- The list `L` holds the flow `t` exactly when the map has it in the queue. -/
def SeesQueue (o : Found) (t : Tuple) (L : List Fce) : Prop :=
  ∀ e, (e ∈ L ∧ e.tuple = t) ↔ o = some (.queue, e)

/-- The result of a lookup in the queue. -/
def SeesHit (o : Found) (hit : Bool) (q : Fce) : Prop :=
  (hit = true ↔ ∃ e, o = some (.queue, e)) ∧ ∀ e, o = some (.queue, e) → q = e

/-- The result of a lookup in all locations. -/
def SeesAll (o : Found) (b : BitMap) (q : Fce) : Prop :=
  (∀ l, b l = true ↔ ∃ e, o = some (l.place, e)) ∧ q = (o.map Prod.snd).getD .zero

namespace FastPath

/-- The tuple of the lookup under way. -/
abbrev tuple (s : FastPath) : Tuple := s.ft.ch0TupleLatchR

/-- What the lookup under way has learnt of its flow. -/
def FastData (h : Tuple → Fin 4 → FtAddr) (s : FastPath) (E : List Fce) (r : ParaQIn) (P : FlowMap) : Stage → Prop
  | .idle => True
  | .rd1 =>
    s.ft.lookupTupleR1 = s.tuple ∧ s.m8.tuple = s.tuple ∧ (∀ k, s.ch0MetaR1.addr k = h s.tuple k) ∧
      (∀ k, SeesWay (P s.tuple) s.tuple k (s.ft.ram k).a.r1) ∧
      r.rdenA = true ∧ r.addrA = s.tuple ∧ SeesQueue (P s.tuple) s.tuple (E.map r.write)
  | .rd2 =>
    s.ft.lookupTupleR2 = s.tuple ∧ s.m9.tuple = s.tuple ∧ (∀ k, s.ch0MetaR2.addr k = h s.tuple k) ∧
      (∀ k, SeesWay (P s.tuple) s.tuple k (s.ft.ram k).a.q) ∧ SeesHit (P s.tuple) s.ft.pq.rdHitA s.ft.pq.qA
  | .dec =>
    s.m10.tuple = s.tuple ∧ (∀ k, s.ch0MetaR3.addr k = h s.tuple k) ∧
      SeesAll (P s.tuple) s.ft.ch0BitMap s.ft.ch0Q
  | .wr => s.dec.ch1Data.tuple = s.tuple ∧ OpOk h P s.dec.ch1Opcode s.dec.ch1BitMap s.dec.ch1Data

/-- Port B is at the words of the flow `t`. -/
def At (h : Tuple → Fin 4 → FtAddr) (p : PortB) (t : Tuple) : Prop := ∀ k, (p.ft k).addrB = h t k

/-- The head of the queue is the flow that port B is at. -/
def HeadAt (h : Tuple → Fin 4 → FtAddr) (p : PortB) (Q : List Fce) : Prop := ∃ e q, Q = e :: q ∧ At h p e.tuple

/-- The flow in transit is the one that port B is at. -/
def TransitAt (h : Tuple → Fin 4 → FtAddr) (p : PortB) (o : Option Fce) : Prop := ∃ e, o = some e ∧ At h p e.tuple

/-- The slow write that port B has taken over. -/
structure Taken3 (h : Tuple → Fin 4 → FtAddr) (p : PortB) : Prop where
  lookupTuple : p.lookupTupleB = p.ch3DataR.tuple
  qAddr : p.qAddrB = p.ch3DataR.tuple
  addr : ∀ k, (p.ft k).addrB = p.ch3DataR.addr k
  own : p.ch3DataR.valid = true → Own h p.ch3DataR

/-- The slow lookup that port B has taken over. -/
structure Taken2 (h : Tuple → Fin 4 → FtAddr) (p : PortB) : Prop where
  qAddr : p.qAddrB = p.lookupTupleB
  addr : At h p p.lookupTupleB

/-- The word at which port B is, in sub-table `k`. -/
abbrev wordB (s : FastPath) (k : Fin 4) : Fce := s.ft.words k (s.ft.pb.ft k).addrB

/-- What port B knows in each phase; `snap` is what the map had of the flow of a slow lookup when it was read. -/
def PortData (h : Tuple → Fin 4 → FtAddr) (s : FastPath) (E : List Fce) (r : ParaQIn) (P : FlowMap) (snap : Found)
    (st : Stage) : Phase → Prop
  | .arb => True
  | .filled =>
    (st = .wr → s.dec.ch1Opcode = .insert) ∧
      (s.ft.pb.evict = true → st = .idle ∧ s.ft.pb.evictData.valid = true ∧ (r.apply E).length < 8)
  | .updated =>
    (st ≠ .idle → s.tuple ≠ s.ft.pb.ch3DataR.tuple) ∧
      (∀ k, (s.ft.pb.ft k).wrenB = true → (s.ft.pb.ft k).dataB.tuple = s.ft.pb.ch3DataR.tuple) ∧
      (s.ft.pb.qWrenB = true → s.ft.pb.qDataB.valid = true ∧ s.ft.pb.qDataB.tuple = s.ft.pb.qAddrB ∧
        s.ft.pb.qAddrB = s.ft.pb.ch3DataR.tuple)
  | .lookup b =>
    HeadAt h s.ft.pb (r.apply E) ∧
      (b = .b2 → ∀ k, (s.ft.ram k).b.r1.valid = false → occ (s.wordB k) = none) ∧
      (b = .b3 → ∀ k, (s.ft.ram k).b.q.valid = false → occ (s.wordB k) = none)
  | .fill b =>
    (if b = .b1 then HeadAt h s.ft.pb (r.apply E) else TransitAt h s.ft.pb (s.ft.view E r).transit) ∧
      (b ≠ .b1 → st = .wr → s.dec.ch1Opcode = .insert) ∧
      (∃ k, s.ft.pb.ftEmptyR k = true) ∧ ∀ k, s.ft.pb.ftEmptyR k = true → occ (s.wordB k) = none
  | .evic b =>
    (if b = .b1 then HeadAt h s.ft.pb (r.apply E)
      else TransitAt h s.ft.pb (s.ft.view E r).transit ∧ (r.apply E).length < 8) ∧
      ∀ k, occ (s.wordB k) = some (s.ft.pb.ft k).qBR
  | .upWait => Taken3 h s.ft.pb
  | .up b =>
    Taken3 h s.ft.pb ∧ (st ≠ .idle → s.tuple ≠ s.ft.pb.ch3DataR.tuple) ∧
      let t := s.ft.pb.ch3DataR.tuple
      (b = .b2 → s.ft.lookupTupleBR1 = t ∧ (∀ k, SeesAddr h (P t) t k (s.ft.pb.ft k).addrB (s.ft.ram k).b.r1) ∧
        r.rdenB = true ∧ r.addrB = t ∧ SeesQueue (P t) t E) ∧
      (b = .b3 → s.ft.lookupTupleBR2 = t ∧ (∀ k, SeesAddr h (P t) t k (s.ft.pb.ft k).addrB (s.ft.ram k).b.q) ∧
        SeesHit (P t) s.ft.pq.rdHitB s.ft.pq.qB)
  | .lkWait => Taken2 h s.ft.pb
  | .lk b =>
    Taken2 h s.ft.pb ∧
      let t := s.ft.pb.lookupTupleB
      (b = .b1 → st = .wr → s.tuple ≠ t ∨ s.dec.ch1Opcode = .insert) ∧
      (b ≠ .b1 → ∀ e, snap ≠ some (.transit, e)) ∧
      (b = .b2 → s.ft.lookupTupleBR1 = t ∧ (∀ k, SeesWay snap t k (s.ft.ram k).b.r1) ∧
        r.rdenB = true ∧ r.addrB = t ∧ SeesQueue snap t E) ∧
      (b = .b3 → s.ft.lookupTupleBR2 = t ∧ (∀ k, SeesWay snap t k (s.ft.ram k).b.q) ∧
        SeesHit snap s.ft.pq.rdHitB s.ft.pq.qB)

end FastPath

/-- In phase `ph` the lookup under way is at least this far. -/
def Phase.minAge : Phase → Nat
  | .lookup .b1 => 1
  | .lookup .b2 => 2
  | .lookup .b3 => 3
  | .fill _ | .filled => 4
  | .evic _ => 5
  | _ => 0

structure FastInv (h : Tuple → Fin 4 → FtAddr) (s : FastPath) (E : List Fce) (r : ParaQIn) (P : FlowMap) (snap : Found)
    (ph : Phase) (st : Stage) : Prop where
  ctl : Ctl s.ft ph
  stage : StageCtl s st
  age : ph.minAge ≤ st.age
  pq : PqRel s.ft.pq E r
  queue : QueueOk E
  legal : Legal E r
  fatal : s.ft.pq.isErrorFatal = false
  rep : Rep Fce.tuple h (s.ft.view E r) P
  own : ∀ {t p e}, P t = some (p, e) → e.valid = true ∧ Own h e
  ownE : ∀ e ∈ E, Own h e
  ownQ : ∀ e ∈ r.apply E, Own h e
  head : s.ft.qEmptyR = false → s.ft.pq.dequeData.valid = true ∧ Own h s.ft.pq.dequeData
  insertIdle : r.isInsert = true → st = .idle
  rdw : ∀ l, (s.ft.rdw l).aR1 = false ∧ (s.ft.rdw l).aR2 = false ∧ (s.ft.rdw l).bR1 = false ∧ (s.ft.rdw l).bR2 = false
  fast : s.FastData h E r P st
  port : s.PortData h E r P snap st ph

/-! ## Assumptions on the environment and on the steps -/

/-- The addresses that come with a tuple are the hashes of it, and channel 3 holds its data while it has to wait. -/
structure FastEnv (h : Tuple → Fin 4 → FtAddr) (s : FastPath) (i : FastIn) : Prop where
  ch0 : i.ch0Rden = true → ∀ k, i.ch0Addr k = h i.m7.tuple k
  ch2 : i.ch2Rden = true → ∀ k, i.ch2Meta.addr k = h i.ch2Meta.tuple k
  ch3 : i.ch3Wren = true → i.ch3Data.valid = true → Own h i.ch3Data
  held : s.ft.pb.pState = .slowUpdateWait → i.ch3Data.tuple = s.ft.pb.ch3DataR.tuple

instance (h : Tuple → Fin 4 → FtAddr) (e : Fce) : Decidable (Own h e) := by unfold Own; infer_instance

instance (h : Tuple → Fin 4 → FtAddr) (s : FastPath) (i : FastIn) : Decidable (FastEnv h s i) :=
  decidable_of_iff
    ((i.ch0Rden = true → ∀ k, i.ch0Addr k = h i.m7.tuple k) ∧
      (i.ch2Rden = true → ∀ k, i.ch2Meta.addr k = h i.ch2Meta.tuple k) ∧
      (i.ch3Wren = true → i.ch3Data.valid = true → Own h i.ch3Data) ∧
      (s.ft.pb.pState = .slowUpdateWait → i.ch3Data.tuple = s.ft.pb.ch3DataR.tuple))
    ⟨fun ⟨h0, h2, h3, hh⟩ => ⟨h0, h2, h3, hh⟩, fun ⟨h0, h2, h3, hh⟩ => ⟨h0, h2, h3, hh⟩⟩

namespace FastPath

variable (s : FastPath) (i : FastIn)

/-- The flow for which port B reads. -/
def tupleB : Tuple := if s.ft.pb.pState = .pLookup then (s.ft.pq.stage 0).tuple else s.ft.pb.lookupTupleB

/-- When the two ports meet at one word of a sub-table, it is for one flow. -/
def NoAlias : Prop :=
  ∀ k, (s.ft.rdenA (s.ftIn i) = true → (s.ft.pb.ft k).wrenB = true → i.ch0Addr k = (s.ft.pb.ft k).addrB →
      i.m7.tuple = (s.ft.pb.ft k).dataB.tuple) ∧
    (FlowTable.wrenA (s.ftIn i) (.ft k) = true → (s.ft.pb.ft k).rdenB = true →
      s.dec.ch1Data.addr k = (s.ft.pb.ft k).addrB → s.dec.ch1Data.tuple = s.tupleB)

/-- The fast path does not take the head of the queue away from a fill. -/
def HeadKept : Prop :=
  (FlowTable.delete (s.ftIn i) = true → s.ft.pb.qDequeEn = false ∧
    (s.ft.pb.pState = .pLookup ∨ s.ft.grant (s.ftIn i) = 0b0001#4 → s.dec.ch1Data.tuple ≠ (s.ft.pq.stage 0).tuple)) ∧
  (s.ft.grant (s.ftIn i) = 0b0001#4 →
    (s.ft.pq.stage 0).valid = true ∧ (s.ft.pq.stage 0).tuple = s.ft.pq.dequeData.tuple)

/-- The slow path does not delete an entry that is in the queue. -/
def NoQueueDelete : Prop :=
  s.ft.pb.pState = .slowUpdate → s.ft.rdValidB = true → s.ft.pq.rdHitB = true → s.ft.pb.ch3DataR.valid = true

/-- The fast path is idle during an eviction, and the victims were read in their latest version. -/
def EvictQuiet : Prop :=
  (s.ft.pb.pState = .pLookup → s.ft.rdValidB = true → isZero (List.finRange 4) s.ft.ftEmpty = true →
    s.ft.ch0RdValid = false ∧ s.dec.ch1Wren = false ∧
      ∀ k, (s.ft.ram k).b.q = (s.ft.ram k).mem (s.ft.pb.ft k).addrB) ∧
  (s.ft.pb.pState = .pEvic → s.ft.rdenA (s.ftIn i) = false)

/-- The step avoids the port conflicts that the flow table does not handle. -/
def Clean : Prop := s.NoAlias i ∧ s.HeadKept i ∧ s.NoQueueDelete ∧ s.EvictQuiet i

instance : Decidable (s.NoAlias i) := by unfold NoAlias; infer_instance
instance : Decidable (s.HeadKept i) := by unfold HeadKept; infer_instance
instance : Decidable s.NoQueueDelete := by unfold NoQueueDelete; infer_instance
instance : Decidable (s.EvictQuiet i) := by unfold EvictQuiet; infer_instance
instance : Decidable (s.Clean i) := by unfold Clean; infer_instance

end FastPath

end Pigasus
