import Pigasus.TrafficManager

/-!
# The bypass around the non-fast-pattern matcher

`bypass_nf_front` sends each packet, with its metadata and its rule group, to
the matcher or around it; `bypass_nf_back` joins the two paths. Both move the
three streams of one packet on separate handshakes and go on to the next packet
when all three are done.
-/

namespace Pigasus

open Hdl Frames

instance : Inhabited Flit512 := ⟨⟨0, false, false, 0⟩⟩

/-! ## Three streams at once -/

/-- Words of the packet, the metadata and the rule stream. -/
@[ext] structure Three where
  pkt : List Flit512
  metaData : List Metadata
  usr : List Flit512

namespace Three

def nil : Three := ⟨[], [], []⟩

instance : Append Three := ⟨fun a b => ⟨a.pkt ++ b.pkt, a.metaData ++ b.metaData, a.usr ++ b.usr⟩⟩

/-- Each stream of `a` begins the one of `b`. -/
def Begins (a b : Three) : Prop := a.pkt <+: b.pkt ∧ a.metaData <+: b.metaData ∧ a.usr <+: b.usr

def join (l : List Three) : Three := l.foldr (· ++ ·) nil

def size (a : Three) : Nat := a.pkt.length + a.metaData.length + a.usr.length

/-- The streams of whole triples. -/
def of (ts : List Triple) : Three where
  pkt := ts.flatMap fun t => t.pkt.flits
  metaData := ts.map Triple.metaData
  usr := ts.flatMap fun t => t.rules.flits

end Three

/-- The wires, or the registers, of the three streams. -/
structure Bus where
  pktValid : Bool
  pkt : Flit512
  metaValid : Bool
  metaData : Metadata
  usrValid : Bool
  usr : Flit512

/-- `pkt_done`, `meta_done`, `rule_done`. -/
structure Flags where
  pkt : Bool
  metaData : Bool
  rule : Bool

namespace Flags

def clear : Flags := ⟨false, false, false⟩

def all (d : Flags) : Bool := d.pkt && d.metaData && d.rule

/-- The streams that are ready while their path is selected. -/
def ready (d : Flags) (selected : Bool) : Flags := ⟨!d.pkt && selected, !d.metaData && selected, !d.rule && selected⟩

def carry (d : Flags) (i : Bus) : Flags where
  pkt := d.pkt || (i.pkt.eop && i.pktValid)
  metaData := d.metaData || i.metaValid
  rule := d.rule || (i.usr.eop && i.usrValid)

end Flags

namespace Bus

def reset : Bus := ⟨false, default, false, default, false, default⟩

/-- The data registers follow the input and the valid bits stay. -/
def load (r i : Bus) : Bus := { i with pktValid := r.pktValid, metaValid := r.metaValid, usrValid := r.usrValid }

/-- What is registered of the input `i` while its triple is carried. -/
def carry (i : Bus) (d : Flags) : Bus where
  pktValid := !d.pkt && i.pktValid
  pkt := i.pkt
  metaValid := !d.metaData && i.metaValid
  metaData := i.metaData
  usrValid := !d.rule && i.usrValid
  usr := i.usr

/-- The words that are valid. -/
def beat (b : Bus) : Three where
  pkt := if b.pktValid then [b.pkt] else []
  metaData := if b.metaValid then [b.metaData] else []
  usr := if b.usrValid then [b.usr] else []

end Bus

namespace Three

/-- A first-word-fall-through queue shows its first word. -/
def bus (q : Three) : Bus where
  pktValid := !q.pkt.isEmpty
  pkt := q.pkt.headD default
  metaValid := !q.metaData.isEmpty
  metaData := q.metaData.headD default
  usrValid := !q.usr.isEmpty
  usr := q.usr.headD default

def drop (q : Three) (ready : Flags) : Three where
  pkt := if ready.pkt then q.pkt.tail else q.pkt
  metaData := if ready.metaData then q.metaData.tail else q.metaData
  usr := if ready.rule then q.usr.tail else q.usr

end Three

/-! ## The front and the back -/

inductive NfState
  | idle | pushNf | bypass
  deriving DecidableEq

structure NfFront where
  state : NfState
  done : Flags
  out : Bus
  bypass : Bus

namespace NfFront

def reset : NfFront := ⟨.idle, .clear, .reset, .reset⟩

def ready (s : NfFront) : Flags := s.done.ready (s.state != .idle)

def step (s : NfFront) (i : Bus) (outPktAlmostFull bypassPktAlmostFull : Bool) : NfFront :=
  match s.state with
  | .idle =>
    { state :=
        if i.pktValid then
          if outPktAlmostFull then (if !bypassPktAlmostFull then .bypass else .idle) else .pushNf
        else .idle
      done := .clear
      out := s.out.load i
      bypass := s.bypass.load i }
  | .pushNf =>
    { state := if s.done.all then .idle else .pushNf
      done := s.done.carry i
      out := i.carry s.done
      bypass := s.bypass.load i }
  | .bypass =>
    { state := if s.done.all then .idle else .bypass
      done := s.done.carry i
      out := s.out.load i
      bypass := i.carry s.done }

end NfFront

structure NfBack where
  state : NfState
  done : Flags
  prio : Bool
  out : Bus

namespace NfBack

def reset : NfBack := ⟨.idle, .clear, false, .reset⟩

/-- The streams of the path `p` that are ready. -/
def ready (s : NfBack) (p : NfState) : Flags := s.done.ready (s.state == p)

/-- `prio` selects the matcher's packet first. -/
def select (prio nfValid bypassValid : Bool) : NfState :=
  if prio then (if nfValid then .pushNf else if bypassValid then .bypass else .idle)
  else (if bypassValid then .bypass else if nfValid then .pushNf else .idle)

def step (s : NfBack) (i bypass : Bus) (outPktAlmostFull : Bool) : NfBack :=
  match s.state with
  | .idle =>
    { s with
      state := if !outPktAlmostFull then select s.prio i.pktValid bypass.pktValid else .idle
      done := .clear }
  | .pushNf =>
    { state := if s.done.all then .idle else .pushNf
      done := s.done.carry i
      prio := if s.done.all then true else s.prio
      out := i.carry s.done }
  | .bypass =>
    { state := if s.done.all then .idle else .bypass
      done := s.done.carry bypass
      prio := if s.done.all then false else s.prio
      out := bypass.carry s.done }

end NfBack

/-! ## The matcher's path -/

/-- The rules of a group: its words that are not zero. -/
def ruleIds (f : Frame512) : List (BitVec 16) :=
  f.flits.flatMap fun b => ((List.range 32).map fun k => b.data.extractLsb' (16 * k) 16).filter (· != 0)

/-- Each triple is dropped, or passed on with some of its rules. -/
inductive Passes : List Triple → List Triple → Prop
  | nil : Passes [] []
  | drop (t : Triple) {ts ps : List Triple} : Passes ts ps → Passes (t :: ts) ps
  | pass (t : Triple) (rules : Frame512) {ts ps : List Triple} : ruleIds rules ⊆ ruleIds t.rules → Passes ts ps →
      Passes (t :: ts) (⟨t.pkt, t.metaData, rules⟩ :: ps)

/-- What the path sees in a cycle; `almostFull` is the queue behind it. -/
structure NfIn where
  bus : Bus
  almostFull : Bool

def streams (h : List NfIn) : Three := .join (h.map fun i => i.bus.beat)

/-- All that a component puts out while it is given `h`. -/
def emitted (out : List NfIn → Three) (h : List NfIn) : Three :=
  .join ((List.range h.length).map fun k => out (h.take (k + 1)))

/-- Nothing is given to the path and nothing holds it back. -/
def NfIn.Rest (i : NfIn) : Prop := i.bus.beat = .nil ∧ i.almostFull = false

/-- Any component, as what it puts out after each history, that passes on triples in order. -/
structure NfPath where
  out : List NfIn → Three
  passes : ∀ (ts : List Triple) (h : List NfIn), (streams h).Begins (.of ts) →
    ∃ ps, Passes ts ps ∧ (emitted out h).Begins (.of ps)
  finishes : ∀ (ts : List Triple) (h : List NfIn), streams h = .of ts →
    ∃ n ps, Passes ts ps ∧ ∀ e : List NfIn, (∀ i ∈ e, i.Rest) → n ≤ e.length → emitted out (h ++ e) = .of ps

/-! ## The whole system -/

structure NfSource where
  pkt : Source Flit512
  metaData : Source Metadata
  usr : Source Flit512

namespace NfSource

variable (q : NfSource)

def waiting : Three := ⟨q.pkt.waiting, q.metaData.waiting, q.usr.waiting⟩

def all : Three := ⟨q.pkt.all, q.metaData.all, q.usr.all⟩

def step (arrives ready : Flags) : NfSource where
  pkt := q.pkt.step arrives.pkt ready.pkt
  metaData := q.metaData.step arrives.metaData ready.metaData
  usr := q.usr.step arrives.rule ready.rule

end NfSource

structure NfTick where
  arrives : Flags
  outPktAlmostFull : Bool
  bypassPktAlmostFull : Bool
  nfAlmostFull : Bool
  backPktAlmostFull : Bool

structure NfSys where
  src : NfSource
  front : NfFront
  -- all that the matcher's path has been given, and the queue behind it
  nfIns : List NfIn
  nfQ : Three
  -- all that the bypass has been given, and its queue
  toBypass : Three
  bypassQ : Three
  back : NfBack
  out : Three

namespace NfSys

def reset (ts : List Triple) : NfSys where
  src := ⟨⟨(Three.of ts).pkt, []⟩, ⟨(Three.of ts).metaData, []⟩, ⟨(Three.of ts).usr, []⟩⟩
  front := .reset
  nfIns := []
  nfQ := .nil
  toBypass := .nil
  bypassQ := .nil
  back := .reset
  out := .nil

/-- The matcher's path after this cycle. -/
def nfIns' (s : NfSys) (i : NfTick) : List NfIn := s.nfIns ++ [⟨s.front.out, i.nfAlmostFull⟩]

def step (p : NfPath) (s : NfSys) (i : NfTick) : NfSys where
  src := s.src.step i.arrives s.front.ready
  front := s.front.step s.src.waiting.bus i.outPktAlmostFull i.bypassPktAlmostFull
  nfIns := s.nfIns' i
  nfQ := s.nfQ.drop (s.back.ready .pushNf) ++ p.out (s.nfIns' i)
  toBypass := s.toBypass ++ s.front.bypass.beat
  bypassQ := s.bypassQ.drop (s.back.ready .bypass) ++ s.front.bypass.beat
  back := s.back.step s.nfQ.bus s.bypassQ.bus i.backPktAlmostFull
  out := s.out ++ s.back.out.beat

end NfSys

end Pigasus
