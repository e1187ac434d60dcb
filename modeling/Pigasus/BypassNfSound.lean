import Pigasus.BypassNf
import Pigasus.TrafficManagerSound
import Mathlib.Data.List.Induction

/-!
# The bypass neither loses nor mixes packets
-/

namespace Pigasus

open Hdl Frames

/-! ## Three streams -/

namespace Three

section
variable (a b c : Three)

@[simp] theorem append_pkt : (a ++ b).pkt = a.pkt ++ b.pkt := rfl
@[simp] theorem append_metaData : (a ++ b).metaData = a.metaData ++ b.metaData := rfl
@[simp] theorem append_usr : (a ++ b).usr = a.usr ++ b.usr := rfl

theorem append_assoc : a ++ b ++ c = a ++ (b ++ c) := by ext1 <;> simp

@[simp] theorem append_nil : a ++ nil = a := by ext1 <;> simp [nil]

@[simp] theorem nil_append : nil ++ a = a := rfl

theorem size_append : (a ++ b).size = a.size + b.size := by
  simp only [size, append_pkt, append_metaData, append_usr, List.length_append]
  omega

theorem begins_append : a.Begins (a ++ b) := ⟨List.prefix_append _ _, List.prefix_append _ _, List.prefix_append _ _⟩

end

variable {a b c : Three}

theorem Begins.trans (h : a.Begins b) (k : b.Begins c) : a.Begins c := ⟨h.1.trans k.1, h.2.1.trans k.2.1, h.2.2.trans k.2.2⟩

theorem begins_iff : a.Begins b ↔ ∃ c, a ++ c = b := by
  constructor
  · rintro ⟨⟨x, hx⟩, ⟨y, hy⟩, ⟨z, hz⟩⟩
    exact ⟨⟨x, y, z⟩, by ext1 <;> assumption⟩
  · rintro ⟨c, rfl⟩
    exact begins_append a c

theorem append_cancel (h : a ++ b = a ++ c) : b = c := by
  have h1 := congrArg pkt h
  have h2 := congrArg metaData h
  have h3 := congrArg usr h
  simp only [append_pkt, append_metaData, append_usr, List.append_cancel_left_eq] at h1 h2 h3
  ext1 <;> assumption

theorem join_snoc (l : List Three) (x : Three) : join (l ++ [x]) = join l ++ x := by
  induction l with
  | nil => simp [join]
  | cons y l ih =>
    have hc : ∀ m, join (y :: m) = y ++ join m := fun _ => rfl
    rw [List.cons_append, hc, hc, ih, append_assoc]

theorem of_append (xs ts : List Triple) : of (xs ++ ts) = of xs ++ of ts := by ext1 <;> simp [of]

@[simp] theorem of_nil : of [] = nil := rfl

theorem of_cancel {xs : List Triple} : ∀ {ts : List Triple} {r : Three}, of xs ++ r = of ts → ∃ later, ts = xs ++ later ∧ r = of later := by
  induction xs with
  | nil =>
    intro ts r h
    exact ⟨ts, rfl, h⟩
  | cons t xs ih =>
    intro ts r h
    have h1 := congrArg pkt h
    have h2 := congrArg metaData h
    have h3 := congrArg usr h
    cases ts with
    | nil => simp [of, t.pkt.flits_ne_nil] at h1
    | cons t' ts =>
      simp only [of, append_pkt, append_metaData, append_usr, List.flatMap_cons, List.map_cons, List.append_assoc] at h1 h2 h3
      obtain ⟨hp, h1⟩ := Marked.eq_of_append h1
      obtain ⟨hr, h3⟩ := Marked.eq_of_append h3
      obtain ⟨hm, h2⟩ := List.cons.inj h2
      obtain ⟨later, rfl, hl⟩ := @ih ts r (by ext1 <;> assumption)
      have ht : t = t' := by
        cases t
        cases t'
        simp_all
      exact ⟨later, by rw [ht]; rfl, hl⟩

theorem of_begins {xs ts : List Triple} {r : Three} (h : (of xs ++ r).Begins (of ts)) :
    ∃ later, ts = xs ++ later ∧ r.Begins (of later) := by
  obtain ⟨c, hc⟩ := begins_iff.1 h
  rw [append_assoc] at hc
  obtain ⟨later, hts, hl⟩ := of_cancel hc
  exact ⟨later, hts, begins_iff.2 ⟨c, hl⟩⟩

theorem exists_cons_of_pkt {ts : List Triple} (h : a.Begins (of ts)) (hp : a.pkt ≠ []) : ∃ t later, ts = t :: later := by
  cases ts with
  | nil => exact absurd (List.prefix_nil.1 h.1) hp
  | cons t later => exact ⟨t, later, rfl⟩

end Three

/-! ## One triple on its way -/

def Part (d : Bool) (l : List Flit512) : Prop :=
  if d then ∃ f : Frame512, l = f.flits else ∀ x ∈ l, x.eop = false

theorem Part.step {d : Bool} {l : List Flit512} (h : Part d l) (x : Flit512) (v : Bool) :
    Part (d || (x.eop && v)) (l ++ if !d && v then [x] else []) := by
  cases d with
  | true => simpa using h
  | false =>
    cases v with
    | false => simpa using h
    | true =>
      have hl : ∀ y ∈ l, y.eop = false := h
      cases hx : x.eop with
      | true =>
        have hp : ∃ f : Frame512, l ++ [x] = f.flits := ⟨⟨l, x, hl, hx⟩, rfl⟩
        simpa [Part] using hp
      | false =>
        simp only [Part, Bool.not_false, Bool.true_and, if_true, Bool.false_and, Bool.or_false, Bool.false_eq_true, if_false]
        intro y hy
        rcases List.mem_append.1 hy with hy | hy
        · exact hl y hy
        · rwa [List.mem_singleton.1 hy]

theorem Part.within {d : Bool} {l r : List Flit512} {f : Frame512} (h : Part d l) (hp : l <+: f.flits ++ r) : l <+: f.flits := by
  cases d with
  | true =>
    obtain ⟨g, rfl⟩ : ∃ g : Frame512, l = g.flits := h
    obtain ⟨c, hc⟩ := hp
    obtain ⟨rfl, -⟩ := Marked.eq_of_append hc
    exact List.prefix_rfl
  | false =>
    have hl : ∀ y ∈ l, y.eop = false := h
    rcases List.prefix_or_prefix_of_prefix hp (List.prefix_append f.flits r) with h1 | h1
    · exact h1
    · have := hl f.last (h1.subset f.last_mem)
      rw [f.last_mark] at this
      cases this

theorem Part.ne_nil {l q r : List Flit512} {f : Frame512} (h : Part false l) (hq : l ++ q = f.flits ++ r) : q ≠ [] := by
  intro hn
  have hl : ∀ y ∈ l, y.eop = false := h
  subst hn
  have hm : f.last ∈ l := by
    rw [List.append_nil] at hq
    rw [hq]
    exact List.mem_append_left _ f.last_mem
  have := hl f.last hm
  rw [f.last_mark] at this
  cases this

structure Carrying (d : Flags) (cur : Three) : Prop where
  pkt : Part d.pkt cur.pkt
  metaData : cur.metaData.length = if d.metaData then 1 else 0
  usr : Part d.rule cur.usr

namespace Carrying

variable {d : Flags} {cur q : Three}

theorem begin : Carrying .clear .nil := by
  refine ⟨?_, rfl, ?_⟩
  · intro x hx
    cases hx
  · intro x hx
    cases hx

theorem step (h : Carrying d cur) (i : Bus) : Carrying (d.carry i) (cur ++ (i.carry d).beat) := by
  obtain ⟨hp, hm, hu⟩ := h
  refine ⟨hp.step i.pkt i.pktValid, ?_, hu.step i.usr i.usrValid⟩
  simp only [Flags.carry, Bus.carry, Bus.beat, Three.append_metaData, List.length_append, hm]
  by_cases hd : d.metaData = true
  · simp [hd]
  · by_cases hv : i.metaValid = true
    · simp [hd, hv]
    · simp [hd, hv]

theorem whole (h : Carrying d cur) (ha : d.all = true) : ∃ t, cur = .of [t] := by
  simp only [Flags.all, Bool.and_eq_true] at ha
  obtain ⟨hp, hm, hu⟩ := h
  rw [ha.1.1] at hp
  rw [ha.1.2] at hm
  rw [ha.2] at hu
  obtain ⟨f, hf⟩ := hp
  obtain ⟨g, hg⟩ := hu
  obtain ⟨m, hm⟩ := List.length_eq_one_iff.1 hm
  exact ⟨⟨f, m, g⟩, by ext1 <;> simp [Three.of, hf, hg, hm]⟩

theorem within {t : Triple} {later : List Triple} (h : Carrying d cur) (hb : cur.Begins (.of (t :: later))) : cur.Begins (.of [t]) := by
  obtain ⟨hp, hm, hu⟩ := hb
  simp only [Three.of, List.flatMap_cons, List.map_cons] at hp hm hu
  have hp' := h.pkt.within hp
  have hu' := h.usr.within hu
  refine ⟨by simpa [Three.of] using hp', ?_, by simpa [Three.of] using hu'⟩
  have hl : cur.metaData.length ≤ 1 := by
    rw [h.metaData]
    split <;> omega
  have hm' := List.prefix_take_iff.2 ⟨hm, hl⟩
  simpa [Three.of] using hm'

theorem wants {t : Triple} {later : List Triple} (h : Carrying d cur) (ha : d.all = false) (hq : cur ++ q = .of (t :: later)) :
    (d.pkt = false ∧ q.pkt ≠ []) ∨ (d.metaData = false ∧ q.metaData ≠ []) ∨ (d.rule = false ∧ q.usr ≠ []) := by
  have h1 := congrArg Three.pkt hq
  have h2 := congrArg Three.metaData hq
  have h3 := congrArg Three.usr hq
  simp only [Three.of, Three.append_pkt, Three.append_metaData, Three.append_usr, List.flatMap_cons, List.map_cons] at h1 h2 h3
  obtain ⟨hp, hm, hu⟩ := h
  cases hdp : d.pkt with
  | false =>
    rw [hdp] at hp
    exact .inl ⟨rfl, hp.ne_nil h1⟩
  | true =>
    cases hdm : d.metaData with
    | false =>
      rw [hdm] at hm
      have hn : cur.metaData = [] := List.eq_nil_of_length_eq_zero hm
      refine .inr (.inl ⟨rfl, ?_⟩)
      intro hq'
      simp [hn, hq'] at h2
    | true =>
      have hdr : d.rule = false := by simpa [Flags.all, hdp, hdm] using ha
      rw [hdr] at hu
      exact .inr (.inr ⟨hdr, hu.ne_nil h3⟩)

end Carrying

/-! ## Taking from a queue -/

section
variable {α : Type} [Inhabited α]

theorem take_append_drop (d : Bool) (l : List α) :
    (if !d && !l.isEmpty then [l.headD default] else []) ++ (if !d && true then l.tail else l) = l := by
  cases d with
  | true => simp
  | false => cases l <;> simp

end

theorem Three.carry_drop (q : Three) (d : Flags) : (q.bus.carry d).beat ++ q.drop (d.ready true) = q := by
  ext1
  · exact take_append_drop d.pkt q.pkt
  · exact take_append_drop d.metaData q.metaData
  · exact take_append_drop d.rule q.usr

theorem Three.drop_not_ready (q : Three) (d : Flags) : q.drop (d.ready false) = q := by
  simp [Three.drop, Flags.ready]

theorem NfSource.all_step (q : NfSource) (arrives d : Flags) :
    (q.waiting.bus.carry d).beat ++ (q.step arrives (d.ready true)).all = q.all := by
  have hs : ∀ {α : Type} [Inhabited α] (s : Source α) (a d : Bool),
      (if !d && !s.waiting.isEmpty then [s.waiting.headD default] else []) ++ (s.step a (!d && true)).all = s.all := by
    intro α _ s a d
    rw [Source.all_step, ← List.append_assoc, take_append_drop]
    rfl
  ext1
  · exact hs q.pkt arrives.pkt d.pkt
  · exact hs q.metaData arrives.metaData d.metaData
  · exact hs q.usr arrives.rule d.rule

theorem NfSource.all_step_not_ready (q : NfSource) (arrives d : Flags) : (q.step arrives (d.ready false)).all = q.all := by
  simp [NfSource.step, NfSource.all, Flags.ready, Source.all_step_false]

theorem Bus.beat_load {r i : Bus} (h : r.beat = .nil) : (r.load i).beat = .nil := by
  have hp : r.pktValid = false := by
    have := congrArg Three.pkt h
    simpa [Bus.beat, Three.nil] using this
  have hm : r.metaValid = false := by
    have := congrArg Three.metaData h
    simpa [Bus.beat, Three.nil] using this
  have hu : r.usrValid = false := by
    have := congrArg Three.usr h
    simpa [Bus.beat, Three.nil] using this
  simp [Bus.beat, Bus.load, hp, hm, hu, Three.nil]

theorem Bus.beat_carry_all (i : Bus) {d : Flags} (h : d.all = true) : (i.carry d).beat = .nil := by
  simp only [Flags.all, Bool.and_eq_true] at h
  simp [Bus.beat, Bus.carry, h, Three.nil]

/-! ## The two paths -/

def pathState (b : Bool) : NfState := if b then .bypass else .pushNf

def onPath (b : Bool) (l : List (Triple × Bool)) : List Triple := (l.filter fun x => x.2 == b).map Prod.fst

theorem onPath_append (b : Bool) (l m : List (Triple × Bool)) : onPath b (l ++ m) = onPath b l ++ onPath b m := by
  simp [onPath]

theorem onPath_self (b : Bool) (t : Triple) : onPath b [(t, b)] = [t] := by simp [onPath]

theorem onPath_other (b : Bool) (t : Triple) : onPath (!b) [(t, b)] = [] := by cases b <;> rfl

def NfFront.port (s : NfFront) (b : Bool) : Bus := if b then s.bypass else s.out

theorem NfFront.step_busy {s : NfFront} {b : Bool} (hs : s.state = pathState b) (i : Bus) (x y : Bool) :
    (s.step i x y).state = (if s.done.all then .idle else pathState b) ∧ (s.step i x y).done = s.done.carry i ∧
      (s.step i x y).port b = i.carry s.done ∧ (s.step i x y).port (!b) = (s.port (!b)).load i := by
  cases b <;> simp [NfFront.step, hs, pathState, NfFront.port]

theorem NfFront.step_idle {s : NfFront} (hs : s.state = .idle) (i : Bus) (x y : Bool) :
    (s.step i x y).done = .clear ∧ (∀ b, (s.step i x y).port b = (s.port b).load i) ∧
      ((s.step i x y).state = .idle ∨ i.pktValid = true ∧ ∃ b, (s.step i x y).state = pathState b) := by
  refine ⟨by simp [NfFront.step, hs], ?_, ?_⟩
  · intro b
    cases b <;> simp [NfFront.step, hs, NfFront.port]
  · simp only [NfFront.step, hs]
    cases hv : i.pktValid with
    | false => exact .inl rfl
    | true =>
      cases x with
      | false => exact .inr ⟨rfl, false, rfl⟩
      | true =>
        cases y with
        | false => exact .inr ⟨rfl, true, rfl⟩
        | true => exact .inl rfl

theorem NfFront.ready_busy {s : NfFront} {b : Bool} (hs : s.state = pathState b) : s.ready = s.done.ready true := by
  unfold NfFront.ready
  rw [hs]
  cases b <;> rfl

theorem NfBack.ready_idle {s : NfBack} (hs : s.state = .idle) (b : Bool) : s.ready (pathState b) = s.done.ready false := by
  unfold NfBack.ready
  rw [hs]
  cases b <;> rfl

theorem NfBack.ready_other {s : NfBack} {b : Bool} (hs : s.state = pathState b) :
    s.ready (pathState !b) = s.done.ready false := by
  unfold NfBack.ready
  rw [hs]
  cases b <;> rfl

theorem NfBack.step_busy {s : NfBack} {b : Bool} (hs : s.state = pathState b) (i j : Bus) (x : Bool) :
    (s.step i j x).state = (if s.done.all then .idle else pathState b) ∧
      (s.step i j x).done = s.done.carry (if b then j else i) ∧ (s.step i j x).out = (if b then j else i).carry s.done := by
  cases b <;> simp [NfBack.step, hs, pathState]

theorem NfBack.step_idle {s : NfBack} (hs : s.state = .idle) (i j : Bus) (x : Bool) :
    (s.step i j x).done = .clear ∧ (s.step i j x).out = s.out ∧
      ((s.step i j x).state = .idle ∨ ∃ b, (if b then j else i).pktValid = true ∧ (s.step i j x).state = pathState b) := by
  refine ⟨by simp [NfBack.step, hs], by simp [NfBack.step, hs], ?_⟩
  have hsel : select s.prio i.pktValid j.pktValid = .idle ∨
      ∃ b : Bool, (if b then j else i).pktValid = true ∧ select s.prio i.pktValid j.pktValid = pathState b := by
    unfold select
    cases hi : i.pktValid <;> cases hj : j.pktValid <;> cases s.prio
    all_goals first
      | exact .inl rfl
      | exact .inr ⟨true, hj, rfl⟩
      | exact .inr ⟨false, hi, rfl⟩
  cases x with
  | true => exact .inl (by simp [NfBack.step, hs])
  | false => simpa [NfBack.step, hs] using hsel

/-! ## Histories -/

theorem streams_snoc (h : List NfIn) (i : NfIn) : streams (h ++ [i]) = streams h ++ i.bus.beat := by
  unfold streams
  rw [List.map_append]
  exact Three.join_snoc _ _

theorem emitted_snoc (out : List NfIn → Three) (h : List NfIn) (i : NfIn) :
    emitted out (h ++ [i]) = emitted out h ++ out (h ++ [i]) := by
  unfold emitted
  rw [List.length_append, List.length_singleton, List.range_succ, List.map_append, List.map_singleton, Three.join_snoc]
  congr 2
  · apply List.map_congr_left
    intro k hk
    rw [List.take_append_of_le_length (Nat.succ_le_of_lt (List.mem_range.1 hk))]
  · rw [List.take_of_length_le (by simp)]

theorem Passes.refl (ts : List Triple) : Passes ts ts := by
  induction ts with
  | nil => exact .nil
  | cons t ts ih => exact .pass t t.rules (List.Subset.refl _) ih

def NfPath.wire : NfPath :=
  have hw : ∀ h, emitted (fun h => (h.getLast?.map fun i => i.bus.beat).getD .nil) h = streams h := by
    intro h
    induction h using List.reverseRecOn with
    | nil => rfl
    | append_singleton h i ih => rw [emitted_snoc, streams_snoc, ih, List.getLast?_concat]; rfl
  { out := fun h => (h.getLast?.map fun i => i.bus.beat).getD .nil
    passes := fun ts h hb => ⟨ts, .refl ts, hw h ▸ hb⟩
    finishes := fun ts h hb => ⟨0, ts, .refl ts, fun e he _ => by
      rw [hw, ← hb]
      induction e using List.reverseRecOn with
      | nil => rw [List.append_nil]
      | append_singleton e i ih =>
        rw [← List.append_assoc, streams_snoc, (he i (by simp)).1, Three.append_nil]
        exact ih (fun j hj => he j (List.mem_append_left _ hj)) (Nat.zero_le _)⟩ }

instance : Inhabited NfPath := ⟨.wire⟩

namespace NfSys

variable {p : NfPath} {ts : List Triple} {s : NfSys}

def given (s : NfSys) (b : Bool) : Three := if b then s.toBypass else streams s.nfIns

def fed (p : NfPath) (s : NfSys) (b : Bool) : Three := if b then s.toBypass else emitted p.out s.nfIns

def queue (s : NfSys) (b : Bool) : Three := if b then s.bypassQ else s.nfQ

def feeds (p : NfPath) (s : NfSys) (i : NfTick) (b : Bool) : Three := if b then s.front.bypass.beat else p.out (s.nfIns' i)

theorem given_step (i : NfTick) (b : Bool) : (s.step p i).given b = s.given b ++ (s.front.port b).beat := by
  cases b with
  | true => rfl
  | false => exact streams_snoc _ _

theorem fed_step (i : NfTick) (b : Bool) : (s.step p i).fed p b = s.fed p b ++ s.feeds p i b := by
  cases b with
  | true => rfl
  | false => exact emitted_snoc _ _ _

theorem queue_step (i : NfTick) (b : Bool) : (s.step p i).queue b = (s.queue b).drop (s.back.ready (pathState b)) ++ s.feeds p i b := by
  cases b <;> rfl

/-! ## The front -/

/-- The triples that have entered, each with its path, and the one on its way. -/
inductive FrontInv (ts : List Triple) (s : NfSys) : Prop
  | idle (ent : List (Triple × Bool)) (hs : s.front.state = .idle) (src : .of (ent.map Prod.fst) ++ s.src.all = .of ts)
      (port : ∀ b, (s.front.port b).beat = .nil) (given : ∀ b, s.given b = .of (onPath b ent))
  | busy (ent : List (Triple × Bool)) (b : Bool) (sent : Three) (hs : s.front.state = pathState b)
      (src : .of (ent.map Prod.fst) ++ (sent ++ (s.front.port b).beat ++ s.src.all) = .of ts)
      (some : (sent ++ (s.front.port b).beat ++ s.src.all).pkt ≠ [])
      (carrying : Carrying s.front.done (sent ++ (s.front.port b).beat)) (port : (s.front.port (!b)).beat = .nil)
      (given : s.given b = .of (onPath b ent) ++ sent) (given' : s.given (!b) = .of (onPath (!b) ent))

theorem FrontInv.reset (ts : List Triple) : FrontInv ts (.reset ts) := by
  refine .idle [] rfl rfl ?_ ?_
  · intro b
    cases b <;> rfl
  · intro b
    cases b <;> rfl

theorem FrontInv.step (h : FrontInv ts s) (i : NfTick) : FrontInv ts (s.step p i) := by
  cases h with
  | idle ent hs src port given =>
    have hr : s.front.ready = s.front.done.ready false := by simp [NfFront.ready, hs]
    have hall : (s.step p i).src.all = s.src.all := by
      show (s.src.step i.arrives s.front.ready).all = _
      rw [hr, NfSource.all_step_not_ready]
    obtain ⟨hd, hp, hst⟩ := NfFront.step_idle hs s.src.waiting.bus i.outPktAlmostFull i.bypassPktAlmostFull
    have hport : ∀ b, ((s.step p i).front.port b).beat = .nil := by
      intro b
      rw [show (s.step p i).front.port b = _ from hp b]
      exact Bus.beat_load (port b)
    have hgiven : ∀ b, (s.step p i).given b = .of (onPath b ent) := by
      intro b
      rw [given_step, port b, Three.append_nil, given b]
    rcases hst with hst | ⟨hv, b, hst⟩
    · exact .idle ent hst (hall ▸ src) hport hgiven
    · have hne : s.src.all.pkt ≠ [] := by
        have hw : s.src.pkt.waiting ≠ [] := by simpa [Three.bus, NfSource.waiting] using hv
        simp [NfSource.all, Source.all, hw]
      refine .busy ent b .nil hst ?_ ?_ ?_ (hport _) ?_ (hgiven _)
      · rw [hport b, hall]
        exact src
      · rw [hport b, hall]
        exact hne
      · rw [hport b, show (s.step p i).front.done = _ from hd]
        exact Carrying.begin
      · rw [hgiven b, Three.append_nil]
  | busy ent b sent hs src some carrying port given given' =>
    have hr := NfFront.ready_busy hs
    have hall : (s.src.waiting.bus.carry s.front.done).beat ++ (s.step p i).src.all = s.src.all := by
      show _ ++ (s.src.step i.arrives s.front.ready).all = _
      rw [hr, NfSource.all_step]
    obtain ⟨hst, hd, hpb, hpo⟩ := NfFront.step_busy hs s.src.waiting.bus i.outPktAlmostFull i.bypassPktAlmostFull
    have hport : ((s.step p i).front.port (!b)).beat = .nil := by
      rw [show (s.step p i).front.port (!b) = _ from hpo]
      exact Bus.beat_load port
    have hpb' : ((s.step p i).front.port b) = s.src.waiting.bus.carry s.front.done := hpb
    have hgiven : (s.step p i).given b = .of (onPath b ent) ++ (sent ++ (s.front.port b).beat) := by
      rw [given_step, given, Three.append_assoc]
    have hother : (s.step p i).given (!b) = .of (onPath (!b) ent) := by
      rw [given_step, port, Three.append_nil, given']
    cases ha : s.front.done.all with
    | false =>
      rw [ha] at hst
      have htot : sent ++ (s.front.port b).beat ++ ((s.step p i).front.port b).beat ++ (s.step p i).src.all =
          sent ++ (s.front.port b).beat ++ s.src.all := by
        rw [hpb', Three.append_assoc _ (Bus.beat _), hall]
      refine .busy ent b (sent ++ (s.front.port b).beat) hst ?_ ?_ ?_ hport hgiven hother
      · rw [htot]
        exact src
      · rw [htot]
        exact some
      · rw [hpb', show (s.step p i).front.done = _ from hd]
        exact carrying.step _
    | true =>
      rw [ha] at hst
      -- the triple is whole, and nothing is taken in this cycle
      obtain ⟨t, ht⟩ := carrying.whole ha
      have hnil := Bus.beat_carry_all s.src.waiting.bus ha
      rw [hnil, Three.nil_append] at hall
      rw [ht] at hgiven src
      refine .idle (ent ++ [(t, b)]) hst ?_ ?_ ?_
      · rw [List.map_append, Three.of_append, Three.append_assoc, hall]
        exact src
      · intro c
        by_cases hc : c = b
        · rw [hc, hpb', hnil]
        · rw [show c = !b by cases c <;> cases b <;> simp_all, hport]
      · intro c
        rw [onPath_append, Three.of_append]
        by_cases hc : c = b
        · rw [hc, hgiven, onPath_self]
        · rw [show c = !b by cases c <;> cases b <;> simp_all, hother, onPath_other, Three.of_nil, Three.append_nil]

/-! ## The back -/

/-- The triples that have gone out, each with its path, and the one on its way. -/
inductive BackInv (p : NfPath) (s : NfSys) : Prop
  | idle (order : List (Triple × Bool)) (hs : s.back.state = .idle) (out : s.out = .of (order.map Prod.fst))
      (reg : s.back.out.beat = .nil) (fed : ∀ b, .of (onPath b order) ++ s.queue b = s.fed p b)
  | busy (order : List (Triple × Bool)) (b : Bool) (sent : Three) (hs : s.back.state = pathState b)
      (out : s.out = .of (order.map Prod.fst) ++ sent) (carrying : Carrying s.back.done (sent ++ s.back.out.beat))
      (some : (sent ++ s.back.out.beat ++ s.queue b).pkt ≠ [])
      (fed : .of (onPath b order) ++ (sent ++ s.back.out.beat ++ s.queue b) = s.fed p b)
      (fed' : .of (onPath (!b) order) ++ s.queue (!b) = s.fed p (!b))

theorem BackInv.reset (ts : List Triple) : BackInv p (.reset ts) := by
  refine .idle [] rfl rfl rfl ?_
  intro b
  cases b <;> rfl

theorem queue_bus (s : NfSys) (b : Bool) : (if b then s.bypassQ.bus else s.nfQ.bus) = (s.queue b).bus := by
  cases b <;> rfl

theorem BackInv.step (h : BackInv p s) (i : NfTick) : BackInv p (s.step p i) := by
  have hstep : (s.step p i).out = s.out ++ s.back.out.beat := rfl
  cases h with
  | idle order hs out reg fed =>
    have hq : ∀ b, (s.step p i).queue b = s.queue b ++ s.feeds p i b := by
      intro b
      rw [queue_step, NfBack.ready_idle hs, Three.drop_not_ready]
    obtain ⟨hd, ho, hst⟩ := NfBack.step_idle hs s.nfQ.bus s.bypassQ.bus i.backPktAlmostFull
    have hreg : (s.step p i).back.out.beat = .nil := by
      rw [show (s.step p i).back.out = _ from ho, reg]
    have hout : (s.step p i).out = .of (order.map Prod.fst) := by rw [hstep, reg, Three.append_nil, out]
    have hfed : ∀ b, .of (onPath b order) ++ (s.step p i).queue b = (s.step p i).fed p b := by
      intro b
      rw [hq, fed_step, ← fed b, Three.append_assoc]
    rcases hst with hst | ⟨b, hv, hst⟩
    · exact .idle order hst hout hreg hfed
    · have hne : (s.queue b).pkt ≠ [] := by
        rw [queue_bus] at hv
        simpa [Three.bus] using hv
      refine .busy order b .nil hst (by rw [hout, Three.append_nil]) ?_ ?_ ?_ (hfed _)
      · rw [hreg, show (s.step p i).back.done = _ from hd]
        exact Carrying.begin
      · rw [hreg, hq]
        simp [Three.nil, hne]
      · rw [hreg]
        exact hfed b
  | busy order b sent hs out carrying some fed fed' =>
    have hq : ((s.queue b).bus.carry s.back.done).beat ++ (s.step p i).queue b = s.queue b ++ s.feeds p i b := by
      have hr : s.back.ready (pathState b) = s.back.done.ready true := by simp [NfBack.ready, hs]
      rw [queue_step, hr, ← Three.append_assoc, Three.carry_drop]
    have hq' : (s.step p i).queue (!b) = s.queue (!b) ++ s.feeds p i (!b) := by
      rw [queue_step, NfBack.ready_other hs, Three.drop_not_ready]
    obtain ⟨hst, hd, ho⟩ := NfBack.step_busy hs s.nfQ.bus s.bypassQ.bus i.backPktAlmostFull
    rw [queue_bus] at hd ho
    have ho' : (s.step p i).back.out = (s.queue b).bus.carry s.back.done := ho
    have hout : (s.step p i).out = .of (order.map Prod.fst) ++ (sent ++ s.back.out.beat) := by
      rw [hstep, out, Three.append_assoc]
    have hfed' : .of (onPath (!b) order) ++ (s.step p i).queue (!b) = (s.step p i).fed p (!b) := by
      rw [hq', fed_step, ← fed', Three.append_assoc]
    cases ha : s.back.done.all with
    | false =>
      rw [ha] at hst
      have htot : sent ++ s.back.out.beat ++ (s.step p i).back.out.beat ++ (s.step p i).queue b =
          sent ++ s.back.out.beat ++ s.queue b ++ s.feeds p i b := by
        rw [ho', Three.append_assoc _ (Bus.beat _), hq, Three.append_assoc _ (s.queue b)]
      refine .busy order b (sent ++ s.back.out.beat) hst hout ?_ ?_ ?_ hfed'
      · rw [ho', show (s.step p i).back.done = _ from hd]
        exact carrying.step _
      · rw [htot, Three.append_pkt]
        exact List.append_ne_nil_of_left_ne_nil some _
      · rw [htot, fed_step, ← fed, Three.append_assoc (.of _)]
    | true =>
      rw [ha] at hst
      obtain ⟨t, ht⟩ := carrying.whole ha
      have hnil := Bus.beat_carry_all (s.queue b).bus ha
      rw [hnil, Three.nil_append] at hq
      rw [ht] at hout fed
      refine .idle (order ++ [(t, b)]) hst ?_ (by rw [ho', hnil]) ?_
      · rw [hout, List.map_append, Three.of_append]
        rfl
      · intro c
        rw [onPath_append, Three.of_append]
        by_cases hc : c = b
        · rw [hc, onPath_self, hq, fed_step, ← fed, Three.append_assoc, Three.append_assoc, Three.append_assoc]
        · rw [show c = !b by cases c <;> cases b <;> simp_all, onPath_other, Three.of_nil, Three.append_nil, hfed']

/-! ## At any moment -/

theorem pathState_ne_idle (b : Bool) : pathState b ≠ .idle := by cases b <;> simp [pathState]

theorem onPath_dropLast (b : Bool) (l : List (Triple × Bool)) : onPath b l.dropLast <+: onPath b l :=
  ((List.dropLast_prefix l).filter _).map _

theorem of_mono {xs ys : List Triple} (h : xs <+: ys) : (Three.of xs).Begins (.of ys) := by
  obtain ⟨zs, rfl⟩ := h
  rw [Three.of_append]
  exact Three.begins_append _ _

theorem begins_left {a b c : Three} (h : b.Begins c) : (a ++ b).Begins (a ++ c) := by
  obtain ⟨d, rfl⟩ := Three.begins_iff.1 h
  rw [← Three.append_assoc]
  exact Three.begins_append _ _

theorem FrontInv.entered (h : FrontInv ts s) : ∃ ent later, ts = ent.map Prod.fst ++ later ∧
    ∀ b, (Three.of (onPath b ent.dropLast)).Begins (s.given b) ∧ (s.given b).Begins (.of (onPath b ent)) := by
  cases h with
  | idle ent hs src port given =>
    obtain ⟨later, hts, -⟩ := Three.of_cancel src
    refine ⟨ent, later, hts, ?_⟩
    intro b
    rw [given b]
    exact ⟨of_mono (onPath_dropLast b ent), of_mono List.prefix_rfl⟩
  | busy ent b sent hs src some carrying port given given' =>
    obtain ⟨later, hts, hl⟩ := Three.of_cancel src
    obtain ⟨t, later, rfl⟩ := Three.exists_cons_of_pkt (Three.begins_iff.2 ⟨.nil, by rw [Three.append_nil, hl]⟩) some
    have hcur := carrying.within (Three.begins_iff.2 ⟨_, hl⟩)
    have hsent : sent.Begins (.of [t]) := (Three.begins_append _ _).trans hcur
    refine ⟨ent ++ [(t, b)], later, by simp [hts], ?_⟩
    intro c
    rw [List.dropLast_concat, onPath_append, Three.of_append]
    by_cases hc : c = b
    · rw [hc, given, onPath_self]
      exact ⟨Three.begins_append _ _, begins_left hsent⟩
    · rw [show c = !b by cases c <;> cases b <;> simp_all, given', onPath_other]
      exact ⟨of_mono List.prefix_rfl, Three.begins_append _ _⟩

theorem BackInv.sequence (h : BackInv p s) {xs : Bool → List Triple} (hf : ∀ b, (s.fed p b).Begins (.of (xs b))) :
    ∃ order : List (Triple × Bool), (Three.of (order.dropLast.map Prod.fst)).Begins s.out ∧
      s.out.Begins (.of (order.map Prod.fst)) ∧ ∀ b, onPath b order <+: xs b := by
  cases h with
  | idle order hs out reg fed =>
    refine ⟨order, ?_, ?_, ?_⟩
    · rw [out]
      exact of_mono ((List.dropLast_prefix order).map _)
    · rw [out]
      exact of_mono List.prefix_rfl
    · intro b
      obtain ⟨later, hx, -⟩ := Three.of_begins (fed b ▸ hf b)
      exact ⟨later, hx.symm⟩
  | busy order b sent hs out carrying some fed fed' =>
    obtain ⟨later, hx, hl⟩ := Three.of_begins (fed ▸ hf b)
    obtain ⟨t, later, rfl⟩ := Three.exists_cons_of_pkt hl some
    have hcur := carrying.within ((Three.begins_append _ _).trans hl)
    have hsent : sent.Begins (.of [t]) := (Three.begins_append _ _).trans hcur
    refine ⟨order ++ [(t, b)], ?_, ?_, ?_⟩
    · rw [List.dropLast_concat, out]
      exact Three.begins_append _ _
    · rw [List.map_append, Three.of_append, out]
      exact begins_left hsent
    · intro c
      rw [onPath_append]
      by_cases hc : c = b
      · rw [hc, onPath_self, hx]
        exact ⟨later, by simp⟩
      · obtain ⟨later', hx', -⟩ := Three.of_begins (fed' ▸ hf (!b))
        rw [show c = !b by cases c <;> cases b <;> simp_all, onPath_other, hx', List.append_nil]
        exact List.prefix_append _ _

/-! ## Everything goes out -/

def Arrived (s : NfSys) : Prop := s.src.pkt.coming = [] ∧ s.src.metaData.coming = [] ∧ s.src.usr.coming = []

/-- A cycle without back-pressure. -/
def go : NfTick := ⟨.clear, false, false, false, false⟩

structure Free (i : NfTick) : Prop where
  front : (i.outPktAlmostFull && i.bypassPktAlmostFull) = false
  nf : i.nfAlmostFull = false
  back : i.backPktAlmostFull = false

def FrontDone (s : NfSys) : Prop := s.front.state = .idle ∧ s.src.all = .nil

def BackDone (s : NfSys) : Prop := s.back.state = .idle ∧ ∀ b, s.queue b = .nil

def restWork (n : Nat) (st : NfState) (d : Flags) : Nat := 3 * n + if st = .idle then 1 else if d.all then 2 else 0

def frontWork (s : NfSys) : Nat := restWork s.src.all.size s.front.state s.front.done

def backWork (s : NfSys) : Nat := restWork (s.nfQ.size + s.bypassQ.size) s.back.state s.back.done

theorem restWork_begin (n : Nat) (d : Flags) (b : Bool) : restWork n (pathState b) .clear < restWork n .idle d := by
  have := pathState_ne_idle b
  simp [restWork, this, Flags.all, Flags.clear]

theorem restWork_end (n : Nat) (d' : Flags) {d : Flags} (hd : d.all = true) (b : Bool) :
    restWork n .idle d' < restWork n (pathState b) d := by
  have := pathState_ne_idle b
  simp [restWork, this, hd]

theorem restWork_take {m n : Nat} (h : m < n) (d' : Flags) {d : Flags} (hd : d.all = false) (b : Bool) :
    restWork m (pathState b) d' < restWork n (pathState b) d := by
  have := pathState_ne_idle b
  simp only [restWork, this, hd, if_false, Bool.false_eq_true]
  split <;> omega

theorem size_carry_pos {q : Three} {d : Flags}
    (h : (d.pkt = false ∧ q.pkt ≠ []) ∨ (d.metaData = false ∧ q.metaData ≠ []) ∨ (d.rule = false ∧ q.usr ≠ [])) :
    0 < (q.bus.carry d).beat.size := by
  rcases h with ⟨h1, h2⟩ | ⟨h1, h2⟩ | ⟨h1, h2⟩
  · have : ((q.bus.carry d).beat.pkt).length = 1 := by simp [Bus.beat, Bus.carry, Three.bus, h1, h2]
    simp only [Three.size, this]
    omega
  · have : ((q.bus.carry d).beat.metaData).length = 1 := by simp [Bus.beat, Bus.carry, Three.bus, h1, h2]
    simp only [Three.size, this]
    omega
  · have : ((q.bus.carry d).beat.usr).length = 1 := by simp [Bus.beat, Bus.carry, Three.bus, h1, h2]
    simp only [Three.size, this]
    omega

theorem of_eq_nil {ts : List Triple} (h : (Three.of ts).pkt = []) : ts = [] := by
  cases ts with
  | nil => rfl
  | cons t ts => simp [Three.of, t.pkt.flits_ne_nil] at h

theorem Arrived.all (h : Arrived s) : s.src.all = s.src.waiting := by
  obtain ⟨h1, h2, h3⟩ := h
  simp [NfSource.all, NfSource.waiting, Source.all, h1, h2, h3]

theorem Arrived.step (h : Arrived s) (i : NfTick) : Arrived (s.step p i) := by
  obtain ⟨h1, h2, h3⟩ := h
  simp [Arrived, NfSys.step, NfSource.step, Source.step, h1, h2, h3]

theorem FrontInv.work_falls (h : FrontInv ts s) (ha : Arrived s) {i : NfTick} (hi : Free i) :
    (s.step p i).frontWork < s.frontWork ∨ FrontDone s := by
  cases h with
  | idle ent hs src port given =>
    obtain ⟨later, hts, hl⟩ := Three.of_cancel src
    by_cases hp : s.src.all.pkt = []
    · right
      rw [hl] at hp
      rw [of_eq_nil hp] at hl
      exact ⟨hs, hl⟩
    · left
      have hr : s.front.ready = s.front.done.ready false := by simp [NfFront.ready, hs]
      have hall : (s.step p i).src.all = s.src.all := by
        show (s.src.step _ s.front.ready).all = _
        rw [hr, NfSource.all_step_not_ready]
      have hv : s.src.waiting.bus.pktValid = true := by
        rw [ha.all] at hp
        simpa [Three.bus] using hp
      obtain ⟨b, hst⟩ : ∃ b, (s.step p i).front.state = pathState b := by
        have hf := hi.front
        cases ho : i.outPktAlmostFull with
        | false => exact ⟨false, by simp [NfSys.step, NfFront.step, hs, hv, ho, pathState]⟩
        | true =>
          rw [ho, Bool.true_and] at hf
          exact ⟨true, by simp [NfSys.step, NfFront.step, hs, hv, ho, hf, pathState]⟩
      have hd : (s.step p i).front.done = .clear := (NfFront.step_idle hs _ _ _).1
      unfold frontWork
      rw [hall, hst, hd, hs]
      exact restWork_begin _ _ _
  | busy ent b sent hs src some carrying port given given' =>
    left
    obtain ⟨later, hts, hl⟩ := Three.of_cancel src
    obtain ⟨t, later, rfl⟩ := Three.exists_cons_of_pkt (Three.begins_iff.2 ⟨.nil, by rw [Three.append_nil, hl]⟩) some
    have hall : (s.src.waiting.bus.carry s.front.done).beat ++ (s.step p i).src.all = s.src.all := by
      show _ ++ (s.src.step _ s.front.ready).all = _
      rw [NfFront.ready_busy hs, NfSource.all_step]
    have hst : (s.step p i).front.state = if s.front.done.all then .idle else pathState b := (NfFront.step_busy hs _ _ _).1
    unfold frontWork
    rw [hs]
    cases hd : s.front.done.all with
    | true =>
      rw [Bus.beat_carry_all _ hd, Three.nil_append] at hall
      rw [hst, hd, hall]
      exact restWork_end _ _ hd b
    | false =>
      have hpos := size_carry_pos (ha.all ▸ carrying.wants hd hl)
      have hsize := congrArg Three.size hall
      rw [Three.size_append] at hsize
      rw [hst, hd]
      exact restWork_take (by omega) _ hd b

theorem FrontDone.step (h : FrontDone s) (i : NfTick) : FrontDone (s.step p i) := by
  obtain ⟨hs, hall⟩ := h
  have hr : s.front.ready = s.front.done.ready false := by simp [NfFront.ready, hs]
  have hp : s.src.pkt.waiting = [] := by
    have := congrArg Three.pkt hall
    simp only [NfSource.all, Source.all, Three.nil, List.append_eq_nil_iff] at this
    exact this.1
  refine ⟨?_, ?_⟩
  · simp [NfSys.step, NfFront.step, hs, Three.bus, NfSource.waiting, hp]
  · show (s.src.step _ s.front.ready).all = _
    rw [hr, NfSource.all_step_not_ready, hall]

theorem FrontInv.port_of_done (h : FrontInv ts s) (hd : FrontDone s) (b : Bool) : (s.front.port b).beat = .nil := by
  cases h with
  | idle ent hs src port given => exact port b
  | busy ent c sent hs src some carrying port given given' => exact absurd (hs.symm.trans hd.1) (pathState_ne_idle c)

theorem FrontInv.entered_of_done (h : FrontInv ts s) (hd : FrontDone s) :
    ∃ ent, ts = ent.map Prod.fst ∧ ∀ b, s.given b = .of (onPath b ent) := by
  cases h with
  | idle ent hs src port given =>
    obtain ⟨later, hts, hl⟩ := Three.of_cancel src
    have hn : later = [] := of_eq_nil (by rw [← hl, hd.2]; rfl)
    exact ⟨ent, by rw [hts, hn, List.append_nil], given⟩
  | busy ent c sent hs src some carrying port given given' => exact absurd (hs.symm.trans hd.1) (pathState_ne_idle c)

structure Settled (p : NfPath) (ts : List Triple) (ent : List (Triple × Bool)) (ps : List Triple) (s : NfSys) : Prop where
  front : FrontInv ts s
  back : BackInv p s
  done : FrontDone s
  given : ∀ b, s.given b = .of (onPath b ent)
  out : ∀ e : List NfIn, (∀ i ∈ e, i.Rest) → emitted p.out (s.nfIns ++ e) = .of ps

namespace Settled

variable {ent : List (Triple × Bool)} {ps : List Triple}

variable {i : NfTick} (hi : Free i)

include hi in
theorem step (h : Settled p ts ent ps s) : Settled p ts ent ps (s.step p i) := by
  refine ⟨h.front.step i, h.back.step i, h.done.step i, ?_, ?_⟩
  · intro b
    rw [given_step, h.front.port_of_done h.done b, Three.append_nil, h.given b]
  · intro e he
    have := h.out (⟨s.front.out, i.nfAlmostFull⟩ :: e) (by
      intro j hj
      rcases List.mem_cons.1 hj with rfl | hj
      · exact ⟨h.front.port_of_done h.done false, hi.nf⟩
      · exact he j hj)
    simpa [NfSys.step, nfIns'] using this

theorem fed (h : Settled p ts ent ps s) (b : Bool) : s.fed p b = .of (if b then onPath true ent else ps) := by
  cases b with
  | true => exact h.given true
  | false =>
    have := h.out [] (by simp)
    rwa [List.append_nil] at this

include hi in
theorem feeds (h : Settled p ts ent ps s) (b : Bool) : s.feeds p i b = .nil := by
  have hs := (h.step hi).fed b
  rw [fed_step, ← h.fed b] at hs
  exact Three.append_cancel (hs.trans (Three.append_nil _).symm)

theorem size_queues (s : NfSys) (b : Bool) : s.nfQ.size + s.bypassQ.size = (s.queue b).size + (s.queue (!b)).size := by
  cases b
  · rfl
  · exact Nat.add_comm _ _

include hi in
theorem work_falls (h : Settled p ts ent ps s) : (s.step p i).backWork < s.backWork ∨ BackDone s := by
  have hb := h.back
  cases hb with
  | idle order hs out reg fed =>
    have hq : ∀ b, (s.step p i).queue b = s.queue b := by
      intro b
      rw [queue_step, NfBack.ready_idle hs, Three.drop_not_ready, h.feeds hi b, Three.append_nil]
    by_cases hn : ∀ b, (s.queue b).pkt = []
    · right
      refine ⟨hs, ?_⟩
      intro b
      have hf := fed b
      rw [h.fed b] at hf
      obtain ⟨later, -, hl⟩ := Three.of_cancel hf
      have := hn b
      rw [hl] at this
      rw [hl, of_eq_nil this]
      rfl
    · left
      have hst : ∃ b, (s.step p i).back.state = pathState b := by
        have hne : (s.step p i).back.state ≠ .idle := by
          intro hidle
          apply hn
          simp only [NfSys.step, NfBack.step, hs, hi.back, NfBack.select, Three.bus] at hidle
          intro b
          cases hx : s.nfQ.pkt <;> cases hy : s.bypassQ.pkt <;> cases b <;> cases hz : s.back.prio <;> simp_all [queue]
        rcases (NfBack.step_idle hs s.nfQ.bus s.bypassQ.bus i.backPktAlmostFull).2.2 with hidle | ⟨b, -, hb⟩
        · exact absurd hidle hne
        · exact ⟨b, hb⟩
      obtain ⟨b, hst⟩ := hst
      have hd : (s.step p i).back.done = .clear := (NfBack.step_idle hs _ _ _).1
      unfold backWork
      rw [size_queues _ b, size_queues s b, hq, hq, hst, hd, hs]
      exact restWork_begin _ _ _
  | busy order b sent hs out carrying some fed fed' =>
    left
    rw [h.fed b] at fed
    obtain ⟨later, hx, hl⟩ := Three.of_cancel fed
    obtain ⟨t, later, rfl⟩ := Three.exists_cons_of_pkt (Three.begins_iff.2 ⟨.nil, by rw [Three.append_nil, hl]⟩) some
    have hq : ((s.queue b).bus.carry s.back.done).beat ++ (s.step p i).queue b = s.queue b := by
      have hr : s.back.ready (pathState b) = s.back.done.ready true := by simp [NfBack.ready, hs]
      rw [queue_step, hr, h.feeds hi b, Three.append_nil, Three.carry_drop]
    have hq' : (s.step p i).queue (!b) = s.queue (!b) := by
      rw [queue_step, NfBack.ready_other hs, Three.drop_not_ready, h.feeds hi, Three.append_nil]
    have hst : (s.step p i).back.state = if s.back.done.all then .idle else pathState b := (NfBack.step_busy hs _ _ _).1
    unfold backWork
    rw [size_queues _ b, size_queues s b, hq', hs, hst]
    cases hd : s.back.done.all with
    | true =>
      rw [Bus.beat_carry_all _ hd, Three.nil_append] at hq
      rw [hq]
      exact restWork_end _ _ hd b
    | false =>
      have hpos := size_carry_pos (carrying.wants hd hl)
      have hsize := congrArg Three.size hq
      rw [Three.size_append] at hsize
      exact restWork_take (by omega) _ hd b

include hi in
theorem backDone_step (h : Settled p ts ent ps s) (hd : BackDone s) : BackDone (s.step p i) := by
  obtain ⟨hs, hq⟩ := hd
  refine ⟨?_, ?_⟩
  · have h1 : s.nfQ = .nil := hq false
    have h2 : s.bypassQ = .nil := hq true
    simp [NfSys.step, NfBack.step, hs, NfBack.select, h1, h2, Three.bus, Three.nil]
  · intro b
    rw [queue_step, NfBack.ready_idle hs, Three.drop_not_ready, h.feeds hi b, hq b]
    rfl

theorem complete (h : Settled p ts ent ps s) (hd : BackDone s) : ∃ order : List (Triple × Bool),
    s.out = .of (order.map Prod.fst) ∧ onPath true order = onPath true ent ∧ onPath false order = ps := by
  have hb := h.back
  cases hb with
  | idle order hs out reg fed =>
    have heq : ∀ b, onPath b order = if b then onPath true ent else ps := by
      intro b
      have hf := fed b
      rw [h.fed b] at hf
      obtain ⟨later, hx, hl⟩ := Three.of_cancel hf
      have hn : later = [] := of_eq_nil (by rw [← hl, hd.2 b]; rfl)
      rw [hx, hn, List.append_nil]
    exact ⟨order, out, heq true, heq false⟩
  | busy order b sent hs out carrying some fed fed' => exact absurd (hs.symm.trans hd.1) (pathState_ne_idle b)

end Settled

/-- All triples have entered one path each as a whole, and those of the bypass and those that are passed on are out. -/
def Complete (ts : List Triple) (s : NfSys) : Prop := ∃ (ent order : List (Triple × Bool)) (ps : List Triple),
  ts = ent.map Prod.fst ∧ (∀ b, s.given b = .of (onPath b ent)) ∧ Passes (onPath false ent) ps ∧
    s.out = .of (order.map Prod.fst) ∧ onPath true order = onPath true ent ∧ onPath false order = ps

/-! A system `σ` that takes, without back-pressure, a free step of this one. -/

section
variable {σ : Type} {f : σ → NfTick → σ} {g : σ → NfSys} (hfree : ∀ x, ∃ i, Free i ∧ g (f x go) = (g x).step p i)

theorem goes (m : Nat) : ∀ x : σ, AllSteps f (fun _ i => i = go) x (List.replicate m go) := by
  induction m with
  | zero => exact fun _ => trivial
  | succ m ih => exact fun x => ⟨rfl, ih _⟩

include hfree in
theorem keeps {I : NfSys → Prop} (hI : ∀ s i, Free i → I s → I (s.step p i)) (x : σ) (i : NfTick) (h : I (g x))
    (hi : i = go) : I (g (f x i)) := by
  obtain ⟨j, hj, he⟩ := hfree x
  rw [hi, he]
  exact hI _ j hj h

include hfree in
theorem FrontInv.rests {x : σ} (h : FrontInv ts (g x)) (hd : FrontDone (g x)) (n : Nat) :
    ∃ e : List NfIn, (g (run f x (List.replicate n go))).nfIns = (g x).nfIns ++ e ∧ (∀ i ∈ e, i.Rest) ∧ e.length = n := by
  induction n generalizing x with
  | zero => exact ⟨[], by simp, by simp, rfl⟩
  | succ n ih =>
    obtain ⟨i, hi, hx⟩ := hfree x
    obtain ⟨e, he, hr, hl⟩ := ih (x := f x go) (hx ▸ h.step i) (hx ▸ hd.step i)
    have hrest : NfIn.Rest ⟨(g x).front.out, i.nfAlmostFull⟩ := ⟨h.port_of_done hd false, hi.nf⟩
    refine ⟨⟨(g x).front.out, i.nfAlmostFull⟩ :: e, ?_, ?_, by simp [hl]⟩
    · rw [List.replicate_succ, run_cons, he, hx]
      simp [NfSys.step, nfIns']
    · intro j hj
      rcases List.mem_cons.1 hj with rfl | hj
      · exact hrest
      · exact hr j hj

include hfree in
theorem FrontInv.completes {x : σ} (hf : FrontInv ts (g x)) (hb : BackInv p (g x)) (ha : Arrived (g x)) :
    ∃ N, ∀ n, N ≤ n → (g (run f x (List.replicate n go))).Complete ts := by
  -- all enters
  obtain ⟨x₁, hx₁⟩ : ∃ x₁, x₁ = run f x (List.replicate (g x).frontWork go) := ⟨_, rfl⟩
  have hinv : (FrontInv ts (g x₁) ∧ BackInv p (g x₁)) ∧ Arrived (g x₁) := by
    rw [hx₁]
    exact run_inv f (keeps hfree fun s i _ (h : (FrontInv ts s ∧ BackInv p s) ∧ Arrived s) =>
      ⟨⟨h.1.1.step i, h.1.2.step i⟩, h.2.step i⟩) _ _ ⟨⟨hf, hb⟩, ha⟩ (goes _ _)
  have hd₁ : FrontDone (g x₁) := by
    rw [hx₁]
    refine run_reaches f (fun x => FrontDone (g x)) (fun x => (g x).frontWork)
      (keeps hfree fun s i _ (h : FrontInv ts s ∧ Arrived s) => ⟨h.1.step i, h.2.step i⟩) (fun x h => ?_) (fun x _ hd => ?_) _ ⟨hf, ha⟩
      (.inl (Nat.le_refl _)) (goes _ _)
    · obtain ⟨i, hi, he⟩ := hfree x
      rw [he]
      exact h.1.work_falls h.2 hi
    · exact keeps hfree (fun s i _ h => h.step i) x go hd rfl
  obtain ⟨ent, hts, hgiven⟩ := hinv.1.1.entered_of_done hd₁
  -- the matcher's path puts out what it passes on
  obtain ⟨k, ps, hps, hfin⟩ := p.finishes _ _ (hgiven false)
  obtain ⟨x₂, hx₂⟩ : ∃ x₂, x₂ = run f x₁ (List.replicate k go) := ⟨_, rfl⟩
  obtain ⟨e, he, hrest, hlen⟩ := hinv.1.1.rests hfree hd₁ k
  have hset : Settled p ts ent ps (g x₂) := by
    have hbase : (FrontInv ts (g x₂) ∧ BackInv p (g x₂)) ∧ FrontDone (g x₂) ∧ ∀ b, (g x₂).given b = .of (onPath b ent) := by
      rw [hx₂]
      refine run_inv f (keeps hfree fun s i _ (h : (FrontInv ts s ∧ BackInv p s) ∧ FrontDone s ∧ ∀ b, s.given b = .of (onPath b ent)) =>
        ⟨⟨h.1.1.step i, h.1.2.step i⟩, h.2.1.step i, ?_⟩) _ _ ⟨hinv.1, hd₁, hgiven⟩ (goes _ _)
      intro b
      rw [given_step, h.1.1.port_of_done h.2.1 b, Three.append_nil, h.2.2 b]
    refine ⟨hbase.1.1, hbase.1.2, hbase.2.1, hbase.2.2, ?_⟩
    intro e' he'
    rw [hx₂, he, List.append_assoc]
    apply hfin
    · intro i hi
      rcases List.mem_append.1 hi with hi | hi
      · exact hrest i hi
      · exact he' i hi
    · simp [hlen]
  -- the back takes what is left
  refine ⟨(g x).frontWork + k + (g x₂).backWork, ?_⟩
  intro n hn
  obtain ⟨m, rfl⟩ : ∃ m, n = (g x).frontWork + k + m := ⟨n - ((g x).frontWork + k), by omega⟩
  have hm : (g x₂).backWork ≤ m := by omega
  rw [List.replicate_add, List.replicate_add, run_append, run_append, ← hx₁, ← hx₂]
  obtain ⟨hset', hdone⟩ := run_reaches f (fun x => Settled p ts ent ps (g x) ∧ BackDone (g x)) (fun x => (g x).backWork)
    (keeps hfree fun s i hi (h : Settled p ts ent ps s) => h.step hi)
    (fun x h => by
      obtain ⟨i, hi, he⟩ := hfree x
      rw [he]
      exact (h.work_falls hi).imp_right fun hd => ⟨h, hd⟩)
    (fun x _ h => keeps hfree (I := fun s => Settled p ts ent ps s ∧ BackDone s)
      (fun s i hi h => ⟨h.1.step hi, h.1.backDone_step hi h.2⟩) x go h rfl) m hset (.inl hm) (goes _ _)
  obtain ⟨order, ho, h1, h2⟩ := hset'.complete hdone
  exact ⟨ent, order, ps, hts, hset'.given, hps, ho, h1, h2⟩

end

theorem sequence_of_inv (hf : FrontInv ts s) (hb : BackInv p s) :
    ∃ (ent order : List (Triple × Bool)) (later ps : List Triple), ts = ent.map Prod.fst ++ later ∧
      (∀ b, (Three.of (onPath b ent.dropLast)).Begins (s.given b) ∧ (s.given b).Begins (.of (onPath b ent))) ∧
      Passes (onPath false ent) ps ∧
      (Three.of (order.dropLast.map Prod.fst)).Begins s.out ∧ s.out.Begins (.of (order.map Prod.fst)) ∧
      onPath true order <+: onPath true ent ∧ onPath false order <+: ps := by
  obtain ⟨ent, later, hts, hent⟩ := hf.entered
  obtain ⟨ps, hps, hout⟩ := p.passes _ _ (hent false).2
  have hfed : ∀ b, (s.fed p b).Begins (.of (if b then onPath true ent else ps)) := by
    intro b
    cases b with
    | true => exact (hent true).2
    | false => exact hout
  obtain ⟨order, h1, h2, h3⟩ := hb.sequence hfed
  exact ⟨ent, order, later, ps, hts, hent, hps, h1, h2, h3 true, h3 false⟩

end NfSys

/-- Whatever the arrival times, the fill levels and the component on the matcher's path: the triples of a beginning of the
input have each entered one path, all but the last as a whole; what is out is a sequence of triples, all but the last
whole, of which those of the bypass are those that entered it, unchanged and in order, and the others are what the
matcher passes on. Once all has arrived, cycles without back-pressure bring everything out. -/
theorem bypass_keepsTriples (p : NfPath) (ts : List Triple) (is : List NfTick) :
    let s := run (NfSys.step p) (.reset ts) is
    (∃ (ent order : List (Triple × Bool)) (later ps : List Triple), ts = ent.map Prod.fst ++ later ∧
      (∀ b, (Three.of (onPath b ent.dropLast)).Begins (s.given b) ∧ (s.given b).Begins (.of (onPath b ent))) ∧
      Passes (onPath false ent) ps ∧
      (Three.of (order.dropLast.map Prod.fst)).Begins s.out ∧ s.out.Begins (.of (order.map Prod.fst)) ∧
      onPath true order <+: onPath true ent ∧ onPath false order <+: ps) ∧
    (s.Arrived → ∃ N, ∀ n, N ≤ n → (run (NfSys.step p) s (List.replicate n NfSys.go)).Complete ts) := by
  intro s
  have hinv : NfSys.FrontInv ts s ∧ NfSys.BackInv p s :=
    run_inv (NfSys.step p) (fun s i (h : NfSys.FrontInv ts s ∧ NfSys.BackInv p s) (_ : True) => ⟨h.1.step i, h.2.step i⟩) is _
      ⟨.reset ts, .reset ts⟩ (allSteps_of_forall _ (fun _ _ => trivial) _ _)
  have hgo : ∀ s : NfSys, ∃ i, NfSys.Free i ∧ s.step p NfSys.go = s.step p i := fun s => ⟨NfSys.go, ⟨rfl, rfl, rfl⟩, rfl⟩
  exact ⟨NfSys.sequence_of_inv hinv.1 hinv.2, NfSys.FrontInv.completes (f := NfSys.step p) (g := id) hgo hinv.1 hinv.2⟩

end Pigasus
