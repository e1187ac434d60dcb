import Pigasus.StreamMux

/-!
# What goes in comes out
-/

namespace Pigasus

open Hdl Frames

/-! ## The bits of the flits -/

section
variable (r x : BitVec 512)

theorem low400_firstFlit : low400 (UsrGen.firstFlit x) = high400 x := by
  apply BitVec.eq_of_getLsbD_eq
  intro i hi
  simp only [low400, UsrGen.firstFlit, BitVec.getLsbD_extractLsb', BitVec.getLsbD_append, hi, decide_true, Bool.true_and, Nat.zero_add]
  simp [hi]

theorem low400_normalFlit : low400 (UsrGen.normalFlit r x) = high400 x := by
  apply BitVec.eq_of_getLsbD_eq
  intro i hi
  simp only [low400, UsrGen.normalFlit, BitVec.getLsbD_extractLsb', BitVec.getLsbD_append, hi, decide_true, Bool.true_and, Nat.zero_add]
  simp [hi]

theorem high112_normalFlit : high112 (UsrGen.normalFlit r x) = low112 r := by
  apply BitVec.eq_of_getLsbD_eq
  intro i hi
  simp only [high112, UsrGen.normalFlit, BitVec.getLsbD_extractLsb', BitVec.getLsbD_append, hi, decide_true, Bool.true_and]
  simp

theorem high112_lastFlit : high112 (UsrGen.lastFlit r) = low112 r := by
  apply BitVec.eq_of_getLsbD_eq
  intro i hi
  simp only [high112, UsrGen.lastFlit, BitVec.getLsbD_extractLsb', BitVec.getLsbD_append, hi, decide_true, Bool.true_and]
  simp

theorem high400_low112 : (high400 x ++ low112 x : BitVec 512) = x := by
  apply BitVec.eq_of_getLsbD_eq
  intro i hi
  simp only [high400, low112, BitVec.getLsbD_append, BitVec.getLsbD_extractLsb']
  by_cases h : i < 112
  · simp [h]
  · have h1 : i - 112 < 400 := by omega
    have h2 : 112 + (i - 112) = i := by omega
    simp [h, h1, h2]

theorem ethType_firstFlit : ethType (UsrGen.firstFlit x) = ethUsr := by
  apply BitVec.eq_of_getLsbD_eq
  intro i hi
  simp only [ethType, UsrGen.firstFlit, BitVec.getLsbD_extractLsb', BitVec.getLsbD_append, hi, decide_true, Bool.true_and]
  simp [hi]

theorem ethType_metaFlit (m : BitVec 252) : ethType (metaFlit m).data = ethMeta := by
  apply BitVec.eq_of_getLsbD_eq
  intro i hi
  simp only [ethType, metaFlit, BitVec.getLsbD_extractLsb', BitVec.getLsbD_append, hi, decide_true, Bool.true_and]
  have h1 : ¬ 400 + i < 148 := by omega
  have h2 : ¬ 400 + i - 148 < 252 := by omega
  have h3 : 400 + i - 148 - 252 = i := by omega
  simp [h1, h2, h3, hi]

theorem data_metaFlit (m : BitVec 252) : (metaFlit m).data.extractLsb' 148 252 = m := by
  apply BitVec.eq_of_getLsbD_eq
  intro i hi
  simp only [metaFlit, BitVec.getLsbD_extractLsb', BitVec.getLsbD_append, hi, decide_true, Bool.true_and]
  have h1 : ¬ 148 + i < 148 := by omega
  have h3 : 148 + i - 148 = i := by omega
  simp [h1, h3, hi]

end

/-! ## The user packets on the link -/

def encTail (r : BitVec 512) : List Flit512 → List Flit512
  | [] => [⟨UsrGen.lastFlit r, false, true, 0⟩]
  | b :: bs => ⟨UsrGen.normalFlit r b.data, false, false, 0⟩ :: encTail b.data bs

def enc : List Flit512 → List Flit512
  | [] => []
  | b :: bs => ⟨UsrGen.firstFlit b.data, true, false, 0⟩ :: encTail b.data bs

theorem encTail_congr {r r' : BitVec 512} (h : low112 r = low112 r') (bs : List Flit512) : encTail r bs = encTail r' bs := by
  cases bs with
  | nil => simp [encTail, UsrGen.lastFlit, h]
  | cons b bs => simp [encTail, UsrGen.normalFlit, h]

theorem encTail_ne_nil (r : BitVec 512) (bs : List Flit512) : encTail r bs ≠ [] := by cases bs <;> simp [encTail]

theorem encTail_cut {bs : List Flit512} : ∀ {r : BitVec 512} {a l : List Flit512} {x : Flit512}, encTail r bs = a ++ x :: l →
    x.sop = false ∧ (x.eop = true ↔ l = []) := by
  induction bs with
  | nil =>
    intro r a l x h
    cases a with
    | nil =>
      obtain ⟨rfl, rfl⟩ := List.cons.inj h
      simp
    | cons y a => simp [encTail] at h
  | cons b bs ih =>
    intro r a l x h
    cases a with
    | nil =>
      obtain ⟨rfl, rfl⟩ := List.cons.inj h
      simp [encTail_ne_nil]
    | cons y a => exact ih (List.cons.inj h).2

/-- What `stream_demux` makes of a flit of a user packet; `p` is the flit before. -/
def decodeOne (p : Option Flit512) (y : Flit512) : List Flit512 :=
  match p with
  | some x => if y.sop then [] else [⟨low400 x.data ++ high112 y.data, x.sop, y.eop, 0⟩]
  | none => []

def decodeFrom (p : Option Flit512) : List Flit512 → List Flit512
  | [] => []
  | y :: l => decodeOne p y ++ decodeFrom (some y) l

theorem decodeFrom_cons (p : Option Flit512) (y : Flit512) (l : List Flit512) :
    decodeFrom p (y :: l) = decodeOne p y ++ decodeFrom (some y) l := rfl

theorem decodeFrom_append (l m : List Flit512) : ∀ p, decodeFrom p (l ++ m) = decodeFrom p l ++ decodeFrom (l.getLast?.or p) m := by
  induction l with
  | nil =>
    intro p
    simp [decodeFrom]
  | cons y l ih =>
    intro p
    rw [List.cons_append, decodeFrom_cons, ih, decodeFrom_cons, List.append_assoc]
    congr 2
    cases l with
    | nil => simp
    | cons z l => simp [List.getLast?_cons]

theorem decodeFrom_encTail {bs : List Flit512} : ∀ {b x : Flit512} {l : List Flit512}, low400 x.data = high400 b.data →
    x.sop = b.sop → (∀ f ∈ bs, f.sop = false) → (∀ f ∈ b :: bs, f.empty = 0) →
    (∀ a y r, b :: bs = a ++ y :: r → (y.eop = true ↔ r = [])) →
    ∃ z, decodeFrom (some x) (encTail b.data bs ++ l) = b :: bs ++ decodeFrom (some z) l := by
  induction bs with
  | nil =>
    intro b x l hx hsop _ hempty heop
    have he : b.eop = true := (heop [] b [] rfl).2 rfl
    have hm := hempty b (by simp)
    refine ⟨⟨UsrGen.lastFlit b.data, false, true, 0⟩, ?_⟩
    simp only [encTail, List.singleton_append, decodeFrom_cons, decodeOne, Bool.false_eq_true, if_false, hx, hsop, high112_lastFlit, high400_low112]
    obtain ⟨bd, bsop, beop, bempty⟩ := b
    simp_all
  | cons c bs ih =>
    intro b x l hx hsop hs hempty heop
    have he : b.eop = false := by
      have := heop [] b (c :: bs) rfl
      simpa using this
    have hm := hempty b (by simp)
    obtain ⟨z, hz⟩ := ih (b := c) (x := ⟨UsrGen.normalFlit b.data c.data, false, false, 0⟩) (l := l) (low400_normalFlit _ _)
      (hs c (by simp)).symm (fun f hf => hs f (by simp [hf])) (fun f hf => hempty f (by simp_all))
      (fun a y r h => heop (b :: a) y r (by rw [h]; rfl))
    refine ⟨z, ?_⟩
    simp only [encTail, List.cons_append, decodeFrom_cons, decodeOne, Bool.false_eq_true, if_false, hx, hsop, high112_normalFlit, high400_low112, hz]
    obtain ⟨bd, bsop, beop, bempty⟩ := b
    simp_all

theorem decodeFrom_enc (p : UsrPkt) (q : Option Flit512) (l : List Flit512) :
    ∃ z, decodeFrom q (enc p.flits ++ l) = p.flits ++ decodeFrom (some z) l := by
  obtain ⟨b, bs, hb⟩ := List.exists_cons_of_ne_nil p.toMarked.flits_ne_nil
  have hf : p.flits = b :: bs := hb
  have hsop : b.sop = true := (p.sop [] b bs hb).2 rfl
  have hs : ∀ f ∈ bs, f.sop = false := by
    intro f hm
    obtain ⟨a, r, rfl⟩ := List.append_of_mem hm
    have := p.sop (b :: a) f r hb
    simpa using this
  have hempty : ∀ f ∈ b :: bs, f.empty = 0 := by
    intro f hm
    exact p.full f (by rw [show p.body ++ [p.last] = b :: bs from hb]; exact hm)
  obtain ⟨z, hz⟩ := decodeFrom_encTail (x := ⟨UsrGen.firstFlit b.data, true, false, 0⟩) (l := l) (low400_firstFlit b.data)
    hsop.symm hs hempty (fun a y r h => Marked.mark_iff (hb.trans h))
  refine ⟨z, ?_⟩
  rw [hf, enc, List.cons_append, decodeFrom_cons, hz]
  cases q <;> simp [decodeOne]

def encAll (ps : List UsrPkt) : List Flit512 := ps.flatMap fun p => enc p.flits

theorem decode_encAll (ps : List UsrPkt) : ∀ q, decodeFrom q (encAll ps) = ps.flatMap fun p => p.flits := by
  induction ps with
  | nil =>
    intro q
    rfl
  | cons p ps ih =>
    intro q
    have hc : encAll (p :: ps) = enc p.flits ++ encAll ps := rfl
    obtain ⟨z, hz⟩ := decodeFrom_enc p q (encAll ps)
    rw [hc, hz, ih, List.flatMap_cons]

/-! ## Streams of frames -/

def IsFrame (typ : BitVec 16) (l : List Flit512) : Prop := ∀ a x r, l = a ++ x :: r →
  (x.sop = true ↔ a = []) ∧ (x.eop = true ↔ r = []) ∧ (a = [] → ethType x.data = typ)

def atEnd (a : List Flit512) : Prop := ∀ f ∈ a.getLast?, f.eop = true

def InFrames (typ : BitVec 16) (l : List Flit512) : Prop := atEnd l ∧ ∀ a x r, l = a ++ x :: r →
  (x.sop = true ↔ atEnd a) ∧ (x.sop = true → ethType x.data = typ)

theorem atEnd_snoc (a : List Flit512) (f : Flit512) : atEnd (a ++ [f]) ↔ f.eop = true := by simp [atEnd]

theorem InFrames.nil (typ : BitVec 16) : InFrames typ [] := by
  refine ⟨by simp [atEnd], ?_⟩
  intro a x r h
  simp at h

theorem IsFrame.atEnd {typ : BitVec 16} {l : List Flit512} (h : IsFrame typ l) : atEnd l := by
  intro f hf
  obtain ⟨a, rfl⟩ := List.getLast?_eq_some_iff.1 hf
  exact ((h a f [] rfl).2.1).2 rfl

theorem atEnd_append {a b : List Flit512} (ha : atEnd a) : atEnd (a ++ b) ↔ atEnd b := by
  unfold Pigasus.atEnd at ha ⊢
  rw [List.getLast?_append]
  cases hb : b.getLast? with
  | none => simpa using ha
  | some f => simp

theorem InFrames.append {typ : BitVec 16} {l m : List Flit512} (hl : IsFrame typ l) (hm : InFrames typ m) : InFrames typ (l ++ m) := by
  refine ⟨(atEnd_append hl.atEnd).2 hm.1, ?_⟩
  intro a x r h
  rcases List.append_eq_append_iff.1 h with ⟨b, rfl, hb⟩ | ⟨b, hb, hx⟩
  · obtain ⟨h1, h2⟩ := hm.2 b x r hb
    exact ⟨h1.trans (atEnd_append hl.atEnd).symm, h2⟩
  · cases b with
    | nil =>
      rw [List.append_nil] at hb
      obtain ⟨h1, h2⟩ := hm.2 [] x r (by simpa using hx.symm)
      rw [← hb]
      exact ⟨h1.trans ⟨fun _ => hl.atEnd, fun _ => by simp [Pigasus.atEnd]⟩, h2⟩
    | cons y b =>
      obtain ⟨rfl, -⟩ := List.cons.inj hx
      obtain ⟨h1, -, h3⟩ := hl a x b hb
      refine ⟨h1.trans ⟨?_, ?_⟩, fun hs => h3 (h1.1 hs)⟩
      · rintro rfl
        simp [Pigasus.atEnd]
      · -- inside the frame no flit before ends it
        intro he
        rcases List.eq_nil_or_concat a with hn | ⟨a', y, rfl⟩
        · exact hn
        · have hy := (atEnd_snoc a' y).1 (by simpa using he)
          have := (hl a' y (x :: b) (by simpa using hb)).2.1
          simp [hy] at this

theorem InFrames.flatMap {α : Type} {typ : BitVec 16} {f : α → List Flit512} {l : List α} (h : ∀ x ∈ l, IsFrame typ (f x)) :
    InFrames typ (l.flatMap f) := by
  induction l with
  | nil => exact .nil typ
  | cons x l ih => exact .append (h x (by simp)) (ih fun y hy => h y (by simp [hy]))

theorem StreamPkt.isFrame (p : StreamPkt) {typ : BitVec 16} (h : ∀ f ∈ p.flits.head?, ethType f.data = typ) : IsFrame typ p.flits := by
  intro a x r hc
  refine ⟨p.sop a x r hc, Marked.mark_iff hc, ?_⟩
  rintro rfl
  exact h x (by rw [hc]; rfl)

theorem enc_isFrame (b : Flit512) (bs : List Flit512) : IsFrame ethUsr (enc (b :: bs)) := by
  intro a x r h
  cases a with
  | nil =>
    obtain ⟨rfl, rfl⟩ := List.cons.inj h
    simp [encTail_ne_nil, ethType_firstFlit]
  | cons y a =>
    obtain ⟨h1, h2⟩ := encTail_cut (List.cons.inj h).2
    simp [h1, h2]

theorem metaFlit_isFrame (m : BitVec 252) : IsFrame ethMeta [metaFlit m] := by
  intro a x r h
  cases a with
  | nil =>
    obtain ⟨rfl, rfl⟩ := List.cons.inj h
    exact ⟨by simp [metaFlit], by simp [metaFlit], fun _ => ethType_metaFlit m⟩
  | cons y a => simp at h

/-! ## One frame at a time -/

def typ : Chan → BitVec 16
  | .pkt => ethIp
  | .metaData => ethMeta
  | .usr => ethUsr

/-- The flit can follow on the link when the frame of `st` is not finished. -/
def Fits (st : Option Chan) (x : Chan × Flit512) : Prop :=
  match st with
  | none => x.2.sop = true ∧ ethType x.2.data = typ x.1 ∧ (x.1 = .metaData → x.2.eop = true) ∧ (x.1 = .usr → x.2.eop = false)
  | some c => x.1 = c ∧ x.2.sop = false

def after (x : Chan × Flit512) : Option Chan := if x.2.eop then none else some x.1

def Scan : Option Chan → List (Chan × Flit512) → Option Chan → Prop
  | st, [], fin => st = fin
  | st, x :: l, fin => Fits st x ∧ Scan (after x) l fin

theorem Scan.snoc {l : List (Chan × Flit512)} {fin : Option Chan} {x : Chan × Flit512} (hx : Fits fin x) :
    ∀ {st : Option Chan}, Scan st l fin → Scan st (l ++ [x]) (after x) := by
  induction l with
  | nil =>
    rintro st rfl
    exact ⟨hx, rfl⟩
  | cons y l ih =>
    rintro st ⟨h1, h2⟩
    exact ⟨h1, ih h2⟩

/-! ## `stream_demux` -/

/-- `out_pkt_empty` is zero on a first flit that is not the last. -/
def fixEmpty (f : Flit512) : Flit512 := if f.sop && !f.eop then { f with empty := 0 } else f

namespace Demux

def chan : DemuxState → Option Chan
  | .first => none
  | .pkt => some .pkt
  | .usr => some .usr

def pktBeat (s : Demux) : List Flit512 := if s.outPktValid then [s.outPkt] else []
def metaBeat (s : Demux) : List (BitVec 252) := if s.outMetaValid then [s.outMeta] else []
def usrBeat (s : Demux) : List Flit512 := if s.outUsrValid then [s.outUsr] else []

structure Quiet (s : Demux) : Prop where
  empty : s.outUsr.empty = 0
  pkt : s.state = .pkt → s.outMetaValid = false ∧ s.outUsrValid = false
  usr : s.state = .usr → s.outPktValid = false ∧ s.outMetaValid = false

variable {s : Demux} {full : Full} {f : Flit512} {c : Chan}

theorem step_idle (h : Quiet s) (i : Flit512) (full : Full) : Quiet (s.step false i full) ∧
    (s.step false i full).state = s.state ∧ (s.step false i full).dataReg = s.dataReg ∧ (s.step false i full).sopReg = s.sopReg ∧
    (s.step false i full).pktBeat = [] ∧ (s.step false i full).metaBeat = [] ∧ (s.step false i full).usrBeat = [] := by
  obtain ⟨h1, h2, h3⟩ := h
  cases hs : s.state with
  | first =>
    refine ⟨⟨?_, ?_, ?_⟩, ?_, ?_, ?_, ?_, ?_, ?_⟩ <;>
      simp [step, hs, takesPkt, takesMeta, takesUsr, pktBeat, metaBeat, usrBeat]
  | pkt =>
    obtain ⟨h2, h2'⟩ := h2 hs
    refine ⟨⟨?_, ?_, ?_⟩, ?_, ?_, ?_, ?_, ?_, ?_⟩ <;> simp [step, hs, h1, h2, h2', pktBeat, metaBeat, usrBeat]
  | usr =>
    obtain ⟨h3, h3'⟩ := h3 hs
    refine ⟨⟨?_, ?_, ?_⟩, ?_, ?_, ?_, ?_, ?_, ?_⟩ <;> simp [step, hs, h1, h3, h3', pktBeat, metaBeat, usrBeat]

theorem step_held (hr : s.ready f full = false) : s.state = .first ∧ Quiet (s.step true f full) ∧
    (s.step true f full).state = .first ∧ (s.step true f full).pktBeat = [] ∧ (s.step true f full).metaBeat = [] ∧
    (s.step true f full).usrBeat = [] := by
  cases hs : s.state with
  | pkt => simp [ready, hs] at hr
  | usr => simp [ready, hs] at hr
  | first =>
    simp only [ready, hs, Bool.or_eq_false_iff] at hr
    obtain ⟨⟨h1, h2⟩, h3⟩ := hr
    have k1 : takesPkt true f full = false := by
      unfold takesPkt
      rw [Bool.and_assoc, h1, Bool.and_false]
    have k2 : takesMeta true f full = false := by
      unfold takesMeta
      rw [Bool.and_assoc, h2, Bool.and_false]
    have k3 : takesUsr true f full = false := by
      unfold takesUsr
      rw [Bool.and_assoc, h3, Bool.and_false]
    refine ⟨rfl, ⟨?_, ?_, ?_⟩, ?_, ?_, ?_, ?_⟩ <;> simp [step, hs, k1, k2, k3, pktBeat, metaBeat, usrBeat]

structure Takes (s s' : Demux) (c : Chan) (f : Flit512) : Prop where
  quiet : Quiet s'
  chan : chan s'.state = after (c, f)
  dataReg : s'.dataReg = f.data
  sopReg : s'.sopReg = f.sop
  pkt : s'.pktBeat = if c = .pkt then [fixEmpty f] else []
  metaData : s'.metaBeat = if c = .metaData then [f.data.extractLsb' 148 252] else []
  usr : s'.usrBeat = if c = .usr ∧ f.sop = false then [⟨low400 s.dataReg ++ high112 f.data, s.sopReg, f.eop, 0⟩] else []

theorem takes_first (hs : s.state = .first) (hf : Fits none (c, f)) (hr : s.ready f full = true) :
    Takes s (s.step true f full) c f := by
  obtain ⟨hsop', htyp, hm, hu⟩ := hf
  have hsop : f.sop = true := hsop'
  clear hsop'
  cases c with
  | pkt =>
    have htyp : ethType f.data = ethIp := htyp
    have e1 : (ethIp == ethMeta) = false := by decide
    have e2 : (ethIp == ethUsr) = false := by decide
    have hfull : full.pkt = false := by simpa [ready, hs, htyp, e1, e2] using hr
    refine ⟨⟨?_, ?_, ?_⟩, ?_, ?_, ?_, ?_, ?_, ?_⟩
    all_goals simp [step, hs, takesPkt, takesMeta, pktBeat, metaBeat, usrBeat, hsop, htyp, e1, hfull, fixEmpty, after]
    · cases f.eop <;> simp
    · cases f.eop <;> rfl
    · obtain ⟨fd, fs, fe, fm⟩ := f
      cases fe <;> simp_all
  | metaData =>
    have htyp : ethType f.data = ethMeta := htyp
    have heop : f.eop = true := hm rfl
    have e1 : (ethMeta == ethIp) = false := by decide
    have e2 : (ethMeta == ethUsr) = false := by decide
    have hfull : full.metaData = false := by simpa [ready, hs, htyp, e1, e2] using hr
    refine ⟨⟨?_, ?_, ?_⟩, ?_, ?_, ?_, ?_, ?_, ?_⟩
    all_goals simp [step, hs, takesPkt, takesMeta, takesUsr, pktBeat, metaBeat, usrBeat, hsop, htyp, e1, e2, hfull, after, heop, Demux.chan]
  | usr =>
    have htyp : ethType f.data = ethUsr := htyp
    have heop : f.eop = false := hu rfl
    have e1 : (ethUsr == ethIp) = false := by decide
    have e2 : (ethUsr == ethMeta) = false := by decide
    have hfull : full.usr = false := by simpa [ready, hs, htyp, e1, e2] using hr
    refine ⟨⟨?_, ?_, ?_⟩, ?_, ?_, ?_, ?_, ?_, ?_⟩
    all_goals simp [step, hs, takesPkt, takesMeta, takesUsr, pktBeat, metaBeat, usrBeat, hsop, htyp, e1, e2, hfull, after, heop, Demux.chan]

theorem takes_next (h : Quiet s) (hf : Fits (chan s.state) (c, f)) (hr : s.ready f full = true) : Takes s (s.step true f full) c f := by
  obtain ⟨h1, h2, h3⟩ := h
  cases hs : s.state with
  | first => exact takes_first hs (by rwa [hs] at hf) hr
  | pkt =>
    rw [hs] at hf
    obtain ⟨hc, hsop⟩ := hf
    have hc : c = .pkt := hc
    have hsop : f.sop = false := hsop
    obtain ⟨h2, h2'⟩ := h2 hs
    subst hc
    refine ⟨⟨?_, ?_, ?_⟩, ?_, ?_, ?_, ?_, ?_, ?_⟩
    all_goals simp [step, hs, pktBeat, metaBeat, usrBeat, h1, h2, h2', fixEmpty, after]
    · cases f.eop <;> simp
    · cases f.eop <;> rfl
    · obtain ⟨fd, fs, fe, fm⟩ := f
      simp_all
  | usr =>
    rw [hs] at hf
    obtain ⟨hc, hsop⟩ := hf
    have hc : c = .usr := hc
    have hsop : f.sop = false := hsop
    obtain ⟨h3, h3'⟩ := h3 hs
    subst hc
    refine ⟨⟨?_, ?_, ?_⟩, ?_, ?_, ?_, ?_, ?_, ?_⟩
    all_goals simp [step, hs, pktBeat, metaBeat, usrBeat, h1, h3, h3', after, usrData]
    · cases f.eop <;> simp
    · cases f.eop <;> rfl

end Demux

/-! ## `usr_gen` -/

namespace MuxSys

variable {s : MuxSys} {t : MuxTick} {g : List Flit512}

/-- While a user packet is under way the idle bus keeps the end of the last beat, no beat is offered behind the last one of
a packet, and the queue has room. -/
structure UsrOk (s : MuxSys) (t : MuxTick) : Prop where
  hold : s.gen.state = .normal → s.usrOffered t = none → low112 t.usrIdle = low112 s.gen.dataReg
  pause : s.gen.state = .last → s.usrOffered t = none
  room : s.gen.outValid = true → s.usrFifo.length < muxFifoDepth

/-- `g` is what `usr_gen` has still to put out. -/
inductive GenInv (s : MuxSys) (g : List Flit512) : Prop
  | first (later : List UsrPkt) (hs : s.gen.state = .first) (src : s.usrSrc = later.flatMap fun p => p.flits)
      (hg : g = encAll later)
  | normal (later : List UsrPkt) (bs : List Flit512) (hs : s.gen.state = .normal) (hne : bs ≠ [])
      (heop : ∀ a y r, bs = a ++ y :: r → (y.eop = true ↔ r = []))
      (src : s.usrSrc = bs ++ later.flatMap fun p => p.flits) (hg : g = encTail s.gen.dataReg bs ++ encAll later)
  | last (later : List UsrPkt) (hs : s.gen.state = .last) (sop : s.gen.outSop = false)
      (src : s.usrSrc = later.flatMap fun p => p.flits) (hg : g = ⟨UsrGen.lastFlit s.gen.dataReg, false, true, 0⟩ :: encAll later)

theorem usrOffered_eq_some {f : Flit512} (h : s.usrOffered t = some f) : ∃ l, s.usrSrc = f :: l := by
  unfold usrOffered at h
  split at h
  · exact List.head?_eq_some_iff.1 h
  · cases h

theorem step_gen (s : MuxSys) (t : MuxTick) : (s.step t).gen = s.gen.step (s.usrOffered t).isSome (s.usrBus t) t.usrAlmostFull := rfl

theorem usrSrc_of_none (h : s.usrOffered t = none) : (s.step t).usrSrc = s.usrSrc := by
  simp [step, usrTaken, h]

theorem GenInv.step (h : GenInv s g) (ok : UsrOk s t) : ∃ g', GenInv (s.step t) g' ∧ (s.step t).gen.out.toList ++ g' = g := by
  cases h with
  | first later hs src hg =>
    cases ho : s.usrOffered t with
    | none =>
      have hgen : (s.step t).gen.state = .first ∧ (s.step t).gen.out = none := by
        rw [step_gen, ho]
        simp [UsrGen.step, hs, UsrGen.out]
      exact ⟨g, .first later hgen.1 ((usrSrc_of_none ho).trans src) hg, by rw [hgen.2]; rfl⟩
    | some f =>
      have hbus : s.usrBus t = f := by simp [usrBus, ho]
      obtain ⟨l, hl⟩ := usrOffered_eq_some ho
      rw [src] at hl
      cases later with
      | nil => simp at hl
      | cons p later =>
        -- the packet that begins has its first beat on the bus
        obtain ⟨b, bs, hb⟩ := List.exists_cons_of_ne_nil p.toMarked.flits_ne_nil
        have hfl : p.flits = b :: bs := hb
        rw [List.flatMap_cons, hfl] at hl
        obtain ⟨rfl, -⟩ := List.cons.inj hl
        have hsop : b.sop = true := (p.sop [] b bs hb).2 rfl
        have hbs : bs ≠ [] := by
          rintro rfl
          have h1 := congrArg List.length hb
          have h2 : p.toMarked.flits.length = p.body.length + 1 := by simp [Marked.flits]
          have h3 := List.length_pos_iff.2 p.two
          simp at h1
          omega
        cases haf : t.usrAlmostFull with
        | true =>
          have hgen : (s.step t).gen.state = .first ∧ (s.step t).gen.out = none := by
            rw [step_gen, ho, haf]
            simp [UsrGen.step, hs, UsrGen.out]
          have hsrc : (s.step t).usrSrc = s.usrSrc := by simp [MuxSys.step, usrTaken, UsrGen.ready, hs, haf]
          exact ⟨g, .first (p :: later) hgen.1 (hsrc.trans src) hg, by rw [hgen.2]; rfl⟩
        | false =>
          have hgen : (s.step t).gen.state = .normal ∧ (s.step t).gen.out = some ⟨UsrGen.firstFlit b.data, true, false, 0⟩ ∧
              (s.step t).gen.dataReg = b.data := by
            rw [step_gen, ho, haf, hbus]
            simp [UsrGen.step, hs, UsrGen.out, hsop]
          have hsrc : (s.step t).usrSrc = s.usrSrc.tail := by simp [MuxSys.step, usrTaken, UsrGen.ready, ho, haf]
          refine ⟨encTail (s.step t).gen.dataReg bs ++ encAll later, .normal later bs hgen.1 hbs ?_ ?_ rfl, ?_⟩
          · intro a y r h
            exact Marked.mark_iff (f := p.toMarked) (a := b :: a) (by rw [hb, h]; rfl)
          · rw [hsrc, src, List.flatMap_cons, hfl]
            rfl
          · have hc : encAll (p :: later) = enc p.flits ++ encAll later := rfl
            rw [hgen.2.1, hgen.2.2, hg, hc, hfl]
            rfl
  | normal later bs hs hne heop src hg =>
    cases ho : s.usrOffered t with
    | none =>
      have hbus : (s.usrBus t).data = t.usrIdle := by simp [usrBus, ho]
      have hgen : (s.step t).gen.state = .normal ∧ (s.step t).gen.out = none ∧ (s.step t).gen.dataReg = t.usrIdle := by
        rw [step_gen, ho]
        simp [UsrGen.step, hs, UsrGen.out, hbus]
      refine ⟨g, .normal later bs hgen.1 hne heop ((usrSrc_of_none ho).trans src) ?_, by rw [hgen.2.1]; rfl⟩
      rw [hg, hgen.2.2, encTail_congr (ok.hold hs ho)]
    | some f =>
      have hbus : s.usrBus t = f := by simp [usrBus, ho]
      obtain ⟨l, hl⟩ := usrOffered_eq_some ho
      obtain ⟨b, bs, rfl⟩ := List.exists_cons_of_ne_nil hne
      rw [src] at hl
      obtain ⟨rfl, -⟩ := List.cons.inj hl
      have hlast := heop [] b bs rfl
      have hsrc : (s.step t).usrSrc = bs ++ later.flatMap fun p => p.flits := by
        simp [MuxSys.step, usrTaken, UsrGen.ready, hs, ho, src]
      have hgen : (s.step t).gen.out = some ⟨UsrGen.normalFlit s.gen.dataReg b.data, false, false, 0⟩ ∧
          (s.step t).gen.dataReg = b.data ∧ (s.step t).gen.outSop = false ∧
          (s.step t).gen.state = if b.eop then .last else .normal := by
        rw [step_gen, ho, hbus]
        simp [UsrGen.step, hs, UsrGen.out]
      obtain ⟨h1, h2, h3, h4⟩ := hgen
      by_cases he : b.eop = true
      · have hn := hlast.1 he
        subst hn
        rw [if_pos he] at h4
        exact ⟨_, .last later h4 h3 hsrc rfl, by rw [h1, h2, hg]; rfl⟩
      · rw [if_neg he] at h4
        refine ⟨_, .normal later bs h4 (fun hn => he (hlast.2 hn)) (fun a y r h => heop (b :: a) y r (by rw [h]; rfl))
          hsrc rfl, by rw [h1, h2, hg]; rfl⟩
  | last later hs sop src hg =>
    have ho := ok.pause hs
    have hgen : (s.step t).gen.state = .first ∧ (s.step t).gen.out = some ⟨UsrGen.lastFlit s.gen.dataReg, false, true, 0⟩ := by
      rw [step_gen, ho]
      simp [UsrGen.step, hs, UsrGen.out, sop]
    exact ⟨encAll later, .first later hgen.1 ((usrSrc_of_none ho).trans src) rfl, by rw [hgen.2, hg]; rfl⟩

/-! ## The link -/

def onLink (c : Chan) (l : List (Chan × Flit512)) : List Flit512 := (l.filter fun x => x.1 == c).map Prod.snd

theorem onLink_append (c : Chan) (l m : List (Chan × Flit512)) : onLink c (l ++ m) = onLink c l ++ onLink c m := by simp [onLink]

/-- The flits of the channel that the multiplexer has still to take; `g` is what `usr_gen` has to put out. -/
def behind (s : MuxSys) (g : List Flit512) : Chan → List Flit512
  | .pkt => s.pktSrc
  | .metaData => s.metaFifo ++ s.metaSrc.map metaFlit
  | .usr => s.usrFifo ++ (s.gen.out.toList ++ g)

def sent (s : MuxSys) (t : MuxTick) : Option (Chan × Flit512) := (s.muxOut t).map fun f => (s.grant t, f)

def popped (s : MuxSys) (t : MuxTick) : Option (Chan × Flit512) := if s.linkTaken t then s.link.head? else none

theorem link_step (s : MuxSys) (t : MuxTick) : (s.popped t).toList ++ (s.step t).link = s.link ++ (s.sent t).toList :=
  fifoStep_pop _ _ _

theorem onLink_sent (s : MuxSys) (t : MuxTick) (c : Chan) :
    onLink c (s.sent t).toList = (if s.takes t c then s.offer t c else none).toList := by
  unfold sent muxOut takes
  cases t.outReady with
  | false => rfl
  | true =>
    by_cases hc : s.grant t = c
    · subst hc
      cases s.offer t (s.grant t) <;> simp [onLink]
    · cases s.offer t (s.grant t) <;> simp [onLink, hc]

theorem behind_step {g' : List Flit512} (hroom : s.gen.outValid = true → s.usrFifo.length < muxFifoDepth)
    (hg : (s.step t).gen.out.toList ++ g' = g) (c : Chan) :
    onLink c (s.sent t).toList ++ (s.step t).behind g' c = s.behind g c := by
  rw [onLink_sent]
  cases c with
  | pkt =>
    show (if s.takes t .pkt then s.offer t .pkt else none).toList ++ (if s.takes t .pkt && t.pktValid then _ else _) = s.pktSrc
    unfold offer
    cases s.takes t .pkt <;> cases t.pktValid <;> cases s.pktSrc <;> simp
  | metaData =>
    have h1 := fifoStep_pop s.metaFifo (s.metaTaken t) (s.takes t .metaData)
    have h2 : (s.metaTaken t).toList ++ (s.step t).metaSrc.map metaFlit = s.metaSrc.map metaFlit := by
      show _ ++ (if (s.metaTaken t).isSome then s.metaSrc.tail else s.metaSrc).map metaFlit = _
      unfold metaTaken
      split
      · cases s.metaSrc <;> simp
      · simp
    show _ ++ (fifoStep s.metaFifo (s.metaTaken t) (s.takes t .metaData) ++ _) = s.metaFifo ++ s.metaSrc.map metaFlit
    rw [← List.append_assoc, show (if s.takes t .metaData then s.offer t .metaData else none) =
      if s.takes t .metaData then s.metaFifo.head? else none from rfl, h1, List.append_assoc, h2]
  | usr =>
    have hpush : (if s.usrFifo.length < muxFifoDepth then s.gen.out else none) = s.gen.out := by
      by_cases hv : s.gen.outValid = true
      · rw [if_pos (hroom hv)]
      · have : s.gen.out = none := by simp [UsrGen.out, hv]
        simp [this]
    have h1 := fifoStep_pop s.usrFifo s.gen.out (s.takes t .usr)
    show _ ++ (fifoStep s.usrFifo (if s.usrFifo.length < muxFifoDepth then s.gen.out else none) (s.takes t .usr) ++ _) =
      s.usrFifo ++ (s.gen.out.toList ++ g)
    rw [hpush, hg, ← List.append_assoc, show (if s.takes t .usr then s.offer t .usr else none) =
      if s.takes t .usr then s.usrFifo.head? else none from rfl, h1, List.append_assoc]

structure Streams (T : Chan → List Flit512) : Prop where
  inFrames : ∀ c, InFrames (typ c) (T c)
  metaEop : ∀ f ∈ T .metaData, f.eop = true
  usrSop : ∀ f ∈ T .usr, f.sop = true → f.eop = false

structure Inv (T : Chan → List Flit512) (s : MuxSys) (recv : Chan → List Flit512) (g : List Flit512) : Prop where
  stream : ∀ c, recv c ++ onLink c s.link ++ s.behind g c = T c
  gen : GenInv s g
  scan : Scan (Demux.chan s.demux.state) s.link s.lock
  pos : ∀ c, atEnd (recv c ++ onLink c s.link) ↔ s.lock ≠ some c
  quiet : s.demux.Quiet
  reg : s.demux.state = .usr → ∃ x, (recv .usr).getLast? = some x ∧ s.demux.dataReg = x.data ∧ s.demux.sopReg = x.sop
  outPkt : s.outPkt = (recv .pkt).map fixEmpty
  outMeta : s.outMeta = (recv .metaData).map fun f => f.data.extractLsb' 148 252
  outUsr : s.outUsr = decodeFrom none (recv .usr)

variable {T : Chan → List Flit512} {recv : Chan → List Flit512}

theorem sent_eq_some {x : Chan × Flit512} (h : s.sent t = some x) : x.1 = s.grant t ∧ s.muxOut t = some x.2 := by
  unfold sent at h
  obtain ⟨f, hf, rfl⟩ := Option.map_eq_some_iff.1 h
  exact ⟨rfl, hf⟩

theorem grant_of_lock {c : Chan} (h : s.lock = some c) : s.grant t = c := by simp [grant, h]

theorem Inv.fits (h : Inv T s recv g) (hT : Streams T) {x : Chan × Flit512} (hx : s.sent t = some x)
    {r : List Flit512} (hb : s.behind g x.1 = x.2 :: r) : Fits s.lock x := by
  obtain ⟨hgr, -⟩ := sent_eq_some hx
  have hcut := (h.stream x.1).symm
  rw [hb] at hcut
  obtain ⟨hsop, htyp⟩ := (hT.inFrames x.1).2 _ _ _ hcut
  have hmem : x.2 ∈ T x.1 := by
    rw [hcut]
    simp
  rw [h.pos] at hsop
  cases hl : s.lock with
  | none =>
    have hs : x.2.sop = true := hsop.2 (by simp [hl])
    refine ⟨hs, htyp hs, ?_, ?_⟩
    · intro hc
      exact hT.metaEop x.2 (hc ▸ hmem)
    · intro hc
      exact hT.usrSop x.2 (hc ▸ hmem) hs
  | some c =>
    have hc : x.1 = c := hgr.trans (grant_of_lock hl)
    refine ⟨hc, ?_⟩
    rw [hl, hc] at hsop
    simpa using hsop

theorem lock_step (s : MuxSys) (t : MuxTick) : (s.step t).lock = match s.sent t with
    | none => s.lock
    | some x => after x := by
  simp only [sent, step]
  cases s.muxOut t <;> rfl

theorem Inv.pos_step (h : Inv T s recv g) {recv' : Chan → List Flit512}
    (hr : ∀ c, recv' c = recv c ++ onLink c (s.popped t).toList) (c : Chan) :
    atEnd (recv' c ++ onLink c (s.step t).link) ↔ (s.step t).lock ≠ some c := by
  have hl := congrArg (onLink c) (link_step s t)
  rw [onLink_append, onLink_append] at hl
  rw [hr, List.append_assoc, hl, ← List.append_assoc, lock_step]
  cases hs : s.sent t with
  | none =>
    have : onLink c (none : Option (Chan × Flit512)).toList = [] := rfl
    rw [this, List.append_nil]
    exact h.pos c
  | some x =>
    obtain ⟨hg, -⟩ := sent_eq_some hs
    by_cases hc : x.1 = c
    · have : onLink c (some x).toList = [x.2] := by simp [onLink, hc]
      rw [this, atEnd_snoc]
      cases he : x.2.eop <;> simp [after, he, hc]
    · have hn : onLink c (some x).toList = [] := by simp [onLink, hc]
      have hlock : s.lock ≠ some c := fun hk => hc (hg.trans (grant_of_lock hk))
      rw [hn, List.append_nil, h.pos c]
      have ha : after x ≠ some c := by
        unfold after
        split
        · simp
        · simpa using hc
      exact ⟨fun _ => ha, fun _ => hlock⟩

theorem Inv.demux_step (h : Inv T s recv g) :
    (s.popped t = none ∧ (s.nextDemux t).Quiet ∧ (s.nextDemux t).state = s.demux.state ∧
        (s.demux.state = .usr → (s.nextDemux t).dataReg = s.demux.dataReg ∧ (s.nextDemux t).sopReg = s.demux.sopReg) ∧
        (s.nextDemux t).pktBeat = [] ∧ (s.nextDemux t).metaBeat = [] ∧ (s.nextDemux t).usrBeat = []) ∨
      ∃ x l, s.popped t = some x ∧ s.link = x :: l ∧ Fits (Demux.chan s.demux.state) x ∧ Scan (after x) l s.lock ∧
        Demux.Takes s.demux (s.nextDemux t) x.1 x.2 := by
  cases ha : s.arriving t with
  | none =>
    left
    have hp : s.popped t = none := by simp [popped, linkTaken, ha]
    obtain ⟨h1, h2, h3, h4, h5, h6, h7⟩ := Demux.step_idle h.quiet (s.inFlit t) t.full
    have hn : s.nextDemux t = s.demux.step false (s.inFlit t) t.full := by simp [nextDemux, ha]
    rw [hn]
    exact ⟨hp, h1, h2, fun _ => ⟨h3, h4⟩, h5, h6, h7⟩
  | some x =>
    have hin : s.inFlit t = x.2 := by simp [inFlit, ha]
    have hn : s.nextDemux t = s.demux.step true x.2 t.full := by simp [nextDemux, ha, hin]
    obtain ⟨l, hl⟩ : ∃ l, s.link = x :: l := by
      unfold arriving at ha
      split at ha
      · exact List.head?_eq_some_iff.1 ha
      · cases ha
    cases hr : s.demux.ready x.2 t.full with
    | false =>
      left
      have hp : s.popped t = none := by simp [popped, linkTaken, hin, hr]
      obtain ⟨h1, h2, h3, h4, h5, h6⟩ := Demux.step_held hr
      rw [hn]
      refine ⟨hp, h2, h3.trans h1.symm, ?_, h4, h5, h6⟩
      intro hu
      rw [h1] at hu
      cases hu
    | true =>
      right
      have hp : s.popped t = some x := by simp [popped, linkTaken, ha, hin, hr, hl]
      have hscan := h.scan
      rw [hl] at hscan
      rw [hn]
      exact ⟨x, l, hp, hl, hscan.1, hscan.2, Demux.takes_next h.quiet hscan.1 hr⟩

theorem Scan.sent {st : Option Chan} {l : List (Chan × Flit512)} (hsc : Scan st l s.lock) (hf : ∀ x, s.sent t = some x → Fits s.lock x) :
    Scan st (l ++ (s.sent t).toList) (s.step t).lock := by
  rw [lock_step]
  cases hs : s.sent t with
  | none => simpa using hsc
  | some x => exact hsc.snoc (hf x hs)

theorem Inv.step (h : Inv T s recv g) (hT : Streams T) (ok : UsrOk s t) : ∃ recv' g', Inv T (s.step t) recv' g' := by
  obtain ⟨g', hgen, hg'⟩ := h.gen.step ok
  have hbehind := behind_step (t := t) ok.room hg'
  have hfits : ∀ x, s.sent t = some x → Fits s.lock x := by
    intro x hx
    have hb := hbehind x.1
    have hx1 : onLink x.1 (s.sent t).toList = [x.2] := by simp [onLink, hx]
    rw [hx1] at hb
    exact h.fits hT hx hb.symm
  have hlink := link_step s t
  obtain ⟨recv', hr⟩ : ∃ recv' : Chan → List Flit512, ∀ c, recv' c = recv c ++ onLink c (s.popped t).toList := ⟨_, fun _ => rfl⟩
  have hstream : ∀ c, recv' c ++ onLink c (s.step t).link ++ (s.step t).behind g' c = T c := by
    intro c
    have hl := congrArg (onLink c) hlink
    rw [onLink_append, onLink_append] at hl
    rw [hr, List.append_assoc (recv c), hl, ← List.append_assoc (recv c), List.append_assoc, hbehind, h.stream]
  have hpos := h.pos_step hr
  refine ⟨recv', g', ?_⟩
  rcases h.demux_step (t := t) with ⟨hp, hq, hst, hreg, h1, h2, h3⟩ | ⟨x, l, hp, hl, hfx, hsc, htk⟩
  · rw [hp] at hr hlink
    have hr' : ∀ c, recv' c = recv c := by
      intro c
      rw [hr]
      exact List.append_nil _
    refine ⟨hstream, hgen, ?_, hpos, hq, ?_, ?_, ?_, ?_⟩
    · have hlink : (s.step t).link = s.link ++ (s.sent t).toList := hlink
      rw [hlink, show (s.step t).demux.state = s.demux.state from hst]
      exact Scan.sent h.scan hfits
    · intro hu
      have hu : s.demux.state = .usr := hst ▸ hu
      obtain ⟨x, hx, hd, hs⟩ := h.reg hu
      obtain ⟨k1, k2⟩ := hreg hu
      exact ⟨x, by rw [hr', hx], k1.trans hd, k2.trans hs⟩
    · rw [hr', ← h.outPkt]
      show s.outPkt ++ (s.nextDemux t).pktBeat = _
      rw [h1, List.append_nil]
    · rw [hr', ← h.outMeta]
      show s.outMeta ++ (s.nextDemux t).metaBeat = _
      rw [h2, List.append_nil]
    · rw [hr', ← h.outUsr]
      show s.outUsr ++ (s.nextDemux t).usrBeat = _
      rw [h3, List.append_nil]
  · rw [hp] at hr hlink
    have hone : ∀ c, onLink c (some x).toList = if x.1 = c then [x.2] else [] := by
      intro c
      by_cases hc : x.1 = c <;> simp [onLink, hc]
    refine ⟨hstream, hgen, ?_, hpos, htk.quiet, ?_, ?_, ?_, ?_⟩
    · have hlink : x :: (s.step t).link = s.link ++ (s.sent t).toList := hlink
      rw [hl, List.cons_append] at hlink
      rw [(List.cons.inj hlink).2, show Demux.chan (s.step t).demux.state = _ from htk.chan]
      exact Scan.sent hsc hfits
    · intro hu
      have hu : (s.nextDemux t).state = .usr := hu
      have hc := htk.chan
      rw [hu] at hc
      have hx1 : x.1 = .usr := by
        unfold after at hc
        split at hc
        · cases hc
        · exact (Option.some.inj hc).symm
      refine ⟨x.2, ?_, htk.dataReg, htk.sopReg⟩
      rw [hr, hone, if_pos hx1]
      simp
    · rw [hr, hone, List.map_append, ← h.outPkt]
      show s.outPkt ++ (s.nextDemux t).pktBeat = _
      rw [htk.pkt]
      split <;> simp
    · rw [hr, hone, List.map_append, ← h.outMeta]
      show s.outMeta ++ (s.nextDemux t).metaBeat = _
      rw [htk.metaData]
      split <;> simp
    · rw [hr, hone, decodeFrom_append, ← h.outUsr]
      show s.outUsr ++ (s.nextDemux t).usrBeat = _
      rw [htk.usr]
      by_cases hx1 : x.1 = .usr
      · cases hsop : x.2.sop with
        | true => cases (recv .usr).getLast? <;> simp [hx1, decodeFrom, decodeOne, hsop]
        | false =>
          -- the flit continues a frame of the user, whose last flit is in the register
          have hu : s.demux.state = .usr := by
            cases hs : s.demux.state with
            | first =>
              rw [hs] at hfx
              exact absurd hfx.1 (by simp [hsop])
            | pkt =>
              rw [hs] at hfx
              exact absurd (hfx.1.symm.trans hx1) (by simp)
            | usr => rfl
          obtain ⟨y, hy, hd, hs⟩ := h.reg hu
          simp [hx1, hy, decodeFrom, decodeOne, hsop, hd, hs]
      · simp [hx1, decodeFrom]

/-! ## Whole streams -/

def wire (pkts : List IpPkt) (metas : List (BitVec 252)) (usrs : List UsrPkt) : Chan → List Flit512
  | .pkt => pkts.flatMap fun p => p.flits
  | .metaData => metas.flatMap fun m => [metaFlit m]
  | .usr => encAll usrs

theorem wire_streams (pkts : List IpPkt) (metas : List (BitVec 252)) (usrs : List UsrPkt) : Streams (wire pkts metas usrs) := by
  have hcons : ∀ p : UsrPkt, ∃ b bs, p.flits = b :: bs := fun p => List.exists_cons_of_ne_nil p.toMarked.flits_ne_nil
  refine ⟨?_, ?_, ?_⟩
  · intro c
    cases c with
    | pkt => exact InFrames.flatMap fun p _ => p.toStreamPkt.isFrame p.ip
    | metaData => exact InFrames.flatMap fun m _ => metaFlit_isFrame m
    | usr =>
      refine InFrames.flatMap fun p _ => ?_
      obtain ⟨b, bs, hb⟩ := hcons p
      rw [hb]
      exact enc_isFrame b bs
  · intro f hf
    obtain ⟨m, -, hm⟩ := List.mem_flatMap.1 hf
    rw [List.mem_singleton.1 hm]
    rfl
  · intro f hf hs
    obtain ⟨p, -, hp⟩ := List.mem_flatMap.1 hf
    obtain ⟨b, bs, hb⟩ := hcons p
    rw [hb] at hp
    rcases List.mem_cons.1 hp with rfl | hp
    · rfl
    · obtain ⟨a, r, hr⟩ := List.append_of_mem hp
      rw [(encTail_cut hr).1] at hs
      cases hs

theorem Inv.reset (pkts : List IpPkt) (metas : List (BitVec 252)) (usrs : List UsrPkt) :
    Inv (wire pkts metas usrs) (.reset pkts metas usrs) (fun _ => []) (encAll usrs) := by
  refine ⟨?_, .first usrs rfl rfl rfl, rfl, ?_, ⟨rfl, ?_, ?_⟩, ?_, rfl, rfl, rfl⟩
  · intro c
    cases c with
    | pkt => rfl
    | metaData =>
      show metas.map metaFlit = metas.flatMap fun m => [metaFlit m]
      induction metas with
      | nil => rfl
      | cons m metas ih => simp_all
    | usr => rfl
  · intro c
    simp [atEnd, MuxSys.reset, onLink]
  · intro h
    cases h
  · intro h
    cases h
  · intro h
    cases h

/-! ## Everything comes out -/

def Taken (s : MuxSys) : Prop := s.pktSrc = [] ∧ s.metaSrc = [] ∧ s.usrSrc = []

/-- A cycle in which nothing is offered and nothing is held back. -/
def go : MuxTick := ⟨false, false, false, 0, false, .pkt, true, true, ⟨false, false, false⟩⟩

def isLast (s : MuxSys) : Nat := if s.gen.state = .last then 1 else 0

/-- A flit counts for the places that are before it. -/
def work (s : MuxSys) : Nat :=
  s.link.length + 2 * (s.metaFifo.length + s.usrFifo.length) + 3 * s.gen.out.toList.length + 4 * s.isLast

theorem offered_go (s : MuxSys) : s.usrOffered go = none := rfl

theorem Taken.step (h : Taken s) : Taken (s.step go) := by
  obtain ⟨h1, h2, h3⟩ := h
  refine ⟨?_, ?_, ?_⟩
  · simp [MuxSys.step, h1]
  · simp [MuxSys.step, h2]
  · simp [MuxSys.step, h3]

theorem sent_length (s : MuxSys) : (s.sent go).toList.length =
    (if s.takes go .metaData then s.metaFifo.head? else none).toList.length +
      (if s.takes go .usr then s.usrFifo.head? else none).toList.length := by
  unfold sent muxOut takes
  have hr : go.outReady = true := rfl
  have hp : go.pktValid = false := rfl
  cases hg : s.grant go with
  | pkt => simp [hr, offer, hp]
  | metaData => cases hm : s.metaFifo <;> simp [hr, offer, hm]
  | usr => cases hu : s.usrFifo <;> simp [hr, offer, hu]

theorem GenInv.of_taken (h : GenInv s g) (ht : Taken s) : (s.gen.state = .first ∧ g = []) ∨ s.gen.state = .last := by
  have hnil : ∀ later : List UsrPkt, (later.flatMap fun p => p.flits) = [] → later = [] := by
    intro later hl
    cases later with
    | nil => rfl
    | cons p later =>
      rw [List.flatMap_cons] at hl
      exact absurd (List.append_eq_nil_iff.1 hl).1 p.toMarked.flits_ne_nil
  cases h with
  | first later hs src hg =>
    rw [ht.2.2] at src
    rw [hnil later src.symm] at hg
    exact .inl ⟨hs, hg⟩
  | normal later bs hs hne heop src hg =>
    rw [ht.2.2] at src
    exact absurd (List.append_eq_nil_iff.1 src.symm).1 hne
  | last later hs sop src hg => exact .inr hs

theorem work_step (h : GenInv s g) (ht : Taken s) :
    (s.step go).work + s.gen.out.toList.length + s.isLast + (s.popped go).toList.length + (s.sent go).toList.length ≤ s.work := by
  have h1 := congrArg List.length (link_step s go)
  have h2 := congrArg List.length (fifoStep_pop s.metaFifo (s.metaTaken go) (s.takes go .metaData))
  have h3 := congrArg List.length (fifoStep_pop s.usrFifo (if s.usrFifo.length < muxFifoDepth then s.gen.out else none) (s.takes go .usr))
  have h4 := sent_length s
  have hm : s.metaTaken go = none := rfl
  have hpush : (if s.usrFifo.length < muxFifoDepth then s.gen.out else none).toList.length ≤ s.gen.out.toList.length := by
    split
    · exact Nat.le_refl _
    · exact Nat.zero_le _
  have hgen : (s.step go).gen.out.toList.length = s.isLast ∧ (s.step go).isLast = 0 := by
    unfold isLast
    rw [step_gen, offered_go]
    rcases h.of_taken ht with ⟨hs, -⟩ | hs
    · simp [UsrGen.step, hs, UsrGen.out]
    · simp [UsrGen.step, hs, UsrGen.out]
  have hmf : (s.step go).metaFifo = fifoStep s.metaFifo (s.metaTaken go) (s.takes go .metaData) := rfl
  have huf : (s.step go).usrFifo = fifoStep s.usrFifo (if s.usrFifo.length < muxFifoDepth then s.gen.out else none) (s.takes go .usr) := rfl
  simp only [List.length_append, hm, Option.toList_none, List.length_nil] at h1 h2 h3
  unfold work
  rw [hmf, huf, hgen.1, hgen.2, hm]
  omega

theorem popped_go (h : Inv T s recv g) (hl : s.link ≠ []) : (s.popped go).toList.length = 1 := by
  obtain ⟨x, l, hl⟩ := List.exists_cons_of_ne_nil hl
  have hscan := h.scan
  rw [hl] at hscan
  have ha : s.arriving go = some x := by simp [arriving, go, hl]
  have hin : s.inFlit go = x.2 := by simp [inFlit, ha]
  have hready : s.demux.ready x.2 go.full = true := by
    cases hs : s.demux.state with
    | first =>
      rw [hs] at hscan
      have ht := hscan.1.2.1
      cases hc : x.1 with
      | pkt =>
        rw [hc] at ht
        simp [Demux.ready, hs, ht, go, typ]
      | metaData =>
        rw [hc] at ht
        simp [Demux.ready, hs, ht, go, typ]
      | usr =>
        rw [hc] at ht
        simp [Demux.ready, hs, ht, go, typ]
    | pkt => simp [Demux.ready, hs]
    | usr => simp [Demux.ready, hs]
  simp [popped, linkTaken, ha, hin, hready, hl]

theorem sent_go (h : Inv T s recv g) (hT : Streams T) (ht : Taken s) (hf : s.gen.state = .first) (ho : s.gen.out = none)
    (hq : s.metaFifo ≠ [] ∨ s.usrFifo ≠ []) : (s.sent go).toList.length = 1 := by
  have hg : g = [] := by
    rcases h.gen.of_taken ht with ⟨-, hg⟩ | hs
    · exact hg
    · rw [hf] at hs
      cases hs
  have hoffer : ∃ f, s.offer go (s.grant go) = some f := by
    cases hl : s.lock with
    | some c =>
      rw [grant_of_lock hl]
      -- an unfinished frame has its rest behind the multiplexer
      have hne : s.behind g c ≠ [] := by
        intro hn
        have hs := h.stream c
        rw [hn, List.append_nil] at hs
        exact (h.pos c).1 (hs ▸ (hT.inFrames c).1) hl
      cases c with
      | pkt => exact absurd ht.1 hne
      | metaData =>
        obtain ⟨f, l, hfl⟩ := List.exists_cons_of_ne_nil (l := s.metaFifo) (by simpa [behind, ht.2.1] using hne)
        exact ⟨f, by simp [offer, hfl]⟩
      | usr =>
        obtain ⟨f, l, hfl⟩ := List.exists_cons_of_ne_nil (l := s.usrFifo) (by simpa [behind, ho, hg] using hne)
        exact ⟨f, by simp [offer, hfl]⟩
    | none =>
      have hp : s.offer go .pkt = none := rfl
      have hc : go.choice = .pkt := rfl
      simp only [grant, hl, hc, hp, Option.isSome_none, Bool.false_eq_true, if_false]
      cases hm : s.metaFifo with
      | cons f l => exact ⟨f, by simp [offer, hm]⟩
      | nil =>
        obtain ⟨f, l, hfl⟩ := List.exists_cons_of_ne_nil (hq.resolve_left (by simp [hm]))
        exact ⟨f, by simp [offer, hm, hfl]⟩
  obtain ⟨f, hf⟩ := hoffer
  have hr : go.outReady = true := rfl
  simp [sent, muxOut, hr, hf]

theorem Inv.empty (h : Inv T s recv g) (hT : Streams T) (ht : Taken s)
    (hz : s.gen.out.toList.length + s.isLast + (s.popped go).toList.length + (s.sent go).toList.length = 0) :
    s.link = [] ∧ s.gen.out = none ∧ (s.gen.state = .first ∧ g = []) ∧ s.metaFifo = [] ∧ s.usrFifo = [] := by
  have hlink : s.link = [] := by
    by_contra hl
    have := popped_go h hl
    omega
  have hout : s.gen.out = none := by
    cases ho : s.gen.out with
    | none => rfl
    | some f => simp [ho] at hz
  have hfirst : s.gen.state = .first ∧ g = [] := by
    rcases h.gen.of_taken ht with hs | hs
    · exact hs
    · simp [isLast, hs] at hz
  have hq : s.metaFifo = [] ∧ s.usrFifo = [] := by
    by_contra hn
    have hor : s.metaFifo ≠ [] ∨ s.usrFifo ≠ [] := by
      by_cases hm : s.metaFifo = []
      · exact .inr fun hu => hn ⟨hm, hu⟩
      · exact .inl hm
    have := sent_go h hT ht hfirst.1 hout hor
    omega
  exact ⟨hlink, hout, hfirst, hq⟩

theorem Inv.stuck (h : Inv T s recv g) (hT : Streams T) (ht : Taken s)
    (hz : s.gen.out.toList.length + s.isLast + (s.popped go).toList.length + (s.sent go).toList.length = 0) : ∀ c, recv c = T c := by
  obtain ⟨hlink, hout, hfirst, hq⟩ := h.empty hT ht hz
  intro c
  have hs := h.stream c
  rw [hlink] at hs
  cases c with
  | pkt => simpa [onLink, behind, ht.1] using hs
  | metaData => simpa [onLink, behind, ht.2.1, hq.1] using hs
  | usr => simpa [onLink, behind, hq.2, hout, hfirst.2] using hs

structure Out (pkts : List IpPkt) (metas : List (BitVec 252)) (usrs : List UsrPkt) (s : MuxSys) : Prop where
  pkt : s.outPkt = pkts.flatMap fun p => p.flits
  metaData : s.outMeta = metas
  usr : s.outUsr = usrs.flatMap fun p => p.flits

section
variable {pkts : List IpPkt} {metas : List (BitVec 252)} {usrs : List UsrPkt}

theorem fixEmpty_wire {f : Flit512} (hf : f ∈ wire pkts metas usrs .pkt) : fixEmpty f = f := by
  obtain ⟨p, -, hp⟩ := List.mem_flatMap.1 hf
  unfold fixEmpty
  split
  · rename_i hs
    simp only [Bool.and_eq_true, Bool.not_eq_true'] at hs
    have hp : f ∈ p.body ++ [p.last] := hp
    rcases List.mem_append.1 hp with hb | hb
    · have he := p.empty f hb hs.1
      obtain ⟨fd, fs, fe, fm⟩ := f
      simp_all
    · rw [List.mem_singleton.1 hb, p.last_mark] at hs
      exact absurd hs.2 (by simp)
  · rfl

theorem metas_wire : (wire pkts metas usrs .metaData).map (fun f => f.data.extractLsb' 148 252) = metas := by
  show (metas.flatMap fun m => [metaFlit m]).map _ = metas
  induction metas with
  | nil => rfl
  | cons m metas ih => simpa [data_metaFlit] using ih

theorem Inv.prefixes (h : Inv (wire pkts metas usrs) s recv g) :
    s.outPkt <+: (pkts.flatMap fun p => p.flits) ∧ s.outMeta <+: metas ∧ s.outUsr <+: (usrs.flatMap fun p => p.flits) := by
  have hpre : ∀ c, recv c <+: wire pkts metas usrs c := by
    intro c
    rw [← h.stream c, List.append_assoc]
    exact List.prefix_append _ _
  refine ⟨?_, ?_, ?_⟩
  · rw [h.outPkt, List.map_congr_left fun f hf => fixEmpty_wire ((hpre .pkt).subset hf), List.map_id']
    exact hpre .pkt
  · rw [h.outMeta]
    have hm := (hpre .metaData).map fun f => f.data.extractLsb' 148 252
    rwa [metas_wire] at hm
  · obtain ⟨r, hr⟩ := hpre .usr
    have hd := decode_encAll usrs none
    rw [show encAll usrs = recv .usr ++ r from hr.symm, decodeFrom_append, ← h.outUsr] at hd
    exact ⟨_, hd⟩

theorem Inv.complete (h : Inv (wire pkts metas usrs) s recv g) (hr : ∀ c, recv c = wire pkts metas usrs c) : Out pkts metas usrs s := by
  refine ⟨?_, ?_, ?_⟩
  · rw [h.outPkt, hr, List.map_congr_left fun f hf => fixEmpty_wire hf, List.map_id']
    rfl
  · rw [h.outMeta, hr, metas_wire]
  · rw [h.outUsr, hr]
    exact decode_encAll usrs none

end

theorem drains (hT : Streams T) (n : Nat) : ∀ (s : MuxSys) (recv : Chan → List Flit512) (g : List Flit512), Inv T s recv g → Taken s →
    AllSteps MuxSys.step UsrOk s (List.replicate n go) → s.work ≤ n →
    ∃ recv' g', Inv T (run MuxSys.step s (List.replicate n go)) recv' g' ∧ ∀ c, recv' c = T c := by
  induction n with
  | zero =>
    intro s recv g h ht _ hw
    refine ⟨recv, g, h, h.stuck hT ht ?_⟩
    have := work_step h.gen ht
    omega
  | succ n ih =>
    intro s recv g h ht ho hw
    rw [List.replicate_succ] at ho ⊢
    obtain ⟨recv', g', h'⟩ := h.step hT ho.1
    have hstep := work_step h.gen ht
    by_cases hz : s.gen.out.toList.length + s.isLast + (s.popped go).toList.length + (s.sent go).toList.length = 0
    · -- nothing moves, so everything is out and stays out
      obtain ⟨h1, h2, h3, h4, h5⟩ := h.empty hT ht hz
      have hw0 : s.work = 0 := by simp [work, isLast, h1, h2, h3.1, h4, h5]
      exact ih (s.step go) recv' g' h' ht.step ho.2 (by omega)
    · exact ih (s.step go) recv' g' h' ht.step ho.2 (by omega)

end MuxSys

/-- While the idle user bus keeps the end of the last beat inside a packet, no beat is offered directly behind a packet and
the user queue has room: what comes out is at any moment a beginning of the three streams, and once the sources are taken
as many cycles as there is work bring out the streams exactly. -/
theorem streamMux_lossless (pkts : List IpPkt) (metas : List (BitVec 252)) (usrs : List UsrPkt) (ts : List MuxTick)
    (ok : AllSteps MuxSys.step MuxSys.UsrOk (.reset pkts metas usrs) ts) :
    let s := run MuxSys.step (.reset pkts metas usrs) ts
    (s.outPkt <+: (pkts.flatMap fun p => p.flits) ∧ s.outMeta <+: metas ∧ s.outUsr <+: (usrs.flatMap fun p => p.flits)) ∧
      (s.Taken → ∀ n, s.work ≤ n → AllSteps MuxSys.step MuxSys.UsrOk s (List.replicate n MuxSys.go) →
        (run MuxSys.step s (List.replicate n MuxSys.go)).Out pkts metas usrs) := by
  intro s
  have hT := MuxSys.wire_streams pkts metas usrs
  obtain ⟨recv, g, h⟩ : ∃ recv g, MuxSys.Inv (MuxSys.wire pkts metas usrs) s recv g :=
    @run_inv _ _ MuxSys.step (fun s => ∃ recv g, MuxSys.Inv (MuxSys.wire pkts metas usrs) s recv g) MuxSys.UsrOk
      (fun _ _ ⟨_, _, h⟩ ok => h.step hT ok) ts _ ⟨_, _, .reset pkts metas usrs⟩ ok
  refine ⟨h.prefixes, ?_⟩
  intro ht n hn hgo
  obtain ⟨recv', g', h', hr⟩ := MuxSys.drains hT n s recv g h ht hgo hn
  exact h'.complete hr

/-- A user packet of two beats. -/
def UsrPkt.pair (x y : BitVec 512) : UsrPkt where
  body := [⟨x, true, false, 0⟩]
  last := ⟨y, false, true, 0⟩
  body_mark := by simp
  last_mark := rfl
  sop := sop_first rfl (by simp)
  two := by simp
  full := by simp

/-- All is ready, and a beat of the user is offered or the bus shows `idle`. -/
def usrTick (valid : Bool) (idle : BitVec 512) : MuxTick := ⟨false, false, valid, idle, false, .usr, true, true, ⟨false, false, false⟩⟩

instance (s : MuxSys) (t : MuxTick) : Decidable (s.UsrOk t) :=
  decidable_of_iff ((s.gen.state = .normal → s.usrOffered t = none → low112 t.usrIdle = low112 s.gen.dataReg) ∧
    (s.gen.state = .last → s.usrOffered t = none) ∧ (s.gen.outValid = true → s.usrFifo.length < muxFifoDepth))
    ⟨fun ⟨h1, h2, h3⟩ => ⟨h1, h2, h3⟩, fun ⟨h1, h2, h3⟩ => ⟨h1, h2, h3⟩⟩

/-- A packet with an idle cycle between its beats, in which the bus keeps the first. -/
def pausedRun (idle : BitVec 512) : List MuxTick :=
  [usrTick true 0, usrTick false idle, usrTick true 0] ++ List.replicate 6 (usrTick false 0)

theorem streamMux_lossless_paused :
    let s := run MuxSys.step (.reset [] [] [.pair 5 6]) (pausedRun 5)
    s.outUsr <+: ([UsrPkt.pair 5 6].flatMap fun p => p.flits) ∧ s.outUsr = [⟨5, true, false, 0⟩, ⟨6, false, true, 0⟩] :=
  ⟨(streamMux_lossless [] [] [.pair 5 6] (pausedRun 5) (by decide +kernel)).1.2.2, by decide +kernel⟩

/-- The bus shows something else in the idle cycle, and the first beat comes out with a wrong end. -/
theorem streamMux_mangles :
    (run MuxSys.step (.reset [] [] [.pair 5 6]) (pausedRun 9)).outUsr = [⟨9, true, false, 0⟩, ⟨6, false, true, 0⟩] := by
  decide +kernel

end Pigasus
