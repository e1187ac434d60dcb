import Mathlib.Data.List.GetD
import Pigasus.PktDataShift

/-!
# The payload of every frame is put out

The bytes that a state of the shifter has carried over from the last line,
followed by the rest of the frame, are what is still to be put out.
-/

namespace Pigasus

open Hdl

/-! ## Lines -/

namespace Line

theorem ofList_apply (l : List Byte) (j : Fin 64) : ofList l j = l.getD j.val 0 := vec_get _ _

theorem toList_length (d : Line) : d.toList.length = 64 := List.Vector.toList_length d

theorem toList_getD (d : Line) (j : Fin 64) : d.toList.getD j.val 0 = d j := by
  have hj : j.val < d.toList.length := by rw [toList_length]; exact j.isLt
  rw [List.getD_eq_getElem _ _ hj, List.Vector.get_eq_get_toList]
  rfl

theorem ofList_toList {l : List Byte} (h : l.length = 64) : (ofList l).toList = l := by
  refine List.ext_getElem (by rw [toList_length, h]) fun k h1 h2 => ?_
  have hk : k < 64 := by omega
  have := toList_getD (ofList l) ⟨k, hk⟩
  rwa [List.getD_eq_getElem _ _ h1, ofList_apply, List.getD_eq_getElem _ _ h2] at this

theorem ofList_congr {l l' : List Byte} (h : l.take 64 = l'.take 64) : ofList l = ofList l' := by
  refine vec_ext fun j => ?_
  rw [ofList_apply, ofList_apply]
  have := congrArg (fun m => m.getD j.val 0) h
  simp only [List.getD_eq_getElem?_getD, List.getElem?_take, j.isLt, if_true] at this
  simpa only [List.getD_eq_getElem?_getD] using this

theorem ofList_take {l : List Byte} {k : Nat} (hk : k ≤ 64) (hl : k ≤ l.length) : (ofList l).toList.take k = l.take k := by
  refine List.ext_getElem (by simp [hk, hl]) fun m h1 h2 => ?_
  have hm : m < k := by simp at h2; omega
  have hd : m < (ofList l).toList.length := by rw [toList_length]; omega
  have := toList_getD (ofList l) ⟨m, by omega⟩
  rw [ofList_apply, List.getD_eq_getElem _ _ hd, List.getD_eq_getElem _ _ (show m < l.length by omega)] at this
  rwa [List.getElem_take, List.getElem_take]

theorem shl_or_shr (a b : Line) (k : Nat) :
    (a.shl k).or (b.shr (64 - k)) = ofList (a.toList.drop k ++ b.toList) := by
  refine vec_ext fun j => ?_
  have hl : (a.toList.drop k).length = 64 - k := by rw [List.length_drop, toList_length]
  simp only [or, vec_get, shl, shr, ofList_apply]
  rcases Nat.lt_or_ge j.val (64 - k) with hj | hj
  · rw [List.getD_append _ _ _ _ (by simpa using hj), List.getD_append _ _ _ _ (by omega)]
    simp [List.getD_eq_getElem?_getD, hj]
  · rw [List.getD_eq_default _ _ (by omega), List.getD_append_right _ _ _ _ (by simpa using hj),
      List.getD_append_right _ _ _ _ (by omega), hl, List.length_replicate]
    exact BitVec.zero_or

theorem or_ones (d : Line) {p : List Byte} (hp : p.length ≤ 64) (hd : d.toList.take p.length = p) :
    d.or (ones.shr p.length) = ofList (p ++ List.replicate (64 - p.length) 0xff) := by
  refine vec_ext fun j => ?_
  simp only [or, vec_get, shr, ofList_apply]
  rcases Nat.lt_or_ge j.val p.length with hj | hj
  · rw [List.getD_append _ _ _ _ (by simpa using hj), List.getD_append _ _ _ _ hj, ← toList_getD, ← hd]
    simp [List.getD_eq_getElem?_getD, hj]
  · have hones : ones.toList = List.replicate 64 0xff := by decide
    rw [List.getD_append_right _ _ _ _ (by simpa using hj), List.getD_append_right _ _ _ _ hj, hones,
      List.length_replicate]
    have h1 : j.val - p.length < 64 := by omega
    have h2 : j.val - p.length < 64 - p.length := by omega
    simp only [List.getD_eq_getElem?_getD, List.getElem?_replicate, h1, h2, if_true, Option.getD_some]
    exact BitVec.or_allOnes

end Line

/-! ## Packets of bytes -/

def lastFlit (sop : Bool) (p : List Byte) : PktFlit :=
  ⟨sop, true, BitVec.ofNat 6 (64 - p.length), .ofList (p ++ List.replicate (64 - p.length) 0xff)⟩

def cut (sop : Bool) (p : List Byte) : List PktFlit :=
  if p.length ≤ 64 then [lastFlit sop p] else ⟨sop, false, 0, .ofList p⟩ :: cut false (p.drop 64)
termination_by p.length
decreasing_by rw [List.length_drop]; omega

theorem cut_of_le {sop : Bool} {p : List Byte} (h : p.length ≤ 64) : cut sop p = [lastFlit sop p] := by
  rw [cut, if_pos h]

theorem cut_of_lt {sop : Bool} {p : List Byte} (h : 64 < p.length) :
    cut sop p = ⟨sop, false, 0, .ofList p⟩ :: cut false (p.drop 64) := by
  rw [cut, if_neg (by omega)]

/-- The flits `l` carry the bytes `p`: `eop` on the last flit only, `sop` (if wanted) on the first only, the
unused bytes of the last flit set. -/
structure IsPacket (sop : Bool) (p : List Byte) (l : List PktFlit) : Prop where
  ends : ∃ init e, l = init ++ [e] ∧ e.eop = true ∧ (∀ f ∈ init, f.eop = false ∧ f.empty = 0) ∧
    l.flatMap (·.data.toList) = p ++ List.replicate e.empty.toNat 0xff
  starts : ∃ f t, l = f :: t ∧ f.sop = sop ∧ ∀ g ∈ t, g.sop = false

theorem cut_isPacket {p : List Byte} (sop : Bool) (h0 : p ≠ []) : IsPacket sop p (cut sop p) := by
  induction hn : p.length using Nat.strong_induction_on generalizing p sop with
  | _ n ih =>
    have hpos := List.length_pos_iff.2 h0
    rcases Nat.lt_or_ge 64 p.length with hp | hp
    · obtain ⟨⟨init, e, hl, he, hi, hd⟩, ⟨f, t, hft, hf, ht⟩⟩ :=
        ih (p.drop 64).length (by rw [List.length_drop]; omega) false (List.ne_nil_of_length_pos (by simp; omega)) rfl
      rw [cut_of_lt hp]
      refine ⟨⟨⟨sop, false, 0, .ofList p⟩ :: init, e, by rw [hl]; rfl, he, ?_, ?_⟩, ⟨_, _, rfl, rfl, ?_⟩⟩
      · intro g hg
        rcases List.mem_cons.1 hg with rfl | hg
        · exact ⟨rfl, rfl⟩
        · exact hi g hg
      · have htk : (Line.ofList p).toList = p.take 64 := by
          have := Line.ofList_take (l := p) (Nat.le_refl 64) (by omega)
          rwa [List.take_of_length_le (by rw [Line.toList_length])] at this
        rw [List.flatMap_cons, hd, htk, ← List.append_assoc, List.take_append_drop]
      · intro g hg
        rw [hft] at hg
        rcases List.mem_cons.1 hg with rfl | hg
        · exact hf
        · exact ht g hg
    · rw [cut_of_le hp]
      refine ⟨⟨[], _, rfl, rfl, by simp, ?_⟩, ⟨_, _, rfl, rfl, by simp⟩⟩
      have he : (BitVec.ofNat 6 (64 - p.length)).toNat = 64 - p.length := by
        rw [BitVec.toNat_ofNat]
        omega
      simp only [List.flatMap_cons, List.flatMap_nil, List.append_nil, lastFlit, he]
      exact Line.ofList_toList (by simp; omega)

namespace Frame

def bytes (f : Frame) : List Byte := f.body.flatMap (·.toList) ++ f.last.toList.take (64 - f.empty.toNat)

def payload (f : Frame) : List Byte :=
  if f.info.prot = protUdp then f.bytes.drop 42 else last7 f.info.last7Bytes ++ f.bytes.drop 54

def packet (f : Frame) : List PktFlit := cut true f.payload

end Frame

theorem last7_length (x : BitVec 56) : (last7 x).length = 7 := by simp [last7]

namespace PktDataShift

theorem masked_last (sop : Bool) {e : BitVec 6} {p l : List Byte} (hlen : p.length + e.toNat = 64)
    (hl : l.take p.length = p) : masked ⟨sop, true, e, .ofList l⟩ = lastFlit sop p := by
  have hle : p.length ≤ l.length := by
    have := congrArg List.length hl
    rw [List.length_take] at this
    omega
  have he : BitVec.ofNat 6 (64 - p.length) = e := by
    rw [show 64 - p.length = e.toNat by omega, BitVec.ofNat_toNat, BitVec.setWidth_eq]
  have hn : 64 - e.toNat = p.length := by omega
  have hd : (Line.ofList l).toList.take p.length = p := by rw [Line.ofList_take (by omega) hle, hl]
  simp only [masked, lastFlit, if_true, he, hn, Line.or_ones _ (by omega : p.length ≤ 64) hd]

theorem addEmpty_toNat {e : BitVec 6} {r : Nat} (h : e.toNat + r < 64) : (addEmpty e r).toNat = e.toNat + r := by
  rw [addEmpty, BitVec.toNat_ofNat]
  omega

theorem masked_of_not_eop (sop : Bool) (e : BitVec 6) (d : Line) : masked ⟨sop, false, e, d⟩ = ⟨sop, false, e, d⟩ := rfl

def rmLen : ShiftState → Nat
  | .tcp | .tcpLast | .singleTcp => tcpRmLen
  | _ => udpHdrLen

def carry (s : PktDataShift) : List Byte :=
  match s.state with
  | .tcp =>
    if s.flitCnt = 0 then last7 s.last7Bytes ++ s.inPktDataR.toList.drop tcpHdrLen else s.inPktDataR.toList.drop tcpRmLen
  | _ => s.inPktDataR.toList.drop udpHdrLen

def lastState : ShiftState → ShiftState
  | .tcp => .tcpLast
  | _ => .udpLast

/-- A line that ends a frame does not fill the flit exactly, a frame has at most
65537 lines, and a frame of one line that starts right behind the last flit of
another has its `empty`; if it is not UDP, its payload is still on the bus. -/
def Open (s : PktDataShift) (i : ShiftIn) : Prop :=
  match s.state with
  | .first => True
  | .udp | .tcp =>
    i.pktValid = true → if i.pkt.eop then i.pkt.empty.toNat + rmLen s.state ≠ 64 else s.flitCnt ≠ 0xffff
  | st =>
    (starts i = true → i.pkt.eop = true → i.pkt.empty = s.inPktEmptyR) ∧
      (st = .singleTcp → (i.pkt.data.toList.drop tcpHdrLen).take (10 - s.inPktEmptyR.toNat) =
        (s.inPktDataR.toList.drop tcpHdrLen).take (10 - s.inPktEmptyR.toNat))

instance (s : PktDataShift) (i : ShiftIn) : Decidable (s.Open i) := by
  unfold Open
  split <;> infer_instance

variable {s : PktDataShift} {i : ShiftIn}

theorem carry_length (hs : s.state = .udp ∨ s.state = .tcp) : s.carry.length + rmLen s.state = 64 := by
  unfold carry rmLen
  rcases hs with hs | hs
  · simp [hs, udpHdrLen]
  · rw [hs]
    simp only
    split <;> simp [last7_length, tcpHdrLen, tcpRmLen]

theorem update_middle (hs : s.state = .udp ∨ s.state = .tcp) :
    s.update i = s.middle i (rmLen s.state) (lastState s.state) (.ofList (s.carry ++ i.pkt.data.toList)) := by
  rcases hs with hs | hs
  · simp only [update, hs, rmLen, lastState, udpData, Line.shl_or_shr, carry]
  · simp only [update, hs, rmLen, lastState, tcpData, carry]
    split <;> rfl

theorem open_middle (hs : s.state = .udp ∨ s.state = .tcp) (hv : i.pktValid = true) (ho : s.Open i) :
    if i.pkt.eop then i.pkt.empty.toNat + rmLen s.state ≠ 64 else s.flitCnt ≠ 0xffff := by
  unfold Open at ho
  rcases hs with hs | hs <;> simp only [hs] at ho ⊢ <;> exact ho hv

theorem middle_line (hs : s.state = .udp ∨ s.state = .tcp) (hv : i.pktValid = true) (he : i.pkt.eop = false)
    (ho : s.Open i) {t : List Byte} :
    cut (s.flitCnt == 0) (s.carry ++ (i.pkt.data.toList ++ t)) =
        masked (s.update i).tmp :: cut ((s.update i).flitCnt == 0) ((s.update i).carry ++ t) ∧
      (s.update i).state = s.state ∧ (s.update i).tmpValid = true := by
  have hc := carry_length hs
  have hr : rmLen s.state ≤ 47 := by rcases hs with hs | hs <;> simp [hs, rmLen, udpHdrLen, tcpRmLen]
  have hcnt : s.flitCnt ≠ 0xffff := by
    have := open_middle hs hv ho
    simpa [he] using this
  have hcnt' : s.flitCnt + 1 ≠ 0 := fun h => hcnt (by bv_omega)
  have hup : s.update i = { s with
      inPktDataR := i.pkt.data, tmpValid := true, flitCnt := s.flitCnt + 1,
      tmp := ⟨s.flitCnt == 0, false, 0, .ofList (s.carry ++ i.pkt.data.toList)⟩ } := by
    rw [update_middle hs]
    simp [middle, hv, he]
  have hcarry : (s.update i).carry = i.pkt.data.toList.drop (rmLen s.state) := by
    rw [hup]
    unfold carry rmLen
    rcases hs with hs | hs
    · simp only [hs]
    · simp only [hs, if_neg hcnt']
  have hlen := Line.toList_length i.pkt.data
  have hdrop : (s.carry ++ (i.pkt.data.toList ++ t)).drop 64 = i.pkt.data.toList.drop (rmLen s.state) ++ t := by
    rw [← List.append_assoc, List.drop_append_of_le_length (by rw [List.length_append]; omega), List.drop_append]
    have h1 : s.carry.drop 64 = [] := List.drop_eq_nil_of_le (by omega)
    have h2 : 64 - s.carry.length = rmLen s.state := by omega
    rw [h1, h2, List.nil_append]
  refine ⟨?_, by rw [hup], by rw [hup]⟩
  rw [cut_of_lt (by simp; omega), hdrop, hcarry, hup, masked_of_not_eop]
  refine congrArg₂ _ (congrArg _ (Line.ofList_congr ?_)) ?_
  · rw [← List.append_assoc, List.take_append_of_le_length (by rw [List.length_append]; omega)]
  · simp only [beq_eq_false_iff_ne.2 hcnt']

def owed (s : PktDataShift) : PktFlit := masked (s.finalFlit s.inPktDataR)

theorem middle_short (hs : s.state = .udp ∨ s.state = .tcp) (hv : i.pktValid = true) (he : i.pkt.eop = true)
    (hl : 64 < i.pkt.empty.toNat + rmLen s.state) :
    cut (s.flitCnt == 0) (s.carry ++ i.pkt.data.toList.take (64 - i.pkt.empty.toNat)) = [masked (s.update i).tmp] ∧
      (s.update i).state = .first ∧ (s.update i).tmpValid = true := by
  have hc := carry_length hs
  have hlen := Line.toList_length i.pkt.data
  have hlt := i.pkt.empty.isLt
  have hup : (s.update i).tmp = ⟨s.flitCnt == 0, true, BitVec.ofNat 6 (i.pkt.empty.toNat + rmLen s.state - 64),
      .ofList (s.carry ++ i.pkt.data.toList)⟩ ∧ (s.update i).state = .first ∧ (s.update i).tmpValid = true := by
    rw [update_middle hs]
    simp [middle, hv, he, hl]
  have htake : (i.pkt.data.toList.take (64 - i.pkt.empty.toNat)).length = 64 - i.pkt.empty.toNat := by simp
  refine ⟨?_, hup.2⟩
  rw [cut_of_le (by rw [List.length_append]; omega), hup.1]
  rw [masked_last _ (p := s.carry ++ i.pkt.data.toList.take (64 - i.pkt.empty.toNat))]
  · rw [List.length_append, htake, BitVec.toNat_ofNat]
    omega
  · rw [List.length_append, htake, List.take_length_add_append]

theorem middle_long (hs : s.state = .udp ∨ s.state = .tcp) (hv : i.pktValid = true) (he : i.pkt.eop = true)
    (hl : i.pkt.empty.toNat + rmLen s.state < 64) :
    cut (s.flitCnt == 0) (s.carry ++ i.pkt.data.toList.take (64 - i.pkt.empty.toNat)) =
        [masked (s.update i).tmp, (s.update i).owed] ∧
      (s.update i).state = lastState s.state ∧ (s.update i).tmpValid = true := by
  have hc := carry_length hs
  have hlen := Line.toList_length i.pkt.data
  have hup : s.update i = { s with
      inPktDataR := i.pkt.data, inPktEmptyR := i.pkt.empty, tmpValid := true, flitCnt := s.flitCnt + 1,
      state := lastState s.state, tmp := ⟨s.flitCnt == 0, false, 0, .ofList (s.carry ++ i.pkt.data.toList)⟩ } := by
    rw [update_middle hs]
    simp [middle, hv, he, Nat.not_lt.2 (Nat.le_of_lt hl)]
  have htake : (i.pkt.data.toList.take (64 - i.pkt.empty.toNat)).length = 64 - i.pkt.empty.toNat := by simp
  have hdrop : (s.carry ++ i.pkt.data.toList.take (64 - i.pkt.empty.toNat)).drop 64 =
      (i.pkt.data.toList.drop (rmLen s.state)).take (64 - i.pkt.empty.toNat - rmLen s.state) := by
    rw [List.drop_append, List.drop_eq_nil_of_le (by omega : s.carry.length ≤ 64), List.nil_append,
      show 64 - s.carry.length = rmLen s.state by omega, List.drop_take]
  have hdl : ((i.pkt.data.toList.drop (rmLen s.state)).take (64 - i.pkt.empty.toNat - rmLen s.state)).length =
      64 - i.pkt.empty.toNat - rmLen s.state := by
    rw [List.length_take, List.length_drop, hlen]
    omega
  refine ⟨?_, by rw [hup], by rw [hup]⟩
  rw [cut_of_lt (by rw [List.length_append]; omega), hdrop, cut_of_le (by rw [hdl]; omega), hup, masked_of_not_eop]
  refine congrArg₂ _ (congrArg _ (Line.ofList_congr ?_)) (congrArg₂ _ (Eq.symm ?_) rfl)
  · rw [List.take_append, List.take_append, List.take_take, Nat.min_eq_left (by omega)]
  · have hm : ∀ l, masked ⟨false, true, addEmpty i.pkt.empty (rmLen s.state), .ofList (i.pkt.data.toList.drop (rmLen s.state) ++ l)⟩ =
        lastFlit false ((i.pkt.data.toList.drop (rmLen s.state)).take (64 - i.pkt.empty.toNat - rmLen s.state)) := by
      intro l
      refine masked_last _ (by rw [hdl, addEmpty_toNat hl]; omega) ?_
      rw [hdl, List.take_append_of_le_length (by simp; omega)]
    unfold owed finalFlit lastState
    rcases hs with hs | hs
    · rw [← hm Line.ones.toList]
      simp only [hs, rmLen, Line.shl_or_shr]
    · rw [← hm (List.replicate tcpRmLen 0xff)]
      simp only [hs, rmLen]

theorem single_udp {e : BitVec 6} (he : e.toNat + udpHdrLen < 64) (d : Line) :
    masked ⟨true, true, addEmpty e udpHdrLen, d.shl udpHdrLen⟩ =
      lastFlit true ((d.toList.take (64 - e.toNat)).drop udpHdrLen) := by
  have hlen : ((d.toList.take (64 - e.toNat)).drop udpHdrLen).length = 64 - e.toNat - udpHdrLen := by simp
  refine masked_last _ (by rw [hlen, addEmpty_toNat he]; omega) ?_
  rw [hlen, List.drop_take]

theorem single_tcp {e : BitVec 6} (he : e.toNat ≤ 10) (x : BitVec 56) {d d' : Line} (l : List Byte)
    (hd : (d'.toList.drop tcpHdrLen).take (10 - e.toNat) = (d.toList.drop tcpHdrLen).take (10 - e.toNat)) :
    masked ⟨true, true, addEmpty e tcpRmLen, .ofList (last7 x ++ d'.toList.drop tcpHdrLen ++ l)⟩ =
      lastFlit true (last7 x ++ (d.toList.take (64 - e.toNat)).drop tcpHdrLen) := by
  have hl7 := last7_length x
  have hd' := Line.toList_length d'
  have h10 : 64 - e.toNat - tcpHdrLen = 10 - e.toNat := by simp only [tcpHdrLen]; omega
  have hlen : (last7 x ++ (d.toList.take (64 - e.toNat)).drop tcpHdrLen).length = 7 + (10 - e.toNat) := by
    rw [List.length_append, hl7, List.length_drop, List.length_take, Line.toList_length]
    simp only [tcpHdrLen]
    omega
  refine masked_last _ (by rw [hlen, addEmpty_toNat (by simp only [tcpRmLen]; omega)]; simp only [tcpRmLen]; omega) ?_
  rw [hlen, List.append_assoc, ← hl7, List.take_length_add_append,
    List.take_append_of_le_length (by rw [List.length_drop, hd']; simp only [tcpHdrLen]; omega), hd, List.drop_take, h10]

/-- Where the shifter is in a frame: the flits of it to come, and those still to be put out. -/
inductive Now (s : PktDataShift) : List PktFlit → List PktFlit → Prop
  | first (h : s.state = .first) : Now s [] []
  | middle (body : List Line) (last : Line) (e : BitVec 6) (h : s.state = .udp ∨ s.state = .tcp) :
    Now s (lineFlits false last e body)
      (cut (s.flitCnt == 0) (s.carry ++ (body.flatMap (·.toList) ++ last.toList.take (64 - e.toNat))))
  | final (h : s.state ≠ .first ∧ s.state ≠ .udp ∧ s.state ≠ .tcp)
    (he : s.state = .singleTcp → s.inPktEmptyR.toNat ≤ 10) : Now s [] [s.owed]

def emits (s : PktDataShift) (i : ShiftIn) : List PktFlit :=
  if (s.update i).tmpValid then [masked (s.update i).tmp] else []

theorem emits_of_valid (h : (s.update i).tmpValid = true) : s.emits i = [masked (s.update i).tmp] := by
  rw [emits, if_pos h]

theorem Now.step_middle (hs : s.state = .udp ∨ s.state = .tcp) (ho : s.Open i) (body : List Line) (last : Line)
    (e : BitVec 6) (hi : i.pktValid = true → (lineFlits false last e body).head? = some i.pkt) :
    ∃ rest, Now (s.update i) (if i.pktValid then (lineFlits false last e body).tail else lineFlits false last e body) rest ∧
      cut (s.flitCnt == 0) (s.carry ++ (body.flatMap (·.toList) ++ last.toList.take (64 - e.toNat))) =
        s.emits i ++ rest := by
  cases hv : i.pktValid with
  | false =>
    have hup : s.update i = { s with tmpValid := false, tmp := { s.tmp with sop := false, eop := false } } := by
      rw [update_middle hs]
      simp [PktDataShift.middle, hv]
    have hem : s.emits i = [] := by rw [emits, hup]; rfl
    rw [hup] at *
    exact ⟨_, .middle body last e hs, by rw [hem]; rfl⟩
  | true =>
    cases body with
    | nil =>
      have hp : i.pkt = ⟨false, true, e, last⟩ := (Option.some.inj (hi hv)).symm
      have he : i.pkt.eop = true := by rw [hp]
      have hopen := open_middle hs hv ho
      rw [if_pos he] at hopen
      rcases Nat.lt_or_gt_of_ne hopen with hl | hl
      · obtain ⟨h1, h2, h3⟩ := middle_long hs hv he hl
        refine ⟨[(s.update i).owed], .final ?_ ?_, ?_⟩
        · rw [h2]
          rcases hs with hs | hs <;> simp [hs, lastState]
        · rw [h2]
          rcases hs with hs | hs <;> simp [hs, lastState]
        · rw [emits_of_valid h3, List.singleton_append, ← h1, hp]
          rfl
      · obtain ⟨h1, h2, h3⟩ := middle_short hs hv he hl
        refine ⟨[], .first h2, ?_⟩
        rw [emits_of_valid h3, List.append_nil, ← h1, hp]
        rfl
    | cons b body =>
      have hp : i.pkt = ⟨false, false, 0, b⟩ := (Option.some.inj (hi hv)).symm
      have he : i.pkt.eop = false := by rw [hp]
      obtain ⟨h1, h2, h3⟩ := middle_line hs hv he ho (t := body.flatMap (·.toList) ++ last.toList.take (64 - e.toNat))
      refine ⟨_, .middle body last e (by rw [h2]; exact hs), ?_⟩
      rw [emits_of_valid h3, List.singleton_append, ← h1, hp, List.flatMap_cons, List.append_assoc]

theorem masked_finalFlit (hs : s.state ≠ .first ∧ s.state ≠ .udp ∧ s.state ≠ .tcp)
    (he : s.state = .singleTcp → s.inPktEmptyR.toNat ≤ 10) (ho : s.Open i) : masked (s.finalFlit i.pkt.data) = s.owed := by
  unfold owed finalFlit
  cases hst : s.state with
  | first => exact absurd hst hs.1
  | udp => exact absurd hst hs.2.1
  | tcp => exact absurd hst hs.2.2
  | udpLast | singleUdp | tcpLast => rfl
  | singleTcp =>
    simp only [Open, hst] at ho
    have h1 := single_tcp (he hst) s.last7Bytes [] (ho.2 trivial)
    have h2 := single_tcp (d := s.inPktDataR) (he hst) s.last7Bytes [] rfl
    rw [List.append_nil] at h1 h2
    exact h1.trans h2.symm

theorem Now.start_long {s : PktDataShift} {g : Frame} {b : Line} {body : List Line} (hb : g.body = b :: body)
    (hst : s.state = if g.info.prot = protUdp then .udp else .tcp) (hcnt : s.flitCnt = 0) (hd : s.inPktDataR = b)
    (hl7 : g.info.prot ≠ protUdp → s.last7Bytes = g.info.last7Bytes) : Now s g.flits.tail g.packet := by
  have hbl := Line.toList_length b
  have hmid : s.state = .udp ∨ s.state = .tcp := by rw [hst]; split <;> simp
  have hpay : g.payload = s.carry ++ (body.flatMap (·.toList) ++ g.last.toList.take (64 - g.empty.toNat)) := by
    unfold Frame.payload Frame.bytes carry
    rw [hb, List.flatMap_cons, List.append_assoc, hst, hd, List.drop_append_of_le_length (by omega),
      List.drop_append_of_le_length (by omega)]
    split
    · rfl
    · next hu => simp only [hl7 hu, List.append_assoc, tcpHdrLen]
  have := Now.middle body g.last g.empty hmid
  rw [← hpay, hcnt] at this
  rwa [Frame.flits, hb]

structure Heads (i : ShiftIn) (g : Frame) : Prop where
  pkt : g.flits.head? = some i.pkt
  info : i.metaData = g.info

theorem Heads.single {g : Frame} (h : Heads i g) (hb : g.body = []) : i.pkt = ⟨true, true, g.empty, g.last⟩ := by
  have := h.pkt
  rw [Frame.flits, hb] at this
  exact (Option.some.inj this).symm

theorem Heads.first_of_long {g : Frame} (h : Heads i g) {b : Line} {body : List Line} (hb : g.body = b :: body) :
    i.pkt = ⟨true, false, 0, b⟩ := by
  have := h.pkt
  rw [Frame.flits, hb] at this
  exact (Option.some.inj this).symm

theorem isUdp_eq {g : Frame} (h : Heads i g) : isUdp i = decide (g.info.prot = protUdp) := by
  rw [isUdp, h.info]
  exact Bool.beq_eq_decide_eq _ _

theorem packet_single {g : Frame} (hb : g.body = []) :
    g.packet = [lastFlit true g.payload] ∧
      (if g.info.prot = protUdp then g.empty.toNat + udpHdrLen < 64 else g.empty.toNat ≤ 10) ∧
      g.payload = if g.info.prot = protUdp then (g.last.toList.take (64 - g.empty.toNat)).drop udpHdrLen
        else last7 g.info.last7Bytes ++ (g.last.toList.take (64 - g.empty.toNat)).drop tcpHdrLen := by
  have hlong := g.long
  have hpay : g.payload = if g.info.prot = protUdp then (g.last.toList.take (64 - g.empty.toNat)).drop udpHdrLen
        else last7 g.info.last7Bytes ++ (g.last.toList.take (64 - g.empty.toNat)).drop tcpHdrLen := by
    simp [Frame.payload, Frame.bytes, hb, udpHdrLen, tcpHdrLen]
  rw [hb, List.length_nil] at hlong
  refine ⟨cut_of_le ?_, ?_, hpay⟩
  · rw [hpay]
    split <;> simp [last7_length, udpHdrLen, tcpHdrLen] <;> omega
  · split at hlong <;> rename_i hu
    · rw [if_pos hu]
      simp only [udpHdrLen]
      omega
    · rw [if_neg hu]
      omega

theorem Now.start_first {g : Frame} (hs : s.state = .first) (hst : starts i = true) (h : Heads i g) :
    ∃ rest, Now (s.update i) g.flits.tail rest ∧ g.packet = s.emits i ++ rest := by
  have hu := isUdp_eq h
  cases hb : g.body with
  | nil =>
    have hp := h.single hb
    obtain ⟨hpk, hlen, hpay⟩ := packet_single hb
    have htl : g.flits.tail = [] := by rw [Frame.flits, hb]; rfl
    refine ⟨[], ?_, ?_⟩
    · rw [htl]
      refine .first ?_
      rw [update, hs]
      simp only [PktDataShift.first, hst, hp, if_true]
      split <;> exact hs
    · rw [hpk, hpay, List.append_nil, emits, update, hs]
      simp only [PktDataShift.first, hst, hp, if_true, hu, h.info]
      by_cases hpr : g.info.prot = protUdp
      · simp only [hpr, decide_true, if_true]
        rw [if_pos hpr] at hlen
        rw [single_udp hlen]
      · simp only [hpr, decide_false, Bool.false_eq_true, if_false, if_true]
        rw [if_neg hpr] at hlen
        rw [single_tcp hlen _ (List.replicate tcpRmLen 0xff) (d := g.last) rfl]
  | cons b body =>
    have hp := h.first_of_long hb
    have hup : (s.update i).state = (if g.info.prot = protUdp then .udp else .tcp) ∧ (s.update i).flitCnt = 0 ∧
        (s.update i).inPktDataR = b ∧ (g.info.prot ≠ protUdp → (s.update i).last7Bytes = g.info.last7Bytes) ∧
        (s.update i).tmpValid = false := by
      simp only [update, hs, PktDataShift.first, hst, hp, hu, h.info]
      by_cases hpr : g.info.prot = protUdp <;> simp [hpr]
    obtain ⟨h1, h2, h3, h4, h5⟩ := hup
    exact ⟨g.packet, .start_long hb h1 h2 h3 h4, by simp [emits, h5]⟩

theorem Now.start_final {g : Frame} (hs : s.state ≠ .first ∧ s.state ≠ .udp ∧ s.state ≠ .tcp)
    (hst : starts i = true) (h : Heads i g) (ho : s.Open i) :
    ∃ rest, Now (s.update i) g.flits.tail rest ∧ g.packet = rest := by
  have hu := isUdp_eq h
  have hup : s.update i = s.final i (s.finalFlit i.pkt.data) := by
    unfold update
    cases hst : s.state <;> simp_all
  cases hb : g.body with
  | nil =>
    have hp := h.single hb
    obtain ⟨hpk, hlen, hpay⟩ := packet_single hb
    have htl : g.flits.tail = [] := by rw [Frame.flits, hb]; rfl
    have hemp : s.inPktEmptyR = g.empty := by
      have hpe : i.pkt.eop = true ∧ i.pkt.empty = g.empty := by simp [hp]
      have hoe : starts i = true → i.pkt.eop = true → i.pkt.empty = s.inPktEmptyR := by
        unfold Open at ho
        cases hst : s.state <;> simp_all
      rw [← hpe.2, hoe hst hpe.1]
    have hf : (s.update i).state = (if g.info.prot = protUdp then .singleUdp else .singleTcp) ∧
        (s.update i).inPktDataR = g.last ∧ (s.update i).inPktEmptyR = g.empty ∧
        (s.update i).last7Bytes = g.info.last7Bytes := by
      simp only [hup, PktDataShift.final, hst, hp, hu, h.info, hemp]
      by_cases hpr : g.info.prot = protUdp <;> simp [hpr]
    obtain ⟨h1, h2, h3, h4⟩ := hf
    refine ⟨[(s.update i).owed], ?_, ?_⟩
    · rw [htl]
      refine .final ?_ fun hsing => ?_
      · rw [h1]
        split <;> simp
      · by_cases hpr : g.info.prot = protUdp
        · simp [h1, hpr] at hsing
        · rw [h3]
          rwa [if_neg hpr] at hlen
    · rw [hpk, hpay, owed, finalFlit, h1, h2, h3, h4]
      by_cases hpr : g.info.prot = protUdp
      · rw [if_pos hpr] at hlen
        simp only [hpr, if_true]
        rw [single_udp hlen]
      · rw [if_neg hpr] at hlen
        have := single_tcp hlen g.info.last7Bytes [] (d := g.last) rfl
        rw [List.append_nil] at this
        simp only [hpr, if_false]
        rw [this]
  | cons b body =>
    have hp := h.first_of_long hb
    have hf : (s.update i).state = (if g.info.prot = protUdp then .udp else .tcp) ∧ (s.update i).flitCnt = 0 ∧
        (s.update i).inPktDataR = b ∧ (g.info.prot ≠ protUdp → (s.update i).last7Bytes = g.info.last7Bytes) := by
      simp only [hup, PktDataShift.final, hst, hp, hu, h.info]
      by_cases hpr : g.info.prot = protUdp <;> simp [hpr]
    obtain ⟨h1, h2, h3, h4⟩ := hf
    exact ⟨g.packet, .start_long hb h1 h2 h3 h4, rfl⟩

end PktDataShift

/-! ## Runs -/

namespace ShiftSys

def Open (s : ShiftSys) (i : ShiftTick) : Prop := s.core.Open (s.input i)

instance (s : ShiftSys) (i : ShiftTick) : Decidable (s.Open i) := by
  unfold Open
  infer_instance

def inFlight (s : ShiftSys) : List PktFlit :=
  (if s.core.outValid then [s.core.out] else []) ++ if s.core.tmpValid then [PktDataShift.masked s.core.tmp] else []

/-- The frames `gs` have not been started, and `rest` is to come for the one in work. -/
structure Stands (fs gs : List Frame) (cur rest : List PktFlit) (s : ShiftSys) : Prop where
  flits : s.flits = cur ++ gs.flatMap Frame.flits
  metas : s.metas = gs.map Frame.info
  now : s.core.Now cur rest
  stream : s.out ++ s.inFlight ++ rest ++ gs.flatMap Frame.packet = fs.flatMap Frame.packet

def Inv (fs : List Frame) (s : ShiftSys) : Prop := ∃ gs cur rest, Stands fs gs cur rest s

variable {fs gs : List Frame} {cur rest : List PktFlit} {s : ShiftSys} {i : ShiftTick}

theorem Inv.reset (fs : List Frame) : Inv fs (reset fs) :=
  ⟨fs, [], [], rfl, rfl, .first rfl, by simp [ShiftSys.reset, PktDataShift.reset, inFlight]⟩

theorem pkt_of_valid (h : (s.input i).pktValid = true) : s.flits.head? = some (s.input i).pkt := by
  simp only [input, Bool.and_eq_true, Bool.not_eq_true', List.isEmpty_eq_false_iff] at h ⊢
  rw [if_pos h.1]
  cases hf : s.flits with
  | nil => exact absurd hf h.2
  | cons f l => rfl

theorem flits_head (g : Frame) : ∃ f l, g.flits = f :: l ∧ f.sop = true := by
  unfold Frame.flits
  cases g.body with
  | nil => exact ⟨_, _, rfl, rfl⟩
  | cons b body => exact ⟨_, _, rfl, rfl⟩

theorem out_step (s : ShiftSys) (i : ShiftTick) :
    (s.step i).out ++ (s.step i).inFlight = s.out ++ s.inFlight ++ s.core.emits (s.input i) := by
  simp only [inFlight, step, PktDataShift.step, PktDataShift.emits]
  cases s.core.outValid <;> simp <;> rfl

theorem Stands.next {gs' : List Frame} {cur' rest' : List PktFlit} (h : Stands fs gs cur rest s)
    (hf : (s.step i).flits = cur' ++ gs'.flatMap Frame.flits) (hm : (s.step i).metas = gs'.map Frame.info)
    (hn : (s.core.update (s.input i)).Now cur' rest')
    (hr : rest ++ gs.flatMap Frame.packet = s.core.emits (s.input i) ++ rest' ++ gs'.flatMap Frame.packet) :
    Stands fs gs' cur' rest' (s.step i) := by
  refine ⟨hf, hm, ?_, ?_⟩
  · generalize hu : s.core.update (s.input i) = u at hn
    have hc : (s.step i).core = { u with
        outValid := s.core.tmpValid, out := PktDataShift.masked s.core.tmp,
        outMetaValid := (s.input i).metaValid && PktDataShift.inMetaReady (s.input i),
        outMetaData := (s.input i).metaData } := by
      rw [← hu]
      rfl
    rw [hc]
    cases hn with
    | first h => exact .first h
    | middle body last e h => exact .middle body last e h
    | final h he => exact .final h he
  · rw [out_step, List.append_assoc, List.append_assoc, ← List.append_assoc _ rest', ← hr, ← List.append_assoc, h.stream]

theorem Stands.step_middle (body : List Line) (last : Line) (e : BitVec 6)
    (hs : s.core.state = .udp ∨ s.core.state = .tcp) (h : Stands fs gs (lineFlits false last e body) rest s)
    (hrest : rest = cut (s.core.flitCnt == 0)
      (s.core.carry ++ (body.flatMap (·.toList) ++ last.toList.take (64 - e.toNat)))) (ho : s.Open i) : Inv fs (s.step i) := by
  obtain ⟨f, l, hfl, hsop⟩ : ∃ f l, lineFlits false last e body = f :: l ∧ f.sop = false := by
    cases body with
    | nil => exact ⟨_, _, rfl, rfl⟩
    | cons b body => exact ⟨_, _, rfl, rfl⟩
  have hhead : (s.input i).pktValid = true → (lineFlits false last e body).head? = some (s.input i).pkt := by
    intro hv
    rw [← pkt_of_valid hv, h.flits, hfl]
    rfl
  have hready : s.core.inPktReady (s.input i) = true := by
    unfold PktDataShift.inPktReady
    rcases hs with hs | hs <;> rw [hs]
  have hmeta : PktDataShift.inMetaReady (s.input i) = false := by
    unfold PktDataShift.inMetaReady
    cases hv : (s.input i).pktValid with
    | false => simp
    | true =>
      have := hhead hv
      rw [hfl] at this
      rw [← Option.some.inj this, hsop]
      rfl
  obtain ⟨rest', hnow, hcut⟩ := PktDataShift.Now.step_middle hs ho body last e hhead
  refine ⟨gs, _, rest', h.next ?_ ?_ hnow ?_⟩
  · simp only [step, hready, Bool.and_true, h.flits, hfl]
    cases (s.input i).pktValid <;> rfl
  · simp only [step, hmeta, Bool.and_false]
    exact h.metas
  · rw [hrest, hcut]

theorem Stands.starts (h : Stands fs gs [] rest s) (hs : s.core.state ≠ .udp ∧ s.core.state ≠ .tcp) :
    (PktDataShift.starts (s.input i) = false ∧ ((s.step i).flits = s.flits ∧ (s.step i).metas = s.metas) ∧
        (i.pkt = true → i.info = true → gs = [])) ∨
      ∃ g gs', gs = g :: gs' ∧ PktDataShift.starts (s.input i) = true ∧ PktDataShift.Heads (s.input i) g ∧
        (s.step i).flits = g.flits.tail ++ gs'.flatMap Frame.flits ∧ (s.step i).metas = gs'.map Frame.info := by
  have hfl := h.flits
  rw [List.nil_append] at hfl
  have hready : s.core.inPktReady (s.input i) = PktDataShift.proceed (s.input i) := by
    unfold PktDataShift.inPktReady
    cases hst : s.core.state <;> simp_all
  have hpro : PktDataShift.proceed (s.input i) = (s.input i).metaValid := by simp [PktDataShift.proceed, input]
  cases hv : (s.input i).pktValid with
  | false =>
    left
    refine ⟨by simp [PktDataShift.starts, hv], by simp [step, PktDataShift.inMetaReady, hv], fun hp _ => ?_⟩
    cases gs with
    | nil => rfl
    | cons g gs' =>
      obtain ⟨f, l, hg, _⟩ := flits_head g
      simp [input, hp, hfl, hg] at hv
  | true =>
    have hhead := pkt_of_valid hv
    cases gs with
    | nil => simp [hfl] at hhead
    | cons g gs' =>
      obtain ⟨f, l, hg, hsop⟩ := flits_head g
      have hpkt : (s.input i).pkt = f := by
        rw [hfl, List.flatMap_cons, hg] at hhead
        exact (Option.some.inj hhead).symm
      cases hm : (s.input i).metaValid with
      | false =>
        left
        refine ⟨by simp [PktDataShift.starts, hpro, hm], by simp [step, hready, hpro, hm], fun _ hi => ?_⟩
        simp [input, hi, h.metas] at hm
      | true =>
        refine .inr ⟨g, gs', rfl, ?_, ⟨?_, ?_⟩, ?_, ?_⟩
        · simp [PktDataShift.starts, hpro, hm, hv, hpkt, hsop]
        · rw [hg, hpkt]
          rfl
        · simp [input, h.metas]
        · simp [step, hv, hready, hpro, hm, hfl, hg]
        · simp [step, hm, PktDataShift.inMetaReady, hpkt, hsop, hv, h.metas]

theorem Inv.step (fs : List Frame) (s : ShiftSys) (i : ShiftTick) (h : Inv fs s) (ho : s.Open i) : Inv fs (s.step i) := by
  obtain ⟨gs, cur, rest, h⟩ := h
  cases hn : h.now with
  | middle body last e hs => exact h.step_middle body last e hs rfl ho
  | first hs =>
    rcases h.starts (i := i) (by simp [hs]) with ⟨hst, ⟨hf, hm⟩, _⟩ | ⟨g, gs', rfl, hst, hh, hf, hm⟩
    · refine ⟨gs, [], [], h.next (hf.trans h.flits) (hm.trans h.metas) (.first ?_) ?_⟩
      · simp [PktDataShift.update, hs, PktDataShift.first, hst]
      · simp [PktDataShift.emits, PktDataShift.update, hs, PktDataShift.first, hst]
    · obtain ⟨rest', hnow, hp⟩ := PktDataShift.Now.start_first hs hst hh
      exact ⟨gs', _, rest', h.next hf hm hnow (by rw [List.flatMap_cons, hp, List.nil_append])⟩
  | final hs he =>
    have hup : s.core.update (s.input i) = s.core.final (s.input i) (s.core.finalFlit (s.input i).pkt.data) := by
      unfold PktDataShift.update
      cases hst : s.core.state <;> simp_all
    have hem : s.core.emits (s.input i) = [s.core.owed] := by
      rw [← PktDataShift.masked_finalFlit hs he ho]
      simp only [PktDataShift.emits, hup, PktDataShift.final]
      split <;> rfl
    rcases h.starts (i := i) hs.2 with ⟨hst, ⟨hf, hm⟩, _⟩ | ⟨g, gs', rfl, hst, hh, hf, hm⟩
    · refine ⟨gs, [], [], h.next (hf.trans h.flits) (hm.trans h.metas) (.first ?_) ?_⟩
      · simp [hup, PktDataShift.final, hst]
      · simp [hem]
    · obtain ⟨rest', hnow, hp⟩ := PktDataShift.Now.start_final hs hst hh ho
      exact ⟨gs', _, rest', h.next hf hm hnow (by rw [List.flatMap_cons, hp, hem, List.append_assoc])⟩

/-! ### Delivery -/

/-- A flit and metadata are offered; `idle` is on the bus when there is none. -/
def served (idle : PktFlit) : ShiftTick := ⟨true, true, idle⟩

/-- A last flit is to be put out. -/
def ends (s : PktDataShift) : Nat :=
  match s.state with
  | .first | .udp | .tcp => 0
  | _ => 1

/-- The moves before the flits in the system. -/
def work (s : ShiftSys) : Nat :=
  6 * s.flits.length + 3 * ends s.core + 2 * s.core.tmpValid.toNat + s.core.outValid.toNat

theorem ends_le (s : PktDataShift) : ends s ≤ 1 := by
  unfold ends
  split <;> simp

theorem work_step (s : ShiftSys) (i : ShiftTick) :
    (s.step i).work = 6 * (s.step i).flits.length + 3 * ends (s.core.update (s.input i)) +
      2 * (s.core.update (s.input i)).tmpValid.toNat + s.core.tmpValid.toNat := rfl

theorem Inv.work_step (idle : PktFlit) (h : Inv fs s) :
    (s.step (served idle)).work < s.work ∨ s.out = fs.flatMap Frame.packet := by
  obtain ⟨gs, cur, rest, h⟩ := h
  have hw := ShiftSys.work_step s (served idle)
  have he := ends_le (s.core.update (s.input (served idle)))
  have ht := Bool.toNat_le (s.core.update (s.input (served idle))).tmpValid
  have hwork : s.work = 6 * s.flits.length + 3 * ends s.core + 2 * s.core.tmpValid.toNat + s.core.outValid.toNat := rfl
  cases hn : h.now with
  | middle body last e hs =>
    have hlen : (s.step (served idle)).flits.length + 1 = s.flits.length := by
      have hpos : s.flits ≠ [] := by
        rw [h.flits]
        cases body <;> simp [lineFlits]
      have hready : s.core.inPktReady (s.input (served idle)) = true := by
        unfold PktDataShift.inPktReady
        rcases hs with hs | hs <;> rw [hs]
      have hv : (s.input (served idle)).pktValid = true := by simp [input, served, hpos]
      have := List.length_pos_iff.2 hpos
      simp only [ShiftSys.step, hready, hv, Bool.and_self, if_true, List.length_tail]
      omega
    omega
  | first hs =>
    have hends : ends s.core = 0 := by simp [ends, hs]
    rcases h.starts (i := served idle) (by simp [hs]) with ⟨hst, ⟨hf, _⟩, hgs⟩ | ⟨g, gs', rfl, _, _, hf, _⟩
    · have hup : ends (s.core.update (s.input (served idle))) = 0 ∧
          (s.core.update (s.input (served idle))).tmpValid = false := by
        simp [PktDataShift.update, hs, PktDataShift.first, hst, ends]
      rw [hup.1, hup.2, hf] at hw
      cases hto : s.core.tmpValid || s.core.outValid with
      | true =>
        left
        cases ht : s.core.tmpValid <;> cases ho : s.core.outValid <;> simp_all
      | false =>
        right
        simp only [Bool.or_eq_false_iff] at hto
        have := h.stream
        simpa [inFlight, hto, hgs rfl rfl] using this
    · obtain ⟨f, l, hg, _⟩ := flits_head g
      have hlen : (s.step (served idle)).flits.length + 1 = s.flits.length := by
        rw [hf, h.flits, List.flatMap_cons, hg]
        simp
      omega
  | final hs _ =>
    have hends : ends s.core = 1 := by
      unfold ends
      cases hst : s.core.state <;> simp_all
    rcases h.starts (i := served idle) hs.2 with ⟨hst, ⟨hf, _⟩, _⟩ | ⟨g, gs', rfl, _, _, hf, _⟩
    · have hup : ends (s.core.update (s.input (served idle))) = 0 := by
        unfold PktDataShift.update
        cases hs' : s.core.state <;> simp_all [PktDataShift.final, ends]
      rw [hf] at hw
      omega
    · obtain ⟨f, l, hg, _⟩ := flits_head g
      have hlen : (s.step (served idle)).flits.length + 1 = s.flits.length := by
        rw [hf, h.flits, List.flatMap_cons, hg]
        simp
      omega

theorem Inv.out_prefix (h : Inv fs s) : s.out <+: fs.flatMap Frame.packet := by
  obtain ⟨gs, cur, rest, h⟩ := h
  rw [← h.stream, List.append_assoc, List.append_assoc]
  exact List.prefix_append _ _

/-- The packets of the frames come out in order, and all of them when the shifter is served. -/
structure Extracts (fs : List Frame) (s : ShiftSys) : Prop where
  packets : s.out <+: fs.flatMap Frame.packet
  delivered : ∀ m idle, s.work ≤ m → AllSteps step Open s (List.replicate m (served idle)) →
    (run step s (List.replicate m (served idle))).out = fs.flatMap Frame.packet

theorem Inv.extracts (h : Inv fs s) : Extracts fs s := by
  refine ⟨h.out_prefix, fun m idle hw ho => ?_⟩
  refine run_reaches ShiftSys.step (fun s => s.out = fs.flatMap Frame.packet) work (Inv.step fs)
    (fun s h => h.work_step idle) (fun s h hd => ?_) m h (.inl hw) ho
  refine h.out_prefix.eq_of_length_le ?_
  rw [← hd]
  simp only [ShiftSys.step]
  split <;> simp

end ShiftSys

theorem Frame.payload_ne_nil (f : Frame) : f.payload ≠ [] := by
  refine List.ne_nil_of_length_pos ?_
  have hlong := f.long
  have hbody : (f.body.flatMap (·.toList)).length = 64 * f.body.length := by
    induction f.body with
    | nil => rfl
    | cons b body ih =>
      rw [List.flatMap_cons, List.length_append, ih, Line.toList_length, List.length_cons]
      omega
  have hlen : f.bytes.length = 64 * f.body.length + (64 - f.empty.toNat) := by
    rw [Frame.bytes, List.length_append, hbody, List.length_take, Line.toList_length]
    omega
  unfold Frame.payload
  split
  · next hu =>
    rw [if_pos hu] at hlong
    rw [List.length_drop, hlen]
    omega
  · rw [List.length_append, last7_length]
    omega

/-- In every run whose steps are open the shifter puts out one packet with the payload of each frame. -/
theorem pktDataShift_extracts (fs : List Frame) (is : List ShiftTick)
    (ho : AllSteps ShiftSys.step ShiftSys.Open (.reset fs) is) :
    (∀ f ∈ fs, IsPacket true f.payload f.packet) ∧ ShiftSys.Extracts fs (run ShiftSys.step (.reset fs) is) :=
  ⟨fun f _ => cut_isPacket true f.payload_ne_nil, (run_inv _ (ShiftSys.Inv.step fs) is _ (.reset fs) ho).extracts⟩

/-! ## A last line that fills the flit, and a short frame behind a long one -/

def countLine (k : Nat) : Line := vec fun j => BitVec.ofNat 8 (j.val + k)

/-- Two lines of a UDP frame, `n` bytes empty. -/
def udpFrame (n : Fin 64) : Frame :=
  ⟨{ Metadata.zero with prot := protUdp }, [countLine 1], countLine 65, BitVec.ofFin n, by
    have := n.isLt
    simp
    omega⟩

def tcpFrame : Frame :=
  ⟨{ Metadata.zero with prot := protTcp, last7Bytes := 0x01020304050607 }, [], countLine 1, 4, by decide⟩

theorem pktDataShift_extracts_apart :
    ShiftSys.Extracts [udpFrame 0, tcpFrame] (run ShiftSys.step (.reset [udpFrame 0, tcpFrame])
        (List.replicate 2 (ShiftSys.served PktDataShift.zeroFlit) ++ [⟨false, false, PktDataShift.zeroFlit⟩] ++
          List.replicate 4 (ShiftSys.served PktDataShift.zeroFlit))) ∧
      (run ShiftSys.step (.reset [udpFrame 0, tcpFrame])
        (List.replicate 2 (ShiftSys.served PktDataShift.zeroFlit) ++ [⟨false, false, PktDataShift.zeroFlit⟩] ++
          List.replicate 4 (ShiftSys.served PktDataShift.zeroFlit))).out.length = 3 :=
  ⟨(pktDataShift_extracts _ _ (by decide +kernel)).2, by decide +kernel⟩

/-- A UDP frame whose last line has 42 bytes gets a flit too many, and of a TCP frame of one line right behind
another frame the payload is lost. -/
theorem pktDataShift_fullFlit :
    let s := run ShiftSys.step (.reset [udpFrame 22]) (List.replicate 6 (ShiftSys.served PktDataShift.zeroFlit))
    let t := run ShiftSys.step (.reset [udpFrame 0, tcpFrame]) (List.replicate 8 (ShiftSys.served PktDataShift.zeroFlit))
    (s.out.map PktFlit.eop = [false, true] ∧ ¬ ShiftSys.Extracts [udpFrame 22] s) ∧
      (t.out.length = 3 ∧ tcpFrame.packet = [lastFlit true tcpFrame.payload] ∧
        t.out.getLast? ≠ some (lastFlit true tcpFrame.payload)) := by
  have hs : (run ShiftSys.step (.reset [udpFrame 22]) (List.replicate 6 (ShiftSys.served PktDataShift.zeroFlit))).out.map
      PktFlit.eop = [false, true] := by decide +kernel
  refine ⟨⟨hs, fun he => ?_⟩, by decide +kernel, cut_of_le (by decide +kernel), by decide +kernel⟩
  have hp : (udpFrame 22).packet = [lastFlit true (udpFrame 22).payload] := cut_of_le (by decide +kernel)
  have hlen := he.packets.length_le
  have := congrArg List.length hs
  rw [List.length_map] at this
  rw [this] at hlen
  simp [hp] at hlen

end Pigasus
