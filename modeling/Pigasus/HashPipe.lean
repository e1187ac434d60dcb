import Pigasus.Unread
import Pigasus.Pipeline

/-!
# The lookups of the reassembler

The four hash pipelines and the metadata registers `m0` .. `m7` in front of the flow
table stop together. Whatever the stalls, metadata that are accepted come out beside
their four hashes, each once and in order, and the hash is that of lookup3.
-/

namespace Pigasus

open Hdl

/-! ## lookup3 -/

namespace Lookup3

def rot (x : BitVec 32) (k : Nat) : BitVec 32 := x <<< k ||| x >>> (32 - k)

/-- `hashword` of lookup3 for three words, one assignment after the other. -/
def hashword (k0 k1 k2 initval : BitVec 32) : BitVec 32 :=
  let a := 0xdeadbeef#32 + (3#32 <<< 2) + initval
  let b := a
  let c := a
  let c := c + k2
  let b := b + k1
  let a := a + k0
  -- final(a, b, c)
  let c := c ^^^ b
  let c := c - rot b 14
  let a := a ^^^ c
  let a := a - rot c 11
  let b := b ^^^ a
  let b := b - rot a 25
  let c := c ^^^ b
  let c := c - rot b 16
  let a := a ^^^ c
  let a := a - rot c 4
  let b := b ^^^ a
  let b := b - rot a 14
  let c := c ^^^ b
  c - rot b 24

/-- The hash of the key sIP, sPort, dIP, dPort, of which the word with dPort comes first. -/
def ofTuple (t : Tuple) (initval : BitVec 32) : BitVec 32 :=
  let k0 := BitVec.ofNat 32 (t.dIP.toNat % 2 ^ 16 * 2 ^ 16 + t.dPort.toNat)
  let k1 := BitVec.ofNat 32 (t.sPort.toNat * 2 ^ 16 + t.dIP.toNat / 2 ^ 16)
  let k2 := t.sIP
  hashword k0 k1 k2 initval

end Lookup3

theorem mix_eq (k : Nat) (hk : k < 32) (x y : BitVec 32) : HashFunc.mix k x y = (x ^^^ y) - Lookup3.rot y k := by
  rw [HashFunc.mix, Lookup3.rot, BitVec.rotateLeft, Nat.mod_eq_of_lt hk]
  rfl

theorem toNat_key (t : Tuple) : (HashFunc.key t).toNat =
    t.sIP.toNat * 2 ^ 64 + t.sPort.toNat * 2 ^ 48 + t.dIP.toNat * 2 ^ 16 + t.dPort.toNat := by
  have h1 := t.sPort.isLt
  have h2 := t.dIP.isLt
  have h3 := t.dPort.isLt
  rw [HashFunc.key, BitVec.toNat_append, BitVec.toNat_append, BitVec.toNat_append, ← Nat.shiftLeft_add_eq_or_of_lt h3,
    ← Nat.shiftLeft_add_eq_or_of_lt h2, ← Nat.shiftLeft_add_eq_or_of_lt h1]
  simp only [Nat.shiftLeft_eq]
  omega

theorem key_words (t : Tuple) :
    (HashFunc.key t).extractLsb' 0 32 = BitVec.ofNat 32 (t.dIP.toNat % 2 ^ 16 * 2 ^ 16 + t.dPort.toNat) ∧
      (HashFunc.key t).extractLsb' 32 32 = BitVec.ofNat 32 (t.sPort.toNat * 2 ^ 16 + t.dIP.toNat / 2 ^ 16) ∧
      (HashFunc.key t).extractLsb' 64 32 = t.sIP := by
  have h0 := t.sIP.isLt
  have h1 := t.sPort.isLt
  have h2 := t.dIP.isLt
  have h3 := t.dPort.isLt
  have hk := toNat_key t
  simp only [BitVec.toNat_eq, BitVec.extractLsb'_toNat, Nat.shiftRight_eq_div_pow, hk, BitVec.toNat_ofNat]
  omega

theorem hash_eq_lookup3 (initval : BitVec 32) (t : Tuple) : hash initval t = Lookup3.ofTuple t initval := by
  have hc : ∀ w : BitVec 32, 0xdeadbefb#32 + w + initval = 0xdeadbeef#32 + (3#32 <<< 2) + initval + w := by
    intro w
    have h0 : 0xdeadbeef#32 + (3#32 <<< 2) = 0xdeadbefb#32 := by decide
    rw [h0, BitVec.add_assoc, BitVec.add_comm w, ← BitVec.add_assoc]
  obtain ⟨h0, h1, h2⟩ := key_words t
  simp only [hash, HashFunc.final, HashFunc.stage6, HashFunc.stage5, HashFunc.stage4, HashFunc.stage3, HashFunc.stage2,
    HashFunc.stage1, HashFunc.load, h0, h1, h2, hc, mix_eq _ (show 14 < 32 by omega), mix_eq _ (show 11 < 32 by omega),
    mix_eq _ (show 25 < 32 by omega), mix_eq _ (show 16 < 32 by omega), mix_eq _ (show 4 < 32 by omega),
    mix_eq _ (show 24 < 32 by omega)]
  rfl

/-! ## The registers in front of the flow table -/

/-- One cycle: what is offered, whether the queues behind the fast path have room, and the stall. -/
structure LookupTick where
  data : Metadata
  valid : Bool
  room : Bool
  stall : Bool

namespace LookupTick

/-- Metadata for the flow table are taken. -/
def accepts (t : LookupTick) : Bool := t.valid && (t.room && !t.stall) && !Wrapper.fPkt t.data

def moves (t : LookupTick) : Bool := !t.stall

/-- What is to be looked up for the metadata of this cycle. -/
def lookup (iv : Fin 4 → BitVec 32) (t : LookupTick) : Option (Metadata × Vec (BitVec 32) 4) :=
  if t.accepts then some (t.data, vec fun k => Lookup3.ofTuple t.data.tuple (iv k)) else none

end LookupTick

/-- The four pipelines and `m0` .. `m7`. -/
structure LookupFront where
  hash : Vec HashFunc 4
  m : Vec Metadata 8

namespace LookupFront

def reset : LookupFront := ⟨vec fun _ => .reset, vec fun _ => .zero⟩

variable (iv : Fin 4 → BitVec 32) (s : LookupFront) (t : LookupTick)

def step : LookupFront where
  hash := vec fun k => (s.hash k).step t.stall (iv k) t.data.tuple t.accepts
  m := if t.stall then s.m else Wrapper.pipeStep s.m t.data

/-- The lookups that the flow table serves: `hashed_valid` in a cycle without stall, with `m7` and the four hashes. -/
def served : LookupFront → List LookupTick → List (Metadata × Vec (BitVec 32) 4)
  | _, [] => []
  | s, t :: ts =>
    (if (s.hash 0).hashedValid && t.moves then [(s.m 7, vec fun k => (s.hash k).hashed)] else []) ++ served (s.step iv t) ts

end LookupFront

/-! ## What is where -/

namespace LookupFront

/-- The metadata of `t` are in stage `k`, and valid there if they were accepted. -/
def At (k : Nat) (s : LookupFront) (t : LookupTick) : Prop :=
  ∀ h : k < 8, s.m ⟨k, h⟩ = t.data ∧ ∀ j, (s.hash j).validAt ⟨k, h⟩ = t.accepts

/-- The cycles without stall of the past, the last one first, fill the stages. -/
structure Tracks (iv : Fin 4 → BitVec 32) (s : LookupFront) (hist : List LookupTick) : Prop where
  stages : Delayed At hist s
  long : 8 ≤ hist.length
  words : ∀ j, HashOk (s.hash 0) (s.hash j) (iv j) s.m

variable {iv : Fin 4 → BitVec 32} {s : LookupFront} {t : LookupTick} {hist : List LookupTick}

theorem step_of_stall (h : t.stall = true) : s.step iv t = s := by
  have hh : (vec fun k => (s.hash k).step t.stall (iv k) t.data.tuple t.accepts) = s.hash := by
    apply vec_ext
    intro k
    simp [HashFunc.step, h]
  rw [step, hh, if_pos h]

theorem Tracks.step (h : Tracks iv s hist) (ht : t.stall = false) : Tracks iv (s.step iv t) (t :: hist) where
  stages := by
    apply h.stages.step
    · intro _
      refine ⟨?_, fun j => ?_⟩
      · simp only [LookupFront.step, ht, Wrapper.pipeStep, Bool.false_eq_true, if_false, vec_get, dif_pos]
      · simp only [LookupFront.step, ht, vec_get, HashFunc.validAt_step, if_pos]
    · intro k x hx hk
      obtain ⟨hm, hv⟩ := hx (by omega)
      refine ⟨by simp [LookupFront.step, ht, Wrapper.pipeStep, hm], fun j => ?_⟩
      simp only [LookupFront.step, ht, vec_get]
      rw [HashFunc.validAt_step, if_neg (Nat.succ_ne_zero k)]
      exact hv j
  long := by
    rw [List.length_cons]
    have := h.long
    omega
  words := by
    intro j
    simp only [LookupFront.step, vec_get]
    exact (h.words j).step _ _ _ _

theorem Tracks.last (h : Tracks iv s hist) {x : LookupTick} (hx : hist[7]? = some x) :
    s.m 7 = x.data ∧ (∀ j, (s.hash j).hashedValid = x.accepts) ∧
      (x.accepts = true → ∀ j, (s.hash j).hashed = Lookup3.ofTuple x.data.tuple (iv j)) := by
  have h7 := h.stages 7 x hx (by omega)
  have hm : s.m 7 = x.data := h7.1
  have hv : ∀ j, (s.hash j).hashedValid = x.accepts := h7.2
  refine ⟨hm, hv, fun ha j => ?_⟩
  have hh := (h.words j).hashed ((hv 0).trans ha)
  rw [hh, hm, hash_eq_lookup3]

theorem Tracks.reset : Tracks iv .reset (List.replicate 8 ⟨.zero, false, false, false⟩) where
  stages := by
    intro k x hx hk
    obtain rfl : x = ⟨.zero, false, false, false⟩ := List.eq_of_mem_replicate (List.mem_of_getElem? hx)
    refine ⟨by simp [LookupFront.reset], fun j => ?_⟩
    simp only [LookupFront.reset, vec_get]
    exact HashFunc.validAt_reset ⟨k, hk⟩
  long := by simp
  words := by
    intro j
    simp only [LookupFront.reset, vec_get]
    exact .reset _ _

theorem Tracks.run (ts : List LookupTick) {s : LookupFront} {hist : List LookupTick} (h : Tracks iv s hist) :
    Tracks iv (Hdl.run (LookupFront.step iv) s ts) ((ts.filter LookupTick.moves).reverse ++ hist) := by
  induction ts generalizing s hist with
  | nil => exact h
  | cons t ts ih =>
    rw [run_cons]
    cases ht : t.stall with
    | true =>
      rw [step_of_stall ht, List.filter_cons_of_neg (by simp [LookupTick.moves, ht])]
      exact ih h
    | false =>
      rw [List.filter_cons_of_pos (by simp [LookupTick.moves, ht]), List.reverse_cons, List.append_assoc]
      exact ih (h.step ht)

theorem Tracks.served_eq (ts : List LookupTick) {s : LookupFront} {hist : List LookupTick} (h : Tracks iv s hist) :
    served iv s ts = (((hist.take 8).reverse ++ ts.filter LookupTick.moves).take (ts.filter LookupTick.moves).length).filterMap
      (LookupTick.lookup iv) := by
  induction ts generalizing s hist with
  | nil => simp [served]
  | cons t ts ih =>
    rw [served]
    cases ht : t.stall with
    | true =>
      rw [step_of_stall ht, List.filter_cons_of_neg (by simp [LookupTick.moves, ht]), ih h]
      simp [LookupTick.moves, ht]
    | false =>
      obtain ⟨x, hx⟩ : ∃ x, hist[7]? = some x := ⟨_, List.getElem?_eq_getElem (by have := h.long; omega)⟩
      obtain ⟨hm, hv, hw⟩ := h.last hx
      have h8 : hist.take 8 = hist.take 7 ++ [x] := by rw [List.take_add_one, hx]; rfl
      have hout : (if (s.hash 0).hashedValid && t.moves then [(s.m 7, vec fun k => (s.hash k).hashed)] else []) =
          (x.lookup iv).toList := by
        rw [hv 0, LookupTick.lookup, LookupTick.moves, ht]
        cases ha : x.accepts with
        | false => rfl
        | true =>
          have he : (vec fun k => (s.hash k).hashed) = vec fun k => Lookup3.ofTuple x.data.tuple (iv k) := by
            apply vec_ext
            intro k
            rw [vec_get, vec_get, hw ha]
          simp [hm, he]
      rw [hout, ih (h.step ht), List.filter_cons_of_pos (by simp [LookupTick.moves, ht]), h8, List.take_succ_cons,
        List.reverse_append, List.reverse_cons, List.length_cons]
      simp only [List.reverse_singleton, List.nil_append, List.cons_append, List.take_succ_cons, List.append_assoc]
      rw [List.filterMap_cons]
      cases x.lookup iv <;> rfl

end LookupFront

/-! ## In the wrapper -/

namespace Wrapper

def lookupTick (s : Wrapper) (i : WrapIn) : LookupTick :=
  ⟨i.inMetaData, i.inMetaValid, !i.outMetaAlmostFull && !s.slow.oooAlmostFull, s.stall⟩

/-- The cycles of a run, seen from the lookup stage. -/
def lookupTicks : Wrapper → List WrapIn → List LookupTick
  | _, [] => []
  | s, i :: is => s.lookupTick i :: lookupTicks (s.step i) is

def lookupFront (s : Wrapper) : LookupFront := ⟨s.hash, s.m⟩

theorem tupleInValid_eq (s : Wrapper) (i : WrapIn) : s.tupleInValid i = (s.lookupTick i).accepts := by
  rw [tupleInValid, inMetaReady, LookupTick.accepts, lookupTick]
  cases hf : fPkt i.inMetaData <;> simp

theorem lookupFront_step (s : Wrapper) (i : WrapIn) :
    (s.step i).lookupFront = s.lookupFront.step (fun k => BitVec.ofNat 32 k.val) (s.lookupTick i) := by
  rw [lookupFront, step, LookupFront.step, tupleInValid_eq]
  rfl

theorem lookupFront_run (is : List WrapIn) (s : Wrapper) :
    (run step s is).lookupFront = run (LookupFront.step fun k => BitVec.ofNat 32 k.val) s.lookupFront (lookupTicks s is) := by
  induction is generalizing s with
  | nil => rfl
  | cons i is ih => rw [run_cons, ih, lookupFront_step, lookupTicks, run_cons]

theorem rdenA_eq (s : Wrapper) : s.fast.ft.rdenA s.ftIn = ((s.hash 0).hashedValid && !s.stall) := by
  have hs : s.fast.ft.ch1InsertStall s.ftIn = true → s.fast.ft.ch0RdStall s.ftIn = true := by
    intro h
    have hw : s.ftIn.ch1Wren = true := by
      simp only [FlowTable.ch1InsertStall, FlowTable.insert, Bool.and_eq_true] at h
      exact h.1.1.1
    simp [FlowTable.ch0RdStall, hw]
  have he : s.stall = s.fast.ft.ch0RdStall s.ftIn := by
    show (s.fast.ft.ch0RdStall s.ftIn || s.fast.ft.ch1InsertStall s.ftIn) = _
    cases h1 : s.fast.ft.ch1InsertStall s.ftIn with
    | false => exact Bool.or_false _
    | true => rw [hs h1]; rfl
  rw [he]
  rfl

end Wrapper

/-- For every stall pattern and all four initial values: the lookups that are served are the metadata that were accepted,
each once and in order, with their lookup3 hashes; metadata are in `m7`, beside four valid hashes, after seven further
cycles without stall. In the wrapper the flow table reads exactly the lookups that are served. -/
theorem lookups_aligned (iv : Fin 4 → BitVec 32) (ts : List LookupTick) :
    (LookupFront.served iv .reset ts =
        ((ts.filter LookupTick.moves).take ((ts.filter LookupTick.moves).length - 8)).filterMap (LookupTick.lookup iv)) ∧
      (∀ pre t post, ts = pre ++ t :: post → t.accepts = true → (post.filter LookupTick.moves).length = 7 →
        (run (LookupFront.step iv) .reset ts).m 7 = t.data ∧ ∀ j, ((run (LookupFront.step iv) .reset ts).hash j).hashedValid = true ∧
          ((run (LookupFront.step iv) .reset ts).hash j).hashed = Lookup3.ofTuple t.data.tuple (iv j)) ∧
      ∀ is : List WrapIn, (run Wrapper.step .reset is).lookupFront =
          run (LookupFront.step fun k => BitVec.ofNat 32 k.val) .reset (Wrapper.lookupTicks .reset is) ∧
        (run Wrapper.step .reset is).fast.ft.rdenA (run Wrapper.step .reset is).ftIn =
          (((run Wrapper.step .reset is).hash 0).hashedValid && !(run Wrapper.step .reset is).stall) := by
  refine ⟨?_, ?_, fun is => ⟨Wrapper.lookupFront_run is .reset, Wrapper.rdenA_eq _⟩⟩
  · have hq : ∀ n, (List.replicate n (⟨.zero, false, false, false⟩ : LookupTick)).filterMap (LookupTick.lookup iv) = [] := by
      intro n
      rw [List.filterMap_eq_nil_iff]
      intro x hx
      rw [List.eq_of_mem_replicate hx]
      rfl
    rw [LookupFront.Tracks.reset.served_eq ts, List.take_replicate, List.reverse_replicate, List.take_append,
      List.filterMap_append, List.take_replicate, hq, List.nil_append, List.length_replicate, Nat.min_self]
  · rintro pre t post rfl ha h7
    have hm : t.stall = false := by
      simp only [LookupTick.accepts, Bool.and_eq_true, Bool.not_eq_true'] at ha
      exact ha.1.2.2
    have h0 : LookupFront.Tracks iv .reset (List.replicate 8 ⟨.zero, false, false, false⟩) := .reset
    have h := h0.run (pre ++ t :: post)
    have hx : (((pre ++ t :: post).filter LookupTick.moves).reverse ++
        List.replicate 8 (⟨.zero, false, false, false⟩ : LookupTick))[7]? = some t := by
      rw [List.filter_append, List.filter_cons_of_pos (by simp [LookupTick.moves, hm]), List.reverse_append, List.reverse_cons,
        List.append_assoc, List.append_assoc, List.getElem?_append_right (by simp [h7])]
      simp [h7]
    obtain ⟨hd, hv, hw⟩ := h.last hx
    exact ⟨hd, fun j => ⟨(hv j).trans ha, hw ha j⟩⟩

end Pigasus
