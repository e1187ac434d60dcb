import Pigasus.FlowControlSound
import Pigasus.OnesComplement
import Pigasus.StreamMux
import Mathlib.Data.List.ReduceOption

/-!
# The header of an acknowledgement

`ack_gen` sends the first flit of a packet back with source and destination
exchanged. The word goes through the port `ack_out_data` in the layout of a frame,
so the fields are read from it as from the packet.
-/

namespace Pigasus

open Hdl

/-! ## Fields of a frame -/

def ethDstMac (x : BitVec 512) : BitVec 48 := x.extractLsb' 464 48
def ethSrcMac (x : BitVec 512) : BitVec 48 := x.extractLsb' 416 48
def ipSip (x : BitVec 512) : BitVec 32 := x.extractLsb' 272 32
def ipDip (x : BitVec 512) : BitVec 32 := x.extractLsb' 240 32

inductive IpField
  | version | ihl | dscp | ecn | len | id | flags | fo | ttl | prot | chsm
  deriving DecidableEq

namespace IpField

def lsb : IpField → Nat
  | version => 396
  | ihl => 392
  | dscp => 386
  | ecn => 384
  | len => 368
  | id => 352
  | flags => 349
  | fo => 336
  | ttl => 328
  | prot => 320
  | chsm => 304

def width : IpField → Nat
  | version => 4
  | ihl => 4
  | dscp => 6
  | ecn => 2
  | len => 16
  | id => 16
  | flags => 3
  | fo => 13
  | ttl => 8
  | prot => 8
  | chsm => 16

def get (f : IpField) (x : BitVec 512) : BitVec f.width := x.extractLsb' f.lsb f.width

end IpField

def ipWord (x : BitVec 512) (j : Nat) : Nat := (x.extractLsb' (384 - 16 * j) 16).toNat

def ipWords (x : BitVec 512) : List Nat := (List.range 10).map (ipWord x)

def ChecksumOk (x : BitVec 512) : Prop := OnesComplement.sum 16 (ipWords x) = 0xFFFF

instance (x : BitVec 512) : Decidable (ChecksumOk x) := inferInstanceAs (Decidable (_ = _))

/-- Ethernet with an IPv4 header of 20 bytes. -/
structure IsIpv4 (x : BitVec 512) : Prop where
  type : ethType x = 0x0800#16
  version : (IpField.version.get x).toNat = 4
  ihl : (IpField.ihl.get x).toNat = 5

instance (x : BitVec 512) : Decidable (IsIpv4 x) :=
  decidable_of_iff (ethType x = 0x0800#16 ∧ (IpField.version.get x).toNat = 4 ∧ (IpField.ihl.get x).toNat = 5)
    ⟨fun ⟨a, b, c⟩ => ⟨a, b, c⟩, fun ⟨a, b, c⟩ => ⟨a, b, c⟩⟩

/-! ## The word that is sent back -/

section
variable {m n : Nat} {hi : BitVec m} {lo : BitVec n}

theorem extract_high {k len : Nat} (h : n ≤ k) : (hi ++ lo).extractLsb' k len = hi.extractLsb' (k - n) len :=
  BitVec.extractLsb'_append_eq_of_le h

theorem extract_low {k len : Nat} (h : k + len ≤ n) : (hi ++ lo).extractLsb' k len = lo.extractLsb' k len :=
  BitVec.extractLsb'_append_eq_of_add_le h

end

section
variable (x : BitVec 512) (data : BitVec 32)

theorem extract_ackPkt (h : BitVec 336) {k len : Nat} (hk : 176 ≤ k) :
    (ackPkt h data).extractLsb' k len = h.extractLsb' (k - 176) len := by
  have hs : (h ++ data ++ 0#144 : BitVec (336 + 32 + 144)).extractLsb' k len = h.extractLsb' (k - 176) len := by
    rw [extract_high (by omega), extract_high (by omega), Nat.sub_sub]
  exact hs

/-- The addresses in the order of the acknowledgement. -/
def ackEth : BitVec (48 + 48 + 16) := ethSrcMac x ++ ethDstMac x ++ ethType x

/-- The words in front of the addresses; of the checksum only eight bits come through. -/
def ackIp : BitVec (80 + 16) := x.extractLsb' 320 80 ++ (x.extractLsb' 304 8).setWidth 16

def ackUdp : BitVec (16 + 16 + 32) := ackPktPort ++ udpSport x ++ x.extractLsb' 176 32

def ackHdr : BitVec (112 + 96 + 32 + 32 + 64) := ackEth x ++ ackIp x ++ ipDip x ++ ipSip x ++ ackUdp x

theorem hdr_eq : AckGen.hdr x = ackHdr x := by
  have hd : (x.extractLsb' 256 16 ++ x.extractLsb' 240 16 : BitVec (16 + 16)) = ipDip x :=
    BitVec.extractLsb'_append_extractLsb'_eq_extractLsb' rfl
  unfold ackHdr
  rw [← hd]
  rfl

variable {k len : Nat}

theorem extract_ack (hk : 176 ≤ k) : (ackPkt (AckGen.hdr x) data).extractLsb' k len = (ackHdr x).extractLsb' (k - 176) len := by
  rw [extract_ackPkt _ _ hk, hdr_eq]

theorem ack_eth (hk : 400 ≤ k) : (ackPkt (AckGen.hdr x) data).extractLsb' k len = (ackEth x).extractLsb' (k - 400) len := by
  rw [extract_ack x data (by omega), ackHdr, extract_high (by omega), extract_high (by omega), extract_high (by omega),
    extract_high (by omega)]
  simp only [Nat.sub_sub]

theorem ack_ip (hk : 304 ≤ k) (hl : k + len ≤ 400) :
    (ackPkt (AckGen.hdr x) data).extractLsb' k len = (ackIp x).extractLsb' (k - 304) len := by
  rw [extract_ack x data (by omega), ackHdr, extract_high (by omega), extract_high (by omega), extract_high (by omega),
    extract_low (by omega)]
  simp only [Nat.sub_sub]

theorem ack_sip (hk : 272 ≤ k) (hl : k + len ≤ 304) :
    (ackPkt (AckGen.hdr x) data).extractLsb' k len = (ipDip x).extractLsb' (k - 272) len := by
  rw [extract_ack x data (by omega), ackHdr, extract_high (by omega), extract_high (by omega), extract_low (by omega)]
  simp only [Nat.sub_sub]

theorem ack_dip (hk : 240 ≤ k) (hl : k + len ≤ 272) :
    (ackPkt (AckGen.hdr x) data).extractLsb' k len = (ipSip x).extractLsb' (k - 240) len := by
  rw [extract_ack x data (by omega), ackHdr, extract_high (by omega), extract_low (by omega)]
  simp only [Nat.sub_sub]

theorem ack_same (hk : 320 ≤ k) (hl : k + len ≤ 400) : (ackPkt (AckGen.hdr x) data).extractLsb' k len = x.extractLsb' k len := by
  rw [ack_ip x data (by omega) hl, ackIp, extract_high (by omega), extract_extract x (by omega),
    show 320 + (k - 304 - 16) = k by omega]

theorem extract_chsm : (ackPkt (AckGen.hdr x) data).extractLsb' 304 16 = (x.extractLsb' 304 8).setWidth 16 := by
  rw [ack_ip x data (by omega) (by omega), ackIp, extract_low (by omega)]
  exact BitVec.extractLsb'_eq_self

theorem ack_chsm (h : x.extractLsb' 312 8 = 0#8) : (ackPkt (AckGen.hdr x) data).extractLsb' 304 16 = x.extractLsb' 304 16 := by
  rw [extract_chsm]
  apply BitVec.eq_of_getLsbD_eq
  intro i hi
  by_cases h8 : i < 8
  · simp [h8, hi]
  · -- a bit of the upper half
    have hb := congrArg (·.getLsbD (i - 8)) h
    have hi8 : i - 8 < 8 := by omega
    have hadd : 312 + (i - 8) = 304 + i := by omega
    simp only [BitVec.getLsbD_extractLsb', hi8, decide_true, Bool.true_and, hadd, BitVec.getLsbD_zero] at hb
    simp [h8, hi, hb]

theorem upper_of_chsm (h : (ackPkt (AckGen.hdr x) data).extractLsb' 304 16 = x.extractLsb' 304 16) : x.extractLsb' 312 8 = 0#8 := by
  rw [extract_chsm] at h
  apply BitVec.eq_of_getLsbD_eq
  intro i hi
  have hb := congrArg (·.getLsbD (i + 8)) h
  have hi16 : i + 8 < 16 := by omega
  have hlow : ¬ i + 8 < 8 := by omega
  have hadd : 304 + (i + 8) = 312 + i := by omega
  simp only [BitVec.getLsbD_setWidth, BitVec.getLsbD_extractLsb', hi16, hlow, decide_true, decide_false, Bool.true_and,
    Bool.false_and, hadd] at hb
  simp [hi, ← hb]

/-! ## Fields and checksum -/

theorem ethDstMac_ack : ethDstMac (ackPkt (AckGen.hdr x) data) = ethSrcMac x := by
  rw [ethDstMac, ack_eth x data (by omega), ackEth, extract_high (by omega), extract_high (by omega)]
  exact BitVec.extractLsb'_eq_self

theorem ethSrcMac_ack : ethSrcMac (ackPkt (AckGen.hdr x) data) = ethDstMac x := by
  rw [ethSrcMac, ack_eth x data (by omega), ackEth, extract_high (by omega), extract_low (by omega)]
  exact BitVec.extractLsb'_eq_self

theorem ethType_ack : ethType (ackPkt (AckGen.hdr x) data) = ethType x := by
  rw [ethType, ack_eth x data (by omega), ackEth, extract_low (by omega)]
  exact BitVec.extractLsb'_eq_self

theorem ipSip_ack : ipSip (ackPkt (AckGen.hdr x) data) = ipDip x := by
  rw [ipSip, ack_sip x data (by omega) (by omega)]
  exact BitVec.extractLsb'_eq_self

theorem ipDip_ack : ipDip (ackPkt (AckGen.hdr x) data) = ipSip x := by
  rw [ipDip, ack_dip x data (by omega) (by omega)]
  exact BitVec.extractLsb'_eq_self

theorem get_ack (h : x.extractLsb' 312 8 = 0#8) (f : IpField) : f.get (ackPkt (AckGen.hdr x) data) = f.get x := by
  cases f
  case chsm => exact ack_chsm x data h
  all_goals exact ack_same x data (by decide) (by decide)

theorem ipWord_ack {j : Nat} (hj : j < 5) : ipWord (ackPkt (AckGen.hdr x) data) j = ipWord x j := by
  rw [ipWord, ack_same x data (by omega) (by omega), ipWord]

theorem ipWord_ack_addr : ipWord (ackPkt (AckGen.hdr x) data) 6 = ipWord x 8 ∧ ipWord (ackPkt (AckGen.hdr x) data) 7 = ipWord x 9 ∧
    ipWord (ackPkt (AckGen.hdr x) data) 8 = ipWord x 6 ∧ ipWord (ackPkt (AckGen.hdr x) data) 9 = ipWord x 7 := by
  unfold ipWord
  refine ⟨?_, ?_, ?_, ?_⟩
  · rw [ack_sip x data (by omega) (by omega), ipDip, extract_extract x (by omega)]
  · rw [ack_sip x data (by omega) (by omega), ipDip, extract_extract x (by omega)]
  · rw [ack_dip x data (by omega) (by omega), ipSip, extract_extract x (by omega)]
  · rw [ack_dip x data (by omega) (by omega), ipSip, extract_extract x (by omega)]

theorem ipWords_eq (y : BitVec 512) : ipWords y =
    [ipWord y 0, ipWord y 1, ipWord y 2, ipWord y 3, ipWord y 4, ipWord y 5] ++
      ([ipWord y 6, ipWord y 7] ++ [ipWord y 8, ipWord y 9]) := rfl

theorem ipWords_perm (h : x.extractLsb' 312 8 = 0#8) : (ipWords (ackPkt (AckGen.hdr x) data)).Perm (ipWords x) := by
  have h5 : ipWord (ackPkt (AckGen.hdr x) data) 5 = ipWord x 5 := congrArg BitVec.toNat (ack_chsm x data h)
  obtain ⟨h6, h7, h8, h9⟩ := ipWord_ack_addr x data
  rw [ipWords_eq, ipWords_eq, h5, h6, h7, h8, h9]
  simp only [ipWord_ack x data (by decide : 0 < 5), ipWord_ack x data (by decide : 1 < 5), ipWord_ack x data (by decide : 2 < 5),
    ipWord_ack x data (by decide : 3 < 5), ipWord_ack x data (by decide : 4 < 5)]
  exact List.perm_append_comm.append_left _

theorem checksumOk_ack (h : x.extractLsb' 312 8 = 0#8) (hs : ChecksumOk x) : ChecksumOk (ackPkt (AckGen.hdr x) data) := by
  have hlt : ∀ w ∈ ipWords x, w < 2 ^ 16 := by
    intro w hw
    obtain ⟨j, -, rfl⟩ := List.mem_map.mp hw
    exact BitVec.isLt _
  unfold ChecksumOk
  rw [OnesComplement.sum_perm (by decide) hlt (ipWords_perm x data h)]
  exact hs

theorem isIpv4_ack (h : IsIpv4 x) : IsIpv4 (ackPkt (AckGen.hdr x) data) := by
  refine ⟨(ethType_ack x data).trans h.type, ?_, ?_⟩
  · rw [← h.version]
    exact congrArg BitVec.toNat (ack_same x data (by decide) (by decide))
  · rw [← h.ihl]
    exact congrArg BitVec.toNat (ack_same x data (by decide) (by decide))

end

/-! ## One packet through `ack_gen` -/

namespace AckGen

theorem udpHdr_run : ∀ (is : List (Option Flit512)) (s : AckGen), (∀ f ∈ is.reduceOption, f.sop = false) →
    (run step s is).udpHdr = s.udpHdr
  | [], _, _ => rfl
  | none :: is, s, h => by
    rw [run_cons, udpHdr_run is _ h]
    rfl
  | some f :: is, s, h => by
    rw [List.reduceOption_cons_of_some] at h
    rw [run_cons, udpHdr_run is _ fun g hg => h g (List.mem_cons_of_mem _ hg)]
    simp [step, h f List.mem_cons_self]

theorem udpHdr_packet : ∀ (is : List (Option Flit512)) (s : AckGen) (f : Flit512) (l : List Flit512), is.reduceOption = f :: l →
    f.sop = true → (∀ g ∈ l, g.sop = false) → (run step s is).udpHdr = hdr f.data
  | [], _, _, _, h, _, _ => by simp at h
  | none :: is, s, f, l, h, hf, hl => udpHdr_packet is (s.step none) f l h hf hl
  | some g :: is, s, f, l, h, hf, hl => by
    rw [List.reduceOption_cons_of_some] at h
    obtain ⟨rfl, rfl⟩ := List.cons.inj h
    rw [run_cons, udpHdr_run is _ hl]
    simp [step, hf]

end AckGen

/-- The header that should answer `x`: the addresses exchanged, every other field as it was, and a right checksum. -/
structure AckOf (x ack : BitVec 512) : Prop where
  dstMac : ethDstMac ack = ethSrcMac x
  srcMac : ethSrcMac ack = ethDstMac x
  sip : ipSip ack = ipDip x
  dip : ipDip ack = ipSip x
  fields : ∀ g : IpField, g.get ack = g.get x
  ipv4 : IsIpv4 ack
  checksum : ChecksumOk ack

theorem ackOf_iff {x : BitVec 512} (data : BitVec 32) (hip : IsIpv4 x) (hsum : ChecksumOk x) :
    AckOf x (ackPkt (AckGen.hdr x) data) ↔ x.extractLsb' 312 8 = 0#8 := by
  constructor
  · intro h
    exact upper_of_chsm x data (h.fields .chsm)
  · intro hc
    exact ⟨ethDstMac_ack _ _, ethSrcMac_ack _ _, ipSip_ack _ _, ipDip_ack _ _, get_ack _ _ hc, isIpv4_ack _ _ hip,
      checksumOk_ack _ _ hc hsum⟩

/-- A packet is acknowledged after its last flit, and the header is right exactly when the checksum of the packet is below
256. The packet may come with pauses and behind anything. -/
theorem ackHeader_wellFormed (s : AckGen) (p : UserPkt) (is : List (Option Flit512)) (hp : is.reduceOption = p.flits)
    (hend : is.getLast? = some (some p.last)) (f : Flit512) (hf : p.flits.head? = some f) (hip : IsIpv4 f.data)
    (hsum : ChecksumOk f.data) :
    let s' := run AckGen.step s is
    s'.ackValid = true ∧ (AckOf f.data (ackPkt s'.udpHdr s'.data) ↔ f.data.extractLsb' 312 8 = 0#8) := by
  intro s'
  obtain ⟨l, hl⟩ : ∃ l, p.flits = f :: l := by
    cases hfl : p.flits with
    | nil => simp [hfl] at hf
    | cons g l => exact ⟨l, by rw [hfl] at hf; rw [← Option.some.inj hf]⟩
  have hhdr : s'.udpHdr = AckGen.hdr f.data := by
    apply AckGen.udpHdr_packet is s f l (hp.trans hl)
    · exact (p.sop [] f l hl).mpr rfl
    · intro g hg
      obtain ⟨a, b, rfl⟩ := List.append_of_mem hg
      have := p.sop (f :: a) g b hl
      simpa using this
  have hvalid : s'.ackValid = true := by
    obtain ⟨init, rfl⟩ := List.getLast?_eq_some_iff.mp hend
    show (run AckGen.step s (init ++ [some p.last])).ackValid = true
    rw [run_append]
    exact p.last_mark
  refine ⟨hvalid, ?_⟩
  rw [hhdr]
  exact ackOf_iff _ hip hsum

/-- A header to 172.16.10.12 with the given words for the identification and the checksum. -/
def ipv4Flit (id chsm : BitVec 16) : BitVec 512 :=
  (0x112233445566AABBCCDDEEFF08004500003C#144 ++ id ++ 0x40004006#32 ++ chsm ++ 0xAC100A63AC100A0C#64 ++ 0#240 :
    BitVec (144 + 16 + 32 + 16 + 64 + 240))

theorem ackHeader_wellFormed_low :
    let x := ipv4Flit 0xCD46 0x00E6
    let s' := run AckGen.step .reset [none, some ⟨x, true, true, 0⟩]
    IsIpv4 x ∧ ipSip x ≠ ipDip x ∧ AckOf x (ackPkt s'.udpHdr s'.data) :=
  ⟨by decide +kernel, by decide +kernel,
    (ackHeader_wellFormed .reset (.single (ipv4Flit 0xCD46 0x00E6) 0) [none, some ⟨ipv4Flit 0xCD46 0x00E6, true, true, 0⟩] rfl rfl
      ⟨ipv4Flit 0xCD46 0x00E6, true, true, 0⟩ rfl (by decide +kernel) (by decide +kernel)).2.2 (by decide +kernel)⟩

/-- The upper half of the checksum is lost. -/
theorem ackHeader_truncated :
    let x := ipv4Flit 0x1C46 0xB1E6
    let s' := run AckGen.step .reset [some ⟨x, true, true, 0⟩]
    let ack := ackPkt s'.udpHdr s'.data
    IsIpv4 x ∧ ChecksumOk x ∧ s'.ackValid = true ∧ (IpField.chsm.get x).toNat = 0xB1E6 ∧ (IpField.chsm.get ack).toNat = 0x00E6 ∧
      ¬ ChecksumOk ack := by
  decide +kernel

end Pigasus
