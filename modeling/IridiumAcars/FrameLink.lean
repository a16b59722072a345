import IridiumAcars.Crc16
import IridiumAcars.FramePdu

/-! The inter-chip wire frame of frame_link.c. Decoding returns what is left in the caller's struct.
-/
namespace IridiumAcars.FrameLink
open LittleEndian FramePdu Crc16 List

def frameLinkMagic : Nat := 0x1D5A
def frameLinkVer : UInt8 := 1
def frameLinkHdrBytes : Nat := 4
def frameLinkCrcBytes : Nat := 2
def frameLinkFrameSize : Nat := frameLinkHdrBytes+framePduWireSize+frameLinkCrcBytes

def frameLinkCrc16 (data : List UInt8) : Nat := crc16CcittFalse data

theorem frameLinkCrc16_lt (data : List UInt8) : frameLinkCrc16 data < 2^16 :=
  crc16CcittFalse_lt data

def magicLow : UInt8 := UInt8.ofNat (frameLinkMagic &&& 0xFF)
def magicHigh : UInt8 := UInt8.ofNat (frameLinkMagic >>> 8)

def frameLinkEncode (pdu : IridiumFramePdu) (buflen : Nat) : List UInt8 :=
  if buflen < frameLinkFrameSize then []
  else
    let payload := framePduPack pdu (buflen-frameLinkHdrBytes)
    if payload.length ≠ framePduWireSize then []
    else
      let crc := frameLinkCrc16 ([frameLinkVer, 0]++payload)
      [magicLow, magicHigh, frameLinkVer, 0]++payload++
        [UInt8.ofNat (crc &&& 0xFF), UInt8.ofNat (crc >>> 8)]

/-- The verdict, and `*pdu` afterwards. -/
def frameLinkDecode (buf : List UInt8) (pdu : IridiumFramePdu) : Bool × IridiumFramePdu :=
  if buf.length < frameLinkFrameSize then (false, pdu)
  else if getU8 buf 0 ≠ magicLow ∨ getU8 buf 1 ≠ magicHigh then (false, pdu)
  else if getU8 buf 2 ≠ frameLinkVer then (false, pdu)
  else if (getU16 buf (frameLinkHdrBytes+framePduWireSize)).toNat ≠
      frameLinkCrc16 (window buf 2 (frameLinkHdrBytes-2+framePduWireSize)) then (false, pdu)
  else
    -- unpacked in place, before the range of `n_bits` is looked at
    let read := framePduUnpack (window buf frameLinkHdrBytes framePduWireSize) pdu
    if read.1 ≠ framePduWireSize then (false, read.2)
    else if read.2.nBits.toNat > framePduMaxBits then (false, read.2)
    else (true, read.2)

def Framed (buf : List UInt8) : Prop :=
  frameLinkFrameSize ≤ buf.length ∧ getU8 buf 0 = magicLow ∧ getU8 buf 1 = magicHigh ∧
    getU8 buf 2 = frameLinkVer ∧ (getU16 buf (frameLinkHdrBytes+framePduWireSize)).toNat =
      frameLinkCrc16 (window buf 2 (frameLinkHdrBytes-2+framePduWireSize))

instance (buf : List UInt8) : Decidable (Framed buf) :=
  inferInstanceAs (Decidable (_ ∧ _ ∧ _ ∧ _ ∧ _))

def payload (buf : List UInt8) : List UInt8 := window buf frameLinkHdrBytes framePduWireSize

def nBitsField (buf : List UInt8) : Nat := (getU16 (payload buf) 22).toNat

theorem length_payload {buf : List UInt8} (h : Framed buf) :
    (payload buf).length = framePduWireSize := by
  have hl : 98 ≤ buf.length := h.1
  exact length_window _ _ _ (le_trans (by decide) hl)

theorem nBits_unpack {buf : List UInt8} (pdu : IridiumFramePdu) (h : Framed buf) :
    (framePduUnpack (payload buf) pdu).2.nBits.toNat = nBitsField buf := by
  have hl := length_payload h
  rw [framePduUnpack, if_neg (by omega), nBitsField]

theorem frameLinkDecode_of_not_framed (buf : List UInt8) (pdu : IridiumFramePdu)
    (h : ¬Framed buf) : frameLinkDecode buf pdu = (false, pdu) := by
  rw [frameLinkDecode]
  by_cases hl : buf.length < frameLinkFrameSize
  · rw [if_pos hl]
  by_cases hm : getU8 buf 0 ≠ magicLow ∨ getU8 buf 1 ≠ magicHigh
  · rw [if_neg hl, if_pos hm]
  by_cases hv : getU8 buf 2 ≠ frameLinkVer
  · rw [if_neg hl, if_neg hm, if_pos hv]
  rw [if_neg hl, if_neg hm, if_neg hv, if_pos]
  intro hcrc
  push Not at hl hm hv
  exact h ⟨hl, hm.1, hm.2, hv, hcrc⟩

theorem frameLinkDecode_of_framed (buf : List UInt8) (pdu : IridiumFramePdu) (h : Framed buf) :
    frameLinkDecode buf pdu =
      (decide (nBitsField buf ≤ framePduMaxBits), (framePduUnpack (payload buf) pdu).2) := by
  have hl := length_payload h
  have hfst := framePduUnpack_fst (payload buf) pdu (by omega)
  have hn := nBits_unpack pdu h
  obtain ⟨hs,hm0,hm1,hv,hcrc⟩ := h
  rw [frameLinkDecode, if_neg (by omega), if_neg (by simp [hm0, hm1]), if_neg (by simp [hv]),
    if_neg (by simp [hcrc]), ← payload]
  simp only [hfst, hn, ne_eq, not_true_eq_false, if_false]
  by_cases hb : nBitsField buf ≤ framePduMaxBits
  · rw [if_neg (by omega), decide_eq_true hb]
  · rw [if_pos (by omega), decide_eq_false hb]

section
variable (pdu : IridiumFramePdu) {buflen : Nat}

def crcField (payload : List UInt8) : List UInt8 :=
  [UInt8.ofNat (frameLinkCrc16 ([frameLinkVer, 0]++payload) &&& 0xFF),
    UInt8.ofNat (frameLinkCrc16 ([frameLinkVer, 0]++payload) >>> 8)]

theorem frameLinkEncode_eq (h : frameLinkFrameSize ≤ buflen) :
    frameLinkEncode pdu buflen = [magicLow, magicHigh, frameLinkVer, 0]++
      (framePduPack pdu framePduWireSize++crcField (framePduPack pdu framePduWireSize)) := by
  have hs : 98 ≤ buflen := h
  have hroom : framePduWireSize ≤ buflen-frameLinkHdrBytes :=
    show 92 ≤ buflen-4 by omega
  rw [frameLinkEncode, if_neg (by omega)]
  simp [framePduPack_buflen pdu _ framePduWireSize hroom le_rfl,
    length_framePduPack pdu framePduWireSize le_rfl, crcField]

theorem length_frameLinkEncode (h : frameLinkFrameSize ≤ buflen) :
    (frameLinkEncode pdu buflen).length = frameLinkFrameSize := by
  have hl := length_framePduPack pdu framePduWireSize le_rfl
  rw [frameLinkEncode_eq pdu h, length_append, length_append, hl]
  rfl

theorem payload_frameLinkEncode (h : frameLinkFrameSize ≤ buflen) :
    payload (frameLinkEncode pdu buflen) = framePduPack pdu framePduWireSize := by
  have hl := length_framePduPack pdu framePduWireSize le_rfl
  have hoff : frameLinkHdrBytes = 4+0 := rfl
  rw [frameLinkEncode_eq pdu h, payload, hoff, window_append_right _ _ 4 0 _ rfl,
    window_zero_append _ _ _ hl]

theorem ofLe_crcField (payload : List UInt8) :
    ofLe (crcField payload) = frameLinkCrc16 ([frameLinkVer, 0]++payload) := by
  have hlt := frameLinkCrc16_lt ([frameLinkVer, 0]++payload)
  rw [crcField]
  generalize frameLinkCrc16 ([frameLinkVer, 0]++payload) = crc at hlt ⊢
  have hlow : crc &&& 0xFF = crc%2^8 := Nat.and_two_pow_sub_one_eq_mod crc 8
  simp only [ofLe, UInt8.toNat_ofNat', hlow, Nat.shiftRight_eq_div_pow]
  omega

theorem framed_frameLinkEncode (h : frameLinkFrameSize ≤ buflen) :
    Framed (frameLinkEncode pdu buflen) := by
  have hl := length_framePduPack pdu framePduWireSize le_rfl
  have hlen := length_frameLinkEncode pdu h
  refine ⟨by omega, ?_⟩
  rw [frameLinkEncode_eq pdu h]
  generalize framePduPack pdu framePduWireSize = body at hl
  have hcrc : window ([magicLow, magicHigh, frameLinkVer, 0]++(body++crcField body))
      (frameLinkHdrBytes+framePduWireSize) 2 = crcField body := by
    rw [window_append_right _ _ frameLinkHdrBytes framePduWireSize _ rfl,
      ← Nat.add_zero framePduWireSize, window_append_right _ _ _ 0 _ hl]
    rfl
  have hbody : window ([magicLow, magicHigh]++(([frameLinkVer, 0]++body)++crcField body)) (2+0)
      (frameLinkHdrBytes-2+framePduWireSize) = [frameLinkVer, 0]++body := by
    rw [window_append_right _ _ 2 0 _ rfl, window_zero_append]
    rw [length_append, hl]
    rfl
  refine ⟨rfl, rfl, rfl, ?_⟩
  rw [getU16, hcrc, ofLe_crcField, UInt16.toNat_ofNat_of_lt' (frameLinkCrc16_lt _)]
  exact congrArg frameLinkCrc16 hbody.symm

theorem frameLinkDecode_encode (prior : IridiumFramePdu) (h : frameLinkFrameSize ≤ buflen) :
    frameLinkDecode (frameLinkEncode pdu buflen) prior =
      (decide (pdu.nBits.toNat ≤ framePduMaxBits), pdu) := by
  have hp := payload_frameLinkEncode pdu h
  have hu := framePduUnpack_pack pdu prior framePduWireSize le_rfl
  have hf := framed_frameLinkEncode pdu h
  rw [frameLinkDecode_of_framed _ _ hf, ← nBits_unpack prior hf, hp, hu]

end

section
variable (buf : List UInt8) (pdu : IridiumFramePdu)

theorem getU8_reencode {buflen : Nat} (hf : Framed buf) (hs : frameLinkFrameSize ≤ buflen) (i : Nat)
    (hi : i < frameLinkHdrBytes+framePduWireSize) (hflags : i ≠ 3) :
    getU8 (frameLinkEncode (framePduUnpack (payload buf) pdu).2 buflen) i = getU8 buf i := by
  have hl := length_payload hf
  rw [frameLinkEncode_eq _ hs, framePduPack_unpack _ pdu _ le_rfl hl]
  match i, hi, hflags with
  | 0, _, _ => exact hf.2.1.symm
  | 1, _, _ => exact hf.2.2.1.symm
  | 2, _, _ => exact hf.2.2.2.1.symm
  | k+4, hi, _ =>
    have hk : k < (payload buf).length := by
      have hi' : k+4 < 96 := hi
      rw [hl]
      exact show k < 92 by omega
    have hread : (payload buf).getD k 0 = buf.getD (k+4) 0 := by
      have hw : k < framePduWireSize := lt_of_lt_of_eq hk hl
      simp [payload, window, getD_eq_getElem?_getD, hw, frameLinkHdrBytes, Nat.add_comm]
    calc getU8 ([magicLow, magicHigh, frameLinkVer, 0]++(payload buf++crcField (payload buf))) (k+4)
        = (payload buf++crcField (payload buf)).getD k 0 := rfl
      _ = (payload buf).getD k 0 := getD_append _ _ _ _ hk
      _ = getU8 buf (k+4) := hread

/-- A failure leaves `*pdu` alone, and a success delivers a PDU in range that encodes to its frame.
-/
def DecodeContract : Prop :=
  ((frameLinkDecode buf pdu).1 = false → (frameLinkDecode buf pdu).2 = pdu) ∧
  ((frameLinkDecode buf pdu).1 = true →
    (frameLinkDecode buf pdu).2.nBits.toNat ≤ framePduMaxBits ∧
    ∀ buflen, frameLinkFrameSize ≤ buflen → ∀ i < frameLinkHdrBytes+framePduWireSize, i ≠ 3 →
      getU8 (frameLinkEncode (frameLinkDecode buf pdu).2 buflen) i = getU8 buf i)

theorem unpack_eq_iff {buf : List UInt8} (hf : Framed buf) :
    (framePduUnpack (payload buf) pdu).2 = pdu ↔
      framePduPack pdu framePduWireSize = payload buf := by
  have hl := length_payload hf
  constructor
  · intro h
    have hp := framePduPack_unpack (payload buf) pdu framePduWireSize le_rfl hl
    rwa [h] at hp
  · intro h
    rw [← h, framePduUnpack_pack pdu pdu _ le_rfl]

theorem decode_contract_iff : DecodeContract buf pdu ↔
    ¬(Framed buf ∧ framePduMaxBits < nBitsField buf ∧
      framePduPack pdu framePduWireSize ≠ payload buf) := by
  by_cases hf : Framed buf
  · have hd := frameLinkDecode_of_framed buf pdu hf
    have hn := nBits_unpack pdu hf
    rw [DecodeContract, hd]
    by_cases hb : nBitsField buf ≤ framePduMaxBits
    · have hok : ¬framePduMaxBits < nBitsField buf := by omega
      simp only [hb, decide_true, Bool.true_eq_false, false_implies, true_and, true_implies, hn,
        hok, false_and, and_false, not_false_eq_true, iff_true]
      intro buflen hs i hi hflags
      exact getU8_reencode buf pdu hf hs i hi hflags
    · have hover : framePduMaxBits < nBitsField buf := by omega
      simp only [hb, decide_false, true_implies, Bool.false_eq_true, false_implies, and_true, hf,
        hover, true_and, ne_eq, not_not]
      exact unpack_eq_iff pdu hf
  · rw [DecodeContract, frameLinkDecode_of_not_framed buf pdu hf]
    simp [hf]

end

def blankPdu (n : UInt16) : IridiumFramePdu where
  timestampUs := 0
  sourceId := 0
  relFreqHz := 0
  peakSnrDb := 0
  peakBin := 0
  nBits := n
  direction := 0
  bchE1 := 0
  bchE2 := 0
  flags := 0
  bitsPacked := Vector.replicate _ 0

/-- A frame with a good CRC and 513 bits is refused, and the caller's struct is gone. -/
theorem oversize_frame_overwrites_pdu :
    frameLinkDecode (frameLinkEncode (blankPdu 513) frameLinkFrameSize) (blankPdu 0) =
      (false, blankPdu 513) ∧ blankPdu 513 ≠ blankPdu 0 ∧
    ¬DecodeContract (frameLinkEncode (blankPdu 513) frameLinkFrameSize) (blankPdu 0) := by
  have hd := frameLinkDecode_encode (blankPdu 513) (blankPdu 0) (le_refl frameLinkFrameSize)
  have hne : blankPdu 513 ≠ blankPdu 0 := by simp [blankPdu]
  refine ⟨hd, hne, ?_⟩
  rw [DecodeContract, hd]
  intro h
  exact hne (h.1 rfl)

end IridiumAcars.FrameLink
