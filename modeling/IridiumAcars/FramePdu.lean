import IridiumAcars.Lib.LittleEndian
import IridiumAcars.Lib.PackedBits

/-! The decoded-frame PDU of frame_pdu.c and its fixed little-endian wire layout. -/
namespace IridiumAcars.FramePdu
open LittleEndian PackedBits

def framePduMaxBits : Nat := 512
def framePduBitsBytes : Nat := framePduMaxBits/8
def framePduWireSize : Nat := 8+4+4+4+2+2+1+1+1+1+framePduBitsBytes

/-- `peakSnrDb` is the bit pattern of the float; nothing here computes with it. -/
structure IridiumFramePdu where
  timestampUs : UInt64
  sourceId : UInt32
  relFreqHz : Int32
  peakSnrDb : UInt32
  peakBin : Int16
  nBits : UInt16
  direction : UInt8
  bchE1 : Int8
  bchE2 : Int8
  flags : UInt8
  bitsPacked : Vector UInt8 framePduBitsBytes
deriving DecidableEq

def putU16 (v : UInt16) : List UInt8 := leBytes 2 v.toNat
def putU32 (v : UInt32) : List UInt8 := leBytes 4 v.toNat
def putU64 (v : UInt64) : List UInt8 := leBytes 8 v.toNat
def getU8 (b : List UInt8) (o : Nat) : UInt8 := b.getD o 0
def getU16 (b : List UInt8) (o : Nat) : UInt16 := UInt16.ofNat (ofLe (window b o 2))
def getU32 (b : List UInt8) (o : Nat) : UInt32 := UInt32.ofNat (ofLe (window b o 4))
def getU64 (b : List UInt8) (o : Nat) : UInt64 := UInt64.ofNat (ofLe (window b o 8))
def getBytes (b : List UInt8) (o : Nat) : Vector UInt8 framePduBitsBytes :=
  Vector.ofFn fun i => getU8 b (o+i)

open List

section
variable (b : List UInt8) (o : Nat)

theorem ofLe_window_lt (w : Nat) (h : o+w ≤ b.length) : ofLe (window b o w) < 256^w := by
  have hlt := ofLe_lt (window b o w)
  rwa [length_window b o w h] at hlt

theorem leBytes_window (w : Nat) (h : o+w ≤ b.length) :
    leBytes w (ofLe (window b o w)) = window b o w := by
  have hle := leBytes_ofLe (window b o w)
  rwa [length_window b o w h] at hle

theorem singleton_getU8 (h : o+1 ≤ b.length) : [getU8 b o] = window b o 1 := by
  have ho : o < b.length := by omega
  rw [window, drop_eq_getElem_cons ho, getU8, getD_eq_getElem _ _ ho]
  rfl

theorem putU16_getU16 (h : o+2 ≤ b.length) : putU16 (getU16 b o) = window b o 2 := by
  rw [putU16, getU16, UInt16.toNat_ofNat_of_lt' (ofLe_window_lt b o 2 h), leBytes_window b o 2 h]

theorem putU32_getU32 (h : o+4 ≤ b.length) : putU32 (getU32 b o) = window b o 4 := by
  rw [putU32, getU32, UInt32.toNat_ofNat_of_lt' (ofLe_window_lt b o 4 h), leBytes_window b o 4 h]

theorem putU64_getU64 (h : o+8 ≤ b.length) : putU64 (getU64 b o) = window b o 8 := by
  rw [putU64, getU64, UInt64.toNat_ofNat_of_lt' (ofLe_window_lt b o 8 h), leBytes_window b o 8 h]

theorem putU16_inj {v w : UInt16} (h : putU16 v = putU16 w) : v = w := by
  have hof := congrArg ofLe h
  rw [putU16, putU16, ofLe_leBytes 2 _ v.toNat_lt, ofLe_leBytes 2 _ w.toNat_lt] at hof
  exact UInt16.toNat_inj.mp hof

theorem putU32_inj {v w : UInt32} (h : putU32 v = putU32 w) : v = w := by
  have hof := congrArg ofLe h
  rw [putU32, putU32, ofLe_leBytes 4 _ v.toNat_lt, ofLe_leBytes 4 _ w.toNat_lt] at hof
  exact UInt32.toNat_inj.mp hof

theorem putU64_inj {v w : UInt64} (h : putU64 v = putU64 w) : v = w := by
  have hof := congrArg ofLe h
  rw [putU64, putU64, ofLe_leBytes 8 _ v.toNat_lt, ofLe_leBytes 8 _ w.toNat_lt] at hof
  exact UInt64.toNat_inj.mp hof

theorem toList_getBytes (h : o+framePduBitsBytes ≤ b.length) :
    (getBytes b o).toList = window b o framePduBitsBytes := by
  have hw := length_window b o framePduBitsBytes h
  apply ext_getElem
  · rw [Vector.length_toList, hw]
  · intro i hi hi'
    have hb : o+i < b.length := by omega
    simp [getBytes, getU8, window, hb]

end

def framePduPack (pdu : IridiumFramePdu) (buflen : Nat) : List UInt8 :=
  if buflen < framePduWireSize then []
  else putU64 pdu.timestampUs++(putU32 pdu.sourceId++(putU32 pdu.relFreqHz.toUInt32++
    (putU32 pdu.peakSnrDb++(putU16 pdu.peakBin.toUInt16++(putU16 pdu.nBits++([pdu.direction]++
    ([pdu.bchE1.toUInt8]++([pdu.bchE2.toUInt8]++([pdu.flags]++pdu.bitsPacked.toList)))))))))

/-- The bytes read and the struct afterwards; a short buffer leaves it alone. -/
def framePduUnpack (buf : List UInt8) (pdu : IridiumFramePdu) : Nat × IridiumFramePdu :=
  if buf.length < framePduWireSize then (0, pdu)
  else (framePduWireSize,
    { timestampUs := getU64 buf 0
      sourceId := getU32 buf 8
      relFreqHz := (getU32 buf 12).toInt32
      peakSnrDb := getU32 buf 16
      peakBin := (getU16 buf 20).toInt16
      nBits := getU16 buf 22
      direction := getU8 buf 24
      bchE1 := (getU8 buf 25).toInt8
      bchE2 := (getU8 buf 26).toInt8
      flags := getU8 buf 27
      bitsPacked := getBytes buf 28 })

theorem length_framePduPack (pdu : IridiumFramePdu) (buflen : Nat)
    (h : framePduWireSize ≤ buflen) : (framePduPack pdu buflen).length = framePduWireSize := by
  rw [framePduPack, if_neg (by omega)]
  simp only [putU16, putU32, putU64, length_append, length_leBytes, length_singleton,
    Vector.length_toList, framePduWireSize]
  omega

theorem framePduPack_buflen (pdu : IridiumFramePdu) (m n : Nat) (hm : framePduWireSize ≤ m)
    (hn : framePduWireSize ≤ n) : framePduPack pdu m = framePduPack pdu n := by
  rw [framePduPack, framePduPack, if_neg (by omega), if_neg (by omega)]

theorem framePduUnpack_fst (buf : List UInt8) (pdu : IridiumFramePdu)
    (h : framePduWireSize ≤ buf.length) : (framePduUnpack buf pdu).1 = framePduWireSize := by
  rw [framePduUnpack, if_neg (by omega)]

theorem framePduPack_unpack (buf : List UInt8) (pdu : IridiumFramePdu) (buflen : Nat)
    (hb : framePduWireSize ≤ buflen) (h : buf.length = framePduWireSize) :
    framePduPack (framePduUnpack buf pdu).2 buflen = buf := by
  have hl : buf.length = 92 := h
  have hend : window buf 28 framePduBitsBytes = buf.drop 28 :=
    take_of_length_le (by rw [length_drop, hl]; decide)
  rw [framePduUnpack, if_neg (by omega), framePduPack, if_neg (by omega)]
  simp only [UInt32.toUInt32_toInt32, UInt16.toUInt16_toInt16, UInt8.toUInt8_toInt8]
  rw [putU64_getU64 buf 0 (by omega), putU32_getU32 buf 8 (by omega),
    putU32_getU32 buf 12 (by omega), putU32_getU32 buf 16 (by omega),
    putU16_getU16 buf 20 (by omega), putU16_getU16 buf 22 (by omega),
    singleton_getU8 buf 24 (by omega), singleton_getU8 buf 25 (by omega),
    singleton_getU8 buf 26 (by omega), singleton_getU8 buf 27 (by omega),
    toList_getBytes buf 28 (by rw [hl]; decide), hend]
  simp only [window_append_drop buf _ _]
  rw [drop_zero]

theorem framePduPack_inj {p q : IridiumFramePdu} {buflen : Nat} (hb : framePduWireSize ≤ buflen)
    (h : framePduPack p buflen = framePduPack q buflen) : p = q := by
  rw [framePduPack, framePduPack, if_neg (by omega), if_neg (by omega)] at h
  obtain ⟨hts,h⟩ := append_inj h (by simp [putU64])
  obtain ⟨hsrc,h⟩ := append_inj h (by simp [putU32])
  obtain ⟨hfreq,h⟩ := append_inj h (by simp [putU32])
  obtain ⟨hsnr,h⟩ := append_inj h (by simp [putU32])
  obtain ⟨hbin,h⟩ := append_inj h (by simp [putU16])
  obtain ⟨hn,h⟩ := append_inj h (by simp [putU16])
  simp only [singleton_append, List.cons.injEq, Vector.toList_inj] at h
  obtain ⟨hdir,he1,he2,hflags,hbits⟩ := h
  cases p
  cases q
  simp only [IridiumFramePdu.mk.injEq]
  exact ⟨putU64_inj hts, putU32_inj hsrc, by simpa using congrArg UInt32.toInt32 (putU32_inj hfreq),
    putU32_inj hsnr, by simpa using congrArg UInt16.toInt16 (putU16_inj hbin), putU16_inj hn, hdir,
    by simpa using congrArg UInt8.toInt8 he1, by simpa using congrArg UInt8.toInt8 he2, hflags,
    hbits⟩

theorem framePduUnpack_pack (p pdu : IridiumFramePdu) (buflen : Nat)
    (hb : framePduWireSize ≤ buflen) :
    framePduUnpack (framePduPack p buflen) pdu = (framePduWireSize, p) := by
  have hl := length_framePduPack p buflen hb
  have hsnd := framePduPack_inj hb (framePduPack_unpack _ pdu buflen hb hl)
  have hfst := framePduUnpack_fst (framePduPack p buflen) pdu (by omega)
  exact Prod.ext hfst hsnd

section

def framePduPackBits (pdu : IridiumFramePdu) (bits01 : List UInt8) (nBits : Int) :
    IridiumFramePdu :=
  let n := min nBits.toNat framePduMaxBits
  { pdu with
    bitsPacked := orBits (fun i => decide (bits01.getD i 0 &&& 1 ≠ 0)) n (Vector.replicate _ 0)
    nBits := UInt16.ofNat n }

def framePduUnpackBits (pdu : IridiumFramePdu) : List UInt8 :=
  (List.range (min pdu.nBits.toNat framePduMaxBits)).map (readBit pdu.bitsPacked)

variable (pdu : IridiumFramePdu) (bits : List UInt8)

theorem toNat_nBits_framePduPackBits (hl : bits.length ≤ framePduMaxBits) :
    (framePduPackBits pdu bits bits.length).nBits.toNat = bits.length := by
  have hn : min (bits.length : Int).toNat framePduMaxBits = bits.length := by
    rw [Int.toNat_natCast, Nat.min_eq_left hl]
  have hsize : bits.length < UInt16.size := lt_of_le_of_lt hl (by decide)
  simp only [framePduPackBits, hn]
  exact UInt16.toNat_ofNat_of_lt' hsize

theorem framePduUnpackBits_packBits (hl : bits.length ≤ framePduMaxBits) (hb : ∀ b ∈ bits, b ≤ 1) :
    framePduUnpackBits (framePduPackBits pdu bits bits.length) = bits := by
  have hn : min (bits.length : Int).toNat framePduMaxBits = bits.length := by
    rw [Int.toNat_natCast, Nat.min_eq_left hl]
  have hcell : ∀ b : UInt8, b ≤ 1 → (if decide (b &&& 1 ≠ 0) then (1 : UInt8) else 0) = b := by
    intro b h
    have hle : b.toNat ≤ 1 := h
    rcases (by omega : b.toNat = 0 ∨ b.toNat = 1) with h0 | h1
    · rw [show b = 0 from UInt8.toNat_inj.mp h0]
      rfl
    · rw [show b = 1 from UInt8.toNat_inj.mp h1]
      rfl
  rw [framePduUnpackBits, toNat_nBits_framePduPackBits pdu bits hl, Nat.min_eq_left hl]
  apply ext_getElem
  · simp
  · intro i hi hi'
    rw [getElem_map, getElem_range, readBit_eq]
    simp only [framePduPackBits, hn]
    rw [bitAt_orBits _ _ _ hl, bitAt_replicate_zero, Bool.false_or, decide_eq_true hi',
      Bool.true_and, getD_eq_getElem _ _ hi', hcell _ (hb _ (getElem_mem hi'))]

end

end IridiumAcars.FramePdu
