import IridiumAcars.BurstWalk
import IridiumAcars.FrameHarder
import Mathlib.Algebra.Order.Ring.Rat

/-! Time-and-location frames: the cut of `burst_pipeline.c`, `qpsk_demod.c` and `tl_decode.c`. -/
namespace IridiumAcars.TlDecode
open Bch Interleave FrameClassify BurstWalk List

def prsHdr : List (List UInt8) :=
  [[0x00, 0x00, 0x00, 0x00, 0x00, 0x00, 0x00, 0x00, 0x00, 0x00, 0x00, 0x00, 0x00, 0x00, 0x00,
    0x00],
   [0xe7, 0xd1, 0x96, 0xe0, 0xbc, 0xac, 0x4d, 0xca, 0x95, 0xd8, 0x5d, 0x39, 0x4c, 0x3c, 0xcb,
    0x4b],
   [0xe5, 0x4d, 0x94, 0xce, 0xa9, 0x59, 0x76, 0x83, 0xf8, 0xe8, 0x67, 0x08, 0xb8, 0xd2, 0x54,
    0xcf]]

def mapPlaneV1 : List (List UInt8) :=
  [[0x67, 0x4b, 0x6c, 0xb1, 0xb8, 0x52, 0x34, 0x1d, 0xc3, 0x51, 0x0b, 0xe6, 0xd3, 0xcc, 0x85,
    0x6a, 0xb5, 0xc0, 0xb6, 0xc6, 0x91, 0x3f, 0x62, 0x82, 0xb4, 0xc1, 0x6f, 0x1c, 0x72, 0x5e,
    0x8a, 0xaf],
   [0xb8, 0xd2, 0x97, 0x9c, 0x0a, 0x45, 0xa7, 0xe8, 0x97, 0x23, 0xb0, 0x95, 0x74, 0xab, 0xae,
    0x4d, 0x1b, 0x33, 0xe9, 0x1b, 0x88, 0x46, 0xc7, 0x49, 0x5d, 0xf7, 0x2c, 0xe0, 0xae, 0xf4,
    0xf4, 0x62],
   [0xeb, 0xae, 0xd8, 0x65, 0x72, 0x9c, 0xda, 0xb4, 0x79, 0xb0, 0xaa, 0x37, 0x1d, 0x68, 0x7b,
    0x00, 0xab, 0x1b, 0x10, 0x87, 0x3b, 0x10, 0x88, 0xb9, 0x4b, 0xae, 0x6d, 0xa2, 0x44, 0xfa,
    0x8f, 0x1c],
   [0x04, 0xf4, 0x94, 0x92, 0x54, 0x1b, 0x4c, 0xd3, 0xe3, 0x94, 0xd1, 0x51, 0x6a, 0x9d, 0x9a,
    0xba, 0x27, 0x50, 0x75, 0x18, 0x76, 0xd1, 0xdc, 0xd9, 0x7c, 0x16, 0xda, 0xcd, 0x81, 0xca,
    0x81, 0xbc],
   [0xa7, 0xed, 0x60, 0x9b, 0x6a, 0xfd, 0x47, 0xdd, 0x52, 0xde, 0xfd, 0x2b, 0xb0, 0x3d, 0x38,
    0x95, 0xfa, 0xe7, 0x0a, 0x32, 0x55, 0x0c, 0xee, 0x8e, 0x57, 0x65, 0x12, 0x3b, 0x33, 0x56,
    0x56, 0xd3],
   [0x59, 0x91, 0x4d, 0x0f, 0xf9, 0x02, 0x9c, 0x5c, 0xba, 0xa8, 0xd5, 0xb6, 0x40, 0x97, 0x51,
    0x5c, 0x48, 0x59, 0x97, 0x78, 0xca, 0x58, 0xad, 0xb8, 0xbb, 0x2c, 0x20, 0x4e, 0x9f, 0x37,
    0x3a, 0x50]]

def mapPlaneV2 : List (List UInt8) :=
  [[0xe7, 0x14, 0xd3, 0x14, 0xfd, 0x1c, 0x1d, 0x36, 0xb0, 0xbd, 0x51, 0xa6, 0x60, 0xd4, 0xc9,
    0x52, 0xee, 0xca, 0x58, 0x4c, 0xdd, 0x78, 0x32, 0xd4, 0x17, 0x52, 0x9c, 0xa4, 0xea, 0x3d,
    0x63, 0xa1],
   [0x9c, 0xb1, 0x36, 0xe9, 0x0f, 0xe7, 0xc2, 0xf7, 0x60, 0xa1, 0x23, 0xa3, 0x30, 0x0d, 0x96,
    0x9d, 0x45, 0x58, 0xd1, 0xa2, 0x8f, 0x36, 0x41, 0x4f, 0x8e, 0x6d, 0x63, 0x31, 0xd4, 0x6f,
    0x4c, 0x27],
   [0xa9, 0x4f, 0x0e, 0x49, 0xe1, 0x33, 0x71, 0x64, 0xdb, 0x42, 0x0c, 0xc7, 0xae, 0x38, 0x26,
    0xe2, 0x34, 0x9a, 0x23, 0x79, 0xb2, 0x5b, 0xf5, 0x48, 0x11, 0xea, 0xc8, 0x7a, 0x2f, 0x8b,
    0x1e, 0xcc],
   [0x8c, 0xb9, 0xc8, 0xd5, 0x2a, 0x2c, 0xad, 0x2e, 0x53, 0x6f, 0xc1, 0x14, 0x65, 0x36, 0xe0,
    0x09, 0x3b, 0x37, 0x2e, 0x83, 0xaa, 0x25, 0x80, 0x56, 0x1e, 0xb6, 0x6d, 0x23, 0xb3, 0xc0,
    0xa2, 0x5e],
   [0x11, 0xd3, 0x17, 0x04, 0x97, 0xfb, 0x8c, 0x42, 0xca, 0x88, 0xde, 0xd8, 0x5f, 0xa7, 0x9f,
    0x47, 0xd0, 0x63, 0x4a, 0x57, 0x27, 0x23, 0xc8, 0x84, 0xf4, 0x0a, 0x2d, 0xea, 0x14, 0x90,
    0xe4, 0xac],
   [0x42, 0x37, 0xb9, 0x4f, 0x14, 0x4e, 0x64, 0x38, 0x37, 0x78, 0x5d, 0x0e, 0x9c, 0xa9, 0x95,
    0xf5, 0x33, 0x68, 0xe0, 0x2b, 0x32, 0x8f, 0xa3, 0xc6, 0xfb, 0x43, 0xde, 0x96, 0xd0, 0xe6,
    0xd1, 0x43]]

def tlHeaderBits : Nat := 96
def tlVersionIBytes : Nat := 16
def tlPlaneIBytes : Nat := 32

def swappedBit (bits : List UInt8) (off : Nat) : UInt8 :=
  if off%2 = 1 then mask (bits.getD (off-1) 0) else mask (bits.getD (off+1) 0)

def packIByte (postUw : List UInt8) (symOff k : Nat) : UInt8 :=
  (List.range 8).foldl (fun b j => b <<< 1 ||| swappedBit postUw ((symOff+k*8+j)*2)) 0

def packIBits (postUw : List UInt8) (symOff n : Nat) : List UInt8 :=
  (List.range (n/8)).map (packIByte postUw symOff)

structure TlDecoded where
  version : Int
  plane : Int
  headerOk : Bool
  deriving DecidableEq

def planeTable (version : Nat) : List (List UInt8) :=
  if version = 1 then mapPlaneV1 else mapPlaneV2

def versionBytes (postUw : List UInt8) : List UInt8 :=
  packIBits postUw (tlHeaderBits/2) (tlVersionIBytes*8)

def planeBytes (postUw : List UInt8) : List UInt8 :=
  packIBits postUw (tlHeaderBits/2+tlVersionIBytes*8) (tlPlaneIBytes*8)

def tlDecode (frame : IridiumFrame) : TlDecoded :=
  if frame.type ≠ .tl then ⟨-1, -1, false⟩
  else
    let postUw := frame.bits.drop frame.payloadOff
    if frame.bits.length < frame.payloadOff+tlHeaderBits+(tlVersionIBytes+tlPlaneIBytes)*16 then
      ⟨-1, -1, false⟩
    else
      match prsHdr.findIdx? fun sig => decide (versionBytes postUw = sig) with
      | none => ⟨-1, -1, true⟩
      | some v =>
        if v < 1 then ⟨v, -1, true⟩
        else
          match (planeTable v).findIdx? fun sig => decide (planeBytes postUw = sig) with
          | none => ⟨v, -1, true⟩
          | some p => ⟨v, p, true⟩

def postCorrDecim : Nat := 5
def tdfPostMax : Nat := 191*uwSps/postCorrDecim
def irUwLength : Nat := 12
def qpskMaxSymbols : Nat := 256

/-- The complex samples that `try_decode_frame` makes of what remains after `intBase`. -/
def postLen (remaining intBase : Nat) : Nat :=
  min (min (remaining-intBase) frameLenSamples/postCorrDecim) tdfPostMax

def irUwDl : List (Fin 4) := [0, 2, 2, 2, 2, 0, 0, 0, 2, 0, 0, 2]
def irUwUl : List (Fin 4) := [2, 2, 0, 0, 0, 2, 0, 0, 2, 0, 2, 2]

def irUw : IrFrameDirection → List (Fin 4)
  | .downlink => irUwDl
  | .uplink => irUwUl

def quadrantDiff (a b : Fin 4) : Nat :=
  let d := max a.val b.val-min a.val b.val
  if d = 3 then 1 else d

def uwDiffs (uw hard : List (Fin 4)) : Nat := (List.zipWith quadrantDiff hard uw).sum

def stepBits : Fin 4 → List UInt8
  | 0 => [0, 0]
  | 1 => [1, 0]
  | 2 => [1, 1]
  | 3 => [0, 1]

def dqpskBits (old : Fin 4) : List (Fin 4) → List UInt8
  | [] => []
  | h::hs => stepBits (h-old)++dqpskBits h hs

/-- The power-decay loop over the squared magnitudes: where three low symbols in a row begin. -/
def powerDecay (maxMag2 : ℚ) (lowCount i : Nat) : List ℚ → Option Nat
  | [] => none
  | m::ms =>
    let maxMag2 := if m > maxMag2 then m else maxMag2
    if m < maxMag2/64 then
      if lowCount+1 = 3 then some (i-2) else powerDecay maxMag2 (lowCount+1) (i+1) ms
    else powerDecay maxMag2 0 (i+1) ms

def keptSymbols (mag2 : List ℚ) (n : Nat) : Nat := (powerDecay 0 0 0 (mag2.take n)).getD n

/-- On `nComplex` samples whose hard decisions are the front of `decisions`. -/
def qpskDemodProcess (nComplex : Nat) (decisions : List (Fin 4)) (mag2 : List ℚ) :
    Option (IrFrameDirection × List UInt8) :=
  if nComplex/2 < irUwLength then none
  else
    let n := keptSymbols mag2 (min (nComplex/2) qpskMaxSymbols)
    if n < irUwLength then none
    else
      let hard := decisions.take n
      let uw := hard.take irUwLength
      if uwDiffs irUwDl uw ≤ 2 then some (.downlink, dqpskBits 0 hard)
      else if uwDiffs irUwUl uw ≤ 2 then some (.uplink, dqpskBits 0 hard)
      else none

structure Window where
  remaining : Nat
  intBase : Nat
  decisions : List (Fin 4)
  mag2 : List ℚ

def Window.demod (w : Window) : Option (IrFrameDirection × List UInt8) :=
  qpskDemodProcess (postLen w.remaining w.intBase) w.decisions w.mag2

def tlHeader : List UInt8 := 1::1::List.replicate 94 0

def itlSymbols : Nat := 444

/-- The window holds a whole frame with known signatures, and the decisions are those sent. -/
structure Complete (w : Window) (dir : IrFrameDirection) (version plane : Nat) : Prop where
  room : w.intBase+itlSymbols*uwSps ≤ w.remaining
  length : itlSymbols ≤ w.decisions.length
  uw : w.decisions.take irUwLength = irUw dir
  header : ((dqpskBits 0 w.decisions).drop 24).take tlHeaderBits = tlHeader
  known : version = 1 ∨ version = 2
  versionSig : prsHdr[version]? = some (versionBytes ((dqpskBits 0 w.decisions).drop 24))
  planeSig : (planeTable version)[plane]? = some (planeBytes ((dqpskBits 0 w.decisions).drop 24))

/-- What reaches the decoder as a time-and-location frame is reported with its version and
plane. -/
def Reported (harder : Bool) (reg : SynRegistry) (w : Window) (version plane : Nat) : Prop :=
  ∀ dir bits frame, w.demod = some (dir, bits) →
    (iridiumFrameClassify harder reg bits dir).2 = some frame → frame.type = .tl →
      (tlDecode frame).version = version ∧ (tlDecode frame).plane = plane

theorem length_stepBits (d : Fin 4) : (stepBits d).length = 2 := by
  revert d
  decide

theorem length_dqpskBits (old : Fin 4) (hs : List (Fin 4)) :
    (dqpskBits old hs).length = 2*hs.length := by
  induction hs generalizing old with
  | nil => rfl
  | cons h hs ih =>
    rw [dqpskBits, length_append, length_stepBits, ih, length_cons]
    omega

theorem dqpskBits_take (old : Fin 4) (hs : List (Fin 4)) (n : Nat) :
    dqpskBits old (hs.take n) = (dqpskBits old hs).take (2*n) := by
  induction hs generalizing old n with
  | nil => rw [take_nil, dqpskBits, take_nil]
  | cons h hs ih =>
    cases n with
    | zero => rfl
    | succ n =>
      have hlen : (stepBits (h-old)).length ≤ 2*(n+1) := by
        rw [length_stepBits]
        omega
      rw [take_succ_cons, dqpskBits, dqpskBits, take_append, ih, length_stepBits,
        take_of_length_le hlen]
      rfl

theorem powerDecay_le {maxMag2 : ℚ} {lowCount i k : Nat} {ms : List ℚ}
    (h : powerDecay maxMag2 lowCount i ms = some k) : k ≤ i+ms.length := by
  induction ms generalizing maxMag2 lowCount i with
  | nil => cases h
  | cons m ms ih =>
    rw [length_cons]
    rw [powerDecay] at h
    generalize (if m > maxMag2 then m else maxMag2) = top at h
    by_cases hlow : m < top/64
    · simp only [if_pos hlow] at h
      split_ifs at h with hthird
      · have hk : i-2 = k := Option.some.inj h
        omega
      have := ih h
      omega
    · simp only [if_neg hlow] at h
      have := ih h
      omega

theorem keptSymbols_le (mag2 : List ℚ) (n : Nat) : keptSymbols mag2 n ≤ n := by
  unfold keptSymbols
  cases hdecay : powerDecay 0 0 0 (mag2.take n) with
  | none => exact Nat.le_refl n
  | some k =>
    have hk := powerDecay_le hdecay
    rw [length_take] at hk
    change k ≤ n
    omega

section
variable {harder : Bool} {reg : SynRegistry} {bits : List UInt8} {dir : IrFrameDirection}
  {frame : IridiumFrame}

theorem type_ne_tl (hlooks : ¬looksLikeTimeLocation (swappedPrefix (bits.drop 24)) = true)
    (h : (iridiumFrameClassify harder reg bits dir).2 = some frame) : frame.type ≠ .tl := by
  have hframe {t : IrFrameType} {sub : IrLwSubtype} (ht : t ≠ .tl)
      (h : some (verdict bits dir t sub) = some frame) : frame.type ≠ .tl := by
    cases h
    exact ht
  have hrelaxed {r : SynRegistry × Option IridiumFrame}
      (hr : r.2 = some (verdict bits dir .unknown .none) ∨ r.2 = some (verdict bits dir .lw .da))
      (h : r.2 = some frame) : frame.type ≠ .tl := by
    obtain hu | hda := hr
    · exact hframe (by decide) (hu.symm.trans h)
    · exact hframe (by decide) (hda.symm.trans h)
  have hfall := fallback_cases harder (swappedPrefix (bits.drop 24)) fun t s =>
    some (verdict bits dir t s)
  simp only [iridiumFrameClassify, if_neg hlooks] at h
  generalize bitsEqual bits (if dir = .uplink then uwUl else uwDl) = uwOk at h
  split at h
  · cases h
  split at h
  · exact hframe (by decide) h
  cases uwOk with
  | false => exact hrelaxed (hfall _) h
  | true =>
    rw [if_pos rfl] at h
    split at h
    · exact hframe (by decide) h
    split at h
    · exact hframe (by decide) h
    split at h
    · exact hframe (by decide) h
    split at h
    · exact hframe (by decide) h
    · exact hrelaxed (hfall _) h

theorem length_swappedPrefix_le (p : List UInt8) : (swappedPrefix p).length ≤ p.length := by
  simp only [swappedPrefix, length_map, length_pairSwap, length_take]
  omega

theorem swappedPrefix_header {p : List UInt8} (h : p.take tlHeaderBits = tlHeader) :
    (swappedPrefix p).take tlHeaderBits = tlHeader := by
  have hlen : tlHeaderBits ≤ p.length := by
    have := congrArg List.length h
    rw [length_take] at this
    have htl : tlHeader.length = tlHeaderBits := by decide
    omega
  simp only [tlHeaderBits] at hlen h ⊢
  simp only [swappedPrefix]
  rw [← map_take, ← pairSwap_take _ 96 (by decide) (by rw [length_take]; omega),
    take_take, Nat.min_eq_left (by omega), h]
  decide +kernel

theorem classify_tl (hlen : 24+tlHeaderBits ≤ bits.length)
    (huw : bits.take 24 = if dir = .uplink then uwUl else uwDl)
    (hheader : (bits.drop 24).take tlHeaderBits = tlHeader) :
    (iridiumFrameClassify harder reg bits dir).2 = some ⟨.tl, dir, .none, 24, bits⟩ := by
  have hswap := swappedPrefix_header hheader
  generalize hs : swappedPrefix (bits.drop 24) = swapped at hswap
  have hexact : bitsEqual bits (if dir = .uplink then uwUl else uwDl) = true := by
    rw [bitsEqual, ← huw]
    have h24 : (bits.take 24).length = 24 := by
      rw [length_take]
      omega
    rw [h24, decide_eq_true_eq]
  have hlong : 96 ≤ swapped.length := by
    have := congrArg List.length hswap
    rw [length_take] at this
    have htl : tlHeader.length = 96 := by decide
    simp only [tlHeaderBits] at this
    omega
  obtain ⟨rest,rfl⟩ : ∃ rest, swapped = tlHeader++rest :=
    ⟨swapped.drop tlHeaderBits, by rw [← hswap, take_append_drop]⟩
  have hms : ¬((tlHeader++rest).length ≥ 32 ∧
      bitsEqual (tlHeader++rest) headerMessaging = true) := by
    rintro ⟨-,hmatch⟩
    rw [bitsEqual, take_append_of_le_length (by decide)] at hmatch
    exact absurd hmatch (by decide +kernel)
  have hlooks : looksLikeTimeLocation (tlHeader++rest) = true := by
    have hshort : ¬(tlHeader++rest).length < 96 := Nat.not_lt.mpr hlong
    have htail : ((tlHeader++rest).drop 2).take 94 = List.replicate 94 0 := by
      simp [tlHeader]
    have hfirst : ¬(lsb ((tlHeader++rest).getD 0 0) ≠ true ∨
        lsb ((tlHeader++rest).getD 1 0) ≠ true) := by
      simp only [tlHeader, cons_append, getD_cons_zero, getD_cons_succ]
      decide
    rw [looksLikeTimeLocation, if_neg hshort, if_neg hfirst, htail]
    decide +kernel
  have h24 : ¬bits.length < 24 := by omega
  have h32 : ¬(bits.drop 24).length < 32 := by
    rw [length_drop]
    simp only [tlHeaderBits] at hlen
    omega
  simp only [iridiumFrameClassify, if_neg h24, if_neg h32, hs, if_pos hexact, if_neg hms,
    if_pos hlooks]

end

section
variable {w : Window} {dir : IrFrameDirection} {version plane : Nat}

def Window.kept (w : Window) : Nat := keptSymbols w.mag2 191

theorem Complete.postLen_eq (h : Complete w dir version plane) :
    postLen w.remaining w.intBase = 382 := by
  have hroom := h.room
  simp only [itlSymbols, uwSps] at hroom
  simp only [postLen, frameLenSamples, uwSps, postCorrDecim, tdfPostMax]
  omega

theorem Complete.demod_eq (h : Complete w dir version plane) : w.demod =
    if w.kept < irUwLength then none else some (dir, dqpskBits 0 (w.decisions.take w.kept)) := by
  have hfew : ¬382/2 < irUwLength := by decide
  have hcap : min (382/2) qpskMaxSymbols = 191 := by decide
  rw [Window.demod, qpskDemodProcess, h.postLen_eq, if_neg hfew, hcap]
  change (if w.kept < irUwLength then _ else _) = _
  by_cases hshort : w.kept < irUwLength
  · rw [if_pos hshort, if_pos hshort]
  rw [if_neg hshort, if_neg hshort]
  have huw : (w.decisions.take w.kept).take irUwLength = irUw dir := by
    rw [take_take, Nat.min_eq_left (Nat.not_lt.mp hshort), h.uw]
  simp only
  change (if uwDiffs irUwDl ((w.decisions.take w.kept).take irUwLength) ≤ 2 then _ else _) = _
  rw [huw]
  cases dir with
  | downlink => rw [if_pos (by decide)]; rfl
  | uplink =>
    change (if uwDiffs irUwDl (irUw .uplink) ≤ 2 then _ else if uwDiffs irUwUl
      ((w.decisions.take w.kept).take irUwLength) ≤ 2 then _ else _) = _
    rw [huw, if_neg (by decide), if_pos (by decide)]
    rfl

theorem Complete.length_bits (h : Complete w dir version plane) :
    (dqpskBits 0 (w.decisions.take w.kept)).length = 2*w.kept := by
  have hle : w.kept ≤ 191 := keptSymbols_le _ _
  have hlen := h.length
  simp only [itlSymbols] at hlen
  rw [length_dqpskBits, length_take, Nat.min_eq_left (by omega)]

theorem Complete.classified (h : Complete w dir version plane) (hkept : 60 ≤ w.kept) (harder : Bool)
    (reg : SynRegistry) :
    (iridiumFrameClassify harder reg (dqpskBits 0 (w.decisions.take w.kept)) dir).2 =
      some ⟨.tl, dir, .none, 24, dqpskBits 0 (w.decisions.take w.kept)⟩ := by
  refine classify_tl ?_ ?_ ?_
  · rw [h.length_bits]
    simp only [tlHeaderBits]
    omega
  · have hfirst : (dqpskBits 0 (w.decisions.take w.kept)).take (2*irUwLength) =
        dqpskBits 0 (irUw dir) := by
      have hle : irUwLength ≤ w.kept := by
        simp only [irUwLength]
        omega
      rw [← dqpskBits_take, take_take, Nat.min_eq_left hle, h.uw]
    refine hfirst.trans ?_
    cases dir <;> decide
  · rw [dqpskBits_take, drop_take, take_take,
      Nat.min_eq_left (by simp only [tlHeaderBits]; omega), h.header]

theorem tlDecode_short {bits : List UInt8} (hshort : bits.length < 888) :
    tlDecode ⟨.tl, dir, .none, 24, bits⟩ = ⟨-1, -1, false⟩ := by
  have hlen : bits.length < 24+tlHeaderBits+(tlVersionIBytes+tlPlaneIBytes)*16 := hshort
  rw [tlDecode, if_neg (not_not.mpr rfl), if_pos hlen]

theorem findIdx?_signature {table : List (List UInt8)} (hnodup : table.Nodup) {i : Nat}
    {sig : List UInt8} (h : table[i]? = some sig) :
    (table.findIdx? fun s => decide (sig = s)) = some i := by
  obtain ⟨hlt,hget⟩ := List.getElem?_eq_some_iff.mp h
  rw [findIdx?_eq_some_iff_getElem]
  refine ⟨hlt, decide_eq_true hget.symm, fun j hj hsame => ?_⟩
  have heq : table[i] = table[j] := hget.trans (of_decide_eq_true hsame)
  have := (hnodup.getElem_inj_iff).mp heq
  omega

theorem prsHdr_nodup : prsHdr.Nodup := by decide +kernel

theorem planeTable_nodup (version : Nat) : (planeTable version).Nodup := by
  unfold planeTable
  split <;> decide +kernel

theorem Complete.decoded_whole (h : Complete w dir version plane) :
    tlDecode ⟨.tl, dir, .none, 24, dqpskBits 0 w.decisions⟩ = ⟨version, plane, true⟩ := by
  have hlen : ¬(dqpskBits 0 w.decisions).length <
      24+tlHeaderBits+(tlVersionIBytes+tlPlaneIBytes)*16 := by
    have := h.length
    simp only [itlSymbols] at this
    rw [length_dqpskBits]
    simp only [tlHeaderBits, tlVersionIBytes, tlPlaneIBytes]
    omega
  have hversion : ¬version < 1 := by
    have := h.known
    omega
  rw [tlDecode, if_neg (not_not.mpr rfl), if_neg hlen]
  simp only [findIdx?_signature prsHdr_nodup h.versionSig, if_neg hversion,
    findIdx?_signature (planeTable_nodup version) h.planeSig]

end

/-- A whole frame is reported only where the power decay leaves fewer than 60 of its symbols. -/
theorem itl_reported_iff {w : Window} {dir : IrFrameDirection} {version plane : Nat}
    (h : Complete w dir version plane) (harder : Bool) (reg : SynRegistry) :
    Reported harder reg w version plane ↔ w.kept < 60 := by
  have hle : w.kept ≤ 191 := keptSymbols_le _ _
  constructor
  · intro hreported
    by_contra hkept
    have hmany : 60 ≤ w.kept := Nat.not_lt.mp hkept
    have hdemod := h.demod_eq
    rw [if_neg (by simp only [irUwLength]; omega)] at hdemod
    have hversion := (hreported dir _ _ hdemod (h.classified hmany harder reg) rfl).1
    rw [tlDecode_short (by rw [h.length_bits]; omega)] at hversion
    change (-1 : Int) = version at hversion
    omega
  · intro hkept dir' bits frame hdemod hclass htype
    rw [h.demod_eq] at hdemod
    split at hdemod
    · cases hdemod
    · obtain ⟨rfl,rfl⟩ := Prod.mk.inj (Option.some.inj hdemod)
      refine absurd htype (type_ne_tl (fun hlooks => ?_) hclass)
      have hlen := length_swappedPrefix_le ((dqpskBits 0 (w.decisions.take w.kept)).drop 24)
      rw [length_drop, h.length_bits] at hlen
      rw [looksLikeTimeLocation, if_pos (by omega)] at hlooks
      cases hlooks

def stepOf : UInt8 → UInt8 → Fin 4
  | 0, 0 => 0
  | 1, 0 => 1
  | 1, 1 => 2
  | _, _ => 3

def sendBits (old : Fin 4) : List UInt8 → List (Fin 4)
  | a::b::rest => (old+stepOf a b)::sendBits (old+stepOf a b) rest
  | _ => []

def signaturePairs (bytes : List UInt8) : List UInt8 :=
  bytes.flatMap fun b => (List.range 8).flatMap fun j => [0, (b.toNat/2^(7-j)%2).toUInt8]

def planeZero : Window where
  remaining := 6000
  intBase := 100
  decisions := sendBits 0 (uwDl++tlHeader++signaturePairs (prsHdr.getD 2 [])++
    signaturePairs (mapPlaneV2.getD 0 []))
  mag2 := List.replicate 444 1

theorem planeZero_complete : Complete planeZero .downlink 2 0 where
  room := by decide
  length := by decide +kernel
  uw := by decide +kernel
  header := by decide +kernel
  known := .inr rfl
  versionSig := by decide +kernel
  planeSig := by decide +kernel

theorem itl_reported_iff_planeZero :
    Complete planeZero .downlink 2 0 ∧
      (Reported true .init planeZero 2 0 ↔ planeZero.kept < 60) :=
  ⟨planeZero_complete, itl_reported_iff planeZero_complete true .init⟩

/-- The frame is whole in the window, and the pipeline hands on 382 of its 888 bits. -/
theorem planeZero_unreported :
    tlDecode ⟨.tl, .downlink, .none, 24, dqpskBits 0 planeZero.decisions⟩ = ⟨2, 0, true⟩ ∧
      (∃ bits, planeZero.demod = some (.downlink, bits) ∧ bits.length = 382 ∧
        (iridiumFrameClassify true .init bits .downlink).2.map tlDecode = some ⟨-1, -1, false⟩) ∧
      ¬Reported true .init planeZero 2 0 := by
  have hkept : planeZero.kept = 191 := by decide +kernel
  have hdemod := planeZero_complete.demod_eq
  have hclass := planeZero_complete.classified (by rw [hkept]; decide) true .init
  have hlen := planeZero_complete.length_bits
  rw [hkept] at hdemod hclass hlen
  rw [if_neg (by decide)] at hdemod
  have hshort : tlDecode ⟨.tl, .downlink, .none, 24, dqpskBits 0 (planeZero.decisions.take 191)⟩ =
      ⟨-1, -1, false⟩ := tlDecode_short (by omega)
  refine ⟨planeZero_complete.decoded_whole, ⟨_, hdemod, hlen, ?_⟩, fun hreported => ?_⟩
  · rw [hclass, Option.map_some, hshort]
  · have hversion := (hreported .downlink _ _ hdemod hclass rfl).1
    rw [hshort] at hversion
    exact absurd hversion (by decide)

end IridiumAcars.TlDecode
