import IridiumAcars.Crc16
import IridiumAcars.Lib.Hdlc
import IridiumAcars.Lib.ShiftRegister

/-! The laws of the two CRCs of crc16.c: bit-serial division, residues, detection of error bursts.
-/
namespace IridiumAcars.Crc16
open BitWord Hdlc ShiftRegister List

variable {crc : Nat} (data : List UInt8)

def crc16X25 (data : List UInt8) : Nat := crc16X25Raw data ^^^ 0xFFFF

def fcsBytes (fcs : Nat) : List UInt8 := [UInt8.ofNat fcs, UInt8.ofNat (fcs >>> 8)]

def msbBits (octets : List UInt8) : List Bool := octets.flatMap fun b => toBits 8 b.toNat

def ccittBit (crc : Nat) (b : Bool) : Nat :=
  if crc.testBit 15 != b then (crc <<< 1) % 2^16 ^^^ 0x1021 else (crc <<< 1) % 2^16

def ccittSerial (data : List UInt8) : Nat := (msbBits data).foldl ccittBit 0xFFFF

def x25Bit (crc : Nat) (b : Bool) : Nat :=
  if crc.testBit 0 != b then (crc >>> 1) ^^^ 0x8408 else crc >>> 1

def x25Serial (data : List UInt8) : Nat := (lsbBits data).foldl x25Bit 0xFFFF

theorem feedback_xor (p k a b : Nat) : (if (a ^^^ b).testBit k then p else 0) =
    (if a.testBit k then p else 0) ^^^ (if b.testBit k then p else 0) := by
  rw [Nat.testBit_xor]
  cases a.testBit k <;> cases b.testBit k <;> simp

def ccittStep (v : Nat) : Nat := (v <<< 1) % 2^16 ^^^ (if v.testBit 15 then 0x1021 else 0)

def x25Step (v : Nat) : Nat := (v >>> 1) ^^^ (if v.testBit 0 then 0x8408 else 0)

theorem ccittStep_ne {v : Nat} (hlt : v < 2^16) (hv : v ≠ 0) : ccittStep v ≠ 0 := by
  intro hzero
  rw [ccittStep] at hzero
  cases htop : v.testBit 15 with
  | true =>
    -- The constant term of the polynomial stays behind.
    have hbit := congrArg (Nat.testBit · 0) hzero
    rw [htop, if_pos rfl] at hbit
    simp only [Nat.testBit_zero, Nat.xor_mod_two_eq] at hbit
    rw [Nat.shiftLeft_eq] at hbit
    simp at hbit
    omega
  | false =>
    have hsmall : v < 2^15 := by
      by_contra hge
      have := Nat.testBit_of_two_pow_le_and_two_pow_add_one_gt (Nat.le_of_not_lt hge) hlt
      rw [htop] at this
      cases this
    rw [htop, if_neg Bool.false_ne_true, Nat.xor_zero, Nat.shiftLeft_eq] at hzero
    omega

theorem x25Step_ne {v : Nat} (hlt : v < 2^16) (hv : v ≠ 0) : x25Step v ≠ 0 := by
  intro hzero
  rw [x25Step] at hzero
  cases hlow : v.testBit 0 with
  | true =>
    have hbit := congrArg (Nat.testBit · 15) hzero
    have hout : v.testBit 16 = false := Nat.testBit_lt_two_pow hlt
    rw [hlow, if_pos rfl] at hbit
    simp only [Nat.testBit_xor, Nat.testBit_shiftRight, hout, Nat.zero_testBit] at hbit
    exact absurd hbit (by decide)
  | false =>
    have heven : v%2 = 0 := by
      rw [Nat.testBit_zero] at hlow
      simpa using hlow
    rw [hlow, if_neg Bool.false_ne_true, Nat.xor_zero, Nat.shiftRight_eq_div_pow] at hzero
    omega

def ccittRegister : Register where
  width := 16
  step := ccittStep
  cell i := 15-i
  cell_lt i _ := by omega
  cell_inj i j _ _ _ := by omega
  step_xor a b := by
    rw [ccittStep, ccittStep, ccittStep, Nat.shiftLeft_xor_distrib, Nat.xor_mod_two_pow,
      feedback_xor]
    ac_rfl
  step_lt v _ := by
    refine Nat.xor_lt_two_pow (Nat.mod_lt _ (by decide)) ?_
    split <;> decide
  step_cell i hi := by
    have hall : (List.range 15).all fun i => ccittStep (2^(15-(i+1))) == 2^(15-i) := by decide
    exact beq_iff_eq.mp (all_eq_true.mp hall i (mem_range.mpr (by omega)))
  step_ne _ hlt hv := ccittStep_ne hlt hv

def x25Register : Register where
  width := 16
  step := x25Step
  cell i := i
  cell_lt i hi := hi
  cell_inj _ _ _ _ h := h
  step_xor a b := by
    rw [x25Step, x25Step, x25Step, Nat.shiftRight_xor_distrib, feedback_xor]
    ac_rfl
  step_lt v hv := by
    refine Nat.xor_lt_two_pow ?_ ?_
    · rw [Nat.shiftRight_eq_div_pow]
      omega
    · split <;> decide
  step_cell i hi := by
    have hall : (List.range 15).all fun i => x25Step (2^(i+1)) == 2^i := by decide
    exact beq_iff_eq.mp (all_eq_true.mp hall i (mem_range.mpr (by omega)))
  step_ne _ hlt hv := x25Step_ne hlt hv

theorem ccittBit_eq_feed (crc : Nat) (b : Bool) : ccittBit crc b = ccittRegister.feed crc b := by
  cases b with
  | false =>
    change _ = ccittStep (crc ^^^ 0)
    rw [ccittBit, Nat.xor_zero, ccittStep]
    cases crc.testBit 15 <;> simp
  | true =>
    change _ = ccittStep (crc ^^^ 2^15)
    have hout : (2^15 <<< 1) % 2^16 = 0 := by decide
    rw [ccittBit, ccittStep, Nat.shiftLeft_xor_distrib, Nat.xor_mod_two_pow, hout, Nat.xor_zero,
      Nat.testBit_xor, Nat.testBit_two_pow_self]
    cases crc.testBit 15 <;> simp

theorem x25Bit_eq_feed (crc : Nat) (b : Bool) : x25Bit crc b = x25Register.feed crc b := by
  cases b with
  | false =>
    change _ = x25Step (crc ^^^ 0)
    rw [x25Bit, Nat.xor_zero, x25Step]
    cases crc.testBit 0 <;> simp
  | true =>
    change _ = x25Step (crc ^^^ 2^0)
    have hout : (2^0) >>> 1 = 0 := by decide
    rw [x25Bit, x25Step, Nat.shiftRight_xor_distrib, hout, Nat.xor_zero, Nat.testBit_xor,
      Nat.testBit_two_pow_self]
    cases crc.testBit 0 <;> simp

theorem ccitt_octets :
    ((List.range 256).all fun b => ccittRegister.load 0 (toBits 8 b) == b <<< 8) ∧
    (crc16CcittTable = (List.range 256).map fun h => ccittStep^[8] (h <<< 8)) ∧
    ((List.range 256).all fun l => ccittStep^[8] l == l <<< 8) := by decide +kernel

theorem x25_octets :
    ((List.range 256).all fun b =>
      x25Register.load 0 ((List.range 8).map fun j => b.testBit j) == b) ∧
    (crc16X25Table = (List.range 256).map fun l => x25Step^[8] l) ∧
    ((List.range 256).all fun h => x25Step^[8] (h <<< 8) == h) := by decide +kernel

theorem of_octets {f g : Nat → Nat} (h : (List.range 256).all fun b => f b == g b) {b : Nat}
    (hb : b < 256) : f b = g b :=
  beq_iff_eq.mp (all_eq_true.mp h b (mem_range.mpr hb))

theorem of_table {t : List Nat} {f : Nat → Nat} (h : t = (List.range 256).map f) {b : Nat}
    (hb : b < 256) : f b = t.getD b 0 := by
  rw [h, getD_eq_getElem _ _ (by simpa using hb), getElem_map, getElem_range]

theorem word_split (x : Nat) : x = ((x >>> 8) <<< 8) ^^^ (x % 2^8) := by
  apply Nat.eq_of_testBit_eq
  intro i
  rw [Nat.testBit_xor, Nat.testBit_shiftLeft, Nat.testBit_shiftRight, Nat.testBit_mod_two_pow]
  by_cases hi : 8 ≤ i
  · rw [show 8+(i-8) = i by omega]
    simp [hi, Nat.not_lt.mpr hi]
  · simp [hi, Nat.lt_of_not_le hi]

theorem ccitt_eight {x : Nat} (hx : x < 2^16) :
    ccittStep^[8] x = (x <<< 8) % 2^16 ^^^ crc16CcittTable.getD (x >>> 8) 0 := by
  have hhigh : x >>> 8 < 256 := by
    rw [Nat.shiftRight_eq_div_pow]
    omega
  have hlow : (x % 2^8) <<< 8 = (x <<< 8) % 2^16 := by
    rw [Nat.shiftLeft_eq, Nat.shiftLeft_eq]
    omega
  have hoctet : x % 2^8 < 256 := Nat.mod_lt x (by decide)
  have hsum := iterate_xor ccittRegister 8 ((x >>> 8) <<< 8) (x % 2^8)
  rw [← word_split x] at hsum
  refine hsum.trans ?_
  change ccittStep^[8] _ ^^^ ccittStep^[8] _ = _
  rw [of_table ccitt_octets.2.1 hhigh, of_octets ccitt_octets.2.2 hoctet, hlow, Nat.xor_comm]

theorem x25_eight {x : Nat} (hx : x < 2^16) :
    x25Step^[8] x = (x >>> 8) ^^^ crc16X25Table.getD (x % 2^8) 0 := by
  have hhigh : x >>> 8 < 256 := by
    rw [Nat.shiftRight_eq_div_pow]
    omega
  have hoctet : x % 2^8 < 256 := Nat.mod_lt x (by decide)
  have hsum := iterate_xor x25Register 8 ((x >>> 8) <<< 8) (x % 2^8)
  rw [← word_split x] at hsum
  refine hsum.trans ?_
  change x25Step^[8] _ ^^^ x25Step^[8] _ = _
  rw [of_octets x25_octets.2.2 hhigh, of_table x25_octets.2.1 hoctet]

theorem ccittStep_serial (hcrc : crc < 2^16) (byte : UInt8) :
    crc16CcittStep crc byte = ccittRegister.feedAll crc (toBits 8 byte.toNat) := by
  have hb : byte.toNat < 256 := byte.toNat_lt
  have hshift : byte.toNat <<< 8 < 2^16 := by
    rw [Nat.shiftLeft_eq]
    omega
  have hx : crc ^^^ byte.toNat <<< 8 < 2^16 := Nat.xor_lt_two_pow hcrc hshift
  have hindex : ((crc >>> 8) ^^^ byte.toNat) &&& 0xFF = (crc ^^^ byte.toNat <<< 8) >>> 8 := by
    rw [Nat.shiftRight_xor_distrib, Nat.shiftLeft_shiftRight, show 0xFF = 2^8-1 from rfl,
      Nat.and_two_pow_sub_one_eq_mod, Nat.mod_eq_of_lt]
    refine Nat.xor_lt_two_pow ?_ hb
    rw [Nat.shiftRight_eq_div_pow]
    omega
  have hout : (byte.toNat <<< 8 <<< 8) % 2^16 = 0 := by
    rw [Nat.shiftLeft_eq, Nat.shiftLeft_eq]
    omega
  have hhigh : (crc ^^^ byte.toNat <<< 8) >>> 8 < 256 := by
    rw [Nat.shiftRight_eq_div_pow]
    omega
  have hentry : crc16CcittTable.getD ((crc ^^^ byte.toNat <<< 8) >>> 8) 0 < 2^16 := by
    rw [← of_table ccitt_octets.2.1 hhigh]
    refine iterate_lt ccittRegister 8 ?_
    change _ < 2^16
    rw [Nat.shiftLeft_eq]
    omega
  rw [feedAll_eq_iterate _ (by rw [length_toBits]; decide), length_toBits,
    of_octets ccitt_octets.1 hb]
  change _ = ccittStep^[8] _
  rw [ccitt_eight hx, crc16CcittStep, hindex, Nat.xor_mod_two_pow, Nat.mod_eq_of_lt hentry,
    Nat.shiftLeft_xor_distrib, Nat.xor_mod_two_pow, hout, Nat.xor_zero]

theorem x25Step_serial (hcrc : crc < 2^16) (byte : UInt8) :
    crc16X25Step crc byte =
      x25Register.feedAll crc ((List.range 8).map fun j => byte.toNat.testBit j) := by
  have hb : byte.toNat < 256 := byte.toNat_lt
  have hx : crc ^^^ byte.toNat < 2^16 :=
    Nat.xor_lt_two_pow hcrc (lt_of_lt_of_le hb (by decide))
  have hout : byte.toNat >>> 8 = 0 := by
    rw [Nat.shiftRight_eq_div_pow]
    omega
  rw [feedAll_eq_iterate _ (by simp [x25Register]), of_octets x25_octets.1 hb]
  simp only [length_map, length_range]
  change _ = x25Step^[8] _
  rw [x25_eight hx, crc16X25Step, Nat.shiftRight_xor_distrib, hout, Nat.xor_zero,
    show 0xFF = 2^8-1 from rfl, Nat.and_two_pow_sub_one_eq_mod]

theorem crc16X25Step_lt (hcrc : crc < 2^16) (byte : UInt8) :
    crc16X25Step crc byte < 2^16 := by
  have hb : byte.toNat < 2^16 := lt_of_lt_of_le byte.toNat_lt (by decide)
  rw [x25Step_serial hcrc, feedAll_eq_iterate _ (by simp [x25Register]),
    of_octets x25_octets.1 byte.toNat_lt]
  exact iterate_lt x25Register _ (Nat.xor_lt_two_pow hcrc hb)

theorem ccitt_fold_serial (hcrc : crc < 2^16) :
    data.foldl crc16CcittStep crc = ccittRegister.feedAll crc (msbBits data) := by
  induction data generalizing crc with
  | nil => rfl
  | cons b data ih =>
    rw [foldl_cons, ih (crc16CcittStep_lt crc b), ccittStep_serial hcrc, msbBits, msbBits,
      flatMap_cons, feedAll_append]

theorem x25_fold_serial (hcrc : crc < 2^16) :
    data.foldl crc16X25Step crc = x25Register.feedAll crc (lsbBits data) := by
  induction data generalizing crc with
  | nil => rfl
  | cons b data ih =>
    rw [foldl_cons, ih (crc16X25Step_lt hcrc b), x25Step_serial hcrc, lsbBits, lsbBits,
      flatMap_cons, feedAll_append]

theorem ccitt_serial : crc16CcittFalse data = ccittSerial data := by
  rw [crc16CcittFalse, ccitt_fold_serial data (by decide), ccittSerial, Register.feedAll,
    show ccittBit = ccittRegister.feed from funext₂ ccittBit_eq_feed]

theorem x25_serial : crc16X25Raw data = x25Serial data := by
  rw [crc16X25Raw, x25_fold_serial data (by decide), x25Serial, Register.feedAll,
    show x25Bit = x25Register.feed from funext₂ x25Bit_eq_feed]

theorem x25_fold_lt (hcrc : crc < 2^16) :
    data.foldl crc16X25Step crc < 2^16 := by
  induction data generalizing crc with
  | nil => exact hcrc
  | cons b data ih => exact ih (crc16X25Step_lt hcrc b)

theorem x25_first_octet (crc : Nat) :
    crc16X25Step crc (UInt8.ofNat (crc ^^^ 0xFFFF)) = (crc >>> 8) ^^^ 0x0F78 := by
  have hindex : (crc ^^^ (UInt8.ofNat (crc ^^^ 0xFFFF)).toNat) &&& 0xFF = 0xFF := by
    rw [UInt8.toNat_ofNat', show 0xFFFF = 2^16-1 from rfl, show 0xFF = 2^8-1 from rfl]
    apply Nat.eq_of_testBit_eq
    intro i
    rw [Nat.testBit_and, Nat.testBit_xor, Nat.testBit_mod_two_pow, Nat.testBit_xor,
      Nat.testBit_two_pow_sub_one, Nat.testBit_two_pow_sub_one]
    by_cases hi : i < 8
    · rw [decide_eq_true hi, decide_eq_true (show i < 16 by omega)]
      cases crc.testBit i <;> rfl
    · rw [decide_eq_false hi, Bool.and_false]
  rw [crc16X25Step, hindex]
  rfl

theorem x25_second_octet : (List.range 256).all fun h =>
    crc16X25Step (h ^^^ 0x0F78) (UInt8.ofNat (h ^^^ 0xFF)) == crc16X25GoodResidue := by
  decide +kernel

theorem x25_residue :
    crc16X25Raw (data++fcsBytes (crc16X25 data)) = crc16X25GoodResidue := by
  have hlt : crc16X25Raw data < 2^16 := x25_fold_lt data (by decide)
  have hhigh : crc16X25Raw data >>> 8 < 256 := by
    rw [Nat.shiftRight_eq_div_pow]
    omega
  have hshift : (crc16X25Raw data ^^^ 0xFFFF) >>> 8 = (crc16X25Raw data >>> 8) ^^^ 0xFF := by
    rw [Nat.shiftRight_xor_distrib]
    rfl
  rw [crc16X25Raw, foldl_append]
  change (fcsBytes (crc16X25 data)).foldl crc16X25Step (crc16X25Raw data) = _
  rw [fcsBytes, crc16X25, hshift, foldl_cons, foldl_cons, foldl_nil,
    x25_first_octet, of_octets x25_second_octet hhigh]

def corrupt (data e : List UInt8) : List UInt8 := List.zipWith (· ^^^ ·) data e

theorem flatMap_corrupt {f : UInt8 → List Bool} (hlen : ∀ a b, (f a).length = (f b).length)
    (hxor : ∀ a b, f (a ^^^ b) = List.zipWith xor (f a) (f b)) {data e : List UInt8}
    (h : data.length = e.length) :
    (corrupt data e).flatMap f = List.zipWith xor (data.flatMap f) (e.flatMap f) := by
  induction data generalizing e with
  | nil =>
    obtain rfl := length_eq_zero_iff.mp h.symm
    rfl
  | cons a data ih =>
    cases e with
    | nil => cases h
    | cons b e =>
      rw [flatMap_cons, flatMap_cons, zipWith_append (hlen a b),
        ← ih (Nat.succ.inj h), ← hxor]
      rfl

theorem toBits_xor (a b : UInt8) :
    toBits 8 (a ^^^ b).toNat = List.zipWith xor (toBits 8 a.toNat) (toBits 8 b.toNat) := by
  rw [toBits, toBits, toBits, zipWith_map, zipWith_self, UInt8.toNat_xor]
  exact map_congr_left fun i _ => Nat.testBit_xor _ _ _

theorem octetBits_xor (a b : UInt8) : ((List.range 8).map fun j => (a ^^^ b).toNat.testBit j) =
    List.zipWith xor ((List.range 8).map fun j => a.toNat.testBit j)
      ((List.range 8).map fun j => b.toNat.testBit j) := by
  rw [zipWith_map, zipWith_self, UInt8.toNat_xor]
  exact map_congr_left fun i _ => Nat.testBit_xor _ _ _

theorem ccitt_detects {data e : List UInt8} (h : data.length = e.length)
    (he : Burst 16 (msbBits e)) :
    crc16CcittFalse (corrupt data e) ≠ crc16CcittFalse data := by
  have hbits : msbBits (corrupt data e) = List.zipWith xor (msbBits data) (msbBits e) :=
    flatMap_corrupt (fun a b => by simp) toBits_xor h
  have hlen : (msbBits data).length = (msbBits e).length := by
    simp [msbBits, map_const', h]
  rw [crc16CcittFalse, crc16CcittFalse, ccitt_fold_serial _ (by decide),
    ccitt_fold_serial _ (by decide), hbits]
  exact feedAll_detects ccittRegister hlen he _

theorem x25_detects {data e : List UInt8} (h : data.length = e.length)
    (he : Burst 16 (lsbBits e)) : crc16X25 (corrupt data e) ≠ crc16X25 data := by
  have hbits : lsbBits (corrupt data e) = List.zipWith xor (lsbBits data) (lsbBits e) :=
    flatMap_corrupt (fun a b => by simp) octetBits_xor h
  have hlen : (lsbBits data).length = (lsbBits e).length := by simp [h]
  intro heq
  refine feedAll_detects x25Register hlen he 0xFFFF ?_
  rw [← hbits, ← x25_fold_serial _ (by decide), ← x25_fold_serial _ (by decide)]
  exact Nat.xor_left_injective heq

/-- Both CRCs are bit-serial division, leave their residue and see every burst of sixteen bits. -/
theorem crc_laws (m : List UInt8) :
    crc16CcittFalse m = ccittSerial m ∧ crc16X25Raw m = x25Serial m ∧
      crc16CcittFalse (m++crcBytes (crc16CcittFalse m)) = 0 ∧
      crc16X25Raw (m++fcsBytes (crc16X25 m)) = 0xF0B8 ∧
      (∀ e : List UInt8, m.length = e.length → Burst 16 (msbBits e) →
        crc16CcittFalse (corrupt m e) ≠ crc16CcittFalse m) ∧
      (∀ e : List UInt8, m.length = e.length → Burst 16 (lsbBits e) →
        crc16X25 (corrupt m e) ≠ crc16X25 m) :=
  ⟨ccitt_serial m, x25_serial m, crc_append_crcBytes m, x25_residue m,
    fun _ => ccitt_detects, fun _ => x25_detects⟩

theorem crc_laws_two_flips :
    crc16CcittFalse (corrupt [0x31, 0x32] [0x01, 0x80]) ≠ crc16CcittFalse [0x31, 0x32] ∧
      crc16X25 (corrupt [0x31, 0x32] [0x80, 0x01]) ≠ crc16X25 [0x31, 0x32] := by
  obtain ⟨-,-,-,-,hccitt,hx25⟩ := crc_laws [0x31, 0x32]
  refine ⟨hccitt [0x01, 0x80] rfl ⟨7, [true, true], 7, ?_, ?_, ?_⟩,
    hx25 [0x80, 0x01] rfl ⟨7, [true, true], 7, ?_, ?_, ?_⟩⟩ <;> decide

end IridiumAcars.Crc16
