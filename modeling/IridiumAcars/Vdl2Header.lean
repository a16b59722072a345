import IridiumAcars.Lib.Parity

/-! The burst header of vdl2_demod.c: the (25,20) block code, body lengths and the scrambler. -/
namespace IridiumAcars.Vdl2Header
open Parity List

def vdl2HdrBits : Nat := 25
def vdl2HdrTrlenBits : Nat := 17
def vdl2HdrFecBits : Nat := 5
def vdl2HdrDataBits : Nat := vdl2HdrTrlenBits+vdl2HdrFecBits
def vdl2LfsrIv : Nat := 0x6959
def vdl2MaxFrameBits : Nat := 0x3FFF
def vdl2MaxFrameBitsCorrected : Nat := 0x1FFF

def hdrMask : Nat := 1 <<< vdl2HdrDataBits-1

def hdrHRows : List Nat := [0x001FFF0, 0x07E1FE8, 0x18E61E4, 0x1B6A662, 0x0D3CAA1]

def hdrSyndtable : List Nat :=
  [0x0000000, 0x0000001, 0x0000002, 0x0800004, 0x0000004, 0x0800002, 0x1000000, 0x0800000,
   0x0000008, 0x0400000, 0x0200000, 0x0100000, 0x0080000, 0x1100000, 0x0040000, 0x0020000,
   0x0000010, 0x0010000, 0x0804000, 0x0008000, 0x0808000, 0x0004000, 0x0002000, 0x1010000,
   0x0001000, 0x0000800, 0x0000400, 0x0000200, 0x0000100, 0x0000080, 0x0000040, 0x0000020]

def hdrSyndWeight : List Nat :=
  [0, 1, 1, 2, 1, 2, 1, 1, 1, 1, 1, 1, 1, 2, 1, 1,
   1, 1, 2, 1, 2, 1, 1, 2, 1, 1, 1, 1, 1, 1, 1, 1]

/-- `while (v) { p = !p; v = v & (v - 1); }`; a 32-bit word ends it in 32 rounds. -/
def parityLoop : Nat → Nat → Bool → Bool
  | 0, _, p => p
  | fuel+1, v, p => if v = 0 then p else parityLoop fuel (v &&& (v-1)) (!p)

def parity32 (v : Nat) : Bool := parityLoop 32 v false

def reverseBits (v numbits : Nat) : Nat := reverseLoop numbits 0 v

def encodeRow (w i : Nat) : Nat :=
  if parity32 (w &&& hdrHRows.getD i 0) then w ||| 1 <<< (vdl2HdrFecBits-1-i) else w

def vdl2HdrEncode (datalenBits : Nat) : Nat :=
  (List.range vdl2HdrFecBits).foldl encodeRow
    (reverseBits (datalenBits &&& 0x1FFFF) vdl2HdrTrlenBits <<< vdl2HdrFecBits)

def hdrSyndrome (w : Nat) : Nat :=
  (List.range vdl2HdrFecBits).foldl (fun s i =>
    s ||| (parity32 (w &&& hdrHRows.getD i 0)).toNat <<< (vdl2HdrFecBits-1-i)) 0

structure HdrDecoded where
  weight : Nat
  hdr : Nat
  datalen : Nat
deriving DecidableEq

/-- `none` when the correction lands in the reserved bits. -/
def vdl2HdrDecode (hdr : Nat) : Option HdrDecoded :=
  let w := hdr &&& hdrMask
  let syndrome := hdrSyndrome w
  let w := w ^^^ hdrSyndtable.getD syndrome 0
  if w &&& hdrMask ≠ w then none
  else some ⟨hdrSyndWeight.getD syndrome 0, w,
    reverseBits ((w >>> vdl2HdrFecBits) &&& 0x1FFFF) vdl2HdrTrlenBits⟩

/-- Body length in bits, `none` for an unreasonable transmission length. -/
def vdl2BurstBodyBits (datalenBits : Nat) : Option Nat :=
  if datalenBits = 0 ∨ datalenBits > vdl2MaxFrameBits then none
  else
    let octets := (datalenBits+7)/8
    let blocks := octets/249
    let last := octets%249
    let fec := blocks*6 +
      if last = 0 then 0 else if last < 3 then 0 else if last < 31 then 2
      else if last < 68 then 4 else 6
    if fec = 0 then none else some (8*(octets+fec))

def vdl2Scramble : List Bool → Nat → List Bool × Nat
  | [], s => ([], s)
  | b::bs, s =>
    let bit := (s ^^^ (s >>> 14)) &&& 1
    let rest := vdl2Scramble bs ((s >>> 1) ||| (bit <<< 14))
    ((b ^^ decide (bit = 1))::rest.1, rest.2)

theorem parityLoop_eq (n fuel v : Nat) (p : Bool) (hv : v < 2^n) (hf : bitCount n v ≤ fuel) :
    parityLoop fuel v p = (p ^^ decide (bitCount n v%2 = 1)) := by
  induction fuel generalizing v p with
  | zero =>
    have h0 : bitCount n v = 0 := by omega
    simp [parityLoop, h0]
  | succ fuel ih =>
    rw [parityLoop]
    by_cases h : v = 0
    · rw [if_pos h, h, bitCount_zero]
      simp
    · have hstep := bitCount_and_pred n v hv h
      rw [if_neg h, ih _ _ (lt_of_le_of_lt Nat.and_le_left hv) (by omega), ← hstep]
      obtain hm | hm := Nat.mod_two_eq_zero_or_one (bitCount n (v &&& (v-1)))
      · simp [Nat.add_mod, hm]
      · simp [Nat.add_mod, hm]

theorem parity32_eq (v : Nat) (hv : v < 2^32) : parity32 v = decide (bitCount 32 v%2 = 1) := by
  rw [parity32, parityLoop_eq 32 32 v false hv (bitCount_le 32 v), Bool.false_xor]

theorem parity32_xor (a b : Nat) (ha : a < 2^32) (hb : b < 2^32) :
    parity32 (a ^^^ b) = (parity32 a ^^ parity32 b) := by
  rw [parity32_eq _ (Nat.xor_lt_two_pow ha hb), parity32_eq a ha, parity32_eq b hb, bitCount_xor]
  obtain h1 | h1 := Nat.mod_two_eq_zero_or_one (bitCount 32 a)
  · simp [Nat.add_mod, h1]
  · obtain h2 | h2 := Nat.mod_two_eq_zero_or_one (bitCount 32 b)
    · simp [Nat.add_mod, h1, h2]
    · simp [Nat.add_mod, h1, h2]

def rowParity (w i : Nat) : Bool := parity32 (w &&& hdrHRows.getD i 0)

theorem rowParity_xor (a b i : Nat) (ha : a < 2^32) (hb : b < 2^32) :
    rowParity (a ^^^ b) i = (rowParity a i ^^ rowParity b i) := by
  rw [rowParity, Nat.and_xor_distrib_right]
  exact parity32_xor _ _ (lt_of_le_of_lt Nat.and_le_left ha) (lt_of_le_of_lt Nat.and_le_left hb)

theorem hdrSyndrome_eq (w : Nat) : hdrSyndrome w =
    BitWord.ofBits [rowParity w 0, rowParity w 1, rowParity w 2, rowParity w 3, rowParity w 4] := by
  have hall : ∀ a b c d e : Bool,
      0 ||| a.toNat <<< 4 ||| b.toNat <<< 3 ||| c.toNat <<< 2 ||| d.toNat <<< 1 ||| e.toNat <<< 0 =
        BitWord.ofBits [a, b, c, d, e] := by decide
  exact hall _ _ _ _ _

theorem hdrSyndrome_lt (w : Nat) : hdrSyndrome w < 32 := by
  rw [hdrSyndrome_eq]
  exact BitWord.ofBits_lt _

theorem hdrSyndrome_xor (a b : Nat) (ha : a < 2^32) (hb : b < 2^32) :
    hdrSyndrome (a ^^^ b) = hdrSyndrome a ^^^ hdrSyndrome b := by
  have hz := BitWord.ofBits_zipWith_xor
    [rowParity a 0, rowParity a 1, rowParity a 2, rowParity a 3, rowParity a 4]
    [rowParity b 0, rowParity b 1, rowParity b 2, rowParity b 3, rowParity b 4] rfl
  rw [hdrSyndrome_eq, hdrSyndrome_eq, hdrSyndrome_eq, ← hz]
  simp [rowParity_xor a b _ ha hb]

theorem low_rows : ∀ q < 32, hdrSyndrome q = q ∧ ∀ i < 5, rowParity q i = q.testBit (4-i) := by
  decide +kernel

theorem syndtable_spec : ∀ s < 32, hdrSyndrome (hdrSyndtable.getD s 0) = s ∧
    hdrSyndtable.getD s 0 < 2^25 ∧ (hdrSyndtable.getD s 0 < 2^22 →
      hdrSyndtable.getD s 0 = 0 ∨ ∃ b < 22, hdrSyndtable.getD s 0 = 1 <<< b) := by
  decide +kernel

theorem syndtable_single : ∀ b < 22, hdrSyndtable.getD (hdrSyndrome (1 <<< b)) 0 = 1 <<< b := by
  decide +kernel

theorem or_low_eq_xor (x q : Nat) (hq : q < 32) : x <<< 5 ||| q = (x <<< 5) ^^^ q := by
  apply Nat.eq_of_testBit_eq
  intro i
  rw [Nat.testBit_or, Nat.testBit_xor, Nat.testBit_shiftLeft]
  by_cases hi : i < 5
  · simp [Nat.not_le.mpr hi]
  · have hpow : 2^5 ≤ 2^i := Nat.pow_le_pow_right (by decide) (by omega)
    rw [Nat.testBit_lt_two_pow (lt_of_lt_of_le hq hpow), Bool.or_false, Bool.xor_false]

theorem shift_lt (x : Nat) (hx : x < 2^17) : x <<< 5 < 2^22 := by
  rw [Nat.shiftLeft_eq]
  omega

theorem hdrSyndrome_or_low (x q : Nat) (hx : x < 2^17) (hq : q < 32) :
    hdrSyndrome (x <<< 5 ||| q) = hdrSyndrome (x <<< 5) ^^^ q := by
  have hs := shift_lt x hx
  rw [or_low_eq_xor x q hq, hdrSyndrome_xor _ _ (by omega) (by omega), (low_rows q hq).1]

theorem encodeRow_eq (x q i : Nat) (hx : x < 2^17) (hq : q < 32) (hi : i < 5)
    (hbit : q.testBit (4-i) = false) :
    encodeRow (x <<< 5 ||| q) i =
      x <<< 5 ||| (q ||| (rowParity (x <<< 5) i).toNat <<< (vdl2HdrFecBits-1-i)) := by
  have hs := shift_lt x hx
  have hrow : rowParity (x <<< 5 ||| q) i = rowParity (x <<< 5) i := by
    rw [or_low_eq_xor x q hq, rowParity_xor _ _ _ (by omega) (by omega), (low_rows q hq).2 i hi,
      hbit, Bool.xor_false]
  change (if rowParity (x <<< 5 ||| q) i then _ else _) = _
  rw [hrow]
  cases rowParity (x <<< 5) i with
  | false => simp
  | true => simp [Nat.or_assoc]

def parityPart (x n : Nat) : Nat :=
  (List.range n).foldl (fun s i =>
    s ||| (rowParity (x <<< 5) i).toNat <<< (vdl2HdrFecBits-1-i)) 0

theorem parityPart_succ (x n : Nat) : parityPart x (n+1) =
    parityPart x n ||| (rowParity (x <<< 5) n).toNat <<< (vdl2HdrFecBits-1-n) := by
  rw [parityPart, range_succ, foldl_append]
  rfl

theorem encode_run (x n : Nat) (hx : x < 2^17) (hn : n ≤ 5) :
    (List.range n).foldl encodeRow (x <<< 5) = x <<< 5 ||| parityPart x n ∧
    parityPart x n < 32 ∧ ∀ j < 5-n, (parityPart x n).testBit j = false := by
  induction n with
  | zero => exact ⟨(Nat.or_zero _).symm, by simp [parityPart], fun j _ => by simp [parityPart]⟩
  | succ n ih =>
    obtain ⟨hrun,hlt,hclear⟩ := ih (by omega)
    rw [range_succ, foldl_append, hrun, parityPart_succ]
    refine ⟨?_, ?_, ?_⟩
    · exact encodeRow_eq x _ n hx hlt (by omega) (hclear (4-n) (by omega))
    · have hb : (rowParity (x <<< 5) n).toNat <<< (vdl2HdrFecBits-1-n) < 2^5 := by
        have hone := Bool.toNat_le (rowParity (x <<< 5) n)
        have hpow : 2^(vdl2HdrFecBits-1-n) ≤ 2^4 :=
          Nat.pow_le_pow_right (by decide) (by unfold vdl2HdrFecBits; omega)
        rw [Nat.shiftLeft_eq]
        calc (rowParity (x <<< 5) n).toNat*2^(vdl2HdrFecBits-1-n)
            ≤ 1*2^4 := Nat.mul_le_mul hone hpow
          _ < 2^5 := by decide
      exact Nat.or_lt_two_pow hlt hb
    · intro j hj
      have hnot : ¬ (vdl2HdrFecBits-1-n ≤ j) := by
        unfold vdl2HdrFecBits
        omega
      rw [Nat.testBit_or, hclear j (by omega), Nat.testBit_shiftLeft]
      simp [hnot]

theorem reverseBits_lt (v : Nat) : reverseBits v 17 < 2^17 := reverse_lt 17 v

/-- A transmitted header is its length field with the syndrome of that field below. -/
theorem vdl2HdrEncode_eq (d : Nat) (hd : d < 2^17) :
    vdl2HdrEncode d = reverseBits d 17 <<< 5 ||| hdrSyndrome (reverseBits d 17 <<< 5) := by
  have hmask : d &&& 0x1FFFF = d := by
    have := Nat.and_two_pow_sub_one_eq_mod d 17
    rwa [Nat.mod_eq_of_lt hd] at this
  rw [vdl2HdrEncode, hmask]
  exact (encode_run (reverseBits d 17) 5 (reverseBits_lt d) (by omega)).1

theorem hdrSyndrome_encode (d : Nat) (hd : d < 2^17) :
    vdl2HdrEncode d < 2^22 ∧ hdrSyndrome (vdl2HdrEncode d) = 0 := by
  have hx := reverseBits_lt d
  have hs := hdrSyndrome_lt (reverseBits d 17 <<< 5)
  rw [vdl2HdrEncode_eq d hd]
  refine ⟨Nat.or_lt_two_pow (shift_lt _ hx) (by omega), ?_⟩
  rw [hdrSyndrome_or_low _ _ hx hs, Nat.xor_self]

theorem eq_encode_of_syndrome_zero (c : Nat) (hc : c < 2^22) (h : hdrSyndrome c = 0) :
    c = vdl2HdrEncode (reverseBits (c >>> 5) 17) := by
  have hx : c >>> 5 < 2^17 := by
    rw [Nat.shiftRight_eq_div_pow]
    omega
  have hlow : c%32 < 32 := Nat.mod_lt c (by decide)
  have hsplit : c = (c >>> 5) <<< 5 ||| c%32 := by
    rw [← Nat.shiftLeft_add_eq_or_of_lt (i := 5) hlow, Nat.shiftLeft_eq, Nat.shiftRight_eq_div_pow]
    omega
  have hsyn : hdrSyndrome ((c >>> 5) <<< 5) = c%32 := by
    have hz := hdrSyndrome_or_low (c >>> 5) (c%32) hx hlow
    rw [← hsplit, h] at hz
    exact Nat.xor_eq_zero_iff.mp hz.symm
  have hrev : reverseBits (reverseBits (c >>> 5) 17) 17 = c >>> 5 := reverse_reverse 17 _ hx
  rwa [vdl2HdrEncode_eq _ (reverseBits_lt _), hrev, hsyn]

/-- A received word within one bit of a transmitted header, reserved bits aside. -/
def NearHeader (w : Nat) : Prop :=
  ∃ d < 2^17, ∃ e, (e = 0 ∨ ∃ b < 22, e = 1 <<< b) ∧ w &&& hdrMask = vdl2HdrEncode d ^^^ e

theorem and_hdrMask (w : Nat) : w &&& hdrMask = w%2^22 := Nat.and_two_pow_sub_one_eq_mod w 22

theorem vdl2HdrDecode_near {w d e : Nat} (hd : d < 2^17) (he : e = 0 ∨ ∃ b < 22, e = 1 <<< b)
    (heq : w &&& hdrMask = vdl2HdrEncode d ^^^ e) :
    ∃ weight, vdl2HdrDecode w = some ⟨weight, vdl2HdrEncode d, d⟩ := by
  obtain ⟨hlt,hzero⟩ := hdrSyndrome_encode d hd
  have helt : e < 2^22 := by
    obtain rfl | ⟨b,hb,rfl⟩ := he
    · decide
    · rw [Nat.one_shiftLeft]
      exact Nat.pow_lt_pow_right (by decide) hb
  have htab : hdrSyndtable.getD (hdrSyndrome e) 0 = e := by
    obtain rfl | ⟨b,hb,rfl⟩ := he
    · rfl
    · exact syndtable_single b hb
  have hword : hdrSyndrome (w &&& hdrMask) = hdrSyndrome e := by
    rw [heq, hdrSyndrome_xor _ _ (by omega) (by omega), hzero, Nat.zero_xor]
  have hback : (w &&& hdrMask) ^^^ e = vdl2HdrEncode d := by
    rw [heq, Nat.xor_assoc, Nat.xor_self, Nat.xor_zero]
  have hlen :
      reverseBits ((vdl2HdrEncode d >>> vdl2HdrFecBits) &&& 0x1FFFF) vdl2HdrTrlenBits = d := by
    have hs := hdrSyndrome_lt (reverseBits d 17 <<< 5)
    have hhigh : vdl2HdrEncode d >>> 5 = reverseBits d 17 := by
      rw [vdl2HdrEncode_eq d hd, Nat.shiftRight_or_distrib, Nat.shiftLeft_shiftRight,
        Nat.shiftRight_eq_div_pow, Nat.div_eq_of_lt hs, Nat.or_zero]
    have hmask : reverseBits d 17 &&& 0x1FFFF = reverseBits d 17%2^17 :=
      Nat.and_two_pow_sub_one_eq_mod _ 17
    rw [vdl2HdrFecBits, vdl2HdrTrlenBits, hhigh, hmask, Nat.mod_eq_of_lt (reverseBits_lt d)]
    exact reverse_reverse 17 d hd
  refine ⟨hdrSyndWeight.getD (hdrSyndrome e) 0, ?_⟩
  rw [vdl2HdrDecode, hword, htab, hback, if_neg, hlen]
  rw [and_hdrMask, Nat.mod_eq_of_lt hlt]
  exact fun h => h rfl

/-- The hard decision accepts exactly the words near a transmitted header. -/
theorem decode_isSome_iff (w : Nat) : (vdl2HdrDecode w).isSome = true ↔ NearHeader w := by
  have hm : w &&& hdrMask < 2^22 := by
    rw [and_hdrMask]
    exact Nat.mod_lt _ (by decide)
  have hs := hdrSyndrome_lt (w &&& hdrMask)
  obtain ⟨hsyn,ht,hsingle⟩ := syndtable_spec _ hs
  constructor
  · intro h
    have hkeep :
        ((w &&& hdrMask) ^^^ hdrSyndtable.getD (hdrSyndrome (w &&& hdrMask)) 0) < 2^22 := by
      by_contra hbig
      rw [vdl2HdrDecode, if_pos] at h
      · exact absurd h (by simp)
      · rw [and_hdrMask ((w &&& hdrMask) ^^^ _)]
        intro he
        exact hbig (he ▸ Nat.mod_lt _ (by decide))
    have htab : hdrSyndtable.getD (hdrSyndrome (w &&& hdrMask)) 0 < 2^22 := by
      have hx := Nat.xor_lt_two_pow hm hkeep
      rwa [← Nat.xor_assoc, Nat.xor_self, Nat.zero_xor] at hx
    have hc := eq_encode_of_syndrome_zero _ hkeep (by
      rw [hdrSyndrome_xor _ _ (by omega) (by omega), hsyn, Nat.xor_self])
    have hword := congrArg (· ^^^ hdrSyndtable.getD (hdrSyndrome (w &&& hdrMask)) 0) hc
    simp only [Nat.xor_assoc, Nat.xor_self, Nat.xor_zero] at hword
    exact ⟨_, reverseBits_lt _, _, hsingle htab, hword⟩
  · rintro ⟨d,hd,e,he,heq⟩
    obtain ⟨weight,hdec⟩ := vdl2HdrDecode_near hd he heq
    rw [hdec]
    rfl

end IridiumAcars.Vdl2Header
