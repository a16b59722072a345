import IridiumAcars.Lib.WordDivision
import IridiumAcars.Lib.BitWord

/-! The divider of iridium_bch.c, which reads the low bit of each byte, and its brute-force repair.
-/
namespace IridiumAcars.Bch
open BitWord WordDivision List

variable (bits : List UInt8)

def lsb (b : UInt8) : Bool := b.toNat.testBit 0

def flipBit (bits : List UInt8) (i : Nat) : List UInt8 := bits.modify i (· ^^^ 1)

def bitsToU32 (bits : List UInt8) : Nat :=
  (bits.take 32).foldl (fun v b => v <<< 1 ||| (b.toNat &&& 1)) 0

def bitLengthLoop : Nat → Nat → Nat
  | 0, _ => 0
  | k+1, x => if x = 0 then 0 else bitLengthLoop k (x >>> 1)+1

def u32BitLength (x : Nat) : Nat := bitLengthLoop 32 x

/-- The first argument counts the rounds left. No shift leaves 32 bits. -/
def polyModLoop (poly : Nat) : Nat → Nat → Nat → Nat
  | 0, num, _ => num
  | shift+1, num, pow =>
    polyModLoop poly shift (if num ≥ pow then num ^^^ (poly <<< shift) else num) (pow >>> 1)

def polyModU32 (num poly : Nat) : Nat :=
  if num = 0 then 0
  else polyModLoop poly (u32BitLength num+1-u32BitLength poly) num (1 <<< (u32BitLength num-1))

def iridiumBchNdivide (poly : UInt32) (bits : List UInt8) : Nat :=
  if bits.length = 0 then 0 else polyModU32 (bitsToU32 bits) poly.toNat

def tryFlips (poly : UInt32) : List Nat → List UInt8 → Bool × List UInt8
  | [], bits => (false, bits)
  | i::is, bits =>
    let flipped := flipBit bits i
    if iridiumBchNdivide poly flipped = 0 then (true, flipped)
    else tryFlips poly is (flipBit flipped i)

def tryPairs (poly : UInt32) (n : Nat) : List Nat → List UInt8 → Bool × List UInt8
  | [], bits => (false, bits)
  | i::is, bits =>
    match tryFlips poly (List.range' (i+1) (n-(i+1))) (flipBit bits i) with
    | (true, fixed) => (true, fixed)
    | (false, reverted) => tryPairs poly n is (flipBit reverted i)

def iridiumBchRepair1Ref (poly : UInt32) (bits : List UInt8) : Int × List UInt8 :=
  if bits.length = 0 then (-1, bits)
  else if iridiumBchNdivide poly bits = 0 then (0, bits)
  else match tryFlips poly (List.range bits.length) bits with
    | (true, fixed) => (1, fixed)
    | (false, reverted) => (-1, reverted)

def iridiumBchRepair2Ref (poly : UInt32) (bits : List UInt8) : Int × List UInt8 :=
  if bits.length = 0 then (-1, bits)
  else if iridiumBchNdivide poly bits = 0 then (0, bits)
  else match tryFlips poly (List.range bits.length) bits with
    | (true, fixed) => (1, fixed)
    | (false, reverted) =>
      match tryPairs poly bits.length (List.range bits.length) reverted with
      | (true, fixed) => (2, fixed)
      | (false, same) => (-1, same)

@[simp] theorem lsb_xor_one (b : UInt8) : lsb (b ^^^ 1) = !lsb b := by
  rw [lsb, lsb, UInt8.toNat_xor, Nat.testBit_xor]
  simp

theorem and_one_eq_lsb (b : UInt8) : b.toNat &&& 1 = (lsb b).toNat := by
  rw [lsb, Nat.testBit_zero, Nat.and_one_is_mod]
  rcases Nat.mod_two_eq_zero_or_one b.toNat with h | h <;> simp [h]

@[simp] theorem length_flipBit (i : Nat) :
    (flipBit bits i).length = bits.length := by
  simp [flipBit]

theorem flipBit_flipBit (i : Nat) : flipBit (flipBit bits i) i = bits := by
  apply ext_getElem
  · simp
  · intro k hk hb
    by_cases he : i = k
    · simp only [flipBit, he, getElem_modify_eq, UInt8.xor_assoc, UInt8.xor_self,
        UInt8.xor_zero]
    · simp [flipBit, he]

theorem map_lsb_flipBit (i : Nat) :
    (flipBit bits i).map lsb = (bits.map lsb).modify i not := by
  apply ext_getElem
  · simp
  · intro k hk hb
    by_cases he : i = k <;> simp [flipBit, he]

theorem bitsToU32_eq (h : bits.length ≤ 32) :
    bitsToU32 bits = ofBits (bits.map lsb) := by
  rw [bitsToU32, take_of_length_le h, ofBits, foldl_map]
  congr 1
  funext v b
  rw [and_one_eq_lsb]

theorem bitsToU32_lt : bitsToU32 bits < 2^32 := by
  have ht : bitsToU32 bits = bitsToU32 (bits.take 32) := by
    simp only [bitsToU32, take_take, Nat.min_self]
  have hl : (bits.take 32).length ≤ 32 := by simp
  rw [ht, bitsToU32_eq _ hl]
  refine lt_of_lt_of_le (ofBits_lt _) (Nat.pow_le_pow_right (by decide) ?_)
  rwa [length_map]

theorem bitsToU32_flipBit (i : Nat) (h : bits.length ≤ 32) (hi : i < bits.length) :
    bitsToU32 (flipBit bits i) = bitsToU32 bits ^^^ (1 <<< (bits.length-1-i)) := by
  rw [bitsToU32_eq _ (by simpa using h), bitsToU32_eq _ h, map_lsb_flipBit,
    ofBits_modify_not _ _ (by simpa using hi), length_map]

theorem bitLengthLoop_spec (k x : Nat) (h : x < 2^k) :
    x < 2^bitLengthLoop k x ∧ (0 < x → 2^bitLengthLoop k x ≤ 2*x) := by
  induction k generalizing x with
  | zero =>
    have hx : x = 0 := by simpa using h
    simp [bitLengthLoop, hx]
  | succ k ih =>
    by_cases hx : x = 0
    · simp [bitLengthLoop, hx]
    have hh : x >>> 1 < 2^k := by rw [Nat.shiftRight_one]; omega
    obtain ⟨hlt,hle⟩ := ih (x >>> 1) hh
    rw [bitLengthLoop, if_neg hx, Nat.pow_succ]
    rw [Nat.shiftRight_one] at hlt hle ⊢
    refine ⟨by omega, fun _ => ?_⟩
    by_cases h1 : x/2 = 0
    · have he : x = 1 := by omega
      subst he
      cases k <;> simp [bitLengthLoop]
    · have := hle (by omega)
      omega

theorem u32BitLength_of_testBit (x d : Nat) (h : x < 2^32) (hd : x.testBit d = true)
    (hlt : x < 2^(d+1)) : u32BitLength x = d+1 := by
  obtain ⟨hl,hle⟩ := bitLengthLoop_spec 32 x h
  have hge := Nat.ge_two_pow_of_testBit hd
  have hpos : 0 < x := lt_of_lt_of_le (Nat.two_pow_pos d) hge
  have h1 : d < u32BitLength x := by
    by_contra hn
    have : 2^u32BitLength x ≤ 2^d := Nat.pow_le_pow_right (by decide) (by omega)
    exact absurd hl (by unfold u32BitLength at this; omega)
  have h2 : u32BitLength x < d+2 := by
    by_contra hn
    have hp : 2^(d+2) ≤ 2^u32BitLength x := Nat.pow_le_pow_right (by decide) (by omega)
    have := hle hpos
    unfold u32BitLength at hp
    rw [Nat.pow_succ] at hp
    omega
  omega

theorem polyModLoop_eq (poly d s num : Nat) (h : num < 2^(s+d)) (hp : poly < 2^(d+1))
    (hd : poly.testBit d = true) :
    polyModLoop poly s num (1 <<< (s+d-1)) = divide poly d s num := by
  induction s generalizing num with
  | zero => rfl
  | succ s ih =>
    have hpow : 1 <<< (s+1+d-1) = 2^(s+d) := by rw [Nat.one_shiftLeft]; congr 1; omega
    have hnext : (1 <<< (s+1+d-1)) >>> 1 = 1 <<< (s+d-1) ∨ s = 0 := by
      by_cases hs : s = 0
      · exact Or.inr hs
      · refine Or.inl ?_
        rw [hpow, Nat.shiftRight_one, Nat.one_shiftLeft, show s+d = (s+d-1)+1 by omega,
          Nat.pow_succ, Nat.mul_div_cancel _ (by decide), Nat.add_sub_cancel]
    have hbit : (num ≥ 2^(s+d)) ↔ num.testBit (s+d) = true := by
      constructor
      · intro hge
        exact Nat.testBit_of_two_pow_le_and_two_pow_add_one_gt hge
          (by simpa [Nat.add_right_comm] using h)
      · exact Nat.ge_two_pow_of_testBit
    have hclear : (if num ≥ 1 <<< (s+1+d-1) then num ^^^ (poly <<< s) else num) =
        clearBit poly d s num := by
      simp only [hpow, clearBit, hbit]
    rw [polyModLoop, hclear, divide]
    rcases hnext with hn | hn
    · rw [hn]
      exact ih _ (clearBit_lt poly d s num hp hd h)
    · subst hn
      rfl

theorem polyModU32_eq (num poly d s : Nat) (hn : num < 2^32) (h : num < 2^(s+d))
    (hq : poly < 2^32) (hp : poly < 2^(d+1)) (hd : poly.testBit d = true) :
    polyModU32 num poly = divide poly d s num := by
  by_cases h0 : num = 0
  · rw [polyModU32, if_pos h0, h0, divide_of_lt _ _ _ _ (Nat.two_pow_pos d)]
  rw [polyModU32, if_neg h0, u32BitLength_of_testBit poly d hq hd hp]
  have hl := u32BitLength_of_testBit num num.log2 hn (Nat.testBit_log2 h0) Nat.lt_log2_self
  rw [hl]
  by_cases hd' : num.log2 < d
  · have hlt : num < 2^d :=
      lt_of_lt_of_le Nat.lt_log2_self (Nat.pow_le_pow_right (by decide) (by omega))
    rw [show num.log2+1+1-(d+1) = 0 by omega, divide_of_lt _ _ _ _ hlt]
    rfl
  · have hs : num.log2+1-d ≤ s := by
      by_contra hc
      have : 2^(s+d) ≤ 2^num.log2 := Nat.pow_le_pow_right (by decide) (by omega)
      have := Nat.log2_self_le h0
      omega
    have hlt : num < 2^((num.log2+1-d)+d) := by
      rw [show (num.log2+1-d)+d = num.log2+1 by omega]
      exact Nat.lt_log2_self
    have he := polyModLoop_eq poly d (num.log2+1-d) num hlt hp hd
    rw [show num.log2+1+1-(d+1) = num.log2+1-d by omega,
      show num.log2+1-1 = (num.log2+1-d)+d-1 by omega, he]
    rw [show s = (num.log2+1-d)+(s-(num.log2+1-d)) by omega, divide_add _ _ _ _ _ hlt]

end IridiumAcars.Bch
