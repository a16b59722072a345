import IridiumAcars.Lib.BitWord

/-! Bit counts of words and the mirror image of a word's low bits. -/
namespace IridiumAcars.Parity
open BitWord List

def bitCount : Nat → Nat → Nat
  | 0, _ => 0
  | n+1, v => v%2+bitCount n (v/2)

theorem bitCount_le (n v : Nat) : bitCount n v ≤ n := by
  induction n generalizing v with
  | zero => exact Nat.le_refl 0
  | succ n ih =>
    have := ih (v/2)
    rw [bitCount]
    omega

theorem bitCount_zero (n : Nat) : bitCount n 0 = 0 := by
  induction n with
  | zero => rfl
  | succ n ih => rw [bitCount, Nat.zero_div, ih]

theorem bitCount_xor (n a b : Nat) :
    bitCount n (a ^^^ b)%2 = (bitCount n a+bitCount n b)%2 := by
  induction n generalizing a b with
  | zero => rfl
  | succ n ih =>
    have hlow : (a ^^^ b)%2 = (a+b)%2 := Nat.xor_mod_two_eq
    have hrest := ih (a/2) (b/2)
    rw [bitCount, bitCount, bitCount, Nat.xor_div_two]
    omega

theorem and_pred_odd (u : Nat) : (2*u+1) &&& (2*u) = 2*u := by
  apply Nat.eq_of_testBit_eq
  intro i
  cases i with
  | zero => simp [Nat.testBit_zero]
  | succ i =>
    rw [Nat.testBit_and, Nat.testBit_succ, Nat.testBit_succ, show (2*u+1)/2 = u by omega,
      show 2*u/2 = u by omega, Bool.and_self]

theorem and_pred_even (u : Nat) : (2*u) &&& (2*u-1) = 2*(u &&& (u-1)) := by
  apply Nat.eq_of_testBit_eq
  intro i
  cases i with
  | zero => simp [Nat.testBit_zero]
  | succ i =>
    rw [Nat.testBit_and, Nat.testBit_succ, Nat.testBit_succ, Nat.testBit_succ,
      show 2*u/2 = u by omega, show (2*u-1)/2 = u-1 by omega,
      show 2*(u &&& (u-1))/2 = u &&& (u-1) by omega, Nat.testBit_and]

theorem bitCount_and_pred (n v : Nat) (hv : v < 2^n) (h : v ≠ 0) :
    bitCount n (v &&& (v-1))+1 = bitCount n v := by
  induction n generalizing v with
  | zero => exact absurd (by simpa using hv) h
  | succ n ih =>
    rw [Nat.pow_succ] at hv
    obtain hpar | hpar := Nat.mod_two_eq_zero_or_one v
    · have hu : v = 2*(v/2) := by omega
      have hstep : v &&& (v-1) = 2*(v/2 &&& (v/2-1)) := by
        have he := and_pred_even (v/2)
        rwa [← hu] at he
      have := ih (v/2) (by omega) (by omega)
      rw [hstep, bitCount, bitCount, show 2*(v/2 &&& (v/2-1))/2 = v/2 &&& (v/2-1) by omega]
      omega
    · have hu : v = 2*(v/2)+1 := by omega
      have hstep : v &&& (v-1) = 2*(v/2) := by
        have ho := and_pred_odd (v/2)
        rw [← hu] at ho
        rwa [show v-1 = 2*(v/2) by omega]
      rw [hstep, bitCount, bitCount, show 2*(v/2)/2 = v/2 by omega]
      omega

def reverseLoop : Nat → Nat → Nat → Nat
  | 0, r, _ => r
  | k+1, r, v => reverseLoop k (r <<< 1 ||| (v &&& 1)) (v >>> 1)

theorem reverseLoop_eq (k r v : Nat) :
    reverseLoop k r v =
      ((List.range k).map v.testBit).foldl (fun v b => v <<< 1 ||| b.toNat) r := by
  induction k generalizing r v with
  | zero => rfl
  | succ k ih =>
    have hbit : v &&& 1 = (v.testBit 0).toNat := by
      rw [Nat.and_one_is_mod, Nat.testBit_zero]
      obtain h | h := Nat.mod_two_eq_zero_or_one v
      · simp [h]
      · simp [h]
    have hmap : (List.range k).map (v >>> 1).testBit =
        (List.range k).map fun i => v.testBit (i+1) := by
      apply map_congr_left
      intro i _
      rw [Nat.testBit_shiftRight, Nat.add_comm]
    rw [reverseLoop, ih, hbit, hmap, range_succ_eq_map, map_cons, foldl_cons,
      map_map]
    rfl

theorem testBit_reverse (n v i : Nat) (hi : i < n) :
    (reverseLoop n 0 v).testBit i = v.testBit (n-1-i) := by
  have h := testBit_ofBits ((List.range n).map v.testBit) i
  rw [ofBits, ← reverseLoop_eq] at h
  rw [h, getD_eq_getElem _ _ (by simpa using hi), getElem_reverse]
  simp

theorem reverse_lt (n v : Nat) : reverseLoop n 0 v < 2^n := by
  have h := ofBits_lt ((List.range n).map v.testBit)
  rwa [ofBits, ← reverseLoop_eq, length_map, length_range] at h

theorem reverse_reverse (n v : Nat) (hv : v < 2^n) :
    reverseLoop n 0 (reverseLoop n 0 v) = v := by
  apply Nat.eq_of_testBit_eq
  intro i
  by_cases hi : i < n
  · rw [testBit_reverse n _ i hi, testBit_reverse n v (n-1-i) (by omega),
      show n-1-(n-1-i) = i by omega]
  · have hpow : 2^n ≤ 2^i := Nat.pow_le_pow_right (by decide) (by omega)
    rw [Nat.testBit_lt_two_pow (lt_of_lt_of_le (reverse_lt n _) hpow),
      Nat.testBit_lt_two_pow (lt_of_lt_of_le hv hpow)]

end IridiumAcars.Parity
