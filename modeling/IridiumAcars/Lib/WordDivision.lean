import Mathlib.Data.Nat.Bitwise
import Mathlib.Tactic.Ring

/-! Division of packed GF(2) polynomials by shift and exclusive or, on natural numbers. -/
namespace IridiumAcars.WordDivision

variable (poly d s num : Nat)

def clearBit (poly d s num : Nat) : Nat :=
  if num.testBit (s+d) then num ^^^ (poly <<< s) else num

/-- Clear bits `s+d-1` down to `d`; what is left is the remainder. -/
def divide (poly d : Nat) : Nat → Nat → Nat
  | 0, num => num
  | s+1, num => divide poly d s (clearBit poly d s num)

theorem xor_cancel (a b p : Nat) : (a ^^^ p) ^^^ (b ^^^ p) = a ^^^ b := by
  rw [Nat.xor_assoc, Nat.xor_comm b p, ← Nat.xor_assoc p p b, Nat.xor_self, Nat.zero_xor]

theorem clearBit_xor (poly d s a b : Nat) :
    clearBit poly d s (a ^^^ b) = clearBit poly d s a ^^^ clearBit poly d s b := by
  unfold clearBit
  rw [Nat.testBit_xor]
  cases ha : a.testBit (s+d) <;> cases hb : b.testBit (s+d)
  · simp
  · simp [Nat.xor_assoc]
  · simp only [Bool.xor_false, if_true, Bool.false_eq_true, if_false]
    rw [Nat.xor_assoc, Nat.xor_comm b, ← Nat.xor_assoc]
  · simp [xor_cancel]

theorem divide_xor (poly d s a b : Nat) :
    divide poly d s (a ^^^ b) = divide poly d s a ^^^ divide poly d s b := by
  induction s generalizing a b with
  | zero => rfl
  | succ s ih => rw [divide, clearBit_xor, ih]; rfl

theorem clearBit_of_lt (h : num < 2^(s+d)) :
    clearBit poly d s num = num := by
  simp [clearBit, Nat.testBit_lt_two_pow h]

theorem divide_of_lt (h : num < 2^d) :
    divide poly d s num = num := by
  induction s with
  | zero => rfl
  | succ s ih =>
    have hs : num < 2^(s+d) := lt_of_lt_of_le h (Nat.pow_le_pow_right (by decide) (by omega))
    rw [divide, clearBit_of_lt poly d s num hs, ih]

theorem divide_add (poly d s k num : Nat) (h : num < 2^(s+d)) :
    divide poly d (s+k) num = divide poly d s num := by
  induction k with
  | zero => rfl
  | succ k ih =>
    have hk : num < 2^(s+k+d) := lt_of_lt_of_le h (Nat.pow_le_pow_right (by decide) (by omega))
    rw [← Nat.add_assoc, divide, clearBit_of_lt poly d (s+k) num hk, ih]

theorem lt_of_top_clear (n k : Nat) (h : n < 2^(k+1)) (hb : n.testBit k = false) :
    n < 2^k := by
  by_contra hn
  have hs := Nat.testBit_of_two_pow_le_and_two_pow_add_one_gt (Nat.le_of_not_lt hn) h
  rw [hb] at hs
  exact Bool.noConfusion hs

theorem clearBit_lt (hp : poly < 2^(d+1)) (hd : poly.testBit d = true) (h : num < 2^(s+1+d)) :
    clearBit poly d s num < 2^(s+d) := by
  have hs : poly <<< s < 2^(s+d+1) := by
    rw [Nat.shiftLeft_eq, show s+d+1 = (d+1)+s by omega, Nat.pow_add]
    exact Nat.mul_lt_mul_of_pos_right hp (Nat.two_pow_pos s)
  have hn : num < 2^(s+d+1) := by simpa [Nat.add_right_comm] using h
  unfold clearBit
  cases ht : num.testBit (s+d) with
  | false => simpa using lt_of_top_clear num (s+d) hn ht
  | true =>
    have hx := Nat.xor_lt_two_pow hn hs
    refine lt_of_top_clear _ (s+d) (by simpa using hx) ?_
    simp [Nat.testBit_xor, Nat.testBit_shiftLeft, ht, hd]

theorem divide_lt (hp : poly < 2^(d+1)) (hd : poly.testBit d = true) (h : num < 2^(s+d)) :
    divide poly d s num < 2^d := by
  induction s generalizing num with
  | zero => simpa [divide] using h
  | succ s ih => exact ih _ (clearBit_lt poly d s num hp hd h)

def multiple (poly : Nat) : Nat → Nat → Nat
  | 0, _ => 0
  | s+1, q => multiple poly s q ^^^ if q.testBit s then poly <<< s else 0

theorem divide_zero (poly d s : Nat) : divide poly d s 0 = 0 :=
  divide_of_lt poly d s 0 (Nat.two_pow_pos d)

theorem divide_shift (poly d s k : Nat) (hp : poly < 2^(d+1)) (hd : poly.testBit d = true)
    (hk : k < s) : divide poly d s (poly <<< k) = 0 := by
  have hlt : poly <<< k < 2^(k+1+d) := by
    rw [Nat.shiftLeft_eq, show k+1+d = (d+1)+k by omega, Nat.pow_add]
    exact Nat.mul_lt_mul_of_pos_right hp (Nat.two_pow_pos k)
  have htop : (poly <<< k).testBit (k+d) = true := by
    rw [Nat.testBit_shiftLeft]
    simp [hd]
  rw [show s = k+1+(s-(k+1)) by omega, divide_add poly d (k+1) _ _ hlt, divide, clearBit,
    if_pos htop, Nat.xor_self, divide_zero]

theorem divide_multiple (poly d s k q : Nat) (hp : poly < 2^(d+1)) (hd : poly.testBit d = true)
    (hk : k ≤ s) : divide poly d s (multiple poly k q) = 0 := by
  induction k with
  | zero => exact divide_zero poly d s
  | succ k ih =>
    rw [multiple, divide_xor, ih (by omega), Nat.zero_xor]
    split
    · exact divide_shift poly d s k hp hd (by omega)
    · exact divide_zero poly d s

theorem multiple_lt (poly d s q : Nat) (hp : poly < 2^(d+1)) : multiple poly s q < 2^(s+d) := by
  induction s with
  | zero => exact Nat.two_pow_pos _
  | succ s ih =>
    refine Nat.xor_lt_two_pow (lt_of_lt_of_le ih (Nat.pow_le_pow_right (by decide) (by omega))) ?_
    split
    · rw [Nat.shiftLeft_eq, show s+1+d = (d+1)+s by omega, Nat.pow_add]
      exact Nat.mul_lt_mul_of_pos_right hp (Nat.two_pow_pos s)
    · exact Nat.two_pow_pos _

theorem multiple_congr (poly s : Nat) {q r : Nat} (h : ∀ i, i < s → q.testBit i = r.testBit i) :
    multiple poly s q = multiple poly s r := by
  induction s with
  | zero => rfl
  | succ s ih => rw [multiple, multiple, ih fun i hi => h i (by omega), h s (by omega)]

theorem divide_xor_multiple :
    ∃ q, q < 2^s ∧ num = divide poly d s num ^^^ multiple poly s q := by
  induction s generalizing num with
  | zero => exact ⟨0, by decide, by rw [divide, multiple, Nat.xor_zero]⟩
  | succ s ih =>
    obtain ⟨q,hq,heq⟩ := ih (clearBit poly d s num)
    have hlow (b : Nat) (hb : ∀ i, i < s → b.testBit i = false) :
        multiple poly s (q ^^^ b) = multiple poly s q :=
      multiple_congr poly s fun i hi => by rw [Nat.testBit_xor, hb i hi, Bool.xor_false]
    by_cases hbit : num.testBit (s+d) = true
    · refine ⟨q ^^^ 1 <<< s, ?_, ?_⟩
      · refine Nat.xor_lt_two_pow
          (lt_of_lt_of_le hq (Nat.pow_le_pow_right (by decide) (by omega))) ?_
        rw [Nat.one_shiftLeft]
        exact Nat.pow_lt_pow_right (by decide) (by omega)
      · have hset : (q ^^^ 1 <<< s).testBit s = true := by
          rw [Nat.testBit_xor, Nat.testBit_lt_two_pow hq, Nat.one_shiftLeft,
            Nat.testBit_two_pow_self]
          rfl
        have hclear : clearBit poly d s num = num ^^^ poly <<< s := if_pos hbit
        rw [multiple, hset, if_pos rfl, hlow, divide, ← Nat.xor_assoc, ← heq, hclear,
          Nat.xor_xor_cancel_right]
        intro i hi
        rw [Nat.one_shiftLeft, Nat.testBit_two_pow_of_ne (by omega)]
    · refine ⟨q, lt_of_lt_of_le hq (Nat.pow_le_pow_right (by decide) (by omega)), ?_⟩
      have hclear : clearBit poly d s num = num := if_neg hbit
      rw [multiple, Nat.testBit_lt_two_pow hq, divide]
      rw [hclear] at heq ⊢
      simpa using heq

theorem divide_eq_zero_iff (hp : poly < 2^(d+1)) (hd : poly.testBit d = true) :
    divide poly d s num = 0 ↔ ∃ q, q < 2^s ∧ num = multiple poly s q := by
  constructor
  · intro h
    obtain ⟨q,hq,heq⟩ := divide_xor_multiple poly d s num
    rw [h, Nat.zero_xor] at heq
    exact ⟨q, hq, heq⟩
  · rintro ⟨q,-,rfl⟩
    exact divide_multiple poly d s s q hp hd (Nat.le_refl s)

end IridiumAcars.WordDivision
