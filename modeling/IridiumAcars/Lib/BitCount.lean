import Mathlib.Data.List.Nodup
import Mathlib.Data.Nat.Bitwise

/-! The number of ones among the low bits of a word, and words with few ones. -/
namespace IridiumAcars.BitCount
open List

def weight (n v : Nat) : Nat := (List.range n).countP v.testBit

theorem weight_succ (n v : Nat) : weight (n+1) v = weight n v+(v.testBit n).toNat := by
  rw [weight, range_succ, countP_append, countP_singleton]
  cases v.testBit n <;> rfl

@[simp] theorem weight_zero (n : Nat) : weight n 0 = 0 := by
  induction n with
  | zero => rfl
  | succ n ih => rw [weight_succ, ih, Nat.zero_testBit]; rfl

theorem weight_xor_add {a b : Nat} (h : ∀ i, b.testBit i = true → a.testBit i = true) (n : Nat) :
    weight n (a ^^^ b)+weight n b = weight n a := by
  induction n with
  | zero => rfl
  | succ n ih =>
    rw [weight_succ, weight_succ, weight_succ, Nat.testBit_xor, ← ih]
    cases hb : b.testBit n with
    | false =>
      rw [Bool.xor_false]
      exact Nat.add_right_comm _ _ _
    | true =>
      rw [h n hb]
      exact (Nat.add_assoc _ _ _).symm

theorem testBit_one_shiftLeft (a i : Nat) : (1 <<< a).testBit i = decide (a = i) := by
  rw [Nat.one_shiftLeft, Nat.testBit_two_pow]

theorem weight_one_shiftLeft {n a : Nat} (h : a < n) : weight n (1 <<< a) = 1 := by
  have hcount : (1 <<< a).testBit = fun i => i == a := by
    funext i
    rw [testBit_one_shiftLeft]
    by_cases hi : a = i
    · rw [decide_eq_true hi, hi, beq_self_eq_true]
    · rw [decide_eq_false hi, beq_eq_false_iff_ne.mpr (Ne.symm hi)]
  rw [weight, hcount, ← count_eq_countP, count_eq_one_of_mem nodup_range
    (mem_range.mpr h)]

theorem weight_clear {n v a : Nat} (h : a < n) (ha : v.testBit a = true) :
    weight n (v ^^^ 1 <<< a)+1 = weight n v := by
  have hone := weight_xor_add (a := v) (b := 1 <<< a) (fun i hi => by
    rw [testBit_one_shiftLeft, decide_eq_true_eq] at hi
    rw [← hi, ha]) n
  rwa [weight_one_shiftLeft h] at hone

theorem weight_two_bits {n a b : Nat} (hab : a ≠ b) (ha : a < n) (hb : b < n) :
    weight n (1 <<< a ^^^ 1 <<< b) = 2 := by
  have hbit : (1 <<< a ^^^ 1 <<< b).testBit b = true := by
    rw [Nat.testBit_xor, testBit_one_shiftLeft, testBit_one_shiftLeft, decide_eq_false hab,
      decide_eq_true rfl]
    rfl
  rw [← weight_clear hb hbit, Nat.xor_xor_cancel_right, weight_one_shiftLeft ha]

theorem exists_testBit {n v : Nat} (h : v < 2^n) (hv : v ≠ 0) :
    ∃ a, a < n ∧ v.testBit a = true := by
  obtain ⟨a,ha⟩ := Nat.exists_testBit_of_ne_zero hv
  refine ⟨a, ?_, ha⟩
  by_contra hn
  rw [Nat.testBit_lt_two_pow (lt_of_lt_of_le h (Nat.pow_le_pow_right (by decide) (by omega)))] at ha
  cases ha

theorem eq_zero_of_weight {n v : Nat} (h : v < 2^n) (hw : weight n v = 0) : v = 0 := by
  by_contra hv
  obtain ⟨a,ha,hbit⟩ := exists_testBit h hv
  have := weight_clear ha hbit
  omega

theorem xor_one_shiftLeft_lt {n v a : Nat} (h : v < 2^n) (ha : a < n) : v ^^^ 1 <<< a < 2^n := by
  refine Nat.xor_lt_two_pow h ?_
  rw [Nat.one_shiftLeft]
  exact Nat.pow_lt_pow_right (by decide) ha

theorem of_weight_one {n v : Nat} (h : v < 2^n) (hw : weight n v = 1) :
    ∃ a, a < n ∧ v = 1 <<< a := by
  obtain ⟨a,ha,hbit⟩ := exists_testBit h (by rintro rfl; rw [weight_zero] at hw; cases hw)
  have hclear := weight_clear ha hbit
  have hzero := eq_zero_of_weight (xor_one_shiftLeft_lt h ha) (by omega)
  exact ⟨a, ha, Nat.xor_eq_zero_iff.mp hzero⟩

theorem of_weight_two {n v : Nat} (h : v < 2^n) (hw : weight n v = 2) :
    ∃ a b, a < b ∧ b < n ∧ v = 1 <<< a ^^^ 1 <<< b := by
  obtain ⟨a,ha,hbit⟩ := exists_testBit h (by rintro rfl; rw [weight_zero] at hw; cases hw)
  have hclear := weight_clear ha hbit
  obtain ⟨b,hb,heq⟩ := of_weight_one (xor_one_shiftLeft_lt h ha) (by omega)
  have hv : v = 1 <<< b ^^^ 1 <<< a := by rw [← heq, Nat.xor_xor_cancel_right]
  have hne : a ≠ b := by
    rintro rfl
    rw [Nat.xor_self] at hv
    rw [hv, weight_zero] at hw
    cases hw
  obtain hlt | hgt := Nat.lt_or_gt_of_ne hne
  · exact ⟨a, b, hlt, hb, by rw [hv, Nat.xor_comm]⟩
  · exact ⟨b, a, hgt, ha, hv⟩

theorem weight_of_lt {m n v : Nat} (h : v < 2^m) (hmn : m ≤ n) : weight n v = weight m v := by
  induction n, hmn using Nat.le_induction with
  | base => rfl
  | succ n hmn ih =>
    rw [weight_succ, ih,
      Nat.testBit_lt_two_pow (lt_of_lt_of_le h (Nat.pow_le_pow_right (by decide) hmn))]
    rfl

theorem weight_shift (n v : Nat) : weight (n+1) v = (v.testBit 0).toNat+weight n (v >>> 1) := by
  induction n with
  | zero => rw [weight_succ]; exact Nat.add_comm _ _
  | succ n ih =>
    rw [weight_succ, ih, weight_succ n, Nat.testBit_shiftRight, Nat.add_comm 1 n, Nat.add_assoc]

theorem xor_one_shiftLeft_lt_self {v k : Nat} (h : v.testBit k = true) : v ^^^ 1 <<< k < v := by
  refine Nat.lt_of_testBit k ?_ h fun j hj => ?_
  · rw [Nat.testBit_xor, h, testBit_one_shiftLeft, decide_eq_true rfl]
    rfl
  · rw [Nat.testBit_xor, testBit_one_shiftLeft, decide_eq_false (Nat.ne_of_lt hj), Bool.xor_false]

section

def spread : List Nat → Nat → Nat
  | [], _ => 0
  | a::l, p => (if p.testBit 0 then 1 <<< a else 0) ^^^ spread l (p >>> 1)

variable {l : List Nat} {p n : Nat}

theorem mem_of_testBit_spread {i : Nat} (h : (spread l p).testBit i = true) : i ∈ l := by
  induction l generalizing p with
  | nil => simp [spread] at h
  | cons a l ih =>
    by_cases ha : a = i
    · exact ha ▸ mem_cons_self
    · refine mem_cons_of_mem a (ih (p := p >>> 1) ?_)
      rw [spread, Nat.testBit_xor] at h
      split at h
      · rwa [testBit_one_shiftLeft, decide_eq_false ha, Bool.false_xor] at h
      · rwa [Nat.zero_testBit, Bool.false_xor] at h

theorem spread_xor (l : List Nat) (p q : Nat) : spread l (p ^^^ q) = spread l p ^^^ spread l q := by
  induction l generalizing p q with
  | nil => exact (Nat.xor_self 0).symm
  | cons a l ih =>
    rw [spread, spread, spread, Nat.shiftRight_xor_distrib, ih, Nat.testBit_xor]
    cases p.testBit 0 <;> cases q.testBit 0
    · simp
    · simp [Nat.xor_left_comm]
    · simp [Nat.xor_assoc]
    · simp [Nat.xor_assoc, Nat.xor_left_comm]

theorem exists_bit_of_spread {i : Nat} (h : (spread l p).testBit i = true) :
    ∃ k, k < l.length ∧ p.testBit k = true ∧ spread l (1 <<< k) = 1 <<< i := by
  induction l generalizing p with
  | nil => simp [spread] at h
  | cons a l ih =>
    have hzero : spread l 0 = 0 := by simpa using spread_xor l 0 0
    by_cases ha : a = i ∧ p.testBit 0 = true
    · refine ⟨0, Nat.succ_pos _, ha.2, ?_⟩
      rw [spread, show (1 <<< 0 : Nat) >>> 1 = 0 from rfl, hzero, ha.1]
      exact Nat.xor_zero _
    have htail : (spread l (p >>> 1)).testBit i = true := by
      rw [spread, Nat.testBit_xor] at h
      split at h
      · rename_i hp
        rwa [testBit_one_shiftLeft, decide_eq_false fun he => ha ⟨he, hp⟩, Bool.false_xor] at h
      · rwa [Nat.zero_testBit, Bool.false_xor] at h
    obtain ⟨k,hk,hbit,heq⟩ := ih htail
    rw [Nat.testBit_shiftRight, Nat.add_comm] at hbit
    refine ⟨k+1, Nat.succ_lt_succ hk, hbit, ?_⟩
    have hshift : (1 <<< (k+1)) >>> 1 = 1 <<< k := by
      rw [Nat.shiftLeft_succ, Nat.shiftRight_one, Nat.mul_div_cancel_left _ Nat.two_pos]
    rw [spread, hshift, heq, testBit_one_shiftLeft, decide_eq_false (Nat.succ_ne_zero k)]
    exact Nat.zero_xor _

theorem weight_spread (hn : l.Nodup) (h : ∀ a ∈ l, a < n) (p : Nat) :
    weight n (spread l p) = weight l.length p := by
  induction l generalizing p with
  | nil => exact weight_zero n
  | cons a l ih =>
    obtain ⟨ha,hn'⟩ := nodup_cons.mp hn
    have htail := ih hn' (fun b hb => h b (mem_cons_of_mem a hb)) (p >>> 1)
    rw [length_cons, weight_shift, spread, ← htail]
    split
    · rename_i hp
      have hbit : (1 <<< a ^^^ spread l (p >>> 1)).testBit a = true := by
        rw [Nat.testBit_xor, testBit_one_shiftLeft, decide_eq_true rfl,
          Bool.eq_false_iff.mpr fun hin => ha (mem_of_testBit_spread hin)]
        rfl
      rw [← weight_clear (h a mem_cons_self) hbit, Nat.xor_comm, ← Nat.xor_assoc, Nat.xor_self,
        Nat.zero_xor, hp, Nat.add_comm]
      rfl
    · rename_i hp
      rw [Nat.zero_xor, Bool.eq_false_iff.mpr hp, Bool.toNat_false, Nat.zero_add]

theorem spread_eq_zero_iff (hn : l.Nodup) (h : ∀ a ∈ l, a < n) (hp : p < 2^l.length) :
    spread l p = 0 ↔ p = 0 := by
  constructor
  · intro hz
    have hw := weight_spread hn h p
    rw [hz, weight_zero] at hw
    exact eq_zero_of_weight hp hw.symm
  · rintro rfl
    simpa using spread_xor l 0 0

theorem exists_spread {v : Nat} (hv : ∀ i, v.testBit i = true → i ∈ l) :
    ∃ p, p < 2^l.length ∧ spread l p = v := by
  induction l generalizing v with
  | nil =>
    refine ⟨0, Nat.one_pos, ?_⟩
    by_contra hne
    obtain ⟨i,hi⟩ := Nat.exists_testBit_of_ne_zero (Ne.symm hne)
    cases hv i hi
  | cons a l ih =>
    have hrest : ∃ w, (∀ i, w.testBit i = true → i ∈ l) ∧
        v = (if v.testBit a then 1 <<< a else 0) ^^^ w := by
      by_cases ha : v.testBit a = true
      · refine ⟨v ^^^ 1 <<< a, fun i hi => ?_, ?_⟩
        · by_cases hai : a = i
          · rw [← hai, Nat.testBit_xor, ha, testBit_one_shiftLeft, decide_eq_true rfl] at hi
            cases hi
          · rw [Nat.testBit_xor, testBit_one_shiftLeft, decide_eq_false hai, Bool.xor_false] at hi
            exact (mem_cons.mp (hv i hi)).resolve_left (Ne.symm hai)
        · rw [if_pos ha, Nat.xor_left_comm, Nat.xor_self, Nat.xor_zero]
      · refine ⟨v, fun i hi => ?_, by rw [if_neg ha, Nat.zero_xor]⟩
        obtain rfl | hin := mem_cons.mp (hv i hi)
        · exact absurd hi ha
        · exact hin
    obtain ⟨w,hw,heq⟩ := hrest
    obtain ⟨p,hp,rfl⟩ := ih hw
    refine ⟨Nat.bit (v.testBit a) p, ?_, ?_⟩
    · rw [length_cons, Nat.pow_succ, Nat.bit_val]
      have := (v.testBit a).toNat_le
      omega
    · rw [spread, Nat.testBit_bit_zero, Nat.bit_shiftRight_one]
      exact heq.symm

end

section
variable {α : Type*}

def chosen : List α → Nat → List α
  | [], _ => []
  | a::l, p => if p.testBit 0 then a::chosen l (p >>> 1) else chosen l (p >>> 1)

theorem chosen_sublist (l : List α) (p : Nat) : (chosen l p).Sublist l := by
  induction l generalizing p with
  | nil => exact List.Sublist.refl _
  | cons a l ih =>
    rw [chosen]
    split
    · exact (ih _).cons_cons a
    · exact (ih _).cons a

theorem exists_chosen {t l : List α} (h : t.Sublist l) : ∃ p, p < 2^l.length ∧ chosen l p = t := by
  have hbit (b : Bool) {p n : Nat} (hp : p < 2^n) : Nat.bit b p < 2^(n+1) := by
    rw [Nat.pow_succ, Nat.bit_val]
    have := b.toNat_le
    omega
  induction h with
  | slnil => exact ⟨0, Nat.one_pos, rfl⟩
  | cons a _ ih =>
    obtain ⟨p,hp,rfl⟩ := ih
    refine ⟨Nat.bit false p, hbit false hp, ?_⟩
    rw [chosen, Nat.testBit_bit_zero, Nat.bit_shiftRight_one]
    rfl
  | cons_cons a _ ih =>
    obtain ⟨p,hp,rfl⟩ := ih
    refine ⟨Nat.bit true p, hbit true hp, ?_⟩
    rw [chosen, Nat.testBit_bit_zero, Nat.bit_shiftRight_one]
    rfl

end

end IridiumAcars.BitCount
