import IridiumAcars.Lib.KeyEquation
import Mathlib.Algebra.Field.GeomSum
import Mathlib.RingTheory.Polynomial.DegreeLT

/-! Power sums of located values: locator, evaluator and their key equation. -/
namespace IridiumAcars.Locator
open Polynomial KeyEquation Finset
variable {F ι : Type*} [Field F]

noncomputable def locator (a : ι → F) (s : Finset ι) : F[X] := ∏ i ∈ s, (1 - C (a i)*X)

noncomputable def evaluator [DecidableEq ι] (a y : ι → F) (s : Finset ι) : F[X] :=
  ∑ i ∈ s, C (y i)*locator a (s.erase i)

noncomputable def powerSums (a y : ι → F) (s : Finset ι) (n : ℕ) : F[X] :=
  ∑ j ∈ range n, C (∑ i ∈ s, y i*a i^j)*X^j

variable {i : ι}

section
variable (a y : ι → F) (s : Finset ι)

theorem locator_zero : (locator a s).coeff 0 = 1 := by
  rw [coeff_zero_eq_eval_zero, locator, eval_prod]
  apply prod_eq_one
  intro i _
  simp

theorem natDegree_factor_le (c : F) : (1 - C c*X).natDegree ≤ 1 := by
  apply le_trans (natDegree_sub_le _ _)
  rw [natDegree_one]
  exact max_le (Nat.zero_le 1) (le_trans (natDegree_C_mul_le c X) natDegree_X.le)

theorem natDegree_locator_le : (locator a s).natDegree ≤ s.card := by
  apply le_trans (natDegree_prod_le s _)
  rw [card_eq_sum_ones]
  exact sum_le_sum fun i _ => natDegree_factor_le (a i)

theorem natDegree_factor {c : F} (hc : c ≠ 0) : (1 - C c*X).natDegree = 1 := by
  have h : (1 - C c*X : F[X]) = C (-c)*X + C 1 := by
    rw [C_neg, C_1]
    ring
  rw [h]
  exact natDegree_linear (neg_ne_zero.mpr hc)

theorem factor_ne_zero (c : F) : (1 - C c*X : F[X]) ≠ 0 := by
  intro h
  have := congrArg (eval 0) h
  simp at this

theorem natDegree_locator (ha : ∀ i ∈ s, a i ≠ 0) : (locator a s).natDegree = s.card := by
  rw [locator, natDegree_prod s _ fun i _ => factor_ne_zero (a i), card_eq_sum_ones]
  exact sum_congr rfl fun i hi => natDegree_factor (ha i hi)

theorem factor_mul_geom (c : F) (n : ℕ) :
    (1 - C c*X)*(∑ j ∈ range n, C (c^j)*X^j) = 1 - C (c^n)*X^n := by
  have h : ∀ j, C (c^j)*X^j = (C c*X)^j := by
    intro j
    rw [mul_pow, C_pow]
  simp only [h]
  rw [mul_neg_geom_sum]

theorem powerSums_eq (n : ℕ) :
    powerSums a y s n = ∑ i ∈ s, C (y i)*∑ j ∈ range n, C (a i^j)*X^j := by
  unfold powerSums
  simp only [map_sum, C_mul, sum_mul, mul_sum]
  rw [sum_comm]
  refine sum_congr rfl fun i _ => sum_congr rfl fun j _ => ?_
  ring

theorem eval_factor_self {c : F} (hc : c ≠ 0) : (1 - C c*X).eval c⁻¹ = 0 := by
  simp [mul_inv_cancel₀ hc]

theorem eval_locator_ne_zero (ha : a i ≠ 0) (hne : ∀ j ∈ s, a j ≠ a i) :
    (locator a s).eval (a i)⁻¹ ≠ 0 := by
  rw [locator, eval_prod, prod_ne_zero_iff]
  intro j hj hz
  apply hne j hj
  have h1 : a j*(a i)⁻¹ = 1 := by
    have : 1 - a j*(a i)⁻¹ = 0 := by simpa using hz
    exact (sub_eq_zero.mp this).symm
  exact (mul_inv_eq_one₀ ha).mp h1

theorem coeff_powerSums (n j : ℕ) (hj : j < n) :
    (powerSums a y s n).coeff j = ∑ i ∈ s, y i*a i^j := by
  rw [powerSums, finsetSum_coeff, sum_eq_single j]
  · rw [coeff_C_mul_X_pow, if_pos rfl]
  · intro k _ hk
    rw [coeff_C_mul_X_pow, if_neg hk.symm]
  · intro h
    exact absurd (mem_range.mpr hj) h

theorem degree_powerSums_lt (n : ℕ) : (powerSums a y s n).degree < (n : WithBot ℕ) := by
  rw [powerSums, ← mem_degreeLT]
  apply Submodule.sum_mem
  intro j hj
  rw [mem_degreeLT]
  apply degree_C_mul_lt
  rw [degree_X_pow]
  exact_mod_cast mem_range.mp hj

theorem coeff_mul_powerSums (g : F[X]) (n i : ℕ) (hg : g.natDegree ≤ i) (hi : i < n)
    (ha : ∀ p ∈ s, a p ≠ 0) :
    (g*powerSums a y s n).coeff i = ∑ p ∈ s, y p*a p^i*g.eval (a p)⁻¹ := by
  rw [coeff_mul, Finset.Nat.sum_antidiagonal_eq_sum_range_succ_mk]
  have hterm (j : ℕ) (hj : j ∈ range (i+1)) :
      g.coeff j*(powerSums a y s n).coeff (i-j) = ∑ p ∈ s, y p*a p^i*(g.coeff j*(a p)⁻¹^j) := by
    have hji := mem_range.mp hj
    rw [coeff_powerSums a y s n (i-j) (by omega), mul_sum]
    apply sum_congr rfl
    intro p hp
    rw [pow_sub₀ (a p) (ha p hp) (by omega), inv_pow]
    ring
  rw [sum_congr rfl hterm, sum_comm]
  apply sum_congr rfl
  intro p _
  rw [← mul_sum, ← eval_eq_sum_range' (by omega)]

variable [DecidableEq ι]

theorem locator_eq_mul_erase (hi : i ∈ s) :
    locator a s = (1 - C (a i)*X)*locator a (s.erase i) :=
  (mul_prod_erase s _ hi).symm

theorem degree_evaluator_lt : (evaluator a y s).degree < (s.card : WithBot ℕ) := by
  rw [evaluator, ← mem_degreeLT]
  apply Submodule.sum_mem
  intro i hi
  rw [mem_degreeLT]
  apply degree_C_mul_lt
  have hle := natDegree_locator_le a (s.erase i)
  rw [card_erase_of_mem hi] at hle
  have hpos : 0 < s.card := card_pos.mpr ⟨i, hi⟩
  have hlt : (locator a (s.erase i)).natDegree < s.card := by omega
  exact lt_of_le_of_lt degree_le_natDegree (by exact_mod_cast hlt)

theorem key_powerSums (n : ℕ) : X^n ∣ locator a s*powerSums a y s n - evaluator a y s := by
  rw [powerSums_eq, evaluator, mul_sum, ← sum_sub_distrib]
  apply dvd_sum
  intro i hi
  refine ⟨-(C (y i)*C (a i^n)*locator a (s.erase i)), ?_⟩
  have hg := factor_mul_geom (a i) n
  rw [locator_eq_mul_erase a s hi]
  calc (1 - C (a i)*X)*locator a (s.erase i)*(C (y i)*∑ j ∈ range n, C (a i^j)*X^j) -
        C (y i)*locator a (s.erase i)
      = C (y i)*locator a (s.erase i)*
          ((1 - C (a i)*X)*∑ j ∈ range n, C (a i^j)*X^j) -
        C (y i)*locator a (s.erase i) := by ring
    _ = X^n*-(C (y i)*C (a i^n)*locator a (s.erase i)) := by
      rw [hg]
      ring

theorem eval_locator_mem (hi : i ∈ s) (ha : a i ≠ 0) : (locator a s).eval (a i)⁻¹ = 0 := by
  rw [locator_eq_mul_erase a s hi, eval_mul, eval_factor_self ha, zero_mul]

theorem eval_evaluator (hi : i ∈ s) (ha : a i ≠ 0) :
    (evaluator a y s).eval (a i)⁻¹ = y i*(locator a (s.erase i)).eval (a i)⁻¹ := by
  rw [evaluator, eval_finsetSum, sum_eq_single i]
  · rw [eval_mul, eval_C]
  · intro j hj hji
    rw [eval_mul, eval_locator_mem a (s.erase j) (mem_erase.mpr ⟨hji.symm, hi⟩) ha, mul_zero]
  · intro h
    exact absurd hi h

theorem eval_derivative (hi : i ∈ s) (ha : a i ≠ 0) :
    (derivative (locator a s)).eval (a i)⁻¹ = -a i*(locator a (s.erase i)).eval (a i)⁻¹ := by
  have hd : derivative (1 - C (a i)*X) = C (-a i) := by simp
  rw [locator_eq_mul_erase a s hi, derivative_mul, hd, eval_add, eval_mul, eval_mul, eval_C,
    eval_factor_self ha, zero_mul, add_zero]

theorem eval_locator_erase_ne_zero (hi : i ∈ s) (ha : a i ≠ 0) (hinj : Set.InjOn a s) :
    (locator a (s.erase i)).eval (a i)⁻¹ ≠ 0 := by
  apply eval_locator_ne_zero a _ ha
  intro j hj he
  exact (mem_erase.mp hj).1 (hinj (mem_erase.mp hj).2 hi he)

end

theorem values_eq_zero [DecidableEq ι] (a y : ι → F) (s : Finset ι) (n : ℕ) (ha : ∀ i ∈ s, a i ≠ 0)
    (hinj : Set.InjOn a s) (hn : s.card ≤ n) (hzero : powerSums a y s n = 0) :
    ∀ i ∈ s, y i = 0 := by
  have hev : evaluator a y s = 0 := by
    have hk := key_powerSums a y s n
    rw [hzero, mul_zero, zero_sub, dvd_neg] at hk
    exact eq_zero_of_X_pow_dvd hk (degree_lt_mono (degree_evaluator_lt a y s) hn)
  intro i hi
  have he := eval_evaluator a y s hi (ha i hi)
  rw [hev, eval_zero] at he
  have hne := eval_locator_erase_ne_zero a s hi (ha i hi) hinj
  exact (mul_eq_zero.mp he.symm).resolve_right hne

theorem isCoprime_factor {c : F} (hc : c ≠ 0) {p : F[X]} (hp : p.eval c⁻¹ ≠ 0) :
    IsCoprime (1 - C c*X) p := by
  obtain ⟨q,hq⟩ := X_sub_C_dvd_sub_C_eval (a := c⁻¹) (p := p)
  have hfac : (1 - C c*X : F[X]) = C (-c)*(X - C c⁻¹) := by
    rw [mul_sub, ← C_mul, neg_mul, mul_inv_cancel₀ hc, C_neg, C_neg, C_1]
    ring
  refine ⟨C (p.eval c⁻¹)⁻¹*C c⁻¹*q, C (p.eval c⁻¹)⁻¹, ?_⟩
  have hp' : p = (X - C c⁻¹)*q + C (p.eval c⁻¹) := by
    rw [← hq]
    ring
  have hcc : C c⁻¹*C (-c) = (-1 : F[X]) := by
    rw [← C_mul, mul_neg, inv_mul_cancel₀ hc, C_neg, C_1]
  have hee : C (p.eval c⁻¹)⁻¹*C (p.eval c⁻¹) = (1 : F[X]) := by
    rw [← C_mul, inv_mul_cancel₀ hp, C_1]
  calc C (p.eval c⁻¹)⁻¹*C c⁻¹*q*(1 - C c*X) + C (p.eval c⁻¹)⁻¹*p
      = C (p.eval c⁻¹)⁻¹*(C c⁻¹*C (-c))*(q*(X - C c⁻¹)) +
          C (p.eval c⁻¹)⁻¹*((X - C c⁻¹)*q + C (p.eval c⁻¹)) := by
        rw [hfac, ← hp']
        ring
    _ = 1 := by
        rw [hcc, mul_add, hee]
        ring

theorem isCoprime_locator_evaluator [DecidableEq ι] (a y : ι → F) (s : Finset ι)
    (ha : ∀ i ∈ s, a i ≠ 0) (hinj : Set.InjOn a s) (hy : ∀ i ∈ s, y i ≠ 0) :
    IsCoprime (locator a s) (evaluator a y s) := by
  apply IsCoprime.prod_left
  intro i hi
  apply isCoprime_factor (ha i hi)
  rw [eval_evaluator a y s hi (ha i hi)]
  exact mul_ne_zero (hy i hi) (eval_locator_erase_ne_zero a s hi (ha i hi) hinj)

end IridiumAcars.Locator
