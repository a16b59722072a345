import Mathlib.Algebra.BigOperators.Fin
import Mathlib.Algebra.CharP.Two
import Mathlib.Algebra.Polynomial.Derivative
import Mathlib.Algebra.Polynomial.Degree.Lemmas
import Mathlib.Data.List.GetD

/-! Polynomials as coefficient lists, lowest power first, and the sums that loops over them compute.
-/
namespace IridiumAcars.CoeffList
open Polynomial List Finset
variable {F : Type*} [Field F]

noncomputable def ofCoeffs (p : List F) : F[X] :=
  ∑ i ∈ range p.length, C (p.getD i 0)*X^i

theorem coeff_ofCoeffs (p : List F) (i : ℕ) : (ofCoeffs p).coeff i = p.getD i 0 := by
  rw [ofCoeffs, finsetSum_coeff]
  simp only [coeff_C_mul_X_pow]
  by_cases hi : i < p.length
  · rw [sum_eq_single i]
    · rw [if_pos rfl]
    · intro j _ hj
      rw [if_neg hj.symm]
    · intro h
      exact absurd (Finset.mem_range.mpr hi) h
  · rw [getD_eq_default _ _ (by omega)]
    apply Finset.sum_eq_zero
    intro j hj
    have := Finset.mem_range.mp hj
    rw [if_neg (by omega)]

theorem ofCoeffs_eq {p : List F} {q : F[X]} (hlow : ∀ i < p.length, p.getD i 0 = q.coeff i)
    (hdeg : q.degree < (p.length : ℕ)) : ofCoeffs p = q := by
  ext i
  rw [coeff_ofCoeffs]
  by_cases hi : i < p.length
  · exact hlow i hi
  · rw [getD_eq_default _ _ (by omega), coeff_eq_zero_of_degree_lt]
    exact lt_of_lt_of_le hdeg (by exact_mod_cast Nat.le_of_not_lt hi)

theorem coeff_mul_window (p q : F[X]) (i : ℕ) {js : Finset ℕ} (hjs : js ⊆ range (i+1))
    (hrest : ∀ j ≤ i, j ∉ js → p.coeff j*q.coeff (i-j) = 0) :
    (p*q).coeff i = ∑ j ∈ js, p.coeff j*q.coeff (i-j) := by
  rw [coeff_mul, Finset.Nat.sum_antidiagonal_eq_sum_range_succ_mk]
  symm
  apply sum_subset hjs
  intro j hj hnot
  exact hrest j (by have := Finset.mem_range.mp hj; omega) hnot

theorem eval_derivative_odd [CharP F 2] (p : F[X]) (d : ℕ) (hd : p.natDegree ≤ d) (x : F) :
    (derivative p).eval x =
      ∑ i ∈ (Finset.range (d+1)).filter (fun i => i%2 = 1), p.coeff i*x^(i-1) := by
  rw [derivative_eval, sum_over_range' p (by simp) (d+1) (by omega), sum_filter]
  apply sum_congr rfl
  intro i _
  rw [CharTwo.natCast_eq_ite]
  by_cases hi : i%2 = 1
  · rw [if_pos hi, if_neg (by rw [Nat.even_iff]; omega), mul_one]
  · rw [if_neg hi, if_pos (by rw [Nat.even_iff]; omega), mul_zero, zero_mul]

section
variable (r : F)

def horner (v : F) (l : List F) : F := l.foldl (fun s x => s*r+x) v

theorem horner_append (v : F) (l m : List F) : horner r v (l++m) = horner r (horner r v l) m :=
  foldl_append

theorem horner_start (v : F) (l : List F) : horner r v l = v*r^l.length+horner r 0 l := by
  induction l generalizing v with
  | nil => simp [horner]
  | cons x l ih =>
    have hv : horner r v (x::l) = horner r (v*r+x) l := rfl
    have h0 : horner r 0 (x::l) = horner r (0*r+x) l := rfl
    rw [hv, h0, ih (v*r+x), ih (0*r+x), length_cons]
    ring

theorem horner_ofFn (n : ℕ) (b : Fin n → F) :
    horner r 0 (List.ofFn b) = ∑ i : Fin n, b i*r^(n-1-i.val) := by
  induction n with
  | zero => simp [horner]
  | succ n ih =>
    rw [ofFn_succ', concat_eq_append, horner_append, ih, Fin.sum_univ_castSucc]
    have hterm (i : Fin n) : b i.castSucc*r^(n-1-i.val)*r = b i.castSucc*r^(n+1-1-i.val) := by
      rw [mul_assoc, ← pow_succ]
      congr 2
      omega
    simp only [horner, foldl_cons, foldl_nil, sum_mul, hterm, Fin.val_castSucc,
      Fin.val_last, Nat.add_sub_cancel, Nat.sub_self, pow_zero, mul_one]

end

end IridiumAcars.CoeffList
