import Mathlib.Algebra.Polynomial.FieldDivision

/-! Shortest registers by successive approximation: `lam*t ≡ om` modulo `X^n`. -/
namespace IridiumAcars.KeyEquation
open Polynomial
variable {F : Type*} [Field F]

theorem degree_mul_lt {p q : F[X]} {a b : ℕ} (hp : p.natDegree ≤ a) (hq : q.degree < (b : ℕ)) :
    (p*q).degree < ((a+b : ℕ) : WithBot ℕ) := by
  by_cases h0 : q = 0
  · rw [h0, mul_zero, degree_zero]
    exact WithBot.bot_lt_coe _
  · have hqn : q.natDegree < b := (natDegree_lt_iff_degree_lt h0).mpr hq
    by_cases hpq : p*q = 0
    · rw [hpq, degree_zero]
      exact WithBot.bot_lt_coe _
    · have hle := natDegree_mul_le (p := p) (q := q)
      exact (natDegree_lt_iff_degree_lt hpq).mp (by omega)

variable {p : F[X]}

theorem degree_lt_mono {a b : ℕ} (h : p.degree < (a : ℕ)) (hab : a ≤ b) :
    p.degree < (b : ℕ) :=
  lt_of_lt_of_le h (by exact_mod_cast hab)

theorem degree_sub_lt_of {p q : F[X]} {a : ℕ} (hp : p.degree < (a : ℕ)) (hq : q.degree < (a : ℕ)) :
    (p-q).degree < (a : ℕ) :=
  lt_of_le_of_lt (degree_sub_le p q) (max_lt hp hq)

variable (c : F)

theorem degree_C_mul_lt {a : ℕ} (hp : p.degree < (a : ℕ)) :
    (C c*p).degree < (a : ℕ) := by
  have h := degree_mul_lt (natDegree_C c).le hp
  rwa [Nat.zero_add] at h

theorem natDegree_adjust_le {p q : F[X]} {k : ℕ} (hp : p.natDegree ≤ k)
    (hq : q.natDegree ≤ k) : (p - C c*q).natDegree ≤ k :=
  le_trans (natDegree_sub_le _ _) (max_le hp (le_trans (natDegree_C_mul_le c q) hq))

theorem eq_zero_of_X_pow_dvd {n : ℕ} (h : X^n ∣ p) (hd : p.degree < (n : ℕ)) : p = 0 :=
  eq_zero_of_dvd_of_degree_lt h (by rwa [degree_X_pow])

theorem X_pow_succ_dvd {n : ℕ} (h : X^n ∣ p) : X^(n+1) ∣ p - C (p.coeff n)*X^n := by
  rw [X_pow_dvd_iff] at h ⊢
  intro d hd
  rw [coeff_sub, coeff_C_mul, coeff_X_pow]
  split_ifs with hdn
  · rw [hdn]
    ring
  · rw [h d (by omega)]
    ring

/-- A register `lam` for `n` symbols, with the shifted register `aux` that last failed, by `b`. -/
structure Synthesis (t : F[X]) (n L : ℕ) (lam om aux auxOm : F[X]) (b : F) : Prop where
  length_le : L ≤ n
  key : X^n ∣ lam*t - om
  lam_deg : lam.natDegree ≤ L
  om_deg : om.degree < (L : ℕ)
  lam_zero : lam.coeff 0 = 1
  b_ne : b ≠ 0
  aux_key : X^(n+1) ∣ aux*t - auxOm - C b*X^n
  aux_deg : aux.natDegree ≤ n+1-L
  auxOm_deg : auxOm.degree < ((n+1-L : ℕ) : WithBot ℕ)
  aux_zero : aux.coeff 0 = 0

theorem synthesis_start (t : F[X]) : Synthesis t 0 0 1 0 X (-1) 1 where
  length_le := le_refl 0
  key := by
    rw [pow_zero]
    exact one_dvd _
  lam_deg := by rw [natDegree_one]
  om_deg := by
    rw [degree_zero]
    exact WithBot.bot_lt_coe _
  lam_zero := coeff_one_zero
  b_ne := one_ne_zero
  aux_key := by
    refine ⟨t, ?_⟩
    rw [C_1]
    ring
  aux_deg := by
    rw [natDegree_X]
  auxOm_deg := by
    rw [degree_neg, degree_one]
    exact_mod_cast Nat.zero_lt_one
  aux_zero := coeff_X_zero

section
variable {t lam om aux auxOm : F[X]} {n L : ℕ} {b : F}

theorem Synthesis.discrepancy (h : Synthesis t n L lam om aux auxOm b) :
    X^(n+1) ∣ lam*t - om - C ((lam*t).coeff n)*X^n := by
  have hc : (lam*t - om).coeff n = (lam*t).coeff n := by
    rw [coeff_sub, coeff_eq_zero_of_degree_lt
      (lt_of_lt_of_le h.om_deg (by exact_mod_cast h.length_le)), sub_zero]
  rw [← hc]
  exact X_pow_succ_dvd h.key

theorem X_dvd_shift {k : ℕ} (h : X^k ∣ p) : X^(k+1) ∣ X*p := by
  rw [pow_succ']
  exact mul_dvd_mul_left X h

theorem Synthesis.aux_shift (h : Synthesis t n L lam om aux auxOm b) :
    X^(n+1+1) ∣ X*aux*t - X*auxOm - C b*X^(n+1) := by
  have hs := X_dvd_shift h.aux_key
  have he : X*(aux*t - auxOm - C b*X^n) = X*aux*t - X*auxOm - C b*X^(n+1) := by ring
  rwa [he] at hs

theorem natDegree_X_mul_le' {k : ℕ} (h : p.natDegree ≤ k) : (X*p).natDegree ≤ k+1 := by
  have := natDegree_mul_le (p := (X : F[X])) (q := p)
  rw [natDegree_X] at this
  omega

theorem degree_X_mul_lt {k : ℕ} (h : p.degree < (k : ℕ)) :
    (X*p).degree < ((k+1 : ℕ) : WithBot ℕ) := by
  have := degree_mul_lt (natDegree_X (R := F)).le h
  rwa [Nat.add_comm] at this

variable (h : Synthesis t n L lam om aux auxOm b)
include h

theorem Synthesis.advance {lam' om' : F[X]} (key : X^(n+1) ∣ lam'*t - om')
    (lam_deg : lam'.natDegree ≤ L) (om_deg : om'.degree < L) (lam_zero : lam'.coeff 0 = 1) :
    Synthesis t (n+1) L lam' om' (X*aux) (X*auxOm) b where
  length_le := Nat.le_succ_of_le h.length_le
  key := key
  lam_deg := lam_deg
  om_deg := om_deg
  lam_zero := lam_zero
  b_ne := h.b_ne
  aux_key := h.aux_shift
  aux_deg := by
    have hl := h.length_le
    have := natDegree_X_mul_le' h.aux_deg
    omega
  auxOm_deg := by
    have hl := h.length_le
    exact degree_lt_mono (degree_X_mul_lt h.auxOm_deg) (by omega)
  aux_zero := by rw [mul_coeff_zero, coeff_X_zero, zero_mul]

theorem Synthesis.keep (hd : (lam*t).coeff n = 0) :
    Synthesis t (n+1) L lam om (X*aux) (X*auxOm) b := by
  have hk := h.discrepancy
  rw [hd, C_0, zero_mul, sub_zero] at hk
  exact h.advance hk h.lam_deg h.om_deg h.lam_zero

theorem Synthesis.key_adjust (hc : c*b = (lam*t).coeff n) :
    X^(n+1) ∣ (lam - C c*aux)*t - (om - C c*auxOm) := by
  have hsum := dvd_sub h.discrepancy (dvd_mul_of_dvd_right h.aux_key (C c))
  have he : lam*t - om - C ((lam*t).coeff n)*X^n - C c*(aux*t - auxOm - C b*X^n) =
      (lam - C c*aux)*t - (om - C c*auxOm) := by
    rw [← hc, C_mul]
    ring
  rwa [he] at hsum

theorem Synthesis.adjust_zero :
    (lam - C c*aux).coeff 0 = 1 := by
  rw [coeff_sub, coeff_C_mul, h.aux_zero, h.lam_zero, mul_zero, sub_zero]

theorem Synthesis.adjust (hc : c*b = (lam*t).coeff n) (hL : n < 2*L) :
    Synthesis t (n+1) L (lam - C c*aux) (om - C c*auxOm) (X*aux) (X*auxOm) b :=
  h.advance (h.key_adjust c hc)
    (natDegree_adjust_le c h.lam_deg (le_trans h.aux_deg (by omega)))
    (degree_sub_lt_of h.om_deg (degree_C_mul_lt c (degree_lt_mono h.auxOm_deg (by omega))))
    (h.adjust_zero c)

/-- A discrepancy that makes the register longer; the old one becomes the failed one. -/
theorem Synthesis.grow (hc : c*b = (lam*t).coeff n) (hd : (lam*t).coeff n ≠ 0)
    (hL : 2*L ≤ n) :
    Synthesis t (n+1) (n+1-L) (lam - C c*aux) (om - C c*auxOm) (X*lam) (X*om)
      ((lam*t).coeff n) where
  length_le := by omega
  key := h.key_adjust c hc
  lam_deg := natDegree_adjust_le c (le_trans h.lam_deg (by omega)) h.aux_deg
  om_deg := degree_sub_lt_of (degree_lt_mono h.om_deg (by omega)) (degree_C_mul_lt c h.auxOm_deg)
  lam_zero := h.adjust_zero c
  b_ne := hd
  aux_key := by
    have hs := X_dvd_shift h.discrepancy
    have he : X*(lam*t - om - C ((lam*t).coeff n)*X^n) =
        X*lam*t - X*om - C ((lam*t).coeff n)*X^(n+1) := by ring
    rwa [he] at hs
  aux_deg := by
    have := natDegree_X_mul_le' h.lam_deg
    omega
  auxOm_deg := degree_lt_mono (degree_X_mul_lt h.om_deg) (by omega)
  aux_zero := by rw [mul_coeff_zero, coeff_X_zero, zero_mul]

variable {lam' om' : F[X]} {k : ℕ}

theorem Synthesis.length_min (hkey : X^n ∣ lam'*t - om') (hlam : lam'.natDegree ≤ k)
    (hom : om'.degree < (k : ℕ)) (hzero : lam'.coeff 0 = 1) :
    L ≤ k := by
  by_contra hlt
  have hl := h.length_le
  have hX : X ∣ aux := X_dvd_iff.mpr h.aux_zero
  have hcross : X^(n+1) ∣ aux*(lam'*t - om') := by
    rw [pow_succ']
    exact mul_dvd_mul hX hkey
  have hdiff := dvd_sub hcross (dvd_mul_of_dvd_right h.aux_key lam')
  have he : aux*(lam'*t - om') - lam'*(aux*t - auxOm - C b*X^n) =
      lam'*auxOm - aux*om' + C b*(lam'*X^n) := by ring
  rw [he, X_pow_dvd_iff] at hdiff
  have hn := hdiff n (by omega)
  have hlow : (lam'*auxOm - aux*om').degree < (n : ℕ) := by
    apply degree_sub_lt_of
    · exact degree_lt_mono (degree_mul_lt hlam h.auxOm_deg) (by omega)
    · exact degree_lt_mono (degree_mul_lt h.aux_deg hom) (by omega)
  rw [coeff_add, coeff_eq_zero_of_degree_lt hlow, coeff_C_mul, coeff_mul_X_pow', if_pos (le_refl n),
    Nat.sub_self, hzero, mul_one, zero_add] at hn
  exact h.b_ne hn

/-- A register with coprime parts and half the length is the one that is found. -/
theorem Synthesis.unique (hkey : X^n ∣ lam'*t - om') (hlam : lam'.natDegree = k)
    (hom : om'.degree < (k : ℕ)) (hzero : lam'.coeff 0 = 1) (hcop : IsCoprime lam' om')
    (hk : 2*k ≤ n) : lam = lam' ∧ L = k := by
  have hLk := h.length_min hkey hlam.le hom hzero
  have hcross : lam'*om - lam*om' = 0 := by
    apply eq_zero_of_X_pow_dvd (n := n)
    · have hd := dvd_sub (dvd_mul_of_dvd_right hkey lam) (dvd_mul_of_dvd_right h.key lam')
      have he : lam*(lam'*t - om') - lam'*(lam*t - om) = lam'*om - lam*om' := by ring
      rwa [he] at hd
    · apply degree_sub_lt_of
      · exact degree_lt_mono (degree_mul_lt hlam.le h.om_deg) (by omega)
      · exact degree_lt_mono (degree_mul_lt h.lam_deg hom) (by omega)
  have hdvd : lam' ∣ lam := by
    apply hcop.dvd_of_dvd_mul_right
    exact ⟨om, (sub_eq_zero.mp hcross).symm⟩
  obtain ⟨q,hq⟩ := hdvd
  have hlam0 : lam ≠ 0 := by
    intro h0
    have := h.lam_zero
    rw [h0, coeff_zero] at this
    exact zero_ne_one this
  have hq0 : q ≠ 0 := right_ne_zero_of_mul (hq ▸ hlam0)
  have hl0 : lam' ≠ 0 := left_ne_zero_of_mul (hq ▸ hlam0)
  have hdeg : lam.natDegree = k+q.natDegree := by
    rw [hq, natDegree_mul hl0 hq0, hlam]
  have hle := h.lam_deg
  have hqc : q = 1 := by
    have hc := eq_C_of_natDegree_eq_zero (p := q) (by omega)
    have h1 := h.lam_zero
    rw [hq, mul_coeff_zero, hzero, one_mul] at h1
    rw [hc, h1, C_1]
  refine ⟨by rw [hq, hqc, mul_one], by omega⟩

end

end IridiumAcars.KeyEquation
