import IridiumAcars.RsPoly
import IridiumAcars.Lib.Locator

/-! The locating half of the decoder: erasure locator, modified syndromes, Berlekamp-Massey. -/
namespace IridiumAcars.RsLocate
open Polynomial Gf256 RsVdl2 RsPoly CoeffList KeyEquation Locator List

theorem mk_convolution (p q : List UInt8) (i : Nat) (js : List Nat) (hjs : js.Nodup)
    (hle : ∀ j ∈ js, j ≤ i)
    (hrest : ∀ j ≤ i, j ∉ js → (poly p).coeff j*(poly q).coeff (i-j) = 0) :
    (⟨js.foldl (fun acc j => acc ^^^ gfMul (p.getD j 0) (q.getD (i-j) 0)) 0⟩ : Gf) =
      (poly p*poly q).coeff i := by
  have hsub : js.toFinset ⊆ Finset.range (i+1) := by
    intro j hj
    have := hle j (mem_toFinset.mp hj)
    exact Finset.mem_range.mpr (by omega)
  rw [mk_foldl_xor js hjs, mk_zero, zero_add, coeff_mul_window _ _ i hsub]
  · simp only [coeff_poly, mk_gfMul, entry]
  · intro j hj hnot
    exact hrest j hj (fun h => hnot (mem_toFinset.mpr h))

theorem mk_product (p q : List UInt8) (i f : Nat) (hp : (poly p).natDegree ≤ f) :
    (⟨((List.range (i+1)).filter fun j => decide (j ≤ f)).foldl
      (fun acc j => acc ^^^ gfMul (p.getD j 0) (q.getD (i-j) 0)) 0⟩ : Gf) =
      (poly p*poly q).coeff i := by
  apply mk_convolution
  · exact nodup_range.filter _
  · intro j hj
    have := mem_range.mp (mem_filter.mp hj).1
    omega
  · intro j hj hnot
    have hjf : f < j := by
      by_contra hle
      apply hnot
      rw [mem_filter, mem_range]
      exact ⟨by omega, decide_eq_true (by omega)⟩
    rw [coeff_eq_zero_of_natDegree_lt (by omega), zero_mul]

theorem poly_errataLocator (lambda gamma : List UInt8) (len f : Nat) (hsum : len+f ≤ 6)
    (hl : (poly lambda).natDegree ≤ len) (hg : (poly gamma).natDegree ≤ f) :
    poly (errataLocator lambda gamma len f) = poly lambda*poly gamma := by
  have hlen : (errataLocator lambda gamma len f).length = 7 := by simp [errataLocator]
  apply poly_eq
  · intro k hk
    rw [errataLocator, entry_map_range 7 k _ (by omega)]
    apply mk_convolution
    · exact nodup_range.filter _
    · intro a ha
      exact (of_decide_eq_true (mem_filter.mp ha).2).1
    · intro a ha hnot
      by_cases hal : a ≤ len
      · have haf : f < k-a := by
          by_contra hle
          apply hnot
          rw [mem_filter, mem_range]
          exact ⟨by omega, decide_eq_true ⟨ha, by omega⟩⟩
        rw [coeff_eq_zero_of_natDegree_lt (p := poly gamma) (by omega), mul_zero]
      · rw [coeff_eq_zero_of_natDegree_lt (by omega), zero_mul]
  · rw [hlen]
    have hle := natDegree_mul_le (p := poly lambda) (q := poly gamma)
    exact lt_of_le_of_lt degree_le_natDegree (by exact_mod_cast (by omega : _ < 7))

def erasureSet (er : List UInt8) : Finset (Fin rsVdl2N) :=
  Finset.univ.filter fun p => UInt8.ofNat p.val ∈ er

variable (pos : UInt8)

theorem ofNat_eq_iff (hpos : pos.toNat < rsVdl2N) (p : Fin rsVdl2N) :
    UInt8.ofNat p.val = pos ↔ p = ⟨pos.toNat, hpos⟩ := by
  have hp : p.val < 255 := p.isLt
  constructor
  · intro h
    have hv := congrArg UInt8.toNat h
    rw [UInt8.toNat_ofNat', Nat.mod_eq_of_lt (by omega)] at hv
    exact Fin.ext hv
  · intro h
    rw [h, UInt8.ofNat_toNat]

theorem erasureSet_cons (rest : List UInt8) (hpos : pos.toNat < rsVdl2N) :
    erasureSet (pos::rest) = insert ⟨pos.toNat, hpos⟩ (erasureSet rest) := by
  ext p
  simp [erasureSet, ofNat_eq_iff pos hpos]

theorem not_mem_erasureSet (rest : List UInt8) (hpos : pos.toNat < rsVdl2N)
    (h : pos ∉ rest) : (⟨pos.toNat, hpos⟩ : Fin rsVdl2N) ∉ erasureSet rest := by
  simpa [erasureSet] using h

theorem card_erasureSet (er : List UInt8) (hnodup : er.Nodup)
    (hrange : ∀ p ∈ er, p.toNat < rsVdl2N) : (erasureSet er).card = er.length := by
  induction er with
  | nil => simp [erasureSet]
  | cons pos rest ih =>
    obtain ⟨hnot,hrest⟩ := nodup_cons.mp hnodup
    have hpos := hrange pos mem_cons_self
    rw [erasureSet_cons pos rest hpos,
      Finset.card_insert_of_notMem (not_mem_erasureSet pos rest hpos hnot),
      ih hrest fun p hp => hrange p (mem_cons_of_mem _ hp), length_cons]

theorem poly_gammaStep (gamma : List UInt8) (e : Nat) (pos : UInt8) (hpos : pos.toNat < rsVdl2N)
    (he : e < 6) (hg : (poly gamma).natDegree ≤ e) :
    poly (gammaStep gamma e pos) = poly gamma*(1 - C (point ⟨pos.toNat, hpos⟩)*X) := by
  have hx : (⟨gfExp (rsVdl2N-1-pos.toNat)⟩ : Gf) = point ⟨pos.toNat, hpos⟩ :=
    gfExp_eq_pw _ (by unfold rsVdl2N; omega)
  have hlen : (gammaStep gamma e pos).length = 7 := by simp [gammaStep]
  have hexpand : poly gamma*(1 - C (point ⟨pos.toNat, hpos⟩)*X) =
      poly gamma + C (point ⟨pos.toNat, hpos⟩)*(poly gamma*X) := by
    rw [mul_sub, mul_one, CharTwo.sub_eq_add]
    ring
  apply poly_eq
  · intro j hj
    rw [gammaStep, entry_map_range 7 j _ (by omega), hexpand, coeff_add, coeff_C_mul]
    cases j with
    | zero => rw [if_neg (by omega), coeff_mul_X_zero, mul_zero, add_zero, coeff_poly, entry]
    | succ j =>
      rw [coeff_mul_X]
      by_cases hje : j+1 ≤ e+1
      · rw [if_pos ⟨by omega, hje⟩, mk_xor, mk_gfMul, hx, coeff_poly, coeff_poly]
        rfl
      · rw [if_neg (by omega), coeff_eq_zero_of_natDegree_lt (n := j) (by omega), mul_zero,
          add_zero, coeff_poly, entry]
  · rw [hlen]
    have hle := natDegree_mul_le (p := poly gamma) (q := 1 - C (point ⟨pos.toNat, hpos⟩)*X)
    have hf := natDegree_factor_le (point ⟨pos.toNat, hpos⟩)
    exact lt_of_le_of_lt degree_le_natDegree (by exact_mod_cast (by omega : _ < 7))

theorem gammaLoop_eq (er : List UInt8) (e : Nat) (gamma : List UInt8) (hnodup : er.Nodup)
    (hrange : ∀ p ∈ er, p.toNat < rsVdl2N) (he : e+er.length ≤ 6)
    (hg : (poly gamma).natDegree ≤ e) :
    ∃ g, gammaLoop er e gamma = some g ∧
      poly g = poly gamma*locator point (erasureSet er) := by
  induction er generalizing e gamma with
  | nil => exact ⟨gamma, rfl, by simp [erasureSet, locator]⟩
  | cons pos rest ih =>
    obtain ⟨hnot,hrest⟩ := nodup_cons.mp hnodup
    have hpos := hrange pos mem_cons_self
    rw [length_cons] at he
    have hstep := poly_gammaStep gamma e pos hpos (by omega) hg
    have hdeg : (poly (gammaStep gamma e pos)).natDegree ≤ e+1 := by
      rw [hstep]
      have hle := natDegree_mul_le (p := poly gamma) (q := 1 - C (point ⟨pos.toNat, hpos⟩)*X)
      have hf := natDegree_factor_le (point ⟨pos.toNat, hpos⟩)
      omega
    obtain ⟨g,hloop,hpoly⟩ := ih (e+1) (gammaStep gamma e pos) hrest
      (fun p hp => hrange p (mem_cons_of_mem _ hp)) (by omega) hdeg
    refine ⟨g, ?_, ?_⟩
    · rw [gammaLoop, if_neg (by omega), hloop]
    · rw [hpoly, hstep, erasureSet_cons pos rest hpos, locator, locator,
        Finset.prod_insert (not_mem_erasureSet pos rest hpos hnot), mul_assoc]

theorem mk_discrepancy (syn lambda : List UInt8) (len n : Nat) (hlen : len ≤ n)
    (hdeg : (poly lambda).natDegree ≤ len) (hzero : (poly lambda).coeff 0 = 1) :
    (⟨discrepancy syn lambda len n⟩ : Gf) = (poly lambda*poly syn).coeff n := by
  have hwin : (poly lambda*poly syn).coeff n =
      ∑ j ∈ Finset.range (len+1), (poly lambda).coeff j*(poly syn).coeff (n-j) := by
    apply coeff_mul_window
    · exact Finset.range_mono (by omega)
    · intro j _ hnot
      rw [Finset.mem_range] at hnot
      rw [coeff_eq_zero_of_natDegree_lt (by omega), zero_mul]
  rw [discrepancy, mk_foldl_xor _ nodup_range', toFinset_range'_one, hwin,
    ← Finset.add_sum_erase _ _ (Finset.mem_range.mpr (Nat.succ_pos len)), hzero, one_mul,
    Nat.sub_zero]
  simp only [coeff_poly, mk_gfMul, entry]

theorem poly_addShifted (lambda prev : List UInt8) (coef : UInt8) (m : Nat)
    (hl : (poly lambda).natDegree ≤ 6) (hs : (X^m*poly prev).natDegree ≤ 6) :
    poly (addShifted lambda prev coef m) = poly lambda - C ⟨coef⟩*(X^m*poly prev) := by
  have hlen : (addShifted lambda prev coef m).length = 7 := by simp [addShifted]
  apply poly_eq
  · intro k hk
    rw [addShifted, entry_map_range 7 k _ (by omega), coeff_sub, coeff_C_mul, coeff_X_pow_mul',
      CharTwo.sub_eq_add]
    by_cases hmk : m ≤ k
    · rw [if_pos hmk, if_pos hmk, mk_xor, mk_gfMul, coeff_poly, coeff_poly]
      rfl
    · rw [if_neg hmk, if_neg hmk, mul_zero, add_zero, coeff_poly, entry]
  · rw [hlen]
    have hle := natDegree_adjust_le (⟨coef⟩ : Gf) hl hs
    exact lt_of_le_of_lt degree_le_natDegree (by exact_mod_cast (by omega : _ < 7))

def Tracks (t : Gf[X]) (n : Nat) (st : BmState) : Prop :=
  ∃ om auxOm, Synthesis t n st.len (poly st.lambda) om (X^st.m*poly st.prev) auxOm ⟨st.b⟩

theorem tracks_start (t : Gf[X]) : Tracks t 0 bmStart := by
  refine ⟨0, -1, ?_⟩
  have hone : poly bmStart.lambda = 1 := poly_one
  have hx : X^bmStart.m*poly bmStart.prev = (X : Gf[X]) := by
    change X^1*poly [1, 0, 0, 0, 0, 0, 0] = X
    rw [poly_one, pow_one, mul_one]
  rw [hx, hone]
  exact synthesis_start t

variable (syn : List UInt8)

theorem tracks_step (st : BmState) (n : Nat) (hn : n < 6)
    (h : Tracks (poly syn) n st) : Tracks (poly syn) (n+1) (bmStep syn st n) := by
  obtain ⟨om,auxOm,hs⟩ := h
  have hd := mk_discrepancy syn st.lambda st.len n hs.length_le hs.lam_deg hs.lam_zero
  have hshift : X*(X^st.m*poly st.prev) = X^(st.m+1)*poly st.prev := by
    rw [pow_succ]
    ring
  rw [bmStep]
  by_cases h0 : discrepancy syn st.lambda st.len n = 0
  · rw [if_pos h0]
    have hk := hs.keep (by rw [← hd, h0, mk_zero])
    rw [hshift] at hk
    exact ⟨_, _, hk⟩
  · have hne : (⟨discrepancy syn st.lambda st.len n⟩ : Gf) ≠ 0 :=
      fun h => h0 ((mk_eq_zero _).mp h)
    have hc : (⟨gfExp (gfLog (discrepancy syn st.lambda st.len n)+255-gfLog st.b)⟩ : Gf)*⟨st.b⟩ =
        (poly st.lambda*poly syn).coeff n := (gfExp_div _ _ hne hs.b_ne).trans hd
    have hl := hs.length_le
    have hadd := poly_addShifted st.lambda st.prev
      (gfExp (gfLog (discrepancy syn st.lambda st.len n)+255-gfLog st.b)) st.m
      (le_trans hs.lam_deg (by omega)) (le_trans hs.aux_deg (by omega))
    rw [if_neg h0]
    split_ifs with hL
    · have hg := hs.grow _ hc (by rw [← hd]; exact hne) hL
      have hx : X*poly st.lambda = X^1*poly st.lambda := by rw [pow_one]
      rw [← hadd, ← hd, hx] at hg
      exact ⟨_, _, hg⟩
    · have ha := hs.adjust _ hc (by omega)
      rw [← hadd, hshift] at ha
      exact ⟨_, _, ha⟩

theorem tracks_run (n : Nat) (hn : n ≤ 6) :
    Tracks (poly syn) n (berlekampMassey syn n) := by
  induction n with
  | zero => exact tracks_start _
  | succ n ih =>
    rw [berlekampMassey, range_succ, foldl_append]
    exact tracks_step syn _ n (by omega) (ih (by omega))

theorem berlekampMassey_locates (n : Nat) (hn : n ≤ 6)
    (s : Finset (Fin rsVdl2N)) (y : Fin rsVdl2N → Gf) (hy : ∀ p ∈ s, y p ≠ 0)
    (hsyn : poly syn = powerSums point y s n) (hcard : 2*s.card ≤ n) :
    poly (berlekampMassey syn n).lambda = locator point s ∧
    (berlekampMassey syn n).len = s.card := by
  obtain ⟨om,auxOm,hs⟩ := tracks_run syn n hn
  have hkey := key_powerSums point y s n
  rw [← hsyn] at hkey
  exact hs.unique hkey (natDegree_locator point s fun p _ => point_ne_zero p)
    (degree_evaluator_lt point y s) (locator_zero point s)
    (isCoprime_locator_evaluator point y s (fun p _ => point_ne_zero p)
      point_injective.injOn hy) hcard

end IridiumAcars.RsLocate
