import IridiumAcars.RsVdl2
import IridiumAcars.Lib.CoeffList
import Mathlib.Algebra.Polynomial.BigOperators
import Mathlib.Tactic.LinearCombination

/-! The byte loops of the codec as sums in the field; codewords vanish at the six roots. -/
namespace IridiumAcars.RsPoly
open Polynomial Gf256 RsVdl2 CoeffList List

variable (block : Block) (i : Nat)

instance : CharP Gf 2 :=
  CharTwo.of_one_ne_zero_of_two_eq_zero one_ne_zero
    (by rw [← one_add_one_eq_two]; exact gf_add_self 1)

def entry (p : List UInt8) (i : Nat) : Gf := ⟨p.getD i 0⟩

noncomputable def poly (p : List UInt8) : Gf[X] := ofCoeffs (p.map Gf.mk)

variable (p : List UInt8)

theorem coeff_poly (i : Nat) : (poly p).coeff i = entry p i := by
  rw [poly, coeff_ofCoeffs, entry]
  exact getD_map p 0 Gf.mk

theorem poly_eq {p : List UInt8} {q : Gf[X]} (hlow : ∀ i < p.length, entry p i = q.coeff i)
    (hdeg : q.degree < (p.length : ℕ)) : poly p = q := by
  apply ofCoeffs_eq
  · intro i hi
    rw [length_map] at hi
    rw [← hlow i hi]
    exact getD_map p 0 Gf.mk
  · rwa [length_map]

theorem degree_poly_lt : (poly p).degree < (p.length : ℕ) := by
  rw [degree_lt_iff_coeff_zero]
  intro i hi
  rw [coeff_poly, entry, getD_eq_default _ _ hi]
  rfl

theorem entry_map_range (n i : Nat) (f : Nat → UInt8) (hi : i < n) :
    entry ((List.range n).map f) i = ⟨f i⟩ := by
  rw [entry, getD_eq_getElem _ _ (by simpa using hi)]
  simp

theorem mk_xor (a b : UInt8) : (⟨a ^^^ b⟩ : Gf) = ⟨a⟩+⟨b⟩ := rfl
theorem mk_gfMul (a b : UInt8) : (⟨gfMul a b⟩ : Gf) = ⟨a⟩*⟨b⟩ := rfl
theorem mk_zero : (⟨0⟩ : Gf) = 0 := rfl

theorem mk_eq_zero (a : UInt8) : (⟨a⟩ : Gf) = 0 ↔ a = 0 :=
  ⟨congrArg Gf.val, fun h => by rw [h, mk_zero]⟩

theorem mk_foldl_xor (js : List Nat) (hjs : js.Nodup) (f : Nat → UInt8) (v : UInt8) :
    (⟨js.foldl (fun acc j => acc ^^^ f j) v⟩ : Gf) = ⟨v⟩+∑ j ∈ js.toFinset, ⟨f j⟩ := by
  induction js generalizing v with
  | nil => simp
  | cons j js ih =>
    obtain ⟨hj,hrest⟩ := nodup_cons.mp hjs
    rw [foldl_cons, ih hrest, mk_xor, toFinset_cons,
      Finset.sum_insert (by rwa [mem_toFinset]), add_assoc]

theorem toFinset_range'_one (n : Nat) :
    (List.range' 1 n).toFinset = (Finset.range (n+1)).erase 0 := by
  ext j
  simp only [mem_toFinset, mem_range'_1, Finset.mem_erase, Finset.mem_range]
  omega

theorem mk_chienSum (js : List Nat) (hjs : js.Nodup) (e : Nat → Nat) (q : Nat)
    (v : UInt8) :
    (⟨chienSum p js e q v⟩ : Gf) = ⟨v⟩+∑ j ∈ js.toFinset, entry p j*(pw q)^(e j) := by
  induction js generalizing v with
  | nil => simp [chienSum]
  | cons j js ih =>
    obtain ⟨hj,hrest⟩ := nodup_cons.mp hjs
    rw [toFinset_cons, Finset.sum_insert (by rwa [mem_toFinset]), ← add_assoc]
    rw [chienSum, foldl_cons]
    by_cases h0 : p.getD j 0 = 0
    · have hz : entry p j = 0 := (mk_eq_zero _).mpr h0
      rw [if_neg (not_not.mpr h0), hz, zero_mul, add_zero]
      exact ih hrest v
    · have hne : entry p j ≠ 0 := fun h => h0 ((mk_eq_zero _).mp h)
      have hterm := gfExp_shift (entry p j) (e j*q) hne
      have hpow : pw 1^(e j*q) = pw q^(e j) := by rw [mul_comm, pow_mul, ← pw_eq_pow]
      rw [if_pos h0, ← hpow, ← hterm]
      exact ih hrest _

def point (p : Fin rsVdl2N) : Gf := pw (rsVdl2N-1-p.val)

theorem point_ne_zero (p : Fin rsVdl2N) : point p ≠ 0 := pw_ne_zero _

theorem point_injective : Function.Injective point := by
  intro p q h
  have hp : p.val < 255 := p.isLt
  have hq : q.val < 255 := q.isLt
  have hv := pw_inj _ _ (by unfold rsVdl2N; omega) (by unfold rsVdl2N; omega) h
  unfold rsVdl2N at hv
  exact Fin.ext (by omega)

theorem horner_step (s x : UInt8) (k : Nat) (hk : k < 255) :
    (⟨(if s ≠ 0 then gfExp (gfLog s+k) else s) ^^^ x⟩ : Gf) = ⟨s⟩*pw k+⟨x⟩ := by
  rw [mk_xor]
  congr 1
  by_cases h0 : s = 0
  · rw [if_neg (not_not.mpr h0), h0, mk_zero, zero_mul]
  · have hne : (⟨s⟩ : Gf) ≠ 0 := fun h => h0 ((mk_eq_zero s).mp h)
    obtain ⟨hlt,he⟩ := eq_pw_gfLog ⟨s⟩ hne
    rw [if_pos h0, gfExp_eq_pw _ (by simp only at hlt; omega), ← pw_mul, ← he]

theorem mk_foldl_horner (l : List UInt8) (k : Nat) (hk : k < 255) (v : UInt8) :
    (⟨l.foldl (fun s x => (if s ≠ 0 then gfExp (gfLog s+k) else s) ^^^ x) v⟩ : Gf) =
      horner (pw k) ⟨v⟩ (l.map Gf.mk) := by
  induction l generalizing v with
  | nil => rfl
  | cons x l ih =>
    rw [foldl_cons, ih, horner_step v x k hk]
    rfl

theorem mk_syndrome (hi : i < 6) :
    (⟨syndrome block i⟩ : Gf) = horner (pw (gfFcr+i)) 0 ((List.ofFn block).map Gf.mk) := by
  have hk : (gfFcr+i)%255 = gfFcr+i := Nat.mod_eq_of_lt (by unfold gfFcr; omega)
  rw [syndrome, hk, ← mk_zero, ← mk_foldl_horner _ _ (by unfold gfFcr; omega), ofFn_eq_map,
    foldl_map]

theorem mk_syndrome_sum (hi : i < 6) :
    (⟨syndrome block i⟩ : Gf) = ∑ p, ⟨block p⟩*point p^(gfFcr+i) := by
  rw [mk_syndrome block i hi, map_ofFn, horner_ofFn]
  apply Finset.sum_congr rfl
  intro p _
  rw [point, pw_eq_pow (gfFcr+i), pw_eq_pow (rsVdl2N-1-p.val), ← pow_mul, ← pow_mul,
    Nat.mul_comm]
  rfl

noncomputable def generator (n : Nat) : Gf[X] := ∏ i ∈ Finset.range n, (X + C (pw (gfFcr+i)))

theorem generator_monic (n : Nat) : (generator n).Monic :=
  monic_prod_of_monic _ _ fun _ _ => monic_X_add_C _

theorem natDegree_generator (n : Nat) : (generator n).natDegree = n := by
  rw [generator, natDegree_prod_of_monic _ _ fun _ _ => monic_X_add_C _]
  simp

theorem poly_gpolyStep (g : List UInt8) (i : Nat) (hi : i < 6) (hg : (poly g).natDegree ≤ i) :
    poly (gpolyStep g i) = poly g*(X + C (pw (gfFcr+i))) := by
  have hroot : (⟨gfExp (gfFcr+i)⟩ : Gf) = pw (gfFcr+i) :=
    gfExp_eq_pw _ (by unfold gfFcr; omega)
  have hlen : (gpolyStep g i).length = 7 := by simp [gpolyStep]
  apply poly_eq
  · intro j hj
    rw [gpolyStep, entry_map_range 7 j _ (by omega), mul_add, coeff_add, coeff_mul_C]
    cases j with
    | zero =>
      rw [if_pos rfl, mk_gfMul, hroot, coeff_mul_X_zero, zero_add, coeff_poly, entry]
    | succ j =>
      rw [if_neg (Nat.succ_ne_zero j), coeff_mul_X]
      by_cases hji : j+1 ≤ i+1
      · rw [if_pos hji, mk_xor, mk_gfMul, hroot, coeff_poly, coeff_poly]
        rfl
      · have hz (k : Nat) (hk : i < k) : (poly g).coeff k = 0 :=
          coeff_eq_zero_of_natDegree_lt (by omega)
        have he : (⟨g.getD (j+1) 0⟩ : Gf) = 0 := by
          rw [← hz (j+1) (by omega), coeff_poly, entry]
        rw [if_neg hji, he, hz j (by omega), hz (j+1) (by omega), zero_mul, add_zero]
  · rw [hlen]
    have hle := natDegree_mul_le (p := poly g) (q := X + C (pw (gfFcr+i)))
    rw [natDegree_X_add_C] at hle
    exact lt_of_le_of_lt degree_le_natDegree (by exact_mod_cast (by omega : _ < 7))

theorem poly_one : poly [1, 0, 0, 0, 0, 0, 0] = 1 := by
  apply poly_eq
  · intro i hi
    rw [coeff_one]
    match i with
    | 0 => rfl
    | 1 | 2 | 3 | 4 | 5 | 6 => rfl
    | _+7 => exact absurd hi (by simp)
  · rw [degree_one]
    exact_mod_cast (by decide : 0 < 7)

theorem poly_gpoly : poly gpoly = generator 6 := by
  have hrun (n : Nat) (hn : n ≤ 6) :
      poly ((List.range n).foldl gpolyStep [1, 0, 0, 0, 0, 0, 0]) = generator n := by
    induction n with
    | zero => exact poly_one
    | succ n ih =>
      have hprev := ih (by omega)
      rw [range_succ, foldl_append, foldl_cons, foldl_nil,
        poly_gpolyStep _ n (by omega) (by rw [hprev, natDegree_generator]), hprev, generator,
        generator, Finset.prod_range_succ]
  exact hrun 6 (le_refl 6)

theorem gpoly_root (hi : i < 6) :
    ∑ j ∈ Finset.range 6, entry gpoly j*pw (gfFcr+i)^j = pw (gfFcr+i)^6 := by
  have hz : (generator 6).eval (pw (gfFcr+i)) = 0 := by
    rw [generator, eval_prod]
    apply Finset.prod_eq_zero (Finset.mem_range.mpr hi)
    rw [eval_add, eval_X, eval_C, gf_add_self]
  have hlead : (generator 6).coeff 6 = 1 := by
    have := (generator_monic 6).coeff_natDegree
    rwa [natDegree_generator] at this
  rw [eval_eq_sum_range' (n := 7) (by rw [natDegree_generator]; omega), Finset.sum_range_succ,
    hlead, one_mul] at hz
  simp only [← poly_gpoly, coeff_poly] at hz
  exact (add_eq_zero_iff_eq_neg.mp hz).trans (gf_neg _)

theorem encodeStep_length (par : List UInt8) (d : UInt8) : (encodeStep par d).length = 6 := by
  simp [encodeStep, rsVdl2Nroots]

theorem horner_encodeStep (par : List UInt8) (d : UInt8) (i : Nat) (hi : i < 6)
    (hpar : par.length = 6) :
    horner (pw (gfFcr+i)) 0 ((encodeStep par d).map Gf.mk) =
      horner (pw (gfFcr+i)) 0 (par.map Gf.mk)*pw (gfFcr+i)+⟨d⟩*pw (gfFcr+i)^6 := by
  have hroot := gpoly_root i hi
  match par, hpar with
  | [a0, a1, a2, a3, a4, a5], _ =>
    simp only [Finset.sum_range_succ, Finset.sum_range_zero, entry] at hroot
    simp only [encodeStep, rsVdl2Nroots, range_succ, range_zero, nil_append,
      cons_append, map_cons, map_nil, getD_cons_zero, getD_cons_succ,
      horner, foldl_cons, foldl_nil, mk_xor, mk_gfMul, Nat.reduceLT, Nat.reduceSub,
      if_true, if_false]
    linear_combination (⟨d⟩+⟨a0⟩ : Gf)*hroot

theorem horner_parity (l : List UInt8) (i : Nat) (hi : i < 6) (par : List UInt8) (v : Gf)
    (hlen : par.length = 6)
    (hpar : horner (pw (gfFcr+i)) 0 (par.map Gf.mk) = v*pw (gfFcr+i)^6) :
    (l.foldl encodeStep par).length = 6 ∧
    horner (pw (gfFcr+i)) 0 ((l.foldl encodeStep par).map Gf.mk) =
      horner (pw (gfFcr+i)) v (l.map Gf.mk)*pw (gfFcr+i)^6 := by
  induction l generalizing par v with
  | nil => exact ⟨hlen, hpar⟩
  | cons d l ih =>
    apply ih (encodeStep par d) (v*pw (gfFcr+i)+⟨d⟩) (encodeStep_length par d)
    rw [horner_encodeStep par d i hi hlen, hpar]
    ring

theorem horner_blank :
    horner (pw (gfFcr+i)) 0 (([0, 0, 0, 0, 0, 0] : List UInt8).map Gf.mk) =
      0*pw (gfFcr+i)^6 := by
  simp [horner, mk_zero]

theorem parity_length : (parity block).length = 6 :=
  (horner_parity (dataOctets block) 0 (by omega) _ 0 rfl (horner_blank 0)).1

theorem ofFn_encode :
    List.ofFn (rsVdl2Encode block) = dataOctets block++parity block := by
  have hp := parity_length block
  have hd : (dataOctets block).length = 249 := by simp [dataOctets, rsVdl2K]
  apply ext_getElem
  · rw [length_ofFn, length_append, hp, hd]
    rfl
  · intro p h1 h2
    have h255 : p < rsVdl2N := lt_of_lt_of_eq h1 length_ofFn
    rw [List.getElem_ofFn, rsVdl2Encode]
    by_cases hlt : p < rsVdl2K
    · have hl : p < (dataOctets block).length := by rw [hd]; exact hlt
      rw [if_pos hlt, getElem_append_left hl]
      simp [dataOctets]
    · have hge : 249 ≤ p := Nat.le_of_not_lt hlt
      rw [if_neg hlt, getElem_append_right (by omega)]
      simp only [hd]
      exact getD_eq_getElem _ _ (by rw [hp]; unfold rsVdl2K; unfold rsVdl2N at h255; omega)

theorem syndrome_encode (hi : i < 6) :
    (⟨syndrome (rsVdl2Encode block) i⟩ : Gf) = 0 := by
  have hpar := (horner_parity (dataOctets block) i hi _ 0 rfl (horner_blank i)).2
  rw [mk_syndrome _ i hi, ofFn_encode, map_append, horner_append, horner_start,
    length_map, parity_length]
  rw [parity, hpar, gf_add_self]

end IridiumAcars.RsPoly
