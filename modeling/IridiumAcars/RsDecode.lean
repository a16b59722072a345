import IridiumAcars.RsLocate

/-! The correcting half of the decoder: erasures and errors within the bound are undone. -/
namespace IridiumAcars.RsDecode
open Polynomial Gf256 RsVdl2 RsPoly RsLocate CoeffList KeyEquation Locator List

def errPos (q : Nat) : Fin rsVdl2N :=
  ⟨rsVdl2N-1-(255-q)%255, by unfold rsVdl2N; omega⟩

theorem errPos_injOn {q r : Nat} (hq : q < 255) (hr : r < 255) (h : errPos q = errPos r) :
    q = r := by
  have hv := congrArg Fin.val h
  simp only [errPos, rsVdl2N] at hv
  omega

theorem errPos_surj (p : Fin rsVdl2N) : ∃ q < 255, errPos q = p := by
  have hp : p.val < 255 := p.isLt
  refine ⟨(p.val+1)%255, Nat.mod_lt _ (by decide), Fin.ext ?_⟩
  simp only [errPos, rsVdl2N]
  omega

theorem positions_nodup (psi : List UInt8) (dpsi : Nat) :
    ((chienRoots psi dpsi).map errPos).Nodup := by
  refine List.Nodup.map_on (fun q hq r hr h => ?_) (nodup_range.filter _)
  exact errPos_injOn (mem_range.mp (mem_filter.mp hq).1)
    (mem_range.mp (mem_filter.mp hr).1) h

theorem point_errPos (q : Nat) : point (errPos q) = pw (255-q) := by
  have hlt := Nat.mod_lt (255-q) (by decide : 0 < 255)
  have hsub : rsVdl2N-1-(rsVdl2N-1-(255-q)%255) = (255-q)%255 := by
    unfold rsVdl2N
    omega
  rw [point, errPos, hsub, pw_mod]

theorem inv_point_errPos (q : Nat) (hq : q < 255) : (point (errPos q))⁻¹ = pw q := by
  apply inv_eq_of_mul_eq_one_right
  rw [point_errPos, pw_mul, Nat.sub_add_cancel (by omega), ← pw_mod]
  rfl

theorem pow_255 (a : Gf) (h : a ≠ 0) : a^255 = 1 := by
  obtain ⟨-,he⟩ := eq_pw_gfLog a h
  rw [he, pw_eq_pow, ← pow_mul, Nat.mul_comm, pow_mul, ← pw_eq_pow 255, ← pw_mod]
  exact one_pow _

section
variable {psi : List UInt8} {dpsi : Nat} {s : Finset (Fin rsVdl2N)}

theorem mk_chienValue (q : Nat) (hdeg : (poly psi).natDegree ≤ dpsi) :
    (⟨chienValue psi dpsi q⟩ : Gf) = (poly psi).eval (pw q) := by
  rw [chienValue, mk_chienSum _ _ nodup_range', toFinset_range'_one,
    eval_eq_sum_range' (n := dpsi+1) (by omega),
    ← Finset.add_sum_erase _ _ (Finset.mem_range.mpr (Nat.succ_pos dpsi)), pow_zero, mul_one]
  simp only [coeff_poly, entry]

theorem mk_forneyNum (omega : List UInt8) (q : Nat) (hlen : omega.length = 6) :
    (⟨forneyNum omega q⟩ : Gf) = (poly omega).eval (pw q) := by
  have hdeg := degree_poly_lt omega
  have hnat : (poly omega).natDegree < 6 := by
    by_cases h0 : poly omega = 0
    · rw [h0, natDegree_zero]
      omega
    · rw [← hlen]
      exact (natDegree_lt_iff_degree_lt h0).mpr hdeg
  rw [forneyNum, mk_chienSum _ _ nodup_range, mk_zero, zero_add,
    eval_eq_sum_range' hnat, rsVdl2Nroots, toFinset_range]
  simp only [coeff_poly]

theorem mk_forneyDen (q : Nat) (hdeg : (poly psi).natDegree ≤ dpsi) :
    (⟨forneyDen psi dpsi q⟩ : Gf) = (derivative (poly psi)).eval (pw q) := by
  have hset : ((List.range' 1 dpsi).filter fun i => decide (i%2 = 1)).toFinset =
      (Finset.range (dpsi+1)).filter (fun i => i%2 = 1) := by
    ext j
    simp only [mem_toFinset, mem_filter, mem_range'_1, decide_eq_true_eq,
      Finset.mem_filter, Finset.mem_range]
    omega
  rw [forneyDen, mk_chienSum _ _ (List.Nodup.filter _ nodup_range'), mk_zero, zero_add, hset,
    eval_derivative_odd _ dpsi hdeg]
  simp only [coeff_poly]

variable (hpsi : poly psi = locator point s) (hd : s.card = dpsi)
include hpsi hd

theorem natDegree_psi : (poly psi).natDegree ≤ dpsi := by
  rw [hpsi, ← hd]
  exact natDegree_locator_le point s

theorem mem_chienRoots (q : Nat) : q ∈ chienRoots psi dpsi ↔ q < 255 ∧ errPos q ∈ s := by
  rw [chienRoots, mem_filter, mem_range, decide_eq_true_eq]
  apply and_congr_right
  intro hq
  rw [← mk_eq_zero, mk_chienValue q (natDegree_psi hpsi hd), hpsi, ← inv_point_errPos q hq]
  constructor
  · intro hz
    by_contra hnot
    apply eval_locator_ne_zero point s (point_ne_zero (errPos q)) _ hz
    intro p hp he
    exact hnot (point_injective he ▸ hp)
  · intro hs
    exact eval_locator_mem point s hs (point_ne_zero _)

theorem toFinset_positions : ((chienRoots psi dpsi).map errPos).toFinset = s := by
  ext p
  rw [mem_toFinset, mem_map]
  constructor
  · rintro ⟨q,hq,rfl⟩
    exact ((mem_chienRoots hpsi hd q).mp hq).2
  · intro hp
    obtain ⟨q,hq,he⟩ := errPos_surj p
    exact ⟨q, (mem_chienRoots hpsi hd q).mpr ⟨hq, he ▸ hp⟩, he⟩

theorem length_chienRoots : (chienRoots psi dpsi).length = dpsi := by
  have hcard := toFinset_card_of_nodup (positions_nodup psi dpsi)
  rw [toFinset_positions hpsi hd, length_map] at hcard
  rw [← hcard, hd]

end

/-- What was received in place of the codeword `c`, wrong only at the positions `s`. -/
structure Errata (c rx : Block) (s : Finset (Fin rsVdl2N)) : Prop where
  codeword : ∀ i < 6, (⟨syndrome c i⟩ : Gf) = 0
  outside : ∀ p, p ∉ s → rx p = c p
  card_le : s.card ≤ 6

def magnitude (c rx : Block) (p : Fin rsVdl2N) : Gf := ⟨rx p ^^^ c p⟩

def weight (c rx : Block) (p : Fin rsVdl2N) : Gf := magnitude c rx p*point p^gfFcr

theorem magnitude_eq_zero (c rx : Block) (p : Fin rsVdl2N) :
    magnitude c rx p = 0 ↔ rx p = c p := by
  rw [magnitude, mk_eq_zero, UInt8.xor_eq_zero_iff]

theorem weight_eq_zero (c rx : Block) (p : Fin rsVdl2N) : weight c rx p = 0 ↔ rx p = c p := by
  rw [weight, mul_eq_zero, or_iff_left (pow_ne_zero _ (point_ne_zero p)), magnitude_eq_zero]

section
variable {c rx : Block} {s : Finset (Fin rsVdl2N)}

theorem mk_syndrome_weights (h : Errata c rx s) (i : Nat) (hi : i < 6) :
    (⟨syndrome rx i⟩ : Gf) = ∑ p ∈ s, weight c rx p*point p^i := by
  have hc := mk_syndrome_sum c i hi
  rw [h.codeword i hi] at hc
  have hterm (p : Fin rsVdl2N) : weight c rx p*point p^i =
      (⟨rx p⟩+⟨c p⟩ : Gf)*point p^(gfFcr+i) := by
    rw [weight, magnitude, mk_xor, pow_add, mul_assoc]
  rw [mk_syndrome_sum rx i hi, Finset.sum_subset (Finset.subset_univ s)]
  · simp only [hterm, add_mul, Finset.sum_add_distrib, ← hc, add_zero]
  · intro p _ hp
    rw [(weight_eq_zero c rx p).mpr (h.outside p hp), zero_mul]

theorem poly_rsSyndromes (h : Errata c rx s) :
    poly (rsSyndromes rx) = powerSums point (weight c rx) s 6 := by
  have hlen : (rsSyndromes rx).length = 6 := by simp [rsSyndromes, rsVdl2Nroots]
  apply poly_eq
  · intro i hi
    rw [hlen] at hi
    rw [rsSyndromes, entry_map_range rsVdl2Nroots i _ hi, coeff_powerSums _ _ _ _ _ hi,
      mk_syndrome_weights h i hi]
  · rw [hlen]
    exact degree_powerSums_lt _ _ _ _

theorem eq_of_low_syndromes_zero (h : Errata c rx s) {n : Nat} (hn : n ≤ 6) (hcard : s.card ≤ n)
    (hz : ∀ i < n, (⟨syndrome rx i⟩ : Gf) = 0) : rx = c := by
  have hpoly : powerSums point (weight c rx) s n = 0 := by
    refine Finset.sum_eq_zero fun i hi => ?_
    have hlt := Finset.mem_range.mp hi
    rw [← mk_syndrome_weights h i (by omega), hz i hlt, C_0, zero_mul]
  have hw := values_eq_zero point (weight c rx) s n (fun p _ => point_ne_zero p)
    point_injective.injOn hcard hpoly
  funext p
  by_cases hp : p ∈ s
  · exact (weight_eq_zero c rx p).mp (hw p hp)
  · exact h.outside p hp

theorem eq_of_syndromes_zero (h : Errata c rx s) (hz : ∀ x ∈ rsSyndromes rx, x = 0) : rx = c :=
  eq_of_low_syndromes_zero h le_rfl h.card_le fun _ hi =>
    (mk_eq_zero _).mpr (hz _ (mem_map_of_mem (mem_range.mpr hi)))

variable {psi : List UInt8} {dpsi : Nat}

theorem poly_errataEvaluator (h : Errata c rx s) (hpsi : poly psi = locator point s)
    (hd : s.card = dpsi) :
    poly (errataEvaluator psi (rsSyndromes rx) dpsi) = evaluator point (weight c rx) s := by
  have hlen : (errataEvaluator psi (rsSyndromes rx) dpsi).length = 6 := by
    simp [errataEvaluator, rsVdl2Nroots]
  apply poly_eq
  · intro i hi
    rw [hlen] at hi
    rw [errataEvaluator, entry_map_range rsVdl2Nroots i _ hi,
      mk_product _ _ _ _ (natDegree_psi hpsi hd), hpsi, poly_rsSyndromes h]
    have hkey := key_powerSums point (weight c rx) s 6
    rw [X_pow_dvd_iff] at hkey
    have hi' := hkey i hi
    rw [coeff_sub] at hi'
    exact sub_eq_zero.mp hi'
  · rw [hlen]
    exact degree_lt_mono (degree_evaluator_lt _ _ _) h.card_le

theorem forney_values (h : Errata c rx s) (hpsi : poly psi = locator point s)
    (hd : s.card = dpsi) (q : Nat) (hq : q < 255) (hs : errPos q ∈ s) :
    ∃ k : Gf, k ≠ 0 ∧
      (⟨forneyNum (errataEvaluator psi (rsSyndromes rx) dpsi) q⟩ : Gf) =
        weight c rx (errPos q)*k ∧
      (⟨forneyDen psi dpsi q⟩ : Gf) = point (errPos q)*k := by
  refine ⟨(locator point (s.erase (errPos q))).eval (point (errPos q))⁻¹, ?_, ?_, ?_⟩
  · exact eval_locator_erase_ne_zero point s hs (point_ne_zero _) point_injective.injOn
  · rw [mk_forneyNum _ q (by simp [errataEvaluator, rsVdl2Nroots]), poly_errataEvaluator h hpsi hd,
      ← inv_point_errPos q hq, eval_evaluator _ _ _ hs (point_ne_zero _)]
  · rw [mk_forneyDen q (natDegree_psi hpsi hd), hpsi, ← inv_point_errPos q hq,
      eval_derivative _ _ hs (point_ne_zero _), gf_neg]

theorem mk_forneyValue (num den : UInt8) (q : Nat) (m k : Gf) (hm : m ≠ 0) (hk : k ≠ 0)
    (hnum : (⟨num⟩ : Gf) = m*point (errPos q)^gfFcr*k) (hden : (⟨den⟩ : Gf) = point (errPos q)*k) :
    (⟨forneyValue num den q⟩ : Gf) = m := by
  have hp := point_ne_zero (errPos q)
  have hn0 : (⟨num⟩ : Gf) ≠ 0 := by
    rw [hnum]
    exact mul_ne_zero (mul_ne_zero hm (pow_ne_zero _ hp)) hk
  have hd0 : (⟨den⟩ : Gf) ≠ 0 := by
    rw [hden]
    exact mul_ne_zero hp hk
  have hquot := gfExp_div ⟨num⟩ ⟨den⟩ hn0 hd0
  have hnlt := (eq_pw_gfLog ⟨num⟩ hn0).1
  simp only at hquot hnlt
  rw [gfExp_eq_pw _ (by omega)] at hquot
  have hpow : pw (((255-q)%255*(255+1-gfFcr))%255) = point (errPos q)^(255+1-gfFcr) := by
    rw [pw_mod, pw_eq_pow, pow_mul, ← pw_eq_pow, pw_mod, point_errPos]
  have hcancel : point (errPos q)^gfFcr*point (errPos q)^(255+1-gfFcr) = point (errPos q) := by
    rw [← pow_add, gfFcr, pow_succ, pow_255 _ hp, one_mul]
  rw [forneyValue, gfExp_mod, ← pw_mul, hpow]
  apply mul_right_cancel₀ hd0
  calc pw (gfLog num+255-gfLog den)*point (errPos q)^(255+1-gfFcr)*⟨den⟩
      = pw (gfLog num+255-gfLog den)*⟨den⟩*point (errPos q)^(255+1-gfFcr) := by ring
    _ = m*(point (errPos q)^gfFcr*point (errPos q)^(255+1-gfFcr))*k := by
      rw [hquot, hnum]
      ring
    _ = m*⟨den⟩ := by
      rw [hcancel, hden]
      ring

def putRight (c rx : Block) (st : Block × Nat) (p : Fin rsVdl2N) : Block × Nat :=
  (fun x => if x = p then st.1 x ^^^ (rx x ^^^ c x) else st.1 x,
    if rx p = c p then st.2 else st.2+1)

theorem correctRoot_eq (h : Errata c rx s) (hpsi : poly psi = locator point s)
    (hd : s.card = dpsi) (st : Block × Nat) (q : Nat) (hq : q < 255) (hs : errPos q ∈ s) :
    correctRoot psi (errataEvaluator psi (rsSyndromes rx) dpsi) dpsi st q =
      some (putRight c rx st (errPos q)) := by
  obtain ⟨k,hk,hnum,hden⟩ := forney_values h hpsi hd q hq hs
  have hden0 : forneyDen psi dpsi q ≠ 0 := by
    rw [ne_eq, ← mk_eq_zero, hden]
    exact mul_ne_zero (point_ne_zero _) hk
  rw [correctRoot, if_neg hden0]
  by_cases he : rx (errPos q) = c (errPos q)
  · have hnum0 : forneyNum (errataEvaluator psi (rsSyndromes rx) dpsi) q = 0 := by
      rw [← mk_eq_zero, hnum, (weight_eq_zero c rx _).mpr he, zero_mul]
    have hsame : (fun x => if x = errPos q then st.1 x ^^^ (rx x ^^^ c x) else st.1 x) = st.1 := by
      funext x
      split_ifs with hx
      · rw [hx, he, UInt8.xor_self, UInt8.xor_zero]
      · rfl
    rw [if_pos hnum0, putRight, hsame, if_pos he]
  · have hm : magnitude c rx (errPos q) ≠ 0 := fun hz => he ((magnitude_eq_zero c rx _).mp hz)
    have hnum0 : forneyNum (errataEvaluator psi (rsSyndromes rx) dpsi) q ≠ 0 := by
      rw [ne_eq, ← mk_eq_zero, hnum, mul_eq_zero, weight_eq_zero]
      exact fun hor => hor.elim he hk
    have hval := congrArg Gf.val (mk_forneyValue _ _ q _ k hm hk (by rw [hnum, weight]) hden)
    simp only [magnitude] at hval
    have hblock : (fun x : Fin rsVdl2N => if x.val = (errPos q).val then
        st.1 x ^^^ (rx (errPos q) ^^^ c (errPos q)) else st.1 x) =
        fun x => if x = errPos q then st.1 x ^^^ (rx x ^^^ c x) else st.1 x := by
      funext x
      by_cases hx : x = errPos q
      · rw [if_pos (congrArg Fin.val hx), if_pos hx, hx]
      · rw [if_neg (fun hv => hx (Fin.ext hv)), if_neg hx]
    rw [if_neg hnum0, putRight, if_neg he, hval]
    exact congrArg (fun b => some (b, st.2+1)) hblock

theorem correctRoots_eq (h : Errata c rx s) (hpsi : poly psi = locator point s)
    (hd : s.card = dpsi) (qs : List Nat) (hqs : ∀ q ∈ qs, q < 255 ∧ errPos q ∈ s)
    (st : Block × Nat) :
    correctRoots psi (errataEvaluator psi (rsSyndromes rx) dpsi) dpsi qs st =
      (true, (qs.map errPos).foldl (putRight c rx) st) := by
  induction qs generalizing st with
  | nil => rfl
  | cons q qs ih =>
    obtain ⟨hq,hs⟩ := hqs q mem_cons_self
    rw [correctRoots, correctRoot_eq h hpsi hd st q hq hs]
    exact ih (fun r hr => hqs r (mem_cons_of_mem _ hr)) _

end

theorem foldl_putRight (c rx : Block) (ps : List (Fin rsVdl2N)) (hps : ps.Nodup)
    (st : Block × Nat) :
    (∀ x, (ps.foldl (putRight c rx) st).1 x =
      if x ∈ ps then st.1 x ^^^ (rx x ^^^ c x) else st.1 x) ∧
    (ps.foldl (putRight c rx) st).2 =
      st.2+(ps.filter fun p => decide (rx p ≠ c p)).length := by
  induction ps generalizing st with
  | nil => exact ⟨fun x => by simp, by simp⟩
  | cons p ps ih =>
    obtain ⟨hnot,hrest⟩ := nodup_cons.mp hps
    obtain ⟨hblock,hcount⟩ := ih hrest (putRight c rx st p)
    rw [foldl_cons]
    refine ⟨?_, ?_⟩
    · intro x
      rw [hblock x, putRight]
      by_cases hx : x = p
      · simp [hx, hnot]
      · simp [hx]
    · rw [hcount, putRight]
      by_cases he : rx p = c p
      · simp [he]
      · simp [he]
        omega

def differing (c rx : Block) : Finset (Fin rsVdl2N) := Finset.univ.filter fun p => rx p ≠ c p

theorem any_nonzero_eq_false (syn : List UInt8) :
    syn.any (fun s => decide (s ≠ 0)) = false ↔ ∀ x ∈ syn, x = 0 := by
  simp

theorem rsSyndromes_zero {c rx : Block} {s : Finset (Fin rsVdl2N)} (h : Errata c rx s) :
    (rsSyndromes c).any (fun s => decide (s ≠ 0)) = false := by
  rw [any_nonzero_eq_false]
  intro x hx
  obtain ⟨i,hi,rfl⟩ := mem_map.mp hx
  exact (mk_eq_zero _).mp (h.codeword i (mem_range.mp hi))

theorem applyErrata_eq {c rx : Block} {s : Finset (Fin rsVdl2N)} {psi : List UInt8} {dpsi : Nat}
    (h : Errata c rx s) (hpsi : poly psi = locator point s) (hd : s.card = dpsi) :
    applyErrata rx (rsSyndromes rx) psi dpsi = ⟨true, c, some (differing c rx).card⟩ := by
  have hlen := length_chienRoots hpsi hd
  have hcard := h.card_le
  have hrun := correctRoots_eq h hpsi hd (chienRoots psi dpsi)
    (fun q hq => (mem_chienRoots hpsi hd q).mp hq) (rx, 0)
  have hnodup := positions_nodup psi dpsi
  obtain ⟨hblock,hcount⟩ := foldl_putRight c rx _ hnodup (rx, 0)
  have hmem (x : Fin rsVdl2N) : x ∈ (chienRoots psi dpsi).map errPos ↔ x ∈ s := by
    rw [← mem_toFinset, toFinset_positions hpsi hd]
  have hc : (((chienRoots psi dpsi).map errPos).foldl (putRight c rx) (rx, 0)).1 = c := by
    funext x
    rw [hblock x]
    by_cases hx : x ∈ s
    · rw [if_pos ((hmem x).mpr hx), ← UInt8.xor_assoc, UInt8.xor_self, UInt8.zero_xor]
    · rw [if_neg (fun hm => hx ((hmem x).mp hm))]
      exact h.outside x hx
  have hn : (((chienRoots psi dpsi).map errPos).foldl (putRight c rx) (rx, 0)).2 =
      (differing c rx).card := by
    rw [hcount, Nat.zero_add, ← toFinset_card_of_nodup (hnodup.filter _)]
    congr 1
    ext x
    rw [mem_toFinset, mem_filter, hmem, decide_eq_true_eq, differing, Finset.mem_filter]
    constructor
    · exact fun hx => ⟨Finset.mem_univ x, hx.2⟩
    · exact fun hx => ⟨by_contra fun hnot => hx.2 (h.outside x hnot), hx.2⟩
  rw [applyErrata, if_neg (by unfold rsVdl2Nroots; omega)]
  simp only [hrun, hc, hn, rsSyndromes_zero h, Bool.true_eq_false, Bool.false_eq_true, if_false]

section
variable {c rx : Block} {er : List UInt8}

def strayErrors (c rx : Block) (er : List UInt8) : Finset (Fin rsVdl2N) :=
  Finset.univ.filter fun p => UInt8.ofNat p.val ∉ er ∧ rx p ≠ c p

theorem disjoint_strayErrors : Disjoint (strayErrors c rx er) (erasureSet er) := by
  rw [Finset.disjoint_left]
  intro p hs he
  exact (Finset.mem_filter.mp hs).2.1 (Finset.mem_filter.mp he).2

theorem errata_union (hc : ∀ i < 6, (⟨syndrome c i⟩ : Gf) = 0)
    (hcard : (strayErrors c rx er ∪ erasureSet er).card ≤ 6) :
    Errata c rx (strayErrors c rx er ∪ erasureSet er) where
  codeword := hc
  outside := by
    intro p hp
    rw [Finset.mem_union, not_or] at hp
    by_contra hne
    apply hp.1
    rw [strayErrors, Finset.mem_filter]
    refine ⟨Finset.mem_univ p, ?_, hne⟩
    intro hmem
    exact hp.2 (Finset.mem_filter.mpr ⟨Finset.mem_univ p, hmem⟩)
  card_le := hcard

noncomputable def modifiedWeight (c rx : Block) (er : List UInt8) (p : Fin rsVdl2N) : Gf :=
  weight c rx p*point p^er.length*(locator point (erasureSet er)).eval (point p)⁻¹

theorem modifiedWeight_ne_zero (p : Fin rsVdl2N) (hp : p ∈ strayErrors c rx er) :
    modifiedWeight c rx er p ≠ 0 := by
  obtain ⟨-,hnot,hne⟩ := Finset.mem_filter.mp hp
  apply mul_ne_zero
  · apply mul_ne_zero
    · exact fun hz => hne ((weight_eq_zero c rx p).mp hz)
    · exact pow_ne_zero _ (point_ne_zero p)
  · apply eval_locator_ne_zero point _ (point_ne_zero p)
    intro q hq he
    rw [point_injective he] at hq
    exact hnot (Finset.mem_filter.mp hq).2

theorem poly_modifiedSyndromes (h : Errata c rx (strayErrors c rx er ∪ erasureSet er))
    (gamma : List UInt8) (hg : poly gamma = locator point (erasureSet er))
    (hf : (erasureSet er).card = er.length) (hle : er.length ≤ 6) :
    poly ((modifiedSyndromes gamma (rsSyndromes rx) er.length).drop er.length) =
      powerSums point (modifiedWeight c rx er) (strayErrors c rx er) (6-er.length) := by
  have hlen : ((modifiedSyndromes gamma (rsSyndromes rx) er.length).drop er.length).length =
      6-er.length := by
    simp [modifiedSyndromes, rsVdl2Nroots]
  have hdeg : (poly gamma).natDegree ≤ er.length := by
    rw [hg, ← hf]
    exact natDegree_locator_le _ _
  apply poly_eq
  · intro k hk
    rw [hlen] at hk
    have hentry : entry ((modifiedSyndromes gamma (rsSyndromes rx) er.length).drop er.length) k =
        entry (modifiedSyndromes gamma (rsSyndromes rx) er.length) (er.length+k) := by
      simp [entry]
    rw [hentry, modifiedSyndromes,
      entry_map_range rsVdl2Nroots (er.length+k) _ (by unfold rsVdl2Nroots; omega),
      mk_product _ _ _ _ hdeg, poly_rsSyndromes h,
      coeff_mul_powerSums _ _ _ _ 6 _ (by omega) (by omega) fun p _ => point_ne_zero p,
      coeff_powerSums _ _ _ _ _ hk, hg]
    -- the erasure locator vanishes at the erasures
    rw [Finset.sum_union disjoint_strayErrors]
    have hzero : ∑ p ∈ erasureSet er, weight c rx p*point p^(er.length+k)*
        (locator point (erasureSet er)).eval (point p)⁻¹ = 0 := by
      apply Finset.sum_eq_zero
      intro p hp
      rw [eval_locator_mem point _ hp (point_ne_zero p), mul_zero]
    rw [hzero, add_zero]
    apply Finset.sum_congr rfl
    intro p _
    rw [modifiedWeight, pow_add]
    ring
  · rw [hlen]
    exact degree_powerSums_lt _ _ _ _

end

def damaged (c : Block) : Block := fun p =>
  if p.val = 7 then c p ^^^ 0x5A else if p.val = 100 then c p ^^^ 1
  else if p.val = 200 then 0 else c p

theorem card_strayErrors_damaged (c : Block) :
    (strayErrors c (damaged c) [200, 250]).card ≤ 2 := by
  have h7 : 7 < rsVdl2N := by decide
  have h100 : 100 < rsVdl2N := by decide
  have hsub : strayErrors c (damaged c) [200, 250] ⊆ {⟨7, h7⟩, ⟨100, h100⟩} := by
    intro p hp
    obtain ⟨-,hnot,hne⟩ := Finset.mem_filter.mp hp
    rw [Finset.mem_insert, Finset.mem_singleton, Fin.ext_iff, Fin.ext_iff]
    by_contra hother
    rw [not_or] at hother
    rw [damaged, if_neg hother.1, if_neg hother.2] at hne
    by_cases h200 : p.val = 200
    · rw [h200] at hnot
      exact hnot (by decide)
    · exact hne (if_neg h200)
  exact le_trans (Finset.card_le_card hsub) Finset.card_le_two

theorem gammaLoop_locator {er : List UInt8} (hnodup : er.Nodup)
    (hrange : ∀ p ∈ er, p.toNat < rsVdl2N) (hle : er.length ≤ 6) :
    ∃ gamma, gammaLoop er 0 [1, 0, 0, 0, 0, 0, 0] = some gamma ∧
      poly gamma = locator point (erasureSet er) ∧ (poly gamma).natDegree ≤ er.length := by
  obtain ⟨gamma,hloop,hgamma⟩ := gammaLoop_eq er 0 [1, 0, 0, 0, 0, 0, 0] hnodup hrange (by omega)
    (by rw [poly_one, natDegree_one])
  rw [poly_one, one_mul] at hgamma
  refine ⟨gamma, hloop, hgamma, ?_⟩
  rw [hgamma, ← card_erasureSet er hnodup hrange]
  exact natDegree_locator_le _ _

theorem rsVdl2DecodeErasures_of_syndromes {c rx : Block} {er : List UInt8} {e : Nat}
    (hc : ∀ i < 6, (⟨syndrome c i⟩ : Gf) = 0) (hnodup : er.Nodup)
    (hrange : ∀ p ∈ er, p.toNat < rsVdl2N) (herr : (strayErrors c rx er).card ≤ e)
    (hbound : 2*e+er.length ≤ rsVdl2Nroots) :
    rsVdl2DecodeErasures rx er = ⟨true, c, some (differing c rx).card⟩ := by
  have hb : 2*e+er.length ≤ 6 := hbound
  have hf := card_erasureSet er hnodup hrange
  have hdisj : Disjoint (strayErrors c rx er) (erasureSet er) := disjoint_strayErrors
  have hunion := Finset.card_union_of_disjoint hdisj
  have h : Errata c rx (strayErrors c rx er ∪ erasureSet er) :=
    errata_union hc (by omega)
  rw [rsVdl2DecodeErasures, if_neg (by unfold rsVdl2Nroots; omega)]
  by_cases hz : (rsSyndromes rx).any (fun s => decide (s ≠ 0)) = false
  · have heq := eq_of_syndromes_zero h ((any_nonzero_eq_false _).mp hz)
    have hnone : differing c rx = ∅ := by
      rw [heq, differing]
      simp
    rw [if_pos hz, hnone, heq, Finset.card_empty]
  · obtain ⟨gamma,hloop,hgamma,hgdeg⟩ := gammaLoop_locator hnodup hrange (by omega)
    have hmod := poly_modifiedSyndromes h gamma hgamma hf (by omega)
    obtain ⟨hlam,hlen⟩ := berlekampMassey_locates _ (rsVdl2Nroots-er.length)
      (by unfold rsVdl2Nroots; omega) _ _ (fun p hp => modifiedWeight_ne_zero p hp) hmod
      (by unfold rsVdl2Nroots; omega)
    have hpsi := poly_errataLocator
      (berlekampMassey ((modifiedSyndromes gamma (rsSyndromes rx) er.length).drop er.length)
        (rsVdl2Nroots-er.length)).lambda gamma (strayErrors c rx er).card er.length (by omega)
      (by rw [hlam]; exact natDegree_locator_le _ _) hgdeg
    rw [hlam, hgamma, locator, locator, ← Finset.prod_union hdisj] at hpsi
    rw [if_neg hz, hloop]
    dsimp only
    rw [hlen, if_neg (by unfold rsVdl2Nroots; omega)]
    exact applyErrata_eq h hpsi (by omega)

/-- Erasures and errors within `2e + f ≤ 6` are undone, and the wrong symbols counted. -/
theorem decode_erasures_corrects (msg rx : Block) (er : List UInt8) (e : Nat)
    (hnodup : er.Nodup) (hrange : ∀ p ∈ er, p.toNat < rsVdl2N)
    (herr : (strayErrors (rsVdl2Encode msg) rx er).card ≤ e)
    (hbound : 2*e+er.length ≤ rsVdl2Nroots) :
    rsVdl2DecodeErasures rx er =
      ⟨true, rsVdl2Encode msg, some (differing (rsVdl2Encode msg) rx).card⟩ :=
  rsVdl2DecodeErasures_of_syndromes (syndrome_encode msg) hnodup hrange herr hbound

theorem decode_erasures_corrects_four :
    rsVdl2DecodeErasures (damaged (rsVdl2Encode fun p => UInt8.ofNat p.val)) [200, 250] =
      ⟨true, rsVdl2Encode fun p => UInt8.ofNat p.val,
        some (differing (rsVdl2Encode fun p => UInt8.ofNat p.val)
          (damaged (rsVdl2Encode fun p => UInt8.ofNat p.val))).card⟩ :=
  decode_erasures_corrects (fun p => UInt8.ofNat p.val) _ [200, 250] 2 (by decide)
  (by simp [rsVdl2N]) (card_strayErrors_damaged _) (by decide)

end IridiumAcars.RsDecode
