import IridiumAcars.RsDecode

/-! What a successful return of the decoder means without any assumption on the errors. -/
namespace IridiumAcars.RsDecode
open Polynomial Gf256 RsVdl2 RsPoly RsLocate Locator List

section
variable {psi omega : List UInt8} {dpsi : Nat}

theorem forneyValue_ne_zero (num den : UInt8) (q : Nat) : forneyValue num den q ≠ 0 := by
  rw [ne_eq, ← mk_eq_zero, forneyValue, gfExp_mod]
  exact pw_ne_zero _

theorem correctRoot_changes {st st' : Block × Nat} {q : Nat}
    (h : correctRoot psi omega dpsi st q = some st') :
    (∀ x, x ≠ errPos q → st'.1 x = st.1 x) ∧
    st'.2 = st.2+if st'.1 (errPos q) ≠ st.1 (errPos q) then 1 else 0 := by
  rw [correctRoot] at h
  by_cases hden : forneyDen psi dpsi q = 0
  · rw [if_pos hden] at h
    cases h
  rw [if_neg hden] at h
  split_ifs at h with hnum
  · cases h
    exact ⟨fun _ _ => rfl, by rw [if_neg (not_not.mpr rfl), Nat.add_zero]⟩
  cases h
  refine ⟨fun x hx => if_neg fun hv => hx (Fin.ext hv), ?_⟩
  have hchange : st.1 (errPos q) ^^^ forneyValue (forneyNum omega q) (forneyDen psi dpsi q) q ≠
      st.1 (errPos q) := by
    intro he
    have hzero := congrArg (st.1 (errPos q) ^^^ ·) he
    rw [← UInt8.xor_assoc, UInt8.xor_self, UInt8.zero_xor] at hzero
    exact forneyValue_ne_zero _ _ q hzero
  have hset : (if (errPos q).val = rsVdl2N-1-(255-q)%255 then st.1 (errPos q) ^^^
      forneyValue (forneyNum omega q) (forneyDen psi dpsi q) q else st.1 (errPos q)) =
      st.1 (errPos q) ^^^ forneyValue (forneyNum omega q) (forneyDen psi dpsi q) q := if_pos rfl
  simp only [hset, if_pos hchange]

theorem correctRoots_changes {qs : List Nat} (hn : (qs.map errPos).Nodup) {st res : Block × Nat}
    (h : correctRoots psi omega dpsi qs st = (true, res)) :
    (∀ x, x ∉ qs.map errPos → res.1 x = st.1 x) ∧
    res.2 = st.2+((qs.map errPos).filter fun p => decide (res.1 p ≠ st.1 p)).length := by
  induction qs generalizing st with
  | nil =>
    cases h
    exact ⟨fun _ _ => rfl, rfl⟩
  | cons q qs ih =>
    obtain ⟨hnot,hrest⟩ := nodup_cons.mp hn
    rw [correctRoots] at h
    cases hroot : correctRoot psi omega dpsi st q with
    | none =>
      rw [hroot] at h
      cases h
    | some st' =>
      rw [hroot] at h
      obtain ⟨hkeep,hcount⟩ := correctRoot_changes hroot
      obtain ⟨hother,hnum⟩ := ih hrest h
      have hself : res.1 (errPos q) = st'.1 (errPos q) := hother _ hnot
      have htail : (qs.map errPos).filter (fun p => decide (res.1 p ≠ st'.1 p)) =
          (qs.map errPos).filter fun p => decide (res.1 p ≠ st.1 p) := by
        refine filter_congr fun p hp => ?_
        rw [hkeep p fun he => hnot (he ▸ hp)]
      refine ⟨fun x hx => ?_, ?_⟩
      · rw [map_cons, mem_cons, not_or] at hx
        rw [hother x hx.2, hkeep x hx.1]
      · rw [hnum, hcount, htail, map_cons, filter_cons, hself]
        by_cases hc : st'.1 (errPos q) = st.1 (errPos q)
        · simp [hc]
        · simp [hc]
          omega

theorem applyErrata_ok {rx : Block} {syn : List UInt8}
    (h : (applyErrata rx syn psi dpsi).ok = true) :
    (∀ s ∈ rsSyndromes (applyErrata rx syn psi dpsi).block, s = 0) ∧
    (chienRoots psi dpsi).length = dpsi ∧
    (∀ x, x ∉ (chienRoots psi dpsi).map errPos → (applyErrata rx syn psi dpsi).block x = rx x) ∧
    (applyErrata rx syn psi dpsi).nCorrected =
      some (differing (applyErrata rx syn psi dpsi).block rx).card := by
  rw [applyErrata] at h ⊢
  by_cases hroots : (chienRoots psi dpsi).length > rsVdl2Nroots ∨
      (chienRoots psi dpsi).length ≠ dpsi
  · rw [if_pos hroots] at h
    cases h
  rw [if_neg hroots] at h ⊢
  rcases hres : correctRoots psi (errataEvaluator psi syn dpsi) dpsi (chienRoots psi dpsi)
    (rx, 0) with ⟨done,res⟩
  simp only [hres] at h ⊢
  cases done with
  | false => cases h
  | true =>
    by_cases hsyn : (rsSyndromes res.1).any (fun s => decide (s ≠ 0)) = true
    · rw [if_neg Bool.false_ne_true.symm, if_pos hsyn] at h
      cases h
    rw [if_neg Bool.false_ne_true.symm, if_neg hsyn]
    obtain ⟨hkeep,hcount⟩ := correctRoots_changes (positions_nodup psi dpsi) hres
    refine ⟨(any_nonzero_eq_false _).mp (Bool.eq_false_iff.mpr hsyn),
      Decidable.not_not.mp fun hne => hroots (.inr hne), hkeep, ?_⟩
    have hset : differing res.1 rx =
        (((chienRoots psi dpsi).map errPos).filter fun p => decide (res.1 p ≠ rx p)).toFinset := by
      ext x
      rw [differing, Finset.mem_filter, mem_toFinset, mem_filter, decide_eq_true_eq]
      constructor
      · exact fun hx => ⟨by_contra fun hnot => hx.2 (hkeep x hnot).symm, Ne.symm hx.2⟩
      · exact fun hx => ⟨Finset.mem_univ x, Ne.symm hx.2⟩
    rw [hcount, Nat.zero_add, hset,
      toFinset_card_of_nodup ((positions_nodup psi dpsi).filter _)]

end

variable {er : List UInt8}

theorem gammaLoop_range {e : Nat} {gamma g : List UInt8}
    (h : gammaLoop er e gamma = some g) : ∀ p ∈ er, p.toNat < rsVdl2N := by
  induction er generalizing e gamma with
  | nil => intro p hp; cases hp
  | cons pos rest ih =>
    rw [gammaLoop] at h
    by_cases hpos : pos.toNat ≥ rsVdl2N
    · rw [if_pos hpos] at h
      cases h
    · rw [if_neg hpos] at h
      intro p hp
      obtain rfl | hp := mem_cons.mp hp
      · exact Nat.not_le.mp hpos
      · exact ih h p hp

theorem card_stray_le {rx b : Block} {er psi : List UInt8} {len : Nat} {lam : Gf[X]}
    (hf : (erasureSet er).card = er.length) (hpsi : poly psi = lam*locator point (erasureSet er))
    (hdeg : (poly psi).natDegree ≤ len+er.length)
    (hroots : (chienRoots psi (len+er.length)).length = len+er.length)
    (hkeep : ∀ x, x ∉ (chienRoots psi (len+er.length)).map errPos → b x = rx x) :
    (strayErrors b rx er).card ≤ len := by
  have hnodup := positions_nodup psi (len+er.length)
  have hcard : ((chienRoots psi (len+er.length)).map errPos).toFinset.card = len+er.length := by
    rw [toFinset_card_of_nodup hnodup, length_map, hroots]
  have herase : erasureSet er ⊆ ((chienRoots psi (len+er.length)).map errPos).toFinset := by
    intro p hp
    obtain ⟨q,hq,rfl⟩ := errPos_surj p
    rw [mem_toFinset]
    refine mem_map_of_mem (mem_filter.mpr ⟨mem_range.mpr hq, ?_⟩)
    rw [decide_eq_true_eq, ← mk_eq_zero, mk_chienValue q hdeg, hpsi, eval_mul,
      ← inv_point_errPos q hq, eval_locator_mem point _ hp (point_ne_zero _), mul_zero]
  have hsub : strayErrors b rx er ⊆
      ((chienRoots psi (len+er.length)).map errPos).toFinset \ erasureSet er := by
    intro p hp
    obtain ⟨-,hnot,hne⟩ := Finset.mem_filter.mp hp
    rw [Finset.mem_sdiff, mem_toFinset]
    refine ⟨by_contra fun hout => hne (hkeep p hout).symm, fun hin => ?_⟩
    exact hnot (Finset.mem_filter.mp hin).2
  have hle := Finset.card_le_card hsub
  rw [Finset.card_sdiff_of_subset herase, hcard, hf] at hle
  omega

/-- A codeword that differs from `rx` outside the erasures in no more symbols than the budget. -/
structure Reaches (rx : Block) (er : List UInt8) (c : Block) : Prop where
  codeword : ∀ s ∈ rsSyndromes c, s = 0
  stray : (strayErrors c rx er).card ≤ (rsVdl2Nroots-er.length)/2

theorem applyErrata_reaches {rx : Block} {er lam gamma : List UInt8} {len : Nat}
    (hf : (erasureSet er).card = er.length) (hgamma : poly gamma = locator point (erasureSet er))
    (hgdeg : (poly gamma).natDegree ≤ er.length) (hldeg : (poly lam).natDegree ≤ len)
    (hb : 2*len+er.length ≤ 6)
    (hok : (applyErrata rx (rsSyndromes rx) (errataLocator lam gamma len er.length)
      (len+er.length)).ok = true) :
    let res := applyErrata rx (rsSyndromes rx) (errataLocator lam gamma len er.length)
      (len+er.length)
    Reaches rx er res.block ∧ res.nCorrected = some (differing res.block rx).card := by
  have hpsi := poly_errataLocator lam gamma len er.length (by omega) hldeg hgdeg
  have hdeg : (poly (errataLocator lam gamma len er.length)).natDegree ≤ len+er.length := by
    rw [hpsi]
    exact natDegree_mul_le.trans (Nat.add_le_add hldeg hgdeg)
  rw [hgamma] at hpsi
  obtain ⟨hsyn,hroots,hkeep,hcount⟩ := applyErrata_ok hok
  refine ⟨⟨hsyn, ?_⟩, hcount⟩
  have hstray := card_stray_le hf hpsi hdeg hroots hkeep
  unfold rsVdl2Nroots
  omega

theorem accepted_of_ok {rx : Block} (hnodup : er.Nodup)
    (hlen : er.length ≤ rsVdl2Nroots) (hok : (rsVdl2DecodeErasures rx er).ok = true) :
    Reaches rx er (rsVdl2DecodeErasures rx er).block ∧
    (rsVdl2DecodeErasures rx er).nCorrected =
      some (differing (rsVdl2DecodeErasures rx er).block rx).card := by
  rw [rsVdl2DecodeErasures, if_neg (Nat.not_lt.mpr hlen)] at hok ⊢
  by_cases hz : (rsSyndromes rx).any (fun s => decide (s ≠ 0)) = false
  · rw [if_pos hz]
    refine ⟨⟨(any_nonzero_eq_false _).mp hz, ?_⟩, by simp [differing]⟩
    have hnone : strayErrors rx rx er = ∅ := by simp [strayErrors]
    rw [hnone]
    exact Nat.zero_le _
  · rw [if_neg hz] at hok ⊢
    cases hloop : gammaLoop er 0 [1, 0, 0, 0, 0, 0, 0] with
    | none =>
      rw [hloop] at hok
      cases hok
    | some gamma =>
      rw [hloop] at hok
      dsimp only at hok ⊢
      have hrange := gammaLoop_range hloop
      obtain ⟨g,hg,hgamma,hgdeg⟩ := gammaLoop_locator hnodup hrange hlen
      obtain rfl : gamma = g := Option.some.inj (hloop.symm.trans hg)
      obtain ⟨om,auxOm,hs⟩ := tracks_run ((modifiedSyndromes gamma (rsSyndromes rx) er.length).drop
        er.length) (rsVdl2Nroots-er.length) (Nat.sub_le _ _)
      generalize berlekampMassey
        ((modifiedSyndromes gamma (rsSyndromes rx) er.length).drop er.length)
        (rsVdl2Nroots-er.length) = bm at hok hs ⊢
      by_cases hbudget : 2*bm.len+er.length > rsVdl2Nroots
      · rw [if_pos hbudget] at hok
        cases hok
      · rw [if_neg hbudget] at hok ⊢
        exact applyErrata_reaches (card_erasureSet er hnodup hrange) hgamma hgdeg hs.lam_deg
          (Nat.not_lt.mp hbudget) hok

/-- The decoder returns exactly the codeword within reach. -/
theorem decodes_iff {rx c : Block} (hnodup : er.Nodup)
    (hrange : ∀ p ∈ er, p.toNat < rsVdl2N) (hlen : er.length ≤ rsVdl2Nroots) :
    (rsVdl2DecodeErasures rx er).ok = true ∧ (rsVdl2DecodeErasures rx er).block = c ↔
      Reaches rx er c := by
  constructor
  · rintro ⟨hok,rfl⟩
    exact (accepted_of_ok hnodup hlen hok).1
  · intro h
    have hzero : ∀ i < 6, (⟨syndrome c i⟩ : Gf) = 0 := fun i hi =>
      (mk_eq_zero _).mpr (h.codeword _ (mem_map_of_mem (mem_range.mpr hi)))
    rw [rsVdl2DecodeErasures_of_syndromes hzero hnodup hrange h.stray
      (by unfold rsVdl2Nroots at hlen ⊢; omega)]
    exact ⟨rfl, rfl⟩

/-- An accepted block is a codeword, and the changed symbols are counted. -/
theorem decode_erasures_sound (rx : Block) (er : List UInt8) (hnodup : er.Nodup)
    (hlen : er.length ≤ rsVdl2Nroots) (hok : (rsVdl2DecodeErasures rx er).ok = true) :
    (∀ s ∈ rsSyndromes (rsVdl2DecodeErasures rx er).block, s = 0) ∧
    (rsVdl2DecodeErasures rx er).nCorrected =
      some (differing (rsVdl2DecodeErasures rx er).block rx).card ∧
    (strayErrors (rsVdl2DecodeErasures rx er).block rx er).card ≤ (rsVdl2Nroots-er.length)/2 := by
  obtain ⟨hreach,hcount⟩ := accepted_of_ok hnodup hlen hok
  exact ⟨hreach.codeword, hcount, hreach.stray⟩

/-- Two stray errors and two erasures. -/
theorem decode_erasures_sound_damaged :
    (strayErrors (rsVdl2DecodeErasures (damaged (rsVdl2Encode fun p => UInt8.ofNat p.val))
      [200, 250]).block (damaged (rsVdl2Encode fun p => UInt8.ofNat p.val)) [200, 250]).card ≤
        2 := by
  refine (decode_erasures_sound _ [200, 250] (by decide) (by decide) ?_).2.2
  rw [rsVdl2DecodeErasures_of_syndromes (syndrome_encode fun p => UInt8.ofNat p.val) (by decide)
    (by simp [rsVdl2N]) (card_strayErrors_damaged _) (by decide)]

end IridiumAcars.RsDecode
