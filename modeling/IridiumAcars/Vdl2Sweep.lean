import IridiumAcars.RsSound
import IridiumAcars.Vdl2L2

/-! The ascending erasure sweep of a full row against its last rung alone. -/
namespace IridiumAcars.Vdl2Sweep
open Gf256 RsVdl2 RsPoly RsLocate RsDecode Vdl2L2 List

section
variable {conf : Nat → Int} {taken candidates : List Nat}

theorem weakest_append (q : Nat) : weakest conf taken (candidates++[q]) =
    if q ∈ taken then weakest conf taken candidates
    else match weakest conf taken candidates with
      | none => some q
      | some b => if conf q < conf b then some q else some b := by
  rw [weakest, foldl_append]
  rfl

theorem weakest_mem {p : Nat} (h : weakest conf taken candidates = some p) :
    p ∈ candidates ∧ p ∉ taken := by
  induction candidates using List.reverseRecOn with
  | nil => cases h
  | append_singleton rest q ih =>
    have hkeep (hp : weakest conf taken rest = some p) : p ∈ rest++[q] ∧ p ∉ taken :=
      ⟨mem_append_left _ (ih hp).1, (ih hp).2⟩
    rw [weakest_append] at h
    split_ifs at h with hq
    · exact hkeep h
    have hnew : q ∈ rest++[q] ∧ q ∉ taken :=
      ⟨mem_append_right _ (mem_singleton.mpr rfl), hq⟩
    cases hb : weakest conf taken rest with
    | none =>
      rw [hb] at h
      cases h
      exact hnew
    | some b =>
      rw [hb] at h
      dsimp only at h
      split_ifs at h with hlt
      · cases h
        exact hnew
      · exact hkeep (hb.trans h)

theorem weakest_none (h : weakest conf taken candidates = none) : ∀ p ∈ candidates, p ∈ taken := by
  induction candidates using List.reverseRecOn with
  | nil => intro p hp; cases hp
  | append_singleton rest q ih =>
    rw [weakest_append] at h
    split_ifs at h with hq
    · intro p hp
      obtain hp | hp := mem_append.mp hp
      · exact ih h p hp
      · rwa [mem_singleton.mp hp]
    · cases hb : weakest conf taken rest with
      | none =>
        rw [hb] at h
        cases h
      | some b =>
        rw [hb] at h
        dsimp only at h
        split at h <;> cases h

theorem selectLoop_spec (conf : Nat → Int) (count : Nat) (hc : candidates.Nodup) (hn : taken.Nodup)
    (hs : taken ⊆ candidates) (hroom : taken.length+count ≤ candidates.length) :
    (selectLoop conf candidates count taken).Nodup ∧
    selectLoop conf candidates count taken ⊆ candidates ∧
    (selectLoop conf candidates count taken).length = taken.length+count := by
  induction count generalizing taken with
  | zero => exact ⟨hn, hs, rfl⟩
  | succ count ih =>
    rw [selectLoop]
    cases hw : weakest conf taken candidates with
    | none =>
      have hle := (subperm_of_subset hc (weakest_none hw)).length_le
      omega
    | some p =>
      obtain ⟨hmem,hnew⟩ := weakest_mem hw
      have hlen : (taken++[p]).length = taken.length+1 := length_append
      obtain ⟨hnodup,hsub,hcount⟩ := ih (hn.append (nodup_singleton p) (by simpa using hnew))
        (append_subset.mpr ⟨hs, by simpa using hmem⟩) (by omega)
      exact ⟨hnodup, hsub, hcount.trans (by omega)⟩

theorem selectWeakest_spec (conf : Nat → Int) (count : Nat) (h : count ≤ rsVdl2N) :
    (selectWeakest conf count).Nodup ∧ (∀ p ∈ selectWeakest conf count, p.toNat < rsVdl2N) ∧
    (selectWeakest conf count).length = count := by
  obtain ⟨hnodup,hsub,hlen⟩ := selectLoop_spec conf count (nodup_range (n := rsVdl2N))
    nodup_nil (nil_subset _) (by simpa using h)
  have hval {p : Nat} (hp : p ∈ selectLoop conf (List.range rsVdl2N) count []) :
      (UInt8.ofNat p).toNat = p ∧ p < rsVdl2N := by
    have hlt := mem_range.mp (hsub hp)
    rw [UInt8.toNat_ofNat']
    unfold rsVdl2N at hlt ⊢
    omega
  refine ⟨List.Nodup.map_on ?_ hnodup, ?_, ?_⟩
  · intro p hp q hq he
    rw [← (hval hp).1, he, (hval hq).1]
  · intro x hx
    obtain ⟨p,hp,rfl⟩ := mem_map.mp hx
    rw [(hval hp).1]
    exact (hval hp).2
  · rw [selectWeakest, length_map, hlen]
    exact Nat.zero_add count

end

section
variable {l : Layout} {tab : Nat → Nat → UInt8} {conf : Nat → Nat → Int} {r : Nat} {c : Block}

def rowBlock (tab : Nat → Nat → UInt8) (r : Nat) : Block := fun p => tab r p.val

def rung (tab : Nat → Nat → UInt8) (conf : Nat → Nat → Int) (r f : Nat) : DecodeResult :=
  rsVdl2DecodeErasures (rowBlock tab r) (selectWeakest (conf r) f)

theorem rung_iff {f : Nat} (hf : f ≤ rsVdl2Nroots) :
    (rung tab conf r f).ok = true ∧ (rung tab conf r f).block = c ↔
      Reaches (rowBlock tab r) (selectWeakest (conf r) f) c := by
  obtain ⟨hnodup,hrange,hlen⟩ := selectWeakest_spec (conf r) f
    (hf.trans (by decide : rsVdl2Nroots ≤ rsVdl2N))
  exact decodes_iff hnodup hrange (hlen.trans_le hf)

theorem rung_fails_iff {f : Nat} (hf : f ≤ rsVdl2Nroots) :
    ¬ (rung tab conf r f).ok = true ↔
      ∀ c, ¬ Reaches (rowBlock tab r) (selectWeakest (conf r) f) c := by
  constructor
  · exact fun h c hc => h ((rung_iff hf).mpr hc).1
  · exact fun h hok => h _ ((rung_iff hf).mp ⟨hok, rfl⟩)

theorem shortened_full (rx : Block) : rsVdl2DecodeShortened rx rsVdl2K = rsVdl2Decode rx := by
  simp [rsVdl2DecodeShortened, rsVdl2DecodeShortenedErasures, shortFecOctetcount, confAccepted,
    rsVdl2Decode, rsVdl2K, rsVdl2Nroots]

theorem decodeRow_full (hfull : r = l.numBlocks-1 → l.last = rsVdl2K)
    (hhard : (rsVdl2Decode (rowBlock tab r)).ok = false) :
    decodeRow l tab (some conf) r = sweep (rung tab conf r) [2, 4, rsVdl2Nroots] := by
  have hdata : (if decide (r = l.numBlocks-1) = true then l.last else rsVdl2K) = rsVdl2K := by
    by_cases hlast : r = l.numBlocks-1
    · rw [if_pos (decide_eq_true hlast), hfull hlast]
    · rw [if_neg (by simpa using hlast)]
  have hsame : (if decide (r = l.numBlocks-1) = true then
      rsVdl2DecodeShortened (rowBlock tab r) l.last else rsVdl2Decode (rowBlock tab r)) =
      rsVdl2Decode (rowBlock tab r) := by
    by_cases hlast : r = l.numBlocks-1
    · rw [if_pos (decide_eq_true hlast), hfull hlast, shortened_full]
    · rw [if_neg (by simpa using hlast)]
  unfold rowBlock at hsame hhard
  simp only [decodeRow, hsame, hhard, hdata, Bool.false_eq_true, if_false, if_true]
  rfl

theorem sweep_eq (attempt : Nat → DecodeResult) (f g h : Nat) :
    sweep attempt [f, g, h] = if (attempt f).ok then some (attempt f).block
      else if (attempt g).ok then some (attempt g).block
      else if (attempt h).ok then some (attempt h).block else none := by
  cases hf : (attempt f).ok <;> cases hg : (attempt g).ok <;> cases hh : (attempt h).ok <;>
    simp [sweep, hf, hg, hh]

end

/-- Rows with a power of the primitive element at each of some positions. -/
def spikes (es : List (Nat × Nat)) : Nat → Nat → UInt8 :=
  fun _ p => es.foldr (fun e x => (if p = e.1 then (pw e.2).val else 0) ^^^ x) 0

def spikeBlock (es : List (Nat × Nat)) : Block := rowBlock (spikes es) 0

theorem mk_syndrome_spikes {es : List (Nat × Nat)} (hes : ∀ e ∈ es, e.1 < rsVdl2N) (i : Nat)
    (hi : i < 6) : (⟨syndrome (spikeBlock es) i⟩ : Gf) =
      (es.map fun e => pw ((e.2+(rsVdl2N-1-e.1)*(gfFcr+i))%255)).sum := by
  rw [mk_syndrome_sum _ _ hi]
  induction es with
  | nil =>
    refine Finset.sum_eq_zero fun p _ => ?_
    rw [show (⟨spikeBlock [] p⟩ : Gf) = 0 from rfl, zero_mul]
  | cons e es ih =>
    obtain ⟨hlt,hrest⟩ := forall_mem_cons.mp hes
    have hterm (p : Fin rsVdl2N) : (⟨spikeBlock (e::es) p⟩ : Gf)*point p^(gfFcr+i) =
        (if p = ⟨e.1, hlt⟩ then pw e.2*point p^(gfFcr+i) else 0) +
          ⟨spikeBlock es p⟩*point p^(gfFcr+i) := by
      rw [spikeBlock, rowBlock, spikes, foldr_cons, mk_xor, add_mul]
      congr 1
      by_cases hp : p.val = e.1
      · rw [if_pos hp, if_pos (Fin.ext hp)]
      · rw [if_neg hp, if_neg fun he => hp (congrArg Fin.val he), mk_zero, zero_mul]
    rw [Finset.sum_congr rfl fun p _ => hterm p, Finset.sum_add_distrib, ih hrest,
      Finset.sum_ite_eq' Finset.univ, if_pos (Finset.mem_univ _), map_cons, sum_cons,
      pw_mod, point, pw_eq_pow (rsVdl2N-1-e.1), ← pow_mul, ← pw_eq_pow, pw_mul]

theorem hard_fails {rx : Block} (hz : ∀ i < 3, (⟨syndrome rx i⟩ : Gf) = 0)
    (hn : (⟨syndrome rx 3⟩ : Gf) ≠ 0) : (rsVdl2Decode rx).ok = false := by
  by_contra hok
  obtain ⟨hreach,-⟩ := accepted_of_ok nodup_nil (Nat.zero_le _)
    (Bool.eq_true_of_not_eq_false hok)
  generalize (rsVdl2DecodeErasures rx []).block = c at hreach
  have hcode : ∀ i < 6, (⟨syndrome c i⟩ : Gf) = 0 := fun i hi =>
    (mk_eq_zero _).mpr (hreach.codeword _ (mem_map_of_mem (mem_range.mpr hi)))
  have hcard : (strayErrors c rx [] ∪ erasureSet []).card ≤ 3 := by
    have hempty : erasureSet [] = ∅ := by simp [erasureSet]
    rw [hempty, Finset.union_empty]
    exact hreach.stray
  have hsame := eq_of_low_syndromes_zero (errata_union hcode (hcard.trans (by decide)))
    (by decide) hcard hz
  rw [hsame] at hn
  exact hn (hcode 3 (by decide))

theorem spikes_codeword {es : List (Nat × Nat)} (hes : ∀ e ∈ es, e.1 < rsVdl2N)
    (h : ∀ i < 6, (es.map fun e => pw ((e.2+(rsVdl2N-1-e.1)*(gfFcr+i))%255)).sum = 0) :
    ∀ s ∈ rsSyndromes (spikeBlock es), s = 0 := by
  intro s hs
  obtain ⟨i,hi,rfl⟩ := mem_map.mp hs
  have hlt : i < 6 := mem_range.mp hi
  rw [← mk_eq_zero, mk_syndrome_spikes hes i hlt, h i hlt]

def errors : List (Nat × Nat) := [(252, 170), (56, 110), (154, 140), (148, 185)]

def further : List (Nat × Nat) := [(251, 50), (49, 35), (55, 245), (66, 35)]

def doubts (order : List Nat) : Nat → Nat → Int := fun _ p => order.idxOf p

theorem errors_hard_fails : (rsVdl2Decode (spikeBlock errors)).ok = false := by
  apply hard_fails
  · intro i hi
    rw [mk_syndrome_spikes (by decide) i (by omega)]
    revert i
    decide +kernel
  · rw [mk_syndrome_spikes (by decide) 3 (by decide)]
    decide +kernel

theorem reaches_blank {er : List UInt8}
    (h : (strayErrors (spikeBlock []) (spikeBlock errors) er).card ≤
      (rsVdl2Nroots-er.length)/2) : Reaches (spikeBlock errors) er (spikeBlock []) :=
  ⟨spikes_codeword (by decide) (by decide), h⟩

/-- The sweep returns `c` exactly if no earlier rung reaches another codeword first. -/
theorem erasure_sweep_keeps_iff (l : Layout) (tab : Nat → Nat → UInt8) (conf : Nat → Nat → Int)
    (r : Nat) (c : Block) (hfull : r = l.numBlocks-1 → l.last = rsVdl2K)
    (hhard : (rsVdl2Decode (rowBlock tab r)).ok = false)
    (hsix :
      (rsVdl2DecodeErasures (rowBlock tab r) (selectWeakest (conf r) rsVdl2Nroots)).ok = true ∧
      (rsVdl2DecodeErasures (rowBlock tab r) (selectWeakest (conf r) rsVdl2Nroots)).block = c) :
    decodeRow l tab (some conf) r = some c ↔
      Reaches (rowBlock tab r) (selectWeakest (conf r) 2) c ∨
      (∀ b, ¬ Reaches (rowBlock tab r) (selectWeakest (conf r) 2) b) ∧
        (Reaches (rowBlock tab r) (selectWeakest (conf r) 4) c ∨
          ∀ b, ¬ Reaches (rowBlock tab r) (selectWeakest (conf r) 4) b) := by
  have htwo : 2 ≤ rsVdl2Nroots := by decide
  have hfour : 4 ≤ rsVdl2Nroots := by decide
  rw [decodeRow_full hfull hhard, sweep_eq, ← rung_iff htwo, ← rung_iff hfour,
    ← rung_fails_iff htwo, ← rung_fails_iff hfour]
  have hlast : (rung tab conf r rsVdl2Nroots).ok = true ∧
      (rung tab conf r rsVdl2Nroots).block = c := hsix
  by_cases h2 : (rung tab conf r 2).ok = true
  · simp [h2]
  · by_cases h4 : (rung tab conf r 4).ok = true
    · simp [h2, h4]
    · simp [h2, h4, hlast]

/-- The errors are the weakest symbols: the first rung already has the block. -/
theorem erasure_sweep_keeps_blank :
    decodeRow (layout (8*rsVdl2K)) (spikes errors) (some (doubts [252, 56, 154, 148, 251, 49])) 0 =
      some (spikeBlock []) := by
  have htwo : selectWeakest (doubts [252, 56, 154, 148, 251, 49] 0) 2 = [252, 56] := by
    decide +kernel
  have hsix : selectWeakest (doubts [252, 56, 154, 148, 251, 49] 0) rsVdl2Nroots =
      [252, 56, 154, 148, 251, 49] := by decide +kernel
  refine (erasure_sweep_keeps_iff _ _ _ 0 (spikeBlock []) (fun _ => rfl) errors_hard_fails
    ((rung_iff le_rfl).mpr ?_)).mpr (.inl ?_)
  · rw [hsix]
    exact reaches_blank (by decide +kernel)
  · rw [htwo]
    exact reaches_blank (by decide +kernel)

/-- The last rung alone would return the block that was sent; the first finds another codeword. -/
theorem sweep_accepts_another :
    (rsVdl2Decode (rowBlock (spikes errors) 0)).ok = false ∧
    (rsVdl2DecodeErasures (rowBlock (spikes errors) 0)
      (selectWeakest (doubts [251, 49, 252, 56, 154, 148] 0) rsVdl2Nroots)).ok = true ∧
    (rsVdl2DecodeErasures (rowBlock (spikes errors) 0)
      (selectWeakest (doubts [251, 49, 252, 56, 154, 148] 0) rsVdl2Nroots)).block = spikeBlock [] ∧
    decodeRow (layout (8*rsVdl2K)) (spikes errors) (some (doubts [251, 49, 252, 56, 154, 148])) 0 =
      some (spikeBlock (errors++further)) ∧
    spikeBlock (errors++further) ≠ spikeBlock [] := by
  have htwo : selectWeakest (doubts [251, 49, 252, 56, 154, 148] 0) 2 = [251, 49] := by
    decide +kernel
  have hsix : selectWeakest (doubts [251, 49, 252, 56, 154, 148] 0) rsVdl2Nroots =
      [251, 49, 252, 56, 154, 148] := by decide +kernel
  have hlast : Reaches (rowBlock (spikes errors) 0)
      (selectWeakest (doubts [251, 49, 252, 56, 154, 148] 0) rsVdl2Nroots) (spikeBlock []) := by
    rw [hsix]
    exact reaches_blank (by decide +kernel)
  have hfirst : Reaches (rowBlock (spikes errors) 0)
      (selectWeakest (doubts [251, 49, 252, 56, 154, 148] 0) 2) (spikeBlock (errors++further)) := by
    rw [htwo]
    exact ⟨spikes_codeword (by decide) (by decide +kernel), by decide +kernel⟩
  obtain ⟨hok,hblock⟩ := (rung_iff le_rfl).mpr hlast
  refine ⟨errors_hard_fails, hok, hblock, ?_,
    fun h => absurd (congrFun h ⟨251, by decide⟩) (by decide +kernel)⟩
  obtain ⟨hok,hblock⟩ := (rung_iff (by decide)).mpr hfirst
  rw [decodeRow_full (fun _ => rfl) errors_hard_fails, sweep_eq, if_pos hok, hblock]

end IridiumAcars.Vdl2Sweep
