import IridiumAcars.BchRepair
import IridiumAcars.Lib.Syndromes

/-! `iridium_bch_repair2` on a codeword with at most three toggled cells, where syndromes separate.
-/
namespace IridiumAcars.Bch
open Syndromes List

def flipAll (bits : List UInt8) (is : List Nat) : List UInt8 := is.foldl flipBit bits

theorem flipBit_comm (bits : List UInt8) (i j : Nat) :
    flipBit (flipBit bits i) j = flipBit (flipBit bits j) i := by
  apply ext_getElem
  · simp
  · intro k hk hb
    by_cases hi : i = k <;> by_cases hj : j = k <;> simp [flipBit, hi, hj]

theorem mem_indexPairs_of_lt (n i j : Nat) (hij : i < j) (hj : j < n) : (i, j) ∈ indexPairs n := by
  simp only [indexPairs, mem_flatMap, mem_range, mem_map, mem_range'_1]
  exact ⟨i, by omega, j, by omega, rfl⟩

theorem firstSingle_eq_some (poly : UInt32) (n s i : Nat) (hi : i < n) (hs : syn1 poly n i = s)
    (hu : ∀ j < n, syn1 poly n j = s → j = i) : firstSingle poly n s = some i := by
  cases hf : firstSingle poly n s with
  | none =>
    have := find?_eq_none.mp hf i (mem_range.mpr hi)
    simp [hs] at this
  | some j =>
    have hj := mem_range.mp (mem_of_find?_eq_some hf)
    have he := find?_some hf
    rw [hu j hj (by simpa using he)]

theorem firstSingle_eq_none (poly : UInt32) (n s : Nat) (h : ∀ i < n, syn1 poly n i ≠ s) :
    firstSingle poly n s = none := by
  rw [firstSingle, find?_eq_none]
  intro i hi
  simpa using h i (mem_range.mp hi)

theorem firstPair_eq_some (poly : UInt32) (n s i j : Nat) (hij : i < j) (hj : j < n)
    (hs : syn1 poly n i ^^^ syn1 poly n j = s)
    (hu : ∀ k l, k < l → l < n → syn1 poly n k ^^^ syn1 poly n l = s → k = i ∧ l = j) :
    firstPair poly n s = some (i, j) := by
  cases hf : firstPair poly n s with
  | none =>
    have := find?_eq_none.mp hf _ (mem_indexPairs_of_lt n i j hij hj)
    simp [hs] at this
  | some kl =>
    obtain ⟨h1,h2⟩ := mem_indexPairs n kl (mem_of_find?_eq_some hf)
    have he := find?_some hf
    obtain ⟨hk,hl⟩ := hu kl.1 kl.2 h1 h2 (by simpa using he)
    rw [← hk, ← hl]

theorem firstPair_eq_none (poly : UInt32) (n s : Nat)
    (h : ∀ i j, i < j → j < n → syn1 poly n i ^^^ syn1 poly n j ≠ s) :
    firstPair poly n s = none := by
  rw [firstPair, find?_eq_none]
  intro ij hij
  obtain ⟨h1,h2⟩ := mem_indexPairs n ij hij
  simpa using h ij.1 ij.2 h1 h2

section
variable (poly : UInt32) (d n : Nat) (hp : u32BitLength poly.toNat = d+1) (hn : n ≤ synMaxNBits)
  (hsep : separates ((List.range n).map (syn1 poly n)) = true)
  (cw : List UInt8) (hl : cw.length = n) (hc : iridiumBchNdivide poly cw = 0)
include hp hn hl hc

theorem ndivide_flip_codeword (i : Nat) (hi : i < n) :
    iridiumBchNdivide poly (flipBit cw i) = syn1 poly n i := by
  subst hl
  rw [ndivide_flipBit poly d cw i hp hn hi, hc, Nat.zero_xor]

theorem ndivide_flip_two (i j : Nat) (hi : i < n) (hj : j < n) :
    iridiumBchNdivide poly (flipBit (flipBit cw i) j) = syn1 poly n i ^^^ syn1 poly n j := by
  have hlen : (flipBit cw i).length = n := by rw [length_flipBit, hl]
  rw [ndivide_flipBit poly d _ j hp (hlen ▸ hn) (hlen ▸ hj), hlen,
    ndivide_flip_codeword poly d n hp hn cw hl hc i hi]

include hsep

theorem repair2Ref_one (i : Nat) (hi : i < n) :
    iridiumBchRepair2Ref poly (flipBit cw i) = (1, cw) := by
  have hs := ndivide_flip_codeword poly d n hp hn cw hl hc i hi
  have hlen : (flipBit cw i).length = n := by rw [length_flipBit, hl]
  rw [repair2Ref_eq poly d _ hp (hlen ▸ hn) (by omega)
      (by rw [hs]; exact single_ne_zero hsep i hi), hlen, hs,
    firstSingle_eq_some poly n _ i hi rfl fun j hj he => single_inj hsep j i hj hi he]
  simp only [flipBit_flipBit]

theorem repair2Ref_two (i j : Nat) (hij : i < j) (hj : j < n) :
    iridiumBchRepair2Ref poly (flipBit (flipBit cw i) j) = (2, cw) := by
  have hs := ndivide_flip_two poly d n hp hn cw hl hc i j (by omega) hj
  have hlen : (flipBit (flipBit cw i) j).length = n := by rw [length_flipBit, length_flipBit, hl]
  rw [repair2Ref_eq poly d _ hp (hlen ▸ hn) (by omega)
      (by rw [hs]; exact pair_ne_zero hsep i j hij hj), hlen, hs,
    firstSingle_eq_none poly n _ fun k hk => pair_ne_single hsep i j k hij hj hk,
    firstPair_eq_some poly n _ i j hij hj rfl fun k l hkl hl' he =>
      pair_inj hsep k l i j hkl hl' hij hj he]
  simp only
  rw [flipBit_comm (flipBit cw i) j i, flipBit_flipBit, flipBit_flipBit]

theorem repair2Ref_three (i j k : Nat) (hij : i < j) (hjk : j < k) (hk : k < n) :
    (iridiumBchRepair2Ref poly (flipBit (flipBit (flipBit cw i) j) k)).1 = -1 := by
  have hlen : (flipBit (flipBit cw i) j).length = n := by rw [length_flipBit, length_flipBit, hl]
  have hs : iridiumBchNdivide poly (flipBit (flipBit (flipBit cw i) j) k) =
      syn1 poly n i ^^^ (syn1 poly n j ^^^ syn1 poly n k) := by
    rw [ndivide_flipBit poly d _ k hp (hlen ▸ hn) (hlen ▸ hk), hlen,
      ndivide_flip_two poly d n hp hn cw hl hc i j (by omega) (by omega), Nat.xor_assoc]
  have hlen3 : (flipBit (flipBit (flipBit cw i) j) k).length = n := by rw [length_flipBit, hlen]
  have hm := triple_notMem hsep i j k hij hjk hk
  rw [mem_cons, mem_append, not_or, not_or] at hm
  obtain ⟨h0,h1,h2⟩ := hm
  have hsingle := firstSingle_eq_none poly n _ fun l hl he => h1 (mem_map.mpr
    ⟨l, mem_range.mpr hl, he⟩)
  have hpair : firstPair poly n (syn1 poly n i ^^^ (syn1 poly n j ^^^ syn1 poly n k)) = none := by
    apply firstPair_eq_none
    intro l m hlm hm he
    rw [← he] at h2
    exact h2 (mem_pairSums _ l m _ _ hlm (getElem_syndrome _ l (by omega))
      (getElem_syndrome _ m hm))
  rw [repair2Ref_eq poly d _ hp (hlen3 ▸ hn) (by omega) (by rw [hs]; exact h0), hlen3, hs,
    hsingle, hpair]

theorem repair2Ref_light (is : List Nat) (hs : is.Pairwise (· < ·)) (hb : ∀ i ∈ is, i < n)
    (h2 : is.length ≤ 2) (h0 : n ≠ 0) :
    iridiumBchRepair2Ref poly (flipAll cw is) = ((is.length : Int), cw) := by
  match is with
  | [] => simp [flipAll, iridiumBchRepair2Ref, hc, hl, h0]
  | [i] => exact repair2Ref_one poly d n hp hn hsep cw hl hc i (hb i (by simp))
  | [i,j] =>
    exact repair2Ref_two poly d n hp hn hsep cw hl hc i j (by simpa using hs) (hb j (by simp))

theorem repair2Ref_heavy (is : List Nat) (hs : is.Pairwise (· < ·)) (hb : ∀ i ∈ is, i < n)
    (h3 : is.length = 3) : (iridiumBchRepair2Ref poly (flipAll cw is)).1 = -1 := by
  match is with
  | [i,j,k] =>
    simp only [pairwise_cons, mem_cons, not_mem_nil, or_false] at hs
    exact repair2Ref_three poly d n hp hn hsep cw hl hc i j k (hs.1 j (Or.inl rfl))
      (hs.2.1 k rfl) (hb k (by simp))

end

theorem acch_syndromes : (List.range 31).map (syn1 3545 31) =
    [1772,886,443,1585,1524,762,381,1618,809,1912,956,478,239,1691,1441,1084,542,271,1643,1497,
     1024,512,256,128,64,32,16,8,4,2,1] := by
  decide +kernel

theorem acch_separates : separates ((List.range 31).map (syn1 3545 31)) = true := by
  rw [acch_syndromes]
  decide +kernel

end IridiumAcars.Bch
