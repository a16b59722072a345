import Mathlib.Data.List.Nodup
import Mathlib.Data.Nat.Bitwise

/-! Separation of error patterns of weight at most three by their syndromes. -/
namespace IridiumAcars.Syndromes
open List

def pairSums : List Nat → List Nat
  | [] => []
  | a::hs => hs.map (a ^^^ ·) ++ pairSums hs

def tripleSums : List Nat → List Nat
  | [] => []
  | a::hs => (pairSums hs).map (a ^^^ ·) ++ tripleSums hs

def mark (l : List Nat) : Nat := l.foldr (fun s m => m ||| 1 <<< s) 0

def distinctFrom : Nat → List Nat → Bool
  | _, [] => true
  | m, s::l => !m.testBit s && distinctFrom (m ||| 1 <<< s) l

/-- Weight at most two: all syndromes differ, none is zero. Weight three: none of them. -/
def separates (hs : List Nat) : Bool :=
  distinctFrom 0 (0::(hs ++ pairSums hs)) &&
  (tripleSums hs).all fun s => !(mark (0::(hs ++ pairSums hs))).testBit s

theorem testBit_or_mark (m s t : Nat) :
    (m ||| 1 <<< s).testBit t = (m.testBit t || decide (s = t)) := by
  rw [Nat.testBit_or, Nat.one_shiftLeft, Nat.testBit_two_pow]

theorem testBit_mark (l : List Nat) (s : Nat) : (mark l).testBit s = decide (s ∈ l) := by
  induction l with
  | nil => simp [mark]
  | cons t l ih =>
    have hm : mark (t::l) = mark l ||| 1 <<< t := rfl
    rw [hm, testBit_or_mark, ih]
    by_cases h : s = t <;> simp [h, eq_comm]

theorem distinctFrom_spec (m : Nat) (l : List Nat) (h : distinctFrom m l = true) :
    l.Nodup ∧ ∀ s ∈ l, m.testBit s = false := by
  induction l generalizing m with
  | nil => simp
  | cons s l ih =>
    simp only [distinctFrom, Bool.and_eq_true, Bool.not_eq_true'] at h
    obtain ⟨hs,hl⟩ := h
    obtain ⟨hn,hm⟩ := ih _ hl
    simp only [testBit_or_mark, Bool.or_eq_false_iff, decide_eq_false_iff_not] at hm
    refine ⟨nodup_cons.mpr ⟨fun hin => (hm s hin).2 rfl, hn⟩, ?_⟩
    intro t ht
    rcases mem_cons.mp ht with rfl | ht
    · exact hs
    · exact (hm t ht).1

theorem mem_pairSums (hs : List Nat) (i j a b : Nat) (hij : i < j) (hi : hs[i]? = some a)
    (hj : hs[j]? = some b) : a ^^^ b ∈ pairSums hs := by
  induction hs generalizing i j with
  | nil => simp at hi
  | cons x hs ih =>
    obtain ⟨j,rfl⟩ : ∃ j', j = j'+1 := ⟨j-1, by omega⟩
    rw [getElem?_cons_succ] at hj
    cases i with
    | zero =>
      obtain rfl : x = a := by simpa using hi
      exact mem_append_left _ (mem_map.mpr ⟨b, mem_of_getElem? hj, rfl⟩)
    | succ i =>
      rw [getElem?_cons_succ] at hi
      exact mem_append_right _ (ih i j (by omega) hi hj)

theorem mem_tripleSums (hs : List Nat) (i j k a b c : Nat) (hij : i < j) (hjk : j < k)
    (hi : hs[i]? = some a) (hj : hs[j]? = some b) (hk : hs[k]? = some c) :
    a ^^^ (b ^^^ c) ∈ tripleSums hs := by
  induction hs generalizing i j k with
  | nil => simp at hi
  | cons x hs ih =>
    obtain ⟨j,rfl⟩ : ∃ j', j = j'+1 := ⟨j-1, by omega⟩
    obtain ⟨k,rfl⟩ : ∃ k', k = k'+1 := ⟨k-1, by omega⟩
    rw [getElem?_cons_succ] at hj hk
    cases i with
    | zero =>
      obtain rfl : x = a := by simpa using hi
      exact mem_append_left _ (mem_map.mpr
        ⟨_, mem_pairSums hs j k b c (by omega) hj hk, rfl⟩)
    | succ i =>
      rw [getElem?_cons_succ] at hi
      exact mem_append_right _ (ih i j k (by omega) (by omega) hi hj hk)

theorem pairSums_inj (hs : List Nat) (i j k l a b c d : Nat) (hn : (pairSums hs).Nodup)
    (hij : i < j) (hkl : k < l) (hi : hs[i]? = some a) (hj : hs[j]? = some b)
    (hk : hs[k]? = some c) (hl : hs[l]? = some d) (h : a ^^^ b = c ^^^ d) : i = k ∧ j = l := by
  induction hs generalizing i j k l with
  | nil => simp at hi
  | cons x hs ih =>
    obtain ⟨hhead,htail,hdisj⟩ := nodup_append.mp hn
    obtain ⟨j,rfl⟩ : ∃ j', j = j'+1 := ⟨j-1, by omega⟩
    obtain ⟨l,rfl⟩ : ∃ l', l = l'+1 := ⟨l-1, by omega⟩
    rw [getElem?_cons_succ] at hj hl
    cases i with
    | zero =>
      obtain rfl : x = a := by simpa using hi
      cases k with
      | zero =>
        obtain rfl : x = c := by simpa using hk
        have hbd : b = d := by
          have := congrArg (x ^^^ ·) h
          simpa [← Nat.xor_assoc] using this
        have hjl : hs[j]? = hs[l]? := by rw [hj, hl, hbd]
        have hlen : j < hs.length := (List.getElem?_eq_some_iff.mp hj).1
        have := (getElem?_inj hlen (hhead.of_map _)).mp hjl
        omega
      | succ k =>
        rw [getElem?_cons_succ] at hk
        exact absurd h (hdisj _ (mem_map.mpr ⟨b, mem_of_getElem? hj, rfl⟩) _
          (mem_pairSums hs k l c d (by omega) hk hl))
    | succ i =>
      rw [getElem?_cons_succ] at hi
      cases k with
      | zero =>
        obtain rfl : x = c := by simpa using hk
        exact absurd h.symm (hdisj _ (mem_map.mpr ⟨d, mem_of_getElem? hl, rfl⟩) _
          (mem_pairSums hs i j a b (by omega) hi hj))
      | succ k =>
        rw [getElem?_cons_succ] at hk
        obtain ⟨h1,h2⟩ := ih i j k l htail (by omega) (by omega) hi hj hk hl
        omega

theorem getElem_syndrome {n : Nat} (h : Nat → Nat) (i : Nat) (hi : i < n) :
    ((List.range n).map h)[i]? = some (h i) := by
  simp [hi]

section
variable {n : Nat} {h : Nat → Nat} (hsep : separates ((List.range n).map h) = true)
include hsep

theorem separates_nodup : (0::((List.range n).map h ++ pairSums ((List.range n).map h))).Nodup := by
  simp only [separates, Bool.and_eq_true] at hsep
  exact (distinctFrom_spec 0 _ hsep.1).1

theorem single_ne_zero (i : Nat) (hi : i < n) : h i ≠ 0 := by
  intro h0
  have hn := (nodup_cons.mp (separates_nodup hsep)).1
  exact hn (mem_append_left _ (mem_map.mpr ⟨i, mem_range.mpr hi, h0⟩))

theorem single_inj (i j : Nat) (hi : i < n) (hj : j < n) (he : h i = h j) : i = j := by
  have hn := (nodup_append.mp (nodup_cons.mp (separates_nodup hsep)).2).1
  exact inj_on_of_nodup_map hn (mem_range.mpr hi) (mem_range.mpr hj) he

theorem pair_ne_zero (i j : Nat) (hij : i < j) (hj : j < n) : h i ^^^ h j ≠ 0 := by
  intro h0
  have hm := mem_pairSums _ i j _ _ hij (getElem_syndrome h i (by omega))
    (getElem_syndrome h j hj)
  rw [h0] at hm
  exact (nodup_cons.mp (separates_nodup hsep)).1 (mem_append_right _ hm)

theorem pair_ne_single (i j k : Nat) (hij : i < j) (hj : j < n) (hk : k < n) :
    h k ≠ h i ^^^ h j := by
  have hn := (nodup_append.mp (nodup_cons.mp (separates_nodup hsep)).2).2.2
  exact hn _ (mem_map.mpr ⟨k, mem_range.mpr hk, rfl⟩) _
    (mem_pairSums _ i j _ _ hij (getElem_syndrome h i (by omega)) (getElem_syndrome h j hj))

theorem pair_inj (i j k l : Nat) (hij : i < j) (hj : j < n) (hkl : k < l) (hl : l < n)
    (he : h i ^^^ h j = h k ^^^ h l) : i = k ∧ j = l := by
  have hn := (nodup_append.mp (nodup_cons.mp (separates_nodup hsep)).2).2.1
  exact pairSums_inj _ i j k l _ _ _ _ hn hij hkl (getElem_syndrome h i (by omega))
    (getElem_syndrome h j hj) (getElem_syndrome h k (by omega))
    (getElem_syndrome h l hl) he

theorem triple_notMem (i j k : Nat) (hij : i < j) (hjk : j < k) (hk : k < n) :
    h i ^^^ (h j ^^^ h k) ∉ 0::((List.range n).map h ++ pairSums ((List.range n).map h)) := by
  have hm := mem_tripleSums _ i j k _ _ _ hij hjk (getElem_syndrome h i (by omega))
    (getElem_syndrome h j (by omega)) (getElem_syndrome h k hk)
  have ht := hsep
  simp only [separates, Bool.and_eq_true, all_eq_true] at ht
  have := ht.2 _ hm
  rw [testBit_mark] at this
  simpa using this

end

end IridiumAcars.Syndromes
