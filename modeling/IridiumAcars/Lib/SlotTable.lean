import Mathlib.Data.List.FinRange

/-! Fixed tables of slots searched from either end. -/
namespace IridiumAcars.SlotTable
open List
variable {n : Nat} {σ : Type*}

def firstSlot (p : σ → Bool) (t : Fin n → σ) : Option (Fin n) :=
  (List.finRange n).find? fun i => p (t i)

def lastSlot (p : σ → Bool) (t : Fin n → σ) : Option (Fin n) :=
  (List.finRange n).reverse.find? fun i => p (t i)

def setSlot (t : Fin n → σ) (i : Fin n) (s : σ) : Fin n → σ := Function.update t i s

@[simp] theorem setSlot_same (t : Fin n → σ) (i : Fin n) (s : σ) : setSlot t i s i = s := by
  simp [setSlot]

theorem setSlot_other (t : Fin n → σ) (i j : Fin n) (s : σ) (h : j ≠ i) :
    setSlot t i s j = t j := by
  simp [setSlot, h]

variable {t : Fin n → σ}

theorem forall_setSlot {P : σ → Prop} {s : σ} (i : Fin n) (h : ∀ j, P (t j))
    (hs : P s) (j : Fin n) : P (setSlot t i s j) := by
  by_cases hj : j = i
  · rwa [hj, setSlot_same]
  · rw [setSlot_other t i j s hj]
    exact h j

variable {p : σ → Bool} {i : Fin n}

theorem firstSlot_some (h : firstSlot p t = some i) :
    p (t i) = true :=
  find?_some (p := fun i => p (t i)) h

theorem firstSlot_none (h : firstSlot p t = none) (i : Fin n) :
    p (t i) = false := by
  have := find?_eq_none.mp h i (mem_finRange i)
  simpa using this

theorem firstSlot_min (h : firstSlot p t = some i)
    (j : Fin n) (hj : j < i) : p (t j) = false := by
  obtain ⟨-,k,hk,rfl,hbelow⟩ := find?_eq_some_iff_getElem.mp h
  rw [getElem_finRange, Fin.lt_def] at hj
  simpa using hbelow j hj

theorem lastSlot_some (h : lastSlot p t = some i) :
    p (t i) = true :=
  find?_some (p := fun i => p (t i)) h

theorem lastSlot_none (h : lastSlot p t = none) (i : Fin n) :
    p (t i) = false := by
  have := find?_eq_none.mp h i (mem_reverse.mpr (mem_finRange i))
  simpa using this

theorem lastSlot_max (h : lastSlot p t = some i)
    (j : Fin n) (hj : p (t j) = true) : j ≤ i := by
  obtain ⟨-,above,below,hsplit,habove⟩ := find?_eq_some_iff_append.mp h
  have hsorted : (above++i::below).Pairwise (· > ·) := by
    rw [← hsplit]
    exact pairwise_reverse.mpr (pairwise_lt_finRange n)
  have hmem : j ∈ above++i::below := by
    rw [← hsplit]
    exact mem_reverse.mpr (mem_finRange j)
  obtain hj' | hj' := mem_append.mp hmem
  · have := habove j hj'
    rw [hj] at this
    cases this
  · obtain rfl | hbelow := mem_cons.mp hj'
    · exact Fin.le_refl j
    · exact Fin.le_of_lt ((pairwise_cons.mp (pairwise_append.mp hsorted).2.1).1 j hbelow)

end IridiumAcars.SlotTable
