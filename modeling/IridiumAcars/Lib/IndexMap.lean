import Mathlib.Data.List.GetD
import Mathlib.Data.List.Nodup

/-! Reading and writing arrays through lists of indices: gather, scatter, overwrite. -/
namespace IridiumAcars.IndexMap
open List
variable {α β : Type*}

def gather (d : α) (idx : List Nat) (xs : List α) : List α := idx.map fun i => xs.getD i d

def scatter : List Nat → List α → List α → List α
  | i::idx, v::vals, xs => scatter idx vals (xs.set i v)
  | _, _, xs => xs

def writeAt (xs : List α) (off : Nat) (vals : List α) : List α :=
  xs.take off ++ vals ++ xs.drop (off+vals.length)

variable (d : α)

@[simp] theorem length_gather (idx : List Nat) (xs : List α) :
    (gather d idx xs).length = idx.length := by simp [gather]

@[simp] theorem length_scatter (idx : List Nat) (vals xs : List α) :
    (scatter idx vals xs).length = xs.length := by
  induction idx generalizing vals xs with
  | nil => simp [scatter]
  | cons i idx ih =>
    cases vals with
    | nil => simp [scatter]
    | cons v vals => simp [scatter, ih]

theorem gather_append (is js : List Nat) (xs : List α) :
    gather d (is++js) xs = gather d is xs ++ gather d js xs := by simp [gather]

theorem gather_drop (idx : List Nat) (k : Nat) (xs : List α) :
    gather d (idx.drop k) xs = (gather d idx xs).drop k := by simp [gather, map_drop]

theorem gather_take (idx : List Nat) (k : Nat) (xs : List α) :
    gather d (idx.take k) xs = (gather d idx xs).take k := by simp [gather, map_take]

theorem gather_map (f : α → β) (d : α) (idx : List Nat) (xs : List α) :
    gather (f d) idx (xs.map f) = (gather d idx xs).map f := by
  simp [gather]

theorem getD_scatter_of_notMem (idx : List Nat) (vals xs : List α) (p : Nat)
    (h : p ∉ idx) : (scatter idx vals xs).getD p d = xs.getD p d := by
  induction idx generalizing vals xs with
  | nil => simp [scatter]
  | cons i idx ih =>
    cases vals with
    | nil => simp [scatter]
    | cons v vals =>
      have hi : i ≠ p := fun he => h (by simp [he])
      rw [scatter, ih _ _ fun hm => h (mem_cons_of_mem i hm)]
      simp [getD_eq_getElem?_getD, getElem?_set_ne hi]

theorem gather_scatter (idx : List Nat) (vals xs : List α) (hn : idx.Nodup)
    (hb : ∀ i ∈ idx, i < xs.length) (hl : vals.length = idx.length) :
    gather d idx (scatter idx vals xs) = vals := by
  induction idx generalizing vals xs with
  | nil =>
    have : vals = [] := by simpa using hl
    simp [gather, this]
  | cons i idx ih =>
    cases vals with
    | nil => simp at hl
    | cons v vals =>
      obtain ⟨hi,hn'⟩ := nodup_cons.mp hn
      have hlt : i < xs.length := hb i (by simp)
      have htail := ih vals (xs.set i v) hn'
        (fun j hj => by simpa using hb j (mem_cons_of_mem i hj)) (by simpa using hl)
      have hhead : (scatter idx vals (xs.set i v)).getD i d = v := by
        rw [getD_scatter_of_notMem d idx vals _ i hi]
        simp [getD_eq_getElem?_getD, hlt]
      rw [gather, map_cons, scatter, hhead]
      exact congrArg (List.cons v) htail

theorem gather_append_right (idx : List Nat) (xs ys : List α) :
    gather d (idx.map (xs.length+·)) (xs++ys) = gather d idx ys := by
  simp only [gather, map_map]
  apply map_congr_left
  intro i _
  simp [getD_eq_getElem?_getD, getElem?_append_right]

theorem gather_append_left (idx : List Nat) (xs ys : List α)
    (h : ∀ i ∈ idx, i < xs.length) : gather d idx (xs++ys) = gather d idx xs := by
  apply map_congr_left
  intro i hi
  simp [getD_eq_getElem?_getD, getElem?_append_left (h i hi)]

theorem gather_window (idx : List Nat) (xs : List α) (off n : Nat)
    (h : ∀ i ∈ idx, i < n) :
    gather d idx ((xs.drop off).take n) = gather d (idx.map (off+·)) xs := by
  simp only [gather, map_map]
  apply map_congr_left
  intro i hi
  simp [getD_eq_getElem?_getD, getElem?_take_of_lt (h i hi)]

theorem writeAt_replicate (xs vals : List α) (z : α) (off m : Nat)
    (ho : off = xs.length) : writeAt (xs ++ List.replicate m z) off vals =
      (xs ++ vals) ++ List.replicate (m-vals.length) z := by
  subst ho
  simp [writeAt, drop_append]

theorem length_flatMap_range (f : Nat → List α) (m n : Nat) (h : ∀ i < n, (f i).length = m) :
    ((List.range n).flatMap f).length = m*n := by
  induction n with
  | zero => simp
  | succ n ih =>
    rw [range_succ, flatMap_append, length_append, ih fun i hi => h i (by omega)]
    simp [h n (by omega), Nat.mul_add]

theorem window_flatMap (f : Nat → List α) (m n i : Nat) (h : ∀ i < n, (f i).length = m)
    (hi : i < n) : (((List.range n).flatMap f).drop (m*i)).take m = f i := by
  induction n with
  | zero => omega
  | succ n ih =>
    have hl := length_flatMap_range f m n fun j hj => h j (by omega)
    rw [range_succ, flatMap_append, flatMap_singleton]
    by_cases he : i = n
    · subst he
      rw [← hl, drop_left, take_of_length_le (Nat.le_of_eq (h i (by omega)))]
    · have hm : m*i+m ≤ m*n := by
        rw [← Nat.mul_succ]
        exact Nat.mul_le_mul_left m (by omega)
      rw [drop_append_of_le_length (by omega), take_append_of_le_length
        (by rw [length_drop]; omega), ih (fun j hj => h j (by omega)) (by omega)]

theorem flatMap_windows (xs : List α) (m n : Nat) (h : xs.length ≤ m*n) :
    (List.range n).flatMap (fun i => (xs.drop (m*i)).take m) = xs := by
  induction n generalizing xs with
  | zero =>
    have hnil : xs = [] := length_eq_zero_iff.mp (Nat.le_zero.mp h)
    rw [hnil]
    rfl
  | succ n ih =>
    have hl : (xs.take (m*n)).length ≤ m*n := length_take_le _ _
    have hinit : (List.range n).flatMap (fun i => (xs.drop (m*i)).take m) = xs.take (m*n) := by
      rw [← ih (xs.take (m*n)) hl]
      apply flatMap_congr
      intro i hi
      have hm : m*i+m ≤ m*n := by
        rw [← Nat.mul_succ]
        exact Nat.mul_le_mul_left m (mem_range.mp hi)
      rw [drop_take, take_take, Nat.min_eq_left (by omega)]
    have hlast : (xs.drop (m*n)).take m = xs.drop (m*n) := by
      apply take_of_length_le
      rw [Nat.mul_succ] at h
      rw [length_drop]
      omega
    rw [range_succ, flatMap_append, flatMap_singleton, hinit, hlast,
      take_append_drop]

end IridiumAcars.IndexMap
