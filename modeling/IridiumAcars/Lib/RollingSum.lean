import IridiumAcars.Lib.RingBuffer

/-! The sum of a ring of `n` cells is the sum of the last `n` values written. -/
namespace IridiumAcars.RollingSum
open RingBuffer List Function
variable {M : Type*}

section
variable [AddCommMonoid M]

def total (n : Nat) (cells : Nat → M) : M := (List.range n).foldl (fun sum i => sum+cells i) 0

def totalExcept (n skip : Nat) (cells : Nat → M) : M :=
  (List.range n).foldl (fun sum i => if i = skip then sum else sum+cells i) 0

theorem total_succ (n : Nat) (cells : Nat → M) : total (n+1) cells = total n cells+cells n := by
  rw [total, range_succ, foldl_append]
  rfl

theorem totalExcept_succ (n skip : Nat) (cells : Nat → M) :
    totalExcept (n+1) skip cells =
      if n = skip then totalExcept n skip cells else totalExcept n skip cells+cells n := by
  rw [totalExcept, range_succ, foldl_append]
  rfl

theorem total_congr {n : Nat} {f g : Nat → M} (h : ∀ j, j < n → f j = g j) :
    total n f = total n g := by
  induction n with
  | zero => rfl
  | succ n ih => rw [total_succ, total_succ, ih fun j hj => h j (by omega), h n (by omega)]

theorem total_succ_front (n : Nat) (f : Nat → M) :
    total (n+1) f = f 0+total n (fun j => f (j+1)) := by
  induction n with
  | zero => exact (zero_add _).trans (add_zero _).symm
  | succ n ih => rw [total_succ, ih, total_succ, add_assoc]

theorem totalExcept_of_le {n skip : Nat} (cells : Nat → M) (h : n ≤ skip) :
    totalExcept n skip cells = total n cells := by
  induction n with
  | zero => rfl
  | succ n ih => rw [totalExcept_succ, total_succ, if_neg (by omega), ih (by omega)]

theorem totalExcept_add {n skip : Nat} (cells : Nat → M) (h : skip < n) :
    totalExcept n skip cells+cells skip = total n cells := by
  induction n with
  | zero => omega
  | succ n ih =>
    rw [totalExcept_succ, total_succ]
    by_cases hn : n = skip
    · subst hn
      rw [if_pos rfl, totalExcept_of_le cells (Nat.le_refl _)]
    · rw [if_neg hn, add_right_comm, ih (by omega)]

theorem total_update {n i : Nat} (cells : Nat → M) (d : M) (h : i < n) :
    total n (update cells i d)+cells i = total n cells+d := by
  have heq (m : Nat) : totalExcept m i (update cells i d) = totalExcept m i cells := by
    induction m with
    | zero => rfl
    | succ m ih =>
      rw [totalExcept_succ, totalExcept_succ, ih]
      by_cases hm : m = i
      · rw [if_pos hm, if_pos hm]
      · rw [if_neg hm, if_neg hm, update_of_ne hm]
  have hnew := totalExcept_add (update cells i d) h
  rw [heq, update_self] at hnew
  rw [← hnew, ← totalExcept_add cells h, add_right_comm]

theorem total_zero (n : Nat) : total n (fun _ => (0 : M)) = 0 := by
  induction n with
  | zero => rfl
  | succ n ih => rw [total_succ, ih, add_zero]

theorem total_getD (n : Nat) (xs : List M) : total n (fun j => xs.getD j 0) = (xs.take n).sum := by
  induction n generalizing xs with
  | zero => rfl
  | succ n ih =>
    rw [total_succ_front]
    cases xs with
    | nil => exact (zero_add _).trans (total_zero n)
    | cons x xs => exact congrArg (x+·) (ih xs)

theorem total_blocks (n k : Nat) (xs : List M) :
    total n (fun j => ((xs.drop (k*j)).take k).sum) = (xs.take (k*n)).sum := by
  induction n with
  | zero => rfl
  | succ n ih => rw [total_succ, ih, Nat.mul_succ, take_add, sum_append]

end

section
variable [AddCommGroup M] {n head : Nat} {cells : Nat → M} {past : Nat → M}

/-- `past j` is the value written `j` writes before the last. -/
structure Tracks (n : Nat) (cells : Nat → M) (head : Nat) (past : Nat → M) : Prop where
  head_lt : head < n
  cell : ∀ j, j < n → cells ((head+n-j)%n) = past j
  total_eq : total n cells = total n past

theorem Tracks.zero (hn : 0 < n) {past : Nat → M} (h : ∀ j, past j = 0) :
    Tracks n (fun _ => 0) 0 past :=
  ⟨hn, fun j _ => (h j).symm, total_congr fun j _ => (h j).symm⟩

theorem Tracks.head_cell (h : Tracks n cells head past) : cells head = past 0 := by
  have hlt := h.head_lt
  rw [← h.cell 0 (by omega), Nat.sub_zero, Nat.add_mod_right, Nat.mod_eq_of_lt hlt]

theorem Tracks.congr (h : Tracks n cells head past) {past' : Nat → M} (hp : ∀ j, past' j = past j) :
    Tracks n cells head past' := by
  rwa [show past' = past from funext hp]

theorem Tracks.push (h : Tracks n cells head past) {d : M} {past' : Nat → M} (hnew : past' 0 = d)
    (hold : ∀ j, past' (j+1) = past j) :
    Tracks n (update cells ((head+1)%n) d) ((head+1)%n) past' := by
  have hhead := h.head_lt
  have hnext : (head+1)%n < n := Nat.mod_lt _ (by omega)
  refine ⟨hnext, fun j hj => ?_, ?_⟩
  · cases j with
    | zero =>
      rw [Nat.sub_zero, Nat.add_mod_right, Nat.mod_mod, update_self, hnew]
    | succ j =>
      have hindex : ((head+1)%n+n-(j+1))%n = (head+n-j)%n := by
        rw [Nat.add_sub_assoc (by omega), Nat.mod_add_mod]
        congr 1
        omega
      have hne : (head+n-j)%n ≠ (head+1)%n := (mod_ne_of_lt (by omega) (by omega)).symm
      rw [hindex, update_of_ne hne, h.cell j (by omega), hold]
  · obtain ⟨m, rfl⟩ : ∃ m, n = m+1 := ⟨n-1, by omega⟩
    have holdest : cells ((head+1)%(m+1)) = past m := by
      rw [← h.cell m (by omega)]
      congr 2
      omega
    have hupdate := total_update cells d hnext
    rw [holdest, h.total_eq, total_succ m past] at hupdate
    have hpast : total (m+1) past' = d+total m past := by
      rw [total_succ_front, hnew, total_congr fun j _ => hold j]
    rw [hpast]
    exact add_right_cancel (hupdate.trans (by rw [add_right_comm, add_comm d]))

end

end IridiumAcars.RollingSum
