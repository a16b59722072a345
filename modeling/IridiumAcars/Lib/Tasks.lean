import Mathlib.Algebra.Order.BigOperators.Group.Finset

/-! Families of tasks of which one at a time moves to another phase. -/
namespace IridiumAcars.Tasks
open Function Finset

section
variable {ι φ M : Type*} [Fintype ι] [DecidableEq ι] [AddCancelCommMonoid M]
  (f : φ → M) (task : ι → φ) (i : ι) (x : φ)

def total : M := ∑ j, f (task j)

theorem total_update : total f (update task i x)+f (task i) = total f task+f x := by
  have hrest : ∑ j ∈ univ.erase i, f (update task i x j) =
      ∑ j ∈ univ.erase i, f (task j) :=
    sum_congr rfl fun j hj => by rw [update_of_ne (ne_of_mem_erase hj)]
  have hnew := add_sum_erase univ (fun j => f (update task i x j))
    (mem_univ i)
  have hold := add_sum_erase univ (fun j => f (task j)) (mem_univ i)
  rw [hrest, update_self] at hnew
  rw [total, total, ← hnew, ← hold, add_right_comm, add_comm (f x), add_right_comm]

variable {f task i x}

omit [DecidableEq ι] in
theorem total_zero (h : ∀ j, f (task j) = 0) : total f task = 0 := sum_eq_zero fun j _ => h j

end

section
variable {ι φ : Type*} [DecidableEq ι] {P : φ → Prop} {task : ι → φ} {i j : ι} {x : φ}

/-- No two tasks are in a phase of the kind. -/
def AtMostOne (P : φ → Prop) (task : ι → φ) : Prop := ∀ i j, P (task i) → P (task j) → i = j

theorem AtMostOne.update (h : AtMostOne P task) (hx : P x → P (task i) ∨ ∀ j, ¬P (task j)) :
    AtMostOne P (update task i x) := by
  -- The mover was alone of its kind before, or it finds nobody else of the kind.
  have hother : ∀ j, P x → P (task j) → j = i := by
    intro j hi hj
    obtain hold | hnone := hx hi
    · exact h j i hj hold
    · exact absurd hj (hnone j)
  intro j k hj hk
  by_cases hji : j = i <;> by_cases hki : k = i
  · exact hji.trans hki.symm
  · subst hji
    rw [update_self] at hj
    rw [update_of_ne hki] at hk
    exact (hother k hj hk).symm
  · subst hki
    rw [update_of_ne hji] at hj
    rw [update_self] at hk
    exact hother j hk hj
  · rw [update_of_ne hji] at hj
    rw [update_of_ne hki] at hk
    exact h j k hj hk

end

end IridiumAcars.Tasks
