import Mathlib.Data.Nat.Basic
import Mathlib.Tactic.Common

/-! Ascending positions that keep a distance. -/
namespace IridiumAcars.Spacing
open List

/-- The first entry is at least `lo`, and each entry at least `gap` past the one before it. -/
def Spaced (gap : Nat) : Nat → List Nat → Prop
  | _, [] => True
  | lo, x::xs => lo ≤ x ∧ Spaced gap (x+gap) xs

variable {gap lo lo' top : Nat} {xs : List Nat}

theorem Spaced.mono (h : Spaced gap lo xs) (hlo : lo' ≤ lo) : Spaced gap lo' xs := by
  cases xs with
  | nil => trivial
  | cons x xs => exact ⟨le_trans hlo h.1, h.2⟩

theorem Spaced.le_of_mem (h : Spaced gap lo xs) : ∀ y ∈ xs, lo ≤ y := by
  induction xs generalizing lo with
  | nil => exact fun y hy => absurd hy not_mem_nil
  | cons x xs ih =>
    intro y hy
    obtain rfl | hy := mem_cons.mp hy
    · exact h.1
    · have := ih h.2 y hy
      have := h.1
      omega

theorem Spaced.pairwise (h : Spaced gap lo xs) : xs.Pairwise fun x y => x+gap ≤ y := by
  induction xs generalizing lo with
  | nil => exact List.Pairwise.nil
  | cons x xs ih => exact pairwise_cons.mpr ⟨h.2.le_of_mem, ih h.2⟩

theorem Spaced.length_le (h : Spaced gap lo xs) (htop : ∀ x ∈ xs, x ≤ top) (hne : xs ≠ []) :
    lo+gap*(xs.length-1) ≤ top := by
  induction xs generalizing lo with
  | nil => exact absurd rfl hne
  | cons x xs ih =>
    have hx := htop x mem_cons_self
    have hlo := h.1
    cases xs with
    | nil =>
      simp only [length_cons, length_nil, Nat.zero_add, Nat.sub_self, Nat.mul_zero]
      omega
    | cons y ys =>
      have hrest := ih h.2 (fun z hz => htop z (mem_cons_of_mem x hz)) (cons_ne_nil y ys)
      simp only [length_cons, Nat.add_sub_cancel] at hrest ⊢
      rw [Nat.mul_add]
      omega

end IridiumAcars.Spacing
