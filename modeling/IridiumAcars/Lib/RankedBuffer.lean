import Mathlib.Data.List.Perm.Basic

/-! Unordered buffers searched by rank: scan, replacement and removal of a slot. -/
namespace IridiumAcars.RankedBuffer
open List
variable {α : Type*}

structure Ranking (α : Type*) where
  le : α → α → Bool
  total : ∀ a b, le a b = true ∨ le b a = true
  trans : ∀ a b c, le a b = true → le b c = true → le a c = true

namespace Ranking
variable (r : Ranking α)

def lt (a b : α) : Bool := !r.le b a

def flip : Ranking α := ⟨fun a b => r.le b a, fun a b => r.total b a, fun a b c hab hbc =>
  r.trans c b a hbc hab⟩

/-- The slot scan: stay at the best slot so far, move to each later one that ranks below it. -/
def scan : Nat × α → Nat → List α → Nat × α
  | best, _, [] => best
  | best, i, x::xs => if r.lt x best.2 then scan (i, x) (i+1) xs else scan best (i+1) xs

def least : List α → Option (Nat × α)
  | [] => none
  | x::xs => some (r.scan (0, x) 1 xs)

variable {r}

theorem le_refl (a : α) : r.le a a = true := (r.total a a).elim id id

theorem le_of_lt {a b : α} (h : r.lt a b = true) : r.le a b = true := by
  cases r.total a b with
  | inl hab => exact hab
  | inr hba =>
    rw [lt, hba] at h
    cases h

theorem le_of_not_lt {a b : α} (h : ¬r.lt a b = true) : r.le b a = true := by
  cases hba : r.le b a with
  | true => rfl
  | false => exact absurd (by rw [lt, hba]; rfl) h

theorem scan_spec (pre rest : List α) (best : Nat × α)
    (hbest : (pre++rest)[best.1]? = some best.2) (hle : ∀ c ∈ pre, r.le best.2 c = true) :
    (pre++rest)[(r.scan best pre.length rest).1]? = some (r.scan best pre.length rest).2 ∧
      ∀ c ∈ pre++rest, r.le (r.scan best pre.length rest).2 c = true := by
  induction rest generalizing pre best with
  | nil => exact ⟨hbest, by simpa [scan] using hle⟩
  | cons x rest ih =>
    have hsplit : pre++x::rest = (pre++[x])++rest := by simp
    have hlen : pre.length+1 = (pre++[x]).length := by simp
    rw [hsplit] at hbest ⊢
    rw [scan, hlen]
    split_ifs with hx
    · refine ih (pre++[x]) (pre.length, x) (by simp) fun c hc => ?_
      obtain hc | hc := mem_append.mp hc
      · exact r.trans _ _ _ (le_of_lt hx) (hle c hc)
      · rw [mem_singleton.mp hc]
        exact le_refl x
    · refine ih (pre++[x]) best hbest fun c hc => ?_
      obtain hc | hc := mem_append.mp hc
      · exact hle c hc
      · rw [mem_singleton.mp hc]
        exact le_of_not_lt hx

variable {l : List α}

theorem least_spec {i : Nat} {x : α} (h : r.least l = some (i, x)) :
    l[i]? = some x ∧ ∀ c ∈ l, r.le x c = true := by
  cases l with
  | nil => cases h
  | cons y l =>
    have hspec := scan_spec (r := r) [y] l (0, y) rfl (by simp [le_refl])
    rw [least, Option.some.injEq] at h
    rwa [length_singleton, h] at hspec

theorem least_isSome (h : l ≠ []) : ∃ i x, r.least l = some (i, x) := by
  cases l with
  | nil => exact absurd rfl h
  | cons y l => exact ⟨_, _, rfl⟩

end Ranking

def removeSlot (l : List α) (i : Nat) : List α :=
  match l.getLast? with
  | none => []
  | some y => (l.set i y).dropLast

theorem set_perm {i : Nat} {x : α} (h : l[i]? = some x) (y : α) :
    (x::l.set i y).Perm (y::l) := by
  induction l generalizing i with
  | nil => cases h
  | cons a l ih =>
    cases i with
    | zero =>
      cases h
      exact .swap y x l
    | succ i => exact (List.Perm.swap a x _).trans (((ih h).cons a).trans (.swap y a l))

theorem removeSlot_perm {i : Nat} {x : α} (h : l[i]? = some x) :
    (x::removeSlot l i).Perm l := by
  obtain rfl | ⟨l,y,rfl⟩ := l.eq_nil_or_concat'
  · cases h
  · rw [removeSlot, getLast?_concat]
    by_cases hi : i < l.length
    · rw [getElem?_append_left hi] at h
      simp only [set_append_left i y hi, dropLast_concat]
      exact (set_perm h y).trans (List.perm_append_singleton y l).symm
    obtain rfl : i = l.length := by
      have hlt := (List.getElem?_eq_some_iff.mp h).1
      rw [length_append, length_singleton] at hlt
      omega
    simp only [getElem?_concat_length, Option.some.injEq] at h
    subst h
    simp only [set_append_right _ _ (Nat.le_refl l.length), Nat.sub_self,
      set_cons_zero, dropLast_concat]
    exact (perm_append_singleton y l).symm

end IridiumAcars.RankedBuffer
