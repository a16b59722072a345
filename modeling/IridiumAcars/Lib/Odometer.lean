import Mathlib.Data.List.Forall2
import Mathlib.Data.List.GetD

/-! A counter over several lists of choices, the last digit fastest, searched for the first hit. -/
namespace IridiumAcars.Odometer
open List
variable {α : Type*}

def product : List (List α) → List (List α)
  | [] => [[]]
  | c::cs => c.flatMap fun a => (product cs).map (a::·)

section
variable (z : α)

def pick : List (List α) → List Nat → List α
  | c::cs, d::ds => c.getD d z::pick cs ds
  | _, _ => []

/-- The last digit that has not reached its end goes up, the ones behind it start again. -/
def advance : List (List α) → List Nat → Option (List Nat)
  | c::cs, d::ds =>
    match advance cs ds with
    | some ds' => some (d::ds')
    | none => if d+1 < c.length then some ((d+1)::ds.map fun _ => 0) else none
  | _, _ => none

/-- At most `fuel` combinations: how many were looked at, and the first accepted one. -/
def search (cs : List (List α)) (accept : List α → Bool) : Nat → List Nat → Nat × Option (List α)
  | 0, _ => (0, none)
  | fuel+1, ds =>
    if accept (pick z cs ds) then (1, some (pick z cs ds))
    else match advance cs ds with
      | none => (1, none)
      | some ds' => ((search cs accept fuel ds').1+1, (search cs accept fuel ds').2)

def remaining : List (List α) → List Nat → List (List α)
  | c::cs, d::ds => (remaining cs ds).map (c.getD d z::·) ++
      (c.drop (d+1)).flatMap fun a => (product cs).map (a::·)
  | _, _ => [[]]

def Digits (cs : List (List α)) (ds : List Nat) : Prop :=
  List.Forall₂ (fun c d => d < c.length) cs ds

end

variable {z : α} {cs : List (List α)} {ds : List Nat}

theorem Digits.zeros (h : Digits cs ds) : ds.map (fun _ => 0) = cs.map fun _ => 0 := by
  induction h with
  | nil => rfl
  | cons _ _ ih => rw [map_cons, map_cons, ih]

theorem Digits.nonempty (h : Digits cs ds) : ∀ c ∈ cs, c ≠ [] := by
  induction h with
  | nil => intro c hc; cases hc
  | cons hd _ ih =>
    intro c hc
    obtain rfl | hc := mem_cons.mp hc
    · rintro rfl
      cases hd
    · exact ih c hc

theorem digits_zero (h : ∀ c ∈ cs, c ≠ []) : Digits cs (cs.map fun _ => 0) := by
  induction cs with
  | nil => exact List.Forall₂.nil
  | cons c cs ih =>
    refine List.Forall₂.cons (length_pos_iff.mpr (h c mem_cons_self)) ?_
    exact ih fun c' hc => h c' (mem_cons_of_mem c hc)

theorem remaining_zero (h : ∀ c ∈ cs, c ≠ []) :
    remaining z cs (cs.map fun _ => 0) = product cs := by
  induction cs with
  | nil => rfl
  | cons c cs ih =>
    rw [map_cons, remaining, ih fun c' hc => h c' (mem_cons_of_mem c hc), product]
    cases c with
    | nil => exact absurd rfl (h [] mem_cons_self)
    | cons a c => rfl

theorem advance_digits (h : Digits cs ds) {ds' : List Nat} (ha : advance cs ds = some ds') :
    Digits cs ds' := by
  induction h generalizing ds' with
  | nil => cases ha
  | @cons c d cs ds hd hds ih =>
    rw [advance] at ha
    cases hin : advance cs ds with
    | some es =>
      rw [hin] at ha
      cases ha
      exact List.Forall₂.cons hd (ih hin)
    | none =>
      simp only [hin] at ha
      by_cases hlt : d+1 < c.length
      · rw [if_pos hlt, Digits.zeros hds] at ha
        cases ha
        exact List.Forall₂.cons hlt (digits_zero (Digits.nonempty hds))
      · rw [if_neg hlt] at ha
        cases ha

theorem remaining_eq_cons (h : Digits cs ds) : remaining z cs ds = pick z cs ds::
    match advance cs ds with
    | some ds' => remaining z cs ds'
    | none => [] := by
  induction h with
  | nil => rfl
  | @cons c d cs ds hd hds ih =>
    rw [remaining, ih, advance, pick, map_cons, cons_append]
    congr 1
    cases hin : advance cs ds with
    | some es => rfl
    | none =>
      simp only [map_nil, nil_append]
      split_ifs with hlt
      · simp only
        rw [remaining, Digits.zeros hds, remaining_zero (Digits.nonempty hds),
          drop_eq_getElem_cons hlt, flatMap_cons, getD_eq_getElem _ _ hlt]
      · rw [drop_of_length_le (by omega)]
        rfl

theorem search_eq (h : Digits cs ds) (accept : List α → Bool) (fuel : Nat) :
    search z cs accept fuel ds =
      (min (((remaining z cs ds).take fuel).findIdx accept+1)
        ((remaining z cs ds).take fuel).length, ((remaining z cs ds).take fuel).find? accept) := by
  induction fuel generalizing ds with
  | zero => simp [search]
  | succ fuel ih =>
    rw [search, remaining_eq_cons h, take_succ_cons, findIdx_cons, find?_cons]
    cases hacc : accept (pick z cs ds) with
    | true => simp
    | false =>
      cases hadv : advance cs ds with
      | none => simp
      | some ds' =>
        simp only [Bool.false_eq_true, if_false, ih (advance_digits h hadv), cond_false,
          length_cons]
        rw [Nat.add_min_add_right]

theorem search_zero (h : ∀ c ∈ cs, c ≠ []) (accept : List α → Bool) (fuel : Nat) :
    search z cs accept fuel (cs.map fun _ => 0) =
      (min (((product cs).take fuel).findIdx accept+1) ((product cs).take fuel).length,
        ((product cs).take fuel).find? accept) := by
  rw [search_eq (digits_zero h), remaining_zero h]

theorem product_eq_nil {c : List α} (hc : c ∈ cs) (h : c = []) : product cs = [] := by
  induction cs with
  | nil => cases hc
  | cons b cs ih =>
    rw [product]
    obtain rfl | hc := mem_cons.mp hc
    · rw [h, flatMap_nil]
    · rw [ih hc]
      simp

end IridiumAcars.Odometer
