import Mathlib.Data.List.Basic

/-! A table region in a larger array, filled so that the first write to a cell wins. -/
namespace IridiumAcars.FirstWrite
open List
variable {α : Type*} [DecidableEq α]

def writeIfEmpty (empty : α) (base : Nat) (tbl : List α) (kv : Nat × α) : List α :=
  if tbl[base+kv.1]? = some empty then tbl.set (base+kv.1) kv.2 else tbl

def writeAll (empty : α) (base : Nat) (tbl : List α) (kvs : List (Nat × α)) : List α :=
  kvs.foldl (writeIfEmpty empty base) tbl

def firstValue (empty : α) (kvs : List (Nat × α)) (s : Nat) : α :=
  ((kvs.find? fun kv => decide (kv.1 = s)).map Prod.snd).getD empty

variable (empty : α) (base : Nat)

theorem writeIfEmpty_length (tbl : List α) (kv : Nat × α) :
    (writeIfEmpty empty base tbl kv).length = tbl.length := by
  unfold writeIfEmpty
  split <;> simp

theorem writeAll_length (tbl : List α) (kvs : List (Nat × α)) :
    (writeAll empty base tbl kvs).length = tbl.length := by
  induction kvs generalizing tbl with
  | nil => rfl
  | cons kv kvs ih =>
    rw [writeAll, foldl_cons]
    exact (ih _).trans (writeIfEmpty_length empty base tbl kv)

theorem writeIfEmpty_other (tbl : List α) (kv : Nat × α) (p : Nat)
    (h : p ≠ base+kv.1) : (writeIfEmpty empty base tbl kv)[p]? = tbl[p]? := by
  unfold writeIfEmpty
  split
  · rw [getElem?_set_ne (Ne.symm h)]
  · rfl

theorem writeAll_other (tbl : List α) (kvs : List (Nat × α)) (p : Nat)
    (h : ∀ kv ∈ kvs, p ≠ base+kv.1) : (writeAll empty base tbl kvs)[p]? = tbl[p]? := by
  induction kvs generalizing tbl with
  | nil => rfl
  | cons kv kvs ih =>
    rw [writeAll, foldl_cons]
    exact (ih _ fun kv' hm => h kv' (mem_cons_of_mem kv hm)).trans
      (writeIfEmpty_other empty base tbl kv p (h kv (by simp)))

theorem writeAll_taken (tbl : List α) (kvs : List (Nat × α)) (s : Nat)
    (h : tbl[base+s]? ≠ some empty) : (writeAll empty base tbl kvs)[base+s]? = tbl[base+s]? := by
  induction kvs generalizing tbl with
  | nil => rfl
  | cons kv kvs ih =>
    have hstep : (writeIfEmpty empty base tbl kv)[base+s]? = tbl[base+s]? := by
      by_cases hk : kv.1 = s
      · simp [writeIfEmpty, hk, h]
      · exact writeIfEmpty_other empty base tbl kv (base+s) (by omega)
    rw [writeAll, foldl_cons]
    exact (ih _ (by rw [hstep]; exact h)).trans hstep

theorem writeAll_empty (tbl : List α) (kvs : List (Nat × α)) (s : Nat)
    (hv : ∀ kv ∈ kvs, kv.2 ≠ empty) (h : tbl[base+s]? = some empty) :
    (writeAll empty base tbl kvs)[base+s]? = some (firstValue empty kvs s) := by
  induction kvs generalizing tbl with
  | nil => simpa [writeAll, firstValue] using h
  | cons kv kvs ih =>
    rw [writeAll, foldl_cons]
    change (writeAll empty base (writeIfEmpty empty base tbl kv) kvs)[base+s]? = _
    by_cases hk : kv.1 = s
    · have hlt : base+s < tbl.length := (List.getElem?_eq_some_iff.mp h).1
      have hset : (writeIfEmpty empty base tbl kv)[base+s]? = some kv.2 := by
        rw [writeIfEmpty, hk, if_pos h, getElem?_set_self hlt]
      rw [writeAll_taken _ _ _ _ _ (by simpa [hset] using hv kv (by simp)), hset]
      simp [firstValue, hk]
    · have hother := writeIfEmpty_other empty base tbl kv (base+s) (by omega)
      rw [ih _ (fun kv' hm => hv kv' (mem_cons_of_mem kv hm)) (hother.trans h)]
      simp [firstValue, hk]

end IridiumAcars.FirstWrite
