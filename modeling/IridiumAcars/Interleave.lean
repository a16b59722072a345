import IridiumAcars.Bch
import IridiumAcars.Lib.IndexMap

/-! Symbol order of the bit arrays: the pair swap, the de-interleavers and the encoder's inverse. -/
namespace IridiumAcars.Interleave
open Bch IndexMap List

def mask (b : UInt8) : UInt8 := b &&& 1

def cell (b : Bool) : UInt8 := if b then 1 else 0

def pairSwap : List UInt8 → List UInt8
  | a::b::rest => b::a::pairSwap rest
  | rest => rest

def symbolsDown (start step count : Nat) : List Nat := (List.range count).map fun k => start-step*k

def symbolCells (ss : List Nat) : List Nat := ss.flatMap fun s => [2*s+1, 2*s]

def oddCells (nIn : Nat) : List Nat := symbolCells (symbolsDown (nIn/2-1) 2 ((nIn/2+1)/2))

def evenCells (nIn : Nat) : List Nat := symbolCells (symbolsDown (nIn/2-2) 2 (nIn/2/2))

def deInterleave (inp : List UInt8) : List UInt8 × List UInt8 :=
  ((gather 0 (oddCells inp.length) inp).map mask, (gather 0 (evenCells inp.length) inp).map mask)

def deInterleavePair (inp : List UInt8) : List UInt8 × List UInt8 := deInterleave inp

/-- `de_interleave3`: three walks down by three from the last three symbols. -/
def deInterleave3 (inp : List UInt8) : List UInt8 × List UInt8 × List UInt8 :=
  let nSym := inp.length/2
  let walk (start : Nat) := (gather 0 (symbolCells (symbolsDown start 3 (start/3+1))) inp).map mask
  (walk (nSym-1), walk (nSym-2), walk (nSym-3))

def deInterleaveInverse (oddOut evenOut : List UInt8) (nIn : Nat) : List UInt8 :=
  scatter (evenCells nIn) evenOut (scatter (oddCells nIn) oddOut (List.replicate nIn 0))

@[simp] theorem lsb_cell (b : Bool) : lsb (cell b) = b := by cases b <;> rfl

theorem mask_eq_cell (b : UInt8) : mask b = cell (lsb b) := by
  apply UInt8.toNat_inj.mp
  rw [mask, UInt8.toNat_and]
  have h := and_one_eq_lsb b
  cases hb : lsb b <;> rw [hb] at h <;> simpa [cell] using h

@[simp] theorem mask_cell (b : Bool) : mask (cell b) = cell b := by cases b <;> rfl

@[simp] theorem lsb_mask (b : UInt8) : lsb (mask b) = lsb b := by rw [mask_eq_cell, lsb_cell]

theorem map_mask_cells (bs : List Bool) : (bs.map cell).map mask = bs.map cell := by
  simp [Function.comp_def]

theorem map_lsb_cells (bs : List Bool) : (bs.map cell).map lsb = bs := by simp [Function.comp_def]

theorem pairSwap_pairSwap (bits : List UInt8) : pairSwap (pairSwap bits) = bits := by
  fun_induction pairSwap bits with
  | case1 a b rest ih => simp [pairSwap, ih]
  | case2 rest h =>
    unfold pairSwap
    split
    · rename_i a b r
      exact absurd rfl (h a b r)
    · rfl

@[simp] theorem length_pairSwap (bits : List UInt8) : (pairSwap bits).length = bits.length := by
  fun_induction pairSwap bits with
  | case1 a b rest ih => simp [ih]
  | case2 rest h => rfl

theorem pairSwap_append (xs ys : List UInt8) (h : xs.length % 2 = 0) :
    pairSwap (xs++ys) = pairSwap xs ++ pairSwap ys := by
  fun_induction pairSwap xs with
  | case1 a b rest ih =>
    have hr : rest.length % 2 = 0 := by simp only [length_cons] at h; omega
    simp [pairSwap, ih hr]
  | case2 rest hn =>
    cases rest with
    | nil => simp
    | cons a t =>
      cases t with
      | nil => simp at h
      | cons b t => exact absurd rfl (hn a b t)

theorem pairSwap_take (xs : List UInt8) (n : Nat) (hn : n % 2 = 0) (h : n ≤ xs.length) :
    pairSwap (xs.take n) = (pairSwap xs).take n := by
  have hl : (xs.take n).length = n := by rw [length_take]; omega
  have happ := pairSwap_append (xs.take n) (xs.drop n) (by omega)
  rw [take_append_drop] at happ
  rw [happ, take_left' (by rw [length_pairSwap, hl])]

end IridiumAcars.Interleave
