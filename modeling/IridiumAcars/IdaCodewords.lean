import IridiumAcars.IdaDecode
import IridiumAcars.IdaEncode

/-! The scatter of the data section: which cell each codeword bit comes from. -/
namespace IridiumAcars.IdaCodewords
open IndexMap Interleave IdaDecode List

def swapIdx (k : Nat) : Nat := if k % 2 = 0 then k+1 else k-1

def chunkCells (off : Nat) : List Nat :=
  let cat := (oddCells 124 ++ evenCells 124).map fun c => swapIdx (off+c)
  (cat.drop 93).take 31 ++ (cat.drop 31).take 31 ++ (cat.drop 62).take 31 ++ cat.take 31

def tailCells : List Nat :=
  (((evenCells 64).map fun c => swapIdx (248+c)).drop 1).take 31 ++
  (((oddCells 64).map fun c => swapIdx (248+c)).drop 1).take 31

def codewordCells : List Nat := chunkCells 0 ++ chunkCells 124 ++ tailCells

def applyFlips (xs : List UInt8) (flips : List Bool) : List UInt8 :=
  List.zipWith (fun c f => if f then c ^^^ 1 else c) xs flips

def cellsOf (i : Nat) : List Nat := (codewordCells.drop (31*i)).take 31

def flipsIn (flips : List Bool) (i : Nat) : Nat := (gather false (cellsOf i) flips).count true

theorem swapIdx_add_two (k : Nat) : swapIdx (k+2) = swapIdx k+2 := by
  unfold swapIdx
  rw [Nat.add_mod_right]
  split <;> omega

theorem getD_pairSwap (xs : List UInt8) (h : xs.length % 2 = 0) (k : Nat) :
    (pairSwap xs).getD k 0 = xs.getD (swapIdx k) 0 := by
  fun_induction pairSwap xs generalizing k with
  | case1 a b rest ih =>
    have hr : rest.length % 2 = 0 := by simp only [length_cons] at h; omega
    rcases k with _ | _ | k
    · rfl
    · rfl
    · rw [swapIdx_add_two]
      simpa using ih hr k
  | case2 rest hn =>
    cases rest with
    | nil => simp
    | cons a t =>
      cases t with
      | nil => simp at h
      | cons b t => exact absurd rfl (hn a b t)

theorem gather_pairSwap (idx : List Nat) (xs : List UInt8) (h : xs.length % 2 = 0) :
    gather 0 idx (pairSwap xs) = gather 0 (idx.map swapIdx) xs := by
  simp only [gather, map_map]
  apply map_congr_left
  intro k _
  exact getD_pairSwap xs h k

theorem oddCells_lt : (∀ i ∈ oddCells 124, i < 124) ∧ (∀ i ∈ oddCells 64, i < 64) := by decide

theorem evenCells_lt : (∀ i ∈ evenCells 124, i < 124) ∧ (∀ i ∈ evenCells 64, i < 64) := by decide

variable (sec : List UInt8)

theorem chunk_eq_gather (off : Nat) (h : sec.length = 312)
    (ho : off+124 ≤ 312) :
    chunk124ToCodewords (((pairSwap sec).drop off).take 124) =
      (gather 0 (chunkCells off) sec).map mask := by
  have hl : (((pairSwap sec).drop off).take 124).length = 124 := by
    simp only [length_take, length_drop, length_pairSwap, h]
    omega
  have hcat : (deInterleave (((pairSwap sec).drop off).take 124)).1 ++
      (deInterleave (((pairSwap sec).drop off).take 124)).2 =
      (gather 0 ((oddCells 124 ++ evenCells 124).map fun c => swapIdx (off+c)) sec).map mask := by
    rw [deInterleave, hl]
    simp only
    rw [gather_window _ _ _ _ _ oddCells_lt.1, gather_window _ _ _ _ _ evenCells_lt.1,
      gather_pairSwap _ _ (by omega), gather_pairSwap _ _ (by omega), map_append,
      gather_append, map_append, map_map, map_map]
    rfl
  rw [chunk124ToCodewords]
  simp only [hcat]
  simp [chunkCells, gather_append, gather_take, gather_drop]

theorem tail_eq_gather (h : sec.length = 312) :
    tail64ToCodewords (((pairSwap sec).drop 248).take 64) =
      (gather 0 tailCells sec).map mask := by
  have hl : (((pairSwap sec).drop 248).take 64).length = 64 := by
    simp only [length_take, length_drop, length_pairSwap, h]
    decide
  rw [tail64ToCodewords, deInterleave, hl]
  simp only
  rw [gather_window _ _ _ _ _ oddCells_lt.2, gather_window _ _ _ _ _ evenCells_lt.2,
    gather_pairSwap _ _ (by omega), gather_pairSwap _ _ (by omega), map_map, map_map]
  simp only [tailCells, gather_append, gather_take, gather_drop, map_append, map_take,
    map_drop]
  rfl

theorem buildCodewords_eq_gather (h : sec.length = 312) :
    idaDecodeBuildCodewords sec = (gather 0 codewordCells sec).map mask := by
  have h0 := chunk_eq_gather sec 0 h (by decide)
  have h1 := chunk_eq_gather sec 124 h (by decide)
  rw [drop_zero] at h0
  have ht : sec.take 312 = sec := take_of_length_le (by omega)
  simp only [idaDecodeBuildCodewords, ht]
  rw [h0, h1, tail_eq_gather sec h, codewordCells, gather_append, gather_append, map_append,
    map_append]

end IridiumAcars.IdaCodewords
