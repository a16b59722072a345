import IridiumAcars.DirectIfDecim
import Mathlib.Data.List.Iterate

/-! The fixed-point rotation of rotate_to_dc.c, on a whole window and piece by piece. -/
namespace IridiumAcars.RotateToDc
open DirectIfDecim List

def rotSimdLanes : Nat := 8
def rotRenormPeriod : Nat := 128

def q15MulRound (a b : Int) : Int := (a*b+16384) >>> (15 : Nat)

def q15Sat (x : Int) : Int16 :=
  if x > 32767 then 32767 else if x < -32768 then -32768 else Int16.ofInt x

def q15Turn (z w : Int16 × Int16) : Int16 × Int16 :=
  (q15Sat (q15MulRound z.1.toInt w.1.toInt-q15MulRound z.2.toInt w.2.toInt),
    q15Sat (q15MulRound z.1.toInt w.2.toInt+q15MulRound z.2.toInt w.1.toInt))

abbrev RotPhasor := UInt32 → Int16 × Int16

variable (rot : RotPhasor)

def advance (p : Int16 × Int16) : Int16 × Int16 := q15Turn p (rot 1)

def rotateTail (off tailStart : Nat) (xs : List (Int16 × Int16)) : List (Int16 × Int16) :=
  List.zipWith q15Turn xs
    (List.iterate (advance rot) (rot (UInt32.ofNat (off+tailStart))) xs.length)

/-- The chunk loop with its counters: chunks to come, `c`, `n_chunks_to_renorm`. -/
def chunkLoop (off : Nat) :
    Nat → Nat → Nat → Int16 × Int16 → List (Int16 × Int16) → List (Int16 × Int16)
  | 0, c, _, _, xs => rotateTail rot off (rotSimdLanes*c) xs
  | n+1, c, left, p, xs =>
    let p := if left = 0 then rot (UInt32.ofNat (off+rotSimdLanes*c)) else p
    let left := if left = 0 then rotRenormPeriod/rotSimdLanes else left
    List.zipWith q15Turn (xs.take rotSimdLanes) (List.iterate (advance rot) p rotSimdLanes)++
      chunkLoop off n (c+1) (left-1) ((advance rot)^[rotSimdLanes] p) (xs.drop rotSimdLanes)

def rotateToDcQ15SimdRefAt (off : Nat) (xs : List (Int16 × Int16)) : List (Int16 × Int16) :=
  chunkLoop rot off (xs.length/rotSimdLanes) 0 0 (32767, 0) xs

def seeded (index m : Nat) : Int16 × Int16 := (advance rot)^[m] (rot (UInt32.ofNat index))

/-- The phasor of sample `k` in a call on `n` samples. -/
def phasorAt (off n k : Nat) : Int16 × Int16 :=
  if k < 8*(n/8) then seeded rot (off+128*(k/128)) (k%128)
  else seeded rot (off+8*(n/8)) (k%8)

theorem iterate_advance_seeded (index m k : Nat) :
    (advance rot)^[k] (seeded rot index m) = seeded rot index (m+k) := by
  rw [seeded, seeded, ← Function.iterate_add_apply, Nat.add_comm]

theorem zipWith_iterate (p : Int16 × Int16) (xs : List (Int16 × Int16)) :
    List.zipWith q15Turn xs (List.iterate (advance rot) p xs.length) =
      xs.mapIdx (fun k x => q15Turn x ((advance rot)^[k] p)) := by
  induction xs generalizing p with
  | nil => rfl
  | cons x xs ih =>
    rw [length_cons, List.iterate, zipWith_cons_cons, mapIdx_cons, ih]
    rfl

structure Underway (off c left : Nat) (p : Int16 × Int16) : Prop where
  left_eq : left = (16-c%16)%16
  phasor_eq : c%16 ≠ 0 → p = seeded rot (off+128*(c/16)) (8*(c%16))

variable {rot}

variable {p : Int16 × Int16}

theorem Underway.renorm {off c left : Nat} (h : Underway rot off c left p) :
    (if left = 0 then rot (UInt32.ofNat (off+rotSimdLanes*c)) else p) =
      seeded rot (off+128*(c/16)) (8*(c%16)) := by
  have hleft := h.left_eq
  by_cases hzero : c%16 = 0
  · have hseed : rotSimdLanes*c = 128*(c/16) := by
      rw [rotSimdLanes]
      omega
    rw [if_pos (by omega), hzero, hseed]
    rfl
  · rw [if_neg (by omega), h.phasor_eq hzero]

theorem Underway.next {off c left : Nat} (h : Underway rot off c left p) :
    Underway rot off (c+1) ((if left = 0 then rotRenormPeriod/rotSimdLanes else left)-1)
      ((advance rot)^[rotSimdLanes] (seeded rot (off+128*(c/16)) (8*(c%16)))) := by
  have hleft := h.left_eq
  constructor
  · simp only [rotRenormPeriod, rotSimdLanes]
    split <;> omega
  · intro hinside
    rw [iterate_advance_seeded, rotSimdLanes, show (c+1)/16 = c/16 by omega,
      show (c+1)%16 = c%16+1 by omega, Nat.mul_add]

theorem rotateTail_eq (off c : Nat) {xs : List (Int16 × Int16)} (hlen : xs.length < 8) :
    rotateTail rot off (rotSimdLanes*c) xs =
      xs.mapIdx (fun k x => q15Turn x (phasorAt rot off (8*c+xs.length) (8*c+k))) := by
  rw [rotateTail, zipWith_iterate, mapIdx_eq_mapIdx_iff]
  intro k hk
  rw [phasorAt, if_neg (by omega), show (8*c+k)%8 = k by omega,
    show 8*((8*c+xs.length)/8) = rotSimdLanes*c by rw [rotSimdLanes]; omega]
  rfl

theorem lanes_eq (off c : Nat) {ys : List (Int16 × Int16)} {n : Nat}
    (hlen : ys.length = rotSimdLanes) (hn : 8*c+8 ≤ n) :
    List.zipWith q15Turn ys (List.iterate (advance rot)
        (seeded rot (off+128*(c/16)) (8*(c%16))) rotSimdLanes) =
      ys.mapIdx (fun k x => q15Turn x (phasorAt rot off n (8*c+k))) := by
  rw [← hlen, zipWith_iterate, mapIdx_eq_mapIdx_iff]
  intro k hk
  rw [hlen, rotSimdLanes] at hk
  rw [iterate_advance_seeded, phasorAt, if_pos (by omega), show (8*c+k)/128 = c/16 by omega,
    show (8*c+k)%128 = 8*(c%16)+k by omega]

theorem chunkLoop_eq {off m c left : Nat} {xs : List (Int16 × Int16)}
    (h : Underway rot off c left p) (hm : xs.length/8 = m) :
    chunkLoop rot off m c left p xs =
      xs.mapIdx (fun k x => q15Turn x (phasorAt rot off (8*c+xs.length) (8*c+k))) := by
  induction m generalizing c left p xs with
  | zero => exact rotateTail_eq off c (by omega)
  | succ m ih =>
    have hlen : (xs.take rotSimdLanes).length = rotSimdLanes := by
      rw [length_take, rotSimdLanes]
      omega
    have hdrop : (xs.drop rotSimdLanes).length = xs.length-8 := length_drop
    rw [chunkLoop, h.renorm, ih h.next (by omega),
      lanes_eq off c hlen (show 8*c+8 ≤ 8*c+xs.length by omega), hdrop,
      show 8*(c+1)+(xs.length-8) = 8*c+xs.length by omega]
    conv_rhs => rw [← take_append_drop rotSimdLanes xs, mapIdx_append, hlen]
    rw [take_append_drop, rotSimdLanes]
    congr 2
    funext k x
    rw [Nat.mul_succ, Nat.add_assoc, Nat.add_comm 8 k]

/-- Sample `k` of a call is turned by the phasor seeded at the last multiple of 128 samples. -/
theorem rotate_eq (off : Nat) (xs : List (Int16 × Int16)) :
    rotateToDcQ15SimdRefAt rot off xs =
      xs.mapIdx (fun k x => q15Turn x (phasorAt rot off xs.length k)) := by
  have hstart : Underway rot off 0 0 (32767, 0) := ⟨rfl, fun hzero => absurd rfl hzero⟩
  have h := chunkLoop_eq hstart (show xs.length/8 = xs.length/8 from rfl)
  simp only [Nat.mul_zero, Nat.zero_add] at h
  exact h

def rotation (rot : RotPhasor) : Rotation where
  rotate := rotateToDcQ15SimdRefAt rot
  length_rotate off xs := by rw [rotate_eq, length_mapIdx]

/-- The phasor of sample `k` when a window of `n` samples is rotated in pieces. -/
def pieceAt (rot : RotPhasor) (off n k : Nat) : Int16 × Int16 :=
  phasorAt rot (off+decimChunkIn*(k/decimChunkIn))
    (min decimChunkIn (n-decimChunkIn*(k/decimChunkIn))) (k%decimChunkIn)

theorem pieceAt_first (rot : RotPhasor) (off n : Nat) {k : Nat} (hk : k < decimChunkIn) :
    pieceAt rot off n k = phasorAt rot off (min decimChunkIn n) k := by
  rw [pieceAt, Nat.div_eq_of_lt hk, Nat.mod_eq_of_lt hk]
  rfl

theorem pieceAt_rest (rot : RotPhasor) (off n k : Nat) :
    pieceAt rot off n (k+decimChunkIn) = pieceAt rot (off+decimChunkIn) (n-decimChunkIn) k := by
  rw [pieceAt, pieceAt, Nat.add_div_right k (by decide), Nat.add_mod_right, Nat.mul_succ,
    Nat.add_comm (decimChunkIn*(k/decimChunkIn)), Nat.sub_add_eq, Nat.add_assoc]

theorem rotatedChunks_eq (off : Nat) (xs : List (Int16 × Int16)) :
    (rotatedChunks (rotation rot) off xs).flatten =
      xs.mapIdx (fun k x => q15Turn x (pieceAt rot off xs.length k)) := by
  fun_induction rotatedChunks (rotation rot) off xs with
  | case1 off xs hnil =>
    rw [length_eq_zero_iff.mp hnil]
    rfl
  | case2 off xs hnil ih =>
    have hfirst : (rotation rot).rotate off (xs.take decimChunkIn) = _ := rotate_eq off _
    rw [flatten_cons, ih, hfirst]
    conv_rhs => rw [← take_append_drop decimChunkIn xs, mapIdx_append]
    rw [take_append_drop]
    congr 1
    · rw [mapIdx_eq_mapIdx_iff]
      intro k hk
      rw [length_take] at hk ⊢
      rw [pieceAt_first rot off xs.length (by omega)]
    · rw [mapIdx_eq_mapIdx_iff]
      intro k hk
      have hlong : decimChunkIn ≤ xs.length := by
        rw [length_drop] at hk
        omega
      rw [length_take, Nat.min_eq_left hlong, pieceAt_rest, length_drop]

theorem pieceAt_eq (rot : RotPhasor) {n k : Nat} (hk : k < n) :
    pieceAt rot 0 n k =
      if k < 8*(n/8) then seeded rot (4000*(k/4000)+128*(k%4000/128)) (k%4000%128)
      else seeded rot (8*(n/8)) (k%8) := by
  have hpiece := Nat.div_add_mod k 4000
  have hrem := Nat.mod_lt k (show 0 < 4000 by decide)
  simp only [pieceAt, phasorAt, decimChunkIn, Nat.zero_add]
  by_cases hmain : k < 8*(n/8)
  · rw [if_pos hmain, if_pos (by omega)]
  · rw [if_neg hmain, if_neg (by omega)]
    congr 1 <;> omega

theorem toInt_q15Sat (x : Int) : (q15Sat x).toInt = max (-32768) (min x 32767) := by
  rw [q15Sat]
  split_ifs with hhigh hlow
  · rw [min_eq_right (by omega)]
    decide
  · rw [min_eq_left (by omega), max_eq_left (by omega)]
    decide
  rw [Int16.toInt_ofInt_of_le (by omega) (by omega)]
  omega

theorem q15Turn_real (x : Int16) (w : Int16 × Int16) :
    q15Turn (x, 0) w =
      (q15Sat (q15MulRound x.toInt w.1.toInt), q15Sat (q15MulRound x.toInt w.2.toInt)) := by
  have hzero (b : Int) : q15MulRound (0 : Int16).toInt b = 0 := by
    rw [q15MulRound, show (0 : Int16).toInt = 0 by decide, Int.zero_mul]
    decide
  rw [q15Turn, hzero, hzero, Int.sub_zero, Int.add_zero]

theorem component_eq {c d : Int16}
    (hlow : q15Sat (q15MulRound (-32768) c.toInt) = q15Sat (q15MulRound (-32768) d.toInt))
    (hhigh : q15Sat (q15MulRound 32767 c.toInt) = q15Sat (q15MulRound 32767 d.toInt)) : c = d := by
  have hc := c.le_toInt
  have hc' := c.toInt_lt
  have hd := d.le_toInt
  have hd' := d.toInt_lt
  rw [← Int16.toInt_inj, toInt_q15Sat, toInt_q15Sat, q15MulRound, q15MulRound,
    Int.shiftRight_eq_div_pow, Int.shiftRight_eq_div_pow] at hlow hhigh
  rw [← Int16.toInt_inj]
  omega

theorem phasor_eq {w v : Int16 × Int16} (h : ∀ z, q15Turn z w = q15Turn z v) : w = v := by
  have hlow := h (-32768, 0)
  have hhigh := h (32767, 0)
  rw [q15Turn_real, q15Turn_real, Prod.mk.injEq] at hlow hhigh
  exact Prod.ext (component_eq hlow.1 hhigh.1) (component_eq hlow.2 hhigh.2)

theorem window_iff (rot : RotPhasor) (xs : List (Int16 × Int16)) :
    rotatedWindow (rotation rot) xs = rotateToDcQ15SimdRefAt rot 0 xs ↔
      ∀ k x, k < 8*(xs.length/8) → xs[k]? = some x →
        q15Turn x (seeded rot (4000*(k/4000)+128*(k%4000/128)) (k%4000%128)) =
          q15Turn x (seeded rot (128*(k/128)) (k%128)) := by
  rw [rotatedWindow, rotatedChunks_eq, rotate_eq, mapIdx_eq_mapIdx_iff]
  constructor
  · intro h k x hmain hx
    obtain ⟨hk, rfl⟩ := List.getElem?_eq_some_iff.mp hx
    have hsame := h k hk
    rwa [pieceAt_eq rot hk, phasorAt, if_pos hmain, if_pos hmain, Nat.zero_add] at hsame
  · intro h k hk
    rw [pieceAt_eq rot hk, phasorAt, Nat.zero_add, Nat.zero_add]
    by_cases hmain : k < 8*(xs.length/8)
    · rw [if_pos hmain, if_pos hmain]
      exact h k xs[k] hmain (getElem?_eq_getElem hk)
    · rw [if_neg hmain, if_neg hmain]

/-- Rotation in pieces equals one call exactly where both grids turn the samples alike. -/
theorem rotated_pieces_iff (rot : RotPhasor) :
    (∀ xs, rotatedWindow (rotation rot) xs = rotateToDcQ15SimdRefAt rot 0 xs ↔
      ∀ k x, k < 8*(xs.length/8) → xs[k]? = some x →
        q15Turn x (seeded rot (4000*(k/4000)+128*(k%4000/128)) (k%4000%128)) =
          q15Turn x (seeded rot (128*(k/128)) (k%128))) ∧
    ∀ n, (∀ xs, xs.length = n →
        rotatedWindow (rotation rot) xs = rotateToDcQ15SimdRefAt rot 0 xs) ↔
      ∀ k < 8*(n/8), seeded rot (4000*(k/4000)+128*(k%4000/128)) (k%4000%128) =
        seeded rot (128*(k/128)) (k%128) := by
  refine ⟨window_iff rot, fun n => ⟨fun h k hk => ?_, fun h xs hn => ?_⟩⟩
  · apply phasor_eq
    intro z
    have hrun := (window_iff rot _).mp (h (List.replicate n z) length_replicate) k z
    rw [length_replicate, getElem?_replicate_of_lt (by omega)] at hrun
    exact hrun hk rfl
  · rw [window_iff]
    intro k x hk _
    rw [h k (by rwa [hn] at hk)]

def quarterTurn : RotPhasor := fun index =>
  if index%4 = 0 then (32767, 0)
  else if index%4 = 1 then (0, 32767)
  else if index%4 = 2 then (-32767, 0)
  else (0, -32767)

/-- At sample 4000 one call is 32 steps from its seed; the second piece seeds anew. -/
theorem quarterTurn_differs :
    (rotatedWindow (rotation quarterTurn) (List.replicate 4008 (20000, 0)))[4000]? =
        some (19999, 0) ∧
      (rotateToDcQ15SimdRefAt quarterTurn 0 (List.replicate 4008 (20000, 0)))[4000]? =
        some (19980, 0) := by
  rw [rotatedWindow, rotatedChunks_eq, rotate_eq, getElem?_mapIdx, getElem?_mapIdx,
    length_replicate, getElem?_replicate_of_lt (by decide)]
  decide +kernel

/-- The first length at which some phasor tells the pieces from one call. -/
theorem pieces_agree_iff (n : Nat) :
    (∀ rot xs, xs.length = n →
      rotatedWindow (rotation rot) xs = rotateToDcQ15SimdRefAt rot 0 xs) ↔ n < 4008 := by
  constructor
  · intro h
    by_contra hlong
    have hrun := (window_iff quarterTurn _).mp
      (h quarterTurn (List.replicate n (20000, 0)) length_replicate) 4000 (20000, 0)
    rw [length_replicate, getElem?_replicate_of_lt (by omega)] at hrun
    exact absurd (hrun (by omega) rfl) (by decide +kernel)
  · intro hn rot xs hlen
    rw [window_iff]
    intro k x hk _
    rw [Nat.div_eq_of_lt (show k < 4000 by omega), Nat.mod_eq_of_lt (show k < 4000 by omega),
      Nat.mul_zero, Nat.zero_add]

end IridiumAcars.RotateToDc
