import Mathlib.Data.Nat.Bitwise

/-! Bits in a byte array, the top bit of each byte first. -/
namespace IridiumAcars.PackedBits
variable {m : Nat}

def bitAt (bytes : Vector UInt8 m) (i : Nat) : Bool :=
  (bytes[i/8]?.getD 0).toNat.testBit (7-i%8)

def readBit (bytes : Vector UInt8 m) (i : Nat) : UInt8 :=
  (bytes[i/8]?.getD 0 >>> UInt8.ofNat (7-i%8)) &&& 1

def orBit (bytes : Vector UInt8 m) (i : Nat) : Vector UInt8 m :=
  bytes.setIfInBounds (i/8) (bytes[i/8]?.getD 0 ||| (0x80 >>> UInt8.ofNat (i%8)))

def orBits (sel : Nat → Bool) (n : Nat) (bytes : Vector UInt8 m) : Vector UInt8 m :=
  (List.range n).foldl (fun bytes i => if sel i then orBit bytes i else bytes) bytes

variable (bytes : Vector UInt8 m)

theorem readBit_eq (i : Nat) :
    readBit bytes i = if bitAt bytes i then 1 else 0 := by
  have hk : 7-i%8 < 8 := by omega
  have hsize : 7-i%8 < UInt8.size := lt_of_lt_of_le hk (by decide)
  apply UInt8.toNat_inj.mp
  rw [readBit, bitAt, UInt8.toNat_and, UInt8.toNat_shiftRight, UInt8.toNat_ofNat_of_lt' hsize,
    Nat.mod_eq_of_lt hk, UInt8.toNat_one, Nat.and_one_is_mod, Nat.shiftRight_eq_div_pow,
    Nat.testBit_eq_decide_div_mod_eq]
  rcases Nat.mod_two_eq_zero_or_one ((bytes[i/8]?.getD 0).toNat/2^(7-i%8)) with h | h <;> simp [h]

theorem top_shifted (k : Nat) (hk : k < 8) :
    ((0x80 : UInt8) >>> UInt8.ofNat k).toNat = 2^(7-k) := by
  have hall : ∀ k < 8, ((0x80 : UInt8) >>> UInt8.ofNat k).toNat = 2^(7-k) := by decide
  exact hall k hk

theorem bitAt_orBit (i j : Nat) (hi : i < 8*m) :
    bitAt (orBit bytes i) j = (bitAt bytes j || decide (i = j)) := by
  have him : i/8 < m := by omega
  by_cases hb : i/8 = j/8
  · have hget : (orBit bytes i)[j/8]?.getD 0 =
        bytes[j/8]?.getD 0 ||| (0x80 >>> UInt8.ofNat (i%8)) := by
      rw [orBit, ← hb, Vector.getElem?_setIfInBounds_self_of_lt him]
      rfl
    have hbit : decide (7-i%8 = 7-j%8) = decide (i = j) := by
      apply decide_eq_decide.mpr
      omega
    rw [bitAt, hget, UInt8.toNat_or, Nat.testBit_or, top_shifted _ (by omega),
      Nat.testBit_two_pow, hbit, bitAt]
  · have hne : i ≠ j := fun he => hb (by rw [he])
    have hget : (orBit bytes i)[j/8]? = bytes[j/8]? := by
      rw [orBit, Vector.getElem?_setIfInBounds_ne hb]
    simp [bitAt, hget, hne]

theorem bitAt_replicate_zero (j : Nat) : bitAt (Vector.replicate m 0) j = false := by
  have hget : (Vector.replicate m (0 : UInt8))[j/8]?.getD 0 = 0 := by
    rw [Vector.getElem?_replicate]
    split <;> rfl
  simp [bitAt, hget]

theorem bitAt_orBits (sel : Nat → Bool) (n : Nat) (bytes : Vector UInt8 m) (hn : n ≤ 8*m)
    (j : Nat) : bitAt (orBits sel n bytes) j = (bitAt bytes j || (decide (j < n) && sel j)) := by
  induction n with
  | zero => simp [orBits]
  | succ n ih =>
    have hstep : orBits sel (n+1) bytes =
        if sel n then orBit (orBits sel n bytes) n else orBits sel n bytes := by
      simp [orBits, List.range_succ, List.foldl_append]
    rw [hstep]
    by_cases hj : n = j
    · subst hj
      cases hs : sel n with
      | true => simp [bitAt_orBit _ _ _ (show n < 8*m by omega)]
      | false => simp [ih (by omega), hs]
    · have hlt : decide (j < n+1) = decide (j < n) := by
        apply decide_eq_decide.mpr
        omega
      cases hs : sel n with
      | true =>
        rw [if_pos rfl, bitAt_orBit _ _ _ (show n < 8*m by omega), ih (by omega), hlt]
        simp [hj]
      | false => rw [if_neg Bool.false_ne_true, ih (by omega), hlt]

end IridiumAcars.PackedBits
