import Mathlib.Data.Nat.Bitwise

/-! Octets sent lowest bit first, zero-bit insertion after five ones, and flags. -/
namespace IridiumAcars.Hdlc
open List

def lsbBits (octets : List UInt8) : List Bool :=
  octets.flatMap fun b => (List.range 8).map fun j => b.toNat.testBit j

def stuff : Nat → List Bool → List Bool
  | _, [] => []
  | n, true::bs => if n = 4 then true::false::stuff 0 bs else true::stuff (n+1) bs
  | _, false::bs => false::stuff 0 bs

def onesAfter : Nat → List Bool → Nat
  | n, [] => n
  | n, true::bs => onesAfter (if n = 4 then 0 else n+1) bs
  | _, false::bs => onesAfter 0 bs

def flag : List Bool := [false, true, true, true, true, true, true, false]

def flags (n : Nat) : List Bool := (List.replicate n flag).flatten

@[simp] theorem length_flag : flag.length = 8 := rfl

theorem flags_succ (n : Nat) : flags (n+1) = flag++flags n := by
  rw [flags, replicate_succ, flatten_cons, flags]

variable (octets : List UInt8)

@[simp] theorem length_lsbBits : (lsbBits octets).length = 8*octets.length := by
  induction octets with
  | nil => rfl
  | cons b octets ih =>
    rw [lsbBits, flatMap_cons, length_append, length_map, length_range,
      ← lsbBits, ih, length_cons]
    omega

theorem getD_lsbBits (i : Nat) :
    (lsbBits octets).getD i false = (octets.getD (i/8) 0).toNat.testBit (i%8) := by
  induction octets generalizing i with
  | nil => simp [lsbBits]
  | cons b octets ih =>
    have hcons : lsbBits (b::octets) =
        ((List.range 8).map fun j => b.toNat.testBit j)++lsbBits octets := by
      rw [lsbBits, flatMap_cons, ← lsbBits]
    rw [hcons]
    by_cases hi : i < 8
    · have hd : i/8 = 0 := by omega
      have hm : i%8 = i := by omega
      rw [getD_append _ _ _ _ (by simpa using hi), hd, hm]
      simp [getD_eq_getElem?_getD, hi]
    · obtain ⟨k,rfl⟩ : ∃ k, i = k+8 := ⟨i-8, by omega⟩
      have hd : (k+8)/8 = k/8+1 := by omega
      have hm : (k+8)%8 = k%8 := by omega
      rw [getD_append_right _ _ _ _ (by simp), hd, hm, getD_cons_succ, ← ih k]
      simp

theorem map_range_lsbBits (n : Nat) (h : n ≤ 8*octets.length) :
    ((List.range n).map fun i => (octets.getD (i/8) 0).toNat.testBit (i%8)) =
      (lsbBits octets).take n := by
  apply ext_getElem
  · simp [h]
  · intro i hi hi'
    have hi8 : i < (lsbBits octets).length := by
      rw [length_take] at hi'
      omega
    rw [getElem_map, getElem_range, getElem_take, ← getD_lsbBits,
      getD_eq_getElem _ _ hi8]

theorem testBit_foldl_or (f : Nat → Bool) (n i : Nat) :
    ((List.range n).foldl (fun b j => b ||| (f j).toNat <<< j) 0).testBit i =
      (decide (i < n) && f i) := by
  induction n with
  | zero => simp
  | succ n ih =>
    rw [range_succ, foldl_append, foldl_cons, foldl_nil, Nat.testBit_or, ih,
      Nat.testBit_shiftLeft]
    by_cases hi : i = n
    · subst hi
      cases hf : f i <;> simp
    by_cases hlt : i < n
    · have hn : ¬n ≤ i := by omega
      have hs : i < n+1 := by omega
      simp [hlt, hn, hs]
    · have hs : ¬i < n+1 := by omega
      have hb : (f n).toNat.testBit (i-n) = false := by
        obtain ⟨k,hk⟩ : ∃ k, i-n = k+1 := ⟨i-n-1, by omega⟩
        rw [hk]
        cases f n <;> simp [Nat.testBit_succ]
      simp [hlt, hs, hb]

theorem length_le_stuff (n : Nat) (bs : List Bool) : bs.length ≤ (stuff n bs).length := by
  fun_induction stuff n bs with
  | case1 => simp
  | case2 bs ih =>
    simp only [length_cons]
    omega
  | case3 n bs hn ih => simpa using ih
  | case4 n bs ih => simpa using ih

theorem onesAfter_le (n : Nat) (bs : List Bool) (hn : n ≤ 4) : onesAfter n bs ≤ 4 := by
  induction bs generalizing n with
  | nil => exact hn
  | cons b bs ih =>
    cases b with
    | false => exact ih 0 (by omega)
    | true =>
      rw [onesAfter]
      split
      · exact ih 0 (by omega)
      · exact ih (n+1) (by omega)

end IridiumAcars.Hdlc
