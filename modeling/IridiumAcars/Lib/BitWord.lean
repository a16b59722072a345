import Mathlib.Data.List.Induction
import Mathlib.Data.Nat.Bitwise

/-! Bit strings read most significant bit first as natural numbers. -/
namespace IridiumAcars.BitWord
open List

def ofBits (bs : List Bool) : Nat := bs.foldl (fun v b => v <<< 1 ||| b.toNat) 0

def toBits (n v : Nat) : List Bool := (List.range n).map fun i => v.testBit (n-1-i)

/-- Bits packed into bytes, first bit on top; a last partial byte is zero-filled. -/
def packBytes : List Bool → List UInt8
  | b0::b1::b2::b3::b4::b5::b6::b7::rest =>
    UInt8.ofNat (ofBits [b0,b1,b2,b3,b4,b5,b6,b7])::packBytes rest
  | [] => []
  | bs => [UInt8.ofNat (ofBits (bs ++ List.replicate (8-bs.length) false))]

theorem shiftLeft_or_bool (v : Nat) (b : Bool) : v <<< 1 ||| b.toNat = (v <<< 1) ^^^ b.toNat := by
  apply Nat.eq_of_testBit_eq
  intro i
  cases i with
  | zero => rw [Nat.testBit_or, Nat.testBit_xor, Nat.testBit_shiftLeft]; simp
  | succ i =>
    have hb : b.toNat.testBit (i+1) = false := by cases b <;> simp [Nat.testBit_succ]
    rw [Nat.testBit_or, Nat.testBit_xor, hb, Bool.or_false, Bool.xor_false]

theorem foldl_ofBits (v : Nat) (bs : List Bool) :
    bs.foldl (fun v b => v <<< 1 ||| b.toNat) v = (v <<< bs.length) ^^^ ofBits bs := by
  induction bs generalizing v with
  | nil => simp [ofBits]
  | cons b bs ih =>
    have hc : ofBits (b::bs) = (b.toNat <<< bs.length) ^^^ ofBits bs := by
      rw [ofBits, foldl_cons, ih, shiftLeft_or_bool, Nat.zero_shiftLeft, Nat.zero_xor]
    rw [foldl_cons, ih, hc, shiftLeft_or_bool, Nat.shiftLeft_xor_distrib,
      ← Nat.shiftLeft_add, length_cons, Nat.add_comm 1, Nat.xor_assoc]

@[simp] theorem ofBits_nil : ofBits [] = 0 := rfl

theorem ofBits_cons (b : Bool) (bs : List Bool) :
    ofBits (b::bs) = (b.toNat <<< bs.length) ^^^ ofBits bs := by
  rw [ofBits, foldl_cons, foldl_ofBits, shiftLeft_or_bool]
  simp

theorem ofBits_append (as bs : List Bool) :
    ofBits (as++bs) = (ofBits as <<< bs.length) ^^^ ofBits bs := by
  rw [ofBits, foldl_append, foldl_ofBits]
  rfl

variable (bs : List Bool)

theorem ofBits_lt : ofBits bs < 2^bs.length := by
  induction bs with
  | nil => simp
  | cons b bs ih =>
    rw [ofBits_cons, length_cons]
    apply Nat.xor_lt_two_pow
    · rw [Nat.shiftLeft_eq, Nat.pow_succ, Nat.mul_comm]
      exact Nat.mul_lt_mul_of_pos_left (by cases b <;> decide) (Nat.two_pow_pos _)
    · exact lt_of_lt_of_le ih (Nat.pow_le_pow_right (by decide) (by omega))

theorem testBit_ofBits (i : Nat) :
    (ofBits bs).testBit i = bs.reverse.getD i false := by
  induction bs using List.reverseRecOn generalizing i with
  | nil => simp
  | append_singleton bs b ih =>
    rw [ofBits_append]
    cases i with
    | zero =>
      rw [Nat.testBit_xor, Nat.testBit_shiftLeft]
      cases b <;> simp [ofBits]
    | succ i =>
      have hb : (ofBits [b]).testBit (i+1) = false := by cases b <;> simp [ofBits, Nat.testBit_succ]
      simp [Nat.testBit_xor, hb, ih]

theorem ofBits_replicate_false (n : Nat) : ofBits (List.replicate n false) = 0 := by
  induction n with
  | zero => rfl
  | succ n ih => simp [replicate_succ, ofBits_cons, ih]

theorem ofBits_zipWith_xor (as bs : List Bool) (h : as.length = bs.length) :
    ofBits (List.zipWith xor as bs) = ofBits as ^^^ ofBits bs := by
  induction as generalizing bs with
  | nil =>
    cases bs with
    | nil => rfl
    | cons b bs => simp at h
  | cons a as ih =>
    cases bs with
    | nil => simp at h
    | cons b bs =>
      have hl : as.length = bs.length := by simpa using h
      have hb : (xor a b).toNat = a.toNat ^^^ b.toNat := by cases a <;> cases b <;> rfl
      rw [zipWith_cons_cons, ofBits_cons, ofBits_cons, ofBits_cons, ih bs hl, hb,
        Nat.shiftLeft_xor_distrib, length_zipWith, hl, Nat.min_self]
      rw [Nat.xor_assoc, Nat.xor_assoc, ← Nat.xor_assoc (b.toNat <<< bs.length),
        Nat.xor_comm (b.toNat <<< bs.length) (ofBits as), Nat.xor_assoc]

theorem ofBits_modify_not (i : Nat) (h : i < bs.length) :
    ofBits (bs.modify i not) = ofBits bs ^^^ (1 <<< (bs.length-1-i)) := by
  induction bs generalizing i with
  | nil => simp at h
  | cons b bs ih =>
    cases i with
    | zero =>
      have hb : (!b).toNat = b.toNat ^^^ 1 := by cases b <;> rfl
      simp only [modify_zero_cons, ofBits_cons, hb, Nat.shiftLeft_xor_distrib,
        length_cons, Nat.add_sub_cancel, Nat.sub_zero]
      rw [Nat.xor_assoc, Nat.xor_comm (1 <<< bs.length), ← Nat.xor_assoc]
    | succ i =>
      have hi : i < bs.length := by simpa using h
      have he : (b::bs).length-1-(i+1) = bs.length-1-i := by simp only [length_cons]; omega
      rw [he, modify_succ_cons, ofBits_cons, ofBits_cons, ih i hi, length_modify,
        Nat.xor_assoc]

@[simp] theorem length_toBits (n v : Nat) : (toBits n v).length = n := by simp [toBits]

theorem toBits_ofBits : toBits bs.length (ofBits bs) = bs := by
  apply ext_getElem
  · simp
  · intro i hi hb
    have hr : bs.length-1-i < bs.length := by omega
    have he : bs.length-1-(bs.length-1-i) = i := by omega
    simp [toBits, testBit_ofBits, hr, getElem_reverse, he]

theorem ofBits_toBits (n v : Nat) (h : v < 2^n) : ofBits (toBits n v) = v := by
  apply Nat.eq_of_testBit_eq
  intro i
  rw [testBit_ofBits]
  by_cases hi : i < n
  · have he : n-1-(n-1-i) = i := by omega
    simp [toBits, hi, he]
  · have hv : v < 2^i := lt_of_lt_of_le h (Nat.pow_le_pow_right (by decide) (by omega))
    have hr : (toBits n v).reverse.length ≤ i := by simpa using hi
    rw [Nat.testBit_lt_two_pow hv, getD_eq_default _ _ hr]

theorem packBytes_append (as bs : List Bool) (h : as.length % 8 = 0) :
    packBytes (as++bs) = packBytes as ++ packBytes bs := by
  fun_induction packBytes as with
  | case1 b0 b1 b2 b3 b4 b5 b6 b7 rest ih =>
    have hr : rest.length % 8 = 0 := by simp only [length_cons] at h; omega
    change _::packBytes (rest++bs) = _
    rw [ih hr, cons_append]
  | case2 => rfl
  | case3 as h0 h1 =>
    exfalso
    match as, h with
    | [], _ => exact h1 rfl
    | b0::b1::b2::b3::b4::b5::b6::b7::rest, _ => exact h0 _ _ _ _ _ _ _ _ _ rfl

theorem toBits_mod (n v : Nat) : toBits n (v % 2^n) = toBits n v := by
  apply map_congr_left
  intro i hi
  have : n-1-i < n := by rw [mem_range] at hi; omega
  simp [Nat.testBit_mod_two_pow, this]

theorem packBytes_toBits (v : Nat) : packBytes (toBits 8 v) = [UInt8.ofNat v] := by
  have h : toBits 8 v = [v.testBit 7, v.testBit 6, v.testBit 5, v.testBit 4, v.testBit 3,
    v.testBit 2, v.testBit 1, v.testBit 0] := rfl
  rw [h, packBytes, packBytes, ← h, ← toBits_mod, ofBits_toBits 8 _ (Nat.mod_lt _ (by decide))]
  have hv : UInt8.ofNat (v % 2^8) = UInt8.ofNat v := by
    apply UInt8.toNat_inj.mp
    simp
  rw [hv]

theorem packBytes_flatMap (bytes : List UInt8) :
    packBytes (bytes.flatMap fun b => toBits 8 b.toNat) = bytes := by
  induction bytes with
  | nil => rfl
  | cons b bytes ih =>
    rw [flatMap_cons, packBytes_append _ _ (by simp), packBytes_toBits, ih]
    simp

end IridiumAcars.BitWord
