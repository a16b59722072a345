import Mathlib.Data.Nat.Bitwise

/-! Linear feedback registers: additive steps, and short error bursts never leave zero. -/
namespace IridiumAcars.ShiftRegister
open List Function

variable {bs : List Bool}

/-- A bit in `cell i` reaches the feedback end, `cell 0`, in `i` steps. -/
structure Register where
  width : Nat
  step : Nat → Nat
  cell : Nat → Nat
  cell_lt : ∀ i, i < width → cell i < width
  cell_inj : ∀ i j, i < width → j < width → cell i = cell j → i = j
  step_xor : ∀ a b, step (a ^^^ b) = step a ^^^ step b
  step_lt : ∀ v, v < 2^width → step v < 2^width
  step_cell : ∀ i, i+1 < width → step (2^cell (i+1)) = 2^cell i
  step_ne : ∀ v, v < 2^width → v ≠ 0 → step v ≠ 0

variable (r : Register)

def Register.bit (i : Nat) (b : Bool) : Nat := if b then 2^r.cell i else 0

def Register.feed (v : Nat) (b : Bool) : Nat := r.step (v ^^^ r.bit 0 b)

def Register.feedAll (v : Nat) (bs : List Bool) : Nat := bs.foldl r.feed v

def Register.load : Nat → List Bool → Nat
  | _, [] => 0
  | i, b::bs => r.bit i b ^^^ Register.load (i+1) bs

theorem step_zero : r.step 0 = 0 := by
  have h := r.step_xor 0 0
  rwa [Nat.xor_self, Nat.xor_self] at h

variable {i : Nat}

theorem step_bit (hi : i+1 < r.width) (b : Bool) :
    r.step (r.bit (i+1) b) = r.bit i b := by
  cases b with
  | false => exact step_zero r
  | true => exact r.step_cell i hi

theorem step_load (h : i+bs.length < r.width) :
    r.step (r.load (i+1) bs) = r.load i bs := by
  induction bs generalizing i with
  | nil => exact step_zero r
  | cons b bs ih =>
    rw [length_cons] at h
    rw [Register.load, Register.load, r.step_xor, step_bit r (by omega), ih (by omega)]

theorem feedAll_eq_iterate (h : bs.length ≤ r.width) (v : Nat) :
    r.feedAll v bs = r.step^[bs.length] (v ^^^ r.load 0 bs) := by
  induction bs generalizing v with
  | nil => simp [Register.feedAll, Register.load]
  | cons b bs ih =>
    rw [length_cons] at h
    have hload : r.load 0 bs = r.step (r.load 1 bs) := (step_load r (by omega)).symm
    change r.feedAll (r.feed v b) bs = _
    rw [ih (by omega), length_cons, iterate_succ_apply, Register.feed, hload,
      ← r.step_xor, Nat.xor_assoc]
    rfl

theorem bit_xor (i : Nat) (a b : Bool) : r.bit i (a ^^ b) = r.bit i a ^^^ r.bit i b := by
  cases a <;> cases b <;> simp [Register.bit]

theorem feed_xor (u v : Nat) (a b : Bool) :
    r.feed (u ^^^ v) (a ^^ b) = r.feed u a ^^^ r.feed v b := by
  rw [Register.feed, Register.feed, Register.feed, ← r.step_xor, bit_xor, Nat.xor_assoc,
    Nat.xor_assoc]
  congr 2
  rw [← Nat.xor_assoc, Nat.xor_comm v, Nat.xor_assoc]

theorem feedAll_xor {as bs : List Bool} (h : as.length = bs.length) (u v : Nat) :
    r.feedAll (u ^^^ v) (List.zipWith xor as bs) = r.feedAll u as ^^^ r.feedAll v bs := by
  induction as generalizing bs u v with
  | nil =>
    obtain rfl := length_eq_zero_iff.mp h.symm
    rfl
  | cons a as ih =>
    cases bs with
    | nil => cases h
    | cons b bs =>
      have hrest := ih (Nat.succ.inj h) (r.feed u a) (r.feed v b)
      rwa [← feed_xor] at hrest

theorem feedAll_append (v : Nat) (as bs : List Bool) :
    r.feedAll v (as++bs) = r.feedAll (r.feedAll v as) bs := foldl_append

theorem feedAll_replicate_false (n v : Nat) :
    r.feedAll v (List.replicate n false) = r.step^[n] v := by
  induction n generalizing v with
  | zero => rfl
  | succ n ih =>
    rw [replicate_succ, iterate_succ_apply, ← ih]
    exact congrArg (r.feedAll · _) (congrArg r.step (Nat.xor_zero v))

theorem iterate_zero (n : Nat) : r.step^[n] 0 = 0 := iterate_fixed (step_zero r) n

theorem iterate_xor (n a b : Nat) : r.step^[n] (a ^^^ b) = r.step^[n] a ^^^ r.step^[n] b := by
  induction n generalizing a b with
  | zero => rfl
  | succ n ih =>
    rw [iterate_succ_apply, r.step_xor, ih, iterate_succ_apply,
      iterate_succ_apply]

theorem iterate_lt (n : Nat) {v : Nat} (hlt : v < 2^r.width) : r.step^[n] v < 2^r.width := by
  induction n generalizing v with
  | zero => exact hlt
  | succ n ih => exact ih (r.step_lt v hlt)

theorem iterate_ne_zero (n : Nat) {v : Nat} (hlt : v < 2^r.width) (hv : v ≠ 0) :
    r.step^[n] v ≠ 0 := by
  induction n generalizing v with
  | zero => exact hv
  | succ n ih => exact ih (r.step_lt v hlt) (r.step_ne v hlt hv)

theorem bit_lt (hi : i < r.width) (b : Bool) : r.bit i b < 2^r.width := by
  cases b with
  | false => exact Nat.two_pow_pos _
  | true => exact Nat.pow_lt_pow_right (by decide) (r.cell_lt i hi)

theorem load_lt (h : i+bs.length ≤ r.width) :
    r.load i bs < 2^r.width := by
  induction bs generalizing i with
  | nil => exact Nat.two_pow_pos _
  | cons b bs ih =>
    rw [length_cons] at h
    exact Nat.xor_lt_two_pow (bit_lt r (by omega) b) (ih (by omega))

theorem testBit_load_before {i j : Nat} (hj : j < i) (h : i+bs.length ≤ r.width) :
    (r.load i bs).testBit (r.cell j) = false := by
  induction bs generalizing i with
  | nil => exact Nat.zero_testBit _
  | cons b bs ih =>
    rw [length_cons] at h
    have hne : r.cell i ≠ r.cell j := by
      intro heq
      have := r.cell_inj i j (by omega) (by omega) heq
      omega
    rw [Register.load, Nat.testBit_xor, ih (by omega) (by omega), Bool.xor_false]
    cases b with
    | false => exact Nat.zero_testBit _
    | true => exact Nat.testBit_two_pow_of_ne hne

theorem load_ne_zero (h : i+bs.length ≤ r.width) (ht : true ∈ bs) :
    r.load i bs ≠ 0 := by
  induction bs generalizing i with
  | nil => cases ht
  | cons b bs ih =>
    rw [length_cons] at h
    cases b with
    | false =>
      have hrest := ih (i := i+1) (by omega) (by simpa using ht)
      rwa [Register.load, Register.bit, if_neg Bool.false_ne_true, Nat.zero_xor]
    | true =>
      intro hzero
      have hbit := congrArg (Nat.testBit · (r.cell i)) hzero
      simp only [Register.load, Nat.testBit_xor, Register.bit, if_true, Nat.testBit_two_pow_self,
        Nat.zero_testBit, testBit_load_before r (Nat.lt_succ_self i) (show i+1+bs.length ≤ r.width
          by omega), Bool.xor_false] at hbit
      cases hbit

/-- All errors lie within `n` consecutive bits. -/
def Burst (n : Nat) (e : List Bool) : Prop :=
  ∃ a w b, e = List.replicate a false++w++List.replicate b false ∧ w.length ≤ n ∧ true ∈ w

theorem feedAll_burst_ne_zero {e : List Bool} (h : Burst r.width e) : r.feedAll 0 e ≠ 0 := by
  obtain ⟨a,w,b,rfl,hlen,ht⟩ := h
  have hlen' : 0+w.length ≤ r.width := by omega
  have hlt : r.load 0 w < 2^r.width := load_lt r hlen'
  rw [feedAll_append, feedAll_append, feedAll_replicate_false, feedAll_replicate_false,
    iterate_zero, feedAll_eq_iterate r hlen, Nat.zero_xor, ← iterate_add_apply]
  exact iterate_ne_zero r _ hlt (load_ne_zero r hlen' ht)

/-- A burst no longer than the register changes its final value. -/
theorem feedAll_detects {bs e : List Bool} (hlen : bs.length = e.length) (h : Burst r.width e)
    (v : Nat) : r.feedAll v (List.zipWith xor bs e) ≠ r.feedAll v bs := by
  have hsum := feedAll_xor r hlen v 0
  rw [Nat.xor_zero] at hsum
  rw [hsum]
  intro heq
  apply feedAll_burst_ne_zero r h
  have hcancel := congrArg (r.feedAll v bs ^^^ ·) heq
  simpa [← Nat.xor_assoc] using hcancel

end IridiumAcars.ShiftRegister
