import Mathlib.Algebra.Group.Nat.Defs
import Mathlib.Data.List.Basic
import Mathlib.Data.Nat.Basic

/-! Fixed-width little-endian byte strings, and a byte string read field by field. -/
namespace IridiumAcars.LittleEndian
open List

def leBytes : Nat → Nat → List UInt8
  | 0, _ => []
  | w+1, v => UInt8.ofNat v::leBytes w (v/256)

def ofLe : List UInt8 → Nat
  | [] => 0
  | b::bs => b.toNat+256*ofLe bs

def window {α : Type*} (bytes : List α) (o w : Nat) : List α := (bytes.drop o).take w

@[simp] theorem length_leBytes (w v : Nat) : (leBytes w v).length = w := by
  induction w generalizing v with
  | zero => rfl
  | succ w ih => rw [leBytes, length_cons, ih]

theorem ofLe_lt (bs : List UInt8) : ofLe bs < 256^bs.length := by
  induction bs with
  | nil => simp [ofLe]
  | cons b bs ih =>
    have hb := b.toNat_lt
    rw [ofLe, length_cons, Nat.pow_succ]
    omega

theorem leBytes_ofLe (bs : List UInt8) : leBytes bs.length (ofLe bs) = bs := by
  induction bs with
  | nil => rfl
  | cons b bs ih =>
    have hb := b.toNat_lt
    have hlow : UInt8.ofNat (b.toNat+256*ofLe bs) = b := by
      apply UInt8.toNat_inj.mp
      rw [UInt8.toNat_ofNat']
      omega
    have hhigh : (b.toNat+256*ofLe bs)/256 = ofLe bs := by omega
    rw [length_cons, ofLe, leBytes, hlow, hhigh, ih]

theorem ofLe_leBytes (w v : Nat) (hv : v < 256^w) : ofLe (leBytes w v) = v := by
  induction w generalizing v with
  | zero =>
    have : v = 0 := by simpa using hv
    rw [this]
    rfl
  | succ w ih =>
    have hlow : (UInt8.ofNat v).toNat = v%256 := by simp
    have hhigh : v/256 < 256^w := by
      rw [Nat.pow_succ] at hv
      omega
    rw [leBytes, ofLe, hlow, ih _ hhigh]
    omega

section
variable {α : Type*}

theorem length_window (bytes : List α) (o w : Nat) (h : o+w ≤ bytes.length) :
    (window bytes o w).length = w := by
  rw [window, length_take, length_drop]
  omega

theorem window_append_drop (bytes : List α) (o w : Nat) :
    window bytes o w++bytes.drop (o+w) = bytes.drop o := by
  rw [window, ← drop_drop, take_append_drop]

theorem window_zero_append (as bs : List α) (w : Nat) (h : as.length = w) :
    window (as++bs) 0 w = as := by
  subst h
  simp [window]

theorem window_append_right (as bs : List α) (n o w : Nat) (h : as.length = n) :
    window (as++bs) (n+o) w = window bs o w := by
  rw [window, ← drop_drop, drop_left' h, window]

end

end IridiumAcars.LittleEndian
