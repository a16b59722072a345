import IridiumAcars.Lib.Json
import Mathlib.Data.Nat.Digits.Lemmas

/-! Integers in decimal, as `%lu` and `%ld` write them: each is a number of JSON, of known
length. -/
namespace IridiumAcars.Decimal
open Json List

def digitByte (d : Nat) : UInt8 := .ofNat (48+d)

def decimal (n : Nat) : Bytes :=
  if n = 0 then [48] else ((Nat.digits 10 n).map digitByte).reverse

def decimalInt (z : Int) : Bytes := if z < 0 then 45::decimal z.natAbs else decimal z.natAbs

theorem toNat_digitByte {d : Nat} (h : d < 10) : (digitByte d).toNat = 48+d := by
  rw [digitByte, UInt8.toNat_ofNat']
  omega

theorem isDigit_digitByte {d : Nat} (h : d < 10) : isDigit (digitByte d) = true := by
  have hd := toNat_digitByte h
  rw [isDigit, Bool.and_eq_true, decide_eq_true_eq, decide_eq_true_eq, UInt8.le_iff_toNat_le,
    UInt8.le_iff_toNat_le, hd]
  exact ⟨Nat.le_add_right 48 d, by change 48+d ≤ 57; omega⟩

theorem decimal_pos {n : Nat} (h : n ≠ 0) :
    ∃ c s, decimal n = c::s ∧ isDigit c = true ∧ c ≠ 48 ∧ ∀ d ∈ s, isDigit d = true := by
  have hne : Nat.digits 10 n ≠ [] := Nat.digits_ne_nil_iff_ne_zero.mpr h
  have hlt : ∀ d ∈ Nat.digits 10 n, d < 10 := fun d hd => Nat.digits_lt_base (by decide) hd
  have hlast := Nat.getLast_digit_ne_zero 10 h
  have hsplit := dropLast_append_getLast hne
  refine ⟨digitByte ((Nat.digits 10 n).getLast hne),
    (((Nat.digits 10 n).dropLast).map digitByte).reverse, ?_,
    isDigit_digitByte (hlt _ (getLast_mem hne)), ?_, ?_⟩
  · rw [decimal, if_neg h]
    nth_rewrite 1 [← hsplit]
    rw [map_append, reverse_append]
    rfl
  · intro h48
    have hd := toNat_digitByte (hlt _ (getLast_mem hne))
    rw [h48] at hd
    change 48 = _ at hd
    omega
  · intro d hd
    rw [mem_reverse] at hd
    obtain ⟨k,hk,rfl⟩ := mem_map.mp hd
    exact isDigit_digitByte (hlt k (mem_of_mem_dropLast hk))

theorem magnitudeOk_decimal (n : Nat) : magnitudeOk (decimal n) = true := by
  by_cases h : n = 0
  · subst h
    decide
  · obtain ⟨c,s,hd,hc,hz,hs⟩ := decimal_pos h
    rw [hd, magnitudeOk, if_neg (by simpa using hz), hc, dropWhile_eq_nil_iff.mpr hs]
    rfl

theorem numberByte_of_isDigit {c : UInt8} (h : isDigit c = true) : numberByte c = true := by
  rw [numberByte, h]
  rfl

theorem isDigit_of_mem_decimal {n : Nat} {c : UInt8} (h : c ∈ decimal n) : isDigit c = true := by
  by_cases hn : n = 0
  · rw [hn] at h
    rw [mem_singleton.mp h]
    decide
  · obtain ⟨d,s,hd,hc,-,hs⟩ := decimal_pos hn
    rw [hd] at h
    obtain rfl | h := mem_cons.mp h
    · exact hc
    · exact hs c h

theorem numberByte_of_mem_decimalInt {z : Int} {c : UInt8} (h : c ∈ decimalInt z) :
    numberByte c = true := by
  rw [decimalInt] at h
  split at h
  · obtain rfl | h := mem_cons.mp h
    · decide
    · exact numberByte_of_isDigit (isDigit_of_mem_decimal h)
  · exact numberByte_of_isDigit (isDigit_of_mem_decimal h)

theorem numberOk_decimalInt (z : Int) : numberOk (decimalInt z) = true := by
  have hmag := magnitudeOk_decimal z.natAbs
  rw [decimalInt]
  split
  · exact hmag
  · cases hd : decimal z.natAbs with
    | nil =>
      rw [hd] at hmag
      cases hmag
    | cons c s =>
      have hc : c ≠ 45 := by
        rintro rfl
        exact absurd (isDigit_of_mem_decimal (hd ▸ mem_cons_self)) (by decide)
      rwa [numberOk, if_neg (by simpa using hc), ← hd]

def ofInt (z : Int) : Number where
  text := decimalInt z
  bytes := all_eq_true.mpr fun _ h => numberByte_of_mem_decimalInt h
  ok := numberOk_decimalInt z

theorem length_decimal_le {n k : Nat} (h : n < 10^(k+1)) : (decimal n).length ≤ k+1 := by
  rw [decimal]
  split
  · simp
  · rw [length_reverse, length_map]
    exact (Nat.digits_length_le_iff (by decide) n).mpr h

theorem length_decimalInt_le {z : Int} {k : Nat} (h : z.natAbs < 10^(k+1)) :
    (decimalInt z).length ≤ k+2 := by
  have hd := length_decimal_le h
  rw [decimalInt]
  split
  · rw [length_cons]
    omega
  · omega

end IridiumAcars.Decimal
