import Mathlib.Data.UInt

/-! The form parser of http_server.c: `form_field` and `url_decode`. -/
namespace IridiumAcars.FormField
open List

variable {v text : List UInt8} {c : UInt8}

def isSpace (c : UInt8) : Bool := decide (c = 0x20) || (decide (9 ≤ c) && decide (c ≤ 13))

def hexVal (c : UInt8) : Option Nat :=
  if 0x30 ≤ c ∧ c ≤ 0x39 then some (c.toNat-0x30)
  else if 0x41 ≤ c ∧ c ≤ 0x46 then some (c.toNat-0x41+10)
  else if 0x61 ≤ c ∧ c ≤ 0x66 then some (c.toNat-0x61+10)
  else none

def hexDigits : Nat → List UInt8 → Nat
  | acc, [] => acc
  | acc, c::cs =>
    match hexVal c with
    | some d => hexDigits (16*acc+d) cs
    | none => acc

/-- `strtol(buf, NULL, 16)` on two characters, which leave no room for a prefix `0x`. -/
def strtolHex (buf : List UInt8) : Int :=
  match buf.dropWhile isSpace with
  | [] => 0
  | c::cs =>
    if c = 0x2D then -(hexDigits 0 cs : Int)
    else if c = 0x2B then hexDigits 0 cs
    else hexDigits 0 (c::cs)

def toChar (v : Int) : UInt8 := UInt8.ofNat (v % 256).toNat

/-- The last case is that of `i + 2 >= srclen`. -/
def urlDecode : List UInt8 → List UInt8
  | [] => []
  | c::a::b::rest =>
    if c = 0x2B then 0x20::urlDecode (a::b::rest)
    else if c = 0x25 then toChar (strtolHex [a, b])::urlDecode rest
    else c::urlDecode (a::b::rest)
  | c::rest => (if c = 0x2B then 0x20 else c)::urlDecode rest

inductive EspErr
  | ok
  | notFound
deriving DecidableEq

def copyValue (value : List UInt8) (outsz : Nat) : List UInt8 :=
  let vlen := if value.length ≥ outsz then outsz-1 else value.length
  let out := urlDecode (value.take vlen)
  if out.length ≥ outsz then out.take (outsz-1) else out

def formFieldFrom (key : List UInt8) (outsz : Nat) (p : List UInt8) : EspErr × List UInt8 :=
  if p = [] then (.notFound, [])
  else
    let seg := p.takeWhile (· ≠ 0x26)
    let name := seg.takeWhile (· ≠ 0x3D)
    if name.length < seg.length ∧ name = key then
      (.ok, copyValue (seg.drop (name.length+1)) outsz)
    else if seg.length < p.length then formFieldFrom key outsz (p.drop (seg.length+1))
    else (.notFound, [])
termination_by p.length
decreasing_by
  rw [length_drop]
  omega

def formField (body key : List UInt8) (outsz : Nat) : EspErr × List UInt8 :=
  formFieldFrom key outsz body

inductive Spells : UInt8 → List UInt8 → Prop
  | literal (c : UInt8) (hamp : c ≠ 0x26) (hpercent : c ≠ 0x25) (hplus : c ≠ 0x2B) (hnul : c ≠ 0) :
    Spells c [c]
  | plus : Spells 0x20 [0x2B]
  | escape (a b : UInt8) (x y : Nat) (ha : hexVal a = some x) (hb : hexVal b = some y)
      (hnul : 16*x+y ≠ 0) : Spells (UInt8.ofNat (16*x+y)) [0x25, a, b]

inductive Encodes : List UInt8 → List UInt8 → Prop
  | nil : Encodes [] []
  | cons {c : UInt8} {s v text : List UInt8} (hc : Spells c s) (h : Encodes v text) :
    Encodes (c::v) (s++text)

structure Field where
  key : List UInt8
  value : List UInt8
  text : List UInt8
  key_plain : ∀ c ∈ key, c ≠ 0x26 ∧ c ≠ 0x3D ∧ c ≠ 0
  encodes : Encodes value text

def Field.sent (f : Field) : List UInt8 := f.key++0x3D::f.text

def formBody : List Field → List UInt8
  | [] => []
  | [f] => f.sent
  | f::g::fields => f.sent++0x26::formBody (g::fields)

theorem hexVal_cases {x : Nat} (h : hexVal c = some x) :
    0x30 ≤ c.toNat ∧ c.toNat ≤ 0x39 ∧ x = c.toNat-0x30 ∨
      0x41 ≤ c.toNat ∧ c.toNat ≤ 0x46 ∧ x = c.toNat-0x41+10 ∨
      0x61 ≤ c.toNat ∧ c.toNat ≤ 0x66 ∧ x = c.toNat-0x61+10 := by
  simp only [hexVal, UInt8.le_iff_toNat_le, UInt8.reduceToNat] at h
  split at h
  · cases h
    omega
  split at h
  · cases h
    omega
  split at h
  · cases h
    omega
  · cases h

theorem hexVal_lt {x : Nat} (h : hexVal c = some x) : x < 16 := by
  have := hexVal_cases h
  omega

theorem hexVal_ne {x : Nat} (h : hexVal c = some x) {d : UInt8} (hd : d.toNat < 0x30) :
    c ≠ d := by
  rintro rfl
  have := hexVal_cases h
  omega

theorem hexVal_not_space {x : Nat} (h : hexVal c = some x) : isSpace c = false := by
  have hcases := hexVal_cases h
  rw [Bool.eq_false_iff]
  intro hs
  simp only [isSpace, Bool.or_eq_true, Bool.and_eq_true, decide_eq_true_eq,
    UInt8.le_iff_toNat_le, UInt8.reduceToNat] at hs
  obtain rfl | hs := hs
  · simp at hcases
  · omega

theorem strtolHex_pair {a b : UInt8} {x y : Nat} (ha : hexVal a = some x) (hb : hexVal b = some y) :
    strtolHex [a, b] = 16*x+y := by
  have hskip : [a, b].dropWhile isSpace = [a, b] := by
    rw [dropWhile_cons_of_neg (by simp [hexVal_not_space ha])]
  rw [strtolHex, hskip]
  simp only [if_neg (hexVal_ne ha (show (0x2D : UInt8).toNat < 0x30 by decide)),
    if_neg (hexVal_ne ha (show (0x2B : UInt8).toNat < 0x30 by decide)), hexDigits, ha, hb]
  simp

theorem toChar_pair {a b : UInt8} {x y : Nat} (ha : hexVal a = some x) (hb : hexVal b = some y) :
    toChar (strtolHex [a, b]) = UInt8.ofNat (16*x+y) := by
  have := hexVal_lt ha
  have := hexVal_lt hb
  rw [strtolHex_pair ha hb, toChar]
  congr 1
  omega

theorem urlDecode_cons (hc : c ≠ 0x25) (rest : List UInt8) :
    urlDecode (c::rest) = (if c = 0x2B then 0x20 else c)::urlDecode rest := by
  match rest with
  | [] => rfl
  | [a] => rfl
  | a::b::rest =>
    rw [urlDecode, if_neg hc]
    split <;> rfl

theorem urlDecode_spells {s : List UInt8} (h : Spells c s) (rest : List UInt8) :
    urlDecode (s++rest) = c::urlDecode rest := by
  cases h with
  | literal _ hamp hpercent hplus hnul =>
    rw [singleton_append, urlDecode_cons hpercent, if_neg hplus]
  | plus => exact urlDecode_cons (by decide) rest
  | escape a b x y ha hb hnul =>
    change toChar (strtolHex [a, b])::urlDecode rest = _
    rw [toChar_pair ha hb]

theorem urlDecode_encodes (h : Encodes v text) (rest : List UInt8) :
    urlDecode (text++rest) = v++urlDecode rest := by
  induction h with
  | nil => rfl
  | cons hc _ ih => rw [append_assoc, urlDecode_spells hc, ih, cons_append]

theorem Spells.amp_free {s : List UInt8} (h : Spells c s) : ∀ d ∈ s, d ≠ 0x26 := by
  cases h with
  | literal _ hamp hpercent hplus hnul => simpa using hamp
  | plus =>
    intro d hd
    obtain rfl := mem_singleton.mp hd
    decide
  | escape a b x y ha hb hnul =>
    intro d hd
    simp only [mem_cons, not_mem_nil, or_false] at hd
    obtain rfl | rfl | rfl := hd
    · decide
    · exact hexVal_ne ha (by decide)
    · exact hexVal_ne hb (by decide)

theorem Encodes.amp_free (h : Encodes v text) : ∀ d ∈ text, d ≠ 0x26 := by
  induction h with
  | nil => simp
  | cons hc _ ih =>
    intro d hd
    obtain hd | hd := mem_append.mp hd
    · exact hc.amp_free d hd
    · exact ih d hd

theorem Field.sent_amp_free (f : Field) : ∀ d ∈ f.sent, d ≠ 0x26 := by
  intro d hd
  obtain hd | hd := mem_append.mp hd
  · exact (f.key_plain d hd).1
  · obtain rfl | hd := mem_cons.mp hd
    · decide
    · exact f.encodes.amp_free d hd

theorem formFieldFrom_segment (f : Field) (key : List UInt8) (outsz : Nat) (rest : List UInt8)
    (hrest : rest.takeWhile (· ≠ 0x26) = []) :
    formFieldFrom key outsz (f.sent++rest) =
      if f.key = key then (.ok, copyValue f.text outsz)
      else if rest = [] then (.notFound, []) else formFieldFrom key outsz (rest.drop 1) := by
  have hseg : (f.sent++rest).takeWhile (· ≠ 0x26) = f.sent := by
    rw [takeWhile_append_of_pos (by simpa using f.sent_amp_free), hrest, append_nil]
  have hname : f.sent.takeWhile (· ≠ 0x3D) = f.key := by
    rw [Field.sent, takeWhile_append_of_pos (by
      intro c hc
      simpa using (f.key_plain c hc).2.1)]
    simp
  have hne : f.sent++rest ≠ [] := by simp [Field.sent]
  have heq : f.key.length < f.sent.length := by
    rw [Field.sent, length_append, length_cons]
    omega
  have hvalue : f.sent.drop (f.key.length+1) = f.text := by simp [Field.sent]
  rw [formFieldFrom, if_neg hne]
  simp only [hseg, hname, heq, true_and, hvalue]
  by_cases hkey : f.key = key
  · rw [if_pos hkey, if_pos hkey]
  rw [if_neg hkey, if_neg hkey]
  cases rest with
  | nil => simp
  | cons c rest =>
    have hmore : f.sent.length < (f.sent++c::rest).length := by simp
    have hafter : (f.sent++c::rest).drop (f.sent.length+1) = rest := by
      rw [show f.sent++c::rest = (f.sent++[c])++rest by simp, drop_left' (by simp)]
    rw [if_pos hmore, if_neg (cons_ne_nil c rest), hafter, drop_one, tail_cons]

theorem formField_eq (fields : List Field) (key : List UInt8) (outsz : Nat) :
    formField (formBody fields) key outsz =
      match fields.find? (·.key = key) with
      | some f => (.ok, copyValue f.text outsz)
      | none => (.notFound, []) := by
  rw [formField]
  induction fields with
  | nil =>
    rw [formBody, formFieldFrom]
    rfl
  | cons f fields ih =>
    cases fields with
    | nil =>
      have hseg := formFieldFrom_segment f key outsz [] rfl
      rw [append_nil] at hseg
      rw [formBody, hseg, if_pos rfl, find?_cons]
      by_cases hkey : f.key = key
      · simp [hkey]
      · simp [hkey]
    | cons g fields =>
      rw [formBody, formFieldFrom_segment f key outsz _ rfl, if_neg (cons_ne_nil _ _),
        drop_one, tail_cons, ih, find?_cons (a := f)]
      by_cases hkey : f.key = key
      · simp [hkey]
      · simp [hkey]

theorem urlDecode_length_le (text : List UInt8) : (urlDecode text).length ≤ text.length := by
  fun_induction urlDecode text with
  | case1 => exact le_rfl
  | case2 a b rest ih | case3 a b rest hplus ih | case4 c a b rest hplus hpercent ih
  | case5 c rest hshort ih =>
    simp only [length_cons] at ih ⊢
    omega

theorem copyValue_eq (text : List UInt8) {outsz : Nat} (hsz : 1 ≤ outsz) :
    copyValue text outsz = urlDecode (text.take (outsz-1)) := by
  have htake : text.take (if text.length ≥ outsz then outsz-1 else text.length) =
      text.take (outsz-1) := by
    split
    · rfl
    · rw [take_length, take_of_length_le (by omega)]
  have hlen := urlDecode_length_le (text.take (outsz-1))
  rw [length_take] at hlen
  simp only [copyValue, htake]
  rw [if_neg (by omega)]

theorem Encodes.cut (h : Encodes v text) {n : Nat} (hn : n < text.length) :
    ∃ v₁ e₁ c s v₂ e₂ k, Encodes v₁ e₁ ∧ Spells c s ∧ Encodes v₂ e₂ ∧ v = v₁++c::v₂ ∧
      text = e₁++(s++e₂) ∧ n = e₁.length+k ∧ k < s.length := by
  induction h generalizing n with
  | nil => exact absurd hn (Nat.not_lt_zero n)
  | @cons c s v text hc h ih =>
    by_cases hs : n < s.length
    · exact ⟨[], [], c, s, v, text, n, .nil, hc, h, rfl, rfl, by simp, hs⟩
    · rw [length_append] at hn
      obtain ⟨v₁,e₁,d,t,v₂,e₂,k,h₁,hd,h₂,rfl,rfl,hk,hlt⟩ := ih (n := n-s.length) (by omega)
      refine ⟨c::v₁, s++e₁, d, t, v₂, e₂, k, .cons hc h₁, hd, h₂, rfl, ?_, ?_, hlt⟩
      · rw [append_assoc]
      · rw [length_append]
        omega

theorem Encodes.eq_nil {text : List UInt8} (h : Encodes [] text) : text = [] := by
  cases h with
  | nil => rfl

theorem Encodes.spells {text : List UInt8} (h : Encodes [c] text) : Spells c text := by
  cases h with
  | cons hc h =>
    rwa [h.eq_nil, append_nil]

theorem percent_digits {a b : UInt8} {x y : Nat} (ha : hexVal a = some x) (hb : hexVal b = some y)
    (h : UInt8.ofNat (16*x+y) = 0x25) : a = 0x32 ∧ b = 0x35 := by
  have hx := hexVal_lt ha
  have hy := hexVal_lt hb
  have hnum := congrArg UInt8.toNat h
  simp only [UInt8.toNat_ofNat', UInt8.reduceToNat] at hnum
  have hca := hexVal_cases ha
  have hcb := hexVal_cases hb
  constructor
  · apply UInt8.toNat_inj.mp
    simp only [UInt8.reduceToNat]
    omega
  · apply UInt8.toNat_inj.mp
    simp only [UInt8.reduceToNat]
    omega

/-- A cut inside `%25` that leaves the right text: the value ends in `%`, or in `%2`. -/
def LuckyCut (value text : List UInt8) (n : Nat) : Prop :=
  (∃ v e, Encodes v e ∧ value = v++[0x25] ∧ text = e++[0x25, 0x32, 0x35] ∧ n = e.length+1) ∨
  (∃ v e s, Encodes v e ∧ Spells 0x32 s ∧ value = v++[0x25, 0x32] ∧
    text = e++([0x25, 0x32, 0x35]++s) ∧ n = e.length+2)

theorem LuckyCut.decode {n : Nat} (h : LuckyCut v text n) :
    urlDecode (text.take n) = v := by
  obtain ⟨v,e,he,rfl,rfl,rfl⟩ | ⟨v,e,s,he,hs,rfl,rfl,rfl⟩ := h
  · rw [take_length_add_append, urlDecode_encodes he]
    rfl
  · rw [take_length_add_append, urlDecode_encodes he]
    rfl

theorem lucky_of_decode (h : Encodes v text) {n : Nat} (hn : n < text.length)
    (hdec : urlDecode (text.take n) = v) : LuckyCut v text n := by
  obtain ⟨v₁,e₁,c,s,v₂,e₂,k,h₁,hc,h₂,rfl,rfl,rfl,hk⟩ := h.cut hn
  rw [take_length_add_append, urlDecode_encodes h₁, append_cancel_left_eq,
    take_append_of_le_length hk.le] at hdec
  cases hc with
  | literal _ hamp hpercent hplus hnul | plus =>
    obtain rfl : k = 0 := by simpa using hk
    cases hdec
  | escape a b x y ha hb hnul =>
    match k, hk with
    | 0, _ => cases hdec
    | 1, _ =>
      obtain ⟨hc,rfl⟩ := List.cons.inj hdec
      obtain ⟨rfl,rfl⟩ := percent_digits ha hb hc.symm
      obtain rfl := h₂.eq_nil
      exact .inl ⟨v₁, e₁, h₁, by rw [← hc]; rfl, rfl, rfl⟩
    | 2, _ =>
      obtain ⟨hc,hv⟩ := List.cons.inj hdec
      obtain ⟨rfl,rfl⟩ := percent_digits ha hb hc.symm
      subst hv
      exact .inr ⟨v₁, e₁, e₂, h₁, h₂.spells, by rw [← hc]; rfl, rfl, rfl⟩

/-- The first pair with the key gives its value whenever that fits in `out`. -/
structure Inverts (fields : List Field) (key : List UInt8) (outsz : Nat) : Prop where
  found : ∀ f, fields.find? (·.key = key) = some f → f.value.length < outsz →
    formField (formBody fields) key outsz = (.ok, f.value)
  missing : (formField (formBody fields) key outsz).1 = .notFound ↔ ∀ f ∈ fields, f.key ≠ key

/-- Where the value fits, so does its encoding, or the cut does no harm. -/
def Roomy (fields : List Field) (key : List UInt8) (outsz : Nat) : Prop :=
  ∀ f, fields.find? (·.key = key) = some f → f.value.length < outsz →
    f.text.length < outsz ∨ LuckyCut f.value f.text (outsz-1)

theorem formField_missing (fields : List Field) (key : List UInt8) (outsz : Nat) :
    (formField (formBody fields) key outsz).1 = .notFound ↔ ∀ f ∈ fields, f.key ≠ key := by
  rw [formField_eq]
  cases hfind : fields.find? (·.key = key) with
  | none =>
    have hnone := find?_eq_none.mp hfind
    simpa using hnone
  | some f =>
    have hkey : f.key = key := by simpa using find?_some hfind
    constructor
    · intro h
      cases h
    · intro h
      exact absurd hkey (h f (mem_of_find?_eq_some hfind))

theorem copyValue_iff {f : Field} {outsz : Nat} (hsz : 1 ≤ outsz) :
    copyValue f.text outsz = f.value ↔
      f.text.length < outsz ∨ LuckyCut f.value f.text (outsz-1) := by
  rw [copyValue_eq f.text hsz]
  constructor
  · intro h
    by_cases hfit : f.text.length < outsz
    · exact .inl hfit
    · exact .inr (lucky_of_decode f.encodes (by omega) h)
  · rintro (hfit | hlucky)
    · have hall := urlDecode_encodes f.encodes []
      rw [append_nil] at hall
      rw [take_of_length_le (by omega), hall]
      exact append_nil _
    · exact hlucky.decode

theorem form_field_inverts_iff (fields : List Field) (key : List UInt8) (outsz : Nat)
    (hsz : 1 ≤ outsz) : Inverts fields key outsz ↔ Roomy fields key outsz := by
  constructor
  · intro h f hfind hlen
    have hfound := h.found f hfind hlen
    rw [formField_eq, hfind] at hfound
    exact (copyValue_iff hsz).mp (Prod.mk.inj hfound).2
  · intro h
    refine ⟨?_, formField_missing fields key outsz⟩
    intro f hfind hlen
    rw [formField_eq, hfind]
    exact congrArg _ ((copyValue_iff hsz).mpr (h f hfind hlen))

theorem encodes_replicate (hc : Spells c [c]) (n : Nat) (h : Encodes v text) :
    Encodes (List.replicate n c++v) (List.replicate n c++text) := by
  induction n with
  | zero => exact h
  | succ n ih =>
    rw [replicate_succ, cons_append, cons_append]
    exact Encodes.cons hc ih

def longSsid : Field where
  key := [0x73, 0x73, 0x69, 0x64]
  value := List.replicate 31 0x61++[0x21]
  text := List.replicate 31 0x61++[0x25, 0x32, 0x31]
  key_plain := by
    have hall : [0x73, 0x73, 0x69, 0x64].all fun c : UInt8 => c != 0x26 && c != 0x3D && c != 0 := by
      decide
    intro c hc
    simpa [and_assoc] using all_eq_true.mp hall c hc
  encodes := encodes_replicate (.literal 0x61 (by decide) (by decide) (by decide) (by decide)) 31
    (.cons (.escape 0x32 0x31 2 1 (by decide) (by decide) (by decide)) .nil)

theorem longSsid_first : [longSsid].find? (·.key = [0x73, 0x73, 0x69, 0x64]) = some longSsid :=
  find?_cons_of_pos (by decide)

theorem long_ssid_roomy : Inverts [longSsid] [0x73, 0x73, 0x69, 0x64] 35 := by
  refine (form_field_inverts_iff [longSsid] [0x73, 0x73, 0x69, 0x64] 35 (by decide)).mpr ?_
  intro f hfind hlen
  rw [longSsid_first] at hfind
  cases hfind
  exact .inl (by decide)

/-- In the 33 bytes of the ssid field the last character comes out as `%`. -/
theorem long_ssid_cut :
    longSsid.value.length < 33 ∧
      formField (formBody [longSsid]) [0x73, 0x73, 0x69, 0x64] 33 =
        (.ok, List.replicate 31 0x61++[0x25]) ∧
      ¬Inverts [longSsid] [0x73, 0x73, 0x69, 0x64] 33 := by
  have hout : formField (formBody [longSsid]) [0x73, 0x73, 0x69, 0x64] 33 =
      (.ok, List.replicate 31 0x61++[0x25]) :=
    (formField_eq [longSsid] _ 33).trans (by decide +kernel)
  refine ⟨by decide, hout, ?_⟩
  intro h
  have hvalue := h.found longSsid longSsid_first (by decide)
  rw [hout] at hvalue
  exact absurd (Prod.mk.inj hvalue).2 (by decide)

end IridiumAcars.FormField
