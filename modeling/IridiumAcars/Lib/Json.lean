import Mathlib.Data.List.Forall2
import Mathlib.Data.List.TakeWhile

/-! JSON texts as bytes: a decoder for the grammar and rules for texts composed from parts. -/
namespace IridiumAcars.Json
open List

abbrev Bytes := List UInt8

def ascii (s : String) : Bytes := s.toList.map Char.toUInt8

def quote : UInt8 := 34
def comma : UInt8 := 44
def colon : UInt8 := 58
def openBracket : UInt8 := 91
def backslash : UInt8 := 92
def closeBracket : UInt8 := 93
def openBrace : UInt8 := 123
def closeBrace : UInt8 := 125

def isWs (c : UInt8) : Bool := c == 32 || c == 9 || c == 10 || c == 13

def isDigit (c : UInt8) : Bool := 48 ≤ c && c ≤ 57

def next (s : Bytes) : Option (UInt8 × Bytes) :=
  match s.dropWhile isWs with
  | [] => none
  | c::s => some (c, s)

def plain (c : UInt8) : Bool := 32 ≤ c && c != quote && c != backslash

def hexDigit (c : UInt8) : Option Nat :=
  if 48 ≤ c && c ≤ 57 then some (c.toNat-48)
  else if 97 ≤ c && c ≤ 102 then some (c.toNat-87)
  else if 65 ≤ c && c ≤ 70 then some (c.toNat-55)
  else none

def shortEscape (c : UInt8) : Option UInt8 :=
  if c == quote || c == backslash || c == 47 then some c
  else if c == 98 then some 8
  else if c == 102 then some 12
  else if c == 110 then some 10
  else if c == 114 then some 13
  else if c == 116 then some 9
  else none

def utf8 (u : Nat) : Bytes :=
  if u < 0x80 then [.ofNat u]
  else if u < 0x800 then [.ofNat (0xC0+u/0x40), .ofNat (0x80+u%0x40)]
  else [.ofNat (0xE0+u/0x1000), .ofNat (0x80+u/0x40%0x40), .ofNat (0x80+u%0x40)]

def hexUnit (a b c d : UInt8) : Option Nat := do
  let a ← hexDigit a
  let b ← hexDigit b
  let c ← hexDigit c
  let d ← hexDigit d
  return ((a*16+b)*16+c)*16+d

def addFront (p : Bytes) (r : Bytes × Bytes) : Bytes × Bytes := (p++r.1, r.2)

/-- The rest of a string behind its opening quote, and what follows the closing one. -/
def parseString : Bytes → Option (Bytes × Bytes)
  | [] => none
  | c::s =>
    if c = quote then some ([], s)
    else if c = backslash then
      match s with
      | [] => none
      | e::s =>
        if e = 117 then
          match s with
          | h1::h2::h3::h4::s => (hexUnit h1 h2 h3 h4).bind fun u =>
              (parseString s).map (addFront (utf8 u))
          | _ => none
        else (shortEscape e).bind fun b => (parseString s).map (addFront [b])
    else if c < 32 then none
    else (parseString s).map (addFront [c])

def exponentOk : Bytes → Bool
  | [] => true
  | c::s => (c == 101 || c == 69) &&
      (match s with
      | [] => false
      | d::ds => if d == 43 || d == 45 then !ds.isEmpty && ds.all isDigit
          else (d::ds).all isDigit)

def fractionOk : Bytes → Bool
  | [] => true
  | c::s => if c == 46 then !(s.takeWhile isDigit).isEmpty && exponentOk (s.dropWhile isDigit)
      else exponentOk (c::s)

def magnitudeOk : Bytes → Bool
  | [] => false
  | c::s => if c == 48 then fractionOk s else isDigit c && fractionOk (s.dropWhile isDigit)

def numberOk : Bytes → Bool
  | [] => false
  | c::s => if c == 45 then magnitudeOk s else magnitudeOk (c::s)

def numberByte (c : UInt8) : Bool :=
  isDigit c || c == 43 || c == 45 || c == 46 || c == 101 || c == 69

structure Number where
  text : Bytes
  bytes : text.all numberByte = true
  ok : numberOk text = true
deriving DecidableEq

def parseNumber (s : Bytes) : Option (Number × Bytes) :=
  if h : numberOk (s.takeWhile numberByte) then
    some (⟨s.takeWhile numberByte, all_takeWhile, h⟩, s.dropWhile numberByte)
  else none

inductive Value where
  | null
  | bool (b : Bool)
  | num (n : Number)
  | str (s : Bytes)
  | arr (vs : List Value)
  | obj (ms : List (Bytes × Value))

def Value.find (v : Value) (key : Bytes) : Option Value :=
  match v with
  | .obj ms => ms.lookup key
  | _ => none

def parseScalar (s : Bytes) : Option (Value × Bytes) :=
  if (ascii "true").isPrefixOf s then some (.bool true, s.drop 4)
  else if (ascii "false").isPrefixOf s then some (.bool false, s.drop 5)
  else if (ascii "null").isPrefixOf s then some (.null, s.drop 4)
  else (parseNumber s).map fun r => (.num r.1, r.2)

def parseKey (s : Bytes) : Option (Bytes × Bytes) :=
  (next s).bind fun r =>
    if r.1 = quote then
      (parseString r.2).bind fun k =>
        (next k.2).bind fun r => if r.1 = colon then some (k.1, r.2) else none
    else none

mutual

def parseValue : Nat → Bytes → Option (Value × Bytes)
  | 0, _ => none
  | n+1, s =>
    (next s).bind fun r =>
      if r.1 = openBrace then
        (next r.2).bind fun e =>
          if e.1 = closeBrace then some (.obj [], e.2)
          else (parseMembers n r.2).map fun m => (.obj m.1, m.2)
      else if r.1 = openBracket then
        (next r.2).bind fun e =>
          if e.1 = closeBracket then some (.arr [], e.2)
          else (parseElements n r.2).map fun m => (.arr m.1, m.2)
      else if r.1 = quote then (parseString r.2).map fun m => (.str m.1, m.2)
      else parseScalar (r.1::r.2)

def parseElements : Nat → Bytes → Option (List Value × Bytes)
  | 0, _ => none
  | n+1, s =>
    (parseValue n s).bind fun v =>
      (next v.2).bind fun r =>
        if r.1 = comma then (parseElements n r.2).map fun m => (v.1::m.1, m.2)
        else if r.1 = closeBracket then some ([v.1], r.2)
        else none

def parseMembers : Nat → Bytes → Option (List (Bytes × Value) × Bytes)
  | 0, _ => none
  | n+1, s =>
    (parseKey s).bind fun k =>
      (parseValue n k.2).bind fun v =>
        (next v.2).bind fun r =>
          if r.1 = comma then (parseMembers n r.2).map fun m => ((k.1, v.1)::m.1, m.2)
          else if r.1 = closeBrace then some ([(k.1, v.1)], r.2)
          else none

end

/-- One value and nothing but white space around it. -/
def decode (s : Bytes) : Option Value :=
  (parseValue (s.length+1) s).bind fun r => if (next r.2).isNone then some r.1 else none

theorem next_cons {c : UInt8} (h : isWs c = false) (s : Bytes) : next (c::s) = some (c, s) := by
  rw [next, dropWhile_cons_of_neg (by simp [h])]

theorem next_append {s r : Bytes} {c : UInt8} (h : next s = some (c, r)) (x : Bytes) :
    next (s++x) = some (c, r++x) := by
  rw [next] at h ⊢
  cases hd : s.dropWhile isWs with
  | nil =>
    rw [hd] at h
    cases h
  | cons a t =>
    rw [hd] at h
    cases h
    rw [dropWhile_append, hd]
    rfl

def parseUnit : Bytes → Option (Bytes × Bytes)
  | h1::h2::h3::h4::s => (hexUnit h1 h2 h3 h4).bind fun u =>
      (parseString s).map (addFront (utf8 u))
  | _ => none

def parseEscape : Bytes → Option (Bytes × Bytes)
  | [] => none
  | e::s => if e = 117 then parseUnit s
      else (shortEscape e).bind fun b => (parseString s).map (addFront [b])

theorem parseString_cons (c : UInt8) (s : Bytes) : parseString (c::s) =
    if c = quote then some ([], s)
    else if c = backslash then parseEscape s
    else if c < 32 then none
    else (parseString s).map (addFront [c]) := by
  rw [parseString.eq_def]
  rfl

theorem ne_nil_of_next {s r : Bytes} {c : UInt8} (h : next s = some (c, r)) : s ≠ [] := by
  rintro rfl
  cases h

/-- The bytes `e` inside a string stand for the bytes `b`. -/
def Writes (e b : Bytes) : Prop :=
  ∀ rest, parseString (e++rest) = (parseString rest).map (addFront b)

theorem addFront_addFront (p q : Bytes) (r : Bytes × Bytes) :
    addFront p (addFront q r) = addFront (p++q) r := by
  simp [addFront]

theorem writes_nil : Writes [] [] := by
  intro rest
  rw [nil_append]
  cases parseString rest <;> rfl

theorem Writes.append {e b e' b' : Bytes} (h : Writes e b) (h' : Writes e' b') :
    Writes (e++e') (b++b') := by
  intro rest
  rw [append_assoc, h, h', Option.map_map]
  congr 1
  funext r
  exact addFront_addFront b b' r

theorem writes_plain {c : UInt8} (h : plain c = true) : Writes [c] [c] := by
  obtain ⟨⟨hlow,hq⟩,hb⟩ : ((32 ≤ c) ∧ c ≠ quote) ∧ c ≠ backslash := by
    simpa [plain, and_assoc] using h
  intro rest
  rw [singleton_append, parseString_cons, if_neg hq, if_neg hb,
    if_neg (UInt8.not_lt.mpr hlow)]

theorem writes_short {e b : UInt8} (h : shortEscape e = some b) : Writes [backslash, e] [b] := by
  have hu : e ≠ 117 := by
    rintro rfl
    cases h
  intro rest
  rw [cons_append, singleton_append, parseString_cons, if_neg (by decide), if_pos rfl,
    parseEscape, if_neg hu, h]
  rfl

theorem writes_unit {a b c d : UInt8} {u : Nat} (h : hexUnit a b c d = some u) :
    Writes [backslash, 117, a, b, c, d] (utf8 u) := by
  intro rest
  simp only [cons_append, nil_append]
  rw [parseString_cons, if_neg (by decide), if_pos rfl, parseEscape, if_pos rfl,
    parseUnit, h]
  rfl

theorem writes_flatMap {f : UInt8 → Bytes} {s : Bytes} (h : ∀ c ∈ s, Writes (f c) [c]) :
    Writes (s.flatMap f) s := by
  induction s with
  | nil => exact writes_nil
  | cons c s ih =>
    rw [flatMap_cons]
    exact (h c mem_cons_self).append (ih fun d hd => h d (mem_cons_of_mem c hd))

theorem Writes.parse {e b : Bytes} (h : Writes e b) (rest : Bytes) :
    parseString (e++quote::rest) = some (b, rest) := by
  rw [h, parseString_cons, if_pos rfl, Option.map_some, addFront, append_nil]

def Ends (rest : Bytes) : Prop := ∀ c s, rest = c::s → numberByte c = false

/-- The text `t` reads as `v` wherever it stands. -/
def Reads (t : Bytes) (v : Value) : Prop :=
  ∀ n rest, t.length ≤ n → Ends rest → parseValue n (t++rest) = some (v, rest)

theorem ends_nil : Ends [] := by
  intro c s h
  cases h

theorem ends_cons {c : UInt8} (h : numberByte c = false) (s : Bytes) : Ends (c::s) := by
  rintro d t heq
  cases heq
  exact h

theorem reads_str {e b : Bytes} (h : Writes e b) : Reads (quote::(e++[quote])) (.str b) := by
  intro n rest hn _
  obtain ⟨n,rfl⟩ := Nat.exists_eq_add_of_lt (show 0 < n by simp at hn; omega)
  have hrest : quote::(e++[quote])++rest = quote::(e++quote::rest) := by simp
  rw [Nat.zero_add, hrest, parseValue, next_cons (by decide), Option.bind_some]
  dsimp only
  rw [if_neg (by decide), if_neg (by decide), if_pos rfl, h.parse, Option.map_some]

theorem parseValue_scalar {n : Nat} {c : UInt8} {s : Bytes} (hws : isWs c = false)
    (hbrace : c ≠ openBrace) (hbracket : c ≠ openBracket) (hquote : c ≠ quote) :
    parseValue (n+1) (c::s) = parseScalar (c::s) := by
  rw [parseValue, next_cons hws, Option.bind_some]
  dsimp only
  rw [if_neg hbrace, if_neg hbracket, if_neg hquote]

theorem reads_bool (b : Bool) : Reads (if b then ascii "true" else ascii "false") (.bool b) := by
  intro n rest hn _
  cases n with
  | zero => cases b <;> exact absurd hn (by decide)
  | succ n => cases b <;> rfl

theorem numberOk_head {c : UInt8} {s : Bytes} (h : numberOk (c::s) = true) :
    c = 45 ∨ isDigit c = true := by
  rw [numberOk] at h
  by_cases hm : c = 45
  · exact .inl hm
  · rw [if_neg (by simpa using hm), magnitudeOk] at h
    by_cases hz : c = 48
    · exact .inr (by rw [hz]; decide)
    · rw [if_neg (by simpa using hz), Bool.and_eq_true] at h
      exact .inr h.1

theorem scalar_head {c : UInt8} (h : c = 45 ∨ isDigit c = true) (s : Bytes) :
    isWs c = false ∧ c ≠ openBrace ∧ c ≠ openBracket ∧ c ≠ quote ∧
      (ascii "true").isPrefixOf (c::s) = false ∧ (ascii "false").isPrefixOf (c::s) = false ∧
      (ascii "null").isPrefixOf (c::s) = false := by
  have hne : ∀ d : UInt8, ¬ (d = 45 ∨ isDigit d = true) → c ≠ d := by
    rintro d hd rfl
    exact hd h
  have hkey : ∀ d : UInt8, ∀ w : Bytes, ¬ (d = 45 ∨ isDigit d = true) →
      (d::w).isPrefixOf (c::s) = false := by
    intro d w hd
    rw [List.isPrefixOf, beq_false_of_ne (hne d hd).symm, Bool.false_and]
  have hws : isWs c = false := by
    rw [isWs, beq_false_of_ne (hne 32 (by decide)), beq_false_of_ne (hne 9 (by decide)),
      beq_false_of_ne (hne 10 (by decide)), beq_false_of_ne (hne 13 (by decide))]
    rfl
  exact ⟨hws, hne _ (by decide), hne _ (by decide), hne _ (by decide),
    hkey 116 (ascii "rue") (by decide), hkey 102 (ascii "alse") (by decide),
    hkey 110 (ascii "ull") (by decide)⟩

theorem takeWhile_number (n : Number) {rest : Bytes} (h : Ends rest) :
    (n.text++rest).takeWhile numberByte = n.text ∧
      (n.text++rest).dropWhile numberByte = rest := by
  have hall := all_eq_true.mp n.bytes
  have hstop : rest.takeWhile numberByte = [] ∧ rest.dropWhile numberByte = rest := by
    cases rest with
    | nil => exact ⟨rfl, rfl⟩
    | cons c s =>
      have hc := h c s rfl
      exact ⟨takeWhile_cons_of_neg (by simp [hc]), dropWhile_cons_of_neg (by simp [hc])⟩
  rw [takeWhile_append_of_pos hall, dropWhile_append_of_pos hall, hstop.1, hstop.2,
    append_nil]
  exact ⟨rfl, rfl⟩

theorem reads_num (k : Number) : Reads k.text (.num k) := by
  intro n rest hn hends
  obtain ⟨htake,hdrop⟩ := takeWhile_number k hends
  have hnum : parseNumber (k.text++rest) = some (k, rest) := by
    rw [parseNumber, dif_pos (by rw [htake]; exact k.ok)]
    simp only [htake, hdrop]
  cases htext : k.text with
  | nil => exact absurd k.ok (by rw [htext]; decide)
  | cons c s =>
    obtain ⟨n,rfl⟩ : ∃ m, n = m+1 := ⟨n-1, by rw [htext, length_cons] at hn; omega⟩
    obtain ⟨hws,hbrace,hbracket,hquote,ht,hf,hz⟩ :=
      scalar_head (numberOk_head (htext ▸ k.ok)) (s++rest)
    rw [htext] at hnum
    rw [cons_append, parseValue_scalar hws hbrace hbracket hquote, parseScalar, ht, hf, hz,
      ← cons_append, hnum]
    rfl

def joined : Bool → List Bytes → Bytes
  | _, [] => []
  | first, t::ts => (if first then [] else [comma])++t++joined false ts

theorem joined_append (first : Bool) (ts us : List Bytes) :
    joined first (ts++us) = joined first ts++joined (first && ts.isEmpty) us := by
  induction ts generalizing first with
  | nil => simp [joined]
  | cons t ts ih => simp [joined, ih]

def ReadsMember (t : Bytes) (m : Bytes × Value) : Prop :=
  ∃ k v, t = quote::(k++quote::colon::v) ∧ Writes k m.1 ∧ Reads v m.2

theorem parseKey_of_writes {k b : Bytes} (h : Writes k b) (s : Bytes) :
    parseKey (quote::(k++quote::colon::s)) = some (b, s) := by
  rw [parseKey, next_cons (by decide), Option.bind_some]
  dsimp only
  rw [if_pos rfl, h.parse, Option.bind_some]
  dsimp only
  rw [next_cons (by decide), Option.bind_some, if_pos rfl]

theorem parseMembers_step {t : Bytes} {m : Bytes × Value} (h : ReadsMember t m) {n : Nat}
    (hn : t.length ≤ n) {c : UInt8} (hc : numberByte c = false) (hws : isWs c = false)
    (s : Bytes) : parseMembers (n+1) (t++c::s) =
      if c = comma then (parseMembers n s).map fun r => (m::r.1, r.2)
      else if c = closeBrace then some ([m], s) else none := by
  obtain ⟨k,v,rfl,hk,hv⟩ := h
  have hlen : v.length ≤ n := by
    simp at hn
    omega
  have htext : quote::(k++quote::colon::v)++c::s = quote::(k++quote::colon::(v++c::s)) := by simp
  rw [htext, parseMembers, parseKey_of_writes hk, Option.bind_some]
  dsimp only
  rw [hv n (c::s) hlen (ends_cons hc s), Option.bind_some]
  dsimp only
  rw [next_cons hws, Option.bind_some]

theorem parse_joined {α : Type} {R : Bytes → α → Prop} {p : Nat → Bytes → Option (List α × Bytes)}
    {close : UInt8} (hclose : numberByte close = false ∧ isWs close = false ∧ close ≠ comma)
    (hstep : ∀ {t : Bytes} {a : α}, R t a → ∀ {n : Nat}, t.length ≤ n → ∀ {c : UInt8},
      numberByte c = false → isWs c = false → ∀ s, p (n+1) (t++c::s) =
        if c = comma then (p n s).map fun r => (a::r.1, r.2)
        else if c = close then some ([a], s) else none)
    {t : Bytes} {ts : List Bytes} {a : α} {as : List α} (h : List.Forall₂ R (t::ts) (a::as))
    {n : Nat} (hn : (joined true (t::ts)).length ≤ n) (rest : Bytes) :
    p (n+1) (joined true (t::ts)++close::rest) = some (a::as, rest) := by
  induction ts generalizing t a as n with
  | nil =>
    obtain ⟨ha,hnil⟩ := forall₂_cons.mp h
    cases hnil
    have htext : joined true [t] = t := by simp [joined]
    rw [htext] at hn ⊢
    rw [hstep ha hn hclose.1 hclose.2.1, if_neg hclose.2.2, if_pos rfl]
  | cons u us ih =>
    obtain ⟨ha,hrest⟩ := forall₂_cons.mp h
    cases hrest with
    | cons hu hus =>
      have htext : ∀ s, joined true (t::u::us)++s = t++comma::(joined true (u::us)++s) := by
        intro s
        simp [joined]
      have hlen := congrArg List.length (htext [])
      simp only [length_append, length_cons, length_nil] at hlen
      obtain ⟨n,rfl⟩ : ∃ k, n = k+1 := ⟨n-1, by omega⟩
      rw [htext, hstep ha (by omega) (by decide) (by decide), if_pos rfl,
        ih (.cons hu hus) (by omega), Option.map_some]

theorem reads_obj {ts : List Bytes} {ms : List (Bytes × Value)}
    (h : List.Forall₂ ReadsMember ts ms) :
    Reads (openBrace::(joined true ts++[closeBrace])) (.obj ms) := by
  intro n rest hn _
  obtain ⟨n,rfl⟩ : ∃ m, n = m+1 := ⟨n-1, by simp at hn; omega⟩
  have htext : openBrace::(joined true ts++[closeBrace])++rest =
      openBrace::(joined true ts++closeBrace::rest) := by simp
  rw [htext, parseValue, next_cons (by decide), Option.bind_some]
  dsimp only
  rw [if_pos rfl]
  cases h with
  | nil => rfl
  | @cons t m ts ms hm hms =>
    obtain ⟨k,v,hk,-⟩ := id hm
    have hhead : ∃ s, joined true (t::ts)++closeBrace::rest = quote::s := by
      rw [hk]
      exact ⟨_, rfl⟩
    obtain ⟨s,hs⟩ := hhead
    obtain ⟨n,rfl⟩ : ∃ k, n = k+1 := ⟨n-1, by
      rw [length_cons, length_append] at hn
      simp only [length_cons] at hn
      omega⟩
    have hparse := parse_joined (by decide) parseMembers_step (.cons hm hms) (n := n)
      (by simp at hn; omega) rest
    rw [hs, next_cons (by decide), Option.bind_some, ← hs]
    dsimp only
    rw [if_neg (by decide), hparse, Option.map_some]

theorem parseElements_step {t : Bytes} {v : Value} (h : Reads t v) {n : Nat} (hn : t.length ≤ n)
    {c : UInt8} (hc : numberByte c = false) (hws : isWs c = false) (s : Bytes) :
    parseElements (n+1) (t++c::s) =
      if c = comma then (parseElements n s).map fun r => (v::r.1, r.2)
      else if c = closeBracket then some ([v], s) else none := by
  rw [parseElements, h n (c::s) hn (ends_cons hc s), Option.bind_some]
  dsimp only
  rw [next_cons hws, Option.bind_some]

theorem Reads.next_ne {t : Bytes} {v : Value} (h : Reads t v) {rest : Bytes} (hends : Ends rest) :
    ∃ c s, next (t++rest) = some (c, s) ∧ c ≠ closeBracket := by
  have hparse := h (t.length+1) rest (Nat.le_succ _) hends
  rw [parseValue] at hparse
  obtain ⟨⟨c,s⟩,hnext,hparse⟩ := Option.bind_eq_some_iff.mp hparse
  refine ⟨c, s, hnext, ?_⟩
  rintro rfl
  cases hparse

theorem reads_arr {ts : List Bytes} {vs : List Value} (h : List.Forall₂ Reads ts vs) :
    Reads (openBracket::(joined true ts++[closeBracket])) (.arr vs) := by
  intro n rest hn _
  obtain ⟨n,rfl⟩ : ∃ m, n = m+1 := ⟨n-1, by simp at hn; omega⟩
  have htext : openBracket::(joined true ts++[closeBracket])++rest =
      openBracket::(joined true ts++closeBracket::rest) := by simp
  rw [htext, parseValue, next_cons (by decide), Option.bind_some]
  dsimp only
  rw [if_neg (by decide), if_pos rfl]
  cases h with
  | nil => rfl
  | @cons t v ts vs hv hvs =>
    have htail : ∃ u, joined true (t::ts)++closeBracket::rest = t++u ∧ Ends u := by
      refine ⟨joined false ts++closeBracket::rest, by simp [joined], ?_⟩
      cases ts with
      | nil => exact ends_cons (by decide) rest
      | cons t' ts => exact ends_cons (by decide) _
    obtain ⟨u,hu,hends⟩ := htail
    obtain ⟨c,s,hnext,hc⟩ := hv.next_ne hends
    obtain ⟨n,rfl⟩ : ∃ k, n = k+1 := ⟨n-1, by
      simp only [length_cons, length_append] at hn
      omega⟩
    have hparse := parse_joined (by decide) parseElements_step (.cons hv hvs) (n := n)
      (by simp at hn; omega) rest
    rw [hu, hnext, Option.bind_some, ← hu]
    dsimp only
    rw [if_neg hc, hparse, Option.map_some]

theorem numberByte_of_isWs {c : UInt8} (h : isWs c = true) : numberByte c = false := by
  simp only [isWs, Bool.or_eq_true, beq_iff_eq] at h
  obtain ((rfl | rfl) | rfl) | rfl := h <;> decide

theorem decode_of_reads {t : Bytes} {v : Value} (h : Reads t v) {w : Bytes}
    (hw : w.all isWs = true) : decode (t++w) = some v := by
  have hends : Ends w := by
    rintro c s rfl
    exact numberByte_of_isWs (all_eq_true.mp hw c mem_cons_self)
  have hnone : next w = none := by
    rw [next, dropWhile_eq_nil_iff.mpr (all_eq_true.mp hw)]
  rw [decode, h _ w (by simp; omega) hends, Option.bind_some]
  dsimp only
  rw [hnone]
  rfl

def hexByte (d : UInt8) : UInt8 := if d < 10 then 48+d else 87+d

def escapeByte (c : UInt8) : Bytes :=
  if c = 34 then ascii "\\\""
  else if c = 92 then ascii "\\\\"
  else if c = 10 then ascii "\\n"
  else if c = 13 then ascii "\\r"
  else if c = 9 then ascii "\\t"
  else if c < 0x20 then ascii "\\u00"++[hexByte (c >>> 4), hexByte (c &&& 0xf)]
  else [c]

def escape (s : Bytes) : Bytes := s.flatMap escapeByte

theorem hexUnit_control {c : UInt8} (h : c < 0x20) :
    hexUnit 48 48 (hexByte (c >>> 4)) (hexByte (c &&& 0xf)) = some c.toNat ∧
      utf8 c.toNat = [c] := by
  have hall : ∀ n : Fin 32, hexUnit 48 48 (hexByte (UInt8.ofNat n >>> 4))
      (hexByte (UInt8.ofNat n &&& 0xf)) = some (UInt8.ofNat n).toNat ∧
      utf8 (UInt8.ofNat n).toNat = [UInt8.ofNat n] := by decide
  have hc := hall ⟨c.toNat, UInt8.lt_iff_toNat_lt.mp h⟩
  rwa [UInt8.ofNat_toNat] at hc

theorem writes_escapeByte (c : UInt8) : Writes (escapeByte c) [c] := by
  rw [escapeByte]
  split_ifs with h1 h2 h3 h4 h5 h6
  · rw [h1]
    exact writes_short (e := 34) (by decide)
  · rw [h2]
    exact writes_short (e := 92) (by decide)
  · rw [h3]
    exact writes_short (e := 110) (by decide)
  · rw [h4]
    exact writes_short (e := 114) (by decide)
  · rw [h5]
    exact writes_short (e := 116) (by decide)
  · obtain ⟨hunit,hutf⟩ := hexUnit_control h6
    rw [← hutf]
    exact writes_unit hunit
  · exact writes_plain (by simp [plain, quote, backslash, h1, h2, UInt8.not_lt.mp h6])

theorem writes_escape (s : Bytes) : Writes (escape s) s :=
  writes_flatMap fun c _ => writes_escapeByte c

theorem escapeByte_of_plain {c : UInt8} (h : plain c = true) : escapeByte c = [c] := by
  have hall : ∀ n : Fin 256, plain (UInt8.ofNat n) = true →
      escapeByte (UInt8.ofNat n) = [UInt8.ofNat n] := by decide +kernel
  have hc := hall ⟨c.toNat, c.toNat_lt⟩
  rw [UInt8.ofNat_toNat] at hc
  exact hc h

theorem escape_of_plain {s : Bytes} (h : ∀ c ∈ s, plain c = true) : escape s = s := by
  induction s with
  | nil => rfl
  | cons c s ih =>
    rw [escape, flatMap_cons, escapeByte_of_plain (h c mem_cons_self)]
    exact congrArg (c::·) (ih fun d hd => h d (mem_cons_of_mem c hd))

theorem length_escapeByte_le (c : UInt8) : (escapeByte c).length ≤ 6 := by
  have hall : ∀ n : Fin 256, (escapeByte (UInt8.ofNat n)).length ≤ 6 := by decide +kernel
  have hc := hall ⟨c.toNat, c.toNat_lt⟩
  rwa [UInt8.ofNat_toNat] at hc

theorem length_escape_le (s : Bytes) : (escape s).length ≤ 6*s.length := by
  induction s with
  | nil => exact Nat.le_refl 0
  | cons c s ih =>
    have hc := length_escapeByte_le c
    rw [escape, flatMap_cons, length_append, length_cons]
    rw [escape] at ih
    omega

theorem sizeOf_member {m : Bytes × Value} {ms : List (Bytes × Value)} (h : m ∈ ms) :
    sizeOf m.2 < 1+sizeOf ms := by
  have hm := sizeOf_lt_of_mem h
  obtain ⟨k,v⟩ := m
  rw [Prod.mk.sizeOf_spec] at hm
  dsimp only
  omega

def memberText (key text : Bytes) : Bytes := quote::(escape key++quote::colon::text)

def encode : Value → Bytes
  | .null => ascii "null"
  | .bool b => if b then ascii "true" else ascii "false"
  | .num n => n.text
  | .str s => quote::(escape s++[quote])
  | .arr vs => openBracket::(joined true (vs.map encode)++[closeBracket])
  | .obj ms => openBrace::(joined true (ms.map fun m => memberText m.1 (encode m.2))++[closeBrace])
termination_by v => sizeOf v
decreasing_by
  · have := sizeOf_lt_of_mem ‹_›
    rw [Value.arr.sizeOf_spec]
    omega
  · rw [Value.obj.sizeOf_spec]
    exact sizeOf_member ‹_›

def memberOf (m : Bytes × Value) : Bytes := memberText m.1 (encode m.2)

theorem encode_obj (ms : List (Bytes × Value)) :
    encode (.obj ms) = openBrace::(joined true (ms.map memberOf)++[closeBrace]) := by
  rw [encode]
  rfl

theorem reads_null : Reads (ascii "null") .null := by
  intro n rest hn _
  cases n with
  | zero => exact absurd hn (by decide)
  | succ n => rfl

theorem reads_encode (v : Value) : Reads (encode v) v := by
  match v with
  | .null => rw [encode]; exact reads_null
  | .bool b => rw [encode]; exact reads_bool b
  | .num n => rw [encode]; exact reads_num n
  | .str s => rw [encode]; exact reads_str (writes_escape s)
  | .arr vs =>
    rw [encode]
    refine reads_arr (forall₂_map_left_iff.mpr (forall₂_same.mpr fun v hv => ?_))
    exact reads_encode v
  | .obj ms =>
    rw [encode]
    refine reads_obj (forall₂_map_left_iff.mpr (forall₂_same.mpr fun m hm => ?_))
    exact ⟨_, _, rfl, writes_escape m.1, reads_encode m.2⟩
termination_by sizeOf v
decreasing_by
  · have := sizeOf_lt_of_mem hv
    rw [Value.arr.sizeOf_spec]
    omega
  · rw [Value.obj.sizeOf_spec]
    exact sizeOf_member hm

end IridiumAcars.Json
