import IridiumAcars.BchDistance
import IridiumAcars.Interleave
import Mathlib.Algebra.Order.BigOperators.Group.List

/-! The block decoder of bch_decoder.c: syndrome table, hard decoding, Chase retry, de-interleaver.
-/
namespace IridiumAcars.BchDecoder
open BitWord WordDivision Bch IndexMap Interleave List

variable (val : Nat) (bits : List UInt8)

def bchPolyRa : Nat := 1207

/-- The loop of `gf2_remainder`: with `k+1` rounds left it looks at bit `k+poly_bits-1`. -/
def gf2RemainderLoop (poly polyBits : Nat) : Nat → Nat → Nat
  | 0, val => val
  | k+1, val =>
    gf2RemainderLoop poly polyBits k
      (if val.testBit (k+polyBits-1) then val ^^^ (poly <<< k) else val)

def gf2Remainder (poly val : Nat) : Nat :=
  if val = 0 then 0
  else gf2RemainderLoop poly (u32BitLength poly) (33-u32BitLength poly) val

structure SynEntry where
  errs : Int
  locator : Nat
deriving DecidableEq

def synEmpty : SynEntry := ⟨-1, 0⟩

def synSingles : List Nat := (List.range 31).map fun b1 => 1 <<< b1

def synDoubles : List Nat :=
  (List.range 31).flatMap fun b1 =>
    (List.range' (b1+1) (31-(b1+1))).map fun b2 => 1 <<< b1 ||| 1 <<< b2

def writeSingle (tbl : List SynEntry) (val : Nat) : List SynEntry :=
  let r := gf2Remainder bchPolyRa val
  if r < 1024 then tbl.set r ⟨1, val⟩ else tbl

def writeDouble (tbl : List SynEntry) (val : Nat) : List SynEntry :=
  let r := gf2Remainder bchPolyRa val
  if r < 1024 ∧ (tbl.getD r synEmpty).errs < 0 then tbl.set r ⟨2, val⟩ else tbl

def bchDecoderInit : List SynEntry :=
  synDoubles.foldl writeDouble (synSingles.foldl writeSingle (List.replicate 1024 synEmpty))

def bitsToUint (bits : List UInt8) (n : Nat) : Nat :=
  (bits.take n).foldl (fun v b => v <<< 1 ||| (b.toNat &&& 1)) 0

def dataCells (val : Nat) : List UInt8 := (toBits 21 (val >>> 10)).map cell

def bchDecodeBlock (block31 : List UInt8) : Option (Int × List UInt8) :=
  let val := bitsToUint block31 31
  let syndrome := gf2Remainder bchPolyRa val
  let e := bchDecoderInit.getD syndrome synEmpty
  if syndrome = 0 then some (0, dataCells val)
  else if syndrome < 1024 ∧ 0 ≤ e.errs then some (e.errs, dataCells (val ^^^ e.locator))
  else none

def hardCells (soft : List Int16) : List UInt8 :=
  (List.range 31).map fun i => if 0 ≤ soft.getD i 0 then 0 else 1

/-- `(int16_t)(-soft)`: the most negative value is its own magnitude. -/
def softAbs (soft : List Int16) (i : Nat) : Int16 :=
  let s := soft.getD i 0
  if s < 0 then -s else s

/-- Put `i` before the first entry of larger magnitude; unfilled slots are the missing tail. -/
def insertLcb (mag : Nat → Int16) (i : Nat) : List Nat → List Nat
  | [] => [i]
  | j::lcb => if mag i < mag j then i::j::lcb else j::insertLcb mag i lcb

def leastReliable (mag : Nat → Int16) (K : Nat) : List Nat :=
  (List.range 31).foldl (fun lcb i => (insertLcb mag i lcb).take K) []

def flipPattern (hard : List UInt8) (lcb : List Nat) (p : Nat) : List UInt8 :=
  (List.range lcb.length).foldl
    (fun cells k => if p.testBit k then flipBit cells (lcb.getD k 0) else cells) hard

def popcount (p : Nat) : Nat := (List.range 32).countP p.testBit

def reencode (data : List UInt8) : Nat :=
  let systematic := bitsToUint data 21 <<< 10
  systematic ||| gf2Remainder bchPolyRa systematic

def softDistance (soft : List Int16) (cw : Nat) : Int :=
  ((List.range 31).map fun i =>
    if cell (cw.testBit (30-i)) ≠ (hardCells soft).getD i 0 then (softAbs soft i).toInt else 0).sum

abbrev Best := Int × Option (Int × List UInt8)

def chaseTrial (soft : List Int16) (lcb : List Nat) (best : Best) (p : Nat) : Best :=
  match bchDecodeBlock (flipPattern (hardCells soft) lcb p) with
  | none => best
  | some (errs, data) =>
    let dist := softDistance soft (reencode data)
    if dist < best.1 then (dist, some (errs+popcount p, data)) else best

def int32Max : Int := 2147483647

def bchDecodeBlockSoft (soft : List Int16) (K : Nat) : Option (Int × List UInt8) :=
  let lcb := leastReliable (softAbs soft) (min K 6)
  ((List.range (1 <<< min K 6)).foldl (chaseTrial soft lcb) (int32Max, none)).2

def blockCells (start : Nat) : List Nat := (symbolsDown start 2 16).flatMap fun s => [2*s, 2*s+1]

variable {α : Type*} [Zero α]

def iridiumDeinterleave (inp : List α) : List α × List α :=
  (gather 0 (blockCells 31) inp, gather 0 (blockCells 30) inp)

theorem gf2RemainderLoop_eq (poly d k val : Nat) :
    gf2RemainderLoop poly (d+1) k val = divide poly d k val := by
  induction k generalizing val with
  | zero => rfl
  | succ k ih => exact ih _

theorem gf2Remainder_eq : gf2Remainder bchPolyRa val = divide bchPolyRa 10 22 val := by
  by_cases h0 : val = 0
  · rw [gf2Remainder, if_pos h0, h0, divide_of_lt _ _ _ _ (by decide)]
  · rw [gf2Remainder, if_neg h0]
    exact gf2RemainderLoop_eq bchPolyRa 10 22 val

theorem gf2Remainder_xor (a b : Nat) :
    gf2Remainder bchPolyRa (a ^^^ b) = gf2Remainder bchPolyRa a ^^^ gf2Remainder bchPolyRa b := by
  simp only [gf2Remainder_eq, divide_xor]

theorem gf2Remainder_xor_eq_zero (a b : Nat) :
    gf2Remainder bchPolyRa (a ^^^ b) = 0 ↔ gf2Remainder bchPolyRa b = gf2Remainder bchPolyRa a := by
  rw [gf2Remainder_xor, Nat.xor_eq_zero_iff, eq_comm]

theorem gf2Remainder_lt (h : val < 2^32) : gf2Remainder bchPolyRa val < 1024 := by
  rw [gf2Remainder_eq]
  exact divide_lt bchPolyRa 10 22 val (by decide) (by decide) h

def Corrects (tbl : List SynEntry) (s : Nat) : Prop := 0 ≤ (tbl.getD s synEmpty).errs

variable (tbl : List SynEntry)

theorem corrects_set (r s : Nat) (e : SynEntry) (hr : r < tbl.length)
    (he : 0 ≤ e.errs) : Corrects (tbl.set r e) s ↔ Corrects tbl s ∨ r = s := by
  by_cases hs : r = s
  · subst hs
    simp [Corrects, getD_eq_getElem?_getD, hr, he]
  · simp [Corrects, getD_eq_getElem?_getD, getElem?_set_ne hs, hs]

theorem not_corrects_replicate (n s : Nat) : ¬ Corrects (List.replicate n synEmpty) s := by
  by_cases hs : s < n
  · simp [Corrects, getD_eq_getElem?_getD, hs, synEmpty]
  · simp [Corrects, getD_eq_getElem?_getD, hs, synEmpty]

theorem writeSingle_spec (val : Nat) (hl : tbl.length = 1024)
    (hv : val < 2^32) : (writeSingle tbl val).length = 1024 ∧
    ∀ s, Corrects (writeSingle tbl val) s ↔ Corrects tbl s ∨ gf2Remainder bchPolyRa val = s := by
  have hr := gf2Remainder_lt val hv
  have hw : writeSingle tbl val = tbl.set (gf2Remainder bchPolyRa val) ⟨1, val⟩ := if_pos hr
  rw [hw]
  exact ⟨by simpa using hl, fun s => corrects_set tbl _ s ⟨1, val⟩ (by omega) Int.one_nonneg⟩

theorem writeDouble_spec (val : Nat) (hl : tbl.length = 1024)
    (hv : val < 2^32) : (writeDouble tbl val).length = 1024 ∧
    ∀ s, Corrects (writeDouble tbl val) s ↔ Corrects tbl s ∨ gf2Remainder bchPolyRa val = s := by
  have hr := gf2Remainder_lt val hv
  by_cases he : (tbl.getD (gf2Remainder bchPolyRa val) synEmpty).errs < 0
  · have hw : writeDouble tbl val = tbl.set (gf2Remainder bchPolyRa val) ⟨2, val⟩ :=
      if_pos ⟨hr, he⟩
    rw [hw]
    exact ⟨by simpa using hl, fun s =>
      corrects_set tbl _ s ⟨2, val⟩ (by omega) (Int.natCast_nonneg 2)⟩
  · have hw : writeDouble tbl val = tbl := if_neg fun h => he h.2
    rw [hw]
    refine ⟨hl, fun s => ⟨Or.inl, ?_⟩⟩
    rintro (hs | rfl)
    · exact hs
    · exact Int.not_lt.mp he

theorem foldl_write_spec (write : List SynEntry → Nat → List SynEntry)
    (hwrite : ∀ tbl val, tbl.length = 1024 → val < 2^32 → (write tbl val).length = 1024 ∧
      ∀ s, Corrects (write tbl val) s ↔ Corrects tbl s ∨ gf2Remainder bchPolyRa val = s)
    (vals : List Nat) (hv : ∀ val ∈ vals, val < 2^32) (tbl : List SynEntry)
    (hl : tbl.length = 1024) : (vals.foldl write tbl).length = 1024 ∧
    ∀ s, Corrects (vals.foldl write tbl) s ↔
      Corrects tbl s ∨ ∃ val ∈ vals, gf2Remainder bchPolyRa val = s := by
  induction vals generalizing tbl with
  | nil => simp [hl]
  | cons val vals ih =>
    obtain ⟨hlen,hfirst⟩ := hwrite tbl val hl (hv val (by simp))
    obtain ⟨hlen',hrest⟩ := ih (fun v hm => hv v (mem_cons_of_mem val hm)) _ hlen
    refine ⟨hlen', fun s => ?_⟩
    rw [foldl_cons, hrest, hfirst, or_assoc]
    simp

theorem mem_synSingles : val ∈ synSingles ↔ ∃ b < 31, val = 1 <<< b := by
  simp [synSingles, eq_comm]

theorem mem_synDoubles :
    val ∈ synDoubles ↔ ∃ a b, a < b ∧ b < 31 ∧ val = 1 <<< a ||| 1 <<< b := by
  simp only [synDoubles, mem_flatMap, mem_range, mem_map, mem_range'_1]
  constructor
  · rintro ⟨a,ha,b,hb,rfl⟩
    exact ⟨a, b, by omega, by omega, rfl⟩
  · rintro ⟨a,b,hab,hb,rfl⟩
    exact ⟨a, by omega, b, by omega, rfl⟩

theorem synPatterns_lt (h : val ∈ synSingles ++ synDoubles) : val < 2^32 := by
  have hall : ∀ v ∈ synSingles ++ synDoubles, v < 2^32 := by decide +kernel
  exact hall val h

theorem bchDecoderInit_spec (s : Nat) : Corrects bchDecoderInit s ↔
    ∃ val ∈ synSingles ++ synDoubles, gf2Remainder bchPolyRa val = s := by
  obtain ⟨hlen,hsingles⟩ := foldl_write_spec writeSingle writeSingle_spec synSingles
    (fun v hv => synPatterns_lt v (mem_append_left _ hv)) (List.replicate 1024 synEmpty)
    length_replicate
  obtain ⟨-,hdoubles⟩ := foldl_write_spec writeDouble writeDouble_spec synDoubles
    (fun v hv => synPatterns_lt v (mem_append_right _ hv)) _ hlen
  have hempty := not_corrects_replicate 1024 s
  rw [bchDecoderInit, hdoubles, hsingles]
  simp only [hempty, false_or, mem_append, or_and_right, exists_or]

section

theorem bitsToUint_eq (n : Nat) :
    bitsToUint bits n = ofBits ((bits.take n).map lsb) := by
  rw [bitsToUint, ofBits, foldl_map]
  congr 1
  funext v b
  rw [and_one_eq_lsb]

theorem bitsToUint_lt (n : Nat) : bitsToUint bits n < 2^n := by
  rw [bitsToUint_eq]
  refine lt_of_lt_of_le (ofBits_lt _) (Nat.pow_le_pow_right (by decide) ?_)
  rw [length_map]
  exact length_take_le n bits

theorem take_flipBit (n i : Nat) :
    (flipBit bits i).take n = flipBit (bits.take n) i := by
  apply ext_getElem?
  intro k
  by_cases hk : k < n
  · simp [flipBit, getElem?_modify, getElem?_take_of_lt hk]
  · simp [flipBit, hk]

theorem bitsToUint_flipBit (i : Nat) (h : 31 ≤ bits.length) (hi : i < 31) :
    bitsToUint (flipBit bits i) 31 = bitsToUint bits 31 ^^^ (1 <<< (30-i)) := by
  have hl : (bits.take 31).length = 31 := by simpa using h
  rw [bitsToUint_eq, bitsToUint_eq, take_flipBit, map_lsb_flipBit,
    ofBits_modify_not _ _ (by rw [length_map, hl]; exact hi), length_map, hl]

def NearCodeword (block : List UInt8) : Prop :=
  ∃ is : List Nat, is.length ≤ 2 ∧ (∀ i ∈ is, i < 31) ∧
    gf2Remainder bchPolyRa (bitsToUint (flipAll block is) 31) = 0

theorem two_bits (a b : Nat) (h : a ≠ b) : 1 <<< a ||| 1 <<< b = 1 <<< a ^^^ 1 <<< b := by
  apply Nat.eq_of_testBit_eq
  intro i
  simp only [Nat.testBit_or, Nat.testBit_xor, Nat.one_shiftLeft, Nat.testBit_two_pow]
  by_cases ha : a = i
  · have hb : b ≠ i := fun hb => h (ha.trans hb.symm)
    simp [ha, hb]
  · simp [ha]

variable {block : List UInt8}

theorem nearCodeword_of_pattern (h : 31 ≤ block.length) {val : Nat}
    (hv : val ∈ synSingles ++ synDoubles)
    (hr : gf2Remainder bchPolyRa val = gf2Remainder bchPolyRa (bitsToUint block 31)) :
    NearCodeword block := by
  rcases mem_append.mp hv with hv | hv
  · obtain ⟨b,hb,rfl⟩ := (mem_synSingles val).mp hv
    refine ⟨[30-b], by simp, by simp; omega, ?_⟩
    change gf2Remainder bchPolyRa (bitsToUint (flipBit block (30-b)) 31) = 0
    rw [bitsToUint_flipBit block _ h (by omega), gf2Remainder_xor_eq_zero,
      show 30-(30-b) = b by omega, hr]
  · obtain ⟨a,b,hab,hb,rfl⟩ := (mem_synDoubles val).mp hv
    refine ⟨[30-a,30-b], by simp, by simp; omega, ?_⟩
    change gf2Remainder bchPolyRa (bitsToUint (flipBit (flipBit block (30-a)) (30-b)) 31) = 0
    rw [bitsToUint_flipBit _ _ (by simpa using h) (by omega),
      bitsToUint_flipBit block _ h (by omega), Nat.xor_assoc, gf2Remainder_xor_eq_zero,
      show 30-(30-a) = a by omega, show 30-(30-b) = b by omega, ← two_bits a b (by omega), hr]

theorem pair_pattern (i j : Nat) (hi : i < 31) (hj : j < 31) :
    1 <<< (30-i) ^^^ 1 <<< (30-j) = 0 ∨ 1 <<< (30-i) ^^^ 1 <<< (30-j) ∈ synDoubles := by
  rcases Nat.lt_trichotomy i j with hlt | rfl | hgt
  · refine Or.inr ((mem_synDoubles _).mpr ⟨30-j, 30-i, by omega, by omega, ?_⟩)
    rw [two_bits _ _ (by omega), Nat.xor_comm]
  · exact Or.inl (Nat.xor_self _)
  · refine Or.inr ((mem_synDoubles _).mpr ⟨30-i, 30-j, by omega, by omega, ?_⟩)
    rw [two_bits _ _ (by omega)]

theorem pattern_of_nearCodeword (h : 31 ≤ block.length) (hn : NearCodeword block) :
    gf2Remainder bchPolyRa (bitsToUint block 31) = 0 ∨ ∃ val ∈ synSingles ++ synDoubles,
      gf2Remainder bchPolyRa val = gf2Remainder bchPolyRa (bitsToUint block 31) := by
  obtain ⟨is,hlen,hlt,hz⟩ := hn
  cases is with
  | nil => exact Or.inl hz
  | cons i is =>
    have hi : i < 31 := hlt i (by simp)
    cases is with
    | nil =>
      change gf2Remainder bchPolyRa (bitsToUint (flipBit block i) 31) = 0 at hz
      rw [bitsToUint_flipBit block i h hi, gf2Remainder_xor_eq_zero] at hz
      exact Or.inr ⟨_, mem_append_left _ ((mem_synSingles _).mpr ⟨30-i, by omega, rfl⟩), hz⟩
    | cons j is =>
      have hj : j < 31 := hlt j (by simp)
      have hnil : is = [] := by
        cases is with
        | nil => rfl
        | cons k is => simp at hlen
      subst hnil
      change gf2Remainder bchPolyRa (bitsToUint (flipBit (flipBit block i) j) 31) = 0 at hz
      rw [bitsToUint_flipBit _ j (by simpa using h) hj, bitsToUint_flipBit block i h hi,
        Nat.xor_assoc, gf2Remainder_xor_eq_zero] at hz
      rcases pair_pattern i j hi hj with h0 | hmem
      · rw [h0] at hz
        exact Or.inl hz.symm
      · exact Or.inr ⟨_, mem_append_right _ hmem, hz⟩

def lightSyndromes : Nat :=
  let hs := synSingles.map (gf2Remainder bchPolyRa)
  Syndromes.mark (0::(hs++Syndromes.pairSums hs))

theorem mem_lightSyndromes {val : Nat} (hv : val ∈ synSingles ++ synDoubles) :
    lightSyndromes.testBit (gf2Remainder bchPolyRa val) = true := by
  have hget : ∀ b < 31, (synSingles.map (gf2Remainder bchPolyRa))[b]? =
      some (gf2Remainder bchPolyRa (1 <<< b)) := by
    intro b hb
    simp [synSingles, hb]
  rw [lightSyndromes, Syndromes.testBit_mark, decide_eq_true_iff]
  apply mem_cons_of_mem
  rcases mem_append.mp hv with hv | hv
  · exact mem_append_left _ (mem_map_of_mem hv)
  · obtain ⟨a,b,hab,hb,rfl⟩ := (mem_synDoubles val).mp hv
    apply mem_append_right
    rw [two_bits a b (by omega), gf2Remainder_xor]
    exact Syndromes.mem_pairSums _ a b _ _ hab (hget a (by omega)) (hget b hb)

theorem not_nearCodeword (h : 31 ≤ block.length)
    (hs : lightSyndromes.testBit (gf2Remainder bchPolyRa (bitsToUint block 31)) = false) :
    ¬ NearCodeword block := by
  intro hn
  rcases pattern_of_nearCodeword h hn with h0 | ⟨val,hv,hr⟩
  · rw [h0, lightSyndromes, Syndromes.testBit_mark] at hs
    simp at hs
  · rw [← hr, mem_lightSyndromes hv] at hs
    cases hs

theorem isSome_bchDecodeBlock (h : 31 ≤ block.length) :
    (bchDecodeBlock block).isSome ↔ NearCodeword block := by
  have hlt : gf2Remainder bchPolyRa (bitsToUint block 31) < 1024 :=
    gf2Remainder_lt _ (lt_of_lt_of_le (bitsToUint_lt block 31) (by decide))
  have hspec := bchDecoderInit_spec (gf2Remainder bchPolyRa (bitsToUint block 31))
  by_cases h0 : gf2Remainder bchPolyRa (bitsToUint block 31) = 0
  · have hnear : NearCodeword block := ⟨[], by simp, by simp, h0⟩
    simp [bchDecodeBlock, h0, hnear]
  have hdec : (bchDecodeBlock block).isSome ↔
      Corrects bchDecoderInit (gf2Remainder bchPolyRa (bitsToUint block 31)) := by
    by_cases hc : Corrects bchDecoderInit (gf2Remainder bchPolyRa (bitsToUint block 31))
    · rw [bchDecodeBlock, if_neg h0, if_pos ⟨hlt, hc⟩]
      simp [hc]
    · rw [bchDecodeBlock, if_neg h0, if_neg fun he => hc he.2]
      simp [hc]
  rw [hdec, hspec]
  constructor
  · rintro ⟨val,hv,hr⟩
    exact nearCodeword_of_pattern h hv hr
  · intro hn
    exact (pattern_of_nearCodeword h hn).resolve_left h0

end

section
variable (soft : List Int16) (lcb : List Nat)

@[simp] theorem length_hardCells : (hardCells soft).length = 31 := by simp [hardCells]

@[simp] theorem length_flipPattern (hard : List UInt8) (p : Nat) :
    (flipPattern hard lcb p).length = hard.length := by
  rw [flipPattern]
  induction List.range lcb.length generalizing hard with
  | nil => rfl
  | cons k ks ih =>
    rw [foldl_cons, ih]
    split
    · exact length_flipBit hard _
    · rfl

theorem softDistance_lt (cw : Nat) : softDistance soft cw < int32Max := by
  have hle : ∀ x ∈ (List.range 31).map (fun i =>
      if cell (cw.testBit (30-i)) ≠ (hardCells soft).getD i 0 then (softAbs soft i).toInt else 0),
      x ≤ 32767 := by
    intro x hx
    obtain ⟨i,-,rfl⟩ := mem_map.mp hx
    have hmax : (softAbs soft i).toInt < 2^15 := (softAbs soft i).toInt_lt
    split <;> omega
  have hsum := sum_le_card_nsmul _ _ hle
  simp only [length_map, length_range, nsmul_eq_mul] at hsum
  rw [softDistance, int32Max]
  omega

def Fresh (best : Best) : Prop := best.2 = none → best.1 = int32Max

theorem chaseTrial_spec (best : Best) (hb : Fresh best) (p : Nat) :
    Fresh (chaseTrial soft lcb best p) ∧ ((chaseTrial soft lcb best p).2.isSome ↔
      best.2.isSome ∨ (bchDecodeBlock (flipPattern (hardCells soft) lcb p)).isSome) := by
  cases hdec : bchDecodeBlock (flipPattern (hardCells soft) lcb p) with
  | none => simpa [chaseTrial, hdec] using hb
  | some found =>
    by_cases hd : softDistance soft (reencode found.2) < best.1
    · simp [chaseTrial, hdec, hd, Fresh]
    · have hsome : best.2.isSome := by
        cases hbest : best.2 with
        | none => exact absurd (softDistance_lt soft _) (by rwa [hb hbest] at hd)
        | some _ => rfl
      simp [chaseTrial, hdec, hd, hb, hsome]

theorem foldl_chaseTrial_spec (ps : List Nat) (best : Best) (hb : Fresh best) :
    (ps.foldl (chaseTrial soft lcb) best).2.isSome ↔
      best.2.isSome ∨ ∃ p ∈ ps, (bchDecodeBlock (flipPattern (hardCells soft) lcb p)).isSome := by
  induction ps generalizing best with
  | nil => simp
  | cons p ps ih =>
    obtain ⟨hfresh,hstep⟩ := chaseTrial_spec soft lcb best hb p
    rw [foldl_cons, ih _ hfresh, hstep, or_assoc]
    simp

def ChaseNear : Prop :=
  ∃ p < 8, NearCodeword (flipPattern (hardCells soft) (leastReliable (softAbs soft) 3) p)

theorem isSome_bchDecodeBlockSoft : (bchDecodeBlockSoft soft 3).isSome ↔ ChaseNear soft := by
  have hfold := foldl_chaseTrial_spec soft (leastReliable (softAbs soft) 3) (List.range 8)
    (int32Max, none) fun _ => rfl
  rw [bchDecodeBlockSoft, ChaseNear]
  refine hfold.trans ?_
  have htrial : ∀ p,
      31 ≤ (flipPattern (hardCells soft) (leastReliable (softAbs soft) 3) p).length :=
    fun p => by simp
  simp [isSome_bchDecodeBlock (htrial _)]

end

end IridiumAcars.BchDecoder
