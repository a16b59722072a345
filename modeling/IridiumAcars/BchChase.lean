import IridiumAcars.BchBoundedDistance
import IridiumAcars.Lib.Selection

/-! The Chase retry of bch_decoder.c as a search for a reachable codeword of least soft distance. -/
namespace IridiumAcars.BchDecoder
open BitWord BitCount WordDivision Selection Bch Interleave List

section
variable (soft : List Int16)

def magnitude (i : Nat) : Int := |(soft.getD i 0).toInt|

def hardWord : Nat := bitsToUint (hardCells soft) 31

def Flips (K flips : Nat) : Prop :=
  ∀ b, flips.testBit b = true → b < 31 ∧ 30-b ∈ smallest (magnitude soft) 31 K

/-- Some flips of the least reliable cells lead within distance two of the codeword. -/
def Reached (K c : Nat) : Prop :=
  Codeword c ∧ ∃ flips, Flips soft K flips ∧ hammingDistance c (hardWord soft ^^^ flips) ≤ 2

def disagreement (c : Nat) : Int :=
  ((List.range 31).map fun i =>
    if cell (c.testBit (30-i)) ≠ (hardCells soft).getD i 0 then magnitude soft i else 0).sum

end

section

/-- No entry is the one value whose negation wraps. -/
def Negatable (soft : List Int16) : Prop := ∀ s ∈ soft, s ≠ -32768

variable {soft : List Int16}

theorem softAbs_toInt (h : Negatable soft) (i : Nat) :
    (softAbs soft i).toInt = magnitude soft i := by
  have hne : (soft.getD i 0).toInt ≠ -32768 := by
    intro he
    have hmin : soft.getD i 0 = -32768 := Int16.toInt_inj.mp he
    by_cases hi : i < soft.length
    · rw [getD_eq_getElem _ _ hi] at hmin
      exact h _ (getElem_mem hi) hmin
    · rw [getD_eq_default _ _ (by omega)] at hmin
      exact absurd hmin (by decide)
  have hlow := (soft.getD i 0).le_toInt
  have hhigh := (soft.getD i 0).toInt_lt
  rw [softAbs, magnitude]
  by_cases hs : soft.getD i 0 < 0
  · have hneg : (soft.getD i 0).toInt < 0 := Int16.lt_iff_toInt_lt.mp hs
    rw [if_pos hs, abs_of_neg hneg, Int16.toInt_neg, Int.bmod_eq_of_le] <;> omega
  · have hpos : 0 ≤ (soft.getD i 0).toInt := Int.not_lt.mp fun hn =>
      hs (Int16.lt_iff_toInt_lt.mpr hn)
    rw [if_neg hs, abs_of_nonneg hpos]

theorem insertLcb_eq_place (h : Negatable soft) (i : Nat) (lcb : List Nat) :
    insertLcb (softAbs soft) i lcb = place (magnitude soft) i lcb := by
  induction lcb with
  | nil => rfl
  | cons j lcb ih =>
    have hiff : softAbs soft i < softAbs soft j ↔ magnitude soft i < magnitude soft j := by
      rw [Int16.lt_iff_toInt_lt, softAbs_toInt h, softAbs_toInt h]
    simp only [insertLcb, place, hiff, ih]

theorem leastReliable_eq_select (h : Negatable soft) (K : Nat) :
    leastReliable (softAbs soft) K = select (magnitude soft) 31 K := by
  simp only [leastReliable, select, insertLcb_eq_place h]

theorem softDistance_eq (h : Negatable soft) (c : Nat) :
    softDistance soft c = disagreement soft c := by
  simp only [softDistance, disagreement, softAbs_toInt h]

end

theorem flipPattern_cons (hard : List UInt8) (a : Nat) (lcb : List Nat) (p : Nat) :
    flipPattern hard (a::lcb) p =
      flipPattern (if p.testBit 0 then flipBit hard a else hard) lcb (p >>> 1) := by
  rw [flipPattern, flipPattern, length_cons, range_succ_eq_map, foldl_cons,
    foldl_map]
  simp [Nat.add_comm 1]

theorem bitsToUint_flipPattern (hard : List UInt8) (lcb : List Nat) (p : Nat)
    (hl : hard.length = 31) (hlt : ∀ a ∈ lcb, a < 31) :
    bitsToUint (flipPattern hard lcb p) 31 =
      bitsToUint hard 31 ^^^ spread (lcb.map (30-·)) p := by
  induction lcb generalizing hard p with
  | nil => exact (Nat.xor_zero _).symm
  | cons a lcb ih =>
    have ha := hlt a mem_cons_self
    have htail := fun b hb => hlt b (mem_cons_of_mem a hb)
    rw [flipPattern_cons, map_cons, spread]
    split
    · rw [ih _ _ (by simpa using hl) htail, bitsToUint_flipBit hard a (by omega) ha, Nat.xor_assoc]
    · rw [ih _ _ hl htail, Nat.zero_xor]

theorem bitsToUint_dataCells {c : Nat} (h : c < 2^31) : bitsToUint (dataCells c) 21 = c >>> 10 := by
  have hlt : c >>> 10 < 2^21 := by
    rw [Nat.shiftRight_eq_div_pow]
    omega
  have hcells : (dataCells c).take 21 = dataCells c := take_of_length_le (by simp [dataCells])
  rw [bitsToUint_eq, hcells, dataCells, map_map]
  have hlsb : lsb ∘ cell = id := by
    funext b
    cases b <;> rfl
  rw [hlsb, map_id, ofBits_toBits 21 _ hlt]

theorem reencode_dataCells {c : Nat} (h : Codeword c) : reencode (dataCells c) = c := by
  have hsplit : c = (c >>> 10) <<< 10 ^^^ c % 2^10 := by
    apply Nat.eq_of_testBit_eq
    intro i
    rw [Nat.testBit_xor, Nat.testBit_shiftLeft, Nat.testBit_mod_two_pow, Nat.testBit_shiftRight]
    by_cases hi : i < 10
    · simp [hi, Nat.not_le.mpr hi]
    · simp [hi, Nat.not_lt.mp hi]
  have hlow : gf2Remainder bchPolyRa (c % 2^10) = c % 2^10 := by
    rw [gf2Remainder_eq, divide_of_lt _ _ _ _ (Nat.mod_lt _ (Nat.two_pow_pos 10))]
  have hrem : gf2Remainder bchPolyRa ((c >>> 10) <<< 10) = c % 2^10 := by
    have hzero := h.remainder
    rwa [hsplit, gf2Remainder_xor, hlow, Nat.xor_eq_zero_iff] at hzero
  rw [reencode, bitsToUint_dataCells h.lt, hrem]
  have hor : (c >>> 10) <<< 10 ||| c % 2^10 = (c >>> 10) <<< 10 ^^^ c % 2^10 := by
    apply Nat.eq_of_testBit_eq
    intro i
    rw [Nat.testBit_or, Nat.testBit_xor, Nat.testBit_shiftLeft, Nat.testBit_mod_two_pow]
    by_cases hi : i < 10
    · simp [hi, Nat.not_le.mpr hi]
    · simp [hi]
  rw [hor, ← hsplit]

section
variable (soft : List Int16) (K : Nat)

def lcbPlaces : List Nat := (select (magnitude soft) 31 K).map (30-·)

def trialWord (p : Nat) : Nat := hardWord soft ^^^ spread (lcbPlaces soft K) p

theorem mem_lcb {i : Nat} :
    i ∈ select (magnitude soft) 31 K ↔ i ∈ smallest (magnitude soft) 31 K :=
  (select_perm_smallest 31 K).mem_iff

theorem lcb_lt {i : Nat} (h : i ∈ select (magnitude soft) 31 K) : i < 31 :=
  (mem_smallest.mp ((mem_lcb soft K).mp h)).1

theorem lcbPlaces_lt : ∀ b ∈ lcbPlaces soft K, b < 31 := by
  intro b hb
  obtain ⟨i,-,rfl⟩ := mem_map.mp hb
  omega

theorem lcbPlaces_nodup : (lcbPlaces soft K).Nodup := by
  have hlcb : (select (magnitude soft) 31 K).Nodup :=
    (select_perm_smallest 31 K).nodup_iff.mpr (nodup_range.filter _)
  refine hlcb.map_on fun i hi j hj he => ?_
  have := lcb_lt soft K hi
  have := lcb_lt soft K hj
  omega

theorem length_lcbPlaces (h : K ≤ 6) : (lcbPlaces soft K).length = K := by
  rw [lcbPlaces, length_map, length_select]
  omega

theorem flips_iff (h : K ≤ 6) (flips : Nat) :
    Flips soft K flips ↔ ∃ p, p < 2^K ∧ spread (lcbPlaces soft K) p = flips := by
  constructor
  · intro hf
    have hmem : ∀ b, flips.testBit b = true → b ∈ lcbPlaces soft K := by
      intro b hb
      obtain ⟨hlt,hin⟩ := hf b hb
      exact mem_map.mpr ⟨30-b, (mem_lcb soft K).mpr hin, by omega⟩
    obtain ⟨p,hp,heq⟩ := exists_spread hmem
    rw [length_lcbPlaces soft K h] at hp
    exact ⟨p, hp, heq⟩
  · rintro ⟨p,-,rfl⟩ b hb
    obtain ⟨i,hi,rfl⟩ := mem_map.mp (mem_of_testBit_spread hb)
    have hlt := lcb_lt soft K hi
    refine ⟨by omega, ?_⟩
    rw [show 30-(30-i) = i by omega]
    exact (mem_lcb soft K).mp hi

theorem reached_iff (h : K ≤ 6) (c : Nat) : Reached soft K c ↔
    Codeword c ∧ ∃ p, p < 2^K ∧ hammingDistance c (trialWord soft K p) ≤ 2 := by
  refine and_congr_right fun _ => ⟨?_, ?_⟩
  · rintro ⟨flips,hf,hd⟩
    obtain ⟨p,hp,rfl⟩ := (flips_iff soft K h flips).mp hf
    exact ⟨p, hp, hd⟩
  · rintro ⟨p,hp,hd⟩
    exact ⟨_, (flips_iff soft K h _).mpr ⟨p, hp, rfl⟩, hd⟩

def trial (p : Nat) : Option (Int × Int × List UInt8) :=
  (bchDecodeBlock (flipPattern (hardCells soft) (select (magnitude soft) 31 K) p)).map fun found =>
    (softDistance soft (reencode found.2), found.1+popcount p, found.2)

theorem chaseTrial_eq_keepLess :
    chaseTrial soft (select (magnitude soft) 31 K) = keepLess (trial soft K) := by
  funext best p
  rw [chaseTrial, keepLess, trial]
  cases bchDecodeBlock (flipPattern (hardCells soft) (select (magnitude soft) 31 K) p) <;> rfl

variable {soft} {K}

theorem bchDecodeBlockSoft_eq (h : Negatable soft) (hK : K ≤ 6) : bchDecodeBlockSoft soft K =
    ((List.range (2^K)).foldl (keepLess (trial soft K)) (int32Max, none)).2 := by
  rw [bchDecodeBlockSoft, Nat.min_eq_left hK, leastReliable_eq_select h, chaseTrial_eq_keepLess,
    Nat.one_shiftLeft]

theorem trial_word (p : Nat) :
    bitsToUint (flipPattern (hardCells soft) (select (magnitude soft) 31 K) p) 31 =
      trialWord soft K p :=
  bitsToUint_flipPattern _ _ p (length_hardCells soft) fun _ => lcb_lt soft K

theorem trial_near (h : Negatable soft) {c p : Nat} (hc : Codeword c)
    (hd : hammingDistance c (trialWord soft K p) ≤ 2) : trial soft K p =
      some (disagreement soft c, (hammingDistance c (trialWord soft K p) : Int)+popcount p,
        dataCells c) := by
  rw [← trial_word] at hd
  rw [trial, bchDecodeBlock_near hc hd, Option.map_some, reencode_dataCells hc, softDistance_eq h,
    trial_word]

theorem trial_cases (h : Negatable soft) (p : Nat) :
    (trial soft K p = none ∧ ∀ c, Codeword c → ¬ hammingDistance c (trialWord soft K p) ≤ 2) ∨
    ∃ c, Codeword c ∧ hammingDistance c (trialWord soft K p) ≤ 2 := by
  cases ht : trial soft K p with
  | none =>
    refine .inl ⟨rfl, fun c hc hd => ?_⟩
    rw [trial_near h hc hd] at ht
    cases ht
  | some x =>
    have hsome : (bchDecodeBlock
        (flipPattern (hardCells soft) (select (magnitude soft) 31 K) p)).isSome := by
      rw [← Option.isSome_map, ← trial, ht]
      rfl
    rw [← trial_word]
    exact .inr (near_of_bchDecodeBlock hsome)

theorem flips_disagree (h : Negatable soft) {c p n : Nat} {b : Int × List UInt8}
    (hc : Codeword c) (hd : hammingDistance c (trialWord soft K p) ≤ 2)
    (hfirst : FirstLeast (trial soft K) n (disagreement soft c) b p) (i : Nat)
    (hi : (spread (lcbPlaces soft K) p).testBit i = true) :
    (c ^^^ hardWord soft).testBit i = true := by
  by_contra hagree
  obtain ⟨k,hk,hbit,hone⟩ := exists_bit_of_spread hi
  have hword : c ^^^ trialWord soft K (p ^^^ 1 <<< k) = (c ^^^ trialWord soft K p) ^^^ 1 <<< i := by
    rw [trialWord, trialWord, spread_xor, hone, ← Nat.xor_assoc, ← Nat.xor_assoc, ← Nat.xor_assoc]
  have hwrong : (c ^^^ trialWord soft K p).testBit i = true := by
    rw [trialWord, ← Nat.xor_assoc, Nat.testBit_xor, Bool.eq_false_iff.mpr hagree, hi]
    rfl
  have hless := weight_clear (lcbPlaces_lt soft K i (mem_of_testBit_spread hi)) hwrong
  rw [← hword] at hless
  have hnear : hammingDistance c (trialWord soft K (p ^^^ 1 <<< k)) ≤ 2 := by
    rw [hammingDistance] at hd ⊢
    omega
  have hlt := hfirst.first _ (xor_one_shiftLeft_lt_self hbit) _ (trial_near h hc hnear)
  exact lt_irrefl _ hlt

theorem errors_eq_distance (h : Negatable soft) (hK : K ≤ 6) {c p : Nat} {b : Int × List UInt8}
    (hc : Codeword c) (hd : hammingDistance c (trialWord soft K p) ≤ 2)
    (hfirst : FirstLeast (trial soft K) (2^K) (disagreement soft c) b p) :
    hammingDistance c (trialWord soft K p)+popcount p = hammingDistance c (hardWord soft) := by
  have hsplit := weight_xor_add (flips_disagree h hc hd hfirst) 31
  have hpop : popcount p = weight 31 (spread (lcbPlaces soft K) p) := by
    rw [weight_spread (lcbPlaces_nodup soft K) (lcbPlaces_lt soft K), length_lcbPlaces soft K hK]
    exact weight_of_lt hfirst.lt (by omega)
  rw [hpop, hammingDistance, hammingDistance, ← hsplit, trialWord, Nat.xor_assoc]

end

/-- The soft decoder returns a reached codeword of least soft distance, or none is reached. -/
theorem bch_decode_block_soft_closest (soft : List Int16) (hsoft : ∀ s ∈ soft, s ≠ -32768)
    (K : Nat) (hK : K ≤ 6) :
    (bchDecodeBlockSoft soft K = none ↔ ∀ c, ¬ Reached soft K c) ∧
    ∀ errs data, bchDecodeBlockSoft soft K = some (errs, data) → ∃ c, Reached soft K c ∧
      data = dataCells c ∧ errs = (hammingDistance c (hardWord soft) : Int) ∧
      ∀ c', Reached soft K c' → disagreement soft c ≤ disagreement soft c' := by
  have htop : ∀ p x, trial soft K p = some x → x.1 < int32Max := by
    intro p x hx
    obtain ⟨found,-,rfl⟩ := Option.map_eq_some_iff.mp hx
    exact softDistance_lt soft _
  rw [bchDecodeBlockSoft_eq hsoft hK]
  obtain ⟨hbest,hnone⟩ | ⟨p,d,b,hbest,hfirst⟩ := foldl_keepLess htop (2^K)
  · rw [hbest]
    refine ⟨⟨fun _ c hr => ?_, fun _ => rfl⟩, fun errs data he => by cases he⟩
    obtain ⟨hc,q,hq,hd⟩ := (reached_iff soft K hK c).mp hr
    have hfound := trial_near hsoft hc hd
    rw [hnone q hq] at hfound
    cases hfound
  · rw [hbest]
    obtain ⟨hmiss,-⟩ | ⟨c,hc,hd⟩ := trial_cases (K := K) hsoft p
    · rw [hfirst.found] at hmiss
      cases hmiss
    · have hfound := hfirst.found
      rw [trial_near hsoft hc hd] at hfound
      cases hfound
      have hreach : Reached soft K c := (reached_iff soft K hK c).mpr ⟨hc, p, hfirst.lt, hd⟩
      refine ⟨⟨(fun he => by cases he), fun hr => absurd hreach (hr c)⟩, fun errs data he => ?_⟩
      cases he
      refine ⟨c, hreach, rfl, ?_, fun c' hr' => ?_⟩
      · rw [← errors_eq_distance hsoft hK hc hd hfirst, Nat.cast_add]
      · obtain ⟨hc',q,hq,hd'⟩ := (reached_iff soft K hK c').mp hr'
        exact hfirst.least q hq _ (trial_near hsoft hc' hd')

theorem flips_one {soft : List Int16} {K b : Nat} (hb : b < 31)
    (h : 30-b ∈ smallest (magnitude soft) 31 K) : Flips soft K (1 <<< b) := by
  intro a ha
  rw [testBit_one_shiftLeft, decide_eq_true_eq] at ha
  exact ha ▸ ⟨hb, h⟩

/-- Three errors, one of them in the least reliable cell. -/
theorem bch_decode_block_soft_three_errors :
    bchDecodeBlockSoft ([-50,-1000,-1000] ++ List.replicate 28 1000) 1 ≠ none := by
  intro hnone
  have hall : ([-50,-1000,-1000] ++ List.replicate 28 1000 : List Int16).all (· != -32768) := by
    decide
  have hsoft := fun s hs => bne_iff_ne.mp (all_eq_true.mp hall s hs)
  refine (bch_decode_block_soft_closest _ hsoft 1 (by decide)).1.mp hnone 0
    ⟨⟨0, by decide, by decide⟩, 1 <<< 30, flips_one (by decide) (by decide), by decide⟩

theorem isSome_soft_iff (soft : List Int16) {K : Nat} (hK : K ≤ 6) :
    (bchDecodeBlockSoft soft K).isSome ↔ ∃ p < 2^K, (bchDecodeBlock
      (flipPattern (hardCells soft) (leastReliable (softAbs soft) K) p)).isSome := by
  rw [bchDecodeBlockSoft, Nat.min_eq_left hK, Nat.one_shiftLeft]
  refine (foldl_chaseTrial_spec soft _ _ (int32Max, none) fun _ => rfl).trans ?_
  simp

/-- The most negative value is taken for the least reliable: the pattern that would decode is
not tried. -/
theorem wrapped_magnitude_missed :
    bchDecodeBlockSoft (List.replicate 26 (-1000) ++ [-32768,-1000,1000,1000,1]) 1 = none ∧
    Reached (List.replicate 26 (-1000) ++ [-32768,-1000,1000,1000,1]) 1 (2^31-1) := by
  refine ⟨?_, ⟨1893017, by decide, by decide⟩, 1 <<< 0, flips_one (by decide) (by decide),
    by decide⟩
  rw [← Option.not_isSome_iff_eq_none, isSome_soft_iff _ (by decide)]
  rintro ⟨p,hp,hdec⟩
  have hfar : ∀ q < 2^1, lightSyndromes.testBit (gf2Remainder bchPolyRa (bitsToUint
      (flipPattern (hardCells (List.replicate 26 (-1000) ++ [-32768,-1000,1000,1000,1]))
        (leastReliable (softAbs (List.replicate 26 (-1000) ++ [-32768,-1000,1000,1000,1])) 1) q)
        31)) = false := by decide +kernel
  exact not_nearCodeword (by simp) (hfar p hp) ((isSome_bchDecodeBlock (by simp)).mp hdec)

end IridiumAcars.BchDecoder
