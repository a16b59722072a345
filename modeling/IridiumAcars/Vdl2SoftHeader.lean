import IridiumAcars.Lib.BitCount
import IridiumAcars.Lib.Selection
import IridiumAcars.Vdl2Demod
import Mathlib.Tactic.IntervalCases

/-! The soft header decision of vdl2_demod.c as a search over three positions. -/
namespace IridiumAcars.Vdl2Demod
open BitCount Selection Vdl2Header List

section
variable (conf : Nat → Int)

/-- A non-empty set of the three least confident positions; of equals the lower is weaker. -/
def WeakSubset (flips : Nat) : Prop :=
  flips ≠ 0 ∧ ∀ b, flips.testBit b = true → b ∈ smallest conf vdl2HdrDataBits vdl2HdrSoftM

def Acceptable (r : HdrDecoded) : Prop :=
  (r.weight ≠ 0 → r.datalen ≤ vdl2MaxFrameBitsCorrected) ∧ r.datalen ≤ vdl2MaxFrameBits ∧
    (vdl2BurstBodyBits r.datalen).isSome = true

/-- Total confidence of the meaningful bits in which two words differ. -/
def disagreement (w c : Nat) : Int :=
  (((List.range vdl2HdrDataBits).filter fun p => w.testBit p != c.testBit p).map conf).sum

/-- The 22 meaningful bits satisfy every row of the check matrix, the reserved ones are 0. -/
def HeaderCodeword (c : Nat) : Prop :=
  c < 2^vdl2HdrDataBits ∧ ∀ i < vdl2HdrFecBits, rowParity c i = false

def lengthField (c : Nat) : Nat := reverseBits ((c >>> vdl2HdrFecBits) &&& 0x1FFFF) vdl2HdrTrlenBits

end

def hdrDecodeSoftCall (hdr : Nat) (confAir : Option (List Int)) (datalen : Nat) : Int × Nat × Nat :=
  match vdl2HdrDecodeSoft hdr confAir with
  | none => (-1, hdr, datalen)
  | some r => (r.weight, r.hdr, r.datalen)

section
variable {conf : Nat → Int}

theorem insertPos_spec (conf : Nat → Int) (l : List Nat) (p n : Nat) (hn : n ≤ l.length) :
    insertPos conf l p n ≤ n ∧
    (∀ a ∈ (l.take n).drop (insertPos conf l p n), conf p < conf a) ∧
    (insertPos conf l p n ≠ 0 →
      ∃ a, l[insertPos conf l p n-1]? = some a ∧ conf a ≤ conf p) := by
  induction n with
  | zero => exact ⟨le_rfl, by simp, fun h => absurd rfl h⟩
  | succ n ih =>
    obtain ⟨hle,hlarge,hstop⟩ := ih (by omega)
    have hget : l[n]? = some (l.getD n 0) := by
      rw [getD_eq_getElem _ _ (by omega), getElem?_eq_getElem (by omega)]
    rw [insertPos]
    split_ifs with hlt
    · refine ⟨by omega, ?_, hstop⟩
      intro a ha
      rw [take_add_one, hget, drop_append_of_le_length (by simp; omega)] at ha
      obtain ha | ha := mem_append.mp ha
      · exact hlarge a ha
      · rw [Option.toList_some, mem_singleton] at ha
        exact ha ▸ hlt
    · refine ⟨le_rfl, ?_, fun _ => ⟨_, hget, not_lt.mp hlt⟩⟩
      intro a ha
      rw [drop_eq_nil_of_le (by simp)] at ha
      cases ha

theorem place_append {l r : List Nat} {p : Nat} (hl : ∀ a ∈ l, conf a ≤ conf p)
    (hr : ∀ a ∈ r, conf p < conf a) : place conf p (l++r) = l++p::r := by
  induction l with
  | nil =>
    cases r with
    | nil => rfl
    | cons a r => rw [nil_append, place, if_pos (hr a mem_cons_self), nil_append]
  | cons a l ih =>
    rw [cons_append, place, if_neg (not_lt.mpr (hl a mem_cons_self)),
      ih fun b hb => hl b (mem_cons_of_mem a hb), cons_append]

theorem insertIdx_eq_append {l : List Nat} {i : Nat} (p : Nat) (h : i ≤ l.length) :
    l.insertIdx i p = l.take i++p::l.drop i := by
  induction l generalizing i with
  | nil =>
    obtain rfl : i = 0 := by simpa using h
    rfl
  | cons a l ih =>
    cases i with
    | zero => rfl
    | succ i =>
      rw [insertIdx_succ_cons, ih (by simpa using h)]
      rfl

theorem insertIdx_insertPos {l : List Nat} (hl : l.Pairwise (Before conf)) (p : Nat) :
    l.insertIdx (insertPos conf l p l.length) p = place conf p l := by
  obtain ⟨hle,hlarge,hstop⟩ := insertPos_spec conf l p l.length le_rfl
  generalize hins : insertPos conf l p l.length = ins at hle hlarge hstop
  rw [take_length] at hlarge
  have hsmall : ∀ a ∈ l.take ins, conf a ≤ conf p := by
    intro a ha
    obtain ⟨i,hi⟩ := mem_iff_getElem?.mp ha
    rw [getElem?_take, Option.ite_none_right_eq_some] at hi
    obtain ⟨b,hb,hbp⟩ := hstop (by omega)
    obtain rfl | hlt := Nat.eq_or_lt_of_le (Nat.le_sub_one_of_lt hi.1)
    · rw [hi.2, Option.some.injEq] at hb
      exact hb ▸ hbp
    · obtain ⟨hi',rfl⟩ := List.getElem?_eq_some_iff.mp hi.2
      obtain ⟨hj',rfl⟩ := List.getElem?_eq_some_iff.mp hb
      obtain h | ⟨h,-⟩ := pairwise_iff_getElem.mp hl i (ins-1) hi' hj' hlt
      · exact h.le.trans hbp
      · exact h.le.trans hbp
  rw [insertIdx_eq_append p hle, ← place_append hsmall hlarge, take_append_drop]

theorem select_sorted (conf : Nat → Int) (n : Nat) :
    (select conf n vdl2HdrSoftM).Pairwise (Before conf) := by
  rw [select_eq_take]
  exact (placeAll_sorted n).sublist (take_sublist _ _)

theorem weakPositions_eq_select :
    weakPositions conf = select conf vdl2HdrDataBits vdl2HdrSoftM := by
  rw [weakPositions]
  generalize vdl2HdrDataBits = n
  induction n with
  | zero => rfl
  | succ n ih =>
    have hsorted := select_sorted conf n
    have hlen : (select conf n vdl2HdrSoftM).length ≤ vdl2HdrSoftM := by
      rw [length_select]
      omega
    rw [range_succ, foldl_append, ih, foldl_cons, foldl_nil, select_succ,
      weakStep, insertIdx_insertPos hsorted]
    by_cases hins : insertPos conf (select conf n vdl2HdrSoftM) n
        (select conf n vdl2HdrSoftM).length ≥ vdl2HdrSoftM
    · have hpos := (insertPos_spec conf (select conf n vdl2HdrSoftM) n _ le_rfl).1
      rw [if_pos hins, ← insertIdx_insertPos hsorted, insertIdx_eq_append n hpos,
        take_append_of_le_length (by rw [length_take]; omega), take_take,
        Nat.min_eq_left hins, take_of_length_le hlen]
    · rw [if_neg hins]

end

section
variable {conf : Nat → Int}

theorem flipPattern_eq_spread {weak : List Nat} (hn : weak.Nodup) (mask : Nat) :
    flipPattern weak mask = spread weak mask := by
  have hloop : ∀ (l : List Nat) (mask test : Nat), l.Nodup →
      (∀ a ∈ l, test.testBit a = false) →
      (List.range l.length).foldl (fun test i =>
        if mask.testBit i then test ||| 1 <<< l.getD i 0 else test) test =
        test ^^^ spread l mask := by
    intro l
    induction l with
    | nil => intro mask test _ _; exact (Nat.xor_zero test).symm
    | cons a l ih =>
      intro mask test hnodup hclear
      obtain ⟨ha,hl⟩ := nodup_cons.mp hnodup
      have hor : test ||| 1 <<< a = test ^^^ 1 <<< a := by
        apply Nat.eq_of_testBit_eq
        intro i
        rw [Nat.testBit_or, Nat.testBit_xor, testBit_one_shiftLeft]
        by_cases hi : a = i
        · rw [← hi, hclear a mem_cons_self]
          simp
        · simp [hi]
      have hnext := ih (mask >>> 1) (if mask.testBit 0 then test ||| 1 <<< a else test) hl (by
        intro b hb
        have hb' := hclear b (mem_cons_of_mem a hb)
        have hne : a ≠ b := fun he => ha (he ▸ hb)
        split
        · rw [Nat.testBit_or, hb', testBit_one_shiftLeft, decide_eq_false hne, Bool.false_or]
        · exact hb')
      rw [length_cons, range_succ_eq_map, foldl_cons, foldl_map, spread]
      simp only [getD_cons_zero, getD_cons_succ]
      simp only [Nat.testBit_shiftRight, Nat.add_comm 1] at hnext
      rw [hnext]
      split
      · rw [hor, Nat.xor_assoc]
      · rw [Nat.zero_xor]
  rw [flipPattern, hloop weak mask 0 hn (fun a _ => Nat.zero_testBit a), Nat.zero_xor]

theorem nodup_weakPositions (conf : Nat → Int) : (weakPositions conf).Nodup := by
  rw [weakPositions_eq_select]
  exact (select_perm_smallest _ _).nodup_iff.mpr (nodup_range.filter _)

theorem mem_weakPositions {b : Nat} :
    b ∈ weakPositions conf ↔ b ∈ smallest conf vdl2HdrDataBits vdl2HdrSoftM := by
  rw [weakPositions_eq_select]
  exact (select_perm_smallest _ _).mem_iff

theorem weakSubset_iff (flips : Nat) : WeakSubset conf flips ↔
    ∃ mask ∈ List.range' 1 (1 <<< (weakPositions conf).length-1),
      flipPattern (weakPositions conf) mask = flips := by
  have hn := nodup_weakPositions conf
  have hlt : ∀ a ∈ weakPositions conf, a < vdl2HdrDataBits := fun a ha =>
    (mem_smallest.mp (mem_weakPositions.mp ha)).1
  have hrange : ∀ mask, mask ∈ List.range' 1 (1 <<< (weakPositions conf).length-1) ↔
      mask ≠ 0 ∧ mask < 2^(weakPositions conf).length := by
    intro mask
    rw [mem_range'_1, Nat.one_shiftLeft]
    have := Nat.two_pow_pos (weakPositions conf).length
    omega
  constructor
  · rintro ⟨hne,hbits⟩
    obtain ⟨p,hp,heq⟩ := exists_spread (l := weakPositions conf) (v := flips)
      fun i hi => mem_weakPositions.mpr (hbits i hi)
    refine ⟨p, (hrange p).mpr ⟨?_, hp⟩, (flipPattern_eq_spread hn p).trans heq⟩
    rintro rfl
    exact hne (heq.symm.trans ((spread_eq_zero_iff hn hlt hp).mpr rfl))
  · rintro ⟨mask,hmask,rfl⟩
    obtain ⟨hne,hmask⟩ := (hrange mask).mp hmask
    rw [flipPattern_eq_spread hn]
    exact ⟨fun h => hne ((spread_eq_zero_iff hn hlt hmask).mp h),
      fun b hb => mem_weakPositions.mp (mem_of_testBit_spread hb)⟩

end

section
variable (conf : Nat → Int) (hdr : Nat)

def softCandidate (mask : Nat) : Option (Int × HdrDecoded) :=
  match vdl2HdrDecode ((hdr &&& hdrMask) ^^^ flipPattern (weakPositions conf) mask) with
  | none => none
  | some r =>
    if lengthPlausible r = false then none
    else if (vdl2BurstBodyBits r.datalen).isNone then none
    else some (softMetric conf ((r.hdr ^^^ (hdr &&& hdrMask)) &&& hdrMask), r)

theorem softStep_eq_keepLeast (best : Option (Int × HdrDecoded)) (mask : Nat) :
    softStep conf (weakPositions conf) (hdr &&& hdrMask) best mask =
      keepLeast (softCandidate conf hdr) best mask := by
  rw [softStep, keepLeast, softCandidate]
  cases vdl2HdrDecode ((hdr &&& hdrMask) ^^^ flipPattern (weakPositions conf) mask) with
  | none => rfl
  | some r =>
    by_cases hl : lengthPlausible r = false
    · simp only [hl, if_true]
    · by_cases hb : (vdl2BurstBodyBits r.datalen).isNone = true
      · simp [hl, hb]
      · simp only [hl, hb, Bool.true_eq_false, Bool.false_eq_true, if_false]
        cases best with
        | none => rfl
        | some b => rfl

theorem acceptable_iff (r : HdrDecoded) : Acceptable r ↔
    ¬ lengthPlausible r = false ∧ ¬ (vdl2BurstBodyBits r.datalen).isNone = true := by
  rw [Acceptable, Bool.not_eq_false, lengthPlausible, Option.isNone_iff_eq_none, ← ne_eq,
    ← Option.isSome_iff_ne_none, ← and_assoc]
  refine and_congr_left fun _ => ?_
  simp only [Bool.not_eq_true', Bool.or_eq_false_iff, Bool.and_eq_false_iff,
    decide_eq_false_iff_not, not_lt, not_not, gt_iff_lt]
  refine and_congr_left fun _ => ?_
  constructor
  · intro h
    by_cases h0 : r.weight = 0
    · exact .inl h0
    · exact .inr (h h0)
  · rintro (h | h) h0
    · exact absurd h h0
    · exact h

theorem vdl2HdrDecode_congr {a b : Nat} (h : a &&& hdrMask = b &&& hdrMask) :
    vdl2HdrDecode a = vdl2HdrDecode b := by
  simp only [vdl2HdrDecode, h]

theorem flipped_mask (flips : Nat) :
    (hdr ^^^ flips) &&& hdrMask = ((hdr &&& hdrMask) ^^^ flips) &&& hdrMask := by
  rw [Nat.and_xor_distrib_right, Nat.and_xor_distrib_right, Nat.and_assoc, Nat.and_self]

theorem softMetric_eq (diff : Nat) : softMetric conf diff =
    (((List.range vdl2HdrDataBits).filter fun p => diff.testBit p).map conf).sum := by
  rw [softMetric]
  generalize List.range vdl2HdrDataBits = ps
  induction ps using List.reverseRecOn with
  | nil => rfl
  | append_singleton ps p ih =>
    rw [foldl_append, ih, filter_append, map_append, sum_append]
    cases hp : diff.testBit p with
    | true => simp [hp]
    | false => simp [hp]

theorem softMetric_disagreement (c : Nat) :
    softMetric conf ((c ^^^ (hdr &&& hdrMask)) &&& hdrMask) = disagreement conf hdr c := by
  rw [softMetric_eq, disagreement]
  congr 2
  apply filter_congr
  intro p hp
  have hbit : hdrMask.testBit p = true := by
    have hmask : hdrMask = 2^22-1 := rfl
    rw [hmask, Nat.testBit_two_pow_sub_one]
    exact decide_eq_true (mem_range.mp hp)
  rw [Nat.testBit_and, Nat.testBit_xor, Nat.testBit_and, hbit, Bool.and_true, Bool.and_true]
  cases c.testBit p <;> cases hdr.testBit p <;> rfl

theorem softCandidate_eq_some (mask : Nat) {x : Int × HdrDecoded} :
    softCandidate conf hdr mask = some x ↔
      vdl2HdrDecode (hdr ^^^ flipPattern (weakPositions conf) mask) = some x.2 ∧
        Acceptable x.2 ∧ x.1 = disagreement conf hdr x.2.hdr := by
  rw [vdl2HdrDecode_congr (flipped_mask hdr _), softCandidate]
  cases vdl2HdrDecode ((hdr &&& hdrMask) ^^^ flipPattern (weakPositions conf) mask) with
  | none => simp
  | some r =>
    simp only [softMetric_disagreement, Option.some.injEq]
    by_cases hacc : Acceptable r
    · obtain ⟨hl,hb⟩ := (acceptable_iff r).mp hacc
      rw [if_neg hl, if_neg hb, Option.some.injEq]
      constructor
      · rintro rfl
        exact ⟨rfl, hacc, rfl⟩
      · rintro ⟨rfl,-,h⟩
        exact Prod.ext h.symm rfl
    · constructor
      · intro h
        refine absurd ((acceptable_iff r).mpr ?_) hacc
        by_cases hl : lengthPlausible r = false
        · rw [if_pos hl] at h
          cases h
        · rw [if_neg hl] at h
          by_cases hb : (vdl2BurstBodyBits r.datalen).isNone = true
          · rw [if_pos hb] at h
            cases h
          · exact ⟨hl, hb⟩
      · rintro ⟨rfl,h,-⟩
        exact absurd h hacc

theorem vdl2HdrDecodeSoft_cases (confAir : Option (List Int)) :
    (vdl2HdrDecodeSoft hdr confAir = none ∧ ∀ flips r, WeakSubset (confAt confAir) flips →
      vdl2HdrDecode (hdr ^^^ flips) = some r → ¬ Acceptable r) ∨
    ∃ r, vdl2HdrDecodeSoft hdr confAir = some r ∧ Acceptable r ∧
      (∃ flips, WeakSubset (confAt confAir) flips ∧ vdl2HdrDecode (hdr ^^^ flips) = some r) ∧
      ∀ flips r', WeakSubset (confAt confAir) flips → vdl2HdrDecode (hdr ^^^ flips) = some r' →
        Acceptable r' →
          disagreement (confAt confAir) hdr r.hdr ≤ disagreement (confAt confAir) hdr r'.hdr := by
  have hsearch : vdl2HdrDecodeSoft hdr confAir =
      ((List.range' 1 (1 <<< (weakPositions (confAt confAir)).length-1)).foldl
        (keepLeast (softCandidate (confAt confAir) hdr)) none).map (·.2) := by
    rw [vdl2HdrDecodeSoft]
    congr 2
    funext best mask
    exact softStep_eq_keepLeast _ hdr best mask
  obtain ⟨hnone,hall⟩ | ⟨b,hb,⟨mask,hmask,hcand⟩,hleast⟩ :=
    foldl_keepLeast (softCandidate (confAt confAir) hdr)
      (List.range' 1 (1 <<< (weakPositions (confAt confAir)).length-1))
  · left
    refine ⟨by rw [hsearch, hnone]; rfl, fun flips r hf hdec hacc => ?_⟩
    obtain ⟨mask,hmask,rfl⟩ := (weakSubset_iff flips).mp hf
    have hsome := (softCandidate_eq_some (confAt confAir) hdr mask
      (x := (disagreement (confAt confAir) hdr r.hdr, r))).mpr ⟨hdec, hacc, rfl⟩
    rw [hall mask hmask] at hsome
    cases hsome
  · right
    obtain ⟨hdec,hacc,hcost⟩ := (softCandidate_eq_some _ hdr mask).mp hcand
    refine ⟨b.2, by rw [hsearch, hb]; rfl, hacc,
      ⟨_, (weakSubset_iff _).mpr ⟨mask, hmask, rfl⟩, hdec⟩, fun flips r' hf hdec' hacc' => ?_⟩
    obtain ⟨mask',hmask',rfl⟩ := (weakSubset_iff flips).mp hf
    have hsome := (softCandidate_eq_some (confAt confAir) hdr mask'
      (x := (disagreement (confAt confAir) hdr r'.hdr, r'))).mpr ⟨hdec', hacc', rfl⟩
    exact hcost ▸ hleast mask' hmask' _ hsome

end

theorem vdl2HdrDecode_codeword {w : Nat} {r : HdrDecoded} (h : vdl2HdrDecode w = some r) :
    HeaderCodeword r.hdr ∧ r.datalen = lengthField r.hdr := by
  obtain ⟨d,hd,e,he,hw⟩ := (decode_isSome_iff w).mp (by rw [h]; rfl)
  obtain ⟨weight,hdec⟩ := vdl2HdrDecode_near hd he hw
  obtain ⟨hlt,hsyn⟩ := hdrSyndrome_encode d hd
  rw [h, Option.some.injEq] at hdec
  have hfield : r.datalen = lengthField r.hdr := by
    simp only [vdl2HdrDecode] at h
    split at h
    · cases h
    · cases h
      rfl
  refine ⟨⟨by rw [hdec]; exact hlt, fun i hi => ?_⟩, hfield⟩
  have hbits : ∀ a b c d e : Bool, BitWord.ofBits [a, b, c, d, e] = 0 →
      ∀ i < 5, [a, b, c, d, e].getD i false = false := by decide
  rw [hdrSyndrome_eq] at hsyn
  have hrow := hbits _ _ _ _ _ hsyn i hi
  have hi' : i < 5 := hi
  rw [hdec]
  interval_cases i <;> exact hrow

theorem hdrDecodeSoftCall_none {hdr : Nat} {confAir : Option (List Int)}
    (h : vdl2HdrDecodeSoft hdr confAir = none) (datalen : Nat) :
    hdrDecodeSoftCall hdr confAir datalen = (-1, hdr, datalen) := by
  unfold hdrDecodeSoftCall
  rw [h]

theorem hdrDecodeSoftCall_some {hdr : Nat} {confAir : Option (List Int)} {r : HdrDecoded}
    (h : vdl2HdrDecodeSoft hdr confAir = some r) (datalen : Nat) :
    hdrDecodeSoftCall hdr confAir datalen = (↑r.weight, r.hdr, r.datalen) := by
  unfold hdrDecodeSoftCall
  rw [h]

/-- The nearest acceptable header that flips of three positions lead to, or no change. -/
theorem soft_header_decision (hdr datalen : Nat) (confAir : Option (List Int)) :
    let conf := confAt confAir
    let out := hdrDecodeSoftCall hdr confAir datalen
    (0 ≤ out.1 ∧ HeaderCodeword out.2.1 ∧ out.2.2 = lengthField out.2.1 ∧
      Acceptable ⟨out.1.toNat, out.2.1, out.2.2⟩ ∧
      (∃ flips, WeakSubset conf flips ∧
        vdl2HdrDecode (hdr ^^^ flips) = some ⟨out.1.toNat, out.2.1, out.2.2⟩) ∧
      ∀ flips r, WeakSubset conf flips → vdl2HdrDecode (hdr ^^^ flips) = some r → Acceptable r →
        disagreement conf hdr out.2.1 ≤ disagreement conf hdr r.hdr) ∨
    (out.1 = -1 ∧ out.2.1 = hdr ∧ out.2.2 = datalen ∧
      ∀ flips r, WeakSubset conf flips → vdl2HdrDecode (hdr ^^^ flips) = some r →
        ¬ Acceptable r) := by
  intro conf out
  obtain ⟨hnone,hall⟩ | ⟨r,hr,hacc,⟨flips,hf,hdec⟩,hleast⟩ := vdl2HdrDecodeSoft_cases hdr confAir
  · have hout : out = (-1, hdr, datalen) := hdrDecodeSoftCall_none hnone datalen
    right
    rw [hout]
    exact ⟨rfl, rfl, rfl, hall⟩
  · have hout : out = (↑r.weight, r.hdr, r.datalen) := hdrDecodeSoftCall_some hr datalen
    obtain ⟨hcode,hlen⟩ := vdl2HdrDecode_codeword hdec
    left
    rw [hout]
    exact ⟨Int.natCast_nonneg _, hcode, hlen, hacc, ⟨flips, hf, hdec⟩, hleast⟩

/-- Two header bits of a 24-bit transmission misread at low confidence are restored. -/
example : hdrDecodeSoftCall (vdl2HdrEncode 24 ^^^ 3)
    (some (List.replicate 23 24576++[0, 0])) 7 = (1, vdl2HdrEncode 24, 24) := by
  decide +kernel

end IridiumAcars.Vdl2Demod
