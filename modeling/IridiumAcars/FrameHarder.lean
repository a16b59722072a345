import IridiumAcars.BchRepair
import IridiumAcars.FrameClassify

/-! The relaxed pass of the frame classifier adds to the strict one and takes nothing away. -/
namespace IridiumAcars.FrameClassify
open BitWord WordDivision Bch IndexMap Interleave List

variable {reg : SynRegistry} {p : List UInt8}

def InCode (poly : UInt32) (d : Nat) (word : List UInt8) : Prop :=
  ∃ q, q < 2^(word.length-d) ∧
    ofBits (word.map lsb) = multiple poly.toNat (word.length-d) q

section
variable {poly : UInt32} {d : Nat} {word : List UInt8}

theorem ndivide_eq_zero_iff (hp : u32BitLength poly.toNat = d+1) (hd : d < word.length)
    (hl : word.length ≤ 32) : iridiumBchNdivide poly word = 0 ↔ InCode poly d word := by
  obtain ⟨hlt,htop⟩ := bitLength_spec poly d hp
  have hword : ofBits (word.map lsb) < 2^(word.length-d+d) := by
    have h := ofBits_lt (word.map lsb)
    rw [length_map] at h
    rwa [Nat.sub_add_cancel (by omega)]
  rw [iridiumBchNdivide, if_neg (by omega), polyModU32_divide poly d _ hp (bitsToU32_lt word),
    bitsToU32_eq word hl, show 32 = word.length-d+(32-(word.length-d)) by omega,
    divide_add _ _ _ _ _ hword, divide_eq_zero_iff _ _ _ _ hlt htop]
  rfl

theorem repair1_clean (reg : SynRegistry) (hn : word.length ≠ 0)
    (h : iridiumBchNdivide poly word = 0) : iridiumBchRepair1 reg poly word = (reg, 0, word) := by
  simp only [iridiumBchRepair1, if_neg hn, h, if_true]

theorem repair2_clean (reg : SynRegistry) (hn : word.length ≠ 0)
    (h : iridiumBchNdivide poly word = 0) : iridiumBchRepair2 reg poly word = (reg, 0, word) := by
  simp only [iridiumBchRepair2, if_neg hn, h, if_true]

theorem repair2Ref_eq_zero_iff (hn : word.length ≠ 0) :
    (iridiumBchRepair2Ref poly word).1 = 0 ↔ iridiumBchNdivide poly word = 0 := by
  rw [iridiumBchRepair2Ref, if_neg hn]
  by_cases h : iridiumBchNdivide poly word = 0
  · simp [h]
  · rw [if_neg h]
    simp only [h, iff_false]
    split
    · simp
    · split <;> simp

theorem repair2Ref_single {i : Nat} (hp : u32BitLength poly.toNat = d+1)
    (hl : word.length ≤ synMaxNBits) (hi : i < word.length)
    (hdirty : iridiumBchNdivide poly word ≠ 0)
    (h : iridiumBchNdivide poly (flipBit word i) = 0) :
    (iridiumBchRepair2Ref poly word).1 = 1 := by
  rw [repair2Ref_eq poly d word hp hl (by omega) hdirty]
  cases hf : firstSingle poly word.length (iridiumBchNdivide poly word) with
  | some j => rfl
  | none =>
    rw [← find_single poly d word hp hl] at hf
    have := find?_eq_none.mp hf i (mem_range.mpr hi)
    simp [h] at this

end

theorem length_lcwWords (p : List UInt8) : (lcwWords p).1.length = 7 ∧
    (lcwWords p).2.1.length = 13 ∧ (lcwWords p).2.2.length = 26 := by
  have h : (gather 0 lcwTbl p).length = 46 := by simp [gather, lcwTbl]
  simp [lcwWords, h]

theorem missing_bit_iff {lcw2 : List UInt8} (hl : lcw2.length = 13) :
    (iridiumBchRepair2Ref 465 (lcw2++[0])).1 = 0 ∨
      (iridiumBchRepair2Ref 465 (lcw2++[0])).1 = 1 ∧
        (iridiumBchRepair2Ref 465 (lcw2++[1])).1 = 0 ↔
      ∃ b : Bool, InCode 465 8 (lcw2++[cell b]) := by
  have hp : u32BitLength (465 : UInt32).toNat = 8+1 := by decide
  have hlen : ∀ b, (lcw2++[cell b]).length = 14 := by simp [hl]
  have hcode : ∀ b, (iridiumBchRepair2Ref 465 (lcw2++[cell b])).1 = 0 ↔
      InCode 465 8 (lcw2++[cell b]) := by
    intro b
    rw [repair2Ref_eq_zero_iff (by rw [hlen]; decide),
      ndivide_eq_zero_iff hp (by rw [hlen]; decide) (by rw [hlen]; decide)]
  have hflip : flipBit (lcw2++[cell false]) 13 = lcw2++[cell true] := by
    apply ext_getElem?
    intro k
    rw [flipBit, getElem?_modify, getElem?_append, getElem?_append, hl]
    by_cases hk : k < 13
    · have hne : ¬ 13 = k := by omega
      simp [hk, hne]
    · by_cases h13 : 13 = k
      · subst h13
        rfl
      · simp [hk, h13, show k-13 ≠ 0 by omega]
  change (iridiumBchRepair2Ref 465 (lcw2++[cell false])).1 = 0 ∨
    (iridiumBchRepair2Ref 465 (lcw2++[cell false])).1 = 1 ∧
      (iridiumBchRepair2Ref 465 (lcw2++[cell true])).1 = 0 ↔ _
  constructor
  · rintro (h | ⟨-,h⟩)
    · exact ⟨false, (hcode false).mp h⟩
    · exact ⟨true, (hcode true).mp h⟩
  · rintro ⟨b,hb⟩
    cases b with
    | false => exact .inl ((hcode false).mpr hb)
    | true =>
      by_cases h0 : (iridiumBchRepair2Ref 465 (lcw2++[cell false])).1 = 0
      · exact .inl h0
      · have hzero := (repair2Ref_eq_zero_iff (by rw [hlen]; decide)).mp ((hcode true).mpr hb)
        refine .inr ⟨repair2Ref_single (i := 13) hp (by rw [hlen]; decide) (by rw [hlen]; decide)
          ?_ (by rw [hflip]; exact hzero), (hcode true).mpr hb⟩
        intro h
        exact h0 ((repair2Ref_eq_zero_iff (by rw [hlen]; decide)).mpr h)

theorem classifyLw_eq_some (hv : RegistryValid reg) (hlen : 46 ≤ p.length) (s : IrLwSubtype) :
    (classifyLw reg p).2 = some s ↔
      (InCode 29 4 (lcwWords p).1 ∧ InCode 41 5 (lcwWords p).2.2 ∧
        ∃ b : Bool, InCode 465 8 ((lcwWords p).2.1++[cell b])) ∧
      s = lwSubtypeOf (lcwWords p).1 := by
  obtain ⟨h1,h2,h3⟩ := length_lcwWords p
  rw [classifyLw, if_neg (by omega)]
  generalize lcwWords p = words at h1 h2 h3
  obtain ⟨lcw1,lcw2,lcw3⟩ := words
  dsimp only at h1 h2 h3 ⊢
  rw [← ndivide_eq_zero_iff (d := 4) (by decide) (by omega) (by omega),
    ← ndivide_eq_zero_iff (d := 5) (by decide) (by omega) (by omega), ← missing_bit_iff h2]
  by_cases hlcw1 : iridiumBchNdivide 29 lcw1 = 0
  · by_cases hlcw3 : iridiumBchNdivide 41 lcw3 = 0
    · obtain ⟨hv0,hr0⟩ := repair2_valid reg 465 (lcw2++[0]) hv
      simp only [hlcw1, hlcw3, ne_eq, not_true_eq_false, if_false, true_and]
      generalize iridiumBchRepair2 reg 465 (lcw2++[0]) = r0 at hv0 hr0
      obtain ⟨reg0,e0,w0⟩ := r0
      dsimp only at hv0 hr0
      rw [← hr0]
      by_cases he0 : e0 = 1
      · obtain ⟨hv1,hr1⟩ := repair2_valid reg0 465 (lcw2++[1]) hv0
        simp only [he0, if_true]
        generalize iridiumBchRepair2 reg0 465 (lcw2++[1]) = r1 at hr1
        obtain ⟨reg1,e1,w1⟩ := r1
        dsimp only at hr1
        rw [← hr1]
        by_cases he1 : e1 = 0
        · simp [he1, eq_comm]
        · simp [he1]
      · simp only [he0, if_false]
        by_cases hz : e0 = 0
        · simp [hz, eq_comm]
        · simp [hz]
    · simp [hlcw1, hlcw3]
  · simp [hlcw1]

theorem classifyLw_some {s : IrLwSubtype} (h : (classifyLw reg p).2 = some s) :
    iridiumBchNdivide 29 (lcwWords p).1 = 0 ∧ s = lwSubtypeOf (lcwWords p).1 := by
  simp only [classifyLw] at h
  by_cases hlen : p.length < 46
  · simp [hlen] at h
  by_cases h1 : iridiumBchNdivide 29 (lcwWords p).1 = 0
  · by_cases h3 : iridiumBchNdivide 41 (lcwWords p).2.2 = 0
    · refine ⟨h1, ?_⟩
      rw [if_neg hlen, if_neg (not_not.mpr h1), if_neg (not_not.mpr h3)] at h
      split at h
      · split at h <;> simp_all
      · split at h <;> simp_all
    · simp [hlen, h1, h3] at h
  · simp [hlen, h1] at h

theorem classifyLwHarder_some {s : IrLwSubtype} (h : (classifyLwHarder reg p).2 = some s) :
    s = .da ∧ lwSubtypeOf (iridiumBchRepair1 reg 29 (lcwWords p).1).2.2 = .da := by
  simp only [classifyLwHarder] at h
  by_cases hlen : p.length < 46
  · simp [hlen] at h
  by_cases h1 : (iridiumBchRepair1 reg 29 (lcwWords p).1).2.1 < 0
  · simp [hlen, h1] at h
  rw [if_neg hlen, if_neg h1] at h
  split at h
  · cases h
  · split at h
    · split at h
      · cases h
      · split at h <;> simp_all
    · split at h <;> simp_all

theorem classifyLwHarder_agrees {s s' : IrLwSubtype} (h : (classifyLw reg p).2 = some s)
    (h' : (classifyLwHarder reg p).2 = some s') : s' = s := by
  obtain ⟨hclean,hs⟩ := classifyLw_some h
  obtain ⟨hs',hft⟩ := classifyLwHarder_some h'
  rw [repair1_clean reg (by rw [(length_lcwWords p).1]; decide) hclean] at hft
  rw [hs', hs, hft]

section
variable (reg : SynRegistry) (bits : List UInt8) (direction : IrFrameDirection)

def uniqueWord (direction : IrFrameDirection) : List UInt8 :=
  if direction = .uplink then uwUl else uwDl

def verdict (t : IrFrameType) (s : IrLwSubtype) : IridiumFrame := ⟨t, direction, s, 24, bits⟩

inductive Verdict : Prop where
  | rejected (h : ∀ harder, (iridiumFrameClassify harder reg bits direction).2 = none)
  | strict (t : IrFrameType) (s : IrLwSubtype) (ht : t ≠ .unknown)
      (huw : bitsEqual bits (uniqueWord direction) = true)
      (hra : t = .ra → classifyRa (swappedPrefix (bits.drop 24)) = true)
      (hbc : t = .bc → classifyBc (swappedPrefix (bits.drop 24)) = true)
      (h : ∀ harder, (iridiumFrameClassify harder reg bits direction).2 =
        some (verdict bits direction t s))
  | undecided (hoff : (iridiumFrameClassify false reg bits direction).2 =
        some (verdict bits direction .unknown .none))
      (hon : (iridiumFrameClassify true reg bits direction).2 =
          some (verdict bits direction .unknown .none) ∨
        (iridiumFrameClassify true reg bits direction).2 = some (verdict bits direction .lw .da))

theorem relaxed_cases (p : List UInt8) (frame : IrFrameType → IrLwSubtype → Option IridiumFrame)
    (reg : SynRegistry) :
    let r := match classifyLwHarder reg p with
      | (reg, some sub) => (reg, frame .lw sub)
      | (reg, none) => (reg, frame .unknown .none)
    r.2 = frame .unknown .none ∨ r.2 = frame .lw .da := by
  have hda := fun s => (@classifyLwHarder_some reg p s · |>.1)
  generalize classifyLwHarder reg p = r at hda
  obtain ⟨reg',o⟩ := r
  cases o with
  | none => exact .inl rfl
  | some sub => exact .inr (by rw [hda sub rfl])

theorem fallback_cases (harder : Bool) (p : List UInt8)
    (frame : IrFrameType → IrLwSubtype → Option IridiumFrame) (reg : SynRegistry) :
    let r := if harder then
        match classifyLwHarder reg p with
        | (reg, some sub) => (reg, frame .lw sub)
        | (reg, none) => (reg, frame .unknown .none)
      else (reg, frame .unknown .none)
    r.2 = frame .unknown .none ∨ r.2 = frame .lw .da := by
  cases harder with
  | false => exact .inl rfl
  | true => exact relaxed_cases p frame reg

theorem classify_verdict : Verdict reg bits direction := by
  by_cases hshort : bits.length < 24
  · exact .rejected fun harder => by rw [iridiumFrameClassify, if_pos hshort]
  by_cases hpay : (bits.drop 24).length < 32
  · have h : ∀ harder, (iridiumFrameClassify harder reg bits direction).2 =
        some (verdict bits direction .unknown .none) := by
      intro harder
      simp only [iridiumFrameClassify, if_neg hshort, if_pos hpay]
      rfl
    exact .undecided (h false) (.inl (h true))
  by_cases huw : bitsEqual bits (uniqueWord direction) = true
  · have huw' : bitsEqual bits (if direction = .uplink then uwUl else uwDl) = true := huw
    by_cases hms : (swappedPrefix (bits.drop 24)).length ≥ 32 ∧
        bitsEqual (swappedPrefix (bits.drop 24)) headerMessaging = true
    · exact .strict .ms .none (by decide) huw nofun nofun fun harder => by
        simp only [iridiumFrameClassify, if_neg hshort, if_neg hpay, huw', if_true, if_pos hms]
        rfl
    by_cases htl : looksLikeTimeLocation (swappedPrefix (bits.drop 24)) = true
    · exact .strict .tl .none (by decide) huw nofun nofun fun harder => by
        simp only [iridiumFrameClassify, if_neg hshort, if_neg hpay, huw', if_true, if_neg hms, htl]
        rfl
    by_cases hbc : classifyBc (swappedPrefix (bits.drop 24)) = true
    · exact .strict .bc .none (by decide) huw nofun (fun _ => hbc) fun harder => by
        simp only [iridiumFrameClassify, if_neg hshort, if_neg hpay, huw', if_true, if_neg hms,
          if_neg htl, hbc]
        rfl
    cases hlw : classifyLw reg (swappedPrefix (bits.drop 24)) with
    | mk reg' o =>
    cases o with
    | some sub =>
      exact .strict .lw sub (by decide) huw nofun nofun fun harder => by
        simp only [iridiumFrameClassify, if_neg hshort, if_neg hpay, huw', if_true, if_neg hms,
          if_neg htl, if_neg hbc, hlw]
        rfl
    | none =>
      by_cases hra : classifyRa (swappedPrefix (bits.drop 24)) = true
      · exact .strict .ra .none (by decide) huw (fun _ => hra) nofun fun harder => by
          simp only [iridiumFrameClassify, if_neg hshort, if_neg hpay, huw', if_true, if_neg hms,
            if_neg htl, if_neg hbc, hlw, hra]
          rfl
      · refine .undecided ?_ ?_
        · simp only [iridiumFrameClassify, if_neg hshort, if_neg hpay, huw', if_true, if_neg hms,
            if_neg htl, if_neg hbc, hlw, if_neg hra, Bool.false_eq_true, if_false]
          rfl
        · simp only [iridiumFrameClassify, if_neg hshort, if_neg hpay, huw', if_true, if_neg hms,
            if_neg htl, if_neg hbc, hlw, if_neg hra]
          exact relaxed_cases _ (fun t s => some (verdict bits direction t s)) reg'
  · have huw' : ¬ bitsEqual bits (if direction = .uplink then uwUl else uwDl) = true := huw
    refine .undecided ?_ ?_
    · simp only [iridiumFrameClassify, if_neg hshort, if_neg hpay, if_neg huw', Bool.false_eq_true,
        if_false]
      rfl
    · simp only [iridiumFrameClassify, if_neg hshort, if_neg hpay, if_neg huw', if_true]
      exact relaxed_cases _ (fun t s => some (verdict bits direction t s)) reg

variable {reg bits direction}

theorem classify_body {harder : Bool} {f : IridiumFrame}
    (hf : (iridiumFrameClassify harder reg bits direction).2 = some f) : f.bits = bits ∧
      (f.type = .ra → classifyRa (swappedPrefix (bits.drop 24)) = true) ∧
      (f.type = .bc → classifyBc (swappedPrefix (bits.drop 24)) = true) := by
  cases classify_verdict reg bits direction with
  | rejected h =>
    rw [h] at hf
    cases hf
  | strict t s _ _ hra hbc h =>
    rw [h, Option.some.injEq] at hf
    subst hf
    exact ⟨rfl, hra, hbc⟩
  | undecided hoff hon =>
    have hframe : f = verdict bits direction .unknown .none ∨
        f = verdict bits direction .lw .da := by
      cases harder with
      | false =>
        rw [hoff, Option.some.injEq] at hf
        exact .inl hf.symm
      | true =>
        obtain h | h := hon
        · rw [h, Option.some.injEq] at hf
          exact .inl hf.symm
        · rw [h, Option.some.injEq] at hf
          exact .inr hf.symm
    obtain rfl | rfl := hframe
    · exact ⟨rfl, nofun, nofun⟩
    · exact ⟨rfl, nofun, nofun⟩

end

/-- Every strict verdict is kept; an unknown frame becomes at most type DA. -/
theorem harder_classification_conservative (calls : List RepairCall) (bits : List UInt8)
    (direction : IrFrameDirection) :
    let reg := runRegistry calls .init
    let off := (iridiumFrameClassify false reg bits direction).2
    let on := (iridiumFrameClassify true reg bits direction).2
    (∀ f, off = some f → f.type ≠ .unknown → on = some f) ∧
    (∀ f, off = some f → f.type = .unknown →
      on = some f ∨ on = some { f with type := .lw, lwSubtype := .da }) ∧
    (off = none → on = none) ∧
    (bitsEqual bits (uniqueWord direction) = false →
      ∀ harder f, (iridiumFrameClassify harder reg bits direction).2 = some f →
        f.type = .unknown ∨ f.type = .lw ∧ f.lwSubtype = .da) ∧
    ∀ p : List UInt8, 46 ≤ p.length →
      ((classifyLw reg p).2.isSome = true ↔
        InCode 29 4 (lcwWords p).1 ∧ InCode 41 5 (lcwWords p).2.2 ∧
          ∃ b : Bool, InCode 465 8 ((lcwWords p).2.1++[cell b])) ∧
      ∀ s s', (classifyLw reg p).2 = some s → (classifyLwHarder reg p).2 = some s' → s' = s := by
  intro reg off on
  have hv : RegistryValid reg := runRegistry_valid calls _ init_valid
  have hlw : ∀ p : List UInt8, 46 ≤ p.length →
      ((classifyLw reg p).2.isSome = true ↔
        InCode 29 4 (lcwWords p).1 ∧ InCode 41 5 (lcwWords p).2.2 ∧
          ∃ b : Bool, InCode 465 8 ((lcwWords p).2.1++[cell b])) := by
    intro p hp
    rw [Option.isSome_iff_exists]
    simp only [classifyLw_eq_some hv hp]
    exact ⟨fun ⟨_,h,_⟩ => h, fun h => ⟨_, h, rfl⟩⟩
  have hrest := fun p (hp : 46 ≤ p.length) =>
    And.intro (hlw p hp) fun s s' (h : (classifyLw reg p).2 = some s)
      (h' : (classifyLwHarder reg p).2 = some s') => classifyLwHarder_agrees h h'
  cases classify_verdict reg bits direction with
  | rejected h =>
    refine ⟨?_, ?_, fun _ => h true, ?_, hrest⟩
    · intro f hf
      rw [show off = none from h false] at hf
      cases hf
    · intro f hf
      rw [show off = none from h false] at hf
      cases hf
    · intro _ harder f hf
      rw [h harder] at hf
      cases hf
  | strict t s ht huw _ _ h =>
    refine ⟨?_, ?_, ?_, ?_, hrest⟩
    · intro f hf _
      rw [show off = _ from h false] at hf
      rw [show on = _ from h true, hf]
    · intro f hf hu
      rw [show off = _ from h false, Option.some.injEq] at hf
      rw [← hf] at hu
      exact absurd hu ht
    · intro hn
      rw [show off = _ from h false] at hn
      cases hn
    · intro hnot
      rw [huw] at hnot
      cases hnot
  | undecided hoff hon =>
    refine ⟨?_, ?_, ?_, ?_, hrest⟩
    · intro f hf hne
      rw [show off = _ from hoff, Option.some.injEq] at hf
      exact absurd (hf ▸ rfl) hne
    · intro f hf _
      rw [show off = _ from hoff, Option.some.injEq] at hf
      rwa [← hf]
    · intro hn
      rw [show off = _ from hoff] at hn
      cases hn
    · intro _ harder f hf
      cases harder with
      | false =>
        rw [hoff, Option.some.injEq] at hf
        exact .inl (hf ▸ rfl)
      | true =>
        obtain h | h := hon
        · rw [h, Option.some.injEq] at hf
          exact .inl (hf ▸ rfl)
        · rw [h, Option.some.injEq] at hf
          exact .inr ⟨hf ▸ rfl, hf ▸ rfl⟩

end IridiumAcars.FrameClassify
