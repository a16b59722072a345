import IridiumAcars.Lib.Spacing

/-! The multi-frame walk of burst_pipeline.c over one burst. -/
namespace IridiumAcars.BurstWalk
open Spacing List

def uwSps : Nat := 10
def syncRrcLenGuard : Nat := 280
def syncSearchLenGuard : Nat := 300
def syncSearchLen : Nat := 2048-271+1
def frameLenSamples : Nat := 191*uwSps
def retryStep10sps : Nat := (131*uwSps)/2
def minFrameLenRemaining : Nat := 131*uwSps

/-- What a search from a position over a range finds: the `uw_offset` of a frame, or nothing. -/
def Attempts : Type := Nat → Nat → Option (Fin syncSearchLen)

def tryDecodeFrame (attempt : Attempts) (adjN searchStart : Nat) : Option (Fin syncSearchLen) :=
  let remaining := adjN-searchStart
  if remaining < syncRrcLenGuard then none
  else
    let searchComplex := if syncSearchLen > remaining-24 then remaining-24 else syncSearchLen
    if searchComplex ≤ 2 then none else attempt searchStart searchComplex

structure Frame where
  searchStart : Nat
  uwOffset : Fin syncSearchLen

def Frame.uwAbs (f : Frame) : Nat := f.searchStart+f.uwOffset

def retryFrom (attempt : Attempts) (adjN retryStart : Nat) : Option Frame × List Nat :=
  if retryStart+syncSearchLenGuard ≤ adjN then
    match tryDecodeFrame attempt adjN retryStart with
    | some offset => (some ⟨retryStart, offset⟩, [retryStart])
    | none =>
      let rest := retryFrom attempt adjN (retryStart+retryStep10sps)
      (rest.1, retryStart::rest.2)
  else (none, [])
termination_by adjN-retryStart
decreasing_by
  simp only [syncSearchLenGuard, retryStep10sps, uwSps] at *
  omega

def framesFrom (attempt : Attempts) (adjN nextSearchStart : Nat) : List Frame × List Nat :=
  if nextSearchStart+minFrameLenRemaining ≤ adjN then
    match tryDecodeFrame attempt adjN nextSearchStart with
    | some offset =>
      let rest := framesFrom attempt adjN (nextSearchStart+offset+frameLenSamples)
      (⟨nextSearchStart, offset⟩::rest.1, nextSearchStart::rest.2)
    | none =>
      let rest := framesFrom attempt adjN (nextSearchStart+frameLenSamples)
      (rest.1, nextSearchStart::rest.2)
  else ([], [])
termination_by adjN-nextSearchStart
decreasing_by
  all_goals
    simp only [minFrameLenRemaining, frameLenSamples, uwSps] at *
    omega

/-- What a burst leaves: the frames, every search start, and `s_last_first_search_start`. -/
structure Walk where
  emitted : List Frame
  tried : List Nat
  lastFirstSearchStart : Option Nat

def firstFrame (attempt : Attempts) (adjN : Nat) : Option Frame × List Nat :=
  match tryDecodeFrame attempt adjN 0 with
  | some offset => (some ⟨0, offset⟩, [0])
  | none =>
    let rest := retryFrom attempt adjN retryStep10sps
    (rest.1, 0::rest.2)

/-- `head` is the `adj_n` of `pipeline_head`, nothing where it finds no burst. -/
def burstPipelineProcessBurst (attempt : Attempts) (head : Option Nat) : Walk :=
  match head with
  | none => ⟨[], [], none⟩
  | some adjN =>
    let first := firstFrame attempt adjN
    match first.1 with
    | none => ⟨[], first.2, none⟩
    | some f =>
      let later := framesFrom attempt adjN (f.uwAbs+frameLenSamples)
      ⟨f::later.1, first.2++later.2, some f.searchStart⟩

variable (attempt : Attempts) (adjN start : Nat)

theorem retryFrom_tried :
    Spaced retryStep10sps start (retryFrom attempt adjN start).2 ∧
      ∀ x ∈ (retryFrom attempt adjN start).2, x ≤ adjN-syncSearchLenGuard := by
  fun_induction retryFrom attempt adjN start with
  | case1 start hroom offset htry =>
    refine ⟨⟨le_rfl, trivial⟩, ?_⟩
    intro x hx
    obtain rfl := mem_singleton.mp hx
    omega
  | case2 start hroom htry rest ih =>
    refine ⟨⟨le_rfl, ih.1⟩, ?_⟩
    intro x hx
    obtain rfl | hx := mem_cons.mp hx
    · omega
    · exact ih.2 x hx
  | case3 start hroom => exact ⟨trivial, fun x hx => absurd hx not_mem_nil⟩

theorem framesFrom_tried :
    Spaced frameLenSamples start (framesFrom attempt adjN start).2 ∧
      ∀ x ∈ (framesFrom attempt adjN start).2, x ≤ adjN-minFrameLenRemaining := by
  fun_induction framesFrom attempt adjN start with
  | case1 start hroom offset htry rest ih =>
    refine ⟨⟨le_rfl, ih.1.mono (by omega)⟩, ?_⟩
    intro x hx
    obtain rfl | hx := mem_cons.mp hx
    · omega
    · exact ih.2 x hx
  | case2 start hroom htry rest ih =>
    refine ⟨⟨le_rfl, ih.1⟩, ?_⟩
    intro x hx
    obtain rfl | hx := mem_cons.mp hx
    · omega
    · exact ih.2 x hx
  | case3 start hroom => exact ⟨trivial, fun x hx => absurd hx not_mem_nil⟩

theorem framesFrom_spaced :
    Spaced frameLenSamples start ((framesFrom attempt adjN start).1.map Frame.uwAbs) := by
  fun_induction framesFrom attempt adjN start with
  | case1 start hroom offset htry rest ih => exact ⟨Nat.le_add_right _ _, ih⟩
  | case2 start hroom htry rest ih => exact ih.mono (Nat.le_add_right _ _)
  | case3 start hroom => trivial

theorem framesFrom_starts :
    ((framesFrom attempt adjN start).1.map Frame.searchStart).Sublist
      (framesFrom attempt adjN start).2 := by
  fun_induction framesFrom attempt adjN start with
  | case1 start hroom offset htry rest ih => exact ih.cons_cons _
  | case2 start hroom htry rest ih => exact ih.cons _
  | case3 start hroom => exact List.Sublist.refl _

theorem firstFrame_tried (adjN : Nat) :
    (firstFrame attempt adjN).2.length ≤ adjN/retryStep10sps+1 := by
  have hretry := retryFrom_tried attempt adjN retryStep10sps
  cases htry : tryDecodeFrame attempt adjN 0 with
  | some offset => simp [firstFrame, htry]
  | none =>
    simp only [firstFrame, htry, length_cons]
    apply Nat.add_le_add_right
    by_cases hnil : (retryFrom attempt adjN retryStep10sps).2 = []
    · simp [hnil]
    · have hlen := hretry.1.length_le hretry.2 hnil
      have hpos := length_pos_iff.mpr hnil
      rw [Nat.le_div_iff_mul_le (by decide)]
      simp only [retryStep10sps, uwSps] at hlen ⊢
      omega

theorem framesFrom_tried_length (adjN uw : Nat) :
    (framesFrom attempt adjN (uw+frameLenSamples)).2.length ≤ adjN/frameLenSamples := by
  have htried := framesFrom_tried attempt adjN (uw+frameLenSamples)
  by_cases hnil : (framesFrom attempt adjN (uw+frameLenSamples)).2 = []
  · simp [hnil]
  · have hlen := htried.1.length_le htried.2 hnil
    have hpos := length_pos_iff.mpr hnil
    rw [Nat.le_div_iff_mul_le (by decide)]
    simp only [frameLenSamples, uwSps] at hlen ⊢
    omega

/-- No air frame twice, and the work of one burst is bounded by its length. -/
structure Walk.Disciplined (w : Walk) (adjN : Nat) : Prop where
  apart : (w.emitted.map Frame.uwAbs).Pairwise fun x y => x < y ∧ x+frameLenSamples ≤ y
  frames : w.emitted.length ≤ adjN/frameLenSamples+1
  calls : w.tried.length ≤ adjN/retryStep10sps+adjN/frameLenSamples+2

theorem process_burst_disciplined (attempt : Attempts) (head : Option Nat) :
    (burstPipelineProcessBurst attempt head).Disciplined (head.getD 0) := by
  cases head with
  | none => exact ⟨List.Pairwise.nil, Nat.zero_le _, Nat.zero_le _⟩
  | some adjN =>
    have hfirst := firstFrame_tried attempt adjN
    rw [burstPipelineProcessBurst, Option.getD_some]
    cases hf : (firstFrame attempt adjN).1 with
    | none =>
      exact ⟨List.Pairwise.nil, Nat.zero_le _,
        Nat.le_trans hfirst (Nat.add_le_add (Nat.le_add_right _ _) (by decide))⟩
    | some f =>
      have hlater := framesFrom_tried_length attempt adjN f.uwAbs
      have hstarts := (framesFrom_starts attempt adjN (f.uwAbs+frameLenSamples)).length_le
      have hspaced : Spaced frameLenSamples 0
          (f.uwAbs::(framesFrom attempt adjN (f.uwAbs+frameLenSamples)).1.map Frame.uwAbs) :=
        ⟨Nat.zero_le _, framesFrom_spaced attempt adjN _⟩
      rw [length_map] at hstarts
      refine ⟨hspaced.pairwise.imp ?_, ?_, ?_⟩
      · intro x y hxy
        have : 0 < frameLenSamples := by decide
        exact ⟨by omega, hxy⟩
      · simp only [length_cons]
        omega
      · simp only [length_append]
        omega

end IridiumAcars.BurstWalk
