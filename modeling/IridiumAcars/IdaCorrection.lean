import IridiumAcars.IdaChannel
import Mathlib.Algebra.BigOperators.Ring.Finset

/-! The ten-block loop of `ida_decode`, and what it makes of flipped data-section bits. -/
namespace IridiumAcars.IdaCorrection
open Bch IndexMap Interleave FrameClassify IdaDecode IdaCodewords IdaChannel List
open IdaEncode (encodeDataSection)

def blockRepair (codewords : List UInt8) (i : Nat) : Int × List UInt8 :=
  iridiumBchRepair2Ref 3545 ((codewords.drop (31*i)).take 31)

def blockFailed (codewords : List UInt8) (i : Nat) : Bool :=
  decide ((blockRepair codewords i).1 < 0)

def blockBits (codewords : List UInt8) (i : Nat) : List UInt8 :=
  if blockFailed codewords i then List.replicate 20 0 else (blockRepair codewords i).2.take 20

def blockErrors (codewords : List UInt8) (i : Nat) : Int :=
  if blockFailed codewords i then 0 else (blockRepair codewords i).1

def decodedUpTo (codewords : List UInt8) (k : Nat) : IdaDecoded :=
  { IdaDecoded.blank with
    bits := (List.range k).flatMap (blockBits codewords) ++ List.replicate (200-20*k) 0
    blocksOk := (List.range k).countP fun i => !blockFailed codewords i
    totalErrors := ((List.range k).map (blockErrors codewords)).sum }

def decodedBlocks (codewords : List UInt8) : IdaDecoded :=
  let out := decodedUpTo codewords 10
  { out with nBits := out.blocksOk*20, ok := decide (out.blocksOk = 10) }

section
variable {P : List UInt8 → Prop} (hflip : ∀ bits i, P bits → P (flipBit bits i))
include hflip

theorem tryFlips_closed (poly : UInt32) (is : List Nat) (bits : List UInt8) (h : P bits) :
    P (tryFlips poly is bits).2 := by
  induction is generalizing bits with
  | nil => exact h
  | cons i is ih =>
    rw [tryFlips]
    split
    · exact hflip bits i h
    · exact ih _ (hflip _ i (hflip bits i h))

theorem tryPairs_closed (poly : UInt32) (n : Nat) (is : List Nat) (bits : List UInt8) (h : P bits) :
    P (tryPairs poly n is bits).2 := by
  induction is generalizing bits with
  | nil => exact h
  | cons i is ih =>
    have hrow := tryFlips_closed hflip poly (List.range' (i+1) (n-(i+1))) _ (hflip bits i h)
    rw [tryPairs]
    split
    · rename_i hq
      rwa [hq] at hrow
    · rename_i hq
      rw [hq] at hrow
      exact ih _ (hflip _ i hrow)

theorem repair2Ref_closed (poly : UInt32) (bits : List UInt8) (h : P bits) :
    P (iridiumBchRepair2Ref poly bits).2 := by
  have hsingle := tryFlips_closed hflip poly (List.range bits.length) bits h
  rw [iridiumBchRepair2Ref]
  by_cases h0 : bits.length = 0
  · rwa [if_pos h0]
  by_cases hs : iridiumBchNdivide poly bits = 0
  · rwa [if_neg h0, if_pos hs]
  rw [if_neg h0, if_neg hs]
  rcases hq : tryFlips poly (List.range bits.length) bits with ⟨⟨⟩,reverted⟩
  · rw [hq] at hsingle
    have hpair := tryPairs_closed hflip poly bits.length (List.range bits.length) reverted hsingle
    rcases hr : tryPairs poly bits.length (List.range bits.length) reverted with ⟨⟨⟩,same⟩ <;>
      simpa [hr] using hpair
  · simpa [hq] using hsingle

end

theorem length_repair2Ref (poly : UInt32) (bits : List UInt8) :
    (iridiumBchRepair2Ref poly bits).2.length = bits.length :=
  repair2Ref_closed (P := fun b => b.length = bits.length)
    (fun b i h => (length_flipBit b i).trans h) poly bits rfl

variable (codewords : List UInt8)

theorem length_blockBits (h : codewords.length = 310) (i : Nat)
    (hi : i < 10) : (blockBits codewords i).length = 20 := by
  rw [blockBits]
  split
  · simp
  · rw [length_take, blockRepair, length_repair2Ref, length_take, length_drop, h]
    omega

variable (sec : List UInt8)

theorem blockBits_receivedBlock (i : Nat) :
    blockBits (receivedBlock sec i) 0 = blockBits (idaDecodeBuildCodewords sec) i := by
  have h : blockRepair (receivedBlock sec i) 0 = blockRepair (idaDecodeBuildCodewords sec) i := by
    rw [blockRepair, blockRepair, receivedBlock, Nat.mul_zero, drop_zero, take_take,
      Nat.min_self]
  rw [blockBits, blockBits, blockFailed, blockFailed, h]

theorem decodeBlock_eq (i : Nat) (reg : SynRegistry)
    (hv : RegistryValid reg) (out : IdaDecoded) :
    ∃ reg', RegistryValid reg' ∧ idaDecodeBlock codewords (reg, out) i =
      (reg', if blockFailed codewords i then out else
        { out with
          bits := writeAt out.bits (i*20) (blockBits codewords i)
          blocksOk := out.blocksOk+1
          totalErrors := out.totalErrors+blockErrors codewords i }) := by
  obtain ⟨hv',hr⟩ := repair2_valid reg acchBchPoly ((codewords.drop (31*i)).take 31) hv
  refine ⟨_, hv', ?_⟩
  rw [idaDecodeBlock]
  rcases hq : iridiumBchRepair2 reg acchBchPoly ((codewords.drop (31*i)).take 31) with
    ⟨reg',errs,cw⟩
  rw [hq] at hr
  have hb : blockRepair codewords i = (errs, cw) := hr.symm
  by_cases he : errs < 0
  · simp [blockFailed, hb, he]
  · simp [blockFailed, blockBits, blockErrors, hb, he]

theorem decodedUpTo_succ (h : codewords.length = 310) (k : Nat)
    (hk : k < 10) :
    decodedUpTo codewords (k+1) = if blockFailed codewords k then decodedUpTo codewords k else
      { decodedUpTo codewords k with
        bits := writeAt (decodedUpTo codewords k).bits (k*20) (blockBits codewords k)
        blocksOk := (decodedUpTo codewords k).blocksOk+1
        totalErrors := (decodedUpTo codewords k).totalErrors+blockErrors codewords k } := by
  have hb := length_blockBits codewords h k hk
  have hlen := length_flatMap_range (blockBits codewords) 20 k fun i hi =>
    length_blockBits codewords h i (by omega)
  by_cases hf : blockFailed codewords k = true
  · -- the zeros of the failed block are the next twenty of the cleared buffer
    have hz : List.replicate (200-20*k) (0 : UInt8) =
        List.replicate 20 0 ++ List.replicate (200-20*(k+1)) 0 := by
      rw [replicate_append_replicate]
      congr 1
      omega
    simp [decodedUpTo, range_succ, hf, blockBits, blockErrors, hz]
  · rw [if_neg hf]
    simp only [decodedUpTo, writeAt_replicate _ (blockBits codewords k) _ _ (200-20*k)
      (show k*20 = _ by rw [hlen, Nat.mul_comm])]
    simp [range_succ, hf, hb, show 200-20*(k+1) = 200-20*k-20 by omega]

theorem decodeBlocks_run (h : codewords.length = 310) (k : Nat)
    (hk : k ≤ 10) (reg : SynRegistry) (hv : RegistryValid reg) :
    ∃ reg', RegistryValid reg' ∧
      (List.range k).foldl (idaDecodeBlock codewords) (reg, IdaDecoded.blank) =
        (reg', decodedUpTo codewords k) := by
  induction k with
  | zero => exact ⟨reg, hv, rfl⟩
  | succ k ih =>
    obtain ⟨reg1,hv1,h1⟩ := ih (by omega)
    obtain ⟨reg2,hv2,h2⟩ := decodeBlock_eq codewords k reg1 hv1 (decodedUpTo codewords k)
    refine ⟨reg2, hv2, ?_⟩
    rw [range_succ, foldl_append, h1, foldl_cons, foldl_nil, h2,
      decodedUpTo_succ codewords h k (by omega)]

theorem buildCodewords_take (h : 312 ≤ sec.length) :
    idaDecodeBuildCodewords sec = (gather 0 codewordCells (sec.take 312)).map mask := by
  have ht : (sec.take 312).length = 312 := by rw [length_take]; omega
  rw [← buildCodewords_eq_gather _ ht]
  simp only [idaDecodeBuildCodewords, take_take, Nat.min_self]

theorem length_buildCodewords (h : 312 ≤ sec.length) :
    (idaDecodeBuildCodewords sec).length = 310 := by
  rw [buildCodewords_take sec h, length_map, length_gather, length_codewordCells]

theorem idaDecode_eq (reg : SynRegistry) (hv : RegistryValid reg) (frame : IridiumFrame)
    (ht : frame.type = .lw) (hs : frame.lwSubtype = .da) (hl : 382 ≤ frame.bits.length) :
    ∃ reg', RegistryValid reg' ∧ idaDecode reg frame = (reg', some (idaDecodeParseFields
      (decodedBlocks (idaDecodeBuildCodewords (frame.bits.drop 70))))) := by
  have hlen := length_buildCodewords (frame.bits.drop 70) (by rw [length_drop]; omega)
  obtain ⟨reg',hv',hrun⟩ := decodeBlocks_run _ hlen 10 (le_refl 10) reg hv
  refine ⟨reg', hv', ?_⟩
  rw [idaDecode, if_neg (by simp [ht, hs]), if_neg (by omega)]
  simp only [hrun]
  rfl

theorem parseFields_frame (out : IdaDecoded) :
    (idaDecodeParseFields out).ok = out.ok ∧ (idaDecodeParseFields out).bits = out.bits ∧
    (idaDecodeParseFields out).blocksOk = out.blocksOk ∧
    (idaDecodeParseFields out).totalErrors = out.totalErrors := by
  rw [idaDecodeParseFields]
  split <;> simp

theorem bits_decodedBlocks :
    (decodedBlocks codewords).bits = (List.range 10).flatMap (blockBits codewords) := by
  simp [decodedBlocks, decodedUpTo]

theorem totalErrors_decodedBlocks :
    (decodedBlocks codewords).totalErrors = ((List.range 10).map (blockErrors codewords)).sum := rfl

theorem slot_decodedBlocks (h : codewords.length = 310) (i : Nat)
    (hi : i < 10) :
    ((decodedBlocks codewords).bits.drop (20*i)).take 20 = blockBits codewords i := by
  rw [bits_decodedBlocks]
  exact window_flatMap _ 20 10 i (length_blockBits codewords h) hi

theorem blocksOk_add_failed :
    (decodedBlocks codewords).blocksOk + (List.range 10).countP (blockFailed codewords) = 10 := by
  have h := length_eq_countP_add_countP (blockFailed codewords) (l := List.range 10)
  simp only [length_range, Bool.decide_eq_true, decide_not] at h
  simp only [decodedBlocks, decodedUpTo]
  omega

theorem decodedBlocks_counters :
    (decodedBlocks codewords).nBits = (decodedBlocks codewords).blocksOk*20 ∧
    (decodedBlocks codewords).ok = decide ((decodedBlocks codewords).blocksOk = 10) := ⟨rfl, rfl⟩

theorem ok_iff :
    (decodedBlocks codewords).ok = true ↔ ∀ i < 10, blockFailed codewords i = false := by
  have h := blocksOk_add_failed codewords
  rw [(decodedBlocks_counters codewords).2, decide_eq_true_eq]
  constructor
  · intro h10 i hi
    have h0 : (List.range 10).countP (blockFailed codewords) = 0 := by omega
    simpa using countP_eq_zero.mp h0 i (mem_range.mpr hi)
  · intro hall
    have h0 : (List.range 10).countP (blockFailed codewords) = 0 := by
      rw [countP_eq_zero]
      intro i hi
      simp [hall i (mem_range.mp hi)]
    omega

theorem sum_flipsIn (flips : List Bool) :
    ((List.range 10).map (flipsIn flips)).sum = (gather false codewordCells flips).count true := by
  have hsplit := flatMap_windows codewordCells 31 10 length_codewordCells.le
  rw [← hsplit, gather, map_flatMap, count_flatMap]
  rfl

theorem buildCodewords_append (sec post : List UInt8) (h : sec.length = 312) :
    idaDecodeBuildCodewords (sec ++ post) = idaDecodeBuildCodewords sec := by
  simp only [idaDecodeBuildCodewords, take_left' h, take_of_length_le (Nat.le_of_eq h)]

/-- The codewords built from a section that arrived with some cells flipped. -/
def flippedCodewords (msg flips : List Bool) : List UInt8 :=
  idaDecodeBuildCodewords (applyFlips (encodeDataSection (msg.map cell)) flips)

section
variable {msg flips : List Bool} {i : Nat} (hm : msg.length = 200) (hf : flips.length = 312)

theorem flipPositions_block_lt (hi : i < 10) :
    ∀ p ∈ flipPositions (gather false (cellsOf i) flips), p < 31 := by
  have hb := flipPositions_lt (gather false (cellsOf i) flips)
  rwa [length_gather, length_cellsOf i hi] at hb

include hm

theorem length_cells : (msg.map cell).length = 200 := by rw [length_map, hm]

include hf

theorem received_eq_flipAll (hi : i < 10) :
    ((flippedCodewords msg flips).drop (31*i)).take 31 = flipAll (sentBlock (msg.map cell) i)
        (flipPositions (gather false (cellsOf i) flips)) := by
  rw [← applyFlips_eq_flipAll _ _ (by rw [length_sentBlock _ (length_cells hm) i hi, length_gather,
    length_cellsOf i hi])]
  exact receivedBlock_applyFlips _ flips (length_cells hm) hf i hi

theorem blockRepair_light (hi : i < 10) (h2 : flipsIn flips i ≤ 2) :
    blockRepair (flippedCodewords msg flips) i =
      ((flipsIn flips i : Int), sentBlock (msg.map cell) i) := by
  have hw := length_flipPositions (gather false (cellsOf i) flips)
  rw [blockRepair, received_eq_flipAll hm hf hi,
    repair2Ref_light 3545 11 31 acch_bitLength (by decide) acch_separates _
      (length_sentBlock _ (length_cells hm) i hi) (ndivide_sentBlock _ (length_cells hm) i hi) _
      (flipPositions_sorted _) (flipPositions_block_lt hi) (by rw [hw]; exact h2) (by decide),
    hw, flipsIn]

theorem blockRepair_heavy (hi : i < 10) (h3 : flipsIn flips i = 3) :
    (blockRepair (flippedCodewords msg flips) i).1 = -1 := by
  rw [blockRepair, received_eq_flipAll hm hf hi]
  exact repair2Ref_heavy 3545 11 31 acch_bitLength (by decide) acch_separates _
    (length_sentBlock _ (length_cells hm) i hi) (ndivide_sentBlock _ (length_cells hm) i hi) _
    (flipPositions_sorted _) (flipPositions_block_lt hi) (by rw [length_flipPositions]; exact h3)

theorem blockFailed_light (hi : i < 10) (h2 : flipsIn flips i ≤ 2) :
    blockFailed (flippedCodewords msg flips) i = false := by
  rw [blockFailed, blockRepair_light hm hf hi h2]
  simp

theorem blockFailed_heavy (hi : i < 10) (h3 : flipsIn flips i = 3) :
    blockFailed (flippedCodewords msg flips) i = true := by
  rw [blockFailed, blockRepair_heavy hm hf hi h3]
  rfl

theorem blockBits_light (hi : i < 10) (h2 : flipsIn flips i ≤ 2) :
    blockBits (flippedCodewords msg flips) i = ((msg.map cell).drop (20*i)).take 20 := by
  rw [blockBits, blockFailed_light hm hf hi h2, blockRepair_light hm hf hi h2]
  simp only [Bool.false_eq_true, if_false]
  rw [take_sentBlock _ (length_cells hm) i hi, map_take, map_drop, map_mask_cells]

theorem blockErrors_light (hi : i < 10) (h2 : flipsIn flips i ≤ 2) :
    blockErrors (flippedCodewords msg flips) i = (flipsIn flips i : Int) := by
  rw [blockErrors, blockFailed_light hm hf hi h2, blockRepair_light hm hf hi h2]
  rfl

theorem decoded_of_light (hall : ∀ i < 10, flipsIn flips i ≤ 2) :
    (decodedBlocks (flippedCodewords msg flips)).bits = msg.map cell ∧
    (decodedBlocks (flippedCodewords msg flips)).totalErrors =
      (((gather false codewordCells flips).count true : Nat) : Int) := by
  constructor
  · rw [bits_decodedBlocks]
    calc (List.range 10).flatMap (blockBits (flippedCodewords msg flips))
        = (List.range 10).flatMap fun i => ((msg.map cell).drop (20*i)).take 20 := by
          apply flatMap_congr
          intro i hi
          exact blockBits_light hm hf (mem_range.mp hi) (hall i (mem_range.mp hi))
      _ = msg.map cell := flatMap_windows _ 20 10 (length_cells hm).le
  · have hmap : (List.range 10).map (blockErrors (flippedCodewords msg flips)) =
        ((List.range 10).map (flipsIn flips)).map Nat.cast := by
      rw [map_map]
      apply map_congr_left
      intro i hi
      exact blockErrors_light hm hf (mem_range.mp hi) (hall i (mem_range.mp hi))
    rw [totalErrors_decodedBlocks, hmap, ← Nat.cast_list_sum, sum_flipsIn]

end

/-- Up to two flips per codeword are corrected and counted; three are detected. -/
theorem ida_decode_corrects_and_detects (calls : List RepairCall) (frame : IridiumFrame)
    (msg flips : List Bool) (pre post : List UInt8) (hm : msg.length = 200)
    (hf : flips.length = 312) (hpre : pre.length = 70) (ht : frame.type = .lw)
    (hs : frame.lwSubtype = .da)
    (hb : frame.bits = pre ++ (applyFlips (encodeDataSection (msg.map cell)) flips ++ post)) :
    ∃ reg out, idaDecode (runRegistry calls .init) frame = (reg, some out) ∧
      ((∀ i < 10, flipsIn flips i ≤ 2) → out.ok = true ∧ out.bits = msg.map cell ∧
        out.totalErrors = (((gather false codewordCells flips).count true : Nat) : Int)) ∧
      (∀ i < 10, flipsIn flips i = 3 →
        (out.bits.drop (20*i)).take 20 = List.replicate 20 0 ∧ out.ok = false) ∧
      out.blocksOk + (List.range 10).countP (fun i => decide (flipsIn flips i = 3)) ≤ 10 ∧
      ((∀ i < 10, flipsIn flips i ≤ 3) →
        out.blocksOk + (List.range 10).countP (fun i => decide (flipsIn flips i = 3)) = 10) ∧
      out.bits.length = 200 ∧
      (∀ i < 10, flipsIn flips i ≤ 2 →
        (out.bits.drop (20*i)).take 20 = ((msg.map cell).drop (20*i)).take 20) ∧
      (∀ i < 10, (out.bits.drop (20*i)).take 20 =
        blockBits (receivedBlock (applyFlips (encodeDataSection (msg.map cell)) flips) i) 0) := by
  set sec := applyFlips (encodeDataSection (msg.map cell)) flips with hsec
  have hl : sec.length = 312 := by simp [hsec, length_encodeDataSection, hf]
  have hdrop : frame.bits.drop 70 = sec ++ post := by rw [hb, drop_left' hpre]
  obtain ⟨reg,-,hrun⟩ := idaDecode_eq _ (runRegistry_valid calls _ init_valid) frame ht hs
    (by rw [hb, length_append, length_append]; omega)
  set cws := flippedCodewords msg flips
  rw [hdrop, buildCodewords_append sec post hl, show idaDecodeBuildCodewords sec = cws from rfl]
    at hrun
  have hlen : cws.length = 310 := length_buildCodewords sec (by omega)
  obtain ⟨hok,hbits,hblocks,herr⟩ := parseFields_frame (decodedBlocks cws)
  have hcount := blocksOk_add_failed cws
  refine ⟨reg, _, hrun, ?_, ?_, ?_, ?_, ?_, ?_, ?_⟩
  · intro hall
    rw [hok, hbits, herr]
    exact ⟨(ok_iff cws).mpr fun i hi => blockFailed_light hm hf hi (hall i hi),
      decoded_of_light hm hf hall⟩
  · intro i hi h3
    have hfail := blockFailed_heavy hm hf hi h3
    rw [hok, hbits, slot_decodedBlocks cws hlen i hi]
    refine ⟨by rw [blockBits, hfail]; rfl, ?_⟩
    cases hk : (decodedBlocks cws).ok with
    | false => rfl
    | true => rw [(ok_iff cws).mp hk i hi] at hfail; exact absurd hfail (by decide)
  · have hle : (List.range 10).countP (fun i => decide (flipsIn flips i = 3)) ≤
        (List.range 10).countP (blockFailed cws) := by
      apply countP_mono_left
      intro i hi h3
      exact blockFailed_heavy hm hf (mem_range.mp hi) (by simpa using h3)
    rw [hblocks]
    omega
  · intro hall
    have heq : (List.range 10).countP (fun i => decide (flipsIn flips i = 3)) =
        (List.range 10).countP (blockFailed cws) := by
      apply countP_congr
      intro i hi
      have hi' := mem_range.mp hi
      have h3 := hall i hi'
      rw [decide_eq_true_eq]
      constructor
      · exact blockFailed_heavy hm hf hi'
      · intro hfail
        by_contra hne
        rw [blockFailed_light hm hf hi' (by omega)] at hfail
        exact absurd hfail (by decide)
    rw [hblocks]
    omega
  · rw [hbits, bits_decodedBlocks]
    exact length_flatMap_range _ 20 10 (length_blockBits cws hlen)
  · intro i hi h2
    rw [hbits, slot_decodedBlocks cws hlen i hi]
    exact blockBits_light hm hf hi h2
  · intro i hi
    rw [hbits, slot_decodedBlocks cws hlen i hi, blockBits_receivedBlock]
    rfl

theorem flipsIn_le_count (flips : List Bool) (i : Nat) :
    flipsIn flips i ≤ (gather false codewordCells flips).count true := by
  have hsub : (cellsOf i).Sublist codewordCells :=
    (take_sublist _ _).trans (drop_sublist _ _)
  exact (hsub.map _).count_le true

def oneFlipFrame : IridiumFrame where
  type := .lw
  direction := .downlink
  lwSubtype := .da
  payloadOff := 70
  bits := List.replicate 70 0 ++
    (applyFlips (encodeDataSection ((List.replicate 200 false).map cell))
      (true::List.replicate 311 false) ++ [])

theorem ida_decode_corrects_one_flip : ∃ reg out,
    idaDecode (runRegistry [] .init) oneFlipFrame = (reg, some out) ∧ out.ok = true ∧
      out.bits = (List.replicate 200 false).map cell ∧ out.totalErrors = 1 := by
  obtain ⟨reg,out,hrun,hlight,-⟩ := ida_decode_corrects_and_detects [] oneFlipFrame
    (List.replicate 200 false) (true::List.replicate 311 false) (List.replicate 70 0) []
    length_replicate (by rw [length_cons, length_replicate]) length_replicate
    rfl rfl rfl
  have h1 : (gather false codewordCells (true::List.replicate 311 false)).count true = 1 := by
    decide +kernel
  obtain ⟨hok,hbits,herr⟩ := hlight fun i _ => (flipsIn_le_count _ i).trans (by rw [h1]; decide)
  exact ⟨reg, out, hrun, hok, hbits, by rw [herr, h1]; rfl⟩

end IridiumAcars.IdaCorrection
