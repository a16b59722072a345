import IridiumAcars.IdaChaseSearch

/-! The Chase fallback as one search, after any earlier calls of the module. -/
namespace IridiumAcars.IdaChase
open BitWord Bch Interleave Selection Odometer FrameClassify IdaDecode
open IdaCodewords IdaChannel IdaCorrection
open BchDecoder (bitsToUint bitsToUint_eq)
open List hiding product

section
variable (frame : IridiumFrame) (soft : List Int16)

def receivedWords : List UInt8 := idaDecodeBuildCodewords (frame.bits.drop 70)

def receivedWord (i : Nat) : List UInt8 := ((receivedWords frame).drop (31*i)).take 31

def bitReliability (i k : Nat) : Int := bitConf soft (70+codewordCells.getD (31*i+k) 0)

/-- The messages of codeword `i` with any of its `L` least reliable bits flipped. -/
def candidateList (L i : Nat) : List Nat :=
  (List.range (2^20)).filter fun m =>
    decide (∃ t ∈ (smallest (bitReliability soft i) 31 L).sublists,
      hardMessage (flipAll (receivedWord frame i) t) = some m)

def failedWords : List Nat := (List.range 10).filter (blockFailed (receivedWords frame))

def assignments (L : Nat) : List (List Nat) :=
  product ((failedWords frame).map (candidateList frame soft L))

def assignedBits (a : List Nat) : List UInt8 :=
  (List.range 10).flatMap fun i =>
    if blockFailed (receivedWords frame) i then
      (toBits 20 (a.getD ((failedWords frame).idxOf i) 0)).map cell
    else blockBits (receivedWords frame) i

def accepts (a : List Nat) : Bool := passes (parsedTrial (assignedBits frame a))

structure Chaseable : Prop where
  lw : frame.type = .lw
  da : frame.lwSubtype = .da
  metrics : 382 ≤ soft.length
  bits : 382 ≤ frame.bits.length
  failed : ∃ i < 10, blockFailed (receivedWords frame) i = true

end

inductive ChaseCall where
  | enable (on : Bool)
  | params (L maxCrcChecks : Int)
  | decode (frame : IridiumFrame) (soft : List Int16) (out : ChaseDecoded)
  | repair (call : RepairCall)

def stepChase (st : ChaseState) : ChaseCall → ChaseState
  | .enable on => { st with enabled := on }
  | .params L maxCrcChecks => idaChaseSetParams st L maxCrcChecks
  | .decode frame soft out => (idaChaseDecode st frame soft out).1
  | .repair call => { st with reg := stepRegistry st.reg call }

def runChase (calls : List ChaseCall) : ChaseState := calls.foldl stepChase .init

structure ChaseInv (st : ChaseState) : Prop where
  reg : RegistryValid st.reg
  mapLength : st.map.length = 310
  built : st.mapBuilt = true → st.map = codewordCells
  lMax : st.L ≤ 6

theorem ChaseInv.map_eq {st : ChaseState} (h : ChaseInv st) :
    (if st.mapBuilt then st.map else buildIndexMap st.map) = codewordCells := by
  split
  · rename_i hb
    exact h.built hb
  · exact buildIndexMap_eq h.mapLength

section
variable {frame : IridiumFrame} {soft : List Int16}

theorem hardMessage_isNone (frame : IridiumFrame) (i : Nat) :
    (hardMessage (receivedWord frame i)).isNone = blockFailed (receivedWords frame) i := by
  rw [hardMessage, blockFailed]
  change _ = decide ((iridiumBchRepair2Ref acchBchPoly (receivedWord frame i)).1 < 0)
  split
  · rename_i h
    rw [decide_eq_true h]
    rfl
  · rename_i h
    rw [decide_eq_false h]
    rfl

theorem hardPass_spec (frame : IridiumFrame) {reg : SynRegistry} (h : RegistryValid reg) :
    RegistryValid ((List.range 10).foldl (hardPass (receivedWords frame)) (reg, [])).1 ∧
    ((List.range 10).foldl (hardPass (receivedWords frame)) (reg, [])).2 =
      (List.range 10).map fun i => hardMessage (receivedWord frame i) := by
  have hstep : ∀ s (msgs : List (Option Nat)) i, RegistryValid s →
      RegistryValid (hardPass (receivedWords frame) (s, msgs) i).1 ∧
      (hardPass (receivedWords frame) (s, msgs) i).2 =
        msgs ++ [hardMessage (receivedWord frame i)] := by
    intro s msgs i hs
    obtain ⟨hvalid,hval⟩ := hardDecodeCw_spec s hs (receivedWord frame i)
    rw [← hval]
    exact ⟨hvalid, rfl⟩
  obtain ⟨hvalid,hval⟩ := Runs.foldl_hidden hstep (List.range 10) reg [] h
  refine ⟨hvalid, hval.trans ?_⟩
  rw [foldl_append_eq_append, nil_append, map_eq_flatMap]
  rfl

theorem mem_candidateList {L i m : Nat} : m ∈ candidateList frame soft L i ↔
    ∃ t ∈ (smallest (bitReliability soft i) 31 L).sublists,
      hardMessage (flipAll (receivedWord frame i) t) = some m := by
  rw [candidateList, mem_filter, decide_eq_true_eq, mem_range, and_iff_right_iff_imp]
  rintro ⟨t,-,hm⟩
  exact hardMessage_lt hm

theorem candidates_spec (frame : IridiumFrame) (soft : List Int16) {L : Nat} (hL : L ≤ 31)
    (reg : SynRegistry) (h : RegistryValid reg) (i : Nat) :
    RegistryValid (candidates codewordCells soft (receivedWords frame) L reg i).1 ∧
    (candidates codewordCells soft (receivedWords frame) L reg i).2 =
    candidateList frame soft L i := by
  have hlcb : leastReliable (fun k => bitConf soft (70+codewordCells.getD (31*i+k) 0)) L =
      select (bitReliability soft i) 31 L := leastReliable_eq_select L
  have hrun := Runs.foldl_hidden (tryPattern_spec (receivedWord frame i)
    (select (bitReliability soft i) 31 L)) (List.range (1 <<< L)) reg [] h
  rw [candidates, hlcb]
  refine ⟨hrun.1, hrun.2.trans ?_⟩
  obtain ⟨hsorted,hmem⟩ := foldl_addMessage (receivedWord frame i)
    (select (bitReliability soft i) 31 L) (List.range (1 <<< L)) List.Pairwise.nil
  have hrange : (candidateList frame soft L i).Pairwise (· < ·) :=
    pairwise_lt_range.filter _
  refine hsorted.eq_of_mem_iff hrange fun m => ?_
  rw [hmem, mem_candidateList,
    ← exists_pattern_iff (bitReliability soft i) hL (fun cw => hardMessage cw = some m)]
  simp

theorem collect_spec {cands : SynRegistry → Nat → SynRegistry × List Nat} {c : Nat → List Nat}
    (hc : ∀ reg, RegistryValid reg → ∀ i, RegistryValid (cands reg i).1 ∧ (cands reg i).2 = c i)
    (failed : List Nat) (reg : SynRegistry) (h : RegistryValid reg) :
    RegistryValid (collect cands reg failed).1 ∧ (collect cands reg failed).2 =
      if ∀ i ∈ failed, c i ≠ [] then some (failed.map c) else none := by
  induction failed generalizing reg with
  | nil => exact ⟨h, by simp [collect]⟩
  | cons i failed ih =>
    obtain ⟨hvalid,hval⟩ := hc reg h i
    rw [collect]
    simp only [hval]
    by_cases hempty : c i = []
    · rw [if_pos hempty]
      refine ⟨hvalid, ?_⟩
      rw [if_neg]
      exact fun hall => hall i mem_cons_self hempty
    · rw [if_neg hempty]
      obtain ⟨hvalid',hval'⟩ := ih _ hvalid
      refine ⟨hvalid', ?_⟩
      simp only [hval', forall_mem_cons, ne_eq, hempty, not_false_eq_true, true_and]
      split <;> rfl

end

section

theorem map_mask_flipBit (bits : List UInt8) (i : Nat) :
    (flipBit bits i).map mask = flipBit (bits.map mask) i := by
  apply ext_getElem?
  intro k
  rw [flipBit, flipBit, getElem?_map, getElem?_modify, getElem?_modify,
    getElem?_map]
  cases bits[k]? with
  | none => rfl
  | some b => by_cases h : i = k <;> simp [h, mask_xor_one]

theorem cells_of_message {cw : List UInt8} (hm : cw.map mask = cw) (hl : 20 ≤ cw.length) :
    (toBits 20 (bitsToUint cw 20)).map cell = cw.take 20 := by
  have hlen : ((cw.take 20).map lsb).length = 20 := by
    rw [length_map, length_take, Nat.min_eq_left hl]
  have hcell : cell ∘ lsb = mask := funext fun b => (mask_eq_cell b).symm
  have hbits := toBits_ofBits ((cw.take 20).map lsb)
  rw [hlen] at hbits
  rw [bitsToUint_eq, hbits, map_map, hcell, map_take, hm]

variable {frame : IridiumFrame}

theorem map_mask_receivedWord (h : 382 ≤ frame.bits.length) (i : Nat) :
    (receivedWord frame i).map mask = receivedWord frame i := by
  have hmask : mask ∘ mask = mask := by
    funext b
    rw [Function.comp_apply, mask_eq_cell, lsb_mask]
    exact (mask_eq_cell b).symm
  rw [receivedWord, receivedWords, buildCodewords_take _ (by rw [length_drop]; omega),
    map_take, map_drop, map_map, hmask]

theorem length_receivedWord (h : 382 ≤ frame.bits.length) {i : Nat} (hi : i < 10) :
    (receivedWord frame i).length = 31 := by
  have hlen := length_buildCodewords (frame.bits.drop 70) (by rw [length_drop]; omega)
  rw [receivedWord, receivedWords, length_take, length_drop, hlen]
  omega

theorem hypothesisBits_eq (h : 382 ≤ frame.bits.length) (a : List Nat) :
    hypothesisBits ((List.range 10).map fun i => hardMessage (receivedWord frame i))
      (failedWords frame) a = assignedBits frame a := by
  rw [hypothesisBits, assignedBits, flatMap_def, flatMap_def]
  refine congrArg List.flatten (map_congr_left fun i hi => ?_)
  have hlt := mem_range.mp hi
  have hget : ((List.range 10).map fun i => hardMessage (receivedWord frame i)).getD i none =
      hardMessage (receivedWord frame i) := by
    simp [getD_eq_getElem?_getD, hlt]
  have hnone := hardMessage_isNone frame i
  simp only [hget]
  cases hm : hardMessage (receivedWord frame i) with
  | none =>
    rw [hm] at hnone
    have hfailed : blockFailed (receivedWords frame) i = true := hnone.symm
    rw [if_pos hfailed]
  | some m =>
    rw [hm] at hnone
    rw [if_neg (by rw [← hnone]; exact Bool.false_ne_true), blockBits,
      if_neg (by rw [← hnone]; exact Bool.false_ne_true)]
    rw [hardMessage] at hm
    split at hm
    · cases hm
    · cases hm
      have hmask := repair2Ref_closed (P := fun b => b.map mask = b)
        (fun b i hb => by rw [map_mask_flipBit, hb]) acchBchPoly _ (map_mask_receivedWord h i)
      refine cells_of_message hmask ?_
      rw [length_repair2Ref, length_receivedWord h hlt]
      decide

end

section
variable {st : ChaseState} {frame : IridiumFrame} {soft : List Int16} {out : ChaseDecoded}

def chased (L cap : Nat) (frame : IridiumFrame) (soft : List Int16) (out : ChaseDecoded) :
    Int × ChaseDecoded :=
  match ((assignments frame soft L).take cap).find? (accepts frame) with
  | none => (0, out)
  | some a => (1, accepted out (parsedTrial (assignedBits frame a))
      (((assignments frame soft L).take cap).findIdx (accepts frame)+1))

theorem failed_eq (frame : IridiumFrame) : ((List.range 10).filter fun i =>
    (((List.range 10).map fun i => hardMessage (receivedWord frame i)).getD i none).isNone) =
      failedWords frame := by
  refine filter_congr fun i hi => ?_
  rw [← hardMessage_isNone frame i]
  simp [getD_eq_getElem?_getD, mem_range.mp hi]

theorem chaseCombinations_spec (st : ChaseState) (hb : 382 ≤ frame.bits.length) (L : Nat)
    (hne : ∀ i ∈ failedWords frame, candidateList frame soft L i ≠ []) :
    (chaseCombinations st ((List.range 10).map fun i => hardMessage (receivedWord frame i))
      (failedWords frame) ((failedWords frame).map (candidateList frame soft L)) out).2 =
      chased L st.maxCrc frame soft out := by
  have hlists : ∀ c ∈ (failedWords frame).map (candidateList frame soft L), c ≠ [] := by
    intro c hc
    obtain ⟨i,hi,rfl⟩ := mem_map.mp hc
    exact hne i hi
  have hsearch : search 0 ((failedWords frame).map (candidateList frame soft L))
      (fun a => passes (parsedTrial (assignedBits frame a))) st.maxCrc
      (((failedWords frame).map (candidateList frame soft L)).map fun _ => 0) = _ :=
    search_zero hlists (accepts frame) st.maxCrc
  rw [chaseCombinations]
  simp only [hypothesisBits_eq hb, hsearch]
  rw [chased, assignments]
  cases hfind : ((product ((failedWords frame).map (candidateList frame soft L))).take
      st.maxCrc).find? (accepts frame) with
  | none => rfl
  | some a =>
    have hlt := findIdx_lt_length_of_exists ⟨a, mem_of_find?_eq_some hfind,
      find?_some hfind⟩
    simp only
    rw [Nat.min_eq_left hlt]

theorem chaseCombinations_inv {st : ChaseState} (h : ChaseInv st) (msgs : List (Option Nat))
    (failed : List Nat) (cands : List (List Nat)) (out : ChaseDecoded) :
    ChaseInv (chaseCombinations st msgs failed cands out).1 := by
  rw [chaseCombinations]
  simp only
  split
  · exact ⟨h.reg, h.mapLength, h.built, h.lMax⟩
  · exact ⟨h.reg, h.mapLength, h.built, h.lMax⟩

theorem chased_of_empty {L cap i : Nat} (hi : i ∈ failedWords frame)
    (h : candidateList frame soft L i = []) : chased L cap frame soft out = (0, out) := by
  rw [chased, assignments, product_eq_nil (mem_map_of_mem hi) h]
  simp

theorem decode_spec (h : ChaseInv st) (hon : st.enabled = true) (hlw : frame.type = .lw)
    (hda : frame.lwSubtype = .da) (hok : out.ok = false) (hs : 382 ≤ soft.length)
    (hb : 382 ≤ frame.bits.length) :
    ChaseInv (idaChaseDecode st frame soft out).1 ∧ (idaChaseDecode st frame soft out).2 =
      if failedWords frame = [] then (0, out) else chased st.L st.maxCrc frame soft out := by
  have hcands := candidates_spec frame soft (show st.L ≤ 31 by have := h.lMax; omega)
  have hwords : idaDecodeBuildCodewords (frame.bits.drop 70) = receivedWords frame := rfl
  obtain ⟨hvalid,hmsgs⟩ := hardPass_spec frame h.reg
  generalize hhard : (List.range 10).foldl (hardPass (receivedWords frame)) (st.reg, []) = hard
    at hvalid hmsgs
  obtain ⟨hvalid',hcollect⟩ := collect_spec hcands (failedWords frame) hard.1 hvalid
  generalize hfound : collect (candidates codewordCells soft (receivedWords frame) st.L) hard.1
    (failedWords frame) = found at hvalid' hcollect
  rw [idaChaseDecode, if_neg (by simp [hon]), if_neg (by simp [hlw, hda]), if_neg (by simp [hok]),
    if_neg (by rw [frameBitsNeeded]; omega), if_neg (by rw [frameBitsNeeded]; omega), h.map_eq]
  simp only [hwords, hhard, hmsgs, failed_eq, hfound]
  by_cases hfailed : failedWords frame = []
  · rw [if_pos hfailed, if_pos hfailed]
    exact ⟨⟨hvalid, length_codewordCells, fun _ => rfl, h.lMax⟩, rfl⟩
  rw [if_neg hfailed, if_neg hfailed, hcollect]
  have hinv : ChaseInv { st with
      map := codewordCells
      mapBuilt := true
      reg := found.1
      attempts := st.attempts+1 } := ⟨hvalid', length_codewordCells, fun _ => rfl, h.lMax⟩
  split_ifs with hall
  · exact ⟨chaseCombinations_inv hinv _ _ _ _, chaseCombinations_spec _ hb st.L hall⟩
  · push Not at hall
    obtain ⟨i,hi,hempty⟩ := hall
    exact ⟨hinv, (chased_of_empty hi hempty).symm⟩

theorem failedWords_eq_nil_iff (frame : IridiumFrame) :
    failedWords frame = [] ↔ ¬ ∃ i < 10, blockFailed (receivedWords frame) i = true := by
  rw [failedWords, filter_eq_nil_iff]
  simp

theorem decode_cases (frame : IridiumFrame) (soft : List Int16) (h : ChaseInv st)
    (hon : st.enabled = true) (hok : out.ok = false) :
    ChaseInv (idaChaseDecode st frame soft out).1 ∧
    ((Chaseable frame soft ∧
      (idaChaseDecode st frame soft out).2 = chased st.L st.maxCrc frame soft out) ∨
    (¬ Chaseable frame soft ∧ (idaChaseDecode st frame soft out).2 =
      (if frame.type = .lw ∧ frame.lwSubtype = .da then 0 else -1, out))) := by
  by_cases hlwda : frame.type = .lw ∧ frame.lwSubtype = .da
  · rw [if_pos hlwda]
    by_cases hs : 382 ≤ soft.length
    · by_cases hb : 382 ≤ frame.bits.length
      · obtain ⟨hinv,heq⟩ := decode_spec h hon hlwda.1 hlwda.2 hok hs hb
        refine ⟨hinv, ?_⟩
        by_cases hfailed : ∃ i < 10, blockFailed (receivedWords frame) i = true
        · rw [if_neg fun he => (failedWords_eq_nil_iff frame).mp he hfailed] at heq
          exact .inl ⟨⟨hlwda.1, hlwda.2, hs, hb, hfailed⟩, heq⟩
        · rw [if_pos ((failedWords_eq_nil_iff frame).mpr hfailed)] at heq
          exact .inr ⟨fun hc => hfailed hc.failed, heq⟩
      · rw [idaChaseDecode, if_neg (by simp [hon]), if_neg (by simp [hlwda]),
          if_neg (by simp [hok]), if_neg (by rw [frameBitsNeeded]; omega),
          if_pos (by rw [frameBitsNeeded]; omega)]
        exact ⟨h, .inr ⟨fun hc => hb hc.bits, rfl⟩⟩
    · rw [idaChaseDecode, if_neg (by simp [hon]), if_neg (by simp [hlwda]), if_neg (by simp [hok]),
        if_pos (by rw [frameBitsNeeded]; omega)]
      exact ⟨h, .inr ⟨fun hc => hs hc.metrics, rfl⟩⟩
  · rw [if_neg hlwda, idaChaseDecode, if_neg (by simp [hon]),
      if_pos (by rwa [← not_and_or])]
    exact ⟨h, .inr ⟨fun hc => hlwda ⟨hc.lw, hc.da⟩, rfl⟩⟩

theorem init_inv : ChaseInv .init where
  reg := init_valid
  mapLength := length_replicate
  built h := by cases h
  lMax := by decide

theorem decode_inv (h : ChaseInv st) : ChaseInv (idaChaseDecode st frame soft out).1 := by
  by_cases hon : st.enabled = true
  · by_cases hok : out.ok = true
    · rw [idaChaseDecode, if_neg (by simp [hon]), if_pos hok]
      split
      · exact h
      · exact h
    · exact (decode_cases frame soft h hon (Bool.eq_false_iff.mpr hok)).1
  · rwa [idaChaseDecode, if_pos (Bool.eq_false_iff.mpr hon)]

theorem stepChase_inv (h : ChaseInv st) (call : ChaseCall) : ChaseInv (stepChase st call) := by
  cases call with
  | enable on => exact ⟨h.reg, h.mapLength, h.built, h.lMax⟩
  | params L maxCrcChecks =>
    refine ⟨h.reg, h.mapLength, h.built, ?_⟩
    change (clamp 1 idaChaseMaxL L).toNat ≤ 6
    rw [clamp, idaChaseMaxL]
    split <;> omega
  | decode frame soft out => exact decode_inv h
  | repair call => exact ⟨stepRegistry_valid st.reg call h.reg, h.mapLength, h.built, h.lMax⟩

theorem runChase_inv (calls : List ChaseCall) : ChaseInv (runChase calls) := by
  rw [runChase]
  induction calls using List.reverseRecOn with
  | nil => exact init_inv
  | append_singleton calls call ih =>
    rw [foldl_append]
    exact stepChase_inv ih call

end

/-- Recovery exactly when an assignment within the cap is accepted, the first of them. -/
theorem ida_chase_exhaustive (calls : List ChaseCall) (frame : IridiumFrame) (soft : List Int16)
    (out : ChaseDecoded) (hon : (runChase calls).enabled = true) (hok : out.ok = false) :
    let tried := (assignments frame soft (runChase calls).L).take (runChase calls).maxCrc
    let result := (idaChaseDecode (runChase calls) frame soft out).2
    (result.1 = 1 ↔ Chaseable frame soft ∧ ∃ a ∈ tried, accepts frame a = true) ∧
    (∀ a, Chaseable frame soft → tried.find? (accepts frame) = some a →
      result = (1, accepted out (parsedTrial (assignedBits frame a))
        (tried.findIdx (accepts frame)+1))) ∧
    (¬ (Chaseable frame soft ∧ ∃ a ∈ tried, accepts frame a = true) →
      result = (if frame.type = .lw ∧ frame.lwSubtype = .da then 0 else -1, out)) := by
  intro tried result
  have hexists : (∃ a ∈ tried, accepts frame a = true) ↔
      (tried.find? (accepts frame)).isSome = true := find?_isSome.symm
  obtain ⟨-,⟨hchase,heq⟩ | ⟨hchase,heq⟩⟩ :=
    decode_cases frame soft (runChase_inv calls) hon hok
  · have hresult : result = match tried.find? (accepts frame) with
        | none => (0, out)
        | some a => (1, accepted out (parsedTrial (assignedBits frame a))
            (tried.findIdx (accepts frame)+1)) := heq
    rw [hexists, hresult]
    cases hfind : tried.find? (accepts frame) with
    | none => simp [hchase, hchase.lw, hchase.da]
    | some a => simp [hchase]
  · have hresult : result = _ := heq
    rw [hresult]
    refine ⟨⟨fun h1 => ?_, fun hc => absurd hc.1 hchase⟩, fun a hc => absurd hc hchase,
      fun _ => rfl⟩
    simp only at h1
    split at h1
    · cases h1
    · cases h1

def cleanFrame : IridiumFrame :=
  ⟨.lw, .downlink, .da, 0, (toBits 382
    0x2cd125080002000000000000000000000000000000000000000000000000000102210012123311).map cell⟩

/-- The clean frame with three bits of its first codeword inverted, one of them read as weak. -/
def damagedFrame : IridiumFrame :=
  { cleanFrame with bits := flipAll cleanFrame.bits [91, 114, 131] }

def weakSoft : List Int16 := (List.replicate 382 100).set 130 0

theorem receivedWord_damaged :
    receivedWord damagedFrame 0 =
      flipBit (flipBit (flipBit (receivedWord cleanFrame 0) 0) 7) 20 ∧
    (receivedWord cleanFrame 0).length = 31 ∧
    iridiumBchNdivide 3545 (receivedWord cleanFrame 0) = 0 ∧
    bitsToUint (receivedWord cleanFrame 0) 20 = 16 := by
  decide +kernel

theorem hardMessage_damaged : hardMessage (receivedWord damagedFrame 0) = none ∧
    hardMessage (flipBit (receivedWord damagedFrame 0) 0) = some 16 := by
  obtain ⟨hflips,hlen,hcode,hmsg⟩ := receivedWord_damaged
  rw [hflips, flipBit_comm _ 20 0, flipBit_comm _ 7 0, flipBit_flipBit, hardMessage,
    hardMessage, acchBchPoly,
    repair2Ref_three 3545 11 31 acch_bitLength (by decide) acch_separates _ hlen hcode 0 7 20
      (by decide) (by decide) (by decide),
    repair2Ref_two 3545 11 31 acch_bitLength (by decide) acch_separates _ hlen hcode 7 20
      (by decide) (by decide), hmsg]
  exact ⟨rfl, rfl⟩

theorem blockFailed_damaged : blockFailed (receivedWords damagedFrame) 0 = true ∧
    ∀ i ∈ List.range' 1 9, blockFailed (receivedWords damagedFrame) i = false := by
  refine ⟨?_, by decide +kernel⟩
  rw [← hardMessage_isNone, hardMessage_damaged.1]
  rfl

theorem failedWords_damaged : failedWords damagedFrame = [0] := by
  obtain ⟨hfirst,hrest⟩ := blockFailed_damaged
  rw [failedWords, show List.range 10 = 0::List.range' 1 9 from rfl, filter_cons_of_pos hfirst,
    filter_eq_nil_iff.mpr fun i hi => by rw [hrest i hi]; decide]

theorem candidateList_damaged : candidateList damagedFrame weakSoft 1 0 = [16] := by
  have hweak : smallest (bitReliability weakSoft 0) 31 1 = [0] := by decide +kernel
  obtain ⟨hfail,hflip⟩ := hardMessage_damaged
  refine (pairwise_lt_range.filter _).eq_of_mem_iff (pairwise_singleton _ 16) fun m => ?_
  change m ∈ candidateList damagedFrame weakSoft 1 0 ↔ _
  rw [mem_candidateList, hweak]
  simp [flipAll, hfail, hflip, eq_comm]

theorem accepts_damaged : accepts damagedFrame [16] = true := by
  obtain ⟨hfirst,hrest⟩ := blockFailed_damaged
  have hbits : assignedBits damagedFrame [16] = (toBits 20 16).map cell ++
      (List.range' 1 9).flatMap (blockBits (receivedWords damagedFrame)) := by
    rw [assignedBits, failedWords_damaged, show List.range 10 = 0::List.range' 1 9 from rfl,
      flatMap_cons, if_pos hfirst]
    exact congrArg _ (flatMap_congr fun i hi => by rw [hrest i hi]; rfl)
  rw [accepts, hbits]
  decide +kernel

/-- Flipping the weak bit leaves two errors, and the message they are corrected to is accepted. -/
theorem ida_chase_three_errors :
    (idaChaseDecode (runChase [.enable true, .params 1 16]) damagedFrame weakSoft
      ⟨IdaDecoded.blank, false, 0⟩).2 =
        (1, accepted ⟨IdaDecoded.blank, false, 0⟩
          (parsedTrial (assignedBits damagedFrame [16])) 1) := by
  have hchase : Chaseable damagedFrame weakSoft := by
    refine ⟨rfl, rfl, ?_, ?_, 0, by decide, blockFailed_damaged.1⟩
    · rw [weakSoft, length_set, length_replicate]
    · decide +kernel
  have htried : (assignments damagedFrame weakSoft 1).take 16 = [[16]] := by
    rw [assignments, failedWords_damaged, map_singleton, candidateList_damaged]
    rfl
  have hfind : ((assignments damagedFrame weakSoft 1).take 16).find? (accepts damagedFrame) =
      some [16] := by
    rw [htried, find?_cons_of_pos accepts_damaged]
  refine ((ida_chase_exhaustive [.enable true, .params 1 16] damagedFrame weakSoft
    ⟨IdaDecoded.blank, false, 0⟩ rfl rfl).2.1 [16] hchase hfind).trans ?_
  change (1, accepted _ _ (((assignments damagedFrame weakSoft 1).take 16).findIdx
    (accepts damagedFrame)+1)) = _
  rw [htried, findIdx_cons, accepts_damaged]
  rfl

/-- A frame of another type is refused, and one without a failed codeword is left alone. -/
theorem refused_and_clean_frames :
    (idaChaseDecode (runChase [.enable true]) ⟨.ms, .downlink, .none, 0, []⟩ []
      ⟨IdaDecoded.blank, false, 0⟩).2.1 = -1 ∧
    (idaChaseDecode (runChase [.enable true]) cleanFrame (List.replicate 382 0)
      ⟨IdaDecoded.blank, false, 0⟩).2.1 = 0 ∧
    assignments cleanFrame (List.replicate 382 0) 5 = [[]] ∧ accepts cleanFrame [] = true := by
  have hclean : failedWords cleanFrame = [] := by decide +kernel
  have hok : (ChaseDecoded.mk IdaDecoded.blank false 0).ok = false := rfl
  have hsoft : 382 ≤ (List.replicate 382 (0 : Int16)).length := length_replicate.ge
  have hbits : 382 ≤ cleanFrame.bits.length := by simp [cleanFrame]
  obtain ⟨-,heq⟩ := decode_spec (runChase_inv [.enable true]) rfl rfl rfl hok hsoft hbits
  rw [if_pos hclean] at heq
  refine ⟨rfl, by rw [heq], ?_, by decide +kernel⟩
  rw [assignments, hclean]
  rfl

end IridiumAcars.IdaChase
