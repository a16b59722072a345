import IridiumAcars.IdaChannel

/-! Every frame the encoder emits is classified as LW.DA. -/
namespace IridiumAcars.IdaClassify
open BitWord Bch IndexMap Interleave FrameClassify IdaEncode IdaCodewords IdaChannel List

variable (msg : List UInt8)

def lcwCells : List UInt8 := pairSwap buildLcwRawBits

theorem lcwCells_eq : lcwCells =
    [0,0,0,0,0,0,0,0,0,0,0,0,0,0,0,0,0,0,0,0,0,0,0,0,0,0,0,1,0,0,1,1,0,0,0,0,0,0,1,0,0,0,0,0,0,
      0] := by
  decide +kernel

theorem length_lcwCells : lcwCells.length = 46 := by
  rw [lcwCells_eq]
  rfl

theorem length_buildLcwRawBits : buildLcwRawBits.length = 46 := by
  have h := length_lcwCells
  rwa [lcwCells, length_pairSwap] at h

def chunkOne (msg : List UInt8) : List UInt8 :=
  chunk124FromCodewords (sentBlock msg 0) (sentBlock msg 1) (sentBlock msg 2) (sentBlock msg 3)

def dataCells (msg : List UInt8) : List UInt8 := ((chunkOne msg).take 82).map mask

theorem length_dataCells : (dataCells msg).length = 82 := by
  rw [dataCells, length_map, length_take, chunkOne, length_chunk124]
  rfl

theorem swappedPrefix_encoded :
    swappedPrefix (buildLcwRawBits ++ encodeDataSection msg) = lcwCells ++ dataCells msg := by
  have hraw := length_buildLcwRawBits
  have hsec := length_encodeDataSection msg
  have hlen : (buildLcwRawBits ++ encodeDataSection msg).length = 358 := by
    rw [length_append, hraw, hsec]
  have htake : (buildLcwRawBits ++ encodeDataSection msg).take 128 =
      buildLcwRawBits ++ (encodeDataSection msg).take 82 := by
    rw [take_append, take_of_length_le (by omega), hraw]
  have hchunk : (pairSwap (encodeDataSection msg)).take 82 = (chunkOne msg).take 82 := by
    rw [encodeDataSection, pairSwap_pairSwap, append_assoc]
    exact take_append_of_le_length (by rw [length_chunk124]; decide)
  have hmask : lcwCells.map mask = lcwCells := by
    rw [lcwCells_eq]
    rfl
  have hpre : swappedPrefix (buildLcwRawBits ++ encodeDataSection msg) =
      (pairSwap ((buildLcwRawBits ++ encodeDataSection msg).take 128)).map mask := by
    rw [swappedPrefix, hlen]
    rfl
  rw [hpre, htake, pairSwap_append _ _ (by omega), pairSwap_take _ 82 rfl (by omega), hchunk,
    map_append]
  change lcwCells.map mask ++ _ = _
  rw [hmask, dataCells]

theorem length_swapped : (lcwCells ++ dataCells msg).length = 128 := by
  rw [length_append, length_dataCells, length_lcwCells]

def bcConstCells : List Nat := (((evenCells 64).drop 12).take 19).map (6+·)

theorem bc_even_cells : ((evenCells 64).map (6+·)).take 31 =
    ((evenCells 124).drop 50).map (46+·) ++ bcConstCells := rfl

theorem bcConstCells_lt : ∀ i ∈ bcConstCells, i < lcwCells.length := by
  rw [length_lcwCells]
  decide

theorem bc_data_lt : ∀ i ∈ (evenCells 124).drop 50, i < 82 := by decide

theorem bc_even_word (h : msg.length = 200) :
    (deInterleavePair (((lcwCells ++ dataCells msg).drop 6).take 64)).2.take 31 =
      (sentBlock msg 0).drop 19 ++ (gather 0 bcConstCells lcwCells).map mask := by
  have hl := length_sentBlock msg h
  have hlen : (((lcwCells ++ dataCells msg).drop 6).take 64).length = 64 := by
    rw [length_take, length_drop, length_swapped]
    rfl
  have heven : gather 0 (evenCells 124) (chunkOne msg) = sentBlock msg 2 ++ sentBlock msg 0 :=
    gather_scatter 0 _ _ _ evenCells_nodup.1
      (by rw [length_scatter, length_replicate]; exact evenCells_lt.1)
      (by rw [length_append, hl 2 (by decide), hl 0 (by decide)]; rfl)
  have hdata : gather 0 ((evenCells 124).drop 50) (dataCells msg) = (sentBlock msg 0).drop 19 := by
    have hw := gather_window 0 ((evenCells 124).drop 50) (chunkOne msg) 0 82 bc_data_lt
    simp only [drop_zero, Nat.zero_add, map_id'] at hw
    have hz : mask 0 = 0 := rfl
    rw [dataCells, ← hz, gather_map, hw, gather_drop, heven, map_drop, map_append,
      map_mask_sentBlock, map_mask_sentBlock, show 50 = 31+19 from rfl, ← drop_drop,
      drop_left' (hl 2 (by decide))]
  rw [deInterleavePair, deInterleave, hlen]
  simp only
  rw [← map_take, gather_window 0 _ _ 6 64 evenCells_lt.2, ← gather_take, bc_even_cells,
    gather_append, gather_append_left _ _ _ _ bcConstCells_lt, ← length_lcwCells,
    gather_append_right, hdata, map_append, map_drop, map_mask_sentBlock]

theorem bc_const_word : (gather 0 bcConstCells lcwCells).map mask =
    [0,0,0,1,0,0,1,1,1,0,0,0,0,0,0,0,0,0,0] := by
  rw [lcwCells_eq]
  rfl

theorem length_headerBits (cont ctr : UInt8) (len : Nat) :
    (headerBits cont ctr len).length = 20 := rfl

theorem header_word (cont ctr : UInt8) (len : Nat) (hc : cont ≤ 1) (hctr : ctr ≤ 7)
    (hlen : len < 32) : ofBits ((headerBits cont ctr len).map lsb) =
      cont.toNat <<< 16 ^^^ ctr.toNat <<< 12 ^^^ len <<< 4 := by
  have h1 : cont.toNat ≤ 1 := UInt8.le_iff_toNat_le.mp hc
  have h7 : ctr.toNat ≤ 7 := UInt8.le_iff_toNat_le.mp hctr
  have hcont : (lsb (cont &&& 1)).toNat = cont.toNat := by
    change (lsb (mask cont)).toNat = _
    rw [lsb_mask, lsb]
    rcases (show cont.toNat = 0 ∨ cont.toNat = 1 by omega) with h | h <;> rw [h] <;> rfl
  have hz : lsb 0 = false := rfl
  rw [headerBits]
  simp only [map_append, map_lsb_fieldBits, ofBits_append, length_toBits, map_cons,
    map_nil, ofBits_toBits 3 _ (show ctr.toNat < 2^3 by omega), ofBits_toBits 5 _ hlen,
    length_cons, length_nil, ofBits_cons, ofBits_nil, hcont, hz]
  simp [Nat.shiftLeft_xor_distrib, ← Nat.shiftLeft_add]

def headSyndrome (h : Nat) : Nat :=
  polyModU32 (polyModU32 (h <<< 11) (3545 : UInt32).toNat <<< 19) (1207 : UInt32).toNat

theorem bcPoly_bitLength : u32BitLength (1207 : UInt32).toNat = 10+1 := by decide

theorem shift_head_lt (h : Nat) (hh : h < 2^20) : h <<< 11 < 2^32 := by
  rw [Nat.shiftLeft_eq]
  omega

theorem shift_parity_lt (h : Nat) (hh : h < 2^20) :
    polyModU32 (h <<< 11) (3545 : UInt32).toNat <<< 19 < 2^32 := by
  have := polyModU32_lt 3545 11 (h <<< 11) acch_bitLength (shift_head_lt h hh)
  rw [Nat.shiftLeft_eq]
  omega

theorem headSyndrome_xor (a b : Nat) (ha : a < 2^20) (hb : b < 2^20) :
    headSyndrome (a ^^^ b) = headSyndrome a ^^^ headSyndrome b := by
  rw [headSyndrome, Nat.shiftLeft_xor_distrib,
    polyModU32_xor 3545 11 _ _ acch_bitLength (shift_head_lt a ha) (shift_head_lt b hb),
    Nat.shiftLeft_xor_distrib,
    polyModU32_xor 1207 10 _ _ bcPoly_bitLength (shift_parity_lt a ha) (shift_parity_lt b hb)]
  rfl

theorem headerBlock_drop (head : List UInt8) (h : head.length = 20) (hl : head.drop 19 = [0]) :
    (bchEncodeBlock 3545 head).drop 19 = 0::fieldBits 11
      (polyModU32 (ofBits (head.map lsb) <<< 11) (3545 : UInt32).toNat) := by
  have hm : (head.map mask).drop 19 = [0] := by rw [← map_drop, hl]; rfl
  have hw : bitsToU32 (head.map mask ++ List.replicate 11 0) = ofBits (head.map lsb) <<< 11 := by
    have hmm : (head.map mask).map lsb = head.map lsb := by simp [Function.comp_def]
    rw [bitsToU32_eq _ (by simp [h]), map_append, hmm, ofBits_append, map_replicate,
      length_replicate, show lsb 0 = false from rfl, ofBits_replicate_false, Nat.xor_zero]
  have hr : iridiumBchNdivide 3545 (head.map mask ++ List.replicate 11 0) =
      polyModU32 (ofBits (head.map lsb) <<< 11) (3545 : UInt32).toNat := by
    rw [iridiumBchNdivide, if_neg (by simp), hw]
  simp only [bchEncodeBlock, acch_bitLength, Nat.add_sub_cancel, hr]
  rw [drop_append_of_le_length (by simp [h]), hm]
  rfl

theorem ndivide_bc_even (head : List UInt8) (h : head.length = 20) (hl : head.drop 19 = [0]) :
    iridiumBchNdivide 1207 ((bchEncodeBlock 3545 head).drop 19 ++
      [0,0,0,1,0,0,1,1,1,0,0,0,0,0,0,0,0,0,0]) = headSyndrome (ofBits (head.map lsb)) ^^^ 910 := by
  have h20 : ofBits (head.map lsb) < 2^20 := by
    have := ofBits_lt (head.map lsb)
    rwa [length_map, h] at this
  have hr := polyModU32_lt 3545 11 _ acch_bitLength (shift_head_lt _ h20)
  rw [headerBlock_drop head h hl]
  set r := polyModU32 (ofBits (head.map lsb) <<< 11) (3545 : UInt32).toNat with hrdef
  have hlen : (0::fieldBits 11 r ++ [0,0,0,1,0,0,1,1,1,0,0,0,0,0,0,0,0,0,0]).length = 31 := rfl
  have hw : bitsToU32 (0::fieldBits 11 r ++ [0,0,0,1,0,0,1,1,1,0,0,0,0,0,0,0,0,0,0]) =
      r <<< 19 ^^^ 39936 := by
    have hz : lsb 0 = false := rfl
    rw [bitsToU32_eq _ (by rw [hlen]; decide), map_append, ofBits_append, map_cons,
      map_lsb_fieldBits, hz, ofBits_cons, ofBits_toBits 11 r hr]
    simp only [Bool.toNat_false, Nat.zero_shiftLeft, Nat.zero_xor]
    rfl
  rw [iridiumBchNdivide, if_neg (by rw [hlen]; decide), hw,
    polyModU32_xor 1207 10 _ _ bcPoly_bitLength (shift_parity_lt _ h20) (by decide)]
  rfl

theorem headSyndrome_fields :
    (∀ cont < 2, ∀ ctr < 8, headSyndrome (cont <<< 16 ^^^ ctr <<< 12) =
      [0,366,732,946,271,97,979,701,139,485,599,825,388,234,856,566].getD (8*cont+ctr) 0) ∧
    ∀ len < 32, headSyndrome (len <<< 4) = 8*len := by
  decide +kernel

theorem fields_not_bc : ∀ cont < 2, ∀ ctr < 8, ∀ len < 32,
    [0,366,732,946,271,97,979,701,139,485,599,825,388,234,856,566].getD (8*cont+ctr) 0 ^^^ 8*len ≠
      910 := by
  decide +kernel

theorem not_classifyBc (h : msg.length = 200) (cont ctr : UInt8) (len : Nat) (hc : cont ≤ 1)
    (hctr : ctr ≤ 7) (hlen : len < 32) (hhead : msg.take 20 = headerBits cont ctr len) :
    classifyBc (lcwCells ++ dataCells msg) = false := by
  have h1 : cont.toNat ≤ 1 := UInt8.le_iff_toNat_le.mp hc
  have h7 : ctr.toNat ≤ 7 := UInt8.le_iff_toNat_le.mp hctr
  have hsent : sentBlock msg 0 = bchEncodeBlock 3545 (headerBits cont ctr len) := by
    rw [← hhead]
    rfl
  have hword : iridiumBchNdivide 1207
      ((deInterleavePair (((lcwCells ++ dataCells msg).drop 6).take 64)).2.take 31) ≠ 0 := by
    rw [bc_even_word msg h, bc_const_word, hsent, ndivide_bc_even _ rfl rfl,
      header_word cont ctr len hc hctr hlen,
      headSyndrome_xor _ _ (Nat.xor_lt_two_pow (by rw [Nat.shiftLeft_eq]; omega)
        (by rw [Nat.shiftLeft_eq]; omega)) (by rw [Nat.shiftLeft_eq]; omega),
      headSyndrome_fields.1 cont.toNat (by omega) ctr.toNat (by omega),
      headSyndrome_fields.2 len hlen, Ne, xor_eq_zero_iff_eq]
    exact fun he => fields_not_bc cont.toNat (by omega) ctr.toNat (by omega) len hlen he.symm
  rw [classifyBc, if_neg (by rw [length_swapped]; decide)]
  simp [hword]

theorem lcwWords_encoded : lcwWords (lcwCells ++ dataCells msg) =
    ([0,1,0,0,1,1,1], List.replicate 13 0, List.replicate 26 0) := by
  have hb : ∀ i ∈ FrameClassify.lcwTbl, i < lcwCells.length := by
    rw [length_lcwCells]
    decide
  have hconst : lcwWords lcwCells =
      ([0,1,0,0,1,1,1], List.replicate 13 0, List.replicate 26 0) := by
    rw [lcwCells_eq]
    rfl
  rw [← hconst]
  simp only [lcwWords, gather_append_left 0 _ lcwCells (dataCells msg) hb]

theorem classifyLw_encoded (reg : SynRegistry) (msg : List UInt8) :
    classifyLw reg (lcwCells ++ dataCells msg) = (reg, some .da) := by
  have h1 : iridiumBchNdivide 29 [0,1,0,0,1,1,1] = 0 := by decide
  have h3 : iridiumBchNdivide 41 (List.replicate 26 0) = 0 := by decide
  have h2 : iridiumBchNdivide 465 (List.replicate 13 0 ++ [0]) = 0 := by decide
  have hrep : iridiumBchRepair2 reg 465 (List.replicate 13 0 ++ [0]) =
      (reg, 0, List.replicate 13 0 ++ [0]) := by
    rw [iridiumBchRepair2, if_neg (by simp), h2]
    rfl
  rw [classifyLw, if_neg (by rw [length_swapped]; decide), lcwWords_encoded]
  simp only [h1, h3, hrep]
  rfl

theorem classify_encoded (harder : Bool) (reg : SynRegistry) (msg : List UInt8)
    (h : msg.length = 200) (cont ctr : UInt8) (len : Nat) (hc : cont ≤ 1) (hctr : ctr ≤ 7)
    (hn : len < 32) (hhead : msg.take 20 = headerBits cont ctr len) :
    iridiumFrameClassify harder reg (IdaEncode.uwDl ++ buildLcwRawBits ++ encodeDataSection msg)
      .downlink = (reg, some ⟨.lw, .downlink, .da, 24,
        IdaEncode.uwDl ++ buildLcwRawBits ++ encodeDataSection msg⟩) := by
  have huw : IdaEncode.uwDl.length = 24 := rfl
  have hlen : (IdaEncode.uwDl ++ buildLcwRawBits ++ encodeDataSection msg).length = 382 := by
    rw [length_append, length_append, length_buildLcwRawBits, length_encodeDataSection]
    rfl
  have hdrop : (IdaEncode.uwDl ++ buildLcwRawBits ++ encodeDataSection msg).drop 24 =
      buildLcwRawBits ++ encodeDataSection msg := by
    rw [append_assoc, drop_left' huw]
  have huwOk : bitsEqual (IdaEncode.uwDl ++ buildLcwRawBits ++ encodeDataSection msg)
      FrameClassify.uwDl = true := by
    have : (IdaEncode.uwDl ++ buildLcwRawBits ++ encodeDataSection msg).take 24 =
        FrameClassify.uwDl := by
      rw [append_assoc, take_left' huw]
      rfl
    rw [bitsEqual, show FrameClassify.uwDl.length = 24 from rfl, this]
    simp
  have hms : bitsEqual (lcwCells ++ dataCells msg) headerMessaging = false := by
    have hl : headerMessaging.length ≤ lcwCells.length := by rw [length_lcwCells]; decide
    rw [bitsEqual, take_append_of_le_length hl, lcwCells_eq]
    rfl
  have htl : looksLikeTimeLocation (lcwCells ++ dataCells msg) = false := by
    have h0 : (lcwCells ++ dataCells msg).getD 0 0 = 0 := by rw [lcwCells_eq]; rfl
    rw [looksLikeTimeLocation, if_neg (by rw [length_swapped]; decide),
      if_pos (Or.inl (by rw [h0]; decide))]
  have hbc := not_classifyBc msg h cont ctr len hc hctr hn hhead
  have hp : ¬ (buildLcwRawBits ++ encodeDataSection msg).length < 32 := by
    rw [length_append, length_encodeDataSection]
    omega
  generalize IdaEncode.uwDl ++ buildLcwRawBits ++ encodeDataSection msg = bits at *
  rw [iridiumFrameClassify, if_neg (by rw [hlen]; decide)]
  simp only [hdrop, swappedPrefix_encoded, if_neg hp]
  simp [huwOk, hms, htl, hbc, classifyLw_encoded]

end IridiumAcars.IdaClassify
