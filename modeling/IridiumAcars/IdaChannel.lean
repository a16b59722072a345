import IridiumAcars.BchDistance
import IridiumAcars.IdaCodewords

/-! From the encoder's data section to the ten received codewords. -/
namespace IridiumAcars.IdaChannel
open BitWord Bch IndexMap Interleave IdaDecode IdaEncode IdaCodewords List

variable (msg : List UInt8) (xs : List UInt8)

def sentBlock (msg : List UInt8) (i : Nat) : List UInt8 :=
  bchEncodeBlock 3545 ((msg.drop (20*i)).take 20)

def receivedBlock (sec : List UInt8) (i : Nat) : List UInt8 :=
  ((idaDecodeBuildCodewords sec).drop (31*i)).take 31

def flipPositions (flags : List Bool) : List Nat :=
  (List.range flags.length).filter fun k => flags.getD k false

theorem length_fieldBits (n v : Nat) : (fieldBits n v).length = n := by simp [fieldBits]

theorem map_lsb_fieldBits (n v : Nat) : (fieldBits n v).map lsb = toBits n v := map_lsb_cells _

theorem map_mask_fieldBits (n v : Nat) : (fieldBits n v).map mask = fieldBits n v :=
  map_mask_cells _

theorem take_bchEncodeBlock (poly : UInt32) (msg : List UInt8) :
    (bchEncodeBlock poly msg).take msg.length = msg.map mask := by
  have h : (msg.map mask).length = msg.length := by simp
  rw [bchEncodeBlock, ← h, take_left]

theorem map_mask_bchEncodeBlock (poly : UInt32) (msg : List UInt8) :
    (bchEncodeBlock poly msg).map mask = bchEncodeBlock poly msg := by
  have hm : (msg.map mask).map mask = msg.map mask := by
    rw [map_map]
    apply map_congr_left
    intro b _
    rw [Function.comp_apply, mask_eq_cell b, mask_cell]
  simp [bchEncodeBlock, map_mask_fieldBits, hm]

section
variable (poly : UInt32) (d : Nat) (hp : u32BitLength poly.toNat = d+1) (msg : List UInt8)
include hp

theorem length_bchEncodeBlock : (bchEncodeBlock poly msg).length = msg.length+d := by
  simp [bchEncodeBlock, hp, length_fieldBits]

theorem ndivide_bchEncodeBlock (hl : msg.length+d ≤ 32) :
    iridiumBchNdivide poly (bchEncodeBlock poly msg) = 0 := by
  by_cases h0 : msg.length+d = 0
  · rw [iridiumBchNdivide, if_pos (by rw [length_bchEncodeBlock poly d hp, h0])]
  set head := msg.map mask with hh
  have hlen : head.length = msg.length := by simp [hh]
  have hz : (head ++ List.replicate d 0).length = msg.length+d := by simp [hlen]
  set r := iridiumBchNdivide poly (head ++ List.replicate d 0) with hr
  have hw : bitsToU32 (head ++ List.replicate d 0) = ofBits (head.map lsb) <<< d := by
    rw [bitsToU32_eq _ (by omega), map_append, ofBits_append, map_replicate]
    have : lsb 0 = false := rfl
    rw [this, ofBits_replicate_false, length_replicate]
    simp
  have hr' : r = polyModU32 (ofBits (head.map lsb) <<< d) poly.toNat := by
    rw [hr, iridiumBchNdivide, if_neg (by omega), hw]
  have hlt : r < 2^d := by
    rw [hr', ← hw]
    exact polyModU32_lt poly d _ hp (bitsToU32_lt _)
  have hcw : bchEncodeBlock poly msg = head ++ fieldBits d r := by
    simp [bchEncodeBlock, hp, hr, hh]
  have hsum : bitsToU32 (head ++ fieldBits d r) = (ofBits (head.map lsb) <<< d) ^^^ r := by
    rw [bitsToU32_eq _ (by rw [length_append, length_fieldBits]; omega), map_append,
      map_lsb_fieldBits, ofBits_append, length_toBits, ofBits_toBits d r hlt]
  have h32 : r < 2^32 := lt_of_lt_of_le hlt (Nat.pow_le_pow_right (by decide) (by omega))
  have hself : polyModU32 r poly.toNat = r := by
    rw [polyModU32_divide poly d r hp h32, WordDivision.divide_of_lt _ _ _ _ hlt]
  rw [hcw, iridiumBchNdivide, if_neg (by rw [length_append, length_fieldBits]; omega), hsum,
    polyModU32_xor poly d _ _ hp (hw ▸ bitsToU32_lt _) h32, ← hr', hself, Nat.xor_self]

end

theorem acch_bitLength : u32BitLength (3545 : UInt32).toNat = 11+1 := by decide

section
variable (msg : List UInt8) (h : msg.length = 200)
include h

theorem length_slice (i : Nat) (hi : i < 10) : ((msg.drop (20*i)).take 20).length = 20 := by
  rw [length_take, length_drop, h]
  omega

theorem length_sentBlock (i : Nat) (hi : i < 10) : (sentBlock msg i).length = 31 := by
  rw [sentBlock, length_bchEncodeBlock _ 11 acch_bitLength, length_slice msg h i hi]

theorem ndivide_sentBlock (i : Nat) (hi : i < 10) : iridiumBchNdivide 3545 (sentBlock msg i) = 0 :=
  ndivide_bchEncodeBlock _ 11 acch_bitLength _ (by rw [length_slice msg h i hi]; decide)

theorem take_sentBlock (i : Nat) (hi : i < 10) :
    (sentBlock msg i).take 20 = ((msg.drop (20*i)).take 20).map mask := by
  have := take_bchEncodeBlock 3545 ((msg.drop (20*i)).take 20)
  rwa [length_slice msg h i hi] at this

end

theorem map_mask_sentBlock (i : Nat) :
    (sentBlock msg i).map mask = sentBlock msg i :=
  map_mask_bchEncodeBlock _ _

theorem oddCells_nodup : (oddCells 124).Nodup ∧ (oddCells 64).Nodup := by decide

theorem evenCells_nodup : (evenCells 124).Nodup ∧ (evenCells 64).Nodup := by decide

theorem odd_notMem_even : (∀ i ∈ oddCells 124, i ∉ evenCells 124) ∧
    (∀ i ∈ oddCells 64, i ∉ evenCells 64) := by decide

theorem deInterleave_inverse (odd even : List UInt8) (n : Nat)
    (ho : (oddCells n).Nodup) (he : (evenCells n).Nodup) (hd : ∀ i ∈ oddCells n, i ∉ evenCells n)
    (hob : ∀ i ∈ oddCells n, i < n) (heb : ∀ i ∈ evenCells n, i < n)
    (hol : odd.length = (oddCells n).length) (hel : even.length = (evenCells n).length) :
    deInterleave (deInterleaveInverse odd even n) = (odd.map mask, even.map mask) := by
  have hlen : (deInterleaveInverse odd even n).length = n := by simp [deInterleaveInverse]
  have hodd : gather 0 (oddCells n) (deInterleaveInverse odd even n) = odd := by
    calc gather 0 (oddCells n) (deInterleaveInverse odd even n)
        = gather 0 (oddCells n) (scatter (oddCells n) odd (List.replicate n 0)) :=
          map_congr_left fun i hi => getD_scatter_of_notMem 0 _ _ _ i (hd i hi)
      _ = odd := gather_scatter 0 _ odd _ ho (by simpa using hob) hol
  have heven : gather 0 (evenCells n) (deInterleaveInverse odd even n) = even :=
    gather_scatter 0 _ even _ he (by simpa using heb) hel
  rw [deInterleave, hlen, hodd, heven]

theorem chunk_roundtrip (cw : Nat → List UInt8) (a b c d : Nat)
    (ha : (cw a).length = 31) (hb : (cw b).length = 31) (hc : (cw c).length = 31)
    (hd : (cw d).length = 31) :
    chunk124ToCodewords (chunk124FromCodewords (cw a) (cw b) (cw c) (cw d)) =
      (cw a ++ cw b ++ cw c ++ cw d).map mask := by
  have hinv := deInterleave_inverse (cw d ++ cw b) (cw c ++ cw a) 124 oddCells_nodup.1
    evenCells_nodup.1 odd_notMem_even.1 oddCells_lt.1 evenCells_lt.1
    (by rw [length_append, hd, hb]; rfl) (by rw [length_append, hc, ha]; rfl)
  rw [chunk124ToCodewords, chunk124FromCodewords, hinv]
  simp [drop_append, ha, hb, hc, hd, take_of_length_le,
    drop_of_length_le]

theorem tail_roundtrip (cw8 cw9 : List UInt8) (h8 : cw8.length = 31) (h9 : cw9.length = 31) :
    tail64ToCodewords (tail64FromCodewords cw8 cw9) = (cw8 ++ cw9).map mask := by
  have hinv := deInterleave_inverse (0::cw9) (0::cw8) 64 oddCells_nodup.2
    evenCells_nodup.2 odd_notMem_even.2 oddCells_lt.2 evenCells_lt.2
    (by rw [length_cons, h9]; rfl) (by rw [length_cons, h8]; rfl)
  rw [tail64ToCodewords, tail64FromCodewords, hinv]
  simp [h8, h9, take_of_length_le]

theorem length_chunk124 (a b c d : List UInt8) : (chunk124FromCodewords a b c d).length = 124 := by
  simp [chunk124FromCodewords, deInterleaveInverse]

theorem length_tail64 (a b : List UInt8) : (tail64FromCodewords a b).length = 64 := by
  simp [tail64FromCodewords, deInterleaveInverse]

theorem length_encodeDataSection : (encodeDataSection msg).length = 312 := by
  simp [encodeDataSection, length_chunk124, length_tail64]

theorem buildCodewords_encode (h : msg.length = 200) :
    idaDecodeBuildCodewords (encodeDataSection msg) = (List.range 10).flatMap (sentBlock msg) := by
  have hl := length_sentBlock msg h
  have hm := map_mask_sentBlock msg
  have ht : (encodeDataSection msg).take 312 = encodeDataSection msg :=
    take_of_length_le (by rw [length_encodeDataSection])
  have hsec : pairSwap (encodeDataSection msg) =
      chunk124FromCodewords (sentBlock msg 0) (sentBlock msg 1) (sentBlock msg 2)
        (sentBlock msg 3) ++
      (chunk124FromCodewords (sentBlock msg 4) (sentBlock msg 5) (sentBlock msg 6) (sentBlock msg 7)
      ++ tail64FromCodewords (sentBlock msg 8) (sentBlock msg 9)) := by
    rw [← append_assoc]
    exact pairSwap_pairSwap _
  simp only [idaDecodeBuildCodewords, ht, hsec]
  rw [show 248 = 124+124 from rfl, ← drop_drop,
    take_left' (length_chunk124 _ _ _ _), drop_left' (length_chunk124 _ _ _ _),
    take_left' (length_chunk124 _ _ _ _), drop_left' (length_chunk124 _ _ _ _),
    take_of_length_le (by rw [length_tail64]),
    chunk_roundtrip (sentBlock msg) 0 1 2 3 (hl 0 (by decide)) (hl 1 (by decide)) (hl 2 (by decide))
      (hl 3 (by decide)),
    chunk_roundtrip (sentBlock msg) 4 5 6 7 (hl 4 (by decide)) (hl 5 (by decide)) (hl 6 (by decide))
      (hl 7 (by decide)),
    tail_roundtrip _ _ (hl 8 (by decide)) (hl 9 (by decide))]
  simp [range_succ, hm]

theorem receivedBlock_encode (h : msg.length = 200) (i : Nat) (hi : i < 10) :
    receivedBlock (encodeDataSection msg) i = sentBlock msg i := by
  rw [receivedBlock, buildCodewords_encode msg h]
  exact window_flatMap _ 31 10 i (length_sentBlock msg h) hi

theorem receivedBlock_eq_gather (sec : List UInt8) (h : sec.length = 312) (i : Nat) :
    receivedBlock sec i = (gather 0 (cellsOf i) sec).map mask := by
  rw [receivedBlock, buildCodewords_eq_gather sec h, cellsOf, gather_take, gather_drop,
    map_take, map_drop]

variable (fs : List Bool)

@[simp] theorem length_applyFlips :
    (applyFlips xs fs).length = min xs.length fs.length := by
  simp [applyFlips]

theorem mask_xor_one (b : UInt8) : mask (b ^^^ 1) = mask b ^^^ 1 := by
  rw [mask_eq_cell, mask_eq_cell, lsb_xor_one]
  cases lsb b <;> rfl

theorem map_mask_applyFlips :
    (applyFlips xs fs).map mask = applyFlips (xs.map mask) fs := by
  rw [applyFlips, applyFlips, map_zipWith, zipWith_map_left]
  congr 1
  funext c f
  cases f <;> simp [mask_xor_one]

theorem gather_applyFlips (idx : List Nat) (xs : List UInt8) (fs : List Bool)
    (hl : xs.length = fs.length) (hb : ∀ i ∈ idx, i < xs.length) :
    gather 0 idx (applyFlips xs fs) = applyFlips (gather 0 idx xs) (gather false idx fs) := by
  rw [gather, gather, gather, applyFlips, applyFlips, zipWith_map, zipWith_self]
  apply map_congr_left
  intro i hi
  have hx := hb i hi
  have hf : i < fs.length := hl ▸ hx
  simp [getD_eq_getElem?_getD, hx, hf]

theorem codewordCells_spec : codewordCells.length = 310 ∧ ∀ i ∈ codewordCells, i < 312 := by
  decide +kernel

theorem length_codewordCells : codewordCells.length = 310 := codewordCells_spec.1

theorem length_cellsOf (i : Nat) (hi : i < 10) : (cellsOf i).length = 31 := by
  rw [cellsOf, length_take, length_drop, length_codewordCells]
  omega

theorem cellsOf_lt (i : Nat) : ∀ k ∈ cellsOf i, k < 312 := fun k hk =>
  codewordCells_spec.2 k (mem_of_mem_drop (mem_of_mem_take hk))

theorem receivedBlock_applyFlips (flips : List Bool) (h : msg.length = 200)
    (hf : flips.length = 312) (i : Nat) (hi : i < 10) :
    receivedBlock (applyFlips (encodeDataSection msg) flips) i =
      applyFlips (sentBlock msg i) (gather false (cellsOf i) flips) := by
  have hs := length_encodeDataSection msg
  rw [receivedBlock_eq_gather _ (by simp [hs, hf]),
    gather_applyFlips _ _ _ (by rw [hs, hf]) (by rw [hs]; exact cellsOf_lt i), map_mask_applyFlips,
    ← receivedBlock_eq_gather _ hs, receivedBlock_encode msg h i hi]

variable (flags : List Bool)

theorem flipPositions_sorted : (flipPositions flags).Pairwise (· < ·) :=
  pairwise_lt_range.filter _

theorem flipPositions_lt : ∀ k ∈ flipPositions flags, k < flags.length :=
  fun _ hk => mem_range.mp (mem_of_mem_filter hk)

theorem mem_flipPositions (k : Nat) :
    k ∈ flipPositions flags ↔ flags.getD k false = true := by
  rw [flipPositions, mem_filter, mem_range]
  refine ⟨fun h => h.2, fun h => ⟨?_, h⟩⟩
  by_contra hn
  rw [getD_eq_default _ _ (by omega)] at h
  exact absurd h (by decide)

theorem length_flipPositions :
    (flipPositions flags).length = flags.count true := by
  have hmap : (List.range flags.length).map (fun k => flags.getD k false) = flags := by
    apply ext_getElem
    · simp
    · intro k hk hb
      simp [getD_eq_getElem?_getD, hb]
  rw [flipPositions, ← countP_eq_length_filter]
  nth_rewrite 3 [← hmap]
  rw [List.count, countP_map]
  congr 1
  funext k
  simp

theorem getElem?_flipAll (is : List Nat) (hn : is.Nodup) (k : Nat) :
    (flipAll xs is)[k]? = if k ∈ is then xs[k]?.map (· ^^^ 1) else xs[k]? := by
  induction is generalizing xs with
  | nil => simp [flipAll]
  | cons i is ih =>
    obtain ⟨hi,hn'⟩ := nodup_cons.mp hn
    change (flipAll (flipBit xs i) is)[k]? = _
    rw [ih _ hn', flipBit, getElem?_modify]
    by_cases hk : i = k
    · subst hk
      simp [hi]
    · have hk' : k ≠ i := fun he => hk he.symm
      by_cases hm : k ∈ is <;> simp [hk, hk', hm]

theorem applyFlips_eq_flipAll (h : xs.length = fs.length) :
    applyFlips xs fs = flipAll xs (flipPositions fs) := by
  apply ext_getElem?
  intro k
  rw [getElem?_flipAll _ _ ((flipPositions_sorted fs).imp fun hab => Nat.ne_of_lt hab),
    applyFlips, getElem?_zipWith]
  simp only [mem_flipPositions]
  by_cases hk : k < xs.length
  · have hf : k < fs.length := h ▸ hk
    simp only [getElem?_eq_getElem hk, getElem?_eq_getElem hf, Option.map_some,
      getD_eq_getElem?_getD, Option.getD_some]
    cases fs[k] <;> simp
  · have hf : fs.length ≤ k := by omega
    simp [getElem?_eq_none (show xs.length ≤ k by omega)]

end IridiumAcars.IdaChannel
