import IridiumAcars.IdaClassify
import IridiumAcars.IdaCorrection

/-! Encoding an LW.DA frame and decoding it again; a payload over twenty bytes meets the CRC field.
-/
namespace IridiumAcars.IdaRoundTrip
open BitWord Bch IndexMap Interleave Crc16 FrameClassify IdaDecode IdaCodewords IdaChannel
  IdaCorrection List
open IdaClassify
open IdaEncode (EncodeResult fieldBits headerBits payloadBits messageBits crcInput
  encodeDataSection idaEncodeDaFrame buildLcwRawBits)

variable (cont ctr : UInt8) (payload : List UInt8)

def bodyBytes (payload : List UInt8) : List UInt8 := (payload ++ List.replicate 20 0).take 20

def frameCrc (cont ctr : UInt8) (payload : List UInt8) : Nat :=
  crc16CcittFalse (crcInput (messageBits cont ctr payload))

def sentBytes (cont ctr : UInt8) (payload : List UInt8) : List UInt8 :=
  bodyBytes payload ++ crcBytes (frameCrc cont ctr payload)

def RoundTrips (harder : Bool) (reg : SynRegistry) (cont ctr : UInt8) (payload : List UInt8) :
    Prop :=
  ∃ bits, idaEncodeDaFrame cont ctr payload = .frame bits ∧ bits.length = 382 ∧
  ∃ reg' frame, iridiumFrameClassify harder reg bits .downlink = (reg', some frame) ∧
    frame.type = .lw ∧ frame.lwSubtype = .da ∧
  ∃ reg'' out, idaDecode reg' frame = (reg'', some out) ∧ out.ok = true ∧ out.headerOk = true ∧
    out.crcOk = true ∧ out.blocksOk = 10 ∧ out.totalErrors = 0 ∧ out.daCont = cont.toNat ∧
    out.daCtr = ctr.toNat ∧ out.payload = payload

theorem length_payloadBits :
    (payloadBits payload).length = 8*payload.length := by
  induction payload with
  | nil => rfl
  | cons b rest ih =>
    change (fieldBits 8 b.toNat ++ payloadBits rest).length = _
    rw [length_append, ih, length_fieldBits, length_cons]
    omega

theorem payloadBits_append (xs ys : List UInt8) :
    payloadBits (xs ++ ys) = payloadBits xs ++ payloadBits ys := flatMap_append

theorem payloadBits_take (xs : List UInt8) (k : Nat) :
    payloadBits (xs.take k) = (payloadBits xs).take (8*k) := by
  by_cases h : k ≤ xs.length
  · have hl : (payloadBits (xs.take k)).length = 8*k := by
      rw [length_payloadBits, length_take, Nat.min_eq_left h]
    conv_rhs => rw [← take_append_drop k xs, payloadBits_append]
    rw [take_left' hl]
  · rw [take_of_length_le (by omega),
      take_of_length_le (by rw [length_payloadBits]; omega)]

theorem payloadBits_zeros (n : Nat) :
    payloadBits (List.replicate n 0) = List.replicate (8*n) 0 := by
  induction n with
  | zero => rfl
  | succ n ih =>
    have hz : fieldBits 8 (0 : UInt8).toNat = List.replicate 8 0 := rfl
    rw [replicate_succ, payloadBits, flatMap_cons, hz]
    change List.replicate 8 0 ++ payloadBits (List.replicate n 0) = _
    rw [ih, replicate_append_replicate]
    congr 1
    omega

variable (bytes : List UInt8)

theorem map_lsb_payloadBits :
    (payloadBits bytes).map lsb = bytes.flatMap fun b => toBits 8 b.toNat := by
  rw [payloadBits, map_flatMap]
  apply flatMap_congr
  intro b _
  exact map_lsb_fieldBits 8 b.toNat

theorem fieldBits_crc (crc : Nat) : fieldBits 16 crc = payloadBits (crcBytes crc) := by
  have h8 (v : Nat) : fieldBits 8 (UInt8.ofNat v).toNat = fieldBits 8 v := by
    rw [UInt8.toNat_ofNat', fieldBits, toBits_mod, fieldBits]
  have hsplit : toBits 16 crc = toBits 8 (crc >>> 8) ++ toBits 8 crc := by
    simp [toBits, range_succ, Nat.testBit_shiftRight]
  have hbytes : payloadBits (crcBytes crc) = fieldBits 8 (UInt8.ofNat (crc >>> 8)).toNat ++
      (fieldBits 8 (UInt8.ofNat crc).toNat ++ []) := rfl
  rw [hbytes, h8, h8, append_nil, fieldBits, hsplit, map_append]
  rfl

theorem messageBits_eq :
    messageBits cont ctr payload = headerBits cont ctr payload.length ++ payloadBits payload ++
      List.replicate (180-8*payload.length) 0 := by
  have h1 := writeAt_replicate [] (headerBits cont ctr payload.length) (0 : UInt8) 0 200 rfl
  have h2 := writeAt_replicate (headerBits cont ctr payload.length) (payloadBits payload)
    (0 : UInt8) 20 180 rfl
  rw [nil_append, nil_append, length_headerBits] at h1
  rw [messageBits, h1, h2, length_payloadBits]

theorem length_bodyBytes : (bodyBytes payload).length = 20 := by
  simp [bodyBytes]

theorem length_sentBytes :
    (sentBytes cont ctr payload).length = 22 := by
  simp [sentBytes, length_bodyBytes, crcBytes]

theorem payload_window :
    (payloadBits payload ++ List.replicate (180-8*payload.length) 0).take 160 =
      payloadBits (bodyBytes payload) := by
  rw [bodyBytes, payloadBits_take, payloadBits_append, payloadBits_zeros, take_append,
    take_append, length_payloadBits, take_replicate, take_replicate]
  congr 2
  omega

theorem take_messageBits :
    (messageBits cont ctr payload).take 20 = headerBits cont ctr payload.length := by
  rw [messageBits_eq, append_assoc, take_left' (length_headerBits _ _ _)]

theorem drop_messageBits :
    ((messageBits cont ctr payload).drop 20).take 160 = payloadBits (bodyBytes payload) := by
  rw [messageBits_eq, append_assoc, drop_left' (length_headerBits _ _ _), payload_window]

theorem fullMessage_eq (h : payload.length ≤ 22) :
    writeAt (messageBits cont ctr payload) 180 (fieldBits 16 (frameCrc cont ctr payload)) =
      headerBits cont ctr payload.length ++
        (payloadBits (sentBytes cont ctr payload) ++ List.replicate 4 0) := by
  have htake : (messageBits cont ctr payload).take 180 =
      headerBits cont ctr payload.length ++ payloadBits (bodyBytes payload) := by
    rw [show 180 = 20+160 from rfl, take_add, take_messageBits, drop_messageBits]
  have hdrop : (messageBits cont ctr payload).drop 196 = List.replicate 4 0 := by
    have hl : (headerBits cont ctr payload.length ++ payloadBits payload).length =
        20+8*payload.length := by
      rw [length_append, length_headerBits, length_payloadBits]
    rw [messageBits_eq, drop_append, drop_of_length_le (by omega), nil_append,
      drop_replicate, hl]
    congr 1
    omega
  rw [writeAt, length_fieldBits, htake, hdrop, fieldBits_crc, sentBytes, payloadBits_append,
    append_assoc, append_assoc, append_assoc]

def headerBytes (cont ctr : UInt8) (len : Nat) : List UInt8 :=
  packBytes ((headerBits cont ctr len).map lsb ++ List.replicate 12 false)

theorem length_headerCrcBits (len : Nat) :
    ((headerBits cont ctr len).map lsb ++ List.replicate 12 false).length = 32 := rfl

theorem crcInput_eq :
    crcInput (messageBits cont ctr payload) =
      headerBytes cont ctr payload.length ++ bodyBytes payload := by
  rw [crcInput, take_messageBits, drop_messageBits, map_lsb_payloadBits,
    packBytes_append _ _ (by rw [length_headerCrcBits]), packBytes_flatMap]
  rfl

theorem nonzero_payloadBits :
    ((payloadBits bytes).map fun b => decide (b ≠ 0)) =
      bytes.flatMap fun b => toBits 8 b.toNat := by
  have hcell (b : Bool) : decide (cell b ≠ 0) = b := by cases b <;> rfl
  rw [payloadBits, map_flatMap]
  apply flatMap_congr
  intro b _
  rw [fieldBits, map_map]
  exact (map_congr_left fun c _ => hcell c).trans (map_id _)

theorem crcBuf_full :
    crc16CcittFalse (crcBuf (headerBits cont ctr payload.length ++
      (payloadBits (sentBytes cont ctr payload) ++ List.replicate 4 0))) = 0 := by
  have hl : (payloadBits (sentBytes cont ctr payload)).length = 176 := by
    rw [length_payloadBits, length_sentBytes]
  rw [crcBuf, take_left' (length_headerBits _ _ _), drop_left' (length_headerBits _ _ _),
    take_left' hl, nonzero_payloadBits, packBytes_append _ _ (by rw [length_headerCrcBits]),
    packBytes_flatMap, sentBytes, ← append_assoc]
  change crc16CcittFalse (headerBytes cont ctr payload.length ++ bodyBytes payload ++ _) = 0
  rw [← crcInput_eq, frameCrc, crc_append_crcBytes]

theorem packBitsN_eq (b : List UInt8) (off n : Nat) (h : off+n ≤ b.length) :
    packBitsN b off n = ofBits (((b.drop off).take n).map lsb) := by
  have hwin : (b.drop off).take n = (List.range n).map fun k => b.getD (off+k) 0 := by
    apply ext_getElem
    · simp
      omega
    · intro k hk hk'
      have hkn : k < n := by simpa using hk'
      simp [getD_eq_getElem?_getD, show off+k < b.length by omega]
  rw [packBitsN, hwin, map_map, ofBits, foldl_map]
  congr 1
  funext v k
  rw [Function.comp_apply, and_one_eq_lsb]

theorem packBitsN_append (head rest : List UInt8) (off n : Nat) (h : off+n ≤ head.length) :
    packBitsN (head ++ rest) off n = ofBits (((head.drop off).take n).map lsb) := by
  rw [packBitsN_eq _ _ _ (by rw [length_append]; omega),
    drop_append_of_le_length (by omega),
    take_append_of_le_length (by rw [length_drop]; omega)]

section
variable (cont ctr : UInt8) (len : Nat) (rest : List UInt8)

theorem header_daCont (hc : cont ≤ 1) :
    packBitsN (headerBits cont ctr len ++ rest) 3 1 = cont.toNat := by
  have h1 : cont.toNat ≤ 1 := UInt8.le_iff_toNat_le.mp hc
  rw [packBitsN_append _ _ _ _ (by rw [length_headerBits]; decide)]
  change ofBits [lsb (mask cont)] = _
  rw [lsb_mask, lsb]
  rcases (show cont.toNat = 0 ∨ cont.toNat = 1 by omega) with h | h <;> rw [h] <;> rfl

theorem header_daCtr (hctr : ctr ≤ 7) :
    packBitsN (headerBits cont ctr len ++ rest) 5 3 = ctr.toNat := by
  have h7 : ctr.toNat ≤ 7 := UInt8.le_iff_toNat_le.mp hctr
  rw [packBitsN_append _ _ _ _ (by rw [length_headerBits]; decide)]
  change ofBits ((fieldBits 3 ctr.toNat).map lsb) = _
  rw [map_lsb_fieldBits, ofBits_toBits 3 _ (by omega)]

theorem header_daLen (hlen : len < 32) :
    packBitsN (headerBits cont ctr len ++ rest) 11 5 = len := by
  rw [packBitsN_append _ _ _ _ (by rw [length_headerBits]; decide)]
  change ofBits ((fieldBits 5 len).map lsb) = _
  rw [map_lsb_fieldBits, ofBits_toBits 5 _ hlen]

theorem header_zero1 : packBitsN (headerBits cont ctr len ++ rest) 17 3 = 0 := by
  rw [packBitsN_append _ _ _ _ (by rw [length_headerBits])]
  rfl

end

theorem payloadBits_window (i : Nat) (hi : i < bytes.length) :
    ((payloadBits bytes).drop (8*i)).take 8 = fieldBits 8 (bytes.get ⟨i, hi⟩).toNat := by
  have hb : bytes = bytes.take i ++ bytes.get ⟨i, hi⟩::bytes.drop (i+1) := by simp
  have hl : (payloadBits (bytes.take i)).length = 8*i := by
    rw [length_payloadBits, length_take, Nat.min_eq_left (by omega)]
  conv_lhs => rw [hb, payloadBits_append]
  rw [drop_left' hl]
  exact take_left' (length_fieldBits 8 _)

theorem packBitsN_payload (head bytes tail : List UInt8) (hh : head.length = 20) (i : Nat)
    (hi : i < bytes.length) :
    UInt8.ofNat (packBitsN (head ++ (payloadBits bytes ++ tail)) (20+i*8) 8) =
      bytes.get ⟨i, hi⟩ := by
  have hl := length_payloadBits bytes
  rw [packBitsN_eq _ _ _ (by simp only [length_append]; omega), ← drop_drop,
    drop_left' hh, drop_append_of_le_length (by omega),
    take_append_of_le_length (by rw [length_drop]; omega), Nat.mul_comm,
    payloadBits_window bytes i hi, map_lsb_fieldBits, ofBits_toBits 8 _ (UInt8.toNat_lt _),
    UInt8.ofNat_toNat]

theorem decoded_payload (head bytes tail : List UInt8) (hh : head.length = 20) (n : Nat)
    (hn : n ≤ bytes.length) :
    (List.range n).map (fun i =>
      UInt8.ofNat (packBitsN (head ++ (payloadBits bytes ++ tail)) (20+i*8) 8)) = bytes.take n := by
  apply ext_getElem
  · simp
    omega
  · intro i hi hi'
    have hin : i < n := by simpa using hi
    rw [getElem_map, getElem_range, packBitsN_payload head bytes tail hh i (by omega)]
    simp

theorem applyFlips_none (xs : List UInt8) (n : Nat) (h : xs.length = n) :
    applyFlips xs (List.replicate n false) = xs := by
  rw [applyFlips_eq_flipAll _ _ (by rw [h, length_replicate])]
  have h0 : flipPositions (List.replicate n false) = [] := by
    apply eq_nil_of_length_eq_zero
    rw [length_flipPositions, count_eq_zero]
    simp
  rw [h0]
  rfl

theorem count_gather_none (idx : List Nat) (n : Nat) :
    (gather false idx (List.replicate n false)).count true = 0 := by
  rw [count_eq_zero, gather, mem_map]
  rintro ⟨i,-,hi⟩
  rw [getD_eq_getElem?_getD, getElem?_replicate] at hi
  split at hi <;> exact absurd hi (by decide)

theorem decode_clean (reg : SynRegistry) (hv : RegistryValid reg) (frame : IridiumFrame)
    (msg : List Bool) (pre : List UInt8) (hm : msg.length = 200) (hpre : pre.length = 70)
    (ht : frame.type = .lw) (hs : frame.lwSubtype = .da)
    (hb : frame.bits = pre ++ encodeDataSection (msg.map cell)) :
    ∃ reg' out, idaDecode reg frame = (reg', some (idaDecodeParseFields out)) ∧
      out.bits = msg.map cell ∧ out.nBits = 200 ∧ out.ok = true ∧ out.blocksOk = 10 ∧
      out.totalErrors = 0 := by
  have hl := length_encodeDataSection (msg.map cell)
  obtain ⟨reg',-,hrun⟩ := idaDecode_eq reg hv frame ht hs
    (by rw [hb, length_append]; omega)
  have hf : (List.replicate 312 false).length = 312 := length_replicate
  have hflip := applyFlips_none (encodeDataSection (msg.map cell)) 312 hl
  have hlight (i : Nat) : flipsIn (List.replicate 312 false) i ≤ 2 := by
    rw [flipsIn, count_gather_none]
    decide
  obtain ⟨hbits,herr⟩ := decoded_of_light hm hf fun i _ => hlight i
  have hfail (i : Nat) (hi : i < 10) := blockFailed_light hm hf hi (hlight i)
  rw [hb, drop_left' hpre, ← hflip] at hrun
  change _ = (_, some (idaDecodeParseFields (decodedBlocks (flippedCodewords _ _)))) at hrun
  generalize flippedCodewords msg (List.replicate 312 false) = cws at *
  obtain ⟨hn,hdec⟩ := decodedBlocks_counters cws
  have hok := (ok_iff cws).mpr hfail
  have hten : (decodedBlocks cws).blocksOk = 10 := by simpa [hdec] using hok
  refine ⟨reg', decodedBlocks cws, hrun, hbits, by rw [hn, hten], hok, hten, ?_⟩
  rw [herr, count_gather_none]
  rfl

theorem map_cell_headerBits (len : Nat) :
    ((headerBits cont ctr len).map lsb).map cell = headerBits cont ctr len := by
  have hfield (n v : Nat) : ((fieldBits n v).map lsb).map cell = fieldBits n v := by
    rw [map_lsb_fieldBits]
    rfl
  have hcont : cell (lsb (cont &&& 1)) = cont &&& 1 := by
    rw [← mask_eq_cell]
    change mask (mask cont) = mask cont
    rw [mask_eq_cell cont, mask_cell]
  have hz : cell (lsb 0) = 0 := rfl
  simp [headerBits, hfield, hcont, hz]

theorem map_cell_full (len : Nat) (bytes : List UInt8) :
    ((headerBits cont ctr len ++ (payloadBits bytes ++ List.replicate 4 0)).map lsb).map cell =
      headerBits cont ctr len ++ (payloadBits bytes ++ List.replicate 4 0) := by
  have hp : ((payloadBits bytes).map lsb).map cell = payloadBits bytes := by
    rw [map_lsb_payloadBits, map_flatMap]
    rfl
  rw [map_append, map_append, map_append, map_append, map_cell_headerBits, hp]
  rfl

theorem sentBytes_take (h : payload.length ≤ 22) :
    (sentBytes cont ctr payload).take payload.length = payload ↔
      payload.drop 20 = (crcBytes (crc16CcittFalse
        (headerBytes cont ctr payload.length ++ payload.take 20))).take (payload.length-20) := by
  by_cases h20 : payload.length ≤ 20
  · have hl : (sentBytes cont ctr payload).take payload.length = payload := by
      rw [sentBytes, take_append_of_le_length (by rw [length_bodyBytes]; omega), bodyBytes,
        take_take, Nat.min_eq_left h20, take_left]
    rw [drop_of_length_le h20, Nat.sub_eq_zero_of_le h20, take_zero]
    simp [hl]
  · have hbody : bodyBytes payload = payload.take 20 :=
      take_append_of_le_length (by omega)
    have hcrc : frameCrc cont ctr payload =
        crc16CcittFalse (headerBytes cont ctr payload.length ++ payload.take 20) := by
      rw [frameCrc, crcInput_eq, hbody]
    have hl : (payload.take 20).length = 20 := by rw [length_take]; omega
    rw [sentBytes, hbody, hcrc, take_append, take_of_length_le (by omega), hl]
    conv_lhs => rhs; rw [← take_append_drop 20 payload]
    rw [append_cancel_left_eq, eq_comm]

theorem encode_eq (hctr : ctr ≤ 7) (h1 : 1 ≤ payload.length) (h22 : payload.length ≤ 22) :
    idaEncodeDaFrame cont ctr payload = .frame (IdaEncode.uwDl ++ buildLcwRawBits ++
      encodeDataSection (headerBits cont ctr payload.length ++
        (payloadBits (sentBytes cont ctr payload) ++ List.replicate 4 0))) := by
  rw [idaEncodeDaFrame, if_neg (by omega), if_neg (by exact UInt8.not_lt.mpr hctr),
    if_neg (by omega)]
  simp only
  rw [← fullMessage_eq cont ctr payload h22]
  rfl

theorem encode_overrun (bits : List UInt8) (h : idaEncodeDaFrame cont ctr payload = .frame bits) :
    payload.length ≤ 22 := by
  by_contra hn
  rw [idaEncodeDaFrame] at h
  split at h
  · exact absurd h (by simp)
  split at h
  · exact absurd h (by simp)
  rw [if_pos (by omega)] at h
  exact absurd h (by simp)

theorem decode_encoded (harder : Bool) (reg : SynRegistry) (hv : RegistryValid reg)
    (cont ctr : UInt8) (payload : List UInt8) (hc : cont ≤ 1) (hctr : ctr ≤ 7)
    (h1 : 1 ≤ payload.length) (h22 : payload.length ≤ 22) :
    ∃ bits frame reg' out, idaEncodeDaFrame cont ctr payload = .frame bits ∧ bits.length = 382 ∧
      iridiumFrameClassify harder reg bits .downlink = (reg, some frame) ∧
      frame.type = .lw ∧ frame.lwSubtype = .da ∧ idaDecode reg frame = (reg', some out) ∧
      out.ok = true ∧ out.headerOk = true ∧ out.crcOk = true ∧ out.blocksOk = 10 ∧
      out.totalErrors = 0 ∧ out.daCont = cont.toNat ∧ out.daCtr = ctr.toNat ∧
      out.payload = (sentBytes cont ctr payload).take payload.length := by
  set full := headerBits cont ctr payload.length ++
    (payloadBits (sentBytes cont ctr payload) ++ List.replicate 4 0) with hfull
  have hlen : full.length = 200 := by
    simp [hfull, length_headerBits, length_payloadBits, length_sentBytes]
  have hmsg : (full.map lsb).length = 200 := by rw [length_map, hlen]
  have hcells : (full.map lsb).map cell = full := map_cell_full _ _ _ _
  have hcls := classify_encoded harder reg full hlen cont ctr payload.length hc hctr (by omega)
    (by rw [hfull, take_left' (length_headerBits _ _ _)])
  have hpre : (IdaEncode.uwDl ++ buildLcwRawBits).length = 70 := by
    rw [length_append, length_buildLcwRawBits]
    rfl
  obtain ⟨reg',out,hrun,hbits,hnb,hok,hten,herr⟩ := decode_clean reg hv
    ⟨.lw, .downlink, .da, 24, IdaEncode.uwDl ++ buildLcwRawBits ++ encodeDataSection full⟩
    (full.map lsb) (IdaEncode.uwDl ++ buildLcwRawBits) hmsg hpre rfl rfl (by rw [hcells])
  rw [hcells] at hbits
  refine ⟨_, _, reg', _, encode_eq cont ctr payload hctr h1 h22, ?_, hcls, rfl, rfl, hrun, ?_⟩
  · rw [length_append, hpre, length_encodeDataSection]
  obtain ⟨hpok,-,hpblocks,hperr⟩ := parseFields_frame out
  have hlenF := header_daLen cont ctr payload.length
    (payloadBits (sentBytes cont ctr payload) ++ List.replicate 4 0) (by omega)
  refine ⟨by rw [hpok, hok], ?_, ?_, by rw [hpblocks, hten], by rw [hperr, herr], ?_, ?_, ?_⟩ <;>
    rw [idaDecodeParseFields, if_neg (by omega)] <;> simp only [hbits, hfull]
  · rw [header_zero1]
    rfl
  · rw [hlenF, crcBuf_full]
    simp
    omega
  · exact header_daCont _ _ _ _ hc
  · exact header_daCtr _ _ _ _ hctr
  · rw [hlenF, hnb]
    have hmax : min (min ((if payload.length > 0 then payload.length*8 else 200-20)/8) 24)
        ((200-20)/8) = payload.length := by
      rw [if_pos (by omega)]
      omega
    rw [hmax]
    exact decoded_payload _ _ _ (length_headerBits _ _ _) _ (by rw [length_sentBytes]; exact h22)

theorem headerBytes_eq (len : Nat) (hc : cont ≤ 1) (hctr : ctr ≤ 7) (hlen : len < 32) :
    headerBytes cont ctr len = [16*cont+ctr, UInt8.ofNat len, 0, 0] := by
  have h1 : cont.toNat ≤ 1 := UInt8.le_iff_toNat_le.mp hc
  have h7 : ctr.toNat ≤ 7 := UInt8.le_iff_toNat_le.mp hctr
  have hbytes : headerBytes cont ctr len =
      [UInt8.ofNat (ofBits ([false,false,false,lsb (mask cont),false] ++ toBits 3 ctr.toNat)),
       UInt8.ofNat (ofBits ([false,false,false] ++ toBits 5 len)), 0, 0] := by
    change packBytes (([0,0,0, cont &&& 1, 0] ++ fieldBits 3 ctr.toNat ++ [0,0,0] ++
      fieldBits 5 len ++ [0, 0,0,0]).map lsb ++ List.replicate 12 false) = _
    simp only [map_append, map_lsb_fieldBits]
    rfl
  have hfirst : ∀ c < 2, ∀ t < 8,
      UInt8.ofNat (ofBits ([false,false,false,c.testBit 0,false] ++ toBits 3 t)) =
        16*UInt8.ofNat c+UInt8.ofNat t := by decide
  have hsecond : ofBits ([false,false,false] ++ toBits 5 len) = len := by
    rw [ofBits_append, ofBits_toBits 5 len hlen]
    have h0 : ofBits [false,false,false] = 0 := rfl
    rw [h0, Nat.zero_shiftLeft, Nat.zero_xor]
  have := hfirst cont.toNat (by omega) ctr.toNat (by omega)
  rw [UInt8.ofNat_toNat, UInt8.ofNat_toNat] at this
  rw [hbytes, hsecond, lsb_mask, lsb, this]

theorem roundTrips_of_valid (harder : Bool) (reg : SynRegistry) (hv : RegistryValid reg)
    (cont ctr : UInt8) (payload : List UInt8) (hc : cont ≤ 1) (hctr : ctr ≤ 7)
    (h1 : 1 ≤ payload.length) :
    RoundTrips harder reg cont ctr payload ↔ payload.length ≤ 22 ∧
      payload.drop 20 = (crcBytes (crc16CcittFalse
        ([16*cont+ctr, UInt8.ofNat payload.length, 0, 0] ++ payload.take 20))).take
          (payload.length-20) := by
  constructor
  · rintro ⟨bits,henc,-,reg1,frame1,hcls1,-,-,reg2,out1,hdec1,-,-,-,-,-,-,-,hpay⟩
    have h22 := encode_overrun cont ctr payload bits henc
    obtain ⟨bits',frame,reg',out,henc',-,hcls,-,-,hdec,-,-,-,-,-,-,-,hout⟩ :=
      decode_encoded harder reg hv cont ctr payload hc hctr h1 h22
    obtain rfl : bits' = bits := EncodeResult.frame.inj (henc'.symm.trans henc)
    rw [hcls] at hcls1
    obtain ⟨rfl,hframe⟩ := Prod.mk.inj hcls1
    obtain rfl := Option.some.inj hframe
    rw [hdec] at hdec1
    obtain rfl := Option.some.inj (Prod.mk.inj hdec1).2
    refine ⟨h22, ?_⟩
    rw [← headerBytes_eq cont ctr payload.length hc hctr (by omega),
      ← sentBytes_take cont ctr payload h22, ← hout, hpay]
  · rintro ⟨h22,hcrc⟩
    obtain ⟨bits,frame,reg',out,henc,hlen,hcls,ht,hs,hdec,hok,hh,hcrcOk,hten,herr,hcont,hctr',
      hout⟩ := decode_encoded harder reg hv cont ctr payload hc hctr h1 h22
    rw [← headerBytes_eq cont ctr payload.length hc hctr (by omega),
      ← sentBytes_take cont ctr payload h22] at hcrc
    exact ⟨bits, henc, hlen, reg, frame, hcls, ht, hs, reg', out, hdec, hok, hh, hcrcOk, hten, herr,
      hcont, hctr', by rw [hout, hcrc]⟩

/-- A frame comes back exactly if its bytes from the twenty-first on agree with the CRC over them.
-/
theorem da_frame_round_trips_iff (calls : List RepairCall) (harder : Bool) (cont ctr : UInt8)
    (payload : List UInt8) (hc : cont ≤ 1) (hctr : ctr ≤ 7) (h1 : 1 ≤ payload.length) :
    RoundTrips harder (runRegistry calls .init) cont ctr payload ↔ payload.length ≤ 22 ∧
      payload.drop 20 = (crcBytes (crc16CcittFalse
        ([16*cont+ctr, UInt8.ofNat payload.length, 0, 0] ++ payload.take 20))).take
          (payload.length-20) :=
  roundTrips_of_valid harder _ (runRegistry_valid calls _ init_valid) cont ctr payload hc hctr h1

theorem da_frame_round_trips_iff_short :
    RoundTrips false (runRegistry [] .init) 1 3 [0x41, 0x42] ∧
    ¬ RoundTrips false (runRegistry [] .init) 1 3 (List.replicate 24 0) := by
  rw [da_frame_round_trips_iff [] false 1 3 [0x41, 0x42] (by decide) (by decide) (by decide),
    da_frame_round_trips_iff [] false 1 3 (List.replicate 24 0) (by decide) (by decide)
      (by decide)]
  decide

/-- Twenty-one zero bytes are accepted, but the last one is sent as the top CRC byte. -/
theorem da_frame_21_zeros_lost :
    (∃ bits, idaEncodeDaFrame 0 0 (List.replicate 21 0) = .frame bits) ∧
    ¬ RoundTrips false .init 0 0 (List.replicate 21 0) := by
  refine ⟨⟨_, encode_eq 0 0 _ (by decide) (by decide) (by decide)⟩, ?_⟩
  rw [roundTrips_of_valid false .init init_valid 0 0 _ (by decide) (by decide) (by decide)]
  decide +kernel

end IridiumAcars.IdaRoundTrip
