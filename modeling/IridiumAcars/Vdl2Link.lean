import IridiumAcars.FrameQueue
import IridiumAcars.Vdl2Agree
import IridiumAcars.Vdl2Fallback
import IridiumAcars.Vdl2Sweep

/-! A VDL2 link from frames to frames: the bit work of the transmitter vdl2_mod.c, symbols that may
slip on the way, and the receiver from the demodulator to the deframer. -/
namespace IridiumAcars.Vdl2Link
open BitWord Hdlc Avlc Vdl2Header Vdl2Demod Vdl2L2 Vdl2Interleave Vdl2RoundTrip Vdl2Fallback List

def vdl2PreambleSyms : Nat := 16
def vmMaxSyms : Nat := 8192

def modLfsrNextBit (state : Nat) : Nat × Nat :=
  let fb := (state ^^^ (state >>> 14)) &&& 1
  (fb, (state >>> 1) ||| (fb <<< 14))

def modScramble : List Bool → Nat → List Bool
  | [], _ => []
  | b::bits, lfsr =>
    (b ^^ decide ((modLfsrNextBit lfsr).1 = 1))::modScramble bits (modLfsrNextBit lfsr).2

def invGray : List Nat :=
  (List.range 8).foldl (fun inv i => inv.set (vdl2Graycode.getD i 0) i) (List.replicate 8 0)

/-- The phase step of every three bits, in eighths of a turn. -/
def phaseSteps (bits : List Bool) : List Nat :=
  (List.range (bits.length/3)).map fun k =>
    invGray.getD (((bits.getD (3*k) false).toNat <<< 2) |||
      ((bits.getD (3*k+1) false).toNat <<< 1) ||| (bits.getD (3*k+2) false).toNat) 0

def paddedBits (datalenBits body : Nat) (bodyBits : List Bool) : List Bool :=
  let nBits := vdl2HdrBits+body
  sentHeader datalenBits++bodyBits.take body++List.replicate (3*((nBits+2)/3)-nBits) false

/-- `vdl2_mod_burst` up to the waveform: the phase steps of header and body. -/
def vdl2ModBurst (rampSyms datalenBits : Nat) (bodyBits : List Bool) : Option (List Nat) :=
  match vdl2BurstBodyBits datalenBits with
  | none => none
  | some body =>
    if rampSyms+vdl2PreambleSyms+(vdl2HdrBits+body+2)/3 > vmMaxSyms then none
    else some (phaseSteps (modScramble (paddedBits datalenBits body bodyBits) vdl2LfsrIv))

section
variable (steps : List Nat) (syms : List Symbol)

/-- Symbol `i` was read as another point than the one sent. -/
def slipped (i : Nat) : Bool := decide (syms[i]?.map (·.idx.val) ≠ steps[i]?)

def hitOctet (k : Nat) : Bool :=
  (List.range 8).any fun j => slipped steps syms ((vdl2HdrBits+8*k+j)/3)

/-- The octets of row `r` with a slipped symbol in them. -/
def hitOctets (d r : Nat) : Nat :=
  (airCells (layout d)).zipIdx.countP fun x => decide (x.1.1 = r) && hitOctet steps syms x.2

end

variable (bits : List Bool)

theorem modScramble_eq (lfsr : Nat) :
    modScramble bits lfsr = (vdl2Scramble bits lfsr).1 := by
  induction bits generalizing lfsr with
  | nil => rfl
  | cons b bits ih => rw [modScramble, ih]; rfl

theorem length_vdl2Scramble (s : Nat) :
    (vdl2Scramble bits s).1.length = bits.length := by
  induction bits generalizing s with
  | nil => rfl
  | cons b bits ih => rw [vdl2Scramble, length_cons, ih, length_cons]

theorem vdl2Scramble_twice (s : Nat) :
    (vdl2Scramble (vdl2Scramble bits s).1 s).1 = bits := by
  induction bits generalizing s with
  | nil => rfl
  | cons b bits ih =>
    rw [vdl2Scramble, vdl2Scramble, ih, Bool.xor_assoc, Bool.xor_self, Bool.xor_false]

/-- Both sides of the link add the same bits, so that errors stay where they are. -/
theorem getD_vdl2Scramble_congr {as bs : List Bool} {i : Nat} (hlen : as.length = bs.length)
    (s : Nat) (h : as.getD i false = bs.getD i false) :
    (vdl2Scramble as s).1.getD i false = (vdl2Scramble bs s).1.getD i false := by
  induction as generalizing bs s i with
  | nil => rw [length_eq_zero_iff.mp hlen.symm]
  | cons a as ih =>
    cases bs with
    | nil => cases hlen
    | cons b bs =>
      cases i with
      | zero =>
        have hab : a = b := h
        rw [hab]
        rfl
      | succ i => exact ih (Nat.succ_inj.mp hlen) _ h

theorem point_bits : ∀ a b c : Bool, ∀ i : Fin 8, i.val =
    invGray.getD ((a.toNat <<< 2) ||| (b.toNat <<< 1) ||| c.toNat) 0 →
      (Symbol.mk i 0 0 0).bits = [a, b, c] := by
  decide

theorem rawBits_take {syms : List Symbol} {n : Nat} (hn : n ≤ syms.length) :
    (rawBits syms).take (3*n) = rawBits (syms.take n) := by
  have hsplit : rawBits syms = rawBits (syms.take n)++rawBits (syms.drop n) := by
    rw [← rawBits_append, take_append_drop]
  rw [hsplit, take_left' (by rw [length_rawBits, length_take, min_eq_left hn])]

theorem getD_rawBits {syms : List Symbol} {s : Symbol} {i : Nat} (h : syms[i/3]? = some s) :
    (rawBits syms).getD i false = s.bits.getD (i%3) false := by
  induction syms generalizing i with
  | nil => cases h
  | cons s' syms ih =>
    have hlen : s'.bits.length = 3 := rfl
    have hraw : rawBits (s'::syms) = s'.bits++rawBits syms := rfl
    rw [hraw]
    by_cases h3 : i < 3
    · rw [Nat.div_eq_of_lt h3] at h
      rw [getD_append _ _ _ _ (by omega), Nat.mod_eq_of_lt h3, Option.some.inj h]
    · obtain ⟨k,rfl⟩ : ∃ k, i = k+3 := ⟨i-3, by omega⟩
      rw [Nat.add_div_right k (by decide)] at h
      rw [getD_append_right _ _ _ _ (by omega), hlen, Nat.add_sub_cancel, Nat.add_mod_right]
      exact ih h

theorem getD_rawBits_sent {n i : Nat} {bits : List Bool} {syms : List Symbol}
    (h : bits.length = 3*n) (hi : i < 3*n)
    (hs : slipped (phaseSteps bits) syms (i/3) = false) :
    (rawBits syms).getD i false = bits.getD i false := by
  obtain ⟨k,m,hm,rfl⟩ : ∃ k m, m < 3 ∧ i = 3*k+m := ⟨i/3, i%3, by omega, by omega⟩
  have hdiv : (3*k+m)/3 = k := by omega
  have hmod : (3*k+m)%3 = m := by omega
  rw [hdiv, slipped, decide_eq_false_iff_not, not_not, phaseSteps, getElem?_map,
    getElem?_range (by omega), Option.map_some, Option.map_eq_some_iff] at hs
  obtain ⟨s,hs,hidx⟩ := hs
  have hbits : s.bits = _ := point_bits _ _ _ s.idx hidx
  rw [getD_rawBits (hdiv.symm ▸ hs), hbits, hmod]
  interval_cases m <;> rfl

theorem countP_zip_le {α β : Type*} {p : α × β → Bool} {q : α × Nat → Bool} {xs : List α}
    {ys : List β} (n : Nat) (h : ∀ i x y, xs[i]? = some x → ys[i]? = some y → p (x, y) = true →
      q (x, n+i) = true) : (xs.zip ys).countP p ≤ (xs.zipIdx n).countP q := by
  induction xs generalizing ys n with
  | nil => exact Nat.zero_le _
  | cons x xs ih =>
    cases ys with
    | nil => exact Nat.zero_le _
    | cons y ys =>
      have htail := @ih ys (n+1) fun i x y hx hy hp => by
        rw [Nat.add_assoc, Nat.add_comm 1 i]
        exact h (i+1) x y hx hy hp
      have hhead : p (x, y) = true → q (x, n) = true := h 0 x y rfl rfl
      rw [zip_cons_cons, countP_cons, zipIdx_cons, countP_cons]
      split
      · rw [if_pos (hhead ‹_›)]
        omega
      · omega

section
variable (d body : Nat) (octets : List UInt8) (syms : List Symbol)

def airBits : List Bool :=
  (vdl2Scramble (paddedBits d body (lsbBits (sentOctets (layout d) octets))) vdl2LfsrIv).1

def receivedBits : List Bool :=
  (vdl2Scramble ((rawBits syms).take (vdl2HdrBits+body)) vdl2LfsrIv).1

variable {d body syms}

theorem length_receivedBits (hn : (vdl2HdrBits+body+2)/3 ≤ syms.length) :
    (receivedBits body syms).length = vdl2HdrBits+body := by
  rw [receivedBits, length_vdl2Scramble, length_take, length_rawBits]
  omega

theorem emit_bits (hn : (vdl2HdrBits+body+2)/3 ≤ syms.length) (r : HdrDecoded) :
    (emit syms body r).bits = receivedBits body syms := by
  have h25 : vdl2HdrBits = 25 := rfl
  have hread : syms.take 9++(syms.drop 9).take ((vdl2HdrBits+body+2)/3-9) =
      syms.take ((vdl2HdrBits+body+2)/3) := by
    rw [← take_add, Nat.add_sub_cancel' (by omega)]
  simp only [emit]
  rw [hread, ← rawBits_take hn, take_take, min_eq_left (by omega), receivedBits]

theorem headerErrors_le_one {bits : List Bool} (h : bits.take vdl2HdrBits = sentHeader d) :
    headerErrors d bits ≤ 1 := by
  have hzero : headerErrors d bits = 0 := by
    rw [headerErrors, h, countP_eq_zero]
    intro x hx
    obtain ⟨i,hi,rfl⟩ := getElem_of_mem hx
    simp
  omega

theorem weight_sentHeader {w : Nat} {r : HdrDecoded} (hd : d < 2^17)
    (hw : w = ofBits (sentHeader d)) (h : vdl2HdrDecode w = some r) : r.weight = 0 := by
  have hlt := (hdrSyndrome_encode d hd).1
  have hword : w &&& hdrMask = vdl2HdrEncode d := by
    rw [hw, sentHeader, ofBits_toBits _ _ (lt_trans hlt (by decide)), and_hdrMask,
      Nat.mod_eq_of_lt hlt]
  rw [vdl2HdrDecode, hword, (hdrSyndrome_encode d hd).2] at h
  split at h
  · cases h
  · rw [← Option.some.inj h]
    rfl

section
variable (hbody : vdl2BurstBodyBits d = some body)
include hbody

theorem length_sent : (l2Burst d octets).length = vdl2HdrBits+body := by
  obtain ⟨hl,rfl⟩ := layout_sound hbody
  exact length_l2Burst hl

theorem paddedBits_eq :
    paddedBits d body (lsbBits (sentOctets (layout d) octets)) = l2Burst d octets++
      List.replicate (3*((vdl2HdrBits+body+2)/3)-(vdl2HdrBits+body)) false := by
  have hlen := length_sent octets hbody
  rw [l2Burst, length_append, sentHeader, length_toBits] at hlen
  rw [paddedBits, take_of_length_le (by omega)]
  rfl

theorem length_airBits : (airBits d body octets).length = 3*((vdl2HdrBits+body+2)/3) := by
  rw [airBits, length_vdl2Scramble, paddedBits_eq octets hbody, length_append,
    length_sent octets hbody, length_replicate]
  omega

theorem vdl2Scramble_airBits {n : Nat} (hn : n ≤ vdl2HdrBits+body) :
    (vdl2Scramble ((airBits d body octets).take n) vdl2LfsrIv).1 = (l2Burst d octets).take n := by
  rw [← take_vdl2Scramble, airBits, vdl2Scramble_twice, paddedBits_eq octets hbody,
    take_append_of_le_length (by rw [length_sent octets hbody]; exact hn)]

theorem datalen_le : d ≤ vdl2MaxFrameBits := by
  by_contra hbig
  rw [vdl2BurstBodyBits, if_pos (by omega)] at hbody
  cases hbody

theorem burst_fits : vdl2HdrBits+body ≤ FrameQueue.frameQueueMaxBits := by
  have hd := datalen_le hbody
  have hmax : vdl2MaxFrameBits = 16383 := rfl
  rw [(layout_sound hbody).2, layout, vdl2HdrBits, FrameQueue.frameQueueMaxBits, fecOctetcount,
    RsVdl2.rsVdl2K, RsVdl2.rsVdl2Nroots]
  dsimp only
  split_ifs <;> omega

variable (hn : (vdl2HdrBits+body+2)/3 ≤ syms.length)
include hn

theorem getD_receivedBits {i : Nat} (hi : i < vdl2HdrBits+body)
    (hs : slipped (phaseSteps (airBits d body octets)) syms (i/3) = false) :
    (receivedBits body syms).getD i false = (l2Burst d octets).getD i false := by
  have hair := length_airBits octets hbody
  have hraw := getD_rawBits_sent hair (by omega) hs
  have hcut {xs : List Bool} : (xs.take (vdl2HdrBits+body)).getD i false = xs.getD i false := by
    rw [getD_eq_getElem?_getD, getElem?_take_of_lt hi, getD_eq_getElem?_getD]
  calc (receivedBits body syms).getD i false
      = (vdl2Scramble ((airBits d body octets).take (vdl2HdrBits+body)) vdl2LfsrIv).1.getD i
          false := by
        refine getD_vdl2Scramble_congr ?_ _ (by rw [hcut, hcut, hraw])
        rw [length_take, length_take, length_rawBits, hair]
        omega
    _ = (l2Burst d octets).getD i false := by
        rw [vdl2Scramble_airBits octets hbody le_rfl,
          take_of_length_le (length_sent octets hbody).le]

theorem getD_receivedOctets {k : Nat}
    (hk : k < (layout d).datalenOctets+(layout d).fecOctets)
    (hhit : hitOctet (phaseSteps (airBits d body octets)) syms k = false) :
    (receivedOctets d (receivedBits body syms)).getD k 0 =
      (sentOctets (layout d) octets).getD k 0 := by
  have hsize := (layout_sound hbody).2
  apply octet_ext
  intro j hj
  have hdiv : (8*k+j)/8 = k := by omega
  have hmod : (8*k+j)%8 = j := by omega
  have hbit := getD_lsbBits (sentOctets (layout d) octets) (8*k+j)
  rw [hdiv, hmod] at hbit
  rw [hitOctet, any_eq_false] at hhit
  have hslip := Bool.eq_false_iff.mpr (hhit j (mem_range.mpr hj))
  rw [receivedOctets, testBit_packLsbfirst _ _ _ _ hk hj, ← hbit, getD_eq_getElem?_getD,
    getElem?_drop, ← getD_eq_getElem?_getD, ← Nat.add_assoc,
    getD_receivedBits octets hbody hn (by omega) hslip, l2Burst,
    getD_append_right _ _ _ _ (by rw [sentHeader, length_toBits]; omega), sentHeader,
    length_toBits, Nat.add_assoc, Nat.add_sub_cancel_left]

theorem wrongOctets_le (r : Nat) :
    wrongOctets d octets (receivedBits body syms) r ≤
      hitOctets (phaseSteps (airBits d body octets)) syms d r := by
  refine countP_zip_le 0 fun k x y hx hy hp => ?_
  obtain ⟨hr,hne⟩ := of_decide_eq_true hp
  rw [Nat.zero_add, Bool.and_eq_true, decide_eq_true_eq]
  refine ⟨hr, ?_⟩
  by_contra hhit
  have hk : k < (layout d).datalenOctets+(layout d).fecOctets := by
    have := (List.getElem?_eq_some_iff.mp hy).1
    rwa [receivedOctets, length_packLsbfirst] at this
  have hoctet := getD_receivedOctets octets hbody hn hk (Bool.eq_false_iff.mpr hhit)
  rw [getD_eq_getElem?_getD, getD_eq_getElem?_getD, hy, sentOctets, getElem?_map,
    hx] at hoctet
  exact hne hoctet

theorem take_receivedBits
    (hhdr : ∀ i < 9, slipped (phaseSteps (airBits d body octets)) syms i = false) :
    (receivedBits body syms).take vdl2HdrBits = sentHeader d := by
  have h25 : vdl2HdrBits = 25 := rfl
  have hsent : (sentHeader d).length = vdl2HdrBits := length_toBits _ _
  apply ext_getElem
  · rw [length_take, length_receivedBits hn, hsent]
    omega
  · intro i h1 h2
    have hbit := getD_receivedBits octets hbody hn (i := i) (by omega) (hhdr _ (by omega))
    rw [l2Burst, getD_append _ _ _ _ h2, getD_eq_getElem _ _ h2,
      getD_eq_getElem _ _ (by rw [length_receivedBits hn]; omega)] at hbit
    rw [getElem_take, hbit]

theorem demodLock_eq (hsent : (receivedBits body syms).take vdl2HdrBits = sentHeader d) :
    ∃ r : HdrDecoded, demodLock syms = some (emit syms body r) := by
  have hd := datalen_le hbody
  have hd17 : d < 2^17 := lt_of_le_of_lt hd (by decide)
  have h9 : 9 ≤ syms.length := by
    rw [vdl2HdrBits] at hn
    omega
  have hword := ofBits_take_emit syms body ⟨0, vdl2HdrEncode d, d⟩ h9
  rw [emit_bits hn, hsent] at hword
  obtain ⟨weight,hdec⟩ := decode_sentHeader hd17 (by rw [length_receivedBits hn]; omega)
    (headerErrors_le_one hsent)
  have hweight : weight = 0 := weight_sentHeader hd17 (by rw [hsent]) hdec
  subst hweight
  refine ⟨⟨0, vdl2HdrEncode d, d⟩, ?_⟩
  rw [demodLock, if_neg (by omega), headerDecision, ← hword, ← hsent, hdec]
  dsimp only
  rw [if_neg (by simp [lengthPlausible, hd]), hbody]

end

end

/-- The receiver reports the transmitter's frames when no header symbol slips and slipped symbols
hit in no row more octets than its parity corrects. -/
theorem vdl2_link_delivers (opening : Bool) (fill : Nat → Nat) (frames : List (List UInt8))
    (stream : List Bool) (octets : List UInt8) (rampSyms : Nat) (steps : List Nat)
    (syms : List Symbol) (early late : List (List Symbol)) (hne : frames ≠ [])
    (hf : ∀ f ∈ frames, f ≠ []) (hstream : avlcSerialise opening fill frames = stream)
    (hoct : octets.length = (stream.length+7)/8)
    (hdata : (lsbBits octets).take stream.length = stream)
    (hmod : vdl2ModBurst rampSyms stream.length
      (lsbBits (sentOctets (layout stream.length) octets)) = some steps)
    (hlen : steps.length ≤ syms.length) (hhdr : ∀ i < 9, slipped steps syms i = false)
    (hrow : ∀ r < (layout stream.length).numBlocks,
      hitOctets steps syms stream.length r ≤ fecLen (layout stream.length) r/2)
    (hearly : ∀ l ∈ early, demodLock l = none) :
    ∃ res, vdl2DemodBurst (early++syms::late) = some res ∧ res.complete = true ∧
      res.bits.length ≤ FrameQueue.frameQueueMaxBits ∧
      (vdl2L2Frames res.bits (some res.softBits)).map (·.map AvlcFrame.raw) = .ok frames := by
  cases hbody : vdl2BurstBodyBits stream.length with
  | none =>
    rw [vdl2ModBurst, hbody] at hmod
    cases hmod
  | some body =>
    rw [vdl2ModBurst, hbody] at hmod
    dsimp only at hmod
    split at hmod
    · cases hmod
    rw [modScramble_eq, Option.some.injEq] at hmod
    change phaseSteps (airBits stream.length body octets) = steps at hmod
    subst hmod
    have hn := hlen
    rw [phaseSteps, length_map, length_range, length_airBits octets hbody,
      Nat.mul_div_cancel_left _ (by decide)] at hn
    have hsent := take_receivedBits octets hbody hn hhdr
    obtain ⟨r,hlock⟩ := demodLock_eq hbody hn hsent
    have hsize := length_receivedBits hn
    have hhand : l2Handover (receivedBits body syms) none = .ok (octets, stream.length) := by
      rw [l2Handover, l2Header_eq hbody (hsize.trans (length_sent octets hbody).symm)
        (headerErrors_le_one hsent)]
      dsimp only
      rw [l2Corrected_eq (layout_sound hbody).1 hoct fun r hr =>
        (wrongOctets_le octets hbody hn r).trans (hrow r hr)]
      rfl
    have hcut : avlcDeframeOctets octets stream.length = frames.map lsbBits := by
      have hpos : stream ≠ [] := by
        rw [← hstream]
        simp [avlcSerialise, flag]
      rw [avlcDeframeOctets_of_bits hpos hdata, ← hstream]
      exact deframeLoop_serialise opening fill frames hne hf (hstream ▸ datalen_le hbody)
    refine ⟨emit syms body r, ?_, ?_, ?_, ?_⟩
    · rw [vdl2DemodBurst, findSome?_append, findSome?_eq_none_iff.mpr hearly,
        findSome?_cons, hlock]
      rfl
    · rw [DemodResult.complete, emit_bits hn, hsize]
      exact decide_eq_true rfl
    · rw [emit_bits hn, hsize]
      exact burst_fits hbody
    · rw [emit_bits hn, vdl2L2Frames, l2Handover_extends _ _ (by rw [hhand]; rintro ⟨⟩), hhand,
        Except.map, Except.map, avlcCallbacks, hcut, map_map, map_map]
      congr 1
      exact (map_congr_left fun f _ => callback_raw f).trans (map_id frames)

section
open RsVdl2 RsPoly RsDecode Vdl2Sweep

theorem rsVdl2Encode_codeword {block : Block} (h : ∀ x ∈ rsSyndromes block, x = 0) :
    rsVdl2Encode block = block := by
  refine (eq_of_syndromes_zero (s := Finset.univ.filter fun p => rsVdl2K ≤ p.val)
    ⟨fun i hi => syndrome_encode block i hi, ?_, by decide +kernel⟩ h).symm
  intro p hp
  rw [Finset.mem_filter, not_and, Nat.not_le] at hp
  exact (if_pos (hp (Finset.mem_univ p))).symm

/-- A frame and its flag, a codeword with no parity. -/
def codeOctets : List UInt8 := [2, 20, 65, 71, 80, 4, 49, 0x7E]

theorem sentOctets_codeOctets : sentOctets (layout 64) codeOctets = codeOctets++[0, 0] := by
  have hrow : rowData (layout 64) codeOctets 0 = spikeBlock
      [(0, 1), (1, 200), (2, 155), (3, 112), (4, 202), (5, 2), (6, 39), (7, 57)] :=
    funext (by decide +kernel)
  have hcode : codeword (layout 64) codeOctets 0 = rowData (layout 64) codeOctets 0 := by
    refine rsVdl2Encode_codeword ?_
    rw [hrow]
    exact spikes_codeword (by decide) (by decide +kernel)
  have hcells : airCells (layout 64) = [0, 1, 2, 3, 4, 5, 6, 7, 249, 250].map (Prod.mk 0) := by
    decide +kernel
  rw [sentOctets, hcells, map_map]
  simp only [Function.comp_def, airOctet, hcode]
  decide +kernel

/-- Its symbols, the thirteenth slipped. -/
def slippedBurst : List Symbol :=
  [0, 7, 4, 6, 6, 5, 1, 6, 7, 1, 3, 1, 3, 5, 1, 6, 2, 1, 1, 4, 6, 2, 2, 6, 1, 2, 1, 6, 1, 4, 2,
    1, 2, 2, 7].filterMap fun i => (List.finRange 8)[i]?.map Vdl2Agree.sure

theorem vdl2_link_delivers_slipped :
    ∃ res, vdl2DemodBurst [slippedBurst] = some res ∧ res.complete = true ∧
      res.bits.length ≤ FrameQueue.frameQueueMaxBits ∧
      (vdl2L2Frames res.bits (some res.softBits)).map (·.map AvlcFrame.raw) =
        .ok [codeOctets.take 7] :=
  vdl2_link_delivers false (fun _ => 0) [codeOctets.take 7] (lsbBits codeOctets) codeOctets 5
    [0, 7, 4, 6, 6, 5, 1, 6, 7, 1, 3, 1, 6, 5, 1, 6, 2, 1, 1, 4, 6, 2, 2, 6, 1, 2, 1, 6, 1, 4, 2,
      1, 2, 2, 7]
    slippedBurst [] [] (by decide) (by decide) (by decide +kernel) (by decide) (by decide)
    ((congrArg (fun o => vdl2ModBurst 5 64 (lsbBits o)) sentOctets_codeOctets).trans
      (by decide +kernel))
    (by decide) (by decide) (by decide +kernel) (by decide)

end

end IridiumAcars.Vdl2Link
