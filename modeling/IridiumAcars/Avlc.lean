import IridiumAcars.Crc16
import IridiumAcars.Lib.Hdlc
import IridiumAcars.Vdl2L2

/-! The callbacks of avlc.c: each frame is packed, checked, parsed and classified; and the sender's
framing. -/
namespace IridiumAcars.Avlc
open Crc16 Hdlc Vdl2L2 List

def avlcMinFrameOctets : Nat := 11

inductive AvlcKind where
  | acars | x25 | supervisory | unnumbered | badFcs | tooShort
deriving DecidableEq

/-- A field that is NULL in the source is `none`. -/
structure AvlcFrame where
  kind : AvlcKind
  fcsOk : Bool
  raw : List UInt8
  dstAddr : Nat
  srcAddr : Nat
  dstType : Nat
  srcType : Nat
  response : Bool
  srcOnGround : Bool
  control : UInt8
  info : Option (List UInt8)
  acars : Option (List UInt8)
deriving DecidableEq

def AvlcFrame.unparsed (kind : AvlcKind) (raw : List UInt8) : AvlcFrame where
  kind := kind
  fcsOk := false
  raw := raw
  dstAddr := 0
  srcAddr := 0
  dstType := 0
  srcType := 0
  response := false
  srcOnGround := false
  control := 0
  info := none
  acars := none

def reverse28 (v : Nat) : Nat :=
  (List.range 28).foldl (fun r k => r ||| ((v >>> k) &&& 1) <<< (27-k)) 0

def parseDlcAddr (b : List UInt8) : Nat :=
  reverse28 (((b.getD 0 0).toNat >>> 1) ||| ((b.getD 1 0).toNat <<< 6) |||
    ((b.getD 2 0).toNat <<< 13) ||| (((b.getD 3 0).toNat &&& 0xFE) <<< 20))

def acarsInfo (info : List UInt8) : Bool :=
  decide (info.length > 3 ∧ info.getD 0 0 = 0xFF ∧ info.getD 1 0 = 0xFF ∧ info.getD 2 0 = 0x01)

def parseAndEmit (buf : List UInt8) : AvlcFrame :=
  if buf.length < avlcMinFrameOctets then .unparsed .tooShort buf
  else if crc16X25Raw buf ≠ crc16X25GoodResidue then .unparsed .badFcs buf
  else
    let dst := parseDlcAddr buf
    let src := parseDlcAddr (buf.drop 4)
    let control := buf.getD 8 0
    let info := (buf.drop 9).take (buf.length-2-9)
    { kind :=
        if control &&& 0x01 = 0 then (if acarsInfo info then .acars else .x25)
        else if control &&& 0x03 = 0x01 then .supervisory
        else .unnumbered
      fcsOk := true
      raw := buf
      dstAddr := dst &&& 0xFFFFFF
      srcAddr := src &&& 0xFFFFFF
      dstType := (dst >>> 24) &&& 0x7
      srcType := (src >>> 24) &&& 0x7
      -- the source field carries C/R, the destination field the source's air/ground bit
      response := decide ((src >>> 27) &&& 1 ≠ 0)
      srcOnGround := decide ((dst >>> 27) &&& 1 ≠ 0)
      control := control
      info := if control &&& 0x01 ≠ 0 ∧ control &&& 0x03 = 0x01 ∧ info = [] then none else some info
      acars := if control &&& 0x01 = 0 ∧ acarsInfo info = true then some (info.drop 3) else none }

def avlcCallbacks (octets : List UInt8) (nBits : Nat) : List AvlcFrame :=
  (avlcDeframeOctets octets nBits).map fun bits =>
    parseAndEmit (packLsbfirst bits (bits.length/8))

theorem raw_parseAndEmit (buf : List UInt8) : (parseAndEmit buf).raw = buf := by
  rw [parseAndEmit]
  split
  · rfl
  · split <;> rfl

def stuffed (octets : List UInt8) : List Bool := stuff 0 (lsbBits octets)

def joinFrames (fill : Nat → Nat) : Nat → List (List UInt8) → List Bool
  | _, [] => []
  | _, [f] => stuffed f
  | i, f::g::fs => stuffed f++flags (fill i+1)++joinFrames fill (i+1) (g::fs)

def avlcSerialise (opening : Bool) (fill : Nat → Nat) (frames : List (List UInt8)) : List Bool :=
  flags opening.toNat++joinFrames fill 0 frames++flag

theorem length_packLsbfirst (bits : List Bool) (n : Nat) : (packLsbfirst bits n).length = n := by
  simp [packLsbfirst]

theorem testBit_packLsbfirst (bits : List Bool) (n i j : Nat) (hi : i < n) (hj : j < 8) :
    ((packLsbfirst bits n).getD i 0).toNat.testBit j = bits.getD (8*i+j) false := by
  have hlen := length_packLsbfirst bits n
  rw [getD_eq_getElem _ _ (by omega)]
  simp only [packLsbfirst, getElem_map, getElem_range, UInt8.toNat_ofNat']
  rw [Nat.testBit_mod_two_pow, testBit_foldl_or (fun j => bits.getD (8*i+j) false)]
  simp [hj]

theorem octet_ext (a b : UInt8) (h : ∀ j < 8, a.toNat.testBit j = b.toNat.testBit j) : a = b := by
  apply UInt8.toNat_inj.mp
  apply Nat.eq_of_testBit_eq
  intro j
  by_cases hj : j < 8
  · exact h j hj
  · have hlarge : 2^8 ≤ 2^j := Nat.pow_le_pow_right (by decide) (by omega)
    rw [Nat.testBit_lt_two_pow (lt_of_lt_of_le a.toNat_lt hlarge),
      Nat.testBit_lt_two_pow (lt_of_lt_of_le b.toNat_lt hlarge)]

variable (octets : List UInt8) (n : Nat)

theorem packLsbfirst_lsbBits (h : n = octets.length) :
    packLsbfirst (lsbBits octets) n = octets := by
  subst h
  have hlen := length_packLsbfirst (lsbBits octets) octets.length
  apply ext_getElem hlen
  intro i hi hi'
  apply octet_ext
  intro j hj
  have hdiv : (8*i+j)/8 = i := by omega
  have hmod : (8*i+j)%8 = j := by omega
  have hbit := testBit_packLsbfirst (lsbBits octets) octets.length i j hi' hj
  rwa [getD_lsbBits, hdiv, hmod, getD_eq_getElem _ _ hi', getD_eq_getElem _ _ hi] at hbit

theorem deframeLoop_stuff (bs rest frame : List Bool) (frames : List (List Bool))
    (closed : Bool) (hn : n ≤ 4) (hroom : frame.length+bs.length ≤ avlcMaxFrameOctets*8) :
    deframeLoop (stuff n bs++rest) n frame frames closed =
      deframeLoop rest (onesAfter n bs) (frame++bs) frames closed := by
  induction bs generalizing n frame with
  | nil => simp [stuff, onesAfter]
  | cons b bs ih =>
    have hlen : frame.length+bs.length+1 ≤ avlcMaxFrameOctets*8 := by
      simpa [Nat.add_assoc] using hroom
    have hroom' (c : Bool) : (frame++[c]).length+bs.length ≤ avlcMaxFrameOctets*8 := by
      simp only [length_append, length_singleton]
      omega
    cases b with
    | false =>
      rw [stuff, cons_append, deframeLoop, if_neg (by omega), if_neg (by omega),
        if_neg (by omega), ih 0 (frame++[false]) (by omega) (hroom' false), onesAfter,
        append_assoc]
      rfl
    | true =>
      by_cases h4 : n = 4
      · subst h4
        rw [stuff, if_pos rfl, cons_append, cons_append, deframeLoop, if_neg (by omega),
          if_neg (by omega), deframeLoop, if_pos rfl,
          ih 0 (frame++[true]) (by omega) (hroom' true), onesAfter, if_pos rfl, append_assoc]
        rfl
      · rw [stuff, if_neg h4, cons_append, deframeLoop, if_neg (by omega), if_neg (by omega),
          ih (n+1) (frame++[true]) (by omega) (hroom' true), onesAfter, if_neg h4,
          append_assoc]
        rfl

theorem deframeLoop_ones (k n : Nat) (rest frame : List Bool) (frames : List (List Bool))
    (closed : Bool) (hk : n+k ≤ 6) (hroom : frame.length+k ≤ avlcMaxFrameOctets*8) :
    deframeLoop (List.replicate k true++rest) n frame frames closed =
      deframeLoop rest (n+k) (frame++List.replicate k true) frames closed := by
  induction k generalizing n frame with
  | zero => simp
  | succ k ih =>
    have hlen : (frame++[true]).length = frame.length+1 := by simp
    rw [replicate_succ, cons_append, deframeLoop, if_neg (by omega), if_neg (by omega),
      ih (n+1) (frame++[true]) (by omega) (by omega), append_assoc, Nat.add_right_comm]
    rfl

theorem deframeLoop_flag_open (rest frame : List Bool) (frames : List (List Bool))
    (closed : Bool) (hn : n ≤ 4) (hroom : frame.length+7 ≤ avlcMaxFrameOctets*8) :
    deframeLoop (flag++rest) n frame frames closed =
      deframeLoop (false::rest) 6 (frame++(false::List.replicate 6 true)) frames closed := by
  have hflag : flag++rest = false::(List.replicate 6 true++(false::rest)) := rfl
  have hlen : (frame++[false]).length = frame.length+1 := by simp
  rw [hflag, deframeLoop, if_neg (by omega), if_neg (by omega), if_neg (by omega),
    deframeLoop_ones 6 0 _ _ _ _ (by omega) (by omega), append_assoc]
  rfl

variable (rest : List Bool)

theorem deframeLoop_flag (frames : List (List Bool)) (closed : Bool) :
    deframeLoop (flag++rest) 0 [] frames closed = deframeLoop rest 0 [] frames closed := by
  rw [deframeLoop_flag_open 0 rest [] frames closed (by omega) (by decide), deframeLoop,
    if_neg (by decide), if_pos rfl, if_pos (by simp)]

theorem deframeLoop_flags (frames : List (List Bool)) (closed : Bool) :
    deframeLoop (flags n++rest) 0 [] frames closed = deframeLoop rest 0 [] frames closed := by
  induction n with
  | zero => rfl
  | succ n ih => rw [flags_succ, append_assoc, deframeLoop_flag, ih]

theorem deframeLoop_frame (frames : List (List Bool))
    (closed : Bool) (hne : octets ≠ []) (hroom : 8*octets.length+7 ≤ avlcMaxFrameOctets*8) :
    deframeLoop (stuffed octets++(flag++rest)) 0 [] frames closed =
      deframeLoop rest 0 [] (frames++[lsbBits octets]) rest.isEmpty := by
  have hpos : 0 < octets.length := length_pos_iff.mpr hne
  have hbits := length_lsbBits octets
  have hlen : (lsbBits octets++(false::List.replicate 6 true)).length = 8*octets.length+7 := by
    simp
  rw [stuffed, deframeLoop_stuff 0 _ _ _ _ _ (by omega) (by simp; omega), nil_append,
    deframeLoop_flag_open _ _ _ _ _ (onesAfter_le 0 _ (by omega)) (by omega), deframeLoop,
    if_neg (by decide), if_pos rfl, if_neg (by omega), if_neg (by omega), if_neg (by omega), hlen,
    Nat.add_sub_cancel, take_left' hbits]

theorem deframeLoop_joinFrames (fill : Nat → Nat) (i : Nat) (f : List UInt8)
    (fs : List (List UInt8)) (frames : List (List Bool)) (closed : Bool)
    (hne : ∀ g ∈ f::fs, g ≠ []) (hroom : ∀ g ∈ f::fs, 8*g.length+7 ≤ avlcMaxFrameOctets*8) :
    deframeLoop (joinFrames fill i (f::fs)++flag) 0 [] frames closed =
      frames++(f::fs).map lsbBits := by
  induction fs generalizing i f frames closed with
  | nil =>
    have h := deframeLoop_frame f [] frames closed (hne f (by simp)) (hroom f (by simp))
    rw [append_nil] at h
    rw [joinFrames, h]
    simp [deframeLoop]
  | cons g fs ih =>
    have hjoin : joinFrames fill i (f::g::fs)++flag =
        stuffed f++(flag++(flags (fill i)++(joinFrames fill (i+1) (g::fs)++flag))) := by
      rw [joinFrames, flags_succ]
      simp
    rw [hjoin, deframeLoop_frame f _ _ _ (hne f (by simp)) (hroom f (by simp)), deframeLoop_flags,
      ih (i+1) g _ _ (fun x hx => hne x (by simp [hx])) (fun x hx => hroom x (by simp [hx])),
      append_assoc]
    rfl

section
variable (opening : Bool) (fill : Nat → Nat) (frames : List (List UInt8))

theorem length_stuffed_le_joinFrames (i : Nat) {g : List UInt8} (hg : g ∈ frames) :
    (stuffed g).length ≤ (joinFrames fill i frames).length := by
  induction frames generalizing i with
  | nil => cases hg
  | cons f fs ih =>
    cases fs with
    | nil =>
      have hgf : g = f := by simpa using hg
      rw [hgf, joinFrames]
    | cons f' fs =>
      rw [joinFrames, length_append, length_append]
      cases mem_cons.mp hg with
      | inl h =>
        rw [h]
        omega
      | inr h =>
        have := ih (i+1) h
        omega

theorem frame_fits (hfit : (avlcSerialise opening fill frames).length ≤ 0x3FFF) {g : List UInt8}
    (hg : g ∈ frames) : 8*g.length+7 ≤ avlcMaxFrameOctets*8 := by
  have hjoin := length_stuffed_le_joinFrames fill frames 0 hg
  have hstuff := length_le_stuff 0 (lsbBits g)
  rw [length_lsbBits, ← stuffed] at hstuff
  rw [avlcSerialise, length_append, length_append, length_flag] at hfit
  rw [avlcMaxFrameOctets]
  omega

theorem deframeLoop_serialise (hne : frames ≠ []) (hf : ∀ f ∈ frames, f ≠ [])
    (hfit : (avlcSerialise opening fill frames).length ≤ 0x3FFF) :
    deframeLoop (avlcSerialise opening fill frames) 0 [] [] false = frames.map lsbBits := by
  cases frames with
  | nil => exact absurd rfl hne
  | cons f fs =>
    rw [avlcSerialise, append_assoc, deframeLoop_flags]
    exact deframeLoop_joinFrames fill 0 f fs [] false hf fun g hg =>
      frame_fits opening fill (f::fs) hfit hg

theorem avlcDeframeOctets_of_bits {octets : List UInt8} {stream : List Bool} (hpos : stream ≠ [])
    (hbits : (lsbBits octets).take stream.length = stream) :
    avlcDeframeOctets octets stream.length = deframeLoop stream 0 [] [] false := by
  have hlen : stream.length ≤ 8*octets.length := by
    have h := congrArg List.length hbits
    rw [length_take, length_lsbBits] at h
    omega
  have hn : stream.length ≠ 0 := fun h => hpos (length_eq_zero_iff.mp h)
  rw [avlcDeframeOctets, if_neg hn, map_range_lsbBits octets _ hlen, hbits]

theorem callback_raw :
    (parseAndEmit (packLsbfirst (lsbBits octets) ((lsbBits octets).length/8))).raw = octets := by
  rw [raw_parseAndEmit, packLsbfirst_lsbBits]
  rw [length_lsbBits]
  omega

theorem avlc_framing_round_trip (octets : List UInt8) (hne : frames ≠ [])
    (hf : ∀ f ∈ frames, f ≠ []) (hfit : (avlcSerialise opening fill frames).length ≤ 0x3FFF)
    (hbits : (lsbBits octets).take (avlcSerialise opening fill frames).length =
      avlcSerialise opening fill frames) :
    (avlcCallbacks octets (avlcSerialise opening fill frames).length).map AvlcFrame.raw = frames ∧
    (avlcDeframeOctets octets (avlcSerialise opening fill frames).length).length =
      frames.length := by
  have hstream : avlcSerialise opening fill frames ≠ [] := by simp [avlcSerialise, flag]
  have hcut : avlcDeframeOctets octets (avlcSerialise opening fill frames).length =
      frames.map lsbBits := by
    rw [avlcDeframeOctets_of_bits hstream hbits,
      deframeLoop_serialise opening fill frames hne hf hfit]
  constructor
  · rw [avlcCallbacks, hcut, map_map, map_map]
    calc frames.map _ = frames.map id := map_congr_left fun f _ => callback_raw f
      _ = frames := map_id frames
  · rw [hcut, length_map]

end

/-- Two frames, the first with runs of ones, with an opening flag and a spare one between. -/
theorem avlc_two_frames_round_trip :
    (avlcCallbacks [126, 223, 241, 249, 249, 5, 248, 1] 58).map AvlcFrame.raw =
      [[0xFF, 0xF8], [0x01]] ∧
    (avlcDeframeOctets [126, 223, 241, 249, 249, 5, 248, 1] 58).length = 2 :=
  avlc_framing_round_trip true (fun _ => 1) [[0xFF, 0xF8], [0x01]]
    [126, 223, 241, 249, 249, 5, 248, 1] (by decide) (by decide) (by decide) (by decide)

/-- The closing flag of a burst without frames reads as an opening one: an empty frame is reported.
-/
theorem avlc_bare_flag_reported :
    (lsbBits [0x7E]).take (avlcSerialise false (fun _ => 0) []).length =
      avlcSerialise false (fun _ => 0) [] ∧
    avlcCallbacks [0x7E] (avlcSerialise false (fun _ => 0) []).length = [.unparsed .tooShort []] ∧
    (avlcDeframeOctets [0x7E] (avlcSerialise false (fun _ => 0) []).length).length = 1 := by
  decide

end IridiumAcars.Avlc
