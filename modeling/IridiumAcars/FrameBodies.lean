import IridiumAcars.FrameHarder

/-! The ring-alert and broadcast body parsers, ira_decode.c and ibc_decode.c. -/
namespace IridiumAcars.FrameBodies
open Bch IndexMap Interleave FrameClassify List

def pickBits (bits : List UInt8) (start n : Nat) : Nat :=
  (List.range n).foldl (fun v i => v <<< 1 ||| (lsb (bits.getD (start+i) 0)).toNat) 0

def signExtend12 (bits : List UInt8) (signIdx magStart magN : Nat) : Int :=
  (pickBits bits magStart magN : Int)-((lsb (bits.getD signIdx 0)).toNat <<< 11 : Nat)

def swappedBody (frame : IridiumFrame) (n : Nat) : List UInt8 :=
  (pairSwap ((frame.bits.drop 24).take n)).map mask

/-- `ira_decoded_t` without the position in degrees. -/
structure IraDecoded where
  bchOk : Bool
  svId : Nat
  beamId : Nat
  posX : Int
  posY : Int
  posZ : Int
  raInt : Nat
  raTs : Nat
  raEip : Nat
  raBcSb : Nat
deriving DecidableEq

def IraDecoded.zero : IraDecoded := ⟨false, 0, 0, 0, 0, 0, 0, 0, 0, 0⟩

def iraFields (hdr : List UInt8) : IraDecoded where
  bchOk := true
  svId := pickBits hdr 0 7
  beamId := pickBits hdr 7 6
  posX := signExtend12 hdr 13 14 11
  posY := signExtend12 hdr 25 26 11
  posZ := signExtend12 hdr 37 38 11
  raInt := pickBits hdr 49 7
  raTs := pickBits hdr 56 1
  raEip := pickBits hdr 57 1
  raBcSb := pickBits hdr 58 5

def iraDecode (reg : SynRegistry) (frame : IridiumFrame) : SynRegistry × Option IraDecoded :=
  if frame.type ≠ .ra then (reg, none)
  else if frame.bits.length < 24+96 then (reg, none)
  else
    let (cw1, cw2, cw3) := deInterleave3 (swappedBody frame 96)
    let (reg, e1, cw1) := iridiumBchRepair2 reg 1207 (cw1.take 31)
    let (reg, e2, cw2) := iridiumBchRepair2 reg 1207 (cw2.take 31)
    let (reg, e3, cw3) := iridiumBchRepair2 reg 1207 (cw3.take 31)
    if e1 < 0 ∨ e2 < 0 ∨ e3 < 0 then (reg, some .zero)
    else (reg, some (iraFields (cw1.take 21++cw2.take 21++cw3.take 21)))

def ibcNBlocks : Nat := 4
def ibcBodyBits : Nat := 6+ibcNBlocks*64

structure IbcDecoded where
  headerOk : Bool
  bcType : Int
  block0Ok : Bool
  block1Ok : Bool
  nBlocksOk : Nat
  svId : Nat
  beamId : Nat
  slot : Nat
  svBlocking : Nat
  block1Subtype : Int
  iriTime : Nat
  tmsiExpiry : Nat
deriving DecidableEq

def IbcDecoded.zero : IbcDecoded := ⟨false, 0, false, false, 0, 0, 0, 0, 0, -1, 0, 0⟩

def decodeIbcBlock (reg : SynRegistry) (in64 outData : List UInt8) :
    SynRegistry × Nat × List UInt8 :=
  let (odd, even) := deInterleave in64
  let (reg, eOdd, odd) := iridiumBchRepair2 reg 1207 (odd.take 31)
  let (reg, eEven, even) := iridiumBchRepair2 reg 1207 (even.take 31)
  if eOdd < 0 ∧ eEven < 0 then (reg, 0, outData)
  else (reg, (if eOdd ≥ 0 then 1 else 0)+(if eEven ≥ 0 then 1 else 0),
    (if eOdd ≥ 0 then odd.take 21 else List.replicate 21 0)++
      (if eEven ≥ 0 then even.take 21 else List.replicate 21 0))

structure IbcState where
  reg : SynRegistry
  blockData : List UInt8
  out : IbcDecoded

def ibcFields (out : IbcDecoded) (blk : Nat) (data : List UInt8) : IbcDecoded :=
  if blk = 0 ∧ out.bcType = 0 then
    { out with
      block0Ok := true
      svId := pickBits data 0 7
      beamId := pickBits data 7 6
      slot := pickBits data 14 1
      svBlocking := pickBits data 15 1 }
  else if blk = 1 ∧ out.bcType = 0 then
    let subtype := pickBits data 0 6
    let out := { out with block1Ok := true, block1Subtype := (subtype : Int) }
    if subtype = 1 then { out with iriTime := pickBits data 10 32 }
    else if subtype = 2 then { out with tmsiExpiry := pickBits data 10 32 }
    else out
  else out

def ibcStep (blocks : List UInt8) (st : IbcState) (blk : Nat) : IbcState :=
  let (reg, nOk, data) := decodeIbcBlock st.reg ((blocks.drop (blk*64)).take 64) st.blockData
  if nOk = 2 then
    ⟨reg, data, ibcFields { st.out with nBlocksOk := st.out.nBlocksOk+1 } blk data⟩
  else
    let out := if blk = 0 then { st.out with block0Ok := false } else st.out
    let out := if blk = 1 then { out with block1Ok := false } else out
    ⟨reg, data, out⟩

def ibcDecode (reg : SynRegistry) (frame : IridiumFrame) : SynRegistry × Option IbcDecoded :=
  if frame.type ≠ .bc then (reg, none)
  else if frame.bits.length < 24+ibcBodyBits then (reg, none)
  else
    let p := swappedBody frame ibcBodyBits
    let (reg, eHdr, hdr) := iridiumBchRepair1 reg 29 (p.take 6)
    if eHdr < 0 then (reg, some { IbcDecoded.zero with headerOk := false, bcType := -1 })
    else
      let out := { IbcDecoded.zero with headerOk := true, bcType := (pickBits hdr 0 2 : Int) }
      let st := (List.range ibcNBlocks).foldl (ibcStep (p.drop 6)) ⟨reg, List.replicate 42 0, out⟩
      (st.reg, some st.out)

variable (reg : SynRegistry)

section
variable {frame : IridiumFrame}

theorem length_swappedPrefix (q : List UInt8) : (swappedPrefix q).length =
    min q.length 128-min q.length 128%2 := by
  rw [swappedPrefix, length_map, length_pairSwap, length_take]
  omega

theorem take_swappedPrefix {q : List UInt8} {n : Nat} (hn : n%2 = 0)
    (h : n ≤ (swappedPrefix q).length) :
    (swappedPrefix q).take n = (pairSwap (q.take n)).map mask := by
  rw [length_swappedPrefix] at h
  rw [swappedPrefix, ← map_take, ← pairSwap_take _ n hn (by rw [length_take]; omega),
    take_take, Nat.min_eq_left h]

theorem take_swappedBody {m n : Nat} (hn : n%2 = 0) (hnm : n ≤ m)
    (h : 24+m ≤ frame.bits.length) :
    (swappedBody frame m).take n = (pairSwap ((frame.bits.drop 24).take n)).map mask := by
  rw [swappedBody, ← map_take, ← pairSwap_take _ n hn
    (by rw [length_take, length_drop]; omega), take_take, Nat.min_eq_left hnm]

def raWords (frame : IridiumFrame) : List UInt8 × List UInt8 × List UInt8 :=
  deInterleave3 ((swappedPrefix (frame.bits.drop 24)).take 96)

def bcHeader (frame : IridiumFrame) : List UInt8 := (swappedPrefix (frame.bits.drop 24)).take 6

def bcWords (frame : IridiumFrame) : List UInt8 × List UInt8 :=
  deInterleavePair (((swappedPrefix (frame.bits.drop 24)).drop 6).take 64)

theorem length_deInterleave3 (xs : List UInt8) (h : xs.length = 96) :
    (deInterleave3 xs).1.length = 32 ∧ (deInterleave3 xs).2.1.length = 32 ∧
    (deInterleave3 xs).2.2.length = 32 := by
  simp only [deInterleave3, h, gather, length_map]
  decide

theorem length_deInterleave (xs : List UInt8) (h : xs.length = 64) :
    (deInterleave xs).1.length = 32 ∧ (deInterleave xs).2.length = 32 := by
  simp only [deInterleave, h, gather, length_map]
  decide

theorem classifyRa_spec {p : List UInt8} (h : classifyRa p = true) : 96 ≤ p.length ∧
    iridiumBchNdivide 1207 ((deInterleave3 (p.take 96)).1.take 31) = 0 ∧
    iridiumBchNdivide 1207 ((deInterleave3 (p.take 96)).2.1.take 31) = 0 ∧
    iridiumBchNdivide 1207 ((deInterleave3 (p.take 96)).2.2.take 31) = 0 := by
  simp only [classifyRa] at h
  split at h
  · cases h
  · split at h
    · cases h
    · split at h
      · cases h
      · split at h
        · cases h
        · simp_all

theorem classifyBc_spec {p : List UInt8} (h : classifyBc p = true) : 70 ≤ p.length ∧
    iridiumBchNdivide 29 (p.take 6) = 0 ∧
    iridiumBchNdivide 1207 ((deInterleavePair ((p.drop 6).take 64)).1.take 31) = 0 ∧
    iridiumBchNdivide 1207 ((deInterleavePair ((p.drop 6).take 64)).2.take 31) = 0 := by
  simp only [classifyBc] at h
  split at h
  · cases h
  · split at h
    · cases h
    · split at h
      · cases h
      · split at h
        · cases h
        · simp_all

theorem iraDecode_classified (ht : frame.type = .ra)
    (h : classifyRa (swappedPrefix (frame.bits.drop 24)) = true) :
    (iraDecode reg frame).2 = some (iraFields ((raWords frame).1.take 21++
      (raWords frame).2.1.take 21++(raWords frame).2.2.take 21)) := by
  obtain ⟨hlen,h1,h2,h3⟩ := classifyRa_spec h
  have hbits : 24+96 ≤ frame.bits.length := by
    rw [length_swappedPrefix, length_drop] at hlen
    omega
  have hbody : swappedBody frame 96 = (swappedPrefix (frame.bits.drop 24)).take 96 := by
    rw [take_swappedPrefix rfl hlen]
    rfl
  obtain ⟨hl1,hl2,hl3⟩ := length_deInterleave3
    ((swappedPrefix (frame.bits.drop 24)).take 96) (by rw [length_take]; omega)
  have hne : ∀ w : List UInt8, w.length = 32 → (w.take 31).length ≠ 0 := by
    intro w hw
    rw [length_take]
    omega
  rw [iraDecode, if_neg (not_not.mpr ht), if_neg (by omega), hbody]
  simp only [repair2_clean _ (hne _ hl1) h1, repair2_clean _ (hne _ hl2) h2,
    repair2_clean _ (hne _ hl3) h3]
  simp [raWords, take_take]

theorem decodeIbcBlock_classified (outData : List UInt8)
    (h : classifyBc (swappedPrefix (frame.bits.drop 24)) = true) :
    decodeIbcBlock reg (((swappedPrefix (frame.bits.drop 24)).drop 6).take 64) outData =
      (reg, 2, (bcWords frame).1.take 21++(bcWords frame).2.take 21) := by
  obtain ⟨hlen,-,h1,h2⟩ := classifyBc_spec h
  obtain ⟨hl1,hl2⟩ := length_deInterleave
    (((swappedPrefix (frame.bits.drop 24)).drop 6).take 64)
    (by rw [length_take, length_drop]; omega)
  rw [deInterleavePair] at h1 h2
  rw [decodeIbcBlock]
  simp only [repair2_clean _ (by rw [length_take]; omega) h1,
    repair2_clean _ (by rw [length_take]; omega) h2]
  simp [bcWords, deInterleavePair, take_take]

def firstFields (out : IbcDecoded) : Bool × Int × Bool × Nat × Nat × Nat × Nat :=
  (out.headerOk, out.bcType, out.block0Ok, out.svId, out.beamId, out.slot, out.svBlocking)

theorem firstFields_ibcFields (out : IbcDecoded) {blk : Nat} (hblk : blk ≠ 0) (data : List UInt8) :
    firstFields (ibcFields out blk data) = firstFields out ∧
      (ibcFields out blk data).nBlocksOk = out.nBlocksOk := by
  rw [ibcFields, if_neg fun h => hblk h.1]
  split
  · dsimp only
    split
    · exact ⟨rfl, rfl⟩
    · split <;> exact ⟨rfl, rfl⟩
  · exact ⟨rfl, rfl⟩

theorem ibcStep_later (blocks : List UInt8) (st : IbcState) {blk : Nat} (hblk : blk ≠ 0) :
    firstFields (ibcStep blocks st blk).out = firstFields st.out ∧
      st.out.nBlocksOk ≤ (ibcStep blocks st blk).out.nBlocksOk := by
  rw [ibcStep]
  generalize decodeIbcBlock st.reg ((blocks.drop (blk*64)).take 64) st.blockData = r
  obtain ⟨reg,nOk,data⟩ := r
  dsimp only
  by_cases hok : nOk = 2
  · obtain ⟨hf,hn⟩ := firstFields_ibcFields
      { st.out with nBlocksOk := st.out.nBlocksOk+1 } hblk data
    rw [if_pos hok]
    exact ⟨hf, hn ▸ Nat.le_succ _⟩
  · simp only [hok, hblk, if_false]
    split <;> exact ⟨rfl, le_rfl⟩

theorem foldl_ibcStep_later (blocks : List UInt8) (blks : List Nat) (hblks : ∀ b ∈ blks, b ≠ 0)
    (st : IbcState) :
    firstFields (blks.foldl (ibcStep blocks) st).out = firstFields st.out ∧
      st.out.nBlocksOk ≤ (blks.foldl (ibcStep blocks) st).out.nBlocksOk := by
  induction blks generalizing st with
  | nil => exact ⟨rfl, le_rfl⟩
  | cons b blks ih =>
    obtain ⟨hf,hn⟩ := ibcStep_later blocks st (hblks b mem_cons_self)
    obtain ⟨hf',hn'⟩ := ih (fun c hc => hblks c (mem_cons_of_mem b hc)) (ibcStep blocks st b)
    rw [foldl_cons]
    exact ⟨hf'.trans hf, hn.trans hn'⟩

theorem take_body (hlen : 70 ≤ (swappedPrefix (frame.bits.drop 24)).length)
    (hbits : 286 ≤ frame.bits.length) : (swappedBody frame ibcBodyBits).take 70 =
      (swappedPrefix (frame.bits.drop 24)).take 70 := by
  rw [take_swappedPrefix rfl hlen, take_swappedBody rfl (by decide) (by exact hbits)]

theorem firstBlock_eq (hlen : 70 ≤ (swappedPrefix (frame.bits.drop 24)).length)
    (hbits : 286 ≤ frame.bits.length) :
    (((swappedBody frame ibcBodyBits).drop 6).drop (0*64)).take 64 =
      ((swappedPrefix (frame.bits.drop 24)).drop 6).take 64 := by
  have h64 := congrArg (List.drop 6) (take_body hlen hbits)
  rwa [drop_take, drop_take] at h64

theorem ibcDecode_classified (ht : frame.type = .bc)
    (h : classifyBc (swappedPrefix (frame.bits.drop 24)) = true)
    (hbits : 286 ≤ frame.bits.length) :
    ∃ out, (ibcDecode reg frame).2 = some out ∧ 1 ≤ out.nBlocksOk ∧ firstFields out = firstFields
      (ibcFields { IbcDecoded.zero with
        headerOk := true, bcType := (pickBits (bcHeader frame) 0 2 : Int), nBlocksOk := 1 } 0
        ((bcWords frame).1.take 21++(bcWords frame).2.take 21)) := by
  obtain ⟨hlen,hhdr,-⟩ := classifyBc_spec h
  have hhead : (swappedBody frame ibcBodyBits).take 6 = bcHeader frame := by
    have h6 := congrArg (List.take 6) (take_body hlen hbits)
    rwa [take_take, take_take] at h6
  have hhl : (bcHeader frame).length ≠ 0 := by
    rw [bcHeader, length_take]
    omega
  rw [ibcDecode, if_neg (not_not.mpr ht), if_neg (by rw [ibcBodyBits, ibcNBlocks]; omega)]
  dsimp only
  rw [hhead, repair1_clean reg hhl hhdr]
  dsimp only
  rw [if_neg (by decide)]
  refine ⟨_, rfl, ?_⟩
  rw [show List.range ibcNBlocks = 0::[1, 2, 3] from rfl, foldl_cons]
  obtain ⟨hf,hn⟩ := foldl_ibcStep_later ((swappedBody frame ibcBodyBits).drop 6) [1, 2, 3]
    (by decide) (ibcStep ((swappedBody frame ibcBodyBits).drop 6) ⟨reg, List.replicate 42 0,
      { IbcDecoded.zero with headerOk := true, bcType := (pickBits (bcHeader frame) 0 2 : Int) }⟩ 0)
  have hfirst : (ibcStep ((swappedBody frame ibcBodyBits).drop 6) ⟨reg, List.replicate 42 0,
      { IbcDecoded.zero with headerOk := true, bcType := (pickBits (bcHeader frame) 0 2 : Int) }⟩
      0).out = ibcFields { IbcDecoded.zero with
        headerOk := true, bcType := (pickBits (bcHeader frame) 0 2 : Int), nBlocksOk := 1 } 0
        ((bcWords frame).1.take 21++(bcWords frame).2.take 21) := by
    rw [ibcStep, firstBlock_eq hlen hbits, decodeIbcBlock_classified reg _ h]
    rfl
  rw [hfirst] at hf hn
  refine ⟨le_trans ?_ hn, hf⟩
  rw [ibcFields]
  split
  · exact le_rfl
  · exact le_rfl

end

def ibcBlock (frame : IridiumFrame) (blk : Nat) : List UInt8 :=
  (((swappedBody frame ibcBodyBits).drop 6).drop (blk*64)).take 64

/-- An accepted ring alert or broadcast decodes to the fields of the codewords checked. -/
theorem classified_body_decodes (harder : Bool) (reg reg' : SynRegistry) (bits : List UInt8)
    (direction : IrFrameDirection) (f : IridiumFrame)
    (hf : (iridiumFrameClassify harder reg bits direction).2 = some f) :
    (f.type = .ra →
      InCode 1207 10 ((raWords f).1.take 31) ∧ InCode 1207 10 ((raWords f).2.1.take 31) ∧
      InCode 1207 10 ((raWords f).2.2.take 31) ∧
      ∃ out, (iraDecode reg' f).2 = some out ∧ out.bchOk = true ∧
        out = iraFields ((raWords f).1.take 21++(raWords f).2.1.take 21++(raWords f).2.2.take 21)) ∧
    (f.type = .bc → 286 ≤ bits.length →
      InCode 29 4 (bcHeader f) ∧ InCode 1207 10 ((bcWords f).1.take 31) ∧
      InCode 1207 10 ((bcWords f).2.take 31) ∧
      (∀ data, (decodeIbcBlock reg' (ibcBlock f 0) data).2 =
        (2, (bcWords f).1.take 21++(bcWords f).2.take 21)) ∧
      ∃ out, (ibcDecode reg' f).2 = some out ∧ out.headerOk = true ∧
        out.bcType = (pickBits (bcHeader f) 0 2 : Int) ∧ 1 ≤ out.nBlocksOk ∧
        (out.block0Ok = true ↔ out.bcType = 0) ∧
        (out.bcType = 0 →
          out.svId = pickBits ((bcWords f).1.take 21++(bcWords f).2.take 21) 0 7 ∧
          out.beamId = pickBits ((bcWords f).1.take 21++(bcWords f).2.take 21) 7 6 ∧
          out.slot = pickBits ((bcWords f).1.take 21++(bcWords f).2.take 21) 14 1 ∧
          out.svBlocking = pickBits ((bcWords f).1.take 21++(bcWords f).2.take 21) 15 1)) := by
  obtain ⟨hbits,hra,hbc⟩ := classify_body hf
  have hp : u32BitLength (1207 : UInt32).toNat = 10+1 := by decide
  have hcode : ∀ w : List UInt8, w.length = 32 → iridiumBchNdivide 1207 (w.take 31) = 0 →
      InCode 1207 10 (w.take 31) := by
    intro w hw h0
    have hl : (w.take 31).length = 31 := by
      rw [length_take]
      omega
    exact (ndivide_eq_zero_iff hp (by omega) (by omega)).mp h0
  rw [← hbits] at hra hbc ⊢
  constructor
  · intro ht
    obtain ⟨hlen,h1,h2,h3⟩ := classifyRa_spec (hra ht)
    obtain ⟨hl1,hl2,hl3⟩ := length_deInterleave3
      ((swappedPrefix (f.bits.drop 24)).take 96) (by rw [length_take]; omega)
    exact ⟨hcode _ hl1 h1, hcode _ hl2 h2, hcode _ hl3 h3, _,
      iraDecode_classified reg' ht (hra ht), rfl, rfl⟩
  · intro ht hlong
    obtain ⟨hlen,hhdr,h1,h2⟩ := classifyBc_spec (hbc ht)
    obtain ⟨hl1,hl2⟩ := length_deInterleave
      (((swappedPrefix (f.bits.drop 24)).drop 6).take 64)
      (by rw [length_take, length_drop]; omega)
    obtain ⟨out,hout,hn,hfirst⟩ := ibcDecode_classified reg' ht (hbc ht) hlong
    have hh : InCode 29 4 (bcHeader f) := by
      have hl : (bcHeader f).length = 6 := by
        rw [bcHeader, length_take]
        omega
      exact (ndivide_eq_zero_iff (by decide) (by omega) (by omega)).mp hhdr
    refine ⟨hh, hcode _ hl1 h1, hcode _ hl2 h2, ?_, out, hout, ?_⟩
    · intro data
      rw [ibcBlock, firstBlock_eq hlen hlong, decodeIbcBlock_classified reg' data (hbc ht)]
    · rw [ibcFields] at hfirst
      by_cases h0 : (pickBits (bcHeader f) 0 2 : Int) = 0
      · rw [if_pos ⟨rfl, h0⟩] at hfirst
        simp only [firstFields, Prod.mk.injEq] at hfirst
        obtain ⟨a,b,c,d,e,g,k⟩ := hfirst
        exact ⟨a, b, hn, ⟨fun _ => b.trans h0, fun _ => c⟩, fun _ => ⟨d, e, g, k⟩⟩
      · rw [if_neg fun h => h0 h.2, if_neg fun h => h0 h.2] at hfirst
        simp only [firstFields, Prod.mk.injEq] at hfirst
        obtain ⟨a,b,c,-⟩ := hfirst
        have hb : ¬ out.bcType = 0 := b ▸ h0
        exact ⟨a, b, hn, ⟨fun h => absurd (c.symm.trans h) (by decide), fun h => absurd h hb⟩,
          fun h => absurd h hb⟩

def blankBroadcast : List UInt8 := uwDl++List.replicate 262 0

/-- A ring alert for beam 18: one nonzero codeword of three. -/
def beamAlert : List UInt8 :=
  uwDl++(List.range 96).map fun i => if i ∈ [40, 46, 47, 52, 59, 65, 70] then 1 else 0

theorem classified_body_decodes_both :
    (∃ f out, (iridiumFrameClassify true .init beamAlert .downlink).2 = some f ∧
      (iraDecode .init f).2 = some out ∧ out.bchOk = true) ∧
    ∃ f out, (iridiumFrameClassify true .init blankBroadcast .downlink).2 = some f ∧
      (ibcDecode .init f).2 = some out ∧ out.headerOk = true ∧ 1 ≤ out.nBlocksOk := by
  have hra : (iridiumFrameClassify true .init beamAlert .downlink).2.map (·.type) =
      some .ra := by decide +kernel
  have hbc : (iridiumFrameClassify true .init blankBroadcast .downlink).2.map (·.type) =
      some .bc := by decide +kernel
  obtain ⟨f,hf,ht⟩ := Option.map_eq_some_iff.mp hra
  obtain ⟨g,hg,hgt⟩ := Option.map_eq_some_iff.mp hbc
  obtain ⟨-,-,-,out,hout,hok,-⟩ :=
    (classified_body_decodes true .init .init beamAlert .downlink f hf).1 ht
  obtain ⟨-,-,-,-,out',hout',hhdr,-,hn,-⟩ :=
    (classified_body_decodes true .init .init blankBroadcast .downlink g hg).2 hgt
      (by decide +kernel)
  exact ⟨⟨f, out, hf, hout, hok⟩, g, out', hg, hout', hhdr, hn⟩

/-- A broadcast of type 1: its first block passes like the others, and is reported as failed. -/
theorem typed_broadcast_block0_refused :
    (iridiumFrameClassify true .init (uwDl++[1, 0, 1, 1, 1, 0]++List.replicate 256 0)
        .downlink).2.map (fun f => (f.type, (ibcDecode .init f).2.map fun out =>
          (out.headerOk, out.bcType, out.block0Ok, out.nBlocksOk))) =
      some (.bc, some (true, 1, false, 4)) := by
  decide +kernel

end IridiumAcars.FrameBodies
