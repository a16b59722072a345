import IridiumAcars.BchDecoder
import IridiumAcars.FramePdu
import IridiumAcars.FrameQueue
import IridiumAcars.IdaClassify
import Mathlib.Data.UInt

/-! The Iridium frame sink of worker_core1.c in its device roles, and the PDU queue behind it. -/
namespace IridiumAcars.WorkerEmit
open Bch BchDecoder FrameClassify FramePdu FrameQueue

inductive DeviceRole
  | standalone
  | worker
  | combinedLoopback
deriving DecidableEq

structure DetectedBurst where
  startSampleIdx : UInt64
  relFreqHz : Int32
  peakSnrDb : UInt32
  peakBin : Int32

structure DecodedFrame where
  bits : List UInt8
  softBits : Option (List Int16)
  direction : IrDirection
  binary : ∀ b ∈ bits, b ≤ 1

def fsDetectHz : UInt64 := 2500000

def captureUs (epochUs : UInt64) (burst : DetectedBurst) : UInt64 :=
  epochUs+burst.startSampleIdx*1000000/fsDetectHz

def decodeBlock (block : List UInt8) (soft : Option (List Int16)) : Option (Int × Bool) :=
  match bchDecodeBlock block with
  | some (e, _) => some (e, false)
  | none =>
    match soft with
    | none => none
    | some soft => (bchDecodeBlockSoft soft 3).map fun r => (r.1, true)

/-- `(e1_bch, e2_bch, chase_used)` when both blocks decode. -/
def bchGate (f : DecodedFrame) : Option (Int × Int × Bool) :=
  if f.bits.length < 24+64 then none
  else
    let blocks := iridiumDeinterleave (f.bits.drop 24)
    let soft := f.softBits.map fun soft => iridiumDeinterleave (soft.drop 24)
    match decodeBlock blocks.1 (soft.map Prod.fst), decodeBlock blocks.2 (soft.map Prod.snd) with
    | some (e1, c1), some (e2, c2) => some (e1, e2, c1 || c2)
    | _, _ => none

def frameDirection (d : IrDirection) : IrFrameDirection :=
  if d = .downlink then .downlink else .uplink

def knownType : Option IridiumFrame → Bool
  | none => false
  | some frame => frame.type ≠ .unknown

/-- The gate with the classification behind it; only a frame that passes the gate is
classified. -/
def realKnown (harder : Bool) (reg : SynRegistry) (f : DecodedFrame) :
    SynRegistry × Option (Int × Int × Bool) :=
  match bchGate f with
  | none => (reg, none)
  | some pass =>
    let (reg', frame) := iridiumFrameClassify harder reg f.bits (frameDirection f.direction)
    (reg', if knownType frame then some pass else none)

def framePduFlagChase : UInt8 := 1

def emittedPdu (sourceId : UInt32) (epochUs : UInt64) (burst : DetectedBurst) (f : DecodedFrame)
    (pass : Int × Int × Bool) : IridiumFramePdu :=
  framePduPackBits
    { timestampUs := captureUs epochUs burst
      sourceId := sourceId
      relFreqHz := burst.relFreqHz
      peakSnrDb := burst.peakSnrDb
      peakBin := burst.peakBin.toInt16
      nBits := 0
      direction := if f.direction = .downlink then 0 else 1
      bchE1 := Int8.ofInt pass.1
      bchE2 := Int8.ofInt pass.2.1
      flags := if pass.2.2 then framePduFlagChase else 0
      bitsPacked := Vector.replicate _ 0 } f.bits f.bits.length

def standaloneCall (epochUs : UInt64) (burst : DetectedBurst) (f : DecodedFrame) : PushArgs where
  bits := f.bits
  softBits := f.softBits.getD []
  direction := f.direction
  freqHz := 0
  peakBin := burst.peakBin
  snrDb := burst.peakSnrDb
  timestampUs := captureUs epochUs burst

def framePduQueueDepth : Nat := 32

def framePduQueuePush (queue : List IridiumFramePdu) (pdu : IridiumFramePdu) :
    Bool × List IridiumFramePdu :=
  if queue.length < framePduQueueDepth then (true, queue++[pdu]) else (false, queue)

/-- The registry, the PDU queue and the `frame_decoder_push` calls; `none` is a failed sub-frame. -/
def workerEmitFrame (role : DeviceRole) (harder : Bool) (sourceId : UInt32) (epochUs : UInt64)
    (burst : DetectedBurst) (bframe : Option DecodedFrame) (reg : SynRegistry)
    (queue : List IridiumFramePdu) : SynRegistry × List IridiumFramePdu × List PushArgs :=
  match bframe with
  | none => (reg, queue, [])
  | some f =>
    let (reg', pass) := realKnown harder reg f
    match role with
    | .standalone => (reg', queue, [standaloneCall epochUs burst f])
    | .worker | .combinedLoopback =>
      match pass with
      | none => (reg', queue, [])
      | some pass =>
        (reg', (framePduQueuePush queue (emittedPdu sourceId epochUs burst f pass)).2, [])

def aggregatorIngest (pdu : IridiumFramePdu) : List PushArgs :=
  if pdu.nBits.toNat > framePduMaxBits then []
  else
    [{ bits := framePduUnpackBits pdu
       softBits := []
       direction := if pdu.direction ≠ 0 then .uplink else .downlink
       freqHz := 0
       peakBin := pdu.peakBin.toInt32
       snrDb := pdu.peakSnrDb
       timestampUs := pdu.timestampUs }]

def aggregatorIngestTask : List IridiumFramePdu → List PushArgs
  | [] => []
  | pdu::queue => aggregatorIngest pdu++aggregatorIngestTask queue

def burstPeakBin (peakBin : Int32) : Int32 := peakBin &&& 0xFFFF

def BlockPasses (block : List UInt8) (soft : Option (List Int16)) : Prop :=
  NearCodeword block ∨ ∃ metrics, soft = some metrics ∧ ChaseNear metrics

structure Passes (f : DecodedFrame) : Prop where
  long : 24+64 ≤ f.bits.length
  first : BlockPasses (iridiumDeinterleave (f.bits.drop 24)).1
    (f.softBits.map fun soft => (iridiumDeinterleave (soft.drop 24)).1)
  second : BlockPasses (iridiumDeinterleave (f.bits.drop 24)).2
    (f.softBits.map fun soft => (iridiumDeinterleave (soft.drop 24)).2)

theorem isSome_decodeBlock (block : List UInt8) (soft : Option (List Int16))
    (h : 31 ≤ block.length) : (decodeBlock block soft).isSome ↔ BlockPasses block soft := by
  have hhard := isSome_bchDecodeBlock h
  cases hdec : bchDecodeBlock block with
  | some found =>
    have hnear : NearCodeword block := hhard.mp (by rw [hdec]; rfl)
    simp [decodeBlock, hdec, BlockPasses, hnear]
  | none =>
    have hfar : ¬ NearCodeword block := fun hn => by simpa [hdec] using hhard.mpr hn
    cases soft with
    | none => simp [decodeBlock, hdec, BlockPasses, hfar]
    | some soft =>
      have hchase := isSome_bchDecodeBlockSoft soft
      simpa [decodeBlock, hdec, BlockPasses, hfar] using hchase

theorem length_blockCells (start : Nat) : (blockCells start).length = 32 := rfl

theorem isSome_bchGate (f : DecodedFrame) : (bchGate f).isSome ↔ Passes f := by
  by_cases hlen : f.bits.length < 24+64
  · have hnot : ¬ Passes f := fun hp => by have := hp.long; omega
    simp [bchGate, hlen, hnot]
  have hfirst := isSome_decodeBlock (iridiumDeinterleave (f.bits.drop 24)).1
    (f.softBits.map fun soft => (iridiumDeinterleave (soft.drop 24)).1)
    (by simp [iridiumDeinterleave, length_blockCells])
  have hsecond := isSome_decodeBlock (iridiumDeinterleave (f.bits.drop 24)).2
    (f.softBits.map fun soft => (iridiumDeinterleave (soft.drop 24)).2)
    (by simp [iridiumDeinterleave, length_blockCells])
  have hgate : (bchGate f).isSome ↔
      (decodeBlock (iridiumDeinterleave (f.bits.drop 24)).1
        (f.softBits.map fun soft => (iridiumDeinterleave (soft.drop 24)).1)).isSome ∧
      (decodeBlock (iridiumDeinterleave (f.bits.drop 24)).2
        (f.softBits.map fun soft => (iridiumDeinterleave (soft.drop 24)).2)).isSome := by
    rw [bchGate, if_neg hlen]
    simp only [Option.map_map, Function.comp_def]
    cases decodeBlock (iridiumDeinterleave (f.bits.drop 24)).1
        (f.softBits.map fun soft => (iridiumDeinterleave (soft.drop 24)).1) with
    | none => simp
    | some r1 =>
      cases decodeBlock (iridiumDeinterleave (f.bits.drop 24)).2
          (f.softBits.map fun soft => (iridiumDeinterleave (soft.drop 24)).2) with
      | none => simp
      | some r2 => simp
  rw [hgate, hfirst, hsecond]
  exact ⟨fun h => ⟨by omega, h.1, h.2⟩, fun h => ⟨h.first, h.second⟩⟩

section

theorem aggregatorIngestTask_append (queue : List IridiumFramePdu) (pdu : IridiumFramePdu) :
    aggregatorIngestTask (queue++[pdu]) = aggregatorIngestTask queue++aggregatorIngest pdu := by
  induction queue with
  | nil => simp [aggregatorIngestTask]
  | cons p queue ih => simp [aggregatorIngestTask, ih]

theorem burstPeakBin_toInt16 (peakBin : Int32) :
    burstPeakBin peakBin.toInt16.toInt32 = burstPeakBin peakBin := by
  apply Int32.toBitVec_inj.mp
  apply BitVec.eq_of_getLsbD_eq
  intro i hi
  have hmask : ∀ i < 32, (0xFFFF : Int32).toBitVec.getLsbD i = decide (i < 16) := by decide
  rw [burstPeakBin, burstPeakBin, Int32.toBitVec_and, Int32.toBitVec_and, BitVec.getLsbD_and,
    BitVec.getLsbD_and, hmask i hi, Int16.toBitVec_toInt32, Int32.toBitVec_toInt16]
  by_cases h16 : i < 16
  · rw [BitVec.getLsbD_signExtend, BitVec.getLsbD_signExtend]
    simp [h16, hi]
  · simp [h16]

structure SameFrame (a b : PushArgs) : Prop where
  bits : a.bits = b.bits
  direction : a.direction = b.direction
  peakBin : burstPeakBin a.peakBin = burstPeakBin b.peakBin
  snrDb : a.snrDb = b.snrDb
  timestampUs : a.timestampUs = b.timestampUs

variable (sourceId : UInt32) (epochUs : UInt64) (burst : DetectedBurst) (f : DecodedFrame)

theorem aggregatorIngest_emittedPdu (pass : Int × Int × Bool)
    (hlen : f.bits.length ≤ framePduMaxBits) :
    aggregatorIngest (emittedPdu sourceId epochUs burst f pass) =
      [{ bits := f.bits
         softBits := []
         direction := if f.direction = .downlink then .downlink else .uplink
         freqHz := 0
         peakBin := burst.peakBin.toInt16.toInt32
         snrDb := burst.peakSnrDb
         timestampUs := captureUs epochUs burst }] := by
  have hn : ¬ (emittedPdu sourceId epochUs burst f pass).nBits.toNat > framePduMaxBits := by
    rw [emittedPdu, toNat_nBits_framePduPackBits _ _ hlen]
    omega
  have hbits : framePduUnpackBits (emittedPdu sourceId epochUs burst f pass) = f.bits :=
    framePduUnpackBits_packBits _ f.bits hlen f.binary
  rw [aggregatorIngest, if_neg hn, hbits]
  cases hd : f.direction <;> simp [emittedPdu, framePduPackBits, hd]

variable (role : DeviceRole) (harder : Bool) (reg : SynRegistry) (queue : List IridiumFramePdu)

/-- The front end queues one PDU, of which the aggregator makes the call of a STANDALONE board. -/
def Forwarded : Prop :=
  ∃ pdu call own,
    (workerEmitFrame role harder sourceId epochUs burst (some f) reg queue).2.1 = queue++[pdu] ∧
    aggregatorIngestTask (queue++[pdu]) = aggregatorIngestTask queue++[call] ∧
    (workerEmitFrame .standalone harder sourceId epochUs burst (some f) reg queue).2.2 = [own] ∧
    SameFrame call own

theorem standalone_pushes :
    (workerEmitFrame .standalone harder sourceId epochUs burst (some f) reg queue).2.2 =
      [standaloneCall epochUs burst f] := by
  rw [workerEmitFrame]

variable {role harder reg queue}

theorem frontEnd_queue (hrole : role ≠ .standalone) (hroom : queue.length < framePduQueueDepth)
    (hknown : knownType
      (iridiumFrameClassify harder reg f.bits (frameDirection f.direction)).2 = true) :
    (workerEmitFrame role harder sourceId epochUs burst (some f) reg queue).2.1 =
      queue++((bchGate f).map (emittedPdu sourceId epochUs burst f)).toList := by
  have hpass : (realKnown harder reg f).2 = bchGate f := by
    cases hg : bchGate f with
    | none => simp [realKnown, hg]
    | some pass => simp [realKnown, hg, hknown]
  have hqueue : (workerEmitFrame role harder sourceId epochUs burst (some f) reg queue).2.1 =
      match bchGate f with
      | none => queue
      | some pass => (framePduQueuePush queue (emittedPdu sourceId epochUs burst f pass)).2 := by
    rw [← hpass]
    cases role with
    | standalone => exact absurd rfl hrole
    | worker | combinedLoopback =>
      cases h : (realKnown harder reg f).2 <;> simp [workerEmitFrame, h]
  rw [hqueue]
  cases bchGate f with
  | none => simp
  | some pass => simp [framePduQueuePush, hroom]

theorem sameFrame_iff (pass : Int × Int × Bool) (hlen : f.bits.length ≤ framePduMaxBits)
    (call : PushArgs)
    (hcall : aggregatorIngest (emittedPdu sourceId epochUs burst f pass) = [call]) :
    SameFrame call (standaloneCall epochUs burst f) ↔ f.direction ≠ .unknown := by
  rw [aggregatorIngest_emittedPdu sourceId epochUs burst f pass hlen, List.cons.injEq] at hcall
  obtain ⟨rfl,-⟩ := hcall
  constructor
  · intro h hd
    have hdir := h.direction
    simp [standaloneCall, hd] at hdir
  · intro hd
    refine ⟨rfl, ?_, burstPeakBin_toInt16 burst.peakBin, rfl, rfl⟩
    cases hdir : f.direction with
    | downlink | uplink => simp [standaloneCall, hdir]
    | unknown => exact absurd hdir hd

theorem not_forwarded (hrole : role ≠ .standalone) (hroom : queue.length < framePduQueueDepth)
    (hknown : knownType
      (iridiumFrameClassify harder reg f.bits (frameDirection f.direction)).2 = true)
    (hblocked : ¬ Passes f) : ¬ Forwarded sourceId epochUs burst f role harder reg queue := by
  have hgate : bchGate f = none := by
    cases hg : bchGate f with
    | none => rfl
    | some pass => exact absurd ((isSome_bchGate f).mp (by rw [hg]; rfl)) hblocked
  rintro ⟨pdu,call,own,hpdu,-⟩
  rw [frontEnd_queue sourceId epochUs burst f hrole hroom hknown, hgate] at hpdu
  simp at hpdu

/-- A frame of known type reaches the aggregator's decoder iff both of its blocks pass the gate. -/
theorem front_end_forwards (hrole : role ≠ .standalone) (hlen : f.bits.length ≤ framePduMaxBits)
    (hroom : queue.length < framePduQueueDepth) (hknown : knownType
      (iridiumFrameClassify harder reg f.bits (frameDirection f.direction)).2 = true) :
    Forwarded sourceId epochUs burst f role harder reg queue ↔
      Passes f ∧ f.direction ≠ .unknown := by
  by_cases hpasses : Passes f
  · obtain ⟨pass,hg⟩ := Option.isSome_iff_exists.mp ((isSome_bchGate f).mpr hpasses)
    have hcall := aggregatorIngest_emittedPdu sourceId epochUs burst f pass hlen
    have hsame := sameFrame_iff sourceId epochUs burst f pass hlen
    have hqueue := frontEnd_queue sourceId epochUs burst f hrole hroom hknown
    rw [Forwarded, standalone_pushes, hqueue, hg]
    constructor
    · rintro ⟨pdu,call,own,hpdu,htask,hown,hs⟩
      have hp : emittedPdu sourceId epochUs burst f pass = pdu := by simpa using hpdu
      subst hp
      rw [aggregatorIngestTask_append, List.append_cancel_left_eq] at htask
      rw [List.cons.injEq] at hown
      obtain ⟨rfl,-⟩ := hown
      exact ⟨hpasses, (hsame call htask).mp hs⟩
    · rintro ⟨-,hd⟩
      refine ⟨_, _, _, rfl, ?_, rfl, (hsame _ hcall).mpr hd⟩
      rw [aggregatorIngestTask_append, hcall]
  · have hnot := not_forwarded sourceId epochUs burst f hrole hroom hknown hpasses
    exact ⟨fun h => absurd h hnot, fun h => absurd h.1 hpasses⟩

end

def zeroBroadcast : DecodedFrame where
  bits := FrameClassify.uwDl++List.replicate 70 0
  softBits := none
  direction := .downlink
  binary := by decide +kernel

def someBurst : DetectedBurst := ⟨2500, 0, 0, 0x30400⟩

theorem zeroBroadcast_known : knownType (iridiumFrameClassify false SynRegistry.init
    zeroBroadcast.bits (frameDirection zeroBroadcast.direction)).2 = true := by
  decide +kernel

theorem zeroBroadcast_passes : Passes zeroBroadcast where
  long := by decide
  first := Or.inl ⟨[], by simp, by simp, by decide +kernel⟩
  second := Or.inl ⟨[], by simp, by simp, by decide +kernel⟩

theorem zeroBroadcast_forwarded :
    Forwarded 7 1000000 someBurst zeroBroadcast .worker false SynRegistry.init [] :=
  (front_end_forwards 7 1000000 someBurst zeroBroadcast (by decide) (by decide) (by decide)
    zeroBroadcast_known).mpr ⟨zeroBroadcast_passes, by decide⟩

open IdaEncode in
def hiMessage : List UInt8 :=
  IndexMap.writeAt (messageBits 0 0 [72,73]) 180
    (fieldBits 16 (Crc16.crc16CcittFalse (crcInput (messageBits 0 0 [72,73]))))

def hiBits : List UInt8 :=
  (BitWord.toBits 382 (0xc0c3cc0000008c04052a855024120012 <<< 252 ||| 0x201000223001111)).map
    Interleave.cell

theorem hiBits_encoded : IdaEncode.idaEncodeDaFrame 0 0 [72,73] = .frame hiBits := by
  decide +kernel

def hiSoft : List Int16 :=
  List.zipWith (fun b m => if b = 1 then -m else m) hiBits
    ((((List.replicate 382 100).set 66 1).set 75 1).set 83 1)

def hiFrame : DecodedFrame where
  bits := hiBits
  softBits := some hiSoft
  direction := .downlink
  binary := by
    intro b hb
    obtain ⟨x,-,rfl⟩ := List.mem_map.mp hb
    cases x <;> decide

def hiMetrics : List Int16 :=
  [100,-100,-100,1,-100,100,100,1,100,-100,1,100,100,-100,100,100,-100,-100,-100,100,
   100,100,100,100,100,100,100,100,100,100,100,100]

theorem hiFrame_hard :
    (lightSyndromes.testBit (gf2Remainder bchPolyRa
      (bitsToUint (iridiumDeinterleave (hiFrame.bits.drop 24)).1 31)) = false) ∧
    (iridiumDeinterleave (hiSoft.drop 24)).1 = hiMetrics ∧
    ∀ p < 8, lightSyndromes.testBit (gf2Remainder bchPolyRa (bitsToUint
      (flipPattern (hardCells hiMetrics) (leastReliable (softAbs hiMetrics) 3) p) 31)) = false := by
  decide +kernel

theorem hiFrame_blocked : ¬ Passes hiFrame := by
  intro h
  obtain ⟨hhard,hsoft,hchase⟩ := hiFrame_hard
  rcases h.first with hnear | ⟨metrics,hm,p,hp,hnear⟩
  · exact not_nearCodeword (by simp [iridiumDeinterleave, length_blockCells]) hhard hnear
  · obtain rfl : hiMetrics = metrics := by simpa [hiFrame, hsoft] using hm
    exact not_nearCodeword (by simp) (hchase p hp) hnear

theorem hiFrame_classified : iridiumFrameClassify false SynRegistry.init hiFrame.bits .downlink =
    (SynRegistry.init, some ⟨.lw, .downlink, .da, 24, hiFrame.bits⟩) := by
  have hbits : hiFrame.bits =
      IdaEncode.uwDl++IdaEncode.buildLcwRawBits++IdaEncode.encodeDataSection hiMessage :=
    IdaEncode.EncodeResult.frame.inj (hiBits_encoded.symm.trans rfl)
  rw [hbits]
  exact IdaClassify.classify_encoded false SynRegistry.init hiMessage (by decide +kernel) 0 0 2
    (by decide) (by decide) (by decide) (by decide +kernel)

/-- A clean DA frame, with metrics, that never leaves the front end. -/
theorem da_frame_not_forwarded :
    IdaEncode.idaEncodeDaFrame 0 0 [72,73] = .frame hiFrame.bits ∧
    iridiumFrameClassify false SynRegistry.init hiFrame.bits .downlink =
      (SynRegistry.init, some ⟨.lw, .downlink, .da, 24, hiFrame.bits⟩) ∧
    hiFrame.bits.length ≤ framePduMaxBits ∧
    ¬ Forwarded 7 1000000 someBurst hiFrame .worker false SynRegistry.init [] := by
  refine ⟨hiBits_encoded, hiFrame_classified, by simp [hiFrame, hiBits, framePduMaxBits], ?_⟩
  refine not_forwarded 7 1000000 someBurst hiFrame (by decide) (by decide) ?_ hiFrame_blocked
  change knownType (iridiumFrameClassify false SynRegistry.init hiFrame.bits .downlink).2 = true
  rw [hiFrame_classified]
  rfl

end IridiumAcars.WorkerEmit
