import IridiumAcars.SignalBufferIndex

/-! The worker reading a burst out of the sample ring while pushes are under way. -/
namespace IridiumAcars.WorkerExtract
open RingBuffer SignalBuffer

structure DetectedBurst where
  startSampleIdx : UInt64
  lengthSamples : UInt32

def wbPrePadSamples : UInt32 := 288

def wbMaxBurstSamples : UInt32 := 625000

def wbExtractMax : UInt32 := wbMaxBurstSamples+wbPrePadSamples+1024

def decimChunkIn : Nat := 4000

def DetectedBurst.checkStart (d : DetectedBurst) : UInt64 :=
  d.startSampleIdx-wbPrePadSamples.toUInt64

def DetectedBurst.checkLen (d : DetectedBurst) : UInt32 := d.lengthSamples+wbPrePadSamples

def DetectedBurst.extLen (d : DetectedBurst) : UInt32 :=
  let safeLen := if wbMaxBurstSamples < d.lengthSamples then wbMaxBurstSamples else d.lengthSamples
  let extLen := safeLen-safeLen%80+wbPrePadSamples
  if wbExtractMax < extLen then wbExtractMax else extLen

def DetectedBurst.extStart (d : DetectedBurst) : UInt32 := d.checkStart.toUInt32

def DetectedBurst.valid (d : DetectedBurst) (b : Buffer) : Bool :=
  signalBufferBurstValid b d.checkStart d.checkLen

/-- Cell of the `i`-th sample of a chunk, in either branch of `signal_buffer_read_chunk`. -/
def chunkCell (actualStart i : Nat) : Nat :=
  if actualStart+i < signalBufCapacityComplex.toNat then actualStart+i
  else actualStart+i-signalBufCapacityComplex.toNat

/-- The `j`-th sample `wb_extract_decim` reads, in chunks of `DECIM_CHUNK_IN`. -/
def extractSample (b : Buffer) (extStart : UInt32) (j : Nat) : Int16 × Int16 :=
  let off := j/decimChunkIn*decimChunkIn
  let actualStart := (extStart+UInt32.ofNat off)%signalBufCapacityComplex
  widenCell (b.ring (chunkCell actualStart.toNat (j-off)))

inductive Producer
  | idle
  | copying (p : Push) (alignedCount newCarry : Nat)

inductive Worker
  | idle
  | check (d : DetectedBurst)
  | read (d : DetectedBurst) (samples : List (Int16 × Int16))
  | recheck (d : DetectedBurst) (samples : List (Int16 × Int16))

/-- The ring with both tasks, all samples pushed, and the bursts handed on with what was read. -/
structure System where
  buf : Buffer
  producer : Producer
  worker : Worker
  stream : List Sample
  delivered : List (DetectedBurst × List (Int16 × Int16))

def initial : System := ⟨signalBufferInit, .idle, .idle, [], []⟩

inductive Action
  | push (p : Push)
  | land (k : Nat)
  | publish
  | burst (d : DetectedBurst)
  | worker

def workerStep (s : System) : System :=
  match s.worker with
  | .idle => s
  | .check d =>
    if d.lengthSamples < 128 ∨ d.valid s.buf = false then { s with worker := .idle }
    else { s with worker := .read d [] }
  | .read d samples =>
    if samples.length < d.extLen.toNat then
      { s with worker := .read d (samples++[extractSample s.buf d.extStart samples.length]) }
    else { s with worker := .recheck d samples }
  | .recheck d samples =>
    if d.valid s.buf then
      { s with worker := .idle, delivered := s.delivered++[(d, samples)] }
    else { s with worker := .idle }

/-- One step of either task or of a copy. A push waits for the copies of the one before, and
publishes with its own still under way, except where the CPU had to make them. -/
def step (s : System) : Action → System
  | .push p =>
    match s.producer with
    | .idle =>
      if s.buf.carry.length+p.samples.length < alignComplex then
        { s with
          buf := { s.buf with carry := s.buf.carry++p.samples.map Sample.cell }
          stream := s.stream++p.samples }
      else match s.buf.inFlight with
        | [] =>
          let plan := pushPlan s.buf.carry.length p.samples.length
          let copies := s.buf.copies (s.buf.scratch p plan.1)
          { s with
            buf := { s.buf with
              inFlight := if p.submit && !p.submitRest then copies.take 1 else copies }
            producer := .copying p plan.1 plan.2
            stream := s.stream++p.samples }
        | _::_ => s
    | .copying _ _ _ => s
  | .land k =>
    { s with
      buf := { s.buf with
        ring := landCells k s.buf.ring s.buf.inFlight
        inFlight := landRest k s.buf.inFlight } }
  | .publish =>
    match s.producer with
    | .idle => s
    | .copying p alignedCount newCarry =>
      if p.submit || s.buf.inFlight.isEmpty then
        { s with buf := s.buf.publish p alignedCount newCarry, producer := .idle }
      else s
  | .burst d =>
    match s.worker with
    | .idle => { s with worker := .check d }
    | _ => s
  | .worker => workerStep s

def run (acts : List Action) : System := acts.foldl step initial

end IridiumAcars.WorkerExtract
