import IridiumAcars.SignalBuffer
import IridiumAcars.UsbRing

/-! The live feed: `dsp_feed_task` dispatches spans of the byte ring to `ingest_task` over two
slots. -/
namespace IridiumAcars.LiveFeed
open SignalBuffer UsbRing List Function

abbrev Slot := Fin 2

def streamRingbufBytes : UInt32 := 4*1024*1024

def outBlockSize : UInt32 := 16*1024

def ingestTileComplex : Nat := 1024

def dispatchDepth : Nat := 4

def fbtFftSize : Nat := 2048

def convertByte (b : UInt8) : Int16 := ((b.toUInt16 <<< 8) ^^^ 0x8000).toInt16

theorem convertByte_low (b : UInt8) : (convertByte b).toUInt16 &&& 0xFF = 0 := by
  have hb : ((convertByte b).toUInt16 &&& 0xFF).toBitVec =
      (((b.toBitVec.setWidth 16) <<< 8) ^^^ 0x8000#16) &&& 0xFF#16 := rfl
  apply UInt16.toBitVec_inj.mp
  rw [hb]
  apply BitVec.eq_of_getLsbD_eq
  intro i hi
  interval_cases i <;> simp

def convertPair (i q : UInt8) : Sample :=
  ⟨convertByte i, convertByte q, convertByte_low i, convertByte_low q⟩

/-- Interleaved I and Q bytes; an odd last byte makes no sample. -/
def convert : List UInt8 → List Sample
  | i::q::rest => convertPair i q::convert rest
  | _ => []

structure DspProcessor where
  accum : List Sample
  steps : List (List Sample)
  short : accum.length < fbtFftSize
  full : ∀ chunk ∈ steps, chunk.length = fbtFftSize

def DspProcessor.create : DspProcessor := ⟨[], [], by decide, by simp⟩

def DspProcessor.feedSample (p : DspProcessor) (x : Sample) : DspProcessor :=
  if h : p.accum.length+1 = fbtFftSize then
    ⟨[], p.steps++[p.accum++[x]], by decide, by
      intro chunk hc
      rcases mem_append.mp hc with hold | hnew
      · exact p.full chunk hold
      · rw [mem_singleton.mp hnew, length_append]
        exact h⟩
  else
    ⟨p.accum++[x], p.steps, by
      have := p.short
      rw [length_append, length_singleton]
      omega, p.full⟩

def dspProcessorFeed (p : DspProcessor) (samples : List Sample) : DspProcessor :=
  samples.foldl DspProcessor.feedSample p

def DspProcessor.tagged (p : DspProcessor) : List Sample := p.steps.flatten

def DspProcessor.dIndex (p : DspProcessor) : Nat := p.steps.length*fbtFftSize

def DspProcessor.given (p : DspProcessor) : List Sample := p.tagged++p.accum

/-- `dispatch_msg_t`, with the pointer as an offset into the ring. -/
structure Msg where
  slot : Slot
  off : UInt32
  bytes : UInt32

def Msg.complexTotal (m : Msg) : Nat := m.bytes.toNat/2

/-- The slot just dispatched becomes the previous one, or the empty ring's slot is given back. -/
inductive After
  | advance (c : Slot)
  | drain (c : Slot)
deriving DecidableEq

inductive Feed
  | acquire
  | waitRaw (c : Slot)
  | consume (c p : Slot)
  | read (c : Slot)
  | dispatch (c : Slot) (off n : UInt32)
  | take (a : After)
  | handOver (p : Slot) (n : Nat) (a : After)
  | release (p : Slot) (a : After)
  | releaseSlot (c : Slot)
  | waitData
deriving DecidableEq

/-- Where `ingest_task` is; `done` complex samples are in the slot so far. -/
inductive Ingest
  | idle
  | convert (m : Msg) (done : Nat)
  | giveRaw (m : Msg) (done : Nat) (tile : List Sample)
  | store (m : Msg) (done : Nat) (tile : List Sample)
  | push (m : Msg) (nOut : Nat)
  | ready (m : Msg)

structure UsbWrite where
  block : Block
  even : 2 ∣ block.data.length

/-- The last three fields record the spans, what each slot is to hold, and the lost gives. -/
structure State where
  ring : Ring
  notified : Bool
  capture : Bool
  queue : List Msg
  free : Slot → Bool
  rawDone : Slot → Bool
  ready : Slot → Bool
  nextAcquire : Slot
  prev : Option Slot
  rawBytes : Slot → UInt32
  resamp : Slot → List Sample
  nOut : Slot → Nat
  feed : Feed
  ingest : Ingest
  dsp : DspProcessor
  pushes : List Push
  spans : List (List UInt8 × Bool)
  load : Slot → List Sample
  lost : Nat

/-- `usbring_peek` and `usbring_consume`; each touches the shared counter once: one step. -/
def usbringPeek (r : Ring) : Ring :=
  UsbRing.step streamRingbufBytes
    (UsbRing.step streamRingbufBytes (UsbRing.step streamRingbufBytes r .peek) .reader) .reader

def usbringConsume (r : Ring) (n : UInt32) : Ring :=
  UsbRing.step streamRingbufBytes
    (UsbRing.step streamRingbufBytes (UsbRing.step streamRingbufBytes r (.consume n)) .reader)
    .reader

/-- Giving a binary semaphore that is already full has no effect. -/
def giveLost (sem : Slot → Bool) (i : Slot) : Nat := if sem i then 1 else 0

def ingestCore1Release (s : State) (i : Slot) : State :=
  { s with free := update s.free i true, lost := s.lost+giveLost s.free i }

/-- `fault` is `fault_inject_should_fail(FI_SITE_DISPATCH_QUEUE)`. -/
def ingestCore1Dispatch (s : State) (fault : Bool) (c : Slot) (off n : UInt32) : State :=
  let bytes := readSpan s.ring.buf off.toNat n.toNat
  if fault = true ∨ dispatchDepth ≤ s.queue.length then
    { s with
      nOut := update s.nOut c 0
      rawDone := update s.rawDone c true
      ready := update s.ready c true
      spans := s.spans++[(bytes, true)]
      load := update s.load c []
      lost := s.lost+giveLost s.rawDone c+giveLost s.ready c }
  else
    { s with
      queue := s.queue++[⟨c, off, n⟩]
      spans := s.spans++[(bytes, false)]
      load := update s.load c (convert bytes) }

def espLibusbReadStream (s : State) (c : Slot) : State :=
  let r := usbringPeek s.ring
  match r.reader with
  | .holding off n =>
    { s with ring := r, feed := .dispatch c off (if n < outBlockSize then n else outBlockSize) }
  | _ => { s with ring := r, feed := .take (.drain c) }

def State.finish (s : State) : After → State
  | .advance c => { s with prev := some c, feed := .acquire }
  | .drain c => { s with prev := none, feed := .releaseSlot c }

def dspFeedStep (s : State) (fault : Bool) : State :=
  match s.feed with
  | .acquire =>
    if s.free s.nextAcquire then
      { s with
        free := update s.free s.nextAcquire false
        nextAcquire := s.nextAcquire+1
        feed := .waitRaw s.nextAcquire }
    else s
  | .waitRaw c =>
    match s.prev with
    | none => { s with feed := .read c }
    | some p =>
      if s.rawDone p then
        { s with rawDone := update s.rawDone p false, feed := .consume c p }
      else s
  | .consume c p => { s with ring := usbringConsume s.ring (s.rawBytes p), feed := .read c }
  | .read c => espLibusbReadStream s c
  | .dispatch c off n =>
    { ingestCore1Dispatch s fault c off n with
      rawBytes := update s.rawBytes c n
      feed := .take (.advance c) }
  | .take a =>
    match s.prev with
    | none => s.finish a
    | some p =>
      if s.ready p then
        { s with ready := update s.ready p false, feed := .handOver p (s.nOut p) a }
      else s
  | .handOver p n a =>
    -- the tagger is shed during a continuous raw capture
    { s with
      dsp := if s.capture then s.dsp else dspProcessorFeed s.dsp ((s.resamp p).take n)
      feed := .release p a }
  | .release p a => (ingestCore1Release s p).finish a
  | .releaseSlot c => { ingestCore1Release s c with feed := .waitData }
  | .waitData => if s.notified then { s with notified := false, feed := .acquire } else s

def convertTile (r : Ring) (m : Msg) (done : Nat) : List Sample :=
  convert (readSpan r.buf (m.off.toNat+2*done)
    (2*min (m.complexTotal-done) ingestTileComplex))

def ingestStep (s : State) (submit submitRest : Bool) : State :=
  match s.ingest with
  | .idle =>
    match s.queue with
    | [] => s
    | m::rest =>
      { s with
        queue := rest
        ingest := if m.complexTotal = 0 then .giveRaw m 0 [] else .convert m 0 }
  | .convert m done => { s with ingest := .giveRaw m done (convertTile s.ring m done) }
  | .giveRaw m done tile =>
    if m.complexTotal ≤ done+tile.length then
      { s with
        rawDone := update s.rawDone m.slot true
        lost := s.lost+giveLost s.rawDone m.slot
        ingest := .store m done tile }
    else { s with ingest := .store m done tile }
  | .store m done tile =>
    { s with
      resamp := update s.resamp m.slot ((s.resamp m.slot).take done++tile)
      ingest :=
        if done+tile.length < m.complexTotal then .convert m (done+tile.length)
        else .push m (done+tile.length) }
  | .push m n =>
    { s with
      nOut := update s.nOut m.slot n
      pushes := s.pushes++[⟨(s.resamp m.slot).take n, submit, submitRest⟩]
      ingest := .ready m }
  | .ready m =>
    { s with
      ready := update s.ready m.slot true
      lost := s.lost+giveLost s.ready m.slot
      ingest := .idle }

def usbStep (s : State) : State :=
  { s with
    ring := UsbRing.step streamRingbufBytes s.ring .writer
    notified :=
      match s.ring.writer with
      | .returning b true => s.notified || !b.data.isEmpty
      | _ => s.notified }

inductive Action
  | usbWrite (w : UsbWrite)
  | usb
  | feed (fault : Bool)
  | timeout
  | ingest (submit submitRest : Bool)
  | capture (active : Bool)

def step (s : State) : Action → State
  | .usbWrite w => { s with ring := UsbRing.step streamRingbufBytes s.ring (.write w.block) }
  | .usb => usbStep s
  | .feed fault => dspFeedStep s fault
  | .timeout =>
    match s.feed with
    | .waitData => { s with notified := false, feed := .acquire }
    | _ => s
  | .ingest submit submitRest => ingestStep s submit submitRest
  | .capture active => { s with capture := active }

def start (buf : Nat → UInt8) : State where
  ring := usbringStart buf 0
  notified := false
  capture := false
  queue := []
  free := fun _ => true
  rawDone := fun _ => false
  ready := fun _ => false
  nextAcquire := 0
  prev := none
  rawBytes := fun _ => 0
  resamp := fun _ => []
  nOut := fun _ => 0
  feed := .acquire
  ingest := .idle
  dsp := .create
  pushes := []
  spans := []
  load := fun _ => []
  lost := 0

def run (buf : Nat → UInt8) (acts : List Action) : State := acts.foldl step (start buf)

end IridiumAcars.LiveFeed
