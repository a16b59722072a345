import IridiumAcars.Lib.LittleEndian

/-! Captures to the SD card, `sd_capture.c`: four tasks, a mode flag, a state and a stream buffer.
-/
namespace IridiumAcars.SdCapture
open LittleEndian

def streamBufferBytes : Nat := 4*1024*1024
def writerRecvChunk : Nat := 256*1024
def sectorBytes : Nat := 512

/-- One burst of the worker: the arguments of `sd_capture_record_burst_begin` and its IQ bytes. -/
structure Burst where
  lengthSamples : UInt32
  relFreqHz : UInt32
  peakSnrDb : UInt32
  magnitudeDb : UInt32
  noiseDb : UInt32
  iq : List UInt8
  whole : iq.length = 4*lengthSamples.toNat
  deriving DecidableEq

structure Record where
  seq : UInt32
  tUs : UInt64
  burst : Burst
  deriving DecidableEq

def sdCaptureBurstMagic : Nat := 0x54535242

def Record.header (r : Record) : List UInt8 :=
  leBytes 4 sdCaptureBurstMagic++(leBytes 4 r.seq.toNat++(leBytes 8 r.tUs.toNat++
    (leBytes 4 r.burst.lengthSamples.toNat++(leBytes 4 r.burst.relFreqHz.toNat++
      (leBytes 4 r.burst.peakSnrDb.toNat++(leBytes 4 r.burst.magnitudeDb.toNat++
        (leBytes 4 r.burst.noiseDb.toNat++leBytes 4 0)))))))

def Record.bytes (r : Record) : List UInt8 := r.header++r.burst.iq

def hdrSize : UInt32 := 40

def sdCaptureBurstRecordBytes (hdrSize lengthSamples : UInt32) : UInt32 :=
  hdrSize+lengthSamples*2*2

def sdCaptureBurstFits (freeSpace : Nat) (hdrSize lengthSamples : UInt32) : Bool :=
  decide ((sdCaptureBurstRecordBytes hdrSize lengthSamples).toNat ≤ freeSpace)

inductive Kind
  | continuous
  | bursts
  deriving DecidableEq

/-- For the record, the raw bytes offered and the bursts begun while it was active. -/
structure File where
  kind : Kind
  target : Nat
  written : List UInt8
  passed : List UInt8
  begun : List Record
  deriving DecidableEq

/-- What a reader of the file finds. `ftruncate` extends it with zeros. -/
def File.contents (f : File) : List UInt8 :=
  f.written++List.replicate (f.target-f.written.length) 0

inductive CapState
  | idle
  | active
  | stopping
  deriving DecidableEq

/-- Before the state check, past it, after the reset, backing out, or in a stop. -/
inductive Ctl
  | idle
  | starting (k : Kind) (target : Nat)
  | mounting (k : Kind) (target : Nat)
  | opening (k : Kind) (target : Nat)
  | backingOut
  | stopping
  | waiting
  deriving DecidableEq

inductive Feed
  | idle
  | modeRead (data : List UInt8)
  | writing (data : List UInt8)
  deriving DecidableEq

/-- The flag read (`opening`, `chunking`), the state read (`beginning`, `sending`), or between
calls. -/
inductive Worker
  | idle
  | opening (b : Burst)
  | beginning (r : Record)
  | recording (rest : List UInt8)
  | chunking (data rest : List UInt8)
  | sending (data rest : List UInt8)
  deriving DecidableEq

/-- After it has closed the file: before it clears the flag, and before it goes idle. -/
inductive Writer
  | loop
  | clearing
  | idling
  deriving DecidableEq

structure Sd where
  state : CapState
  burstMode : Bool
  burstSeq : UInt32
  burstSkip : Bool
  bytesCaptured : Nat
  bytesTarget : Nat
  stream : List UInt8
  stash : List UInt8
  file : Option File
  closed : List File
  ctl : Ctl
  feed : Feed
  worker : Worker
  writer : Writer

def initial : Sd where
  state := .idle
  burstMode := false
  burstSeq := 0
  burstSkip := false
  bytesCaptured := 0
  bytesTarget := 0
  stream := []
  stash := []
  file := none
  closed := []
  ctl := .idle
  feed := .idle
  worker := .idle
  writer := .loop

namespace Sd

def space (s : Sd) : Nat := streamBufferBytes-s.stream.length

def send (s : Sd) (data : List UInt8) : Sd := { s with stream := s.stream++data.take s.space }

def startBursts (s : Sd) : Sd :=
  match s.ctl with
  | .idle => { s with burstMode := true, burstSeq := 0, ctl := .starting .bursts 0 }
  | _ => s

def start (s : Sd) (target : Nat) : Sd :=
  match s.ctl with
  | .idle => { s with ctl := .starting .continuous target }
  | _ => s

def stop (s : Sd) : Sd :=
  match s.ctl with
  | .idle => if s.state = .active then { s with ctl := .stopping } else s
  | _ => s

def refused : Kind → Ctl
  | .continuous => .idle
  | .bursts => .backingOut

def control (s : Sd) : Sd :=
  match s.ctl with
  | .idle => s
  | .starting k target =>
    { s with ctl := if s.state = .idle then .mounting k target else refused k }
  | .mounting k target => { s with stream := [], ctl := .opening k target }
  | .opening k target =>
    { s with
      file := some ⟨k, target, [], [], []⟩
      bytesCaptured := 0
      bytesTarget := target
      state := .active
      ctl := .idle }
  | .backingOut => { s with burstMode := false, ctl := .idle }
  | .stopping => { s with state := .stopping, ctl := .waiting }
  | .waiting => { s with burstMode := false, ctl := .idle }

def refuse (s : Sd) : Sd :=
  match s.ctl with
  | .mounting k _ => { s with ctl := refused k }
  | _ => s

def write (s : Sd) (data : List UInt8) : Sd :=
  match s.feed with
  | .idle => if s.burstMode then s else { s with feed := .modeRead data }
  | _ => s

def trim (s : Sd) (data : List UInt8) : List UInt8 :=
  if 0 < s.bytesTarget ∧ s.bytesTarget < s.bytesCaptured+data.length then
    data.take (s.bytesTarget-s.bytesCaptured)
  else data

/-- What a call sends: whole samples of two bytes, no more than there is room for. -/
def want (s : Sd) (data : List UInt8) : List UInt8 :=
  (s.trim data).take (min (s.trim data).length s.space/2*2)

def feedStep (s : Sd) : Sd :=
  match s.feed with
  | .idle => s
  | .modeRead data =>
    if s.state = .active then
      { s with
        feed := .writing data
        file := s.file.map fun f => { f with passed := f.passed++data } }
    else { s with feed := .idle }
  | .writing data => { s.send (s.want data) with feed := .idle }

def begin (s : Sd) (b : Burst) : Sd :=
  match s.worker with
  | .idle =>
    if s.burstMode then { s with worker := .opening b }
    else { s with burstSkip := true, worker := .recording b.iq }
  | _ => s

def chunk (s : Sd) (n : Nat) : Sd :=
  match s.worker with
  | .recording rest =>
    if s.burstMode then { s with worker := .chunking (rest.take (4*n)) (rest.drop (4*n)) }
    else { s with worker := .recording (rest.drop (4*n)) }
  | _ => s

def finish (s : Sd) : Sd :=
  match s.worker with
  | .recording [] => { s with worker := .idle }
  | _ => s

/-- The next access of the worker within a call. The header carries the time `tUs`. -/
def workerStep (s : Sd) (tUs : UInt64) : Sd :=
  match s.worker with
  | .opening b =>
    if s.state = .active then
      { s with
        burstSeq := s.burstSeq+1
        worker := .beginning ⟨s.burstSeq, tUs, b⟩
        file := s.file.map fun f => { f with begun := f.begun++[⟨s.burstSeq, tUs, b⟩] } }
    else { s with burstSkip := true, worker := .recording b.iq }
  | .beginning r =>
    if sdCaptureBurstFits s.space hdrSize r.burst.lengthSamples then
      { s.send r.header with
        burstSkip := decide (s.space < r.header.length)
        worker := .recording r.burst.iq }
    else { s with burstSkip := true, worker := .recording r.burst.iq }
  | .chunking data rest =>
    if s.state = .active ∧ s.burstSkip = false then { s with worker := .sending data rest }
    else { s with worker := .recording rest }
  | .sending data rest => { s.send data with worker := .recording rest }
  | .idle | .recording _ => s

def received (s : Sd) : List UInt8 :=
  s.stash++s.stream.take (writerRecvChunk-s.stash.length)

def aligned (s : Sd) : Nat := s.received.length/sectorBytes*sectorBytes

/-- One receive of the writer: whole sectors go to the file, the rest is held over. -/
def receive (s : Sd) : Sd :=
  if s.state ≠ .idle ∧ s.writer = .loop then
    { s with
      stream := s.stream.drop (writerRecvChunk-s.stash.length)
      stash := s.received.drop s.aligned
      file := s.file.map fun f => { f with written := f.written++s.received.take s.aligned }
      bytesCaptured := if s.file.isSome then s.bytesCaptured+s.aligned else s.bytesCaptured
      state :=
        if s.file.isSome ∧ 0 < s.aligned ∧ 0 < s.bytesTarget ∧
            s.bytesTarget ≤ s.bytesCaptured+s.aligned then .stopping
        else s.state }
  else s

/-- The `STOPPING` branch up to `fclose`; without a file, whole sectors are dropped. -/
def close (s : Sd) : Sd :=
  if s.state = .stopping ∧ s.writer = .loop then
    match s.file with
    | some f =>
      { s with
        stream := []
        stash := []
        file := none
        closed := s.closed++[{ f with written := f.written++(s.stash++s.stream) }]
        bytesCaptured := s.bytesCaptured+(s.stash++s.stream).length
        writer := .clearing }
    | none =>
      { s with
        stream := []
        stash := (s.stash++s.stream).drop
          ((s.stash++s.stream).length/sectorBytes*sectorBytes)
        writer := .clearing }
  else s

def writerStep (s : Sd) : Sd :=
  match s.writer with
  | .loop => s
  | .clearing => { s with burstMode := false, writer := .idling }
  | .idling => { s with state := .idle, writer := .loop }

end Sd

inductive Move
  | startBursts
  | start (target : Nat)
  | stop
  | control
  | refuse
  | write (data : List UInt8)
  | feed
  | begin (b : Burst)
  | chunk (n : Nat)
  | finish
  | worker (tUs : UInt64)
  | receive
  | close
  | writer

def step (s : Sd) : Move → Sd
  | .startBursts => s.startBursts
  | .start target => s.start target
  | .stop => s.stop
  | .control => s.control
  | .refuse => s.refuse
  | .write data => s.write data
  | .feed => s.feedStep
  | .begin b => s.begin b
  | .chunk n => s.chunk n
  | .finish => s.finish
  | .worker tUs => s.workerStep tUs
  | .receive => s.receive
  | .close => s.close
  | .writer => s.writerStep

def run (moves : List Move) : Sd := moves.foldl step initial

/-- Raw bytes offered while it was active, or records of bursts begun meanwhile. -/
def OneKind (f : File) (bytes : List UInt8) : Prop :=
  match f.kind with
  | .continuous => bytes.Sublist f.passed
  | .bursts => ∃ rs : List Record, rs.Sublist f.begun ∧ bytes <+: rs.flatMap Record.bytes

def Unmixed (s : Sd) : Prop :=
  (∀ f ∈ s.closed, OneKind f f.contents) ∧ ∀ f, s.file = some f → OneKind f f.written

end IridiumAcars.SdCapture
