import IridiumAcars.Lib.RankedBuffer
import IridiumAcars.Lib.Tasks
import IridiumAcars.WorkerExtract

/-! The burst priority queue of `worker_core1.c`. What happens under `s_pq_lock` is one step. -/
namespace IridiumAcars.BurstQueue
open RankedBuffer SignalBuffer WorkerExtract

def burstPqCap : Nat := 64

/-- The staleness tests at a head total: of a burst being pushed, and of a queued one. -/
structure Staleness (B : Type) where
  atPush : UInt64 → B → Bool
  lapped : UInt64 → B → Bool

def pastRing (head start : UInt64) : Bool :=
  decide (start < head) && decide (signalBufCapacityComplex.toUInt64 < head-start)

def ringStaleness : Staleness DetectedBurst where
  atPush head b :=
    let ringSpan := signalBufCapacityComplex.toUInt64
    let checkLen := b.lengthSamples.toUInt64+wbPrePadSamples.toUInt64
    decide (ringSpan ≤ checkLen) || pastRing head b.checkStart
  lapped head b := pastRing head b.startSampleIdx

inductive Outcome (B : Type)
  | admitted
  | replaced (old : B)
  | refused

section
variable {B : Type}

/-- Priorities only matter by their order at the time of the call. -/
def pqInsertLocked (st : Staleness B) (head : UInt64) (rank : Ranking B) (b : B) (pq : List B) :
    List B × Outcome B :=
  if pq.length < burstPqCap then (pq++[b], .admitted)
  else
    match pq.zipIdx.find? fun slot => st.lapped head slot.1 with
    | some (old, i) => (pq.set i b, .replaced old)
    | none =>
      match rank.least pq with
      | some (i, old) => if rank.lt old b then (pq.set i b, .replaced old) else (pq, .refused)
      | none => (pq, .refused)

/-- `none` stands for a call on an empty queue, which would read slot 0 and count to -1. -/
def pqExtractMaxLocked (rank : Ranking B) (pq : List B) : Option (B × List B) :=
  (rank.flip.least pq).map fun (i, b) => (b, removeSlot pq i)

inductive Phase (B : Type)
  | idle
  | counted (b : B)
  | waiting (b : B)
  | holding (b : B)
  | inserted (r : Outcome B)
  | released (r : Outcome B)

inductive Worker (B : Type)
  | idle
  | took
  | holding
  | popped (b : B)
  | underrun

/-- The queue with its tasks; the last lists record what became of every burst. -/
structure System (P B : Type) where
  pq : List B
  items : Nat
  lock : Bool
  burstsQueued : UInt32
  burstsEvicted : UInt32
  burstsDropped : UInt32
  queueHighWater : UInt32
  task : P → Phase B
  worker : Worker B
  pushed : List B
  rejected : List B
  displaced : List B
  dropped : List B
  popped : List B

def initial (P B : Type) : System P B :=
  ⟨[], 0, false, 0, 0, 0, 0, fun _ => .idle, .idle, [], [], [], [], []⟩

def giveItem (n : Nat) : Nat := if n < burstPqCap then n+1 else n

inductive Move (P B : Type)
  | push (p : P) (b : B)
  | check (p : P) (head : UInt64)
  | lock (p : P)
  | insert (p : P) (head : UInt64) (rank : Ranking B)
  | unlock (p : P)
  | report (p : P)
  | takeItem
  | lockWorker
  | extract (rank : Ranking B)
  | unlockWorker

variable {P : Type} [DecidableEq P]

def System.goto (s : System P B) (p : P) (x : Phase B) : System P B :=
  { s with task := Function.update s.task p x }

def System.store (s : System P B) (r : List B × Outcome B) (b : B) : System P B :=
  let highWater :=
    if s.queueHighWater.toNat < r.1.length then UInt32.ofNat r.1.length else s.queueHighWater
  match r.2 with
  | .admitted => { s with pq := r.1, queueHighWater := highWater }
  | .replaced old =>
    { s with pq := r.1, queueHighWater := highWater, displaced := s.displaced++[old] }
  | .refused => { s with pq := r.1, queueHighWater := highWater, dropped := s.dropped++[b] }

def System.account (s : System P B) : Outcome B → System P B
  | .admitted => { s with items := giveItem s.items }
  | .replaced _ => { s with burstsEvicted := s.burstsEvicted+1 }
  | .refused => { s with burstsDropped := s.burstsDropped+1 }

def step (st : Staleness B) (s : System P B) : Move P B → System P B
  | .push p b =>
    match s.task p with
    | .idle =>
      { s.goto p (.counted b) with
        burstsQueued := s.burstsQueued+1
        pushed := s.pushed++[b] }
    | _ => s
  | .check p head =>
    match s.task p with
    | .counted b =>
      if st.atPush head b then { s.goto p .idle with rejected := s.rejected++[b] }
      else s.goto p (.waiting b)
    | _ => s
  | .lock p =>
    match s.task p with
    | .waiting b => if s.lock then s else { s.goto p (.holding b) with lock := true }
    | _ => s
  | .insert p head rank =>
    match s.task p with
    | .holding b =>
      let r := pqInsertLocked st head rank b s.pq
      (s.store r b).goto p (.inserted r.2)
    | _ => s
  | .unlock p =>
    match s.task p with
    | .inserted r => { s.goto p (.released r) with lock := false }
    | _ => s
  | .report p =>
    match s.task p with
    | .released r => (s.account r).goto p .idle
    | _ => s
  | .takeItem =>
    match s.worker with
    | .idle => if 0 < s.items then { s with items := s.items-1, worker := .took } else s
    | _ => s
  | .lockWorker =>
    match s.worker with
    | .took => if s.lock then s else { s with lock := true, worker := .holding }
    | _ => s
  | .extract rank =>
    match s.worker with
    | .holding =>
      match pqExtractMaxLocked rank s.pq with
      | some (b, pq) => { s with pq := pq, worker := .popped b, popped := s.popped++[b] }
      | none => { s with worker := .underrun }
    | _ => s
  | .unlockWorker =>
    match s.worker with
    | .popped _ => { s with lock := false, worker := .idle }
    | _ => s

def run (st : Staleness B) (moves : List (Move P B)) : System P B :=
  moves.foldl (step st) (initial P B)

end

end IridiumAcars.BurstQueue
