import IridiumAcars.Lib.RingBuffer
import Mathlib.Data.List.Infix

/-! The single-producer single-consumer frame queue, one load, store or copy per step. -/
namespace IridiumAcars.FrameQueue

def frameQueueMaxBits : Nat := 16832

def frameQueueMaxSoft : Nat := frameQueueMaxBits

/-- The members in front of the two arrays; the float is its bit pattern. -/
structure FrameQueueHeader where
  timestampUs : UInt64
  freqHz : UInt32
  peakBin : Int32
  snrDb : UInt32
  nBits : UInt16
  direction : UInt8
  pad : UInt8
  nSoft : UInt16
deriving DecidableEq

structure FrameQueueItem extends FrameQueueHeader where
  soft : Vector Int16 frameQueueMaxSoft
  bits : Vector UInt8 frameQueueMaxBits

/-- What a consumer may read: the header and the counted entries. -/
def FrameQueueItem.view (it : FrameQueueItem) : FrameQueueHeader × List Int16 × List UInt8 :=
  (it.toFrameQueueHeader, it.soft.toList.take it.nSoft.toNat, it.bits.toList.take it.nBits.toNat)

def copyFirst {α : Type} {m : Nat} (src : List α) (dst : Vector α m) : Vector α m :=
  Vector.ofFn fun i => src.getD i.val dst[i]

def clampSoft (n : UInt16) : UInt16 := UInt16.ofNat (min n.toNat frameQueueMaxSoft)

section
variable {α : Type} {m : Nat}

theorem toList_copyFirst (src : List α) (dst : Vector α m) (h : src.length ≤ m) :
    (copyFirst src dst).toList.take src.length = src := by
  apply List.ext_getElem
  · simpa using h
  · intro i h1 h2
    simp [copyFirst, List.getD_eq_getElem?_getD, h2]

theorem take_copyFirst (src dst : Vector α m) (k : Nat) :
    (copyFirst (src.toList.take (min k m)) dst).toList.take k = src.toList.take k := by
  have hlen : (src.toList.take (min k m)).length = min k m := by simp
  have h := toList_copyFirst (src.toList.take (min k m)) dst (by omega)
  rw [hlen] at h
  have hk (v : Vector α m) : v.toList.take k = v.toList.take (min k m) := by
    rw [List.take_eq_take_min, Vector.length_toList]
  rw [hk, h, hk]

end

open List

theorem toNat_clampSoft (n : UInt16) : (clampSoft n).toNat = min n.toNat frameQueueMaxSoft := by
  have hlt := Nat.lt_of_le_of_lt (Nat.min_le_left n.toNat frameQueueMaxSoft) n.toNat_lt
  rw [clampSoft, UInt16.toNat_ofNat_of_lt' hlt]

theorem clampSoft_le (n : UInt16) : (clampSoft n).toNat ≤ frameQueueMaxSoft := by
  rw [toNat_clampSoft]
  exact Nat.min_le_right _ _

theorem clampSoft_of_le {n : UInt16} (h : n.toNat ≤ frameQueueMaxSoft) : clampSoft n = n := by
  rw [clampSoft, Nat.min_eq_left h, UInt16.ofNat_toNat]

abbrev SlotWrite := FrameQueueItem → FrameQueueItem

def applyWrites (ws : List SlotWrite) (slot : FrameQueueItem) : FrameQueueItem :=
  ws.foldl (fun s w => w s) slot

def pushWrites (item : FrameQueueItem) : List SlotWrite :=
  [fun slot => { slot with toFrameQueueHeader := item.toFrameQueueHeader },
   fun slot => { slot with nSoft := clampSoft item.nSoft },
   fun slot => { slot with
     soft := copyFirst (item.soft.toList.take (min item.nSoft.toNat frameQueueMaxSoft)) slot.soft },
   fun slot => { slot with
     bits := copyFirst (item.bits.toList.take (min item.nBits.toNat frameQueueMaxBits)) slot.bits }]

abbrev SlotRead := FrameQueueItem → FrameQueueItem → FrameQueueItem

def popReads : List SlotRead :=
  [fun src out => { out with toFrameQueueHeader := src.toFrameQueueHeader },
   fun _ out => { out with nSoft := clampSoft out.nSoft },
   fun src out => { out with
     soft := copyFirst (src.soft.toList.take (min out.nSoft.toNat frameQueueMaxSoft)) out.soft },
   fun src out => { out with
     bits := copyFirst (src.bits.toList.take (min out.nBits.toNat frameQueueMaxBits)) out.bits }]

def applyReads (rs : List SlotRead) (src out : FrameQueueItem) : FrameQueueItem :=
  rs.foldl (fun o r => r src o) out

/-- A fill between reserve and commit; the counts agree with what was written. -/
structure Fill where
  writes : List SlotWrite
  consistent : ∀ slot, (applyWrites writes slot).nSoft.toNat ≤ frameQueueMaxSoft

inductive Call
  | push (item : FrameQueueItem)
  | reserve (fill : Fill)

def Call.writes : Call → List SlotWrite
  | .push item => pushWrites item
  | .reserve fill => fill.writes

inductive IrDirection
  | downlink
  | uplink
  | unknown
deriving DecidableEq

/-- The arguments of `frame_decoder_push`; no soft metrics and none passed are both `[]`. -/
structure PushArgs where
  bits : List UInt8
  softBits : List Int16
  direction : IrDirection
  freqHz : UInt32
  peakBin : Int32
  snrDb : UInt32
  timestampUs : UInt64
deriving DecidableEq

def PushArgs.header (nowUs : UInt64) (a : PushArgs) : FrameQueueHeader where
  timestampUs := if a.timestampUs ≠ 0 then a.timestampUs else nowUs
  freqHz := a.freqHz
  peakBin := a.peakBin
  snrDb := a.snrDb
  nBits := UInt16.ofNat a.bits.length
  direction := if a.direction = .downlink then 0 else 1
  pad := 0
  nSoft := UInt16.ofNat (min a.softBits.length frameQueueMaxSoft)

def decoderWrites (nowUs : UInt64) (a : PushArgs) : List SlotWrite :=
  [fun slot => { slot with timestampUs := (a.header nowUs).timestampUs },
   fun slot => { slot with freqHz := a.freqHz },
   fun slot => { slot with peakBin := a.peakBin },
   fun slot => { slot with snrDb := a.snrDb },
   fun slot => { slot with nBits := UInt16.ofNat a.bits.length },
   fun slot => { slot with direction := (a.header nowUs).direction },
   fun slot => { slot with pad := 0 },
   fun slot => { slot with nSoft := (a.header nowUs).nSoft },
   fun slot => { slot with soft := copyFirst (a.softBits.take frameQueueMaxSoft) slot.soft },
   fun slot => { slot with bits := copyFirst a.bits slot.bits }]

theorem toNat_header_nSoft (nowUs : UInt64) (a : PushArgs) :
    (a.header nowUs).nSoft.toNat = min a.softBits.length frameQueueMaxSoft := by
  have hmax : frameQueueMaxSoft < UInt16.size := by decide
  exact UInt16.toNat_ofNat_of_lt' (Nat.lt_of_le_of_lt (Nat.min_le_right _ _) hmax)

/-- `frame_decoder_push`: nothing reaches the queue for a frame of no or too many bits. -/
def frameDecoderCall (nowUs : UInt64) (a : PushArgs) : Option Call :=
  if a.bits.length = 0 ∨ frameQueueMaxBits < a.bits.length then none
  else some (.reserve ⟨decoderWrites nowUs a, fun _ => by
    have h := toNat_header_nSoft nowUs a
    exact h.trans_le (Nat.min_le_right _ _)⟩)

theorem decoderWrites_view (nowUs : UInt64) (a : PushArgs) (stale : FrameQueueItem)
    (hbits : a.bits.length ≤ frameQueueMaxBits) :
    (applyWrites (decoderWrites nowUs a) stale).view =
      (a.header nowUs, a.softBits.take frameQueueMaxSoft, a.bits) := by
  have hmax : frameQueueMaxBits < UInt16.size := by decide
  have hnb : (UInt16.ofNat a.bits.length).toNat = a.bits.length :=
    UInt16.toNat_ofNat_of_lt' (by omega)
  have hlen : (a.softBits.take frameQueueMaxSoft).length = (a.header nowUs).nSoft.toNat := by
    rw [toNat_header_nSoft, length_take, Nat.min_comm]
  have hsoft := toList_copyFirst (a.softBits.take frameQueueMaxSoft) stale.soft
    (length_take_le _ _)
  have hcopy := toList_copyFirst a.bits stale.bits hbits
  rw [hlen] at hsoft
  simp only [FrameQueueItem.view, applyWrites, decoderWrites, foldl_cons, foldl_nil,
    hnb, hsoft, hcopy, Prod.mk.injEq, and_true]
  rfl

theorem push_view (item stale : FrameQueueItem) :
    (applyWrites (pushWrites item) stale).view =
      ({ item with nSoft := clampSoft item.nSoft } : FrameQueueItem).view := by
  simp only [FrameQueueItem.view, applyWrites, pushWrites, foldl_cons, foldl_nil,
    Prod.mk.injEq, true_and]
  constructor
  · have h := take_copyFirst item.soft stale.soft (clampSoft item.nSoft).toNat
    rw [toNat_clampSoft, Nat.min_assoc, Nat.min_self] at h
    rw [toNat_clampSoft, h]
  · exact take_copyFirst item.bits stale.bits item.nBits.toNat

theorem Call.nSoft_le (c : Call) (stale : FrameQueueItem) :
    (applyWrites c.writes stale).nSoft.toNat ≤ frameQueueMaxSoft := by
  cases c with
  | push item => exact clampSoft_le item.nSoft
  | reserve fill => exact fill.consistent stale

theorem pop_view {src : FrameQueueItem} (h : src.nSoft.toNat ≤ frameQueueMaxSoft)
    (out : FrameQueueItem) : (applyReads popReads src out).view = src.view := by
  simp only [FrameQueueItem.view, applyReads, popReads, foldl_cons, foldl_nil,
    clampSoft_of_le h, Prod.mk.injEq, true_and]
  exact ⟨take_copyFirst src.soft out.soft src.nSoft.toNat,
    take_copyFirst src.bits out.bits src.nBits.toNat⟩

structure Ring where
  slots : Nat → FrameQueueItem
  head : Nat
  tail : Nat
  committed : List (Call × FrameQueueItem)
  taken : List FrameQueueItem

def nextIndex (nSlots i : Nat) : Nat := (i+1) &&& (nSlots-1)

def Ring.write (r : Ring) (slot : Nat) (w : SlotWrite) : Ring :=
  { r with slots := Function.update r.slots slot (w (r.slots slot)) }

def Ring.publish (nSlots : Nat) (r : Ring) (c : Call) (tail : Nat) : Ring :=
  { r with tail := nextIndex nSlots tail, committed := r.committed++[(c, r.slots tail)] }

def Ring.release (nSlots : Nat) (r : Ring) (out : FrameQueueItem) (head : Nat) : Ring :=
  { r with head := nextIndex nSlots head, taken := r.taken++[out] }

def Ring.inFlight (r : Ring) : Nat := r.committed.length-r.taken.length

/-- Where the producer is inside `frame_queue_push`, or inside reserve, fill and commit. -/
inductive Producer
  | idle
  | loadTail (c : Call)
  | loadHead (c : Call) (tail : Nat)
  | drop
  | fill (c : Call) (slot : Nat) (ws : List SlotWrite)
  | commitLoad (c : Call)
  | commitStore (c : Call) (tail : Nat)
  | countPushed
  | returning (ok : Bool)

inductive Consumer
  | idle
  | loadHead (out : FrameQueueItem)
  | loadTail (out : FrameQueueItem) (head : Nat)
  | copy (out : FrameQueueItem) (head : Nat) (rs : List SlotRead)
  | storeHead (out : FrameQueueItem) (head : Nat)
  | countPopped

structure Queue extends Ring where
  pushed : UInt64
  popped : UInt64
  dropped : UInt64
  producer : Producer
  consumer : Consumer
  sawFull : Bool
  returns : List (Bool × Bool)

def producerStep (nSlots : Nat) (q : Queue) : Queue :=
  match q.producer with
  | .idle => q
  | .loadTail c => { q with producer := .loadHead c q.tail }
  | .loadHead c tail =>
    if nextIndex nSlots tail = q.head then { q with producer := .drop }
    else { q with producer := .fill c tail c.writes }
  | .drop => { q with dropped := q.dropped+1, producer := .returning false }
  | .fill c _ [] => { q with producer := .commitLoad c }
  | .fill c slot (w::ws) =>
    { q with toRing := q.toRing.write slot w, producer := .fill c slot ws }
  | .commitLoad c => { q with producer := .commitStore c q.tail }
  | .commitStore c tail =>
    { q with toRing := q.toRing.publish nSlots c tail, producer := .countPushed }
  | .countPushed => { q with pushed := q.pushed+1, producer := .returning true }
  | .returning ok => { q with returns := q.returns++[(ok, q.sawFull)], producer := .idle }

def consumerStep (nSlots : Nat) (q : Queue) : Queue :=
  match q.consumer with
  | .idle => q
  | .loadHead out => { q with consumer := .loadTail out q.head }
  | .loadTail out head =>
    if head = q.tail then { q with consumer := .idle }
    else { q with consumer := .copy out head popReads }
  | .copy out head [] => { q with consumer := .storeHead out head }
  | .copy out head (r::rs) => { q with consumer := .copy (r (q.slots head) out) head rs }
  | .storeHead out head =>
    { q with toRing := q.toRing.release nSlots out head, consumer := .countPopped }
  | .countPopped => { q with popped := q.popped+1, consumer := .idle }

inductive Action
  | call (c : Call)
  | producer
  | pop (out : FrameQueueItem)
  | consumer

def Queue.observe (nSlots : Nat) (q : Queue) : Queue :=
  { q with sawFull := q.sawFull || q.inFlight+1 == nSlots }

def step (nSlots : Nat) (q : Queue) : Action → Queue
  | .call c =>
    match q.producer with
    | .idle => Queue.observe nSlots { q with producer := .loadTail c, sawFull := false }
    | _ => q
  | .producer => (producerStep nSlots q).observe nSlots
  | .pop out =>
    match q.consumer with
    | .idle => { q with consumer := .loadHead out }
    | _ => q
  | .consumer => (consumerStep nSlots q).observe nSlots

def zeroItem : FrameQueueItem :=
  ⟨⟨0, 0, 0, 0, 0, 0, 0, 0⟩, Vector.replicate _ 0, Vector.replicate _ 0⟩

def isPowerOfTwo (n : Nat) : Bool := n != 0 && n &&& (n-1) == 0

def frameQueueCreate (nSlots : Nat) : Option Queue :=
  if nSlots < 2 || !isPowerOfTwo nSlots then none
  else some ⟨⟨fun _ => zeroItem, 0, 0, [], []⟩, 0, 0, 0, .idle, .idle, false, []⟩

def Queue.refused (q : Queue) : Nat :=
  q.returns.countP (fun r => !r.1)+(match q.producer with | .returning false => 1 | _ => 0)

end IridiumAcars.FrameQueue
