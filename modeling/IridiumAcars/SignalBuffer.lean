import IridiumAcars.Lib.RingBuffer
import Mathlib.Data.BitVec
import Mathlib.Tactic.IntervalCases

/-! The sample ring: cache-line pushes with a carry, and the worker's check and reads. -/
namespace IridiumAcars.SignalBuffer
open RingBuffer

def signalBufCapacityComplex : UInt32 := 8388608

def alignComplex : Nat := 32

def alignScratchMax : Nat := 16*1024

/-- A pair of `int16_t` whose low bytes are zero, as the converted 8-bit samples are. -/
structure Sample where
  i : Int16
  q : Int16
  low_i : i.toUInt16 &&& 0xFF = 0
  low_q : q.toUInt16 &&& 0xFF = 0

abbrev Cell := Int8 × Int8

def narrow (x : Int16) : Int8 := (x >>> 8).toInt8

def widen (b : Int8) : Int16 := (b.toInt32 <<< 8).toInt16

def Sample.cell (s : Sample) : Cell := (narrow s.i, narrow s.q)

def Sample.value (s : Sample) : Int16 × Int16 := (s.i, s.q)

def widenCell (c : Cell) : Int16 × Int16 := (widen c.1, widen c.2)

theorem getLsbD_low {x : BitVec 16} (h : x &&& 0xFF#16 = 0#16) {i : Nat} (hi : i < 8) :
    x.getLsbD i = false := by
  have hb := congrArg (fun v => v.getLsbD i) h
  have hm : (0xFF#16).getLsbD i = true := by interval_cases i <;> rfl
  simpa only [BitVec.getLsbD_and, hm, Bool.and_true, BitVec.getLsbD_zero] using hb

theorem widen_narrow {x : Int16} (h : x.toUInt16 &&& 0xFF = 0) : widen (narrow x) = x := by
  have hb : x.toBitVec &&& 0xFF#16 = 0#16 := congrArg UInt16.toBitVec h
  have hw : (widen (narrow x)).toBitVec =
      ((((x.toBitVec.sshiftRight 8).signExtend 8).signExtend 32) <<< 8).signExtend 16 := rfl
  apply Int16.toBitVec_inj.mp
  rw [hw]
  apply BitVec.eq_of_getLsbD_eq
  intro i hi
  have h32 : i < 32 := by omega
  by_cases hlow : i < 8
  · rw [getLsbD_low hb hlow]
    simp only [BitVec.getLsbD_signExtend, BitVec.getLsbD_shiftLeft, hi, hlow, h32, decide_true,
      Bool.not_true, Bool.and_false, Bool.false_and, if_true]
  have h8 : i-8 < 8 := by omega
  have h832 : i-8 < 32 := by omega
  have h16 : i-8 < 16 := by omega
  have hnot : ¬16 ≤ i-8 := by omega
  have hsh : 8+(i-8) = i := by omega
  simp only [BitVec.getLsbD_signExtend, BitVec.getLsbD_shiftLeft, BitVec.getLsbD_sshiftRight, hi,
    hlow, h32, h8, h832, h16, hnot, hsh, decide_true, decide_false, Bool.not_false,
    Bool.true_and, if_true]

theorem widenCell_cell (s : Sample) : widenCell s.cell = s.value := by
  rw [widenCell, Sample.cell, widen_narrow s.low_i, widen_narrow s.low_q, Sample.value]

/-- The module's state; `inFlight` are the submitted copies that have not completed. -/
structure Buffer where
  ring : Nat → Cell
  head : UInt32
  headTotal : UInt64
  carry : List Cell
  inFlight : List (Nat × List Cell)

structure Push where
  samples : List Sample
  submit : Bool
  submitRest : Bool

def signalBufferInit : Buffer := ⟨fun _ => (0, 0), 0, 0, [], []⟩

def Buffer.settle (b : Buffer) : Buffer :=
  { b with ring := writeBlocks b.ring b.inFlight, inFlight := [] }

def signalBufferNextHead (head alignedCount totalCap : UInt32) : UInt32 :=
  (head+alignedCount)%totalCap

/-- The samples to write now and those to carry over; an oversized push is clamped. -/
def pushPlan (carry n : Nat) : Nat × Nat :=
  let totalAvail := carry+n
  let alignedCount := totalAvail/alignComplex*alignComplex
  if alignScratchMax < alignedCount then
    (alignScratchMax, min (totalAvail-alignScratchMax) (alignComplex-1))
  else (alignedCount, totalAvail-alignedCount)

def Buffer.scratch (b : Buffer) (p : Push) (alignedCount : Nat) : List Cell :=
  b.carry++(p.samples.take (alignedCount-b.carry.length)).map Sample.cell

def Buffer.copies (b : Buffer) (scratch : List Cell) : List (Nat × List Cell) :=
  splitBlocks signalBufCapacityComplex.toNat b.head.toNat scratch

/-- Submitting the copies: a first failure is made up by the CPU, a second leaves its cells. -/
def Buffer.copyOut (b : Buffer) (p : Push) (scratch : List Cell) : Buffer :=
  let copies := b.copies scratch
  if p.submit then { b with inFlight := if p.submitRest then copies else copies.take 1 }
  else { b with ring := writeBlocks b.ring copies }

def Buffer.publish (b : Buffer) (p : Push) (alignedCount newCarry : Nat) : Buffer :=
  { b with
    head := signalBufferNextHead b.head (UInt32.ofNat alignedCount) signalBufCapacityComplex
    headTotal := b.headTotal+UInt64.ofNat alignedCount
    carry := (p.samples.drop (p.samples.length-newCarry)).map Sample.cell }

def signalBufferPush (b : Buffer) (p : Push) : Buffer :=
  if b.carry.length+p.samples.length < alignComplex then
    { b with carry := b.carry++p.samples.map Sample.cell }
  else
    let plan := pushPlan b.carry.length p.samples.length
    -- the previous copies are waited for before the scratch is overwritten
    (b.settle.copyOut p (b.scratch p plan.1)).publish p plan.1 plan.2

def signalBufferRun (pushes : List Push) : Buffer :=
  pushes.foldl signalBufferPush signalBufferInit

def signalBufferBurstValid (b : Buffer) (startIdx : UInt64) (length : UInt32) : Bool :=
  if length = 0 ∨ signalBufCapacityComplex ≤ length then false
  else
    let endAbs := startIdx+length.toUInt64
    if b.headTotal < endAbs then false
    else b.headTotal-startIdx ≤ signalBufCapacityComplex.toUInt64

def signalBufferReadChunk (b : Buffer) (startIdx length : UInt32) : List (Int16 × Int16) :=
  let actualStart := startIdx%signalBufCapacityComplex
  if actualStart+length ≤ signalBufCapacityComplex then
    (List.range length.toNat).map fun i => widenCell (b.ring (actualStart.toNat+i))
  else
    let toEnd := signalBufCapacityComplex-actualStart
    (List.range toEnd.toNat).map (fun i => widenCell (b.ring (actualStart.toNat+i)))++
      (List.range (length-toEnd).toNat).map fun i => widenCell (b.ring i)

end IridiumAcars.SignalBuffer
