import IridiumAcars.Lib.RingBuffer

/-! The byte ring between USB callback and feed task, every load, copy and store as a step. -/
namespace IridiumAcars.UsbRing
open RingBuffer

def usbringUsed (head tail : UInt32) : UInt32 := head-tail

def usbringFreeSpace (head tail capacity : UInt32) : UInt32 := capacity-usbringUsed head tail

def usbringPhysOffset (counter capacity : UInt32) : UInt32 := counter &&& (capacity-1)

def usbringWriteContig (head tail capacity : UInt32) : UInt32 :=
  let freeBytes := usbringFreeSpace head tail capacity
  let toWrap := capacity-usbringPhysOffset head capacity
  if freeBytes < toWrap then freeBytes else toWrap

def usbringNextHead (head n : UInt32) : UInt32 := head+n

def usbringPeekContig (head tail capacity : UInt32) : UInt32 × UInt32 :=
  let used := usbringUsed head tail
  let off := usbringPhysOffset tail capacity
  let toWrap := capacity-off
  (off, if used < toWrap then used else toWrap)

def usbringNextTail (tail n : UInt32) : UInt32 := tail+n

structure Block where
  data : List UInt8
  fits : data.length < 2^32

def Block.n (b : Block) : UInt32 := UInt32.ofNat b.data.length

inductive Writer
  | idle
  | loadHead (b : Block)
  | loadTail (b : Block) (head : UInt32)
  | copy (b : Block) (head first : UInt32)
  | copyRest (b : Block) (head first : UInt32)
  | storeHead (b : Block) (head : UInt32)
  | returning (b : Block) (ok : Bool)

/-- Where the consumer is; between peek and consume it holds what is left of the span. -/
inductive Reader
  | idle
  | peekHead
  | peekTail (head : UInt32)
  | holding (off n : UInt32)
  | consumeLoad (off n m : UInt32) (bytes : List UInt8)
  | consumeStore (off n m tail : UInt32) (bytes : List UInt8)

structure Ring where
  buf : Nat → UInt8
  head : UInt32
  tail : UInt32
  writer : Writer
  reader : Reader
  returns : List (Block × Bool)
  consumed : List UInt8

def usbringStart (buf : Nat → UInt8) (counter : UInt32) : Ring :=
  ⟨buf, counter, counter, .idle, .idle, [], []⟩

def usbringWriteStep (capacity : UInt32) (r : Ring) : Ring :=
  match r.writer with
  | .idle => r
  | .loadHead b =>
    if b.n = 0 then { r with writer := .returning b true }
    else { r with writer := .loadTail b r.head }
  | .loadTail b head =>
    if usbringFreeSpace head r.tail capacity < b.n then { r with writer := .returning b false }
    else
      let first := usbringWriteContig head r.tail capacity
      { r with writer := .copy b head (if b.n < first then b.n else first) }
  | .copy b head first =>
    let off := usbringPhysOffset head capacity
    { r with
      buf := blit r.buf off.toNat (b.data.take first.toNat)
      writer := .copyRest b head first }
  | .copyRest b head first =>
    { r with
      buf := if first < b.n then blit r.buf 0 (b.data.drop first.toNat) else r.buf
      writer := .storeHead b head }
  | .storeHead b head =>
    { r with head := usbringNextHead head b.n, writer := .returning b true }
  | .returning b ok => { r with returns := r.returns++[(b, ok)], writer := .idle }

def readSpan (buf : Nat → UInt8) (off n : Nat) : List UInt8 :=
  (List.range n).map fun j => buf (off+j)

def usbringReadStep (capacity : UInt32) (r : Ring) : Ring :=
  match r.reader with
  | .idle | .holding _ _ => r
  | .peekHead => { r with reader := .peekTail r.head }
  | .peekTail head =>
    let span := usbringPeekContig head r.tail capacity
    if span.2 = 0 then { r with reader := .idle }
    else { r with reader := .holding span.1 span.2 }
  | .consumeLoad off n m bytes => { r with reader := .consumeStore off n m r.tail bytes }
  | .consumeStore off n m tail bytes =>
    { r with
      tail := usbringNextTail tail m
      reader := .holding (off+m) (n-m)
      consumed := r.consumed++bytes }

inductive Action
  | write (b : Block)
  | writer
  | peek
  | consume (m : UInt32)
  | reader

/-- One step of either side; the consumer gives back no more than is left of its span. -/
def step (capacity : UInt32) (r : Ring) : Action → Ring
  | .write b =>
    match r.writer with
    | .idle => { r with writer := .loadHead b }
    | _ => r
  | .writer => usbringWriteStep capacity r
  | .peek =>
    match r.reader with
    | .idle | .holding _ _ => { r with reader := .peekHead }
    | _ => r
  | .consume m =>
    match r.reader with
    | .holding off n =>
      if m = 0 ∨ n < m then r
      else { r with reader := .consumeLoad off n m (readSpan r.buf off.toNat m.toNat) }
    | _ => r
  | .reader => usbringReadStep capacity r

/-- The data of the writes that returned true, and of one that has stored `head` and is
about to. -/
def Ring.accepted (r : Ring) : List UInt8 :=
  (r.returns.filter fun w => w.2).flatMap (fun w => w.1.data)++
    match r.writer with
    | .returning b true => b.data
    | _ => []

end IridiumAcars.UsbRing
