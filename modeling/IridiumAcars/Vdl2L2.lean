import IridiumAcars.RsVdl2
import IridiumAcars.Vdl2Header

/-! The byte-work layer of vdl2_l2.c, from the received bits to the frames of avlc.c. -/
namespace IridiumAcars.Vdl2L2
open Vdl2Header RsVdl2

inductive L2Error where
  | header | trunc | rs | internal
deriving DecidableEq

def L2Error.code : L2Error → Int
  | .header => -1
  | .trunc => -2
  | .rs => -3
  | .internal => -4

def fecOctetcount (len : Nat) : Nat :=
  if len < 3 then 0 else if len < 31 then 2 else if len < 68 then 4 else 6

def packLsbfirst (bits : List Bool) (nOctets : Nat) : List UInt8 :=
  (List.range nOctets).map fun i => UInt8.ofNat
    ((List.range 8).foldl (fun b j => b ||| (bits.getD (8*i+j) false).toNat <<< j) 0)

def packConfLsbfirst (soft : List Int) (baseBit nOctets : Nat) : List Int :=
  (List.range nOctets).map fun i =>
    (List.range 8).foldl (fun m j =>
      let a := min (soft.getD (baseBit+8*i+j) 0).natAbs 32767
      if (a : Int) < m then (a : Int) else m) 32767

section
variable {α : Type*}

structure Walk (α : Type*) where
  row : Nat
  col : Nat
  tab : Nat → Nat → α

def store (tab : Nat → Nat → α) (row col : Nat) (x : α) : Nat → Nat → α :=
  fun r c => if r = row ∧ c = col then x else tab r c

/-- One input item; the exhausted last row is zero-filled and skipped. -/
def walkStep (zero : α) (rows lastRowLen : Nat) (w : Walk α) (x : α) : Walk α :=
  let w := if w.row = rows-1 ∧ w.col ≥ lastRowLen then
      ⟨0, w.col+1, store w.tab w.row w.col zero⟩ else w
  let tab := store w.tab w.row w.col x
  if w.row+1 = rows then ⟨0, w.col+1, tab⟩ else ⟨w.row+1, w.col, tab⟩

/-- `l2_deinterleave` and its confidence twin: the same walk over any items. -/
def l2Deinterleave (zero : α) (input : List α) (rows : Nat) (tab : Nat → Nat → α)
    (fillwidth offset : Nat) : Option (Nat → Nat → α) :=
  let len := input.length
  let lastRowLen := if len%fillwidth = 0 then fillwidth else len%fillwidth
  if rows = 0 ∨ fillwidth = 0 then none
  else if fillwidth+offset > rsVdl2N then none
  else if len > rows*fillwidth then none
  -- unsigned subtraction
  else if rows > 1 ∧ (len+2^32-lastRowLen)%2^32 < (rows-1)*fillwidth then none
  else some (input.foldl (walkStep zero rows (lastRowLen+offset)) ⟨0, offset, tab⟩).tab

end

def weakest (conf : Nat → Int) (taken candidates : List Nat) : Option Nat :=
  candidates.foldl (fun best p =>
    if p ∈ taken then best
    else match best with
      | none => some p
      | some b => if conf p < conf b then some p else some b) none

def selectLoop (conf : Nat → Int) (candidates : List Nat) : Nat → List Nat → List Nat
  | 0, taken => taken
  | count+1, taken => match weakest conf taken candidates with
    | none => taken
    | some p => selectLoop conf candidates count (taken++[p])

def selectWeakest (conf : Nat → Int) (count : Nat) : List UInt8 :=
  (selectLoop conf (List.range rsVdl2N) count []).map UInt8.ofNat

def selectWeakestConfined (conf : Nat → Int) (count dataLen fec : Nat) : List UInt8 :=
  (selectLoop conf ((List.range rsVdl2N).filter fun p =>
    decide (p < dataLen ∨ (rsVdl2K ≤ p ∧ p < rsVdl2K+fec))) count []).map UInt8.ofNat

def sweep (attempt : Nat → DecodeResult) (fs : List Nat) : Option Block :=
  fs.findSome? fun f => if (attempt f).ok then some (attempt f).block else none

structure Layout where
  datalenOctets : Nat
  numBlocks : Nat
  last : Nat
  fecOctets : Nat

def layout (datalen : Nat) : Layout :=
  let octets := (datalen+7)/8
  let blocks := octets/rsVdl2K
  let last := octets%rsVdl2K
  { datalenOctets := octets
    numBlocks := if last ≠ 0 then blocks+1 else blocks
    last := if last = 0 then rsVdl2K else last
    fecOctets := blocks*rsVdl2Nroots+fecOctetcount last }

def Layout.fecRows (l : Layout) : Nat :=
  if fecOctetcount l.last = 0 then l.numBlocks-1 else l.numBlocks

/-- Data and parity into one table; the parity pass is skipped when no row has any. -/
def deinterleaveBoth {α : Type*} (zero : α) (l : Layout) (data fec : List α) :
    Option (Nat → Nat → α) :=
  match l2Deinterleave zero data l.numBlocks (fun _ _ => zero) rsVdl2K 0 with
  | none => none
  | some tab =>
    if l.fecRows = 0 then some tab
    else l2Deinterleave zero fec l.fecRows tab rsVdl2Nroots rsVdl2K

/-- Row `r`: the hard decision, then the erasure sweeps when there is confidence. -/
def decodeRow (l : Layout) (tab : Nat → Nat → UInt8) (conf : Option (Nat → Nat → Int)) (r : Nat) :
    Option Block :=
  let isLast := decide (r = l.numBlocks-1)
  let fecThis := if isLast then fecOctetcount l.last else rsVdl2Nroots
  let dataThis := if isLast then l.last else rsVdl2K
  let saved : Block := fun p => tab r p.val
  let hard := if isLast then rsVdl2DecodeShortened saved l.last else rsVdl2Decode saved
  if hard.ok then some hard.block
  else match conf with
    | none => none
    | some conf =>
      if dataThis = rsVdl2K then
        sweep (fun f => rsVdl2DecodeErasures saved (selectWeakest (conf r) f))
          [2, 4, rsVdl2Nroots]
      else
        sweep (fun f => rsVdl2DecodeShortenedErasures saved l.last
            (selectWeakestConfined (conf r) f l.last fecThis))
          ([2, 4, rsVdl2Nroots].takeWhile fun f => decide (f ≤ fecThis))

def decodeRows (l : Layout) (tab : Nat → Nat → UInt8) (conf : Option (Nat → Nat → Int)) :
    Option (List UInt8) :=
  ((List.range l.numBlocks).mapM (decodeRow l tab conf)).map fun rows =>
    (rows.zipIdx.flatMap fun rowIdx =>
      (List.ofFn rowIdx.1).take (if rowIdx.2 = l.numBlocks-1 then l.last else rsVdl2K))

def avlcMaxFrameOctets : Nat := 2048

/-- `deframe_core`; the frames emitted so far are the result when the burst is abandoned. -/
def deframeLoop : List Bool → Nat → List Bool → List (List Bool) → Bool → List (List Bool)
  | [], _, frame, frames, closed =>
    if closed then frames else if frame.length%8 ≠ 0 then frames else frames++[frame]
  | true::rest, ones, frame, frames, closed =>
    if ones+1 > 6 then frames
    else if frame.length ≥ avlcMaxFrameOctets*8 then frames
    else deframeLoop rest (ones+1) (frame++[true]) frames closed
  | false::rest, ones, frame, frames, closed =>
    if ones = 5 then deframeLoop rest 0 frame frames closed
    else if ones = 6 then
      if frame.length = 7 then deframeLoop rest 0 [] frames closed
      else if frame.length < 7 then frames
      else if (frame.length-7)%8 ≠ 0 then frames
      else deframeLoop rest 0 [] (frames++[frame.take (frame.length-7)]) rest.isEmpty
    else if frame.length ≥ avlcMaxFrameOctets*8 then frames
    else deframeLoop rest 0 (frame++[false]) frames closed

def avlcDeframeOctets (octets : List UInt8) (nBits : Nat) : List (List Bool) :=
  if nBits = 0 then []
  else deframeLoop ((List.range nBits).map fun i =>
    (octets.getD (i/8) 0).toNat.testBit (i%8)) 0 [] [] false

def l2Header (bits : List Bool) : Except L2Error Nat :=
  if bits.length < vdl2HdrBits then .error .header
  else match vdl2HdrDecode (BitWord.ofBits (bits.take vdl2HdrBits)) with
    | none => .error .header
    | some r => match vdl2BurstBodyBits r.datalen with
      | none => .error .header
      | some body =>
        if bits.length < vdl2HdrBits+body then .error .trunc else .ok r.datalen

def l2Body (bits : List Bool) (soft : Option (List Int)) (datalen : Nat) : Except L2Error Nat :=
  let l := layout datalen
  let data := packLsbfirst (bits.drop vdl2HdrBits) l.datalenOctets
  let fec := packLsbfirst (bits.drop (vdl2HdrBits+8*l.datalenOctets)) l.fecOctets
  match deinterleaveBoth (0 : UInt8) l data fec with
  | none => .error .internal
  | some tab =>
    let conf := soft.bind fun soft => deinterleaveBoth (0 : Int) l
      (packConfLsbfirst soft vdl2HdrBits l.datalenOctets)
      (packConfLsbfirst soft (vdl2HdrBits+8*l.datalenOctets) l.fecOctets)
    match decodeRows l tab conf with
    | none => .error .rs
    | some octets => .ok (avlcDeframeOctets octets datalen).length

def vdl2L2Feed (bits : List Bool) (soft : Option (List Int)) : Except L2Error Nat :=
  match l2Header bits with
  | .error e => .error e
  | .ok datalen => l2Body bits soft datalen

theorem l2Body_ne_header (bits : List Bool) (soft : Option (List Int)) (datalen : Nat) :
    l2Body bits soft datalen ≠ .error .header := by
  intro h
  simp only [l2Body] at h
  split at h
  · cases h
  · split at h
    · cases h
    · cases h

variable (soft : Option (List Int))

theorem vdl2L2Feed_of_header_error {bits : List Bool} {e : L2Error}
    (h : l2Header bits = .error e) : vdl2L2Feed bits soft = .error e := by
  rw [vdl2L2Feed, h]

theorem vdl2L2Feed_ne_header {bits : List Bool} {datalen : Nat}
    (h : l2Header bits = .ok datalen) : vdl2L2Feed bits soft ≠ .error .header := by
  rw [vdl2L2Feed, h]
  exact l2Body_ne_header bits soft datalen

end IridiumAcars.Vdl2L2
