import IridiumAcars.BchRegistry
import IridiumAcars.Interleave

/-! The frame classifier, iridium_frame.c. Classification hands the syndrome registry on. -/
namespace IridiumAcars.FrameClassify
open Bch IndexMap Interleave

inductive IrFrameType where
  | unknown | ms | tl | bc | lw | ra
deriving DecidableEq

inductive IrFrameDirection where
  | downlink | uplink
deriving DecidableEq

inductive IrLwSubtype where
  | vo | ip | da | u3 | u4 | u5 | u6 | sy | none
deriving DecidableEq

structure IridiumFrame where
  type : IrFrameType
  direction : IrFrameDirection
  lwSubtype : IrLwSubtype
  payloadOff : Nat
  bits : List UInt8

def headerMessaging : List UInt8 :=
  [0,0,1,1,0,0,1,1,1,1,1,1,0,0,1,1,0,0,1,1,0,0,1,1,1,1,1,1,0,0,1,1]

def uwDl : List UInt8 := [0,0,1,1,0,0,0,0,0,0,1,1,0,0,0,0,1,1,1,1,0,0,1,1]
def uwUl : List UInt8 := [1,1,0,0,1,1,0,0,0,0,1,1,1,1,0,0,1,1,1,1,1,1,0,0]

def lcwTbl : List Nat :=
  [39,38,35,34,31,30,27,26,23,22,19,18,15,14,11,10,7,6,3,2,40,37,36,33,32,29,28,25,24,21,20,17,16,
   13,12,9,8,5,4,1,0,45,44,43,42,41]

def bitsEqual (a b : List UInt8) : Bool := decide ((a.take b.length).map lsb = b.map lsb)

def looksLikeTimeLocation (p : List UInt8) : Bool :=
  if p.length < 96 then false
  else if lsb (p.getD 0 0) ≠ true ∨ lsb (p.getD 1 0) ≠ true then false
  else ((p.drop 2).take 94).all fun b => !lsb b

def classifyRa (p : List UInt8) : Bool :=
  if p.length < 96 then false
  else
    let (cw1, cw2, cw3) := deInterleave3 (p.take 96)
    if iridiumBchNdivide 1207 (cw1.take 31) ≠ 0 then false
    else if iridiumBchNdivide 1207 (cw2.take 31) ≠ 0 then false
    else if iridiumBchNdivide 1207 (cw3.take 31) ≠ 0 then false
    else true

def classifyBc (p : List UInt8) : Bool :=
  if p.length < 6+64 then false
  else if iridiumBchNdivide 29 (p.take 6) ≠ 0 then false
  else
    let (odd, even) := deInterleavePair ((p.drop 6).take 64)
    if iridiumBchNdivide 1207 (odd.take 31) ≠ 0 then false
    else if iridiumBchNdivide 1207 (even.take 31) ≠ 0 then false
    else true

/-- The three LCW sub-words; `lcw2` lacks its fourteenth bit. -/
def lcwWords (p : List UInt8) : List UInt8 × List UInt8 × List UInt8 :=
  let permuted := (gather 0 lcwTbl p).map mask
  (permuted.take 7, (permuted.drop 7).take 13, (permuted.drop 20).take 26)

def lwSubtypeOf (lcw1 : List UInt8) : IrLwSubtype :=
  match lsb (lcw1.getD 0 0), lsb (lcw1.getD 1 0), lsb (lcw1.getD 2 0) with
  | false, false, false => .vo
  | false, false, true => .ip
  | false, true, false => .da
  | false, true, true => .u3
  | true, false, false => .u4
  | true, false, true => .u5
  | true, true, false => .u6
  | true, true, true => .sy

/-- Strict LCW check: `lcw2` with trailing 0, or with 1 after a single repair, is clean. -/
def classifyLw (reg : SynRegistry) (p : List UInt8) : SynRegistry × Option IrLwSubtype :=
  if p.length < 46 then (reg, none)
  else
    let (lcw1, lcw2, lcw3) := lcwWords p
    if iridiumBchNdivide 29 lcw1 ≠ 0 then (reg, none)
    else if iridiumBchNdivide 41 lcw3 ≠ 0 then (reg, none)
    else
      let (reg, e2, _) := iridiumBchRepair2 reg 465 (lcw2 ++ [0])
      let (reg, e2, _) := if e2 = 1 then iridiumBchRepair2 reg 465 (lcw2 ++ [1])
        else (reg, e2, lcw2 ++ [0])
      if e2 ≠ 0 then (reg, none) else (reg, some (lwSubtypeOf lcw1))

/-- The relaxed pass: repair all three words, accept frame type DA only. -/
def classifyLwHarder (reg : SynRegistry) (p : List UInt8) : SynRegistry × Option IrLwSubtype :=
  if p.length < 46 then (reg, none)
  else
    let (lcw1, lcw2, lcw3) := lcwWords p
    let (reg, e1, lcw1) := iridiumBchRepair1 reg 29 lcw1
    if e1 < 0 then (reg, none)
    else
      let (reg, e3, _) := iridiumBchRepair2 reg 41 lcw3
      if e3 < 0 then (reg, none)
      else
        let (reg, e2, _) := iridiumBchRepair2 reg 465 (lcw2 ++ [0])
        let (reg, e2, _) := if e2 < 0 then iridiumBchRepair2 reg 465 (lcw2 ++ [1])
          else (reg, e2, lcw2 ++ [0])
        if e2 < 0 then (reg, none)
        else if lwSubtypeOf lcw1 ≠ .da then (reg, none) else (reg, some .da)

def swappedPrefix (p : List UInt8) : List UInt8 :=
  let swapLen := min p.length 128
  (pairSwap (p.take (swapLen-swapLen%2))).map mask

/-- `none` is the argument error (fewer than 24 bits); `harder` is the global toggle. -/
def iridiumFrameClassify (harder : Bool) (reg : SynRegistry) (bits : List UInt8)
    (direction : IrFrameDirection) : SynRegistry × Option IridiumFrame :=
  if bits.length < 24 then (reg, none)
  else
    let frame (t : IrFrameType) (s : IrLwSubtype) : Option IridiumFrame :=
      some ⟨t, direction, s, 24, bits⟩
    let uwOk := bitsEqual bits (if direction = .uplink then uwUl else uwDl)
    let p := bits.drop 24
    if p.length < 32 then (reg, frame .unknown .none)
    else
      let swapped := swappedPrefix p
      let fallback (reg : SynRegistry) : SynRegistry × Option IridiumFrame :=
        if harder then
          match classifyLwHarder reg swapped with
          | (reg, some sub) => (reg, frame .lw sub)
          | (reg, none) => (reg, frame .unknown .none)
        else (reg, frame .unknown .none)
      if uwOk then
        if swapped.length ≥ 32 ∧ bitsEqual swapped headerMessaging then (reg, frame .ms .none)
        else if looksLikeTimeLocation swapped then (reg, frame .tl .none)
        else if classifyBc swapped then (reg, frame .bc .none)
        else match classifyLw reg swapped with
          | (reg, some sub) => (reg, frame .lw sub)
          | (reg, none) => if classifyRa swapped then (reg, frame .ra .none) else fallback reg
      else fallback reg

end IridiumAcars.FrameClassify
