import IridiumAcars.Crc16
import IridiumAcars.FrameClassify

/-! The LW.DA data-section decoder, ida_decode.c: ten BCH(31,20) codewords behind the LCW. -/
namespace IridiumAcars.IdaDecode
open BitWord Bch IndexMap Interleave Crc16 FrameClassify

def acchBchPoly : UInt32 := 3545

/-- `ida_decoded_t` as `ida_decode` fills it; the chase fields stay zero there. -/
structure IdaDecoded where
  ok : Bool
  nBlocks : Nat
  blocksOk : Nat
  totalErrors : Int
  nBits : Nat
  bits : List UInt8
  daFlags1 : Nat
  daCont : Nat
  daFlag1b : Nat
  daCtr : Nat
  daFlags2 : Nat
  daLen : Nat
  daFlags3 : Nat
  headerOk : Bool
  payload : List UInt8
  daCrcReported : Nat
  daCrcComputed : Nat
  crcOk : Bool
deriving DecidableEq

def IdaDecoded.blank : IdaDecoded where
  ok := false
  nBlocks := 10
  blocksOk := 0
  totalErrors := 0
  nBits := 0
  bits := List.replicate 200 0
  daFlags1 := 0
  daCont := 0
  daFlag1b := 0
  daCtr := 0
  daFlags2 := 0
  daLen := 0
  daFlags3 := 0
  headerOk := false
  payload := []
  daCrcReported := 0
  daCrcComputed := 0
  crcOk := false

def chunk124ToCodewords (chunk : List UInt8) : List UInt8 :=
  let (b1, b2) := deInterleave chunk
  let cat := b1 ++ b2
  (cat.drop 93).take 31 ++ (cat.drop 31).take 31 ++ (cat.drop 62).take 31 ++ cat.take 31

def tail64ToCodewords (tail : List UInt8) : List UInt8 :=
  let (b1, b2) := deInterleave tail
  (b2.drop 1).take 31 ++ (b1.drop 1).take 31

def idaDecodeBuildCodewords (dataSection : List UInt8) : List UInt8 :=
  let data := pairSwap (dataSection.take 312)
  chunk124ToCodewords (data.take 124) ++ chunk124ToCodewords ((data.drop 124).take 124) ++
    tail64ToCodewords ((data.drop 248).take 64)

/-- Block `i`: its repaired message goes to its own place; a failed block leaves zeros. -/
def idaDecodeBlock (codewords : List UInt8) (st : SynRegistry × IdaDecoded) (i : Nat) :
    SynRegistry × IdaDecoded :=
  match iridiumBchRepair2 st.1 acchBchPoly ((codewords.drop (31*i)).take 31) with
  | (reg, errs, cw) =>
    if errs < 0 then (reg, st.2)
    else (reg, { st.2 with
      bits := writeAt st.2.bits (i*20) (cw.take 20)
      blocksOk := st.2.blocksOk+1
      totalErrors := st.2.totalErrors+errs })

def packBitsN (b : List UInt8) (off n : Nat) : Nat :=
  (List.range n).foldl (fun v k => v <<< 1 ||| ((b.getD (off+k) 0).toNat &&& 1)) 0

/-- The second loop tests cells for nonzero where the first masks them. -/
def crcBuf (bits : List UInt8) : List UInt8 :=
  packBytes ((bits.take 20).map lsb ++ List.replicate 12 false ++
    ((bits.drop 20).take 176).map fun b => decide (b ≠ 0))

/-- Header, payload and CRC fields; nothing is parsed below 196 decoded bits. -/
def idaDecodeParseFields (out : IdaDecoded) : IdaDecoded :=
  if out.nBits < 196 then out
  else
    let b := out.bits
    let daLen := packBitsN b 11 5
    let payloadBits := if daLen > 0 then daLen*8 else out.nBits-20
    let maxLen := min (payloadBits/8) 24
    let maxLen := min maxLen ((out.nBits-20)/8)
    let computed := crc16CcittFalse (crcBuf b)
    { out with
      daFlags1 := packBitsN b 0 3
      daCont := packBitsN b 3 1
      daFlag1b := packBitsN b 4 1
      daCtr := packBitsN b 5 3
      daFlags2 := packBitsN b 8 3
      daLen := daLen
      daFlags3 := packBitsN b 16 1
      headerOk := decide (packBitsN b 17 3 = 0)
      payload := (List.range maxLen).map fun i => UInt8.ofNat (packBitsN b (20+i*8) 8)
      daCrcReported := packBitsN b 180 16
      daCrcComputed := computed
      crcOk := decide (daLen > 0 ∧ computed = 0) }

/-- `none` is the `-1` return: not an LW.DA frame, or shorter than 382 bits. -/
def idaDecode (reg : SynRegistry) (frame : IridiumFrame) : SynRegistry × Option IdaDecoded :=
  if frame.type ≠ .lw ∨ frame.lwSubtype ≠ .da then (reg, none)
  else if frame.bits.length < 24+46+312 then (reg, none)
  else
    let codewords := idaDecodeBuildCodewords (frame.bits.drop (24+46))
    let (reg, out) := (List.range 10).foldl (idaDecodeBlock codewords) (reg, IdaDecoded.blank)
    (reg, some (idaDecodeParseFields
      { out with nBits := out.blocksOk*20, ok := decide (out.blocksOk = out.nBlocks) }))

end IridiumAcars.IdaDecode
