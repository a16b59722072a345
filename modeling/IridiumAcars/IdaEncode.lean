import IridiumAcars.Crc16
import IridiumAcars.Interleave

/-! The LW.DA downlink frame encoder, ida_encode.c. -/
namespace IridiumAcars.IdaEncode
open BitWord Bch IndexMap Interleave Crc16

def acchBchPoly : UInt32 := 3545

def uwDl : List UInt8 := [0,0,1,1,0,0,0,0,0,0,1,1,0,0,0,0,1,1,1,1,0,0,1,1]

def lcwTbl : List Nat :=
  [39,38,35,34,31,30,27,26,23,22,19,18,15,14,11,10,7,6,3,2,40,37,36,33,32,29,28,25,24,21,20,17,16,
   13,12,9,8,5,4,1,0,45,44,43,42,41]

def fieldBits (n v : Nat) : List UInt8 := (toBits n v).map cell

def bchEncodeBlock (poly : UInt32) (msg : List UInt8) : List UInt8 :=
  let polyLen := u32BitLength poly.toNat
  let head := msg.map mask
  head ++ fieldBits (polyLen-1) (iridiumBchNdivide poly (head ++ List.replicate (polyLen-1) 0))

def chunk124FromCodewords (cw0 cw1 cw2 cw3 : List UInt8) : List UInt8 :=
  deInterleaveInverse (cw3 ++ cw1) (cw2 ++ cw0) 124

/-- Two codewords to the 64-bit tail; the decoder drops the leading cell of each half. -/
def tail64FromCodewords (cw8 cw9 : List UInt8) : List UInt8 :=
  deInterleaveInverse (0::cw9) (0::cw8) 64

def buildLcwRawBits : List UInt8 :=
  let lcw1 := bchEncodeBlock 29 [0,1,0]
  let lcw2 := bchEncodeBlock 465 (List.replicate 6 0)
  let lcw3 := bchEncodeBlock 41 (List.replicate 21 0)
  let permuted := lcw1 ++ lcw2.take 13 ++ lcw3
  pairSwap (scatter lcwTbl permuted (List.replicate 46 0))

/-- The twenty header cells; `da_flags1`, bit 4, `da_flags2`, `da_flags3` and `zero1`
stay 0. -/
def headerBits (daCont daCtr : UInt8) (payloadLen : Nat) : List UInt8 :=
  [0,0,0, daCont &&& 1, 0] ++ fieldBits 3 daCtr.toNat ++ [0,0,0] ++ fieldBits 5 payloadLen ++
    [0, 0,0,0]

def payloadBits (payload : List UInt8) : List UInt8 := payload.flatMap fun b => fieldBits 8 b.toNat

def messageBits (daCont daCtr : UInt8) (payload : List UInt8) : List UInt8 :=
  writeAt (writeAt (List.replicate 200 0) 0 (headerBits daCont daCtr payload.length)) 20
    (payloadBits payload)

/-- The first 24 bytes of `crc_buf`: twenty header bits, twelve zeros, bits 20 to 179. -/
def crcInput (msg : List UInt8) : List UInt8 :=
  packBytes ((msg.take 20).map lsb ++ List.replicate 12 false ++ ((msg.drop 20).take 160).map lsb)

def encodeDataSection (msg : List UInt8) : List UInt8 :=
  let cw (i : Nat) := bchEncodeBlock acchBchPoly ((msg.drop (20*i)).take 20)
  pairSwap (chunk124FromCodewords (cw 0) (cw 1) (cw 2) (cw 3) ++
    chunk124FromCodewords (cw 4) (cw 5) (cw 6) (cw 7) ++ tail64FromCodewords (cw 8) (cw 9))

/-- Refused arguments, a write past the end of the 200-cell message buffer, or a frame. -/
inductive EncodeResult where
  | invalid
  | overrun
  | frame (bits : List UInt8)
deriving DecidableEq

/-- The payload loop writes cells `20 .. 20+8*payload_len-1` of a 200-cell buffer. -/
def idaEncodeDaFrame (daCont daCtr : UInt8) (payload : List UInt8) : EncodeResult :=
  if payload.length = 0 ∨ payload.length > 24 then .invalid
  else if daCtr > 7 then .invalid
  else if 20+8*payload.length > 200 then .overrun
  else
    let msg := messageBits daCont daCtr payload
    let full := writeAt msg 180 (fieldBits 16 (crc16CcittFalse (crcInput msg)))
    .frame (uwDl ++ buildLcwRawBits ++ encodeDataSection full)

end IridiumAcars.IdaEncode
