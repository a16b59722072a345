import IridiumAcars.BchChase
import IridiumAcars.IdaCorrection
import IridiumAcars.Lib.Odometer

/-! The Chase fallback of ida_chase.c for a data section that hard decoding gave up. -/
namespace IridiumAcars.IdaChase
open BitWord Bch Interleave Odometer FrameClassify IdaDecode
open BchDecoder (bitsToUint flipPattern)

def frameBitsNeeded : Nat := 382
def idaChaseMaxL : Int := 6

/-- The statics of the module; `reg` is the syndrome registry all decoders share. -/
structure ChaseState where
  enabled : Bool
  L : Nat
  maxCrc : Nat
  attempts : UInt32
  recovered : UInt32
  crcChecks : UInt32
  map : List Nat
  mapBuilt : Bool
  reg : SynRegistry

def ChaseState.init : ChaseState where
  enabled := false
  L := 5
  maxCrc := 256
  attempts := 0
  recovered := 0
  crcChecks := 0
  map := List.replicate 310 0
  mapBuilt := false
  reg := .init

structure ChaseDecoded extends IdaDecoded where
  chaseUsed : Bool
  chaseChecks : UInt16

def clamp (lo hi v : Int) : Int :=
  let v := if v < lo then lo else v
  if v > hi then hi else v

def idaChaseSetParams (st : ChaseState) (L maxCrcChecks : Int) : ChaseState :=
  { st with L := (clamp 1 idaChaseMaxL L).toNat, maxCrc := (clamp 1 4096 maxCrcChecks).toNat }

def oneHot (p : Nat) : List UInt8 := (List.replicate 312 0).set p 1

def probe (map : List Nat) (p : Nat) : List Nat :=
  match (idaDecodeBuildCodewords (oneHot p)).findIdx? fun b => decide (b ≠ 0) with
  | some j => map.set j p
  | none => map

def buildIndexMap (map : List Nat) : List Nat := (List.range 312).foldl probe map

def bitConf (soft : List Int16) (fb : Nat) : Int :=
  let sym := fb >>> 1
  let m := (soft.getD (2*sym) 0).toInt
  let m := if m < 0 then -m else m
  if 0 < sym then
    let mp := (soft.getD (2*(sym-1)) 0).toInt
    let mp := if mp < 0 then -mp else mp
    if mp < m then mp else m
  else m

def hardDecodeCw (reg : SynRegistry) (cw : List UInt8) : SynRegistry × Option Nat :=
  match iridiumBchRepair2 reg acchBchPoly cw with
  | (reg, errs, cw) => (reg, if errs < 0 then none else some (bitsToUint cw 20))

def insertUnique : List Nat → Nat → List Nat
  | [], v => [v]
  | a::l, v => if a < v then a::insertUnique l v else if a = v then a::l else v::a::l

section
variable (conf : Nat → Int) (k : Nat)

def scanLeft (lcb : List Nat) : Nat → Nat
  | 0 => 0
  | pos+1 => if conf k < conf (lcb.getD pos 0) then scanLeft lcb pos else pos+1

def insertLcb (L : Nat) (lcb : List Nat) : List Nat :=
  let pos := scanLeft conf k lcb lcb.length
  if pos < L then (lcb.take pos ++ k::lcb.drop pos).take L else lcb

end

def leastReliable (conf : Nat → Int) (L : Nat) : List Nat :=
  (List.range 31).foldl (fun lcb k => insertLcb conf k L lcb) []

def tryPattern (cw : List UInt8) (lcb : List Nat) (st : SynRegistry × List Nat) (mset : Nat) :
    SynRegistry × List Nat :=
  match hardDecodeCw st.1 (flipPattern cw lcb mset) with
  | (reg, some m) => (reg, insertUnique st.2 m)
  | (reg, none) => (reg, st.2)

def candidates (map : List Nat) (soft : List Int16) (rcw : List UInt8) (L : Nat) (reg : SynRegistry)
    (i : Nat) : SynRegistry × List Nat :=
  let lcb := leastReliable (fun k => bitConf soft (70+map.getD (31*i+k) 0)) L
  (List.range (1 <<< L)).foldl (tryPattern ((rcw.drop (31*i)).take 31) lcb) (reg, [])

def collect (cands : SynRegistry → Nat → SynRegistry × List Nat) :
    SynRegistry → List Nat → SynRegistry × Option (List (List Nat))
  | reg, [] => (reg, some [])
  | reg, i::failed =>
    let (reg, c) := cands reg i
    if c = [] then (reg, none)
    else
      let (reg, cs) := collect cands reg failed
      (reg, cs.map (c::·))

def hardPass (rcw : List UInt8) (st : SynRegistry × List (Option Nat)) (i : Nat) :
    SynRegistry × List (Option Nat) :=
  let (reg, m) := hardDecodeCw st.1 ((rcw.drop (31*i)).take 31)
  (reg, st.2 ++ [m])

def hypothesisBits (msgs : List (Option Nat)) (failed a : List Nat) : List UInt8 :=
  (List.range 10).flatMap fun i =>
    let m := match msgs.getD i none with
      | some m => m
      | none => a.getD (failed.idxOf i) 0
    (toBits 20 m).map cell

def parsedTrial (bits : List UInt8) : IdaDecoded :=
  idaDecodeParseFields
    { IdaDecoded.blank with ok := true, blocksOk := 10, nBits := 200, bits := bits }

def passes (trial : IdaDecoded) : Bool := trial.headerOk && trial.crcOk

def accepted (out : ChaseDecoded) (trial : IdaDecoded) (checks : Nat) : ChaseDecoded where
  toIdaDecoded := { trial with totalErrors := out.totalErrors }
  chaseUsed := true
  chaseChecks := UInt16.ofNat checks

def chaseCombinations (st : ChaseState) (msgs : List (Option Nat)) (failed : List Nat)
    (cands : List (List Nat)) (out : ChaseDecoded) : ChaseState × Int × ChaseDecoded :=
  let trial := fun a => parsedTrial (hypothesisBits msgs failed a)
  let result := search 0 cands (fun a => passes (trial a)) st.maxCrc (cands.map fun _ => 0)
  let st := { st with crcChecks := st.crcChecks+UInt32.ofNat result.1 }
  match result.2 with
  | none => (st, 0, out)
  | some a => ({ st with recovered := st.recovered+1 }, 1, accepted out (trial a) result.1)

def idaChaseDecode (st : ChaseState) (frame : IridiumFrame) (soft : List Int16)
    (out : ChaseDecoded) : ChaseState × Int × ChaseDecoded :=
  if st.enabled = false then (st, 0, out)
  else if frame.type ≠ .lw ∨ frame.lwSubtype ≠ .da then (st, -1, out)
  else if out.ok = true then (st, 0, out)
  else if soft.length < frameBitsNeeded then (st, 0, out)
  else if frame.bits.length < frameBitsNeeded then (st, 0, out)
  else
    let map := if st.mapBuilt then st.map else buildIndexMap st.map
    let rcw := idaDecodeBuildCodewords (frame.bits.drop 70)
    let hard := (List.range 10).foldl (hardPass rcw) (st.reg, [])
    let failed := (List.range 10).filter fun i => (hard.2.getD i none).isNone
    let st := { st with map := map, mapBuilt := true, reg := hard.1 }
    if failed = [] then (st, 0, out)
    else
      let found := collect (candidates map soft rcw st.L) st.reg failed
      let st := { st with attempts := st.attempts+1, reg := found.1 }
      match found.2 with
      | none => (st, 0, out)
      | some cands => chaseCombinations st hard.2 failed cands out

end IridiumAcars.IdaChase
