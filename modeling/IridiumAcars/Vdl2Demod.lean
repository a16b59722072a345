import IridiumAcars.Vdl2Header
import Mathlib.Data.List.InsertIdx

/-! From demodulated symbols to the bit vector of a burst. -/
namespace IridiumAcars.Vdl2Demod
open Vdl2Header List

def vdl2Graycode : List Nat := [0, 1, 3, 2, 6, 7, 5, 4]

/-- What `symrd_next` reads: the constellation index and one confidence per bit. -/
structure Symbol where
  idx : Fin 8
  c0 : Int
  c1 : Int
  c2 : Int
deriving DecidableEq

def Symbol.bits (s : Symbol) : List Bool :=
  let g := vdl2Graycode.getD s.idx.val 0
  [g.testBit 2, g.testBit 1, g.testBit 0]

def Symbol.conf (s : Symbol) : List Int := [s.c0, s.c1, s.c2]

def vdl2HdrSoftM : Nat := 3

def confAt (confAir : Option (List Int)) (p : Nat) : Int :=
  match confAir with
  | some conf => conf.getD (vdl2HdrBits-1-p) 0
  | none => 24576

def insertPos (conf : Nat → Int) (weak : List Nat) (p : Nat) : Nat → Nat
  | 0 => 0
  | ins+1 => if conf p < conf (weak.getD ins 0) then insertPos conf weak p ins else ins+1

def weakStep (conf : Nat → Int) (weak : List Nat) (p : Nat) : List Nat :=
  let ins := insertPos conf weak p weak.length
  if ins ≥ vdl2HdrSoftM then weak else (weak.insertIdx ins p).take vdl2HdrSoftM

def weakPositions (conf : Nat → Int) : List Nat :=
  (List.range vdl2HdrDataBits).foldl (weakStep conf) []

def flipPattern (weak : List Nat) (mask : Nat) : Nat :=
  (List.range weak.length).foldl (fun test i =>
    if mask.testBit i then test ||| 1 <<< weak.getD i 0 else test) 0

def lengthPlausible (r : HdrDecoded) : Bool :=
  !((decide (r.weight ≠ 0) && decide (r.datalen > vdl2MaxFrameBitsCorrected)) ||
    decide (r.datalen > vdl2MaxFrameBits))

def softMetric (conf : Nat → Int) (diff : Nat) : Int :=
  (List.range vdl2HdrDataBits).foldl (fun m p => if diff.testBit p then m+conf p else m) 0

def softStep (conf : Nat → Int) (weak : List Nat) (w0 : Nat) (best : Option (Int × HdrDecoded))
    (mask : Nat) : Option (Int × HdrDecoded) :=
  match vdl2HdrDecode (w0 ^^^ flipPattern weak mask) with
  | none => best
  | some r =>
    if lengthPlausible r = false then best
    else if (vdl2BurstBodyBits r.datalen).isNone then best
    else
      let metric := softMetric conf ((r.hdr ^^^ w0) &&& hdrMask)
      match best with
      | none => some (metric, r)
      | some b => if metric < b.1 then some (metric, r) else some b

def vdl2HdrDecodeSoft (hdr : Nat) (confAir : Option (List Int)) : Option HdrDecoded :=
  let conf := confAt confAir
  let w0 := hdr &&& hdrMask
  let weak := weakPositions conf
  ((List.range' 1 (1 <<< weak.length-1)).foldl (softStep conf weak w0) none).map (·.2)

structure DemodResult where
  bits : List Bool
  softBits : List Int
  nBitsNeeded : Nat
  datalen : Nat
  hdrSyndWeight : Nat
deriving DecidableEq

def DemodResult.complete (r : DemodResult) : Bool := decide (r.bits.length = r.nBitsNeeded)

def rawBits (syms : List Symbol) : List Bool := syms.flatMap Symbol.bits
def rawConf (syms : List Symbol) : List Int := syms.flatMap Symbol.conf

def headerWord (syms : List Symbol) : Nat :=
  BitWord.ofBits (vdl2Scramble ((rawBits (syms.take 9)).take vdl2HdrBits) vdl2LfsrIv).1

/-- Hard decision first, the soft fallback when it rejects. -/
def headerDecision (w : Nat) (conf27 : List Int) : Option HdrDecoded :=
  match vdl2HdrDecode w with
  | some r => some r
  | none => vdl2HdrDecodeSoft w (some conf27)

def emit (syms : List Symbol) (body : Nat) (r : HdrDecoded) : DemodResult :=
  let needed := vdl2HdrBits+body
  let neededSyms := (needed+2)/3
  let read := syms.take 9++(syms.drop 9).take (neededSyms-9)
  let bits := (vdl2Scramble ((rawBits read).take needed) vdl2LfsrIv).1
  { bits := bits
    softBits := List.zipWith (fun b c => if b then -c else c) bits ((rawConf read).take needed)
    nBitsNeeded := needed
    datalen := r.datalen
    hdrSyndWeight := r.weight }

/-- One preamble lock with the symbols left in the window; `none` resumes the scan. -/
def demodLock (syms : List Symbol) : Option DemodResult :=
  if syms.length < 9 then none
  else match headerDecision (headerWord syms) (rawConf (syms.take 9)) with
    | none => none
    | some r =>
      if lengthPlausible r = false then none
      else match vdl2BurstBodyBits r.datalen with
        | none => none
        | some body => some (emit syms body r)

def vdl2DemodBurst (locks : List (List Symbol)) : Option DemodResult := locks.findSome? demodLock

theorem demodLock_some {syms : List Symbol} {res : DemodResult} (h : demodLock syms = some res) :
    9 ≤ syms.length ∧ ∃ r body,
      headerDecision (headerWord syms) (rawConf (syms.take 9)) = some r ∧
      vdl2BurstBodyBits r.datalen = some body ∧ res = emit syms body r := by
  rw [demodLock] at h
  by_cases h9 : syms.length < 9
  · rw [if_pos h9] at h
    cases h
  rw [if_neg h9] at h
  refine ⟨by omega, ?_⟩
  cases hd : headerDecision (headerWord syms) (rawConf (syms.take 9)) with
  | none =>
    rw [hd] at h
    cases h
  | some r =>
    rw [hd] at h
    by_cases hl : lengthPlausible r = false
    · simp [hl] at h
    · cases hb : vdl2BurstBodyBits r.datalen with
      | none => simp [hl, hb] at h
      | some body =>
        refine ⟨r, body, rfl, hb, ?_⟩
        simp only [hl, hb, Bool.true_eq_false, if_false, Option.some.injEq] at h
        exact h.symm

theorem take_vdl2Scramble (bs : List Bool) (s n : Nat) :
    (vdl2Scramble bs s).1.take n = (vdl2Scramble (bs.take n) s).1 := by
  induction bs generalizing s n with
  | nil => simp [vdl2Scramble]
  | cons b bs ih =>
    cases n with
    | zero => simp [vdl2Scramble]
    | succ n => rw [vdl2Scramble, take_succ_cons, take_succ_cons, vdl2Scramble, ih]

theorem rawBits_append (as bs : List Symbol) : rawBits (as++bs) = rawBits as++rawBits bs :=
  flatMap_append

theorem length_rawBits (syms : List Symbol) : (rawBits syms).length = 3*syms.length := by
  induction syms with
  | nil => rfl
  | cons s syms ih =>
    have hc : rawBits (s::syms) = s.bits++rawBits syms := rfl
    rw [hc, length_append, ih, length_cons, Symbol.bits]
    simp only [length_cons, length_nil]
    omega

theorem ofBits_take_emit (syms : List Symbol) (body : Nat) (r : HdrDecoded) (h : 9 ≤ syms.length) :
    BitWord.ofBits ((emit syms body r).bits.take vdl2HdrBits) = headerWord syms := by
  have hlen : (rawBits (syms.take 9)).length = 27 := by
    rw [length_rawBits, length_take, Nat.min_eq_left h]
  have hmin : min vdl2HdrBits (vdl2HdrBits+body) = vdl2HdrBits := by omega
  simp only [emit, headerWord]
  rw [take_vdl2Scramble, take_take, hmin, rawBits_append,
    take_append_of_le_length (by rw [hlen]; decide)]

end IridiumAcars.Vdl2Demod
