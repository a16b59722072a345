import IridiumAcars.Gf256

/-! The Reed-Solomon codec of rs_vdl2.c: RS(255,249) with generator roots 120 to 125. -/
namespace IridiumAcars.RsVdl2
open Gf256

def rsVdl2N : Nat := 255
def rsVdl2K : Nat := 249
def rsVdl2Nroots : Nat := 6
def gfFcr : Nat := 120

/-- `uint8_t block[RS_VDL2_N]`, highest power first. -/
abbrev Block := Fin rsVdl2N → UInt8

def gpolyStep (g : List UInt8) (i : Nat) : List UInt8 :=
  let root := gfExp (gfFcr+i)
  (List.range 7).map fun j =>
    if j = 0 then gfMul (g.getD 0 0) root
    else if j ≤ i+1 then g.getD (j-1) 0 ^^^ gfMul (g.getD j 0) root
    else g.getD j 0

def gpoly : List UInt8 := (List.range rsVdl2Nroots).foldl gpolyStep [1, 0, 0, 0, 0, 0, 0]

def encodeStep (par : List UInt8) (d : UInt8) : List UInt8 :=
  let fb := d ^^^ par.getD 0 0
  (List.range rsVdl2Nroots).map fun j =>
    if j < 5 then par.getD (j+1) 0 ^^^ gfMul fb (gpoly.getD (5-j) 0) else gfMul fb (gpoly.getD 0 0)

def dataOctets (block : Block) : List UInt8 :=
  (List.finRange rsVdl2K).map fun i => block (Fin.castLE (by decide) i)

def parity (block : Block) : List UInt8 :=
  (dataOctets block).foldl encodeStep [0, 0, 0, 0, 0, 0]

def rsVdl2Encode (block : Block) : Block := fun p =>
  if p.val < rsVdl2K then block p else (parity block).getD (p.val-rsVdl2K) 0

def syndrome (block : Block) (i : Nat) : UInt8 :=
  let logRoot := (gfFcr+i)%255
  (List.finRange rsVdl2N).foldl
    (fun s j => (if s ≠ 0 then gfExp (gfLog s+logRoot) else s) ^^^ block j) 0

def rsSyndromes (block : Block) : List UInt8 := (List.range rsVdl2Nroots).map (syndrome block)

structure BmState where
  lambda : List UInt8
  prev : List UInt8
  len : Nat
  m : Nat
  b : UInt8

def discrepancy (syn lambda : List UInt8) (len n : Nat) : UInt8 :=
  (List.range' 1 len).foldl (fun d i => d ^^^ gfMul (lambda.getD i 0) (syn.getD (n-i) 0))
    (syn.getD n 0)

def addShifted (lambda prev : List UInt8) (coef : UInt8) (m : Nat) : List UInt8 :=
  (List.range 7).map fun k =>
    if m ≤ k then lambda.getD k 0 ^^^ gfMul coef (prev.getD (k-m) 0) else lambda.getD k 0

def bmStep (syn : List UInt8) (st : BmState) (n : Nat) : BmState :=
  let d := discrepancy syn st.lambda st.len n
  if d = 0 then { st with m := st.m+1 }
  else
    let coef := gfExp (gfLog d+255-gfLog st.b)
    if 2*st.len ≤ n then
      { lambda := addShifted st.lambda st.prev coef st.m
        prev := st.lambda
        len := n+1-st.len
        m := 1
        b := d }
    else { st with lambda := addShifted st.lambda st.prev coef st.m, m := st.m+1 }

def bmStart : BmState := ⟨[1, 0, 0, 0, 0, 0, 0], [1, 0, 0, 0, 0, 0, 0], 0, 1, 1⟩

def berlekampMassey (syn : List UInt8) (ns : Nat) : BmState :=
  (List.range ns).foldl (bmStep syn) bmStart

def chienSum (p : List UInt8) (js : List Nat) (e : Nat → Nat) (q : Nat) (v : UInt8) : UInt8 :=
  js.foldl (fun v i =>
    if p.getD i 0 ≠ 0 then v ^^^ gfExp ((gfLog (p.getD i 0)+e i*q)%255) else v) v

def chienValue (psi : List UInt8) (dpsi q : Nat) : UInt8 :=
  chienSum psi (List.range' 1 dpsi) (fun i => i) q (psi.getD 0 0)

def chienRoots (psi : List UInt8) (dpsi : Nat) : List Nat :=
  (List.range 255).filter fun q => decide (chienValue psi dpsi q = 0)

def errataEvaluator (psi syn : List UInt8) (dpsi : Nat) : List UInt8 :=
  (List.range rsVdl2Nroots).map fun i =>
    ((List.range (i+1)).filter fun j => decide (j ≤ dpsi)).foldl
      (fun acc j => acc ^^^ gfMul (psi.getD j 0) (syn.getD (i-j) 0)) 0

def forneyNum (omega : List UInt8) (q : Nat) : UInt8 :=
  chienSum omega (List.range rsVdl2Nroots) (fun i => i) q 0

def forneyDen (psi : List UInt8) (dpsi q : Nat) : UInt8 :=
  chienSum psi ((List.range' 1 dpsi).filter fun i => decide (i%2 = 1)) (fun i => i-1) q 0

def forneyValue (num den : UInt8) (q : Nat) : UInt8 :=
  let p := (255-q)%255
  gfExp ((gfLog num+255-gfLog den+(p*(255+1-gfFcr))%255)%255)

def correctRoot (psi omega : List UInt8) (dpsi : Nat) (st : Block × Nat) (q : Nat) :
    Option (Block × Nat) :=
  let num := forneyNum omega q
  let den := forneyDen psi dpsi q
  if den = 0 then none
  else if num = 0 then some st
  else
    let errPos := rsVdl2N-1-(255-q)%255
    some (fun p => if p.val = errPos then st.1 p ^^^ forneyValue num den q else st.1 p, st.2+1)

/-- Return code, the block left behind, and what was stored through `n_corrected`. -/
structure DecodeResult where
  ok : Bool
  block : Block
  nCorrected : Option Nat

def DecodeResult.failed (block : Block) : DecodeResult := ⟨false, block, none⟩

/-- The roots one after the other; the block so far when one fails. -/
def correctRoots (psi omega : List UInt8) (dpsi : Nat) :
    List Nat → Block × Nat → Bool × Block × Nat
  | [], st => (true, st)
  | q::qs, st => match correctRoot psi omega dpsi st q with
    | none => (false, st)
    | some st => correctRoots psi omega dpsi qs st

def applyErrata (block : Block) (syn psi : List UInt8) (dpsi : Nat) : DecodeResult :=
  let roots := chienRoots psi dpsi
  if roots.length > rsVdl2Nroots ∨ roots.length ≠ dpsi then .failed block
  else
    let omega := errataEvaluator psi syn dpsi
    let res := correctRoots psi omega dpsi roots (block, 0)
    if res.1 = false then .failed res.2.1
    else if (rsSyndromes res.2.1).any (fun s => decide (s ≠ 0)) then .failed res.2.1
    else ⟨true, res.2.1, some res.2.2⟩

def gammaStep (gamma : List UInt8) (e : Nat) (pos : UInt8) : List UInt8 :=
  let x := gfExp (rsVdl2N-1-pos.toNat)
  (List.range 7).map fun i =>
    if 0 < i ∧ i ≤ e+1 then gamma.getD i 0 ^^^ gfMul x (gamma.getD (i-1) 0) else gamma.getD i 0

def gammaLoop : List UInt8 → Nat → List UInt8 → Option (List UInt8)
  | [], _, gamma => some gamma
  | pos::rest, e, gamma =>
    if pos.toNat ≥ rsVdl2N then none else gammaLoop rest (e+1) (gammaStep gamma e pos)

def modifiedSyndromes (gamma syn : List UInt8) (f : Nat) : List UInt8 :=
  (List.range rsVdl2Nroots).map fun i =>
    ((List.range (i+1)).filter fun a => decide (a ≤ f)).foldl
      (fun acc a => acc ^^^ gfMul (gamma.getD a 0) (syn.getD (i-a) 0)) 0

def errataLocator (lambda gamma : List UInt8) (len f : Nat) : List UInt8 :=
  (List.range 7).map fun k =>
    ((List.range (len+1)).filter fun a => decide (a ≤ k ∧ k-a ≤ f)).foldl
      (fun acc a => acc ^^^ gfMul (lambda.getD a 0) (gamma.getD (k-a) 0)) 0

def rsVdl2DecodeErasures (block : Block) (erasurePos : List UInt8) : DecodeResult :=
  let f := erasurePos.length
  if f > rsVdl2Nroots then .failed block
  else
    let syn := rsSyndromes block
    if syn.any (fun s => decide (s ≠ 0)) = false then ⟨true, block, some 0⟩
    else match gammaLoop erasurePos 0 [1, 0, 0, 0, 0, 0, 0] with
      | none => .failed block
      | some gamma =>
        let u := modifiedSyndromes gamma syn f
        let ns := rsVdl2Nroots-f
        let bm := berlekampMassey (u.drop f) ns
        if 2*bm.len+f > rsVdl2Nroots then .failed block
        else applyErrata block syn (errataLocator bm.lambda gamma bm.len f) (bm.len+f)

def rsVdl2Decode (block : Block) : DecodeResult := rsVdl2DecodeErasures block []

def shortFecOctetcount (dataLen : Nat) : Nat :=
  if dataLen < 3 then 0 else if dataLen < 31 then 2 else if dataLen < 68 then 4 else rsVdl2Nroots

def confAccepted (dataLen structLo : Nat) : List UInt8 → List UInt8 → Bool
  | _, [] => true
  | seen, p::rest =>
    if ¬ (p.toNat < dataLen ∨ (rsVdl2K ≤ p.toNat ∧ p.toNat < structLo)) then false
    else if p ∈ seen then false
    else confAccepted dataLen structLo (seen++[p]) rest

def rsVdl2DecodeShortenedErasures (block : Block) (dataLen : Nat) (conf : List UInt8) :
    DecodeResult :=
  let fec := shortFecOctetcount dataLen
  if fec = 0 then
    if conf.length ≠ 0 then .failed block else ⟨true, block, some 0⟩
  else
    let fStructural := rsVdl2Nroots-fec
    let structLo := rsVdl2K+fec
    if fStructural+conf.length > rsVdl2Nroots then .failed block
    else if confAccepted dataLen structLo [] conf = false then .failed block
    else rsVdl2DecodeErasures block
      ((List.range fStructural).map (fun i => UInt8.ofNat (structLo+i)) ++ conf)

def rsVdl2DecodeShortened (block : Block) (dataLen : Nat) : DecodeResult :=
  rsVdl2DecodeShortenedErasures block dataLen []

end IridiumAcars.RsVdl2
