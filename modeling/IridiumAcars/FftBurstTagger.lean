import Mathlib.Algebra.Ring.Int.Defs
import Mathlib.Data.List.Sort

/-! `fft_burst_tagger.c`, the sequential path. A step starts from the squared magnitudes of its FFT.
-/
namespace IridiumAcars.FftBurstTagger
open List

def fftSize : Nat := 2048
def maxBursts : Nat := 64
def historySize : Nat := 512
def maxBurstLen : Nat := 225000
def squelchMaxBursts : Nat := 49
def widthScanCap : Nat := 96

def emaSlotClamp : Int := 4194303

abbrev Magnitudes := Nat → Int

structure Config where
  preLen : Nat
  postLen : Nat
  width : Nat
  thresholdQ15 : Int
  /-- Offsets of the near-DC window from bin `fftSize/2`; empty when inverted. -/
  dcMaskLo : Int
  dcMaskHi : Int
  bandVdl2 : Bool

structure Burst where
  id : UInt32
  widthBins : Nat
  start : Nat
  lastActive : Nat
  stop : Nat
  centerBin : Nat
deriving DecidableEq

structure ClampRun where
  lastWrite : UInt32
  runLen : Nat

/-- `written` and `writes` record what was written and are read by no function. -/
@[ext]
structure Baseline where
  sum : Nat → Int
  history : Nat → Nat → Int
  index : Nat
  primed : Bool
  clampRun : Nat → ClampRun
  writeNo : UInt32
  written : List Magnitudes
  writes : Nat

structure Tagger where
  base : Baseline
  burstMask : Nat → Bool
  squelchCount : Nat
  bursts : List Burst
  dIndex : Nat
  burstId : Nat
  squelchEvents : UInt32
  squelchDropped : UInt32
  noiseResets : UInt32

def binInDcMask (cfg : Config) (bin : Nat) : Bool :=
  decide (1024+cfg.dcMaskLo ≤ bin) && decide ((bin : Int) ≤ 1024+cfg.dcMaskHi)

def aboveThreshold (mag2 baselineSum thresholdQ15 : Int) : Bool :=
  decide ((baselineSum*thresholdQ15) >>> (15 : Nat) < mag2*historySize)

def binCarrierSaturated (b : Baseline) (bin : Nat) : Bool :=
  decide (historySize ≤ (b.clampRun bin).runLen) && (b.clampRun bin).lastWrite == b.writeNo

def binLive (cfg : Config) (mag : Magnitudes) (b : Baseline) (bin : Nat) : Bool :=
  aboveThreshold (mag bin) (b.sum bin) cfg.thresholdQ15 && !binCarrierSaturated b bin

def sumBins (f : Nat → Int) (lo hi : Nat) : Int := ((List.range' lo (hi+1-lo)).map f).sum

def integratedActive (cfg : Config) (mag : Magnitudes) (b : Baseline) (centerBin : Nat) : Bool :=
  let lo := centerBin-cfg.width/2
  let hi := min (centerBin+cfg.width/2) (fftSize-1)
  decide ((sumBins b.sum lo hi*cfg.thresholdQ15) >>> (15 : Nat) < sumBins mag lo hi*historySize)

def seenActive (cfg : Config) (mag : Magnitudes) (b : Baseline) (centerBin : Nat) : Bool :=
  (decide (0 < centerBin) && binLive cfg mag b (centerBin-1)) || binLive cfg mag b centerBin ||
    (decide (centerBin+1 < fftSize) && binLive cfg mag b (centerBin+1)) ||
    (cfg.bandVdl2 && integratedActive cfg mag b centerBin && !binCarrierSaturated b centerBin)

def refresh (cfg : Config) (mag : Magnitudes) (t : Tagger) (b : Burst) : Burst :=
  if seenActive cfg mag t.base b.centerBin then { b with lastActive := t.dIndex } else b

def updateBursts (cfg : Config) (mag : Magnitudes) (t : Tagger) : Tagger :=
  { t with bursts := t.bursts.map (refresh cfg mag t) }

def maskBurst (cfg : Config) (mask : Nat → Bool) (centerBin : Nat) : Nat → Bool := fun k =>
  if centerBin-cfg.width/2 ≤ k ∧ k ≤ min (centerBin+cfg.width/2) (fftSize-1) then false
  else mask k

def rebuildBurstMask (cfg : Config) (bursts : List Burst) : Nat → Bool :=
  bursts.foldl (fun mask b => maskBurst cfg mask b.centerBin) fun _ => true

structure Peak where
  bin : Nat
  sortKey : Int
deriving DecidableEq

/-- The C library's `qsort` with `peak_cmp_desc`. -/
structure Qsort where
  run : List Peak → List Peak
  perm : ∀ ps, (run ps).Perm ps
  sorted : ∀ ps, (run ps).Pairwise fun p q => q.sortKey ≤ p.sortKey

def binCandidate (cfg : Config) (mag : Magnitudes) (b : Baseline) (bin : Nat) : Bool :=
  !binInDcMask cfg bin && binLive cfg mag b bin

def marginBins (cfg : Config) : List Nat :=
  List.range' (cfg.width/2) (fftSize-cfg.width/2-cfg.width/2)

def peaksAmong (cfg : Config) (mag : Magnitudes) (t : Tagger) (bins : List Nat) : List Peak :=
  (bins.filter fun bin => t.burstMask bin && binCandidate cfg mag t.base bin).map
    fun bin => ⟨bin, (mag bin*historySize).tdiv (t.base.sum bin+1)⟩

def scanPeaks (cfg : Config) (mag : Magnitudes) (t : Tagger) : List Peak :=
  peaksAmong cfg mag t (marginBins cfg)

def sortPeaks (sort : Qsort) (ps : List Peak) : List Peak :=
  if 1 < ps.length then sort.run ps else ps

section
variable (cfg : Config) (mag : Magnitudes) (b : Baseline)

def scanDown : Nat → Nat → Nat
  | 0, lo => lo
  | n+1, lo =>
    if 0 < lo ∧ aboveThreshold (mag (lo-1)) (b.sum (lo-1)) cfg.thresholdQ15 then
      scanDown n (lo-1)
    else lo

def scanUp : Nat → Nat → Nat
  | 0, hi => hi
  | n+1, hi =>
    if hi < fftSize-1 ∧ aboveThreshold (mag (hi+1)) (b.sum (hi+1)) cfg.thresholdQ15 then
      scanUp n (hi+1)
    else hi

def measureWidth (bin : Nat) : Nat :=
  scanUp cfg mag b widthScanCap bin-scanDown cfg mag b widthScanCap bin+1

end

def openBurst (cfg : Config) (mag : Magnitudes) (t : Tagger) (bin : Nat) : Burst where
  id := UInt32.ofNat t.burstId
  widthBins := measureWidth cfg mag t.base bin
  start := t.dIndex-cfg.preLen
  lastActive := t.dIndex-cfg.preLen
  stop := 0
  centerBin := bin

def createBursts (cfg : Config) (mag : Magnitudes) (maxNew : Nat) :
    List Peak → Tagger → List Burst → Tagger × List Burst
  | [], t, outNew => (t, outNew)
  | p::ps, t, outNew =>
    if t.burstMask p.bin = false then createBursts cfg mag maxNew ps t outNew
    else if maxBursts ≤ t.bursts.length then (t, outNew)
    else
      let b := openBurst cfg mag t p.bin
      createBursts cfg mag maxNew ps
        { t with
          bursts := t.bursts++[b]
          burstId := t.burstId+10
          burstMask := maskBurst cfg t.burstMask p.bin }
        (if outNew.length < maxNew then outNew++[b] else outNew)

def Baseline.reset (b : Baseline) : Baseline :=
  { b with sum := fun _ => 0, index := 0, primed := false, clampRun := fun _ => ⟨0, 0⟩,
           written := [] }

/-- `fft_burst_tagger_reset_baseline`; the history keeps its values. -/
def resetBaseline (t : Tagger) : Tagger :=
  { t with base := t.base.reset, burstMask := fun _ => true, squelchCount := 0, bursts := [] }

def closeBurst (t : Tagger) (b : Burst) : Burst := { b with stop := t.dIndex }

def predatesStep (cfg : Config) (t : Tagger) (b : Burst) : Bool := b.start != t.dIndex-cfg.preLen

def activeNow (t : Tagger) (b : Burst) : Bool := b.lastActive == t.dIndex

def squelch (cfg : Config) (maxGone : Nat) (t : Tagger) : Tagger × List Burst :=
  let old := t.bursts.filter (predatesStep cfg t)
  let quiet := old.filter fun b => !activeNow t b
  let dropped := old.countP (activeNow t)
  let cleared := { t with
    bursts := []
    burstMask := rebuildBurstMask cfg []
    squelchCount := t.squelchCount+3
    squelchEvents := t.squelchEvents+1
    squelchDropped := t.squelchDropped+UInt32.ofNat dropped }
  (if 10 ≤ cleared.squelchCount then
    resetBaseline { cleared with noiseResets := cleared.noiseResets+1 }
   else cleared,
   (quiet.map (closeBurst t)).take maxGone)

def created (cfg : Config) (sort : Qsort) (mag : Magnitudes) (maxNew : Nat) (t : Tagger) :
    Tagger × List Burst :=
  createBursts cfg mag maxNew (sortPeaks sort (scanPeaks cfg mag t)) t []

structure Reported where
  tagger : Tagger
  new : List Burst
  gone : List Burst

def createNewBursts (cfg : Config) (sort : Qsort) (mag : Magnitudes) (maxNew maxGone : Nat)
    (t : Tagger) : Reported :=
  let (c, outNew) := created cfg sort mag maxNew t
  if squelchMaxBursts < c.bursts.length then
    let (q, gone) := squelch cfg maxGone c
    ⟨q, [], gone⟩
  else ⟨{ c with squelchCount := c.squelchCount-1 }, outNew, []⟩

def clampMag (x : Int) : Int := min x emaSlotClamp

def ClampRun.track (c : ClampRun) (writeNo : UInt32) (x : Int) : ClampRun :=
  if emaSlotClamp ≤ x then
    if c.lastWrite+1 = writeNo then
      ⟨writeNo, if c.runLen < historySize then c.runLen+1 else c.runLen⟩
    else ⟨writeNo, 1⟩
  else c

/-- One executed EMA write. While priming, the old slot is not subtracted. -/
def Baseline.write (mag : Magnitudes) (b : Baseline) : Baseline where
  sum := fun k =>
    if b.primed then b.sum k-b.history b.index k+clampMag (mag k) else b.sum k+clampMag (mag k)
  history := fun i k => if i = b.index then clampMag (mag k) else b.history i k
  index := if historySize ≤ b.index+1 then 0 else b.index+1
  primed := decide (historySize ≤ b.index+1) || b.primed
  clampRun := fun k => (b.clampRun k).track (b.writeNo+1) (mag k)
  writeNo := b.writeNo+1
  written := b.written++[mag]
  writes := b.writes+1

def updateBaselineEma (mag : Magnitudes) (force : Bool) (t : Tagger) : Tagger :=
  if 0 < t.bursts.length ∧ force = false then t else { t with base := t.base.write mag }

def longBurst (b : Burst) : Bool := decide (maxBurstLen < b.lastActive-b.start)

def dueBurst (cfg : Config) (t : Tagger) (b : Burst) : Bool :=
  decide (b.lastActive+cfg.postLen ≤ t.dIndex) || longBurst b

def deleteGoneBursts (cfg : Config) (mag : Magnitudes) (maxGone : Nat) (t : Tagger) :
    Tagger × List Burst :=
  let gone := t.bursts.filter (dueBurst cfg t)
  let kept := t.bursts.filter fun b => !dueBurst cfg t b
  let compacted := { t with
    bursts := kept
    burstMask := if gone.isEmpty then t.burstMask else rebuildBurstMask cfg kept }
  (if t.bursts.any longBurst then updateBaselineEma mag true compacted else compacted,
   (gone.map (closeBurst t)).take maxGone)

def detect (cfg : Config) (sort : Qsort) (mag : Magnitudes) (maxNew maxGone : Nat) (t : Tagger) :
    Reported :=
  let c := createNewBursts cfg sort mag maxNew maxGone (updateBursts cfg mag t)
  let (d, gone) := deleteGoneBursts cfg mag (maxGone-c.gone.length) c.tagger
  ⟨d, c.new, c.gone++gone⟩

def nextIndex (t : Tagger) : Tagger := { t with dIndex := t.dIndex+fftSize }

/-- `fft_burst_tagger_step` from the magnitudes on; unprimed, nothing is reported. -/
def step (cfg : Config) (sort : Qsort) (mag : Magnitudes) (maxNew maxGone : Nat) (t : Tagger) :
    Reported :=
  if t.base.primed then
    let d := detect cfg sort mag maxNew maxGone t
    { d with tagger := nextIndex (updateBaselineEma mag false d.tagger) }
  else ⟨nextIndex (updateBaselineEma mag false t), [], []⟩

def flush (maxGone : Nat) (t : Tagger) : Tagger × List Burst :=
  ({ t with bursts := [], burstMask := fun _ => true }, (t.bursts.map (closeBurst t)).take maxGone)

/-- `fft_burst_tagger_init` over a history buffer of any content. -/
def init (history : Nat → Nat → Int) (writes : Nat) : Tagger where
  base := ⟨fun _ => 0, history, 0, false, fun _ => ⟨0, 0⟩, UInt32.ofNat writes, [], writes⟩
  burstMask := fun _ => true
  squelchCount := 0
  bursts := []
  dIndex := 0
  burstId := 0
  squelchEvents := 0
  squelchDropped := 0
  noiseResets := 0

inductive Call
  | step (mag : Magnitudes) (maxNew maxGone : Nat)
  | resetBaseline
  | flush (maxGone : Nat)

def call (cfg : Config) (sort : Qsort) (t : Tagger) : Call → Tagger × List Burst
  | .step mag maxNew maxGone =>
    let r := step cfg sort mag maxNew maxGone t
    (r.tagger, r.gone)
  | .resetBaseline => (FftBurstTagger.resetBaseline t, [])
  | .flush maxGone => FftBurstTagger.flush maxGone t

def run (cfg : Config) (sort : Qsort) (t : Tagger) (calls : List Call) : Tagger :=
  calls.foldl (fun t c => (call cfg sort t c).1) t

def insertionQsort : Qsort where
  run := List.insertionSort fun p q => q.sortKey ≤ p.sortKey
  perm := perm_insertionSort _
  sorted := by
    have htotal : Std.Total fun p q : Peak => q.sortKey ≤ p.sortKey :=
      ⟨fun p q => le_total q.sortKey p.sortKey⟩
    have htrans : IsTrans Peak fun p q => q.sortKey ≤ p.sortKey :=
      ⟨fun _ _ _ hpq hqr => le_trans hqr hpq⟩
    exact pairwise_insertionSort _

section
variable (cfg : Config) (sort : Qsort) (mag : Magnitudes) (history : Nat → Nat → Int)

def priming (n : Nat) : Tagger :=
  { init history 0 with
    base := ⟨fun k => n*mag k, fun i k => if i < n then mag k else history i k,
      if n < historySize then n else 0, decide (historySize ≤ n), fun _ => ⟨0, 0⟩,
      UInt32.ofNat n, List.replicate n mag, n⟩
    dIndex := n*fftSize }

theorem priming_write (hmag : ∀ k, mag k < emaSlotClamp) {n : Nat} (hn : n < historySize) :
    (priming mag history n).base.write mag = (priming mag history (n+1)).base := by
  have hclamp : ∀ k, clampMag (mag k) = mag k := fun k => min_eq_left (hmag k).le
  have hidx : (if n < historySize then n else 0) = n := if_pos hn
  have hnot : ¬historySize ≤ n := Nat.not_le.mpr hn
  refine Baseline.ext (funext fun k => ?_) (funext₂ fun i k => ?_) ?_ ?_ (funext fun k => ?_)
    ?_ ?_ rfl
  · simp [Baseline.write, priming, hnot, hclamp, Int.add_mul]
  · simp only [Baseline.write, priming, hidx, hclamp, Nat.lt_succ_iff_lt_or_eq]
    by_cases hi : i = n <;> simp [hi]
  · simp only [Baseline.write, priming, hidx]
    split <;> split <;> omega
  · simp [Baseline.write, priming, hidx, hnot]
  · simp [Baseline.write, priming, ClampRun.track, (hmag k).not_ge]
  · simp [Baseline.write, priming, UInt32.ofNat_add]
  · exact replicate_succ'.symm

theorem priming_step (hmag : ∀ k, mag k < emaSlotClamp) {n : Nat} (hn : n < historySize)
    (maxNew maxGone : Nat) :
    (step cfg sort mag maxNew maxGone (priming mag history n)).tagger =
      priming mag history (n+1) := by
  have hprimed : (priming mag history n).base.primed = false := decide_eq_false (by omega)
  have hema : updateBaselineEma mag false (priming mag history n) =
      { priming mag history n with base := (priming mag history n).base.write mag } := rfl
  rw [step, hprimed, if_neg Bool.false_ne_true, hema, priming_write mag history hmag hn, nextIndex]
  simp only [priming, Nat.succ_mul]

theorem run_priming (hmag : ∀ k, mag k < emaSlotClamp) {n : Nat} (hn : n ≤ historySize)
    (maxNew maxGone : Nat) :
    run cfg sort (init history 0) (List.replicate n (.step mag maxNew maxGone)) =
      priming mag history n := by
  induction n with
  | zero => simp [run, priming, init, historySize]
  | succ n ih =>
    rw [run] at ih ⊢
    rw [replicate_succ', foldl_append, ih (Nat.le_of_lt hn)]
    exact priming_step cfg sort mag history hmag hn _ _

end

end IridiumAcars.FftBurstTagger
