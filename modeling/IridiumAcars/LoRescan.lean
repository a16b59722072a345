import IridiumAcars.Lib.Selection
import Mathlib.Tactic.Positivity

/-! The LO rescan of autotune.c, with the sweep of scanner.c and the ranking of scanner_map.c. -/
namespace IridiumAcars.LoRescan
open Selection List

def scannerMaxPositions : Nat := 16
def scannerIraRegionLoHz : UInt32 := 1624000000
def scanStartHz : UInt32 := 1618000000
def scanStopHz : UInt32 := 1626000000
def scanStepHz : UInt32 := 1250000
def scanDwellMs : UInt32 := 5000

/-- What the ranking needs of single-precision arithmetic; nothing underflows on 32-bit counts. -/
structure RateArith (K : Type*) [LinearOrder K] where
  zero : K
  rate : UInt32 → UInt32 → K
  weigh : K → K
  rate_zero : ∀ dwellMs, dwellMs ≠ 0 → rate 0 dwellMs = zero
  rate_pos : ∀ bursts dwellMs, bursts ≠ 0 → dwellMs ≠ 0 → zero < rate bursts dwellMs
  weigh_zero : weigh zero = zero
  weigh_rate_pos : ∀ bursts dwellMs, bursts ≠ 0 → dwellMs ≠ 0 → zero < weigh (rate bursts dwellMs)

/-- `scanner_pos_t` without the mean SNR, which no ranking reads. -/
structure ScannerPos where
  centerHz : UInt32
  narrowbandBursts : UInt32
  allBursts : UInt32
  dwellMs : UInt32
deriving DecidableEq

def enumerateFrom (stopHz stepHz : UInt32) : Nat → UInt32 → List UInt32
  | 0, _ => []
  | room+1, f => if f ≤ stopHz then f::enumerateFrom stopHz stepHz room (f+stepHz) else []

def scannerEnumerateCenters (startHz stopHz stepHz : UInt32) (max : Nat) : List UInt32 :=
  if stepHz = 0 ∨ startHz > stopHz then [] else enumerateFrom stopHz stepHz max startHz

def scannerPosAccumulate (acc p : ScannerPos) : ScannerPos :=
  { acc with
    allBursts := acc.allBursts+p.allBursts
    narrowbandBursts := acc.narrowbandBursts+p.narrowbandBursts
    dwellMs := acc.dwellMs+p.dwellMs }

section
variable {K : Type*} [LinearOrder K] (A : RateArith K)

def scannerPosNarrowbandRate (p : ScannerPos) : K :=
  if p.dwellMs = 0 then A.zero else A.rate p.narrowbandBursts p.dwellMs

def scannerPosRankedRate (p : ScannerPos) : K :=
  if p.centerHz ≥ scannerIraRegionLoHz then A.weigh (scannerPosNarrowbandRate A p)
  else scannerPosNarrowbandRate A p

def rankBy (score : ScannerPos → K) : List ScannerPos → Option ScannerPos
  | [] => none
  | p::ps => some (ps.foldl (keepGreater score) p)

def scannerRankHottest (pos : List ScannerPos) : Option ScannerPos :=
  rankBy (scannerPosRankedRate A) pos

end

structure DspDensity where
  narrowbandBursts : UInt32
  allBursts : UInt32

/-- `s_dsp != NULL`, `s_map`, `s_last_hot_hz` and `s_cur_hz`. -/
structure Scanner where
  dspWired : Bool
  map : List ScannerPos
  lastHotHz : UInt32
  curHz : UInt32

/-- `scanner_hop` without the NVS write, by the result of `class_driver_retune`. -/
def scannerHop (sc : Scanner) (hz : UInt32) (retuned : Bool) : Scanner :=
  if retuned then { sc with curHz := hz } else sc

def sweepOnce (heard : UInt32 → Option DspDensity) (dwellMs : UInt32) :
    Scanner → List UInt32 → Scanner × List ScannerPos
  | sc, [] => (sc, [])
  | sc, c::cs =>
    match heard c with
    | none =>
      let r := sweepOnce heard dwellMs (scannerHop sc c false) cs
      (r.1, ⟨c, 0, 0, 0⟩::r.2)
    | some d =>
      let r := sweepOnce heard dwellMs (scannerHop sc c true) cs
      (r.1, ⟨c, d.narrowbandBursts, d.allBursts, dwellMs⟩::r.2)

section
variable {K : Type*} [LinearOrder K] (A : RateArith K)

/-- `scanner_survey` with one entry of `sweeps` per sweep; `parked` is the ignored last result. -/
def scannerSurvey (sc : Scanner) (startHz stopHz stepHz dwellMs : UInt32)
    (sweeps : List (UInt32 → Option DspDensity)) (parked : Bool) : Scanner :=
  if !sc.dspWired then sc
  else
    let centers := scannerEnumerateCenters startHz stopHz stepHz scannerMaxPositions
    if centers.length = 0 then sc
    else
      let swept := sweeps.foldl (fun st heard =>
        let r := sweepOnce heard dwellMs st.1 centers
        (r.1, List.zipWith scannerPosAccumulate st.2 r.2))
        (sc, centers.map fun c => (⟨c, 0, 0, 0⟩ : ScannerPos))
      let sc := { swept.1 with map := swept.2 }
      match scannerRankHottest A sc.map with
      | none => sc
      | some hot => { scannerHop sc hot.centerHz parked with lastHotHz := hot.centerHz }

def scannerScan (sc : Scanner) (startHz stopHz stepHz dwellMs : UInt32)
    (heard : UInt32 → Option DspDensity) (parked : Bool) : Scanner :=
  scannerSurvey A sc startHz stopHz stepHz dwellMs [heard] parked

inductive GainMode
  | tunerAgc
  | manual
  | softwareAgc
deriving DecidableEq

structure Device where
  gainMode : GainMode
  loFreqHz : UInt32
  autotuneBusy : Bool
  scanner : Scanner

/-- What one rescan meets: the sweep, the park, and whether the write went through. -/
structure Air where
  heard : UInt32 → Option DspDensity
  parked : Bool
  written : Bool

def autotuneRunLoRescan (dev : Device) (air : Air) : Device :=
  if dev.gainMode ≠ .manual then dev
  else if dev.autotuneBusy then dev
  else
    let sc := scannerScan A dev.scanner scanStartHz scanStopHz scanStepHz scanDwellMs air.heard
      air.parked
    let dev := { dev with scanner := sc }
    if sc.lastHotHz ≠ 0 then
      if air.written then { dev with loFreqHz := sc.lastHotHz } else dev
    else dev

def scanCenters : List UInt32 :=
  scannerEnumerateCenters scanStartHz scanStopHz scanStepHz scannerMaxPositions

def measured (heard : UInt32 → Option DspDensity) (c : UInt32) : ScannerPos :=
  match heard c with
  | none => ⟨c, 0, 0, 0⟩
  | some d => ⟨c, d.narrowbandBursts, d.allBursts, scanDwellMs⟩

def score (heard : UInt32 → Option DspDensity) (c : UInt32) : K :=
  scannerPosRankedRate A (measured heard c)

def hopped (heard : UInt32 → Option DspDensity) (cs : List UInt32) : List UInt32 :=
  cs.filter fun c => (heard c).isSome

def Live (heard : UInt32 → Option DspDensity) (c : UInt32) : Prop :=
  ∃ d, heard c = some d ∧ d.narrowbandBursts ≠ 0

/-- The configured LO is a live center of maximal score, and the tuner is on it. -/
def PersistedLive (air : Air) (dev : Device) : Prop :=
  dev.scanner.dspWired = true ∧ ∃ c ∈ scanCenters, dev.loFreqHz = c ∧ Live air.heard c ∧
    (∀ c' ∈ scanCenters, score A air.heard c' ≤ score A air.heard c) ∧ dev.scanner.curHz = c

def RescanSafe (dev : Device) (air : Air) : Prop :=
  dev.gainMode = .manual → dev.autotuneBusy = false → air.written = true →
    if dev.scanner.dspWired then
      ∀ hot, FirstMax (score A air.heard) scanCenters hot → hot = dev.loFreqHz ∨
        (∃ c ∈ scanCenters, Live air.heard c) ∧
        (air.parked = true ∨ (hopped air.heard scanCenters).getLast? = some hot)
    else dev.scanner.lastHotHz = 0 ∨ dev.scanner.lastHotHz = dev.loFreqHz

variable {A} {heard : UInt32 → Option DspDensity}

theorem sweepOnce_spec (sc : Scanner) (cs : List UInt32) :
    sweepOnce heard scanDwellMs sc cs =
      ({ sc with curHz := (hopped heard cs).getLast?.getD sc.curHz }, cs.map (measured heard)) := by
  induction cs generalizing sc with
  | nil => rfl
  | cons c cs ih =>
    rw [sweepOnce]
    cases h : heard c with
    | none => simp [ih, scannerHop, hopped, measured, h]
    | some d =>
      have hlast : ((hopped heard (c::cs)).getLast?).getD sc.curHz =
          (hopped heard cs).getLast?.getD c := by
        rw [hopped, filter_cons_of_pos (by simp [h]), getLast?_cons]
        rfl
      simp [ih, scannerHop, measured, h, hlast]

theorem accumulate_measured (cs : List UInt32) :
    List.zipWith scannerPosAccumulate (cs.map fun c => (⟨c, 0, 0, 0⟩ : ScannerPos))
      (cs.map (measured heard)) = cs.map (measured heard) := by
  rw [zipWith_map, zipWith_self]
  refine map_congr_left fun c _ => ?_
  cases h : heard c <;> simp [scannerPosAccumulate, measured, h]

theorem centerHz_measured (c : UInt32) : (measured heard c).centerHz = c := by
  rw [measured]
  split <;> rfl

theorem scan_wired (sc : Scanner) (parked : Bool) (hw : sc.dspWired = true) :
    ∃ hot sc', FirstMax (score A heard) scanCenters hot ∧
      scannerScan A sc scanStartHz scanStopHz scanStepHz scanDwellMs heard parked = sc' ∧
      sc'.dspWired = true ∧ sc'.lastHotHz = hot ∧
      sc'.curHz = if parked then hot else (hopped heard scanCenters).getLast?.getD sc.curHz := by
  have hne : ¬ scanCenters.length = 0 := by decide
  obtain ⟨first,rest,hcenters⟩ : ∃ first rest, scanCenters = first::rest :=
    exists_cons_of_length_pos (Nat.pos_of_ne_zero hne)
  have hmax := foldl_keepGreater (scannerPosRankedRate A) (measured heard first)
    (rest.map (measured heard))
  rw [← map_cons, ← hcenters] at hmax
  obtain ⟨hot,hhot,hfirst⟩ := hmax.of_map
  have hrank : scannerRankHottest A (scanCenters.map (measured heard)) =
      some (measured heard hot) := by
    rw [hcenters, map_cons, hhot]
    rfl
  refine ⟨hot, _, hfirst, rfl, ?_⟩
  rw [scannerScan, scannerSurvey, hw]
  dsimp only [Bool.not_true]
  rw [← scanCenters, if_neg (by decide), if_neg hne, foldl_cons, foldl_nil]
  dsimp only
  rw [sweepOnce_spec, accumulate_measured, hrank]
  dsimp only
  rw [centerHz_measured, scannerHop]
  split <;> exact ⟨hw, rfl, rfl⟩

theorem score_of_not_live {c : UInt32} (h : ¬ Live heard c) : score A heard c = A.zero := by
  have hrate : scannerPosNarrowbandRate A (measured heard c) = A.zero := by
    rw [scannerPosNarrowbandRate, measured]
    cases hc : heard c with
    | none => rfl
    | some d =>
      have hz : d.narrowbandBursts = 0 := by
        by_contra hne
        exact h ⟨d, hc, hne⟩
      dsimp only
      rw [if_neg (by decide), hz, A.rate_zero _ (by decide)]
  rw [score, scannerPosRankedRate, hrate, A.weigh_zero, ite_self]

theorem score_of_live {c : UInt32} (h : Live heard c) : A.zero < score A heard c := by
  obtain ⟨d,hc,hne⟩ := h
  have hrate : scannerPosNarrowbandRate A (measured heard c) =
      A.rate d.narrowbandBursts scanDwellMs := by
    rw [measured, hc]
    exact if_neg (show scanDwellMs ≠ 0 by decide)
  rw [score, scannerPosRankedRate, hrate]
  split
  · exact A.weigh_rate_pos _ _ hne (by decide)
  · exact A.rate_pos _ _ hne (by decide)

theorem live_of_firstMax {hot : UInt32} (h : FirstMax (score A heard) scanCenters hot) :
    Live heard hot ↔ ∃ c ∈ scanCenters, Live heard c := by
  constructor
  · exact fun hl => ⟨hot, h.mem, hl⟩
  · rintro ⟨c,hc,hl⟩
    by_contra hdead
    have hpos := (score_of_live (A := A) hl).trans_le (h.le hc)
    rw [score_of_not_live hdead] at hpos
    exact lt_irrefl _ hpos

theorem hopped_getLast {hot cur : UInt32} (h : ∃ c ∈ scanCenters, Live heard c) :
    (hopped heard scanCenters).getLast?.getD cur = hot ↔
      (hopped heard scanCenters).getLast? = some hot := by
  obtain ⟨c,hc,d,hd,-⟩ := h
  have hmem : c ∈ hopped heard scanCenters := mem_filter.mpr ⟨hc, by rw [hd]; rfl⟩
  cases hl : (hopped heard scanCenters).getLast? with
  | none =>
    rw [getLast?_eq_none_iff.mp hl] at hmem
    cases hmem
  | some a => simp

theorem rescan_unwritten (dev : Device) (air : Air) (h : ¬ (dev.gainMode = .manual ∧
    dev.autotuneBusy = false ∧ air.written = true)) :
    (autotuneRunLoRescan A dev air).loFreqHz = dev.loFreqHz := by
  rw [autotuneRunLoRescan]
  by_cases hmode : dev.gainMode ≠ .manual
  · rw [if_pos hmode]
  cases hbusy : dev.autotuneBusy with
  | true => rw [if_neg hmode, if_pos rfl]
  | false =>
    have hw : ¬ air.written = true := fun hw => h ⟨not_not.mp hmode, hbusy, hw⟩
    rw [if_neg hmode, if_neg (by decide)]
    dsimp only
    rw [if_neg hw]
    split <;> rfl

theorem rescan_written {dev : Device} {air : Air} {sc : Scanner} (hmode : dev.gainMode = .manual)
    (hbusy : dev.autotuneBusy = false) (hwritten : air.written = true)
    (hscan : scannerScan A dev.scanner scanStartHz scanStopHz scanStepHz scanDwellMs air.heard
      air.parked = sc) : autotuneRunLoRescan A dev air =
      { dev with
        scanner := sc
        loFreqHz := if sc.lastHotHz ≠ 0 then sc.lastHotHz else dev.loFreqHz } := by
  rw [autotuneRunLoRescan, if_neg (not_not.mpr hmode), hbusy, if_neg (by decide), hscan, hwritten]
  dsimp only
  rw [if_pos rfl]
  split <;> rfl

theorem unwired_iff {dev : Device} {air : Air} (hmode : dev.gainMode = .manual)
    (hbusy : dev.autotuneBusy = false) (hwritten : air.written = true)
    (hwired : dev.scanner.dspWired = false) :
    ((autotuneRunLoRescan A dev air).loFreqHz ≠ dev.loFreqHz →
      PersistedLive A air (autotuneRunLoRescan A dev air)) ↔
      dev.scanner.lastHotHz = 0 ∨ dev.scanner.lastHotHz = dev.loFreqHz := by
  have hscan : scannerScan A dev.scanner scanStartHz scanStopHz scanStepHz scanDwellMs air.heard
      air.parked = dev.scanner := by
    rw [scannerScan, scannerSurvey, hwired]
    rfl
  rw [rescan_written hmode hbusy hwritten hscan]
  simp only [PersistedLive, hwired, Bool.false_eq_true, false_and, imp_false, not_not]
  by_cases h0 : dev.scanner.lastHotHz = 0
  · rw [if_neg (not_not.mpr h0)]
    exact ⟨fun _ => .inl h0, fun _ => rfl⟩
  · rw [if_pos h0]
    exact ⟨.inr, fun h => h.resolve_left h0⟩

theorem wired_iff {dev : Device} {air : Air} (hmode : dev.gainMode = .manual)
    (hbusy : dev.autotuneBusy = false) (hwritten : air.written = true)
    (hwired : dev.scanner.dspWired = true) :
    ((autotuneRunLoRescan A dev air).loFreqHz ≠ dev.loFreqHz →
      PersistedLive A air (autotuneRunLoRescan A dev air)) ↔
      ∀ hot, FirstMax (score A air.heard) scanCenters hot → hot = dev.loFreqHz ∨
        (∃ c ∈ scanCenters, Live air.heard c) ∧
        (air.parked = true ∨ (hopped air.heard scanCenters).getLast? = some hot) := by
  obtain ⟨hot,sc,hfirst,hscan,hsc,hlast,hcur⟩ := scan_wired (A := A) dev.scanner air.parked hwired
  have hnz : hot ≠ 0 := by
    have hall : scanCenters.all (· != 0) = true := by decide +kernel
    exact bne_iff_ne.mp (all_eq_true.mp hall hot hfirst.mem)
  have honly : ∀ P : UInt32 → Prop,
      (∀ c, FirstMax (score A air.heard) scanCenters c → P c) ↔ P hot := fun P =>
    ⟨fun h => h hot hfirst, fun h c hc => hfirst.unique hc ▸ h⟩
  have hpersist : PersistedLive A air { dev with scanner := sc, loFreqHz := hot } ↔
      (∃ c ∈ scanCenters, Live air.heard c) ∧ sc.curHz = hot := by
    constructor
    · rintro ⟨-,c,hc,rfl,hlive,-,hon⟩
      exact ⟨⟨_, hc, hlive⟩, hon⟩
    · rintro ⟨hlive,hon⟩
      exact ⟨hsc, hot, hfirst.mem, rfl, (live_of_firstMax hfirst).mpr hlive,
        fun c hc => hfirst.le hc, hon⟩
  rw [rescan_written hmode hbusy hwritten hscan, hlast, if_pos hnz, hpersist, honly,
    ← or_iff_not_imp_left, hcur]
  refine or_congr_right (and_congr_right fun hlive => ?_)
  cases air.parked with
  | true => simp
  | false => simpa using hopped_getLast hlive

/-- The rescan keeps the persisted LO measured and live exactly when it is safe. -/
theorem lo_rescan_persists_live_iff (A : RateArith K) (dev : Device) (air : Air) :
    ((autotuneRunLoRescan A dev air).loFreqHz ≠ dev.loFreqHz →
      PersistedLive A air (autotuneRunLoRescan A dev air)) ↔ RescanSafe A dev air := by
  by_cases hrun : dev.gainMode = .manual ∧ dev.autotuneBusy = false ∧ air.written = true
  · obtain ⟨hmode,hbusy,hwritten⟩ := hrun
    simp only [RescanSafe, hmode, hbusy, hwritten, forall_const]
    cases hwired : dev.scanner.dspWired with
    | false =>
      rw [if_neg (by decide)]
      exact unwired_iff hmode hbusy hwritten hwired
    | true =>
      rw [if_pos rfl]
      exact wired_iff hmode hbusy hwritten hwired
  · constructor
    · exact fun _ hmode hbusy hwritten => absurd ⟨hmode, hbusy, hwritten⟩ hrun
    · exact fun _ hchanged => absurd (rescan_unwritten dev air hrun) hchanged

end

theorem toNat_pos {n : UInt32} (h : n ≠ 0) : 0 < n.toNat :=
  Nat.pos_of_ne_zero fun hz => h (UInt32.toNat_inj.mp hz)

def exactRates : RateArith ℚ where
  zero := 0
  rate bursts dwellMs := bursts.toNat*1000/dwellMs.toNat
  weigh r := r/4
  rate_zero _ _ := by simp
  rate_pos bursts dwellMs hb hd := by
    have hb' := toNat_pos hb
    have hd' := toNat_pos hd
    positivity
  weigh_zero := by simp
  weigh_rate_pos bursts dwellMs hb hd := by
    have hb' := toNat_pos hb
    have hd' := toNat_pos hd
    positivity

def tunedDevice : Device := ⟨.manual, 1620500000, false, ⟨true, [], 0, 1620500000⟩⟩

def quietAir : Air := ⟨fun _ => some ⟨0, 0⟩, true, true⟩

/-- The quiet sweep replaces the LO by the first center of the grid. -/
theorem quiet_sweep_replaces_lo :
    (autotuneRunLoRescan exactRates tunedDevice quietAir).loFreqHz = 1618000000 ∧
    ¬ ((autotuneRunLoRescan exactRates tunedDevice quietAir).loFreqHz ≠ tunedDevice.loFreqHz →
      PersistedLive exactRates quietAir (autotuneRunLoRescan exactRates tunedDevice quietAir)) := by
  have hlo : (autotuneRunLoRescan exactRates tunedDevice quietAir).loFreqHz = 1618000000 := by
    decide +kernel
  refine ⟨hlo, fun h => ?_⟩
  obtain ⟨-,c,-,-,⟨d,hd,hne⟩,-⟩ := h (by rw [hlo]; decide)
  cases hd
  exact hne rfl

end IridiumAcars.LoRescan
