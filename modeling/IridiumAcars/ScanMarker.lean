import IridiumAcars.AppConfig
import IridiumAcars.LoRescan
import IridiumAcars.BandHealth

/-! The marker of an RF action in progress, `s_scan_type` of `autotune.c`, in serial runs. -/
namespace IridiumAcars.ScanMarker
open Runs LoRescan AppConfig List

def autotuneR828dGains : List Int :=
  [0, 9, 14, 27, 37, 77, 87, 125, 144, 157, 166, 197, 207, 229, 254, 280, 297, 328, 338, 364,
    372, 386, 402, 421, 434, 439, 445, 480, 496]

def autotuneR828dN : Nat := 29
def scanSurveySweeps : Nat := 10

/-- The sampling loop of `autotune_build_gain_set`, with the room left in `out`. -/
def strided (hi stride : Nat) : Nat → Nat → List Int
  | 0, _ => []
  | room+1, i =>
    if i ≤ hi then autotuneR828dGains.getD i 0::strided hi stride room (i+stride) else []

def autotuneBuildGainSet (minDbx10 maxDbx10 : Int) (stride cap : Nat) : List Int :=
  let hits := (List.range autotuneR828dN).filter fun i =>
    decide (minDbx10 ≤ autotuneR828dGains.getD i 0) &&
      decide (autotuneR828dGains.getD i 0 ≤ maxDbx10)
  match hits.head?, hits.getLast? with
  | some lo, some hi =>
    let top := autotuneR828dGains.getD hi 0
    let out := strided hi (max stride 1) cap lo
    if out.length < cap ∧ out.getLast? ≠ some top then out++[top] else out
  | _, _ => []

/-- The index of the greatest count, the first on a tie; `none` is the -1 return. -/
def autotunePickBest (decoded : List Int) : Option Nat :=
  if decoded = [] then none
  else some ((List.range decoded.length).foldl
    (fun best i => if decoded.getD i 0 > decoded.getD best 0 then i else best) 0)

structure Config where
  gainMode : GainMode
  band : Band
  loFreqHz : UInt32
  gainDbX10 : Int
  autotuneIraLoHz : UInt32
  autotuneGainMinDbx10 : Int
  autotuneGainMaxDbx10 : Int
  autotuneGainStride : Nat
  bandResurveyAuto : Bool

def Config.gains (c : Config) : List Int :=
  autotuneBuildGainSet c.autotuneGainMinDbx10 c.autotuneGainMaxDbx10 c.autotuneGainStride
    autotuneR828dN

structure Device where
  config : Config
  scanner : Scanner
  tunerGainDbx10 : Int
  autotuneBusy : Bool
  scanType : Nat
  scanGainDbx10 : Int
  decodeRunning : Bool
  surveyRunning : Bool
  bhBusy : Bool
  bh : BandHealth.Device

def boot (config : Config) (scanner : Scanner) (gain : Int) (nvs : Option BandHealth.BhPersist) :
    Device :=
  ⟨config, scanner, gain, false, 0, 0, false, false, false, BandHealth.bandHealthInit nvs⟩

namespace Device

def scanBegin (d : Device) (type : Nat) : Device := { d with scanType := type }

def scanEnd (d : Device) : Device := { d with scanGainDbx10 := 0, scanType := 0 }

def scannerHop (d : Device) (hz : UInt32) (retuned : Bool) : Device :=
  { d with scanner := LoRescan.scannerHop d.scanner hz retuned }

/-- `class_driver_set_gain_quiesced`, by what the pump task reports. -/
def setGainQuiesced (d : Device) (g : Int) (ok : Bool) : Device :=
  if 0 ≤ g ∧ ok then { d with tunerGainDbx10 := g } else d

def savedGain (d : Device) : Int :=
  if d.tunerGainDbx10 < 0 then d.config.gainDbX10 else d.tunerGainDbx10

/-- `autotune_persist` of a gain, by whether its task could run and the write went through. -/
def persistGain (d : Device) (g : Int) (written : Bool) : Device :=
  if written then { d with config := { d.config with gainDbX10 := g } } else d

def persistLo (d : Device) (hz : UInt32) (written : Bool) : Device :=
  if written then { d with config := { d.config with loFreqHz := hz } } else d

end Device

def autotuneScanStatus (d : Device) : Nat := d.scanType

structure Trial where
  applied : Bool
  noise : ℚ
  decoded : Int

/-- What a gain calibration meets. The gains of a set are distinct. -/
structure GainCal where
  scratch : Bool
  iraHop : Bool
  trial : Int → Trial
  parkHop : Bool
  applied : Bool
  written : Bool

def Device.sweepGains (d : Device) (trial : Int → Trial) (gains : List Int) : Device :=
  gains.foldl (fun d g =>
    if (trial g).applied then { d with tunerGainDbx10 := g, scanGainDbx10 := g } else d) d

def noiseStd (trial : Int → Trial) (gains : List Int) : List (Int × ℚ) :=
  gains.map fun g => (g, if (trial g).applied then (trial g).noise else -1)

def lowerPlateau : Option ℚ → Int × ℚ → Option ℚ
  | none, x => if 0 < x.2 then some x.2 else none
  | some p, x => if 0 < x.2 ∧ x.2 < p then some x.2 else some p

/-- `FILL_KNEE_MULT` is 2, and doubling a float is exact. -/
def fillKnee (std : List (Int × ℚ)) : Option Int :=
  match std.foldl lowerPlateau none with
  | none => none
  | some p => (std.find? fun x => decide (0 < x.2) && decide (2*p ≤ x.2)).map Prod.fst

def autotuneRunFillGaincalLocked (d : Device) (o : GainCal) : Device :=
  let gains := d.config.gains
  if gains = [] then d
  else
    let saved := d.savedGain
    if !o.scratch then d
    else
      let d := (d.scanBegin 1).sweepGains o.trial gains
      match fillKnee (noiseStd o.trial gains) with
      | some g => ((d.setGainQuiesced g o.applied).persistGain g o.written).scanEnd
      | none => (d.setGainQuiesced saved o.applied).scanEnd

def bestGain (trial : Int → Trial) (gains : List Int) : Option Int :=
  let decoded := gains.map fun g => if (trial g).applied then (trial g).decoded else -1
  match autotunePickBest decoded with
  | some i => if decoded.getD i 0 > 0 then some (gains.getD i 0) else none
  | none => none

def autotuneRunManualLocked (d : Device) (o : GainCal) : Device :=
  if d.config.gainMode ≠ .manual then d
  else if d.config.band = .vdl2 then autotuneRunFillGaincalLocked d o
  else
    let savedLo := d.config.loFreqHz
    let saved := d.savedGain
    let gains := d.config.gains
    if gains = [] then d
    else
      let d := d.scanBegin 1
      -- This return comes after the marker is set.
      if !o.iraHop then d
      else
        let d := (d.scannerHop d.config.autotuneIraLoHz true).sweepGains o.trial gains
        let d := d.scannerHop savedLo o.parkHop
        match bestGain o.trial gains with
        | some g => ((d.setGainQuiesced g o.applied).persistGain g o.written).scanEnd
        | none => (d.setGainQuiesced saved o.applied).scanEnd

def autotuneRunManual (d : Device) (o : GainCal) : Device :=
  if d.autotuneBusy then d
  else { autotuneRunManualLocked { d with autotuneBusy := true } o with autotuneBusy := false }

section
variable {K : Type*} [LinearOrder K] (A : RateArith K)

structure Sweep where
  heard : Nat → UInt32 → Option DspDensity
  parked : Bool

/-- `scanner_survey` with its note to band health, which it reaches if it sweeps at all. -/
def Device.scannerSurvey (d : Device) (startHz stopHz stepHz dwellMs : UInt32) (nSweeps : Nat)
    (o : Sweep) : Device :=
  let sweeps := (List.range (max nSweeps 1)).map o.heard
  let centers := scannerEnumerateCenters startHz stopHz stepHz scannerMaxPositions
  { d with
    scanner := LoRescan.scannerSurvey A d.scanner startHz stopHz stepHz dwellMs sweeps o.parked
    bh := { d.bh with
      surveyDone := d.bh.surveyDone ||
        (d.scanner.dspWired && decide (centers ≠ []) && decide (2 ≤ nSweeps)) } }

def Device.surveyGrid (d : Device) (nSweeps : Nat) (o : Sweep) : Device :=
  d.scannerSurvey A scanStartHz scanStopHz scanStepHz scanDwellMs nSweeps o

def autotuneRunLoRescan (d : Device) (o : Sweep) (written : Bool) : Device :=
  if d.config.gainMode ≠ .manual then d
  else if d.autotuneBusy then d
  else
    let d := ({ d with autotuneBusy := true }.scanBegin 2).surveyGrid A 1 o
    let hot := d.scanner.lastHotHz
    let d := if hot ≠ 0 then d.persistLo hot written else d
    { d.scanEnd with autotuneBusy := false }

def scanTestTask (d : Device) (nSweeps : Nat) (o : Sweep) : Device :=
  ((d.scanBegin 2).surveyGrid A nSweeps o).scanEnd

def bhRunAutoSurvey (d : Device) (o : Sweep) : Device :=
  let d := ({ d with surveyRunning := true }.scanBegin 2).surveyGrid A scanSurveySweeps o
  { d.scanEnd with surveyRunning := false }

inductive Ending
  | noShortlist
  | aborted (visits : List UInt32) (parked : Bool)
  | placed (visits : List UInt32) (pick : UInt32) (parked : Bool)

def Device.visit (d : Device) (visits : List UInt32) : Device :=
  visits.foldl (fun d hz => d.scannerHop hz true) d

def Device.conclude (d : Device) (nvsLo : UInt32) : Ending → Device
  | .noShortlist => d
  | .aborted visits parked => (d.visit visits).scannerHop nvsLo parked
  | .placed visits pick parked => (d.visit visits).scannerHop pick parked

/-- `survey_task` up to its end. Every way out passes `finish`. -/
def surveyTask (d : Device) (o : Sweep) (e : Ending) : Device :=
  let nvsLo := d.config.loFreqHz
  let d := ((d.scanBegin 2).surveyGrid A scanSurveySweeps o).conclude nvsLo e
  { d.scanEnd with decodeRunning := false }

inductive Started
  | ok
  | alreadyRunning
  | scanInProgress
  | spawnFailed
  deriving DecidableEq

def decodeSurveyStart (d : Device) (created : Bool) : Device × Started :=
  if d.decodeRunning then (d, .alreadyRunning)
  else if autotuneScanStatus d ≠ 0 then ({ d with decodeRunning := false }, .scanInProgress)
  else if !created then ({ d with decodeRunning := false }, .spawnFailed)
  else ({ d with decodeRunning := true }, .ok)

def decodeSurvey (d : Device) (created : Bool) (o : Sweep) (e : Ending) : Device :=
  let r := decodeSurveyStart d created
  match r.2 with
  | .ok => surveyTask A r.1 o e
  | .alreadyRunning | .scanInProgress | .spawnFailed => r.1

def Device.hour (d : Device) (lwDa : UInt64) : BandHealth.Hour :=
  ⟨lwDa, d.decodeRunning, autotuneScanStatus d⟩

def bhTick (d : Device) (created : Bool) (lwDa : UInt64) (o : Sweep) : Device :=
  if d.bhBusy then d
  else if !created then { d with bhBusy := false }
  else
    let r := BandHealth.bhHourTask d.bh (d.hour lwDa)
    let d := { d with bhBusy := true, bh := r.1 }
    let d := if r.2.fire ∧ d.config.bandResurveyAuto then bhRunAutoSurvey A d o else d
    { d with bhBusy := false }

/-- Section 3 of `bh_hour_task` finds the band stale and puts it off for the marker. -/
def bhDefers (d : Device) (lwDa : UInt64) : Bool :=
  let s := d.bh.bookHour (d.hour lwDa)
  s.evaluate.2 && decide (s.cooldownH = 0) && decide (autotuneScanStatus d ≠ 0)

/-- The serial `scan` and `survey` take their own grid and set no marker. -/
inductive Action
  | gainCal (created : Bool) (o : GainCal)
  | loRescan (o : Sweep) (written : Bool)
  | scan (created : Bool) (nSweeps : Nat) (o : Sweep)
  | serialScan (startHz stopHz stepHz dwellMs : UInt32) (nSweeps : Nat) (o : Sweep)
  | decodeSurvey (created : Bool) (o : Sweep) (e : Ending)
  | tick (created : Bool) (lwDa : UInt64) (o : Sweep)
  | configure (config : Config)

def act (d : Device) : Action → Device
  | .gainCal created o => if created then autotuneRunManual d o else d
  | .loRescan o written => autotuneRunLoRescan A d o written
  | .scan created nSweeps o => if created then scanTestTask A d nSweeps o else d
  | .serialScan startHz stopHz stepHz dwellMs nSweeps o =>
    d.scannerSurvey A startHz stopHz stepHz dwellMs nSweeps o
  | .decodeSurvey created o e => decodeSurvey A d created o e
  | .tick created lwDa o => bhTick A d created lwDa o
  | .configure config => { d with config := config }

end

/-- No action is marked, so that the next one is neither refused nor put off. -/
structure Released (d : Device) : Prop where
  status : autotuneScanStatus d = 0
  busy : d.autotuneBusy = false
  admits : ∀ created, (decodeSurveyStart d created).2 ≠ .scanInProgress
  judges : ∀ lwDa, bhDefers d lwDa = false

/-- A gain calibration on Iridium whose hop to the reference LO fails. -/
def Leaks (d : Device) : Action → Prop
  | .gainCal created o => created = true ∧ d.autotuneBusy = false ∧ d.config.gainMode = .manual ∧
      d.config.band ≠ .vdl2 ∧ d.config.gains ≠ [] ∧ o.iraHop = false
  | _ => False

structure Keeps (d d' : Device) : Prop where
  busy : d'.autotuneBusy = d.autotuneBusy
  status : d.scanType = 0 → d'.scanType = 0

section
variable {d d' : Device}

theorem keeps_refl (d : Device) : Keeps d d := ⟨rfl, id⟩

theorem keeps_scanEnd (hbusy : d'.autotuneBusy = d.autotuneBusy) : Keeps d d'.scanEnd :=
  ⟨hbusy, fun _ => rfl⟩

@[simp] theorem busy_setGainQuiesced (g : Int) (ok : Bool) :
    (d.setGainQuiesced g ok).autotuneBusy = d.autotuneBusy := by
  unfold Device.setGainQuiesced
  split <;> rfl

@[simp] theorem busy_persistGain (g : Int) (written : Bool) :
    (d.persistGain g written).autotuneBusy = d.autotuneBusy := by
  unfold Device.persistGain
  split <;> rfl

@[simp] theorem busy_sweepGains (trial : Int → Trial) (gains : List Int) :
    (d.sweepGains trial gains).autotuneBusy = d.autotuneBusy := by
  unfold Device.sweepGains
  induction gains generalizing d with
  | nil => rfl
  | cons g gains ih =>
    rw [foldl_cons, ih]
    split <;> rfl

@[simp] theorem busy_visit (visits : List UInt32) :
    (d.visit visits).autotuneBusy = d.autotuneBusy := by
  unfold Device.visit
  induction visits generalizing d with
  | nil => rfl
  | cons hz visits ih =>
    rw [foldl_cons, ih]
    rfl

@[simp] theorem busy_conclude (nvsLo : UInt32) (e : Ending) :
    (d.conclude nvsLo e).autotuneBusy = d.autotuneBusy := by
  cases e with
  | noShortlist => rfl
  | aborted visits parked => exact busy_visit visits
  | placed visits pick parked => exact busy_visit visits

end

section
variable {d : Device}

theorem keeps_fillGaincal (o : GainCal) : Keeps d (autotuneRunFillGaincalLocked d o) := by
  unfold autotuneRunFillGaincalLocked
  dsimp only
  split_ifs with hempty hscratch
  · exact keeps_refl d
  · exact keeps_refl d
  · split <;> exact keeps_scanEnd (by simp [Device.scanBegin])

theorem keeps_manualLocked {o : GainCal} (h : ¬(d.config.gainMode = .manual ∧
    d.config.band ≠ .vdl2 ∧ d.config.gains ≠ [] ∧ o.iraHop = false)) :
    Keeps d (autotuneRunManualLocked d o) := by
  unfold autotuneRunManualLocked
  dsimp only
  split_ifs with hmode hband hempty hhop
  · exact keeps_refl d
  · exact keeps_fillGaincal o
  · exact keeps_refl d
  · exact absurd ⟨not_not.mp hmode, hband, hempty, by simpa using hhop⟩ h
  · split <;> exact keeps_scanEnd (by simp [Device.scannerHop, Device.scanBegin])

theorem manualLocked_leaks {o : GainCal} (hmode : d.config.gainMode = .manual)
    (hband : d.config.band ≠ .vdl2) (hgains : d.config.gains ≠ []) (hhop : o.iraHop = false) :
    (autotuneRunManualLocked d o).scanType = 1 := by
  unfold autotuneRunManualLocked
  rw [if_neg (not_not.mpr hmode), if_neg hband, if_neg hgains, if_pos (by simp [hhop])]
  rfl

theorem keeps_manual {o : GainCal} (h : ¬Leaks d (.gainCal true o)) :
    Keeps d (autotuneRunManual d o) := by
  unfold autotuneRunManual
  split_ifs with hbusy
  · exact keeps_refl d
  · have hfree : d.autotuneBusy = false := Bool.eq_false_iff.mpr hbusy
    have hlocked : Keeps { d with autotuneBusy := true }
        (autotuneRunManualLocked { d with autotuneBusy := true } o) :=
      keeps_manualLocked fun hleak => h ⟨rfl, hfree, hleak⟩
    exact ⟨hfree.symm, hlocked.status⟩

end

section
variable {K : Type*} [LinearOrder K] (A : RateArith K) {d : Device}

theorem keeps_loRescan (o : Sweep) (written : Bool) :
    Keeps d (autotuneRunLoRescan A d o written) := by
  unfold autotuneRunLoRescan
  split_ifs with hmode hbusy
  · exact keeps_refl d
  · exact keeps_refl d
  · exact ⟨(Bool.eq_false_iff.mpr hbusy).symm, fun _ => rfl⟩

theorem keeps_decodeSurvey (created : Bool) (o : Sweep) (e : Ending) :
    Keeps d (decodeSurvey A d created o e) := by
  unfold decodeSurvey decodeSurveyStart
  by_cases hrunning : d.decodeRunning = true
  · rw [if_pos hrunning]
    exact keeps_refl d
  rw [if_neg hrunning]
  by_cases hscan : autotuneScanStatus d ≠ 0
  · rw [if_pos hscan]
    exact ⟨rfl, id⟩
  · rw [if_neg hscan]
    cases created with
    | false => exact ⟨rfl, id⟩
    | true => exact ⟨busy_conclude _ e, fun _ => rfl⟩

theorem keeps_tick (created : Bool) (lwDa : UInt64) (o : Sweep) :
    Keeps d (bhTick A d created lwDa o) := by
  unfold bhTick
  split_ifs with hbusy hcreated
  · exact keeps_refl d
  · exact ⟨rfl, id⟩
  · dsimp only
    split
    · exact ⟨rfl, fun _ => rfl⟩
    · exact ⟨rfl, id⟩

theorem keeps_act {a : Action} (h : ¬Leaks d a) : Keeps d (act A d a) := by
  cases a with
  | gainCal created o =>
    cases created with
    | false => exact keeps_refl d
    | true => exact keeps_manual h
  | loRescan o written => exact keeps_loRescan A o written
  | scan created nSweeps o =>
    cases created with
    | false => exact keeps_refl d
    | true => exact keeps_scanEnd rfl
  | serialScan startHz stopHz stepHz dwellMs nSweeps o => exact ⟨rfl, id⟩
  | decodeSurvey created o e => exact keeps_decodeSurvey A created o e
  | tick created lwDa o => exact keeps_tick A created lwDa o
  | configure config => exact ⟨rfl, id⟩

theorem act_leaks {a : Action} (h : Leaks d a) : (act A d a).scanType = 1 := by
  cases a with
  | gainCal created o =>
    obtain ⟨rfl,hbusy,hmode,hband,hgains,hhop⟩ := h
    have hfree : ¬d.autotuneBusy = true := Bool.eq_false_iff.mp hbusy
    change (autotuneRunManual d o).scanType = 1
    rw [autotuneRunManual, if_neg hfree]
    exact manualLocked_leaks hmode hband hgains hhop
  | _ => exact h.elim

theorem released_of_clear (hstatus : d.scanType = 0) (hbusy : d.autotuneBusy = false) :
    Released d where
  status := hstatus
  busy := hbusy
  admits created := by
    have hclear : ¬autotuneScanStatus d ≠ 0 := not_not.mpr hstatus
    unfold decodeSurveyStart
    rw [if_neg hclear]
    cases d.decodeRunning <;> cases created <;> exact nofun
  judges lwDa := by
    have hclear : ¬autotuneScanStatus d ≠ 0 := not_not.mpr hstatus
    rw [bhDefers, decide_eq_false hclear, Bool.and_false]

theorem allSteps_of_released (acts : List Action) (d : Device)
    (h : ∀ before, before <+: acts → Released (before.foldl (act A) d)) :
    AllSteps (act A) (fun d a => ¬Leaks d a) d acts := by
  induction acts generalizing d with
  | nil => trivial
  | cons a acts ih =>
    have hfirst : ∀ before, before <+: acts → a::before <+: a::acts :=
      fun before hb => cons_prefix_cons.mpr ⟨rfl, hb⟩
    refine ⟨fun hleak => ?_, ih _ fun before hb => h (a::before) (hfirst before hb)⟩
    have hstatus : (act A d a).scanType = 0 := (h [a] (hfirst [] nil_prefix)).status
    rw [act_leaks A hleak] at hstatus
    cases hstatus

/-- Without the marker this is the rescan of the configured LO. -/
theorem loRescan_refines (o : Sweep) (written : Bool) :
    let d' := autotuneRunLoRescan A d o written
    (⟨d'.config.gainMode, d'.config.loFreqHz, d'.autotuneBusy, d'.scanner⟩ : LoRescan.Device) =
      LoRescan.autotuneRunLoRescan A
        ⟨d.config.gainMode, d.config.loFreqHz, d.autotuneBusy, d.scanner⟩
        ⟨o.heard 0, o.parked, written⟩ := by
  unfold autotuneRunLoRescan LoRescan.autotuneRunLoRescan
  by_cases hmode : d.config.gainMode ≠ .manual
  · simp only [if_pos hmode]
  by_cases hbusy : d.autotuneBusy = true
  · simp only [if_neg hmode, if_pos hbusy]
  have hfree : d.autotuneBusy = false := Bool.eq_false_iff.mpr hbusy
  have hone : (List.range (max 1 1)).map o.heard = [o.heard 0] := rfl
  simp only [if_neg hmode, hfree, Bool.false_eq_true, if_false, Device.surveyGrid,
    Device.scannerSurvey, Device.scanBegin, Device.scanEnd, Device.persistLo, scannerScan, hone]
  generalize LoRescan.scannerSurvey A d.scanner scanStartHz scanStopHz scanStepHz scanDwellMs
    [o.heard 0] o.parked = sc
  by_cases hhot : sc.lastHotHz ≠ 0
  · cases written <;> simp [hhot]
  · simp [hhot]

end

/-- The marker is released unless a gain calibration on Iridium fails its first hop. -/
theorem rf_marker_released_iff {K : Type*} [LinearOrder K] (A : RateArith K) (config : Config)
    (scanner : Scanner) (gain : Int) (nvs : Option BandHealth.BhPersist) (acts : List Action) :
    (∀ before, before <+: acts →
        Released (before.foldl (act A) (boot config scanner gain nvs))) ↔
      AllSteps (act A) (fun d a => ¬Leaks d a) (boot config scanner gain nvs) acts := by
  refine ⟨allSteps_of_released A acts _, ?_⟩
  rintro h before ⟨after,rfl⟩
  obtain ⟨hstatus,hbusy⟩ := h.front.invariant (fun d => d.scanType = 0 ∧ d.autotuneBusy = false)
    (fun d a hok hd => by
      have hkeeps := keeps_act A hok
      exact ⟨hkeeps.status hd.1, hkeeps.busy.trans hd.2⟩) ⟨rfl, rfl⟩
  exact released_of_clear hstatus hbusy

def staleBoot : Device :=
  boot ⟨.manual, .iridium, 1620500000, 297, 1626200000, 0, 496, 3, true⟩
    ⟨true, [], 0, 1620500000⟩ 297 (some ⟨BandHealth.bhMagic, 168, 0, 100, 0, 0, fun _ => 0⟩)

def failedIraHop : Action :=
  .gainCal true ⟨true, false, fun _ => ⟨true, 1, 1⟩, true, true, true⟩

theorem failed_ira_hop_keeps_marker :
    autotuneScanStatus (act exactRates staleBoot failedIraHop) = 1 ∧
      (decodeSurveyStart (act exactRates staleBoot failedIraHop) true).2 = .scanInProgress ∧
      bhDefers (act exactRates staleBoot failedIraHop) 0 = true ∧
      ¬Released (act exactRates staleBoot failedIraHop) := by
  have hstatus : autotuneScanStatus (act exactRates staleBoot failedIraHop) = 1 := by
    decide +kernel
  refine ⟨hstatus, by decide +kernel, by decide +kernel, fun h => ?_⟩
  exact absurd (hstatus.symm.trans h.status) (by decide)

end IridiumAcars.ScanMarker
