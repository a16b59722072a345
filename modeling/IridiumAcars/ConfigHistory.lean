import Mathlib.Data.List.Nodup
import IridiumAcars.AppConfig

/-! What the next boot finds, stated over the history of setter calls and reboots alone. -/
namespace IridiumAcars.AppConfig
open List Function

inductive Event
  | set (f : GlobalField) (v : f.row.encoding.Arg)
  | setBand (g : BandField) (v : g.encoding.Arg)
  | reboot

def step (d : Device) : Event → Device
  | .set f v => d.setField f v
  | .setBand g v => d.setFieldBand g v
  | .reboot => appConfigInit d.nvs

def run (es : List Event) : Device := es.foldl step (appConfigInit .empty)

/-- All that a key can stand for. A legacy key is never written. -/
inductive Entry
  | global (f : GlobalField)
  | tunable (b : Band) (g : BandField)
  | legacy (g : BandField)
  deriving DecidableEq

namespace Entry

def key : Entry → String
  | .global f => f.row.key
  | .tunable b g => bandKey b g.base
  | .legacy g => g.base

def Arg : Entry → Type
  | .global f => f.row.encoding.Arg
  | .tunable _ g => g.encoding.Arg
  | .legacy _ => Empty

def encode : (i : Entry) → i.Arg → Val
  | .global f, v => f.row.encoding.encode v
  | .tunable _ g, v => g.encoding.encode v
  | .legacy _, v => Empty.elim v

end Entry

structure Memory where
  last : (i : Entry) → Option i.Arg
  sinceBoot : (f : GlobalField) → Option f.row.encoding.Arg

def Memory.blank : Memory := ⟨fun _ => none, fun _ => none⟩

def Memory.active (m : Memory) : Band :=
  match m.last (.global .band) with
  | some v => Band.ofByte v
  | none => .iridium

def Memory.recall (m : Memory) (b : Band) (g : BandField) : g.encoding.Field :=
  match m.last (.tunable b g) with
  | some v => g.encoding.keep v
  | none => g.default b

def Memory.note (m : Memory) : Event → Memory
  | .set f v =>
    ⟨update m.last (.global f) (some v), update m.sinceBoot f (some v)⟩
  | .setBand g v => { m with last := update m.last (.tunable m.active g) (some v) }
  | .reboot => { m with sinceBoot := fun _ => none }

def remember (es : List Event) : Memory := es.foldl Memory.note .blank

structure Survives (es : List Event) : Prop where
  global : ∀ f, (step (run es) .reboot).cfg.global f = (run es).cfg.global f
  tunable : ∀ g, (step (run es) .reboot).cfg.tunable g =
    (remember es).recall (step (run es) .reboot).cfg.band g

/-- The strings last set fit their buffers, and the active band's gain mode is one of the three. -/
structure Storable (es : List Event) : Prop where
  global : ∀ f v, (remember es).sinceBoot f = some v → f.row.encoding.Fits v
  tunable : ∀ g v, (remember es).last (.tunable (remember es).active g) = some v →
    g.encoding.Fits v

def GlobalField.all : List GlobalField :=
  [.band, .sampleRateHz, .bestEffortDecode, .uartLog, .chase2Decode, .coalesceMinBursts, .dcmaskLo,
    .dcmaskHi, .autotuneGainDwellS, .autotuneIraLoHz, .autotuneGainMinDbx10, .autotuneGainMaxDbx10,
    .autotuneGainStride, .autotuneOnBoot, .autotuneGainIntervalS, .autotuneLoIntervalS,
    .bandResurveyAuto, .stationId, .wifiSsid, .wifiPsk, .outHost, .outPort, .iotLogHost, .otaUrl,
    .afOn, .afHost, .afPort, .afId]

def BandField.all : List BandField :=
  [.loFreqHz, .gainMode, .gainDbX10, .biasTee, .taggerThresholdDb]

def Entry.all : List Entry :=
  GlobalField.all.map .global++(BandField.all.map (.tunable .iridium)++
    (BandField.all.map (.tunable .vdl2)++BandField.all.map .legacy))

theorem GlobalField.mem_all (f : GlobalField) : f ∈ GlobalField.all := by
  cases f <;> decide

theorem BandField.mem_all (g : BandField) : g ∈ BandField.all := by
  cases g <;> decide

theorem Entry.mem_all (i : Entry) : i ∈ Entry.all := by
  rw [Entry.all, mem_append, mem_append, mem_append]
  cases i with
  | global f => exact .inl (mem_map_of_mem f.mem_all)
  | tunable b g =>
    cases b with
    | iridium => exact .inr (.inl (mem_map_of_mem g.mem_all))
    | vdl2 => exact .inr (.inr (.inl (mem_map_of_mem g.mem_all)))
  | legacy g => exact .inr (.inr (.inr (mem_map_of_mem g.mem_all)))

theorem Entry.nodup_keys : (Entry.all.map Entry.key).Nodup := by
  decide +kernel

theorem Entry.key_injective : Function.Injective Entry.key :=
  fun i j h => inj_on_of_nodup_map Entry.nodup_keys i.mem_all j.mem_all h

structure Inv (d : Device) (m : Memory) : Prop where
  stored : ∀ i, d.nvs i.key = (m.last i).map i.encode
  since : ∀ f v, m.sinceBoot f = some v → m.last (.global f) = some v
  kept : ∀ f v, m.sinceBoot f = some v → d.cfg.global f = f.row.encoding.keep v
  loaded : ∀ f, m.sinceBoot f = none → d.cfg.global f = loadGlobal d.nvs f

section
variable {d : Device} {m : Memory} {h : Nvs}

theorem migrate_of_absent (t : NvsType) (b : Band) {base : String} (habsent : h base = none) :
    migrate t b base h = h := by
  have hget : h.get t base = none := by rw [Nvs.get, habsent]; rfl
  rw [migrate, hget]
  cases h.get t (bandKey b base) <;> rfl

theorem migrateLegacyBandKeys_of_absent (b : Band) (habsent : ∀ g : BandField, h g.base = none) :
    migrateLegacyBandKeys b h = h := by
  have hlo : h "lo_hz" = none := habsent .loFreqHz
  have hmode : h "gain_mode" = none := habsent .gainMode
  have hgain : h "gain_dbx10" = none := habsent .gainDbX10
  have hbias : h "bias_tee" = none := habsent .biasTee
  have hthr : h "tag_thr" = none := habsent .taggerThresholdDb
  rw [migrateLegacyBandKeys, migrate_of_absent .u32 b hlo, migrate_of_absent .u8 b hmode,
    migrate_of_absent .i16 b hgain, migrate_of_absent .u8 b hbias, migrate_of_absent .u32 b hthr]

theorem appConfigInit_of_absent (habsent : ∀ g : BandField, h g.base = none) :
    appConfigInit h = ⟨⟨loadGlobal h, loadTunable h (loadGlobal h .band)⟩, h⟩ := by
  rw [appConfigInit, migrateLegacyBandKeys_of_absent _ habsent]

theorem Inv.reboot_eq (hinv : Inv d m) :
    appConfigInit d.nvs =
      ⟨⟨loadGlobal d.nvs, loadTunable d.nvs (loadGlobal d.nvs .band)⟩, d.nvs⟩ := by
  refine appConfigInit_of_absent fun g => ?_
  have hstored := hinv.stored (.legacy g)
  cases hlast : m.last (.legacy g) with
  | none =>
    rwa [hlast] at hstored
  | some v => cases v

theorem Inv.nvs_global (hinv : Inv d m) {f : GlobalField} {v : f.row.encoding.Arg}
    (hlast : m.last (.global f) = some v) : d.nvs f.row.key = some (f.row.encoding.encode v) := by
  have hstored := hinv.stored (.global f)
  rwa [hlast] at hstored

theorem Inv.loadGlobal_band (hinv : Inv d m) : loadGlobal d.nvs .band = m.active := by
  have hstored := hinv.stored (.global .band)
  cases hlast : m.last (.global .band) with
  | none =>
    rw [hlast] at hstored
    rw [Memory.active, hlast, loadGlobal]
    exact congrArg (fun x => Encoding.read .band x .iridium .iridium) hstored
  | some v =>
    rw [Memory.active, hlast, loadGlobal, hinv.nvs_global hlast]
    exact Encoding.read_encode .band v _ _ trivial

theorem Inv.band (hinv : Inv d m) : d.cfg.band = m.active := by
  cases hsince : m.sinceBoot .band with
  | none => exact (hinv.loaded .band hsince).trans hinv.loadGlobal_band
  | some v =>
    rw [Memory.active, hinv.since .band v hsince]
    exact hinv.kept .band v hsince

end

section
variable {d : Device} {m : Memory}

theorem stored_set {h : Nvs} {last : (i : Entry) → Option i.Arg}
    (hs : ∀ i, h i.key = (last i).map i.encode) (i : Entry) (v : i.Arg) (j : Entry) :
    h.set i.key (i.encode v) j.key = (update last i (some v) j).map j.encode := by
  by_cases hj : j = i
  · subst hj
    rw [update_self]
    exact update_self ..
  · rw [update_of_ne hj]
    exact (update_of_ne (Entry.key_injective.ne hj) _ _).trans (hs j)

theorem inv_first_boot : Inv (appConfigInit .empty) .blank := by
  rw [appConfigInit_of_absent fun _ => rfl]
  exact ⟨fun _ => rfl, nofun, nofun, fun _ _ => rfl⟩

theorem loadGlobal_set_of_ne (h : Nvs) {f : GlobalField} {k : String} (v : Val)
    (hk : f.row.key ≠ k) : loadGlobal (h.set k v) f = loadGlobal h f :=
  congrArg (fun x => f.row.encoding.read x _ _) (update_of_ne hk _ _)

section
variable {f g : GlobalField} {v : f.row.encoding.Arg}

theorem note_set_sinceBoot_self : (m.note (.set f v)).sinceBoot f = some v :=
  update_self ..

theorem note_set_sinceBoot_of_ne (hg : g ≠ f) :
    (m.note (.set f v)).sinceBoot g = m.sinceBoot g :=
  update_of_ne hg ..

theorem note_set_last_self : (m.note (.set f v)).last (.global f) = some v :=
  update_self ..

theorem note_set_last_of_ne (hg : g ≠ f) :
    (m.note (.set f v)).last (.global g) = m.last (.global g) :=
  update_of_ne (fun he => hg (Entry.global.inj he)) ..

theorem setField_global_self : (d.setField f v).cfg.global f = f.row.encoding.keep v :=
  update_self ..

theorem setField_global_of_ne (hg : g ≠ f) : (d.setField f v).cfg.global g = d.cfg.global g :=
  update_of_ne hg ..

end

theorem Inv.set (hinv : Inv d m) (f : GlobalField) (v : f.row.encoding.Arg) :
    Inv (d.setField f v) (m.note (.set f v)) where
  stored := stored_set hinv.stored (.global f) v
  since g w hw := by
    by_cases hg : g = f
    · subst hg
      rw [note_set_sinceBoot_self] at hw
      rwa [note_set_last_self]
    · rw [note_set_sinceBoot_of_ne hg] at hw
      rw [note_set_last_of_ne hg]
      exact hinv.since g w hw
  kept g w hw := by
    by_cases hg : g = f
    · subst hg
      rw [note_set_sinceBoot_self] at hw
      rw [setField_global_self, Option.some.inj hw]
    · rw [note_set_sinceBoot_of_ne hg] at hw
      rw [setField_global_of_ne hg]
      exact hinv.kept g w hw
  loaded g hnone := by
    have hg : g ≠ f := by
      rintro rfl
      rw [note_set_sinceBoot_self] at hnone
      cases hnone
    have hkey : g.row.key ≠ f.row.key := fun he => hg (Entry.global.inj (Entry.key_injective he))
    rw [note_set_sinceBoot_of_ne hg] at hnone
    rw [setField_global_of_ne hg, hinv.loaded g hnone]
    exact (loadGlobal_set_of_ne _ _ hkey).symm

theorem note_setBand_last_global (f : GlobalField) (g : BandField) (v : g.encoding.Arg) :
    (m.note (.setBand g v)).last (.global f) = m.last (.global f) :=
  have hne : Entry.global f ≠ .tunable m.active g := nofun
  update_of_ne hne (some v) m.last

theorem Inv.setBand (hinv : Inv d m) (g : BandField) (v : g.encoding.Arg) :
    Inv (d.setFieldBand g v) (m.note (.setBand g v)) where
  stored := by
    have hset := stored_set hinv.stored (.tunable m.active g) v
    have hkey : Entry.key (.tunable m.active g) = bandKey d.cfg.band g.base := by
      rw [hinv.band]
      rfl
    rwa [hkey] at hset
  since f w hw := by
    rw [note_setBand_last_global]
    exact hinv.since f w hw
  kept := hinv.kept
  loaded f hnone := by
    have hne : Entry.global f ≠ .tunable d.cfg.band g := nofun
    have hkey : f.row.key ≠ bandKey d.cfg.band g.base := Entry.key_injective.ne hne
    exact (hinv.loaded f hnone).trans (loadGlobal_set_of_ne _ _ hkey).symm

theorem Inv.reboot (hinv : Inv d m) : Inv (appConfigInit d.nvs) (m.note .reboot) := by
  rw [hinv.reboot_eq]
  exact ⟨hinv.stored, nofun, nofun, fun _ _ => rfl⟩

theorem Inv.step (hinv : Inv d m) (e : Event) : Inv (step d e) (m.note e) := by
  cases e with
  | set f v => exact hinv.set f v
  | setBand g v => exact hinv.setBand g v
  | reboot => exact hinv.reboot

theorem inv_foldl (hinv : Inv d m) (es : List Event) :
    Inv (es.foldl step d) (es.foldl Memory.note m) := by
  induction es generalizing d m with
  | nil => exact hinv
  | cons e es ih => exact ih (hinv.step e)

theorem inv_run (es : List Event) : Inv (run es) (remember es) := inv_foldl inv_first_boot es

theorem GlobalField.roomy_default (f : GlobalField) : f.row.encoding.Roomy f.row.default := by
  cases f
  case stationId | wifiSsid | wifiPsk | outHost | iotLogHost | otaUrl | afHost | afId =>
    change _ < _
    decide
  all_goals trivial

theorem BandField.roomy_default (b : Band) (g : BandField) : g.encoding.Roomy (g.default b) := by
  cases g <;> trivial

theorem BandField.read_none (b : Band) (g : BandField) :
    g.encoding.read none (g.default .iridium) (g.default b) = g.default b := by
  cases g <;> rfl

theorem Inv.global_iff (hinv : Inv d m) (f : GlobalField) :
    loadGlobal d.nvs f = d.cfg.global f ↔
      ∀ v, m.sinceBoot f = some v → f.row.encoding.Fits v := by
  cases hsince : m.sinceBoot f with
  | none => simp [hinv.loaded f hsince]
  | some v =>
    rw [hinv.kept f v hsince, loadGlobal, hinv.nvs_global (hinv.since f v hsince),
      Encoding.read_encode_iff f.roomy_default]
    simp

theorem Inv.tunable_iff (hinv : Inv d m) (b : Band) (g : BandField) :
    loadTunable d.nvs b g = m.recall b g ↔
      ∀ v, m.last (.tunable b g) = some v → g.encoding.Fits v := by
  have hstored := hinv.stored (.tunable b g)
  cases hlast : m.last (.tunable b g) with
  | none =>
    rw [hlast] at hstored
    have hload : loadTunable d.nvs b g = g.default b :=
      (congrArg (fun x => g.encoding.read x _ _) hstored).trans (g.read_none b)
    simp [hload, Memory.recall, hlast]
  | some v =>
    rw [hlast] at hstored
    have hload : loadTunable d.nvs b g =
        g.encoding.read (some (g.encoding.encode v)) (g.default .iridium) (g.default b) :=
      congrArg (fun x => g.encoding.read x _ _) hstored
    rw [hload, Memory.recall, hlast]
    refine (Encoding.read_encode_iff (g.roomy_default .iridium)).trans
      ⟨fun hv w hw => ?_, fun h => ?_⟩
    · cases hw
      exact hv
    · exact h v rfl

/-- A reboot brings back every field if and only if what was set can be stored. -/
theorem config_survives_reboot_iff (es : List Event) : Survives es ↔ Storable es := by
  have hinv := inv_run es
  have hboot : step (run es) .reboot = _ := hinv.reboot_eq
  have hband : (step (run es) .reboot).cfg.band = (remember es).active := by
    rw [hboot]
    exact hinv.loadGlobal_band
  constructor
  · intro h
    refine ⟨fun f => (hinv.global_iff f).mp ?_, fun g => (hinv.tunable_iff _ g).mp ?_⟩
    · have hf := h.global f
      rwa [hboot] at hf
    · have hg := h.tunable g
      rw [hband, hboot] at hg
      rw [← hinv.loadGlobal_band] at hg ⊢
      exact hg
  · intro h
    refine ⟨fun f => ?_, fun g => ?_⟩
    · rw [hboot]
      exact (hinv.global_iff f).mpr (h.global f)
    · have hg := (hinv.tunable_iff _ g).mpr (h.tunable g)
      rw [hband, hboot]
      rw [← hinv.loadGlobal_band] at hg ⊢
      exact hg

end

/-- A station name of 32 bytes comes back as the default, and a gain mode of 3 as 0. -/
theorem long_string_and_gain_mode_lost :
    ¬Survives [.set .stationId (List.replicate 32 65)] ∧
      ¬Survives [.setBand .gainMode (3 : UInt32)] := by
  constructor
  · intro h
    exact absurd (h.global .stationId) (by decide)
  · intro h
    exact absurd (h.tunable .gainMode) (by decide)

end IridiumAcars.AppConfig
