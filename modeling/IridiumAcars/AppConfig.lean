import IridiumAcars.Lib.LittleEndian

/-! The configuration of `app_config.c`: setters that commit one NVS key each, and the loader of
every boot. -/
namespace IridiumAcars.AppConfig
open LittleEndian Function

/-- Typed values of the store. A float is stored as the `u32` of its bits. -/
inductive Val
  | u8 (v : UInt8)
  | i16 (v : Int16)
  | u32 (v : UInt32)
  | str (s : List UInt8)
  | blob (b : List UInt8)
  deriving DecidableEq

inductive NvsType
  | u8
  | i16
  | u32
  | str
  | blob
  deriving DecidableEq

def Val.type : Val → NvsType
  | .u8 _ => .u8
  | .i16 _ => .i16
  | .u32 _ => .u32
  | .str _ => .str
  | .blob _ => .blob

def Nvs := String → Option Val

def Nvs.empty : Nvs := fun _ => none

def Nvs.get (h : Nvs) (t : NvsType) (k : String) : Option Val :=
  (h k).filter fun v => decide (v.type = t)

def Nvs.set (h : Nvs) (k : String) (v : Val) : Nvs := update h k (some v)

def Nvs.eraseKey (h : Nvs) (k : String) : Nvs := update h k none

inductive Band
  | iridium
  | vdl2
  deriving DecidableEq

/-- The clamp of the setter and of the loader: a byte out of range is Iridium. -/
def Band.ofByte (v : UInt8) : Band := if v = 1 then .vdl2 else .iridium

def Band.toByte : Band → UInt8
  | .iridium => 0
  | .vdl2 => 1

inductive UartLogMode
  | off
  | on
  | auto
  deriving DecidableEq

def UartLogMode.ofByte (v : UInt8) : UartLogMode :=
  if v = 0 then .off else if v = 1 then .on else .auto

def UartLogMode.toByte : UartLogMode → UInt8
  | .off => 0
  | .on => 1
  | .auto => 2

def gainModeTunerAgc : UInt32 := 0
def gainModeSoftwareAgc : UInt8 := 2

def Buffer (cap : Nat) := { s : List UInt8 // s.length ≤ cap-1 }

instance (cap : Nat) : DecidableEq (Buffer cap) := inferInstanceAs (DecidableEq (Subtype _))

def Buffer.copy (cap : Nat) (src : List UInt8) : Buffer cap :=
  ⟨src.take (cap-1), List.length_take_le _ _⟩

/-- How a field is stored: `f32` a float by its bits, `port` a 16-bit blob, `gainMode` an `enum`. -/
inductive Encoding
  | u8
  | u32
  | i16
  | bool
  | f32
  | port
  | band
  | uartLog
  | gainMode
  | str (cap : Nat)

namespace Encoding

def Arg : Encoding → Type
  | .u8 | .band | .uartLog => UInt8
  | .u32 | .f32 | .gainMode => UInt32
  | .i16 => Int16
  | .bool => Bool
  | .port => UInt16
  | .str _ => List UInt8

def Field : Encoding → Type
  | .u8 => UInt8
  | .u32 | .f32 | .gainMode => UInt32
  | .i16 => Int16
  | .bool => Bool
  | .port => UInt16
  | .band => Band
  | .uartLog => UartLogMode
  | .str cap => Buffer cap

instance : (e : Encoding) → DecidableEq e.Field
  | .u8 => inferInstanceAs (DecidableEq UInt8)
  | .u32 | .f32 | .gainMode => inferInstanceAs (DecidableEq UInt32)
  | .i16 => inferInstanceAs (DecidableEq Int16)
  | .bool => inferInstanceAs (DecidableEq Bool)
  | .port => inferInstanceAs (DecidableEq UInt16)
  | .band => inferInstanceAs (DecidableEq Band)
  | .uartLog => inferInstanceAs (DecidableEq UartLogMode)
  | .str cap => inferInstanceAs (DecidableEq (Buffer cap))

/-- What the setter keeps. Only a string is cut; only the band and the log mode are clamped. -/
def keep : (e : Encoding) → e.Arg → e.Field
  | .u8, v => v
  | .u32, v => v
  | .i16, v => v
  | .bool, v => v
  | .f32, v => v
  | .port, v => v
  | .band, v => Band.ofByte v
  | .uartLog, v => UartLogMode.ofByte v
  | .gainMode, v => v
  | .str cap, s => Buffer.copy cap s

/-- What the setter commits. A string is committed as it was given. -/
def encode : (e : Encoding) → e.Arg → Val
  | .u8, v => .u8 v
  | .u32, v => .u32 v
  | .i16, v => .i16 v
  | .bool, v => .u8 (Bool.toUInt8 v)
  | .f32, v => .u32 v
  | .port, v => .blob (leBytes 2 v.toNat)
  | .band, v => .u8 (Band.ofByte v).toByte
  | .uartLog, v => .u8 (UartLogMode.ofByte v).toByte
  | .gainMode, v => .u8 v.toUInt8
  | .str _, s => .str s

/-- What the loader makes of the stored value; a text that does not fit leaves `buf` alone. -/
def read : (e : Encoding) → (stored : Option Val) → (buf dflt : e.Field) → e.Field
  | .u8, stored, _, dflt => match stored with
    | some (.u8 v) => v
    | _ => dflt
  | .u32, stored, _, dflt => match stored with
    | some (.u32 v) => v
    | _ => dflt
  | .i16, stored, _, dflt => match stored with
    | some (.i16 v) => v
    | _ => dflt
  | .bool, stored, _, dflt => match stored with
    | some (.u8 v) => decide (v ≠ 0)
    | _ => dflt
  | .f32, stored, _, dflt => match stored with
    | some (.u32 v) => v
    | _ => dflt
  | .port, stored, _, _ => match stored with
    | some (.blob b) => if b.length = 2 then UInt16.ofNat (ofLe b) else (0 : UInt16)
    | _ => (0 : UInt16)
  | .band, stored, _, dflt => match stored with
    | some (.u8 v) => Band.ofByte v
    | _ => dflt
  | .uartLog, stored, _, dflt => match stored with
    | some (.u8 v) => UartLogMode.ofByte v
    | _ => dflt
  | .gainMode, stored, _, dflt => match stored with
    | some (.u8 v) => if gainModeSoftwareAgc < v then gainModeTunerAgc else v.toUInt32
    | _ => dflt
  | .str cap, stored, buf, dflt => match stored with
    | some (.str s) => if s.length+1 ≤ cap then Buffer.copy cap s else buf
    | _ => dflt

def Fits : (e : Encoding) → e.Arg → Prop
  | .str cap, s => List.length s < cap
  | .gainMode, v => UInt32.toNat v ≤ 2
  | .u8, _ | .u32, _ | .i16, _ | .bool, _ | .f32, _ | .port, _ | .band, _ | .uartLog, _ => True

def Roomy : (e : Encoding) → e.Field → Prop
  | .str cap, buf => List.length buf.1+1 < cap
  | .u8, _ | .u32, _ | .i16, _ | .bool, _ | .f32, _ | .port, _ | .band, _ | .uartLog, _
  | .gainMode, _ => True

theorem ofByte_toByte (b : Band) : Band.ofByte b.toByte = b := by cases b <;> rfl

theorem uartLog_ofByte_toByte (m : UartLogMode) : UartLogMode.ofByte m.toByte = m := by
  cases m <;> rfl

theorem port_ofLe (v : UInt16) : UInt16.ofNat (ofLe (leBytes 2 v.toNat)) = v := by
  rw [ofLe_leBytes 2 v.toNat v.toNat_lt]
  exact UInt16.ofNat_toNat

theorem gainMode_byte (v : UInt32) (hn : v.toNat ≤ 2) :
    (if gainModeSoftwareAgc < v.toUInt8 then gainModeTunerAgc else v.toUInt8.toUInt32) = v := by
  have hbyte : v.toUInt8.toNat = v.toNat := by
    rw [UInt32.toNat_toUInt8]
    omega
  have hle : ¬gainModeSoftwareAgc < v.toUInt8 := by
    rw [UInt8.lt_iff_toNat_lt, hbyte]
    exact Nat.not_lt.mpr hn
  rw [if_neg hle]
  apply UInt32.toNat_inj.mp
  rw [UInt8.toNat_toUInt32, hbyte]

theorem gainMode_byte_le (v : UInt32)
    (h : (if gainModeSoftwareAgc < v.toUInt8 then gainModeTunerAgc else v.toUInt8.toUInt32) = v) :
    v.toNat ≤ 2 := by
  split_ifs at h with hle
  · rw [← h]
    decide
  · rw [UInt8.lt_iff_toNat_lt] at hle
    rw [← h, UInt8.toNat_toUInt32]
    exact Nat.not_lt.mp hle

theorem length_lt_of_read (cap : Nat) (s : List UInt8) (buf : Buffer cap)
    (hroom : buf.1.length+1 < cap)
    (h : (if s.length+1 ≤ cap then Buffer.copy cap s else buf) = Buffer.copy cap s) :
    s.length < cap := by
  by_contra hlong
  have hover : ¬s.length+1 ≤ cap := by omega
  rw [if_neg hover] at h
  have hlen : (Buffer.copy cap s).1.length = cap-1 := by
    rw [Buffer.copy, List.length_take]
    omega
  rw [h, hlen] at hroom
  omega

theorem read_encode (e : Encoding) (v : e.Arg) (buf dflt : e.Field) (h : e.Fits v) :
    e.read (some (e.encode v)) buf dflt = e.keep v := by
  cases e with
  | u8 | u32 | i16 | f32 => rfl
  | bool => cases v <;> rfl
  | port => exact port_ofLe v
  | band => exact ofByte_toByte _
  | uartLog => exact uartLog_ofByte_toByte _
  | gainMode => exact gainMode_byte v h
  | str cap => exact if_pos (Nat.succ_le_of_lt h)

theorem fits_of_read_encode (e : Encoding) (v : e.Arg) (buf dflt : e.Field) (hroom : e.Roomy buf)
    (h : e.read (some (e.encode v)) buf dflt = e.keep v) : e.Fits v := by
  cases e with
  | u8 | u32 | i16 | f32 | bool | port | band | uartLog => trivial
  | gainMode => exact gainMode_byte_le v h
  | str cap => exact length_lt_of_read cap v buf hroom h

theorem read_encode_iff {e : Encoding} {v : e.Arg} {buf dflt : e.Field} (hroom : e.Roomy buf) :
    e.read (some (e.encode v)) buf dflt = e.keep v ↔ e.Fits v :=
  ⟨fits_of_read_encode e v buf dflt hroom, read_encode e v buf dflt⟩

end Encoding

inductive GlobalField
  | band
  | sampleRateHz
  | bestEffortDecode
  | uartLog
  | chase2Decode
  | coalesceMinBursts
  | dcmaskLo
  | dcmaskHi
  | autotuneGainDwellS
  | autotuneIraLoHz
  | autotuneGainMinDbx10
  | autotuneGainMaxDbx10
  | autotuneGainStride
  | autotuneOnBoot
  | autotuneGainIntervalS
  | autotuneLoIntervalS
  | bandResurveyAuto
  | stationId
  | wifiSsid
  | wifiPsk
  | outHost
  | outPort
  | iotLogHost
  | otaUrl
  | afOn
  | afHost
  | afPort
  | afId
  deriving DecidableEq

inductive BandField
  | loFreqHz
  | gainMode
  | gainDbX10
  | biasTee
  | taggerThresholdDb
  deriving DecidableEq

structure Row where
  key : String
  encoding : Encoding
  default : encoding.Field

def cString (s : String) : List UInt8 := s.toList.map fun c => UInt8.ofNat c.toNat

def strRow (key : String) (cap : Nat) (dflt : String) : Row :=
  ⟨key, .str cap, Buffer.copy cap (cString dflt)⟩

def GlobalField.row : GlobalField → Row
  | .band => ⟨"band", .band, Band.iridium⟩
  | .sampleRateHz => ⟨"rate_hz", .u32, (2500000 : UInt32)⟩
  | .bestEffortDecode => ⟨"best_eff", .bool, false⟩
  | .uartLog => ⟨"uart_log", .uartLog, UartLogMode.auto⟩
  | .chase2Decode => ⟨"chase2", .bool, false⟩
  | .coalesceMinBursts => ⟨"coal_n", .u8, (0 : UInt8)⟩
  | .dcmaskLo => ⟨"dcmask_lo", .i16, (1 : Int16)⟩
  | .dcmaskHi => ⟨"dcmask_hi", .i16, (-1 : Int16)⟩
  | .autotuneGainDwellS => ⟨"at_dwell_s", .u32, (180 : UInt32)⟩
  | .autotuneIraLoHz => ⟨"at_ira_hz", .u32, (1626200000 : UInt32)⟩
  | .autotuneGainMinDbx10 => ⟨"at_g_min", .i16, (80 : Int16)⟩
  | .autotuneGainMaxDbx10 => ⟨"at_g_max", .i16, (460 : Int16)⟩
  | .autotuneGainStride => ⟨"at_g_strd", .u8, (3 : UInt8)⟩
  | .autotuneOnBoot => ⟨"at_on_boot", .bool, false⟩
  | .autotuneGainIntervalS => ⟨"at_g_ivl_s", .u32, (43200 : UInt32)⟩
  | .autotuneLoIntervalS => ⟨"at_lo_ivl_s", .u32, (1800 : UInt32)⟩
  | .bandResurveyAuto => ⟨"bh_auto", .bool, false⟩
  | .stationId => strRow "station" 32 "p4-iridium-1"
  | .wifiSsid => strRow "wifi_ssid" 32 ""
  | .wifiPsk => strRow "wifi_psk" 64 ""
  | .outHost => strRow "out_host" 64 ""
  | .outPort => ⟨"out_port", .port, (0 : UInt16)⟩
  | .iotLogHost => strRow "iot_log_host" 64 ""
  | .otaUrl => strRow "ota_url" 128 ""
  | .afOn => ⟨"af_on", .bool, false⟩
  | .afHost => strRow "af_host" 64 ""
  | .afPort => ⟨"af_port", .port, (0 : UInt16)⟩
  | .afId => strRow "af_id" 40 ""

def BandField.base : BandField → String
  | .loFreqHz => "lo_hz"
  | .gainMode => "gain_mode"
  | .gainDbX10 => "gain_dbx10"
  | .biasTee => "bias_tee"
  | .taggerThresholdDb => "tag_thr"

def BandField.encoding : BandField → Encoding
  | .loFreqHz => .u32
  | .gainMode => .gainMode
  | .gainDbX10 => .i16
  | .biasTee => .bool
  | .taggerThresholdDb => .f32

def Band.defaultLoHz : Band → UInt32
  | .iridium => 1626000000
  | .vdl2 => 136812500

def Band.taggerThresholdDb : Band → UInt32
  | .iridium => 0x41600000
  | .vdl2 => 0x41600000

def BandField.default (b : Band) : (g : BandField) → g.encoding.Field
  | .loFreqHz => b.defaultLoHz
  | .gainMode => gainModeTunerAgc
  | .gainDbX10 => (350 : Int16)
  | .biasTee => false
  | .taggerThresholdDb => b.taggerThresholdDb

def bandKey (b : Band) (base : String) : String :=
  (match b with
    | .vdl2 => "v2_"
    | .iridium => "ir_")++base

/-- `app_config_t`. The band-specific fields are those of the active band. -/
structure Config where
  global : (f : GlobalField) → f.row.encoding.Field
  tunable : (g : BandField) → g.encoding.Field

def Config.band (c : Config) : Band := c.global .band

structure Device where
  cfg : Config
  nvs : Nvs

/-- The global setters: `SET_FIELD_NUM`, `set_str_field` and those written out. -/
def Device.setField (d : Device) (f : GlobalField) (v : f.row.encoding.Arg) : Device where
  cfg := { d.cfg with global := update d.cfg.global f (f.row.encoding.keep v) }
  nvs := d.nvs.set f.row.key (f.row.encoding.encode v)

/-- The band-specific setters commit under the band the record holds. -/
def Device.setFieldBand (d : Device) (g : BandField) (v : g.encoding.Arg) : Device where
  cfg := { d.cfg with tunable := update d.cfg.tunable g (g.encoding.keep v) }
  nvs := d.nvs.set (bandKey d.cfg.band g.base) (g.encoding.encode v)

def migrate (t : NvsType) (band : Band) (base : String) (h : Nvs) : Nvs :=
  match h.get t (bandKey band base) with
  | some _ => h
  | none =>
    match h.get t base with
    | none => h
    | some tmp => (h.set (bandKey band base) tmp).eraseKey base

def migrateLegacyBandKeys (band : Band) (h : Nvs) : Nvs :=
  migrate .u32 band "tag_thr" (migrate .u8 band "bias_tee" (migrate .i16 band "gain_dbx10"
    (migrate .u8 band "gain_mode" (migrate .u32 band "lo_hz" h))))

def loadGlobal (h : Nvs) (f : GlobalField) : f.row.encoding.Field :=
  f.row.encoding.read (h f.row.key) f.row.default f.row.default

/-- The field before the load has the default of the default band. -/
def loadTunable (h : Nvs) (band : Band) (g : BandField) : g.encoding.Field :=
  g.encoding.read (h (bandKey band g.base)) (g.default .iridium) (g.default band)

def readPersistedBand (h : Nvs) : Band := loadGlobal h .band

def appConfigInit (stored : Nvs) : Device :=
  let h := migrateLegacyBandKeys (readPersistedBand stored) stored
  ⟨⟨loadGlobal h, loadTunable h (loadGlobal h .band)⟩, h⟩

end IridiumAcars.AppConfig
