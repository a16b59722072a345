import IridiumAcars.IdaRoundTrip
import IridiumAcars.IdaInterleave
import IridiumAcars.SbdUpstream
import IridiumAcars.IdaChaseOrder
import IridiumAcars.FrameQueueFifo
import IridiumAcars.StreamRetune
import IridiumAcars.BurstDelivery
import IridiumAcars.TaggerReset
import IridiumAcars.BurstAccounting
import IridiumAcars.ExtractIntegrity
import IridiumAcars.CaptureTime
import IridiumAcars.RfActions
import IridiumAcars.ConfigHistory
import IridiumAcars.CaptureFiles
import IridiumAcars.DecodeRate
import IridiumAcars.IdaWatch
import IridiumAcars.SbdSalvage
import IridiumAcars.SampleNumbering
import IridiumAcars.Vdl2SoftHeader
import IridiumAcars.FrameBodies
import IridiumAcars.AirframesRecord
import IridiumAcars.JsonOutputs
import IridiumAcars.FormField
import IridiumAcars.HotBinRace
import IridiumAcars.CaptureLimit
import IridiumAcars.ScanMarker
import IridiumAcars.SurveyStop
import IridiumAcars.TlDecode
import IridiumAcars.RotateToDc
import IridiumAcars.DetectScreen
import IridiumAcars.FftSc16
import IridiumAcars.TrustedPath
import IridiumAcars.Vdl2Link
import IridiumAcars.FrameLink
import IridiumAcars.CrcLaws
