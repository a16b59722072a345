import IridiumAcars.Lib.Runs
import IridiumAcars.SdCapture

/-! The writer task of `sd_capture.c` through one capture, with every `fwrite` as short as it comes.
-/
namespace IridiumAcars.CaptureWriter
open Runs SdCapture List

/-- A file written over in pieces at their own offsets. -/
def overwrite (l : List UInt8) (pos : Nat) (data : List UInt8) : List UInt8 :=
  l.take pos++(data++l.drop (pos+data.length))

theorem overwrite_take (src : List UInt8) {m pos k : Nat} (hpos : pos ≤ m)
    (hk : pos+k ≤ src.length) :
    overwrite (src.take m) pos ((src.drop pos).take k) = src.take (max m (pos+k)) := by
  have hlen : ((src.drop pos).take k).length = k := by
    rw [length_take, length_drop]
    omega
  have hfront : (src.take m).take pos = src.take pos := by
    rw [take_take, Nat.min_eq_left hpos]
  rw [overwrite, hlen, hfront, ← append_assoc, ← take_add]
  by_cases hm : m ≤ pos+k
  · have hnil : (src.take m).drop (pos+k) = [] := by
      apply drop_eq_nil_of_le
      rw [length_take]
      omega
    rw [hnil, append_nil, Nat.max_eq_right hm]
  · have hle : pos+k ≤ m := by omega
    have hsame : src.take (pos+k) = (src.take m).take (pos+k) := by
      rw [take_take, Nat.min_eq_left hle]
    rw [hsame, take_append_drop, Nat.max_eq_left hle]

def consecFailLimit : Nat := 64
def drainRounds : Nat := 512

inductive Phase
  | looping
  | draining (rounds : Nat)
  | flushing
  | closed
  deriving DecidableEq

/-- The file and the next position; bytes accepted and turned away are kept for the record. -/
structure Capture where
  stream : List UInt8
  stash : List UInt8
  content : List UInt8
  pos : Nat
  bytesCaptured : Nat
  bytesDropped : Nat
  bytesTarget : Nat
  consecFail : Nat
  stopping : Bool
  phase : Phase
  accepted : List UInt8
  rejected : Nat
  offsets : List Nat
  complete : Bool

def initial (target : Nat) : Capture where
  stream := []
  stash := []
  content := []
  pos := 0
  bytesCaptured := 0
  bytesDropped := 0
  bytesTarget := target
  consecFail := 0
  stopping := false
  phase := .looping
  accepted := []
  rejected := 0
  offsets := []
  complete := true

namespace Capture

def accept (s : Capture) (data : List UInt8) : Capture :=
  if s.stopping then s
  else
    let fits := data.take (streamBufferBytes-s.stream.length)
    { s with
      stream := s.stream++fits
      accepted := s.accepted++fits
      rejected := s.rejected+(data.length-fits.length)
      bytesDropped := s.bytesDropped+(data.length-fits.length) }

def stop (s : Capture) : Capture := { s with stopping := true }

def fwrite (s : Capture) (data : List UInt8) (wr : Nat) : Capture :=
  { s with
    content := overwrite s.content s.pos (data.take wr)
    pos := s.pos+wr
    offsets := s.offsets++[s.pos]
    complete := decide (wr = data.length) }

def realign (s : Capture) (partialSector : Nat) : Capture := { s with pos := s.pos-partialSector }

def sectors (n : Nat) : Nat := n/sectorBytes*sectorBytes

def wrote (s : Capture) (buf : List UInt8) (n : Nat) : Capture :=
  { s.fwrite (buf.take n) n with
    bytesCaptured := s.bytesCaptured+n
    stash := buf.drop n
    consecFail := 0
    stopping := s.stopping ||
      (decide (0 < s.bytesTarget) && decide (s.bytesTarget ≤ s.bytesCaptured+n)) }

def wroteShort (s : Capture) (buf : List UInt8) (n wr : Nat) : Capture :=
  let failed := decide (consecFailLimit ≤ s.consecFail+1)
  { (s.fwrite (buf.take n) wr).realign (wr%sectorBytes) with
    bytesCaptured := s.bytesCaptured+sectors wr
    stash := buf.drop (sectors wr)
    consecFail := if failed then 0 else s.consecFail+1
    stopping := s.stopping || failed }

def received (s : Capture) (n : Nat) : Capture :=
  { s with stream := s.stream.drop n }

/-- The write of an iteration: the sectors at the front, of which the card takes `wr` bytes or all.
-/
def writeOut (s : Capture) (buf : List UInt8) (wr : Nat) : Capture :=
  let n := sectors buf.length
  if n = 0 then { s with stash := buf }
  else if n ≤ wr then s.wrote buf n
  else s.wroteShort buf n wr

def leave (s : Capture) : Capture :=
  if s.stopping then { s with phase := .draining drainRounds } else s

def receive (s : Capture) (n : Nat) : Capture :=
  let k := min n (writerRecvChunk-s.stash.length)
  { s.received k with stash := s.stash++s.stream.take k }

def commit (s : Capture) (wr : Nat) : Capture := (s.writeOut s.stash wr).leave

def iterate (s : Capture) (n wr : Nat) : Capture :=
  match s.phase with
  | .looping => (s.receive n).commit wr
  | .draining _ | .flushing | .closed => s

/-- The write of a drain round. A short one is counted as an error, and that is all. -/
def drainOut (s : Capture) (buf : List UInt8) (wr : Nat) : Capture :=
  let n := sectors buf.length
  if n = 0 then { s with stash := buf }
  else
    { s.fwrite (buf.take n) (min wr n) with
      bytesCaptured := if n ≤ wr then s.bytesCaptured+n else s.bytesCaptured
      stash := buf.drop n }

/-- One round of the drain: it ends when nothing was received, and after the last round. -/
def drain (s : Capture) (wr : Nat) : Capture :=
  match s.phase with
  | .draining rounds =>
    let k := writerRecvChunk-s.stash.length
    let rest := s.stream.take k
    if rest = [] ∧ s.stash = [] then { s with phase := .flushing }
    else
      { (s.received k).drainOut (s.stash++rest) wr with
        phase := if rest = [] ∨ rounds ≤ 1 then .flushing else .draining (rounds-1) }
  | .looping | .flushing | .closed => s

def flush (s : Capture) (wr : Nat) : Capture :=
  match s.phase with
  | .flushing =>
    if s.stash = [] then { s with phase := .closed }
    else
      { s.fwrite s.stash (min wr s.stash.length) with
        bytesCaptured :=
          if s.stash.length ≤ wr then s.bytesCaptured+s.stash.length else s.bytesCaptured
        stash := []
        phase := .closed }
  | .looping | .draining _ | .closed => s

end Capture

inductive Move
  | accept (data : List UInt8)
  | stop
  | iterate (n wr : Nat)
  | drain (wr : Nat)
  | flush (wr : Nat)

def step (s : Capture) : Move → Capture
  | .accept data => s.accept data
  | .stop => s.stop
  | .iterate n wr => s.iterate n wr
  | .drain wr => s.drain wr
  | .flush wr => s.flush wr

def run (target : Nat) (moves : List Move) : Capture := moves.foldl step (initial target)

/-- Nothing is lost silently; a short write leaves less than a sector uncounted. -/
structure Lossless (s : Capture) : Prop where
  content : s.content <+: s.accepted
  aligned : ∀ o ∈ s.offsets.dropLast, sectorBytes ∣ o
  captured : s.bytesCaptured = s.pos ∧ s.pos ≤ s.content.length ∧
    s.content.length < s.pos+sectorBytes ∧ (s.complete = true → s.content.length = s.bytesCaptured)
  counted : s.phase = .closed → s.accepted.length+s.rejected = s.content.length+s.bytesDropped

def Capture.drainSound (s : Capture) (wr : Nat) : Bool :=
  match s.phase with
  | .draining rounds => (decide (s.stream = []) || decide (s.stash.length < writerRecvChunk)) &&
      (decide (1 < rounds) &&
        decide (sectors (s.stash.length+min (writerRecvChunk-s.stash.length) s.stream.length) ≤ wr))
  | .looping | .flushing | .closed => true

/-- What the `STOPPING` branch needs of the card and of the buffer. The main loop needs
nothing. -/
def Sound (s : Capture) : Move → Prop
  | .drain wr => s.drainSound wr = true
  | .flush wr => s.stash.length ≤ wr
  | .accept _ | .stop | .iterate _ _ => True

instance (s : Capture) : (m : Move) → Decidable (Sound s m)
  | .drain wr => inferInstanceAs (Decidable (s.drainSound wr = true))
  | .flush wr => inferInstanceAs (Decidable (s.stash.length ≤ wr))
  | .accept _ | .stop | .iterate _ _ => .isTrue trivial

structure Inv (s : Capture) : Prop where
  content : s.content = s.accepted.take s.content.length
  rest : s.accepted.drop s.pos = s.stash++s.stream
  lower : s.pos ≤ s.content.length
  queued : s.content.length ≤ s.pos+s.stash.length
  sector : s.content.length < s.pos+sectorBytes
  captured : s.bytesCaptured = s.pos
  dropped : s.bytesDropped = s.rejected
  offsets : ∀ o ∈ s.offsets, sectorBytes ∣ o
  complete : s.complete = true → s.content.length = s.pos
  stopping : s.phase ≠ .looping → s.stopping = true
  aligned : s.phase ≠ .closed → sectorBytes ∣ s.pos
  flushing : s.phase = .flushing → s.stream = []
  closed : s.phase = .closed → s.stash = [] ∧ s.stream = []

theorem inv_initial (target : Nat) : Inv (initial target) where
  content := rfl
  rest := rfl
  lower := Nat.le_refl _
  queued := Nat.le_refl _
  sector := Nat.zero_lt_succ _
  captured := rfl
  dropped := rfl
  offsets _ h := by cases h
  complete _ := rfl
  stopping h := absurd rfl h
  aligned _ := Nat.dvd_zero _
  flushing h := by cases h
  closed h := by cases h

section
variable {s : Capture}

theorem Inv.pos_le (h : Inv s) : s.pos ≤ s.accepted.length := by
  have hlen := congrArg List.length h.content
  rw [length_take] at hlen
  have := h.lower
  omega

theorem Inv.length_accepted (h : Inv s) :
    s.accepted.length = s.pos+(s.stash.length+s.stream.length) := by
  have hlen := congrArg List.length h.rest
  rw [length_drop, length_append] at hlen
  have := h.pos_le
  omega

theorem sectors_le (n : Nat) : Capture.sectors n ≤ n := Nat.div_mul_le_self _ _

theorem sectors_add_mod (n : Nat) : Capture.sectors n+n%sectorBytes = n := Nat.div_add_mod' n _

theorem sectors_dvd (n : Nat) : sectorBytes ∣ Capture.sectors n := Nat.dvd_mul_left _ _

theorem mod_sector_lt (n : Nat) : n%sectorBytes < sectorBytes := Nat.mod_lt _ (by decide)

theorem Inv.lossless (h : Inv s) : Lossless s where
  content := by
    rw [h.content]
    exact take_prefix _ _
  aligned o ho := h.offsets o ((dropLast_sublist _).subset ho)
  captured := ⟨h.captured, h.lower, h.sector, fun hc => (h.complete hc).trans h.captured.symm⟩
  counted hclosed := by
    obtain ⟨hstash,hstream⟩ := h.closed hclosed
    have hlen := h.length_accepted
    have hqueued := h.queued
    have hlower := h.lower
    rw [hstash, hstream] at hlen
    rw [hstash] at hqueued
    rw [h.dropped]
    simp only [length_nil] at hlen hqueued
    omega

theorem Inv.content_le (h : Inv s) : s.content.length ≤ s.accepted.length := by
  have hlen := congrArg List.length h.content
  rw [length_take] at hlen
  omega

theorem Inv.queue (h : Inv s) (hs : ¬s.stopping = true) (fits : List UInt8) (k : Nat) :
    Inv { s with
      stream := s.stream++fits
      accepted := s.accepted++fits
      rejected := s.rejected+k
      bytesDropped := s.bytesDropped+k } := by
  have hloop : s.phase = .looping := by
    by_contra hne
    exact hs (h.stopping hne)
  refine { h with
    content := ?_
    rest := ?_
    dropped := congrArg (·+_) h.dropped
    flushing := fun hp => absurd (hloop.symm.trans hp) nofun
    closed := fun hp => absurd (hloop.symm.trans hp) nofun }
  · rw [take_append_of_le_length h.content_le]
    exact h.content
  · rw [drop_append_of_le_length h.pos_le, h.rest, append_assoc]

theorem Inv.accept (h : Inv s) (data : List UInt8) : Inv (s.accept data) := by
  by_cases hs : s.stopping = true
  · rwa [Capture.accept, if_pos hs]
  · rw [Capture.accept, if_neg hs]
    exact h.queue hs _ _

theorem Inv.stop (h : Inv s) : Inv s.stop := { h with stopping := fun _ => rfl }

end

section
variable {s : Capture} {buf : List UInt8}

theorem Inv.received (h : Inv s) (hphase : s.phase ≠ .closed) (k : Nat) :
    Inv { s.received k with stash := s.stash++s.stream.take k } := by
  refine { h with
    rest := ?_
    queued := ?_
    flushing := fun hf => ?_
    closed := fun hc => absurd hc hphase }
  · rw [Capture.received, append_assoc, take_append_drop]
    exact h.rest
  · have hq := h.queued
    change s.content.length ≤ s.pos+(s.stash++s.stream.take k).length
    rw [length_append]
    omega
  · rw [Capture.received, h.flushing hf, drop_nil]

theorem Inv.overwrite (h : Inv s) {n wr : Nat} (hwr : wr ≤ n) (hn : n ≤ s.stash.length) :
    (s.fwrite (s.stash.take n) wr).content = s.accepted.take (max s.content.length (s.pos+wr)) ∧
      (s.fwrite (s.stash.take n) wr).content.length = max s.content.length (s.pos+wr) := by
  have hlen := h.length_accepted
  have hle := h.content_le
  have hdata : (s.stash.take n).take wr = (s.accepted.drop s.pos).take wr := by
    rw [h.rest, take_take, Nat.min_eq_left hwr, take_append_of_le_length (by omega)]
  have hcontent : (s.fwrite (s.stash.take n) wr).content =
      s.accepted.take (max s.content.length (s.pos+wr)) := by
    rw [Capture.fwrite, hdata]
    conv => lhs; rw [h.content]
    exact overwrite_take _ h.lower (by omega)
  refine ⟨hcontent, ?_⟩
  rw [hcontent, length_take]
  omega

theorem drop_pos_add (h : Inv s) {n : Nat} (hn : n ≤ s.stash.length) :
    s.accepted.drop (s.pos+n) = s.stash.drop n++s.stream := by
  rw [← drop_drop, h.rest, drop_append_of_le_length hn]

theorem offsets_snoc (h : Inv s) (hphase : s.phase ≠ .closed) :
    ∀ o ∈ s.offsets++[s.pos], sectorBytes ∣ o := by
  intro o ho
  rw [mem_append, mem_singleton] at ho
  obtain hold | rfl := ho
  · exact h.offsets o hold
  · exact h.aligned hphase

theorem Inv.whole (h : Inv s) (hphase : s.phase ≠ .closed) {n : Nat} (hn : n ≤ s.stash.length)
    (hcover : s.content.length ≤ s.pos+n) (fails : Nat) {stopping : Bool} {phase : Phase}
    (hstop : phase ≠ .looping → stopping = true) (haligned : phase ≠ .closed → sectorBytes ∣ n)
    (hflush : phase = .flushing → s.stream = [])
    (hclosed : phase = .closed → s.stash.drop n = [] ∧ s.stream = []) :
    Inv { s.fwrite (s.stash.take n) n with
      bytesCaptured := s.bytesCaptured+n
      stash := s.stash.drop n
      consecFail := fails
      stopping := stopping
      phase := phase } := by
  obtain ⟨hcontent,hlen⟩ := h.overwrite (Nat.le_refl n) hn
  rw [Nat.max_eq_right hcover] at hcontent hlen
  exact {
    content := by rw [hlen]; exact hcontent
    rest := drop_pos_add h hn
    lower := Nat.le_of_eq hlen.symm
    queued := by rw [hlen]; exact Nat.le_add_right _ _
    sector := by rw [hlen]; exact Nat.lt_add_of_pos_right (by decide)
    captured := congrArg (·+n) h.captured
    dropped := h.dropped
    offsets := offsets_snoc h hphase
    complete := fun _ => hlen
    stopping := hstop
    aligned := fun hc => Nat.dvd_add (h.aligned hphase) (haligned hc)
    flushing := hflush
    closed := hclosed }

theorem Inv.wrote (h : Inv s) (hphase : s.phase = .looping) {n : Nat} (hn : n ≤ s.stash.length)
    (hpos : 0 < n) (hdvd : sectorBytes ∣ n) : Inv (s.wrote s.stash n) := by
  have hsector := h.sector
  have hle : sectorBytes ≤ n := Nat.le_of_dvd hpos hdvd
  refine h.whole (by rw [hphase]; exact nofun) hn (by omega) 0 (fun hne => absurd hphase hne)
    (fun _ => hdvd) (fun hf => ?_) (fun hc => ?_)
  · cases hphase.symm.trans hf
  · cases hphase.symm.trans hc

theorem Inv.wroteShort (h : Inv s) (hphase : s.phase = .looping) {n wr : Nat}
    (hn : n ≤ s.stash.length) (hwr : wr < n) : Inv (s.wroteShort s.stash n wr) := by
  obtain ⟨hcontent,hlen⟩ := h.overwrite (Nat.le_of_lt hwr) hn
  have hopen : s.phase ≠ .closed := by rw [hphase]; exact nofun
  have hsplit := sectors_add_mod wr
  have hmod := mod_sector_lt wr
  have hsector := h.sector
  have hqueued := h.queued
  have hlower := h.lower
  have hpos : s.pos+wr-wr%sectorBytes = s.pos+Capture.sectors wr := by omega
  have hdrop : (s.stash.drop (Capture.sectors wr)).length = s.stash.length-Capture.sectors wr :=
    length_drop
  refine ⟨?_, ?_, ?_, ?_, ?_, ?_, h.dropped, offsets_snoc h hopen, fun hc => ?_, fun hne => ?_,
    fun _ => ?_, fun hf => ?_, fun hc => ?_⟩
  · change (s.fwrite (s.stash.take n) wr).content =
      s.accepted.take (s.fwrite (s.stash.take n) wr).content.length
    rwa [hlen]
  · change s.accepted.drop (s.pos+wr-wr%sectorBytes) = _
    rw [hpos]
    exact drop_pos_add h (by omega)
  · change s.pos+wr-wr%sectorBytes ≤ (s.fwrite (s.stash.take n) wr).content.length
    rw [hlen]
    omega
  · change (s.fwrite (s.stash.take n) wr).content.length ≤ s.pos+wr-wr%sectorBytes+
      (s.stash.drop (Capture.sectors wr)).length
    rw [hlen, hdrop]
    omega
  · change (s.fwrite (s.stash.take n) wr).content.length < s.pos+wr-wr%sectorBytes+sectorBytes
    rw [hlen]
    omega
  · change s.bytesCaptured+Capture.sectors wr = s.pos+wr-wr%sectorBytes
    rw [hpos, h.captured]
  · have hwhole : wr = (s.stash.take n).length := of_decide_eq_true hc
    rw [length_take] at hwhole
    omega
  · exact absurd hphase hne
  · change sectorBytes ∣ s.pos+wr-wr%sectorBytes
    rw [hpos]
    exact Nat.dvd_add (h.aligned hopen) (sectors_dvd wr)
  · cases hphase.symm.trans hf
  · cases hphase.symm.trans hc

theorem Inv.writeOut (h : Inv s) (hphase : s.phase = .looping) (wr : Nat) :
    Inv (s.writeOut s.stash wr) := by
  have hle := sectors_le s.stash.length
  simp only [Capture.writeOut]
  split_ifs with hzero hwr
  · exact h
  · exact h.wrote hphase hle (Nat.pos_of_ne_zero hzero) (sectors_dvd _)
  · exact h.wroteShort hphase hle (Nat.lt_of_not_le hwr)

theorem Inv.leave (h : Inv s) (hphase : s.phase = .looping) : Inv s.leave := by
  by_cases hs : s.stopping = true
  · rw [Capture.leave, if_pos hs]
    exact { h with
      stopping := fun _ => hs
      aligned := fun _ => h.aligned (by rw [hphase]; exact nofun)
      flushing := nofun
      closed := nofun }
  · rwa [Capture.leave, if_neg hs]

theorem phase_writeOut (s : Capture) (buf : List UInt8) (wr : Nat) :
    (s.writeOut buf wr).phase = s.phase := by
  simp only [Capture.writeOut]
  split
  · rfl
  · split <;> rfl

theorem Inv.receive (h : Inv s) (hphase : s.phase = .looping) (n : Nat) : Inv (s.receive n) :=
  h.received (by rw [hphase]; exact nofun) _

theorem Inv.commit (h : Inv s) (hphase : s.phase = .looping) (wr : Nat) : Inv (s.commit wr) :=
  (h.writeOut hphase wr).leave ((phase_writeOut _ _ _).trans hphase)

theorem Inv.iterate (h : Inv s) (n wr : Nat) : Inv (s.iterate n wr) := by
  cases hphase : s.phase with
  | looping =>
    simp only [Capture.iterate, hphase]
    exact (h.receive hphase n).commit hphase wr
  | draining | flushing | closed => simpa only [Capture.iterate, hphase] using h

end

section
variable {s : Capture}

theorem Inv.drainOut (h : Inv s) {wr : Nat} {phase : Phase} (hopen : s.phase ≠ .closed)
    (hphase : phase ≠ .closed) (hstop : s.stopping = true)
    (hwr : Capture.sectors s.stash.length ≤ wr) (hflush : phase = .flushing → s.stream = []) :
    Inv { s.drainOut s.stash wr with phase := phase } := by
  have hle := sectors_le s.stash.length
  by_cases hzero : Capture.sectors s.stash.length = 0
  · simp only [Capture.drainOut, if_pos hzero]
    exact { h with
      stopping := fun _ => hstop
      aligned := fun _ => h.aligned hopen
      flushing := hflush
      closed := fun hc => absurd hc hphase }
  · have hbig : sectorBytes ≤ Capture.sectors s.stash.length :=
      Nat.le_of_dvd (Nat.pos_of_ne_zero hzero) (sectors_dvd _)
    have hsector := h.sector
    simp only [Capture.drainOut, if_neg hzero, if_pos hwr, Nat.min_eq_right hwr]
    exact h.whole hopen hle (by omega) s.consecFail (fun _ => hstop) (fun _ => sectors_dvd _) hflush
      fun hc => absurd hc hphase

theorem Inv.drain (h : Inv s) {wr : Nat} (hok : Sound s (.drain wr)) : Inv (s.drain wr) := by
  cases hphase : s.phase with
  | draining rounds =>
    have hopen : s.phase ≠ .closed := by rw [hphase]; exact nofun
    have hstop : s.stopping = true := h.stopping (by rw [hphase]; exact nofun)
    simp only [Sound, Capture.drainSound, hphase, Bool.and_eq_true, Bool.or_eq_true,
      decide_eq_true_eq] at hok
    obtain ⟨hroom,hrounds,hwr⟩ := hok
    -- A round that receives nothing has found the stream empty.
    have hempty : s.stream.take (writerRecvChunk-s.stash.length) = [] → s.stream = [] := by
      intro hnil
      obtain hstream | hlt := hroom
      · exact hstream
      · obtain hzero | hstream := take_eq_nil_iff.mp hnil
        · omega
        · exact hstream
    simp only [Capture.drain, hphase]
    by_cases hdone : s.stream.take (writerRecvChunk-s.stash.length) = [] ∧ s.stash = []
    · rw [if_pos hdone]
      exact { h with
        stopping := fun _ => hstop
        aligned := fun _ => h.aligned hopen
        flushing := fun _ => hempty hdone.1
        closed := nofun }
    · rw [if_neg hdone]
      refine (h.received hopen _).drainOut hopen ?_ hstop ?_ fun hf => ?_
      · split <;> exact nofun
      · rwa [length_append, length_take]
      · change s.stream.drop (writerRecvChunk-s.stash.length) = []
        split at hf
        case isTrue hend =>
          obtain hnil | hlast := hend
          · rw [hempty hnil, drop_nil]
          · omega
        case isFalse => cases hf
  | looping | flushing | closed => simpa only [Capture.drain, hphase] using h

theorem Inv.flush (h : Inv s) {wr : Nat} (hok : Sound s (.flush wr)) : Inv (s.flush wr) := by
  cases hphase : s.phase with
  | flushing =>
    have hopen : s.phase ≠ .closed := by rw [hphase]; exact nofun
    have hstop : s.stopping = true := h.stopping (by rw [hphase]; exact nofun)
    have hstream := h.flushing hphase
    have hwr : s.stash.length ≤ wr := hok
    simp only [Capture.flush, hphase]
    by_cases hnil : s.stash = []
    · rw [if_pos hnil]
      exact { h with
        stopping := fun _ => hstop
        aligned := fun hc => absurd rfl hc
        flushing := nofun
        closed := fun _ => ⟨hnil, hstream⟩ }
    · rw [if_neg hnil, if_pos hwr, Nat.min_eq_right hwr]
      have hall := h.whole hopen (Nat.le_refl _) h.queued s.consecFail (fun _ => hstop)
        (fun hc => absurd rfl hc) nofun
        (fun _ : Phase.closed = .closed => ⟨drop_length, hstream⟩)
      rwa [take_length, drop_length] at hall
  | looping | draining | closed => simpa only [Capture.flush, hphase] using h

theorem Inv.step (h : Inv s) {m : Move} (hok : Sound s m) : Inv (step s m) := by
  cases m with
  | accept data => exact h.accept data
  | stop => exact h.stop
  | iterate n wr => exact h.iterate n wr
  | drain wr => exact h.drain hok
  | flush wr => exact h.flush hok

/-- If the writes of the `STOPPING` branch are complete and its first receive has room, nothing is
lost. -/
theorem capture_writer_lossless (target : Nat) {moves : List Move}
    (h : AllSteps step Sound (initial target) moves) : Lossless (run target moves) :=
  (h.invariant Inv (fun _ _ hok hs => hs.step hok) (inv_initial target)).lossless

/-- Two short writes inside a sector, then a stop with 64 bytes over the last sector. -/
theorem capture_writer_lossless_torn :
    let moves := [Move.accept (List.replicate 1600 7), .iterate 1600 700, .stop, .iterate 0 100,
      .drain 1024, .flush 64]
    (run 0 moves).phase = .closed ∧ Lossless (run 0 moves) :=
  ⟨by decide +kernel, capture_writer_lossless 0 (by decide +kernel)⟩

/-- With a full stash the first round of the drain has no room to receive: it writes, takes
the stream for empty, and what is queued there is lost uncounted. -/
theorem Inv.stranded (h : Inv s) {rounds wr : Nat} (wr' : Nat)
    (hphase : s.phase = .draining rounds) (hfull : s.stash.length = writerRecvChunk)
    (hwr : writerRecvChunk ≤ wr) :
    let s' := (s.drain wr).flush wr'
    s'.phase = .closed ∧ s'.accepted.length+s'.rejected =
      s'.content.length+s'.bytesDropped+s.stream.length := by
  have hne : s.stash ≠ [] := by
    intro hnil
    rw [hnil] at hfull
    cases hfull
  have hdrained : s.drain wr = { s.fwrite (s.stash.take writerRecvChunk) writerRecvChunk with
      bytesCaptured := s.bytesCaptured+writerRecvChunk
      stash := s.stash.drop writerRecvChunk
      phase := .flushing } := by
    have hsectors : Capture.sectors writerRecvChunk = writerRecvChunk := by decide
    simp only [Capture.drain, hphase, hfull, Nat.sub_self, take_zero, true_and, if_neg hne,
      true_or, if_true, Capture.drainOut, append_nil, hsectors, Capture.received,
      drop_zero, if_neg (show ¬writerRecvChunk = 0 by decide), if_pos hwr,
      Nat.min_eq_right hwr]
    rfl
  have hlen := (h.overwrite (Nat.le_refl writerRecvChunk) (Nat.le_of_eq hfull.symm)).2
  have hqueued := h.queued
  have haccepted := h.length_accepted
  have hdropped := h.dropped
  rw [hdrained, Capture.flush]
  simp only [drop_of_length_le (Nat.le_of_eq hfull), if_true]
  refine ⟨trivial, ?_⟩
  change s.accepted.length+s.rejected =
    (s.fwrite (s.stash.take writerRecvChunk) writerRecvChunk).content.length+s.bytesDropped+_
  omega

theorem iterate_refused (hphase : s.phase = .looping) (hstop : s.stopping = true)
    (hstash : s.stash = []) (hlen : writerRecvChunk ≤ s.stream.length) :
    let s' := s.iterate writerRecvChunk 0
    s'.phase = .draining drainRounds ∧ s'.stash.length = writerRecvChunk ∧
      s'.stream = s.stream.drop writerRecvChunk := by
  have hbuf : (s.stream.take writerRecvChunk).length = writerRecvChunk := by
    rw [length_take, Nat.min_eq_left hlen]
  simp only [Capture.iterate, hphase, Capture.receive, Capture.commit, hstash, length_nil,
    Nat.sub_zero, Nat.min_self, nil_append, Capture.writeOut, hbuf]
  rw [if_neg (by decide), if_neg (by decide), Capture.leave, if_pos]
  · exact ⟨rfl, hbuf, rfl⟩
  · simp [Capture.wroteShort, Capture.received, hstop]

theorem drain_strands {xs : List UInt8} (hlen : xs.length = 300000) :
    let full := run 0 [.accept xs, .stop, .iterate writerRecvChunk 0, .drain writerRecvChunk,
      .flush 0]
    full.phase = .closed ∧
      full.accepted.length+full.rejected = full.content.length+full.bytesDropped+37856 := by
  have hchunk : writerRecvChunk = 262144 := by decide
  have hrest : xs.length-writerRecvChunk = 37856 := by omega
  have hstream : ((initial 0).accept xs).stop.stream = xs :=
    take_of_length_le (by rw [hlen]; decide)
  obtain ⟨hphase,hstash,hdrop⟩ := iterate_refused (s := ((initial 0).accept xs).stop) rfl rfl rfl
    (by rw [hstream, hlen]; decide)
  have hinv := (((inv_initial 0).accept xs).stop).iterate writerRecvChunk 0
  have hlost := hinv.stranded 0 hphase hstash (Nat.le_refl _)
  rwa [hdrop, length_drop, hstream, hrest] at hlost

/-- A write that ended inside a sector leaves bytes uncounted; a short drain write loses bytes, and
so does a drain that starts with a full stash. -/
theorem short_writes_uncounted :
    let torn := run 0 [.accept (List.replicate 512 7), .iterate 512 100]
    let drained := run 0 [.accept (List.replicate 1024 7), .stop, .iterate 0 0, .drain 512,
      .drain 0, .flush 0]
    let full := run 0 [.accept (List.replicate 300000 7), .stop, .iterate writerRecvChunk 0,
      .drain writerRecvChunk, .flush 0]
    (torn.content.length = 100 ∧ torn.bytesCaptured = 0) ∧ (drained.phase = .closed ∧
      drained.accepted.length = 1024 ∧ drained.content.length = 512 ∧ drained.bytesDropped = 0) ∧
    full.phase = .closed ∧
      full.accepted.length+full.rejected = full.content.length+full.bytesDropped+37856 := by
  exact ⟨by decide +kernel, by decide +kernel, drain_strands length_replicate⟩

end

end IridiumAcars.CaptureWriter
