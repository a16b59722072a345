import IridiumAcars.CaptureWriter

/-! The size limit of a capture: `sd_capture_write` in front of the writer task of `sd_capture.c`.
-/
namespace IridiumAcars.CaptureLimit
open Runs SdCapture CaptureWriter List

def targetGate (s : Capture) (n : Nat) : Option Nat :=
  if 0 < s.bytesTarget ∧ s.bytesCaptured+n > s.bytesTarget then
    if s.bytesCaptured ≥ s.bytesTarget then none else some (s.bytesTarget-s.bytesCaptured)
  else some n

def wanted (s : Capture) (n : Nat) : Nat :=
  let avail := streamBufferBytes-s.stream.length
  (if n < avail then n else avail)/2*2

def sdCaptureWrite (s : Capture) (data : List UInt8) : Capture :=
  if s.stopping ∨ data.length = 0 then s
  else
    match targetGate s data.length with
    | none => s
    | some n =>
      { s with
        stream := s.stream++data.take (wanted s n)
        accepted := s.accepted++data.take (wanted s n)
        rejected := s.rejected+(n-wanted s n)
        bytesDropped := s.bytesDropped+(n-wanted s n) }

/-- `writing` holds between the receive of an iteration and the count of what it wrote. -/
structure Session where
  capture : Capture
  offered : List UInt8
  writing : Bool

def begin (target : Nat) : Session := ⟨initial target, [], false⟩

inductive Act
  | write (data : List UInt8)
  | receive (n : Nat)
  | commit (wr : Nat)
  | drain (wr : Nat)
  | flush (wr : Nat)

/-- The bytes in the writer's hands are in the stash; the writer does one thing after another. -/
def act (s : Session) : Act → Session
  | .write data => { s with capture := sdCaptureWrite s.capture data, offered := s.offered++data }
  | .receive n =>
    if s.writing = false ∧ s.capture.phase = .looping then
      { s with capture := s.capture.receive n, writing := true }
    else s
  | .commit wr =>
    if s.writing then { s with capture := s.capture.commit wr, writing := false } else s
  | .drain wr => if s.writing then s else { s with capture := s.capture.drain wr }
  | .flush wr => if s.writing then s else { s with capture := s.capture.flush wr }

def session (target : Nat) (acts : List Act) : Session := acts.foldl act (begin target)

/-- The file never exceeds the target, and after enough bytes holds exactly the first ones. -/
structure Limited (target : Nat) (s : Session) : Prop where
  bound : s.capture.content.length ≤ target
  exactly : target ≤ s.offered.length → s.capture.bytesDropped = 0 → s.capture.phase = .closed →
    s.capture.content = s.offered.take target

/-- A write over the target finds nothing under way, and the card takes what is written. -/
def Calm (s : Session) : Act → Prop
  | .write data => s.capture.stash = [] ∧ s.capture.stream = [] ∨
      s.capture.accepted.length+data.length ≤ s.capture.bytesTarget
  | .receive _ => True
  | .commit wr => Capture.sectors s.capture.stash.length ≤ wr ∨
      s.capture.consecFail+1 < consecFailLimit
  | .drain wr => Sound s.capture (.drain wr)
  | .flush wr => Sound s.capture (.flush wr)

instance (s : Session) : (a : Act) → Decidable (Calm s a)
  | .receive _ => .isTrue trivial
  | .write _ | .commit _ => inferInstanceAs (Decidable (_ ∨ _))
  | .drain wr => inferInstanceAs (Decidable (Sound s.capture (.drain wr)))
  | .flush wr => inferInstanceAs (Decidable (Sound s.capture (.flush wr)))

structure Onward (s s' : Capture) : Prop where
  accepted : s'.accepted = s.accepted
  rejected : s'.rejected = s.rejected
  target : s'.bytesTarget = s.bytesTarget
  captured : s.bytesCaptured ≤ s'.bytesCaptured
  stopping : s'.stopping = true → s.stopping = true ∨ s.bytesTarget ≤ s'.bytesCaptured

variable {s : Capture}

theorem onward_refl (s : Capture) : Onward s s := ⟨rfl, rfl, rfl, le_rfl, .inl⟩

theorem leave_onward {s s' : Capture} (h : Onward s s') : Onward s s'.leave := by
  unfold Capture.leave
  split
  · exact ⟨h.accepted, h.rejected, h.target, h.captured, h.stopping⟩
  · exact h

theorem writeOut_onward {s s' : Capture} (h : Onward s s') (buf : List UInt8) (wr : Nat)
    (hwr : Capture.sectors buf.length ≤ wr ∨ s'.consecFail+1 < consecFailLimit) :
    Onward s (s'.writeOut buf wr) := by
  rw [Capture.writeOut]
  split_ifs with hzero hle
  · exact ⟨h.accepted, h.rejected, h.target, h.captured, h.stopping⟩
  · refine ⟨h.accepted, h.rejected, h.target, Nat.le_trans h.captured (Nat.le_add_right _ _), ?_⟩
    intro hstop
    simp only [Capture.wrote, Bool.or_eq_true, Bool.and_eq_true] at hstop
    obtain hbefore | ⟨-,hreached⟩ := hstop
    · exact (h.stopping hbefore).imp_right fun hle => Nat.le_trans hle (Nat.le_add_right _ _)
    · rw [← h.target]
      exact .inr (of_decide_eq_true hreached)
  refine ⟨h.accepted, h.rejected, h.target, Nat.le_trans h.captured (Nat.le_add_right _ _), ?_⟩
  intro hstop
  have hfew : ¬consecFailLimit ≤ s'.consecFail+1 :=
    Nat.not_le_of_lt (hwr.resolve_left hle)
  simp only [Capture.wroteShort, decide_eq_false hfew, Bool.or_false] at hstop
  exact (h.stopping hstop).imp_right fun hle => Nat.le_trans hle (Nat.le_add_right _ _)

theorem drain_onward (wr : Nat) : Onward s (s.drain wr) := by
  cases hphase : s.phase with
  | draining rounds =>
    simp only [Capture.drain, hphase]
    split
    · exact ⟨rfl, rfl, rfl, le_rfl, .inl⟩
    · rw [Capture.drainOut]
      split
      · exact ⟨rfl, rfl, rfl, le_rfl, .inl⟩
      · refine ⟨rfl, rfl, rfl, ?_, .inl⟩
        simp only [Capture.received]
        split
        · exact Nat.le_add_right _ _
        · exact le_rfl
  | looping | flushing | closed =>
    simp only [Capture.drain, hphase]
    exact onward_refl s

theorem flush_onward (wr : Nat) : Onward s (s.flush wr) := by
  cases hphase : s.phase with
  | flushing =>
    simp only [Capture.flush, hphase]
    split
    · exact ⟨rfl, rfl, rfl, le_rfl, .inl⟩
    · refine ⟨rfl, rfl, rfl, ?_, .inl⟩
      simp only
      split
      · exact Nat.le_add_right _ _
      · exact le_rfl
  | looping | draining | closed =>
    simp only [Capture.flush, hphase]
    exact onward_refl s

section

theorem targetGate_eq (ht : 0 < s.bytesTarget) (n : Nat) :
    targetGate s n = none ∧ s.bytesTarget ≤ s.bytesCaptured ∨
      targetGate s n = some (min n (s.bytesTarget-s.bytesCaptured)) := by
  unfold targetGate
  by_cases hover : s.bytesCaptured+n > s.bytesTarget
  · rw [if_pos ⟨ht, hover⟩]
    by_cases hfull : s.bytesCaptured ≥ s.bytesTarget
    · exact .inl ⟨if_pos hfull, hfull⟩
    · rw [if_neg hfull, Nat.min_eq_right (by omega)]
      exact .inr rfl
  · rw [if_neg fun h => hover h.2, Nat.min_eq_left (by omega)]
    exact .inr rfl

theorem wanted_le (s : Capture) (n : Nat) : wanted s n ≤ n := by
  simp only [wanted]
  split <;> omega

structure Kept (target : Nat) (s : Session) : Prop where
  inv : Inv s.capture
  aim : s.capture.bytesTarget = target
  bound : s.capture.accepted.length ≤ target
  stopped : s.capture.stopping = true → target ≤ s.capture.bytesCaptured
  front : s.capture.rejected = 0 → s.capture.accepted = s.offered.take target
  writing : s.writing = true → s.capture.phase = .looping

variable {target : Nat} {s : Session}

theorem kept_begin (target : Nat) : Kept target (begin target) where
  inv := inv_initial target
  aim := rfl
  bound := Nat.zero_le _
  stopped h := by cases h
  front _ := take_nil.symm
  writing h := by cases h

theorem Kept.take_offered (h : Kept target s) (hr : s.capture.rejected = 0) (data : List UInt8) :
    (s.offered++data).take target =
      s.capture.accepted++data.take (target-s.capture.accepted.length) := by
  have hlen := congrArg List.length (h.front hr)
  rw [length_take] at hlen
  have hroom : target-s.offered.length = target-s.capture.accepted.length := by omega
  rw [take_append, ← h.front hr, hroom]

theorem Kept.full (h : Kept target s) (data : List UInt8)
    (hfull : target ≤ s.capture.bytesCaptured) :
    Kept target { s with offered := s.offered++data } := by
  refine { h with front := fun hr => ?_ }
  have hpos := h.inv.pos_le
  have hcaptured := h.inv.captured
  have hzero : target-s.capture.accepted.length = 0 := by omega
  rw [h.take_offered hr, hzero, take_zero, append_nil]

theorem Kept.write (h : Kept target s) (ht : 0 < target) {data : List UInt8}
    (hok : Calm s (.write data)) : Kept target (act s (.write data)) := by
  simp only [act, sdCaptureWrite]
  split_ifs with hidle
  · obtain hstop | hnil := hidle
    · exact h.full data (h.stopped hstop)
    · rwa [length_eq_zero_iff.mp hnil, append_nil]
  · have hpos := h.inv.pos_le
    have hlen := h.inv.length_accepted
    have hcaptured := h.inv.captured
    have htarget := h.aim
    have hbound := h.bound
    obtain ⟨hnone,hfull⟩ | hsome := targetGate_eq (h.aim ▸ ht) data.length
    · simp only [hnone]
      exact h.full data (htarget ▸ hfull)
    · simp only [hsome]
      generalize hn : min data.length (s.capture.bytesTarget-s.capture.bytesCaptured) = n
      have hwant := wanted_le s.capture n
      -- With nothing under way the bytes captured are the bytes accepted.
      have hfits : s.capture.accepted.length+n ≤ target ∧
          n = min data.length (target-s.capture.accepted.length) := by
        obtain ⟨hstash,hstream⟩ | hbelow := hok
        · rw [hstash, hstream] at hlen
          simp only [length_nil] at hlen
          omega
        · omega
      refine { h with
        inv := h.inv.queue (fun hs => hidle (.inl hs)) _ _
        bound := ?_
        front := fun hr => ?_ }
      · simp only [length_append, length_take]
        omega
      · simp only at hr
        have hall : wanted s.capture n = n := by omega
        have htake : data.take n = data.take (target-s.capture.accepted.length) := by
          rw [take_eq_take_iff]
          omega
        simp only [hall, htake]
        exact (h.take_offered (by omega) data).symm

theorem Kept.onward (h : Kept target s) {c : Capture} {w : Bool} (hc : Onward s.capture c)
    (hinv : Inv c) (hw : w = true → c.phase = .looping) :
    Kept target { s with capture := c, writing := w } where
  inv := hinv
  aim := hc.target.trans h.aim
  bound := hc.accepted ▸ h.bound
  stopped hs := by
    obtain hbefore | hreached := hc.stopping hs
    · exact Nat.le_trans (h.stopped hbefore) hc.captured
    · rwa [h.aim] at hreached
  front hr := hc.accepted.trans (h.front (hc.rejected.symm.trans hr))
  writing := hw

theorem Kept.act (h : Kept target s) (ht : 0 < target) {a : Act} (hok : Calm s a) :
    Kept target (act s a) := by
  cases a with
  | write data => exact h.write ht hok
  | receive n =>
    simp only [CaptureLimit.act]
    split
    case isTrue hloop =>
      exact h.onward ⟨rfl, rfl, rfl, le_rfl, .inl⟩ (h.inv.receive hloop.2 n) fun _ => hloop.2
    case isFalse => exact h
  | commit wr =>
    simp only [CaptureLimit.act]
    split
    case isTrue hw =>
      exact h.onward (leave_onward (writeOut_onward (onward_refl _) _ wr hok))
        (h.inv.commit (h.writing hw) wr) nofun
    case isFalse => exact h
  | drain wr =>
    simp only [CaptureLimit.act]
    split
    case isTrue => exact h
    case isFalse hw => exact h.onward (drain_onward wr) (h.inv.drain hok) fun ht => absurd ht hw
  | flush wr =>
    simp only [CaptureLimit.act]
    split
    case isTrue => exact h
    case isFalse hw => exact h.onward (flush_onward wr) (h.inv.flush hok) fun ht => absurd ht hw

theorem Kept.limited (h : Kept target s) : Limited target s where
  bound := by
    have hlen := congrArg List.length h.inv.content
    rw [length_take] at hlen
    have := h.bound
    omega
  exactly _ hdropped hclosed := by
    obtain ⟨hstash,hstream⟩ := h.inv.closed hclosed
    have hlen := h.inv.length_accepted
    have hlower := h.inv.lower
    rw [hstash, hstream] at hlen
    simp only [length_nil] at hlen
    rw [h.inv.content, take_of_length_le (by omega)]
    exact h.front (h.inv.dropped.symm.trans hdropped)

end

/-- The target is kept if no write goes over it while accepted bytes are still under way. -/
theorem capture_target_kept {target : Nat} (ht : 0 < target) {acts : List Act}
    (h : AllSteps act Calm (begin target) acts) : Limited target (session target acts) :=
  (h.invariant (Kept target) (fun _ _ hok hs => hs.act ht hok) (kept_begin target)).limited

/-- One write lands between a receive and its count; the last is trimmed to the target. -/
theorem capture_target_kept_trimmed :
    let acts := [Act.write (List.replicate 300 7), .receive 300, .write (List.replicate 212 8),
      .commit 0, .receive 212, .commit 512, .write (List.replicate 600 9), .receive 512,
      .commit 512, .drain 0, .flush 0]
    (session 1024 acts).capture.phase = .closed ∧ Limited 1024 (session 1024 acts) :=
  ⟨by decide +kernel, capture_target_kept (by decide) (by decide +kernel)⟩

/-- Two writes before the writer runs are both let in, and twice the target is written. -/
theorem queued_writes_exceed_target :
    let acts := [Act.write (List.replicate 512 7), .write (List.replicate 512 7),
      .receive 1024, .commit 1024, .drain 0, .flush 0]
    (session 512 acts).capture.phase = .closed ∧
      (session 512 acts).capture.content.length = 1024 ∧
      (session 512 acts).capture.bytesDropped = 0 ∧ ¬Limited 512 (session 512 acts) := by
  refine ⟨by decide +kernel, by decide +kernel, by decide +kernel, fun h => ?_⟩
  exact absurd h.bound (by decide +kernel)

end IridiumAcars.CaptureLimit
