import IridiumAcars.SdCapture

/-! The gates of the capture: the mode flag, the state and the positions of control task and writer.
-/
namespace IridiumAcars.SdCapture

def Worker.mute (skip : Bool) : Worker → Bool
  | .idle => true
  | .recording _ => skip
  | .opening _ | .beginning _ | .chunking _ _ | .sending _ _ => false

def Feed.sending : Feed → Bool
  | .writing _ => true
  | .idle | .modeRead _ => false

def Sd.controlSound (s : Sd) : Bool :=
  match s.ctl with
  | .mounting _ _ => !s.feed.sending && s.worker.mute s.burstSkip
  | .opening .bursts _ => decide (s.feed = .idle)
  | .stopping => match s.state with
    | .idle => false
    | .active => decide (s.bytesTarget ≤ s.bytesCaptured+(s.stash.length+s.stream.length))
    | .stopping => true
  | .idle | .starting _ _ | .opening .continuous _ | .backingOut | .waiting => true

/-- A burst capture is asked for only while none runs and begins between calls of the feed, the
buffer is reset while nobody is about to send, a stop comes before the writer is idle, and a record
is shorter than 4 GiB. -/
def Sound (s : Sd) : Move → Prop
  | .startBursts => s.ctl = .idle → s.state = .idle
  | .control => s.controlSound = true
  | .begin b => hdrSize.toNat+4*b.lengthSamples.toNat < 2^32
  | .start _ | .stop | .refuse | .write _ | .feed | .chunk _ | .finish | .worker _ | .receive
  | .close | .writer => True

instance (s : Sd) : (m : Move) → Decidable (Sound s m)
  | .startBursts => inferInstanceAs (Decidable (s.ctl = .idle → s.state = .idle))
  | .control => inferInstanceAs (Decidable (s.controlSound = true))
  | .begin b => inferInstanceAs (Decidable (hdrSize.toNat+4*b.lengthSamples.toNat < 2^32))
  | .start _ | .stop | .refuse | .write _ | .feed | .chunk _ | .finish | .worker _ | .receive
  | .close | .writer => .isTrue trivial

section

structure Gates where
  state : CapState
  burstMode : Bool
  ctl : Ctl
  writer : Writer
  kind : Option Kind

def Sd.gates (s : Sd) : Gates := ⟨s.state, s.burstMode, s.ctl, s.writer, s.file.map File.kind⟩

def Ctl.armed : Ctl → Bool
  | .starting .bursts _ | .mounting .bursts _ | .opening .bursts _ | .backingOut => true
  | .idle | .starting .continuous _ | .mounting .continuous _ | .opening .continuous _ | .stopping
  | .waiting => false

def Ctl.entered : Ctl → Bool
  | .mounting _ _ | .opening _ _ => true
  | .idle | .starting _ _ | .backingOut | .stopping | .waiting => false

structure Gate (g : Gates) : Prop where
  opened : g.kind.isSome = true ↔ g.state ≠ .idle ∧ g.writer = .loop
  resting : g.state = .idle → g.writer = .loop ∧ g.burstMode = g.ctl.armed
  armed : g.ctl.armed = true → g.state = .idle
  entered : g.ctl.entered = true → g.state = .idle
  waiting : g.ctl = .waiting → g.state ≠ .active
  closing : g.writer ≠ .loop → g.state = .stopping
  idling : g.writer = .idling → g.burstMode = false
  raw : g.kind = some .continuous → g.burstMode = false
  bursts : g.state = .active → g.kind = some .bursts → g.burstMode = true

theorem gate_initial : Gate initial.gates where
  opened := by simp [Sd.gates, initial]
  resting _ := ⟨rfl, rfl⟩
  armed h := by cases h
  entered h := by cases h
  waiting h := by cases h
  closing h := absurd rfl h
  idling h := by cases h
  raw h := by cases h
  bursts h := by cases h

theorem Gate.move {g : Gates} {c : Ctl} (h : Gate g)
    (hrest : g.state = .idle → c.armed = g.ctl.armed) (harm : c.armed = true → g.state = .idle)
    (hent : c.entered = true → g.state = .idle) (hwait : c = .waiting → g.state ≠ .active) :
    Gate { g with ctl := c } where
  opened := h.opened
  resting hi := ⟨(h.resting hi).1, (h.resting hi).2.trans (hrest hi).symm⟩
  armed := harm
  entered := hent
  waiting := hwait
  closing := h.closing
  idling := h.idling
  raw := h.raw
  bursts := h.bursts

variable {s : Sd}

theorem Gate.startBursts (h : Gate s.gates) (hok : Sound s .startBursts) :
    Gate s.startBursts.gates := by
  cases hc : s.ctl with
  | idle =>
    have hidle := hok hc
    have hw := (h.resting hidle).1
    simp only [Sd.startBursts, hc]
    refine ⟨h.opened, fun _ => ⟨hw, rfl⟩, fun _ => hidle, nofun, nofun, h.closing, fun hi => ?_,
      fun hk => ?_, fun _ _ => rfl⟩
    · cases hw.symm.trans hi
    · have hsome := h.opened.mp (by rw [show s.gates.kind = some .continuous from hk]; rfl)
      exact absurd hidle hsome.1
  | _ =>
    simpa only [Sd.startBursts, hc] using h

theorem Gate.start (h : Gate s.gates) (target : Nat) : Gate (s.start target).gates := by
  cases hc : s.ctl with
  | idle =>
    simp only [Sd.start, hc]
    exact h.move (fun _ => (congrArg Ctl.armed hc).symm) nofun nofun nofun
  | _ =>
    simpa only [Sd.start, hc] using h

theorem Gate.stop (h : Gate s.gates) : Gate s.stop.gates := by
  cases hc : s.ctl with
  | idle =>
    simp only [Sd.stop, hc]
    split_ifs with hactive
    · exact h.move (fun _ => (congrArg Ctl.armed hc).symm) nofun nofun nofun
    · assumption
  | _ =>
    simpa only [Sd.stop, hc] using h

theorem armed_refused (k : Kind) (target : Nat) :
    (Sd.refused k).armed = (Ctl.starting k target).armed := by cases k <;> rfl

theorem entered_refused (k : Kind) : (Sd.refused k).entered = false := by cases k <;> rfl

theorem refused_ne_waiting (k : Kind) : Sd.refused k ≠ .waiting := by cases k <;> exact nofun

theorem Gate.refused (h : Gate s.gates) {k : Kind} {target : Nat}
    (hc : s.ctl.armed = (Ctl.starting k target).armed) :
    Gate { s with ctl := Sd.refused k }.gates := by
  have hsame : (Sd.refused k).armed = s.gates.ctl.armed := (armed_refused k target).trans hc.symm
  refine h.move (fun _ => hsame) (fun harm => h.armed (hsame.symm.trans harm)) (fun hent => ?_)
    fun hw => absurd hw (refused_ne_waiting k)
  rw [entered_refused] at hent
  cases hent

theorem Gate.refuse (h : Gate s.gates) : Gate s.refuse.gates := by
  cases hc : s.ctl with
  | mounting k target =>
    simp only [Sd.refuse, hc]
    refine h.refused (?_ : _ = (Ctl.starting k target).armed)
    rw [hc]
    cases k <;> rfl
  | _ =>
    simpa only [Sd.refuse, hc] using h

theorem Gate.file_none (h : Gate s.gates) (hidle : s.state = .idle) : s.file = none := by
  cases hf : s.file with
  | none => rfl
  | some f => exact absurd hidle (h.opened.mp (by rw [Sd.gates, hf]; rfl)).1

theorem Gate.opening (h : Gate s.gates) {k : Kind} {target : Nat} (hc : s.ctl = .opening k target) :
    Gate s.control.gates := by
  have hidle : s.state = .idle := h.entered (congrArg Ctl.entered hc)
  obtain ⟨hw,hmode⟩ := h.resting hidle
  have hmode : s.burstMode = (Ctl.opening k target).armed := hmode.trans (congrArg Ctl.armed hc)
  simp only [Sd.control, hc]
  refine ⟨⟨fun _ => ⟨nofun, hw⟩, fun _ => rfl⟩, nofun, nofun, nofun, nofun, fun hl => absurd hw hl,
    fun hi => ?_, fun hk => ?_, fun _ hk => ?_⟩
  · cases hw.symm.trans hi
  · cases Option.some.inj hk
    exact hmode
  · cases Option.some.inj hk
    exact hmode

theorem Gate.stopping (h : Gate s.gates) (hc : s.ctl = .stopping) (hs : s.state ≠ .idle) :
    Gate s.control.gates := by
  simp only [Sd.control, hc]
  refine ⟨⟨fun ho => ⟨nofun, (h.opened.mp ho).2⟩, fun ho => h.opened.mpr ⟨hs, ho.2⟩⟩, nofun, nofun,
    nofun, fun _ => nofun, fun _ => rfl, h.idling, h.raw, nofun⟩

theorem Gate.disarm (h : Gate s.gates) (hs : s.state ≠ .active) :
    Gate { s with burstMode := false, ctl := .idle }.gates where
  opened := h.opened
  resting hi := ⟨(h.resting hi).1, rfl⟩
  armed := nofun
  entered := nofun
  waiting := nofun
  closing := h.closing
  idling _ := rfl
  raw _ := rfl
  bursts hactive := absurd hactive hs

theorem Gate.control (h : Gate s.gates) (hok : Sound s .control) : Gate s.control.gates := by
  rw [Sound, Sd.controlSound] at hok
  cases hc : s.ctl with
  | idle => simpa only [Sd.control, hc] using h
  | starting k target =>
    simp only [Sd.control, hc]
    split_ifs with hidle
    · refine h.move (fun _ => ?_) (fun _ => hidle) (fun _ => hidle) nofun
      rw [Sd.gates, hc]
      cases k <;> rfl
    · exact h.refused (congrArg Ctl.armed hc)
  | mounting k target =>
    have hidle : s.state = .idle := h.entered (congrArg Ctl.entered hc)
    simp only [Sd.control, hc]
    refine h.move (fun _ => ?_) (fun _ => hidle) (fun _ => hidle) nofun
    rw [Sd.gates, hc]
    cases k <;> rfl
  | opening k target => exact h.opening hc
  | backingOut =>
    have hidle : s.state = .idle := h.armed (congrArg Ctl.armed hc)
    simp only [Sd.control, hc]
    exact h.disarm (by rw [hidle]; exact nofun)
  | stopping =>
    refine h.stopping hc fun hidle => ?_
    rw [hc, hidle] at hok
    cases hok
  | waiting =>
    simp only [Sd.control, hc]
    exact h.disarm (h.waiting hc)

theorem Gate.receive (h : Gate s.gates) : Gate s.receive.gates := by
  by_cases hrun : s.state ≠ .idle ∧ s.writer = .loop
  · have hgates : s.receive.gates = { s.gates with state := s.receive.state } := by
      simp only [Sd.receive, if_pos hrun, Sd.gates, Option.map_map]
      rfl
    have hstate : s.receive.state = s.state ∨ s.receive.state = .stopping := by
      simp only [Sd.receive, if_pos hrun]
      split
      · exact .inr rfl
      · exact .inl rfl
    rw [hgates]
    obtain hsame | hstop := hstate
    · rwa [hsame]
    · rw [hstop]
      refine ⟨⟨fun _ => ⟨nofun, hrun.2⟩, fun _ => h.opened.mpr hrun⟩, nofun, fun ha => ?_,
        fun he => ?_, fun _ => nofun, fun _ => rfl, h.idling, h.raw, nofun⟩
      · exact absurd (h.armed ha) hrun.1
      · exact absurd (h.entered he) hrun.1
  · rwa [Sd.receive, if_neg hrun]

theorem Gate.close (h : Gate s.gates) : Gate s.close.gates := by
  by_cases hrun : s.state = .stopping ∧ s.writer = .loop
  · have hgates : s.close.gates = ⟨s.state, s.burstMode, s.ctl, .clearing, none⟩ := by
      simp only [Sd.close, if_pos hrun]
      cases hf : s.file with
      | none => simp only [Sd.gates]; rfl
      | some f => rfl
    have hidle : s.state ≠ .idle := by rw [hrun.1]; exact nofun
    rw [hgates]
    exact ⟨⟨nofun, nofun⟩, fun hi => absurd hi hidle, h.armed, h.entered, h.waiting,
      fun _ => hrun.1, nofun, nofun, nofun⟩
  · rwa [Sd.close, if_neg hrun]

theorem Gate.writerStep (h : Gate s.gates) : Gate s.writerStep.gates := by
  cases hw : s.writer with
  | loop => simpa only [Sd.writerStep, hw] using h
  | clearing =>
    have hstop : s.state = .stopping := h.closing (by rw [Sd.gates, hw]; exact nofun)
    have hfile : s.gates.kind.isSome ≠ true := fun ho => by
      have hloop : s.writer = .loop := (h.opened.mp ho).2
      rw [hw] at hloop
      cases hloop
    simp only [Sd.writerStep, hw]
    refine ⟨⟨fun ho => absurd ho hfile, nofun⟩, fun hi => ?_, h.armed, h.entered, h.waiting,
      fun _ => hstop, fun _ => rfl, fun _ => rfl, fun hactive => ?_⟩
    · cases hstop.symm.trans hi
    · cases hstop.symm.trans hactive
  | idling =>
    have hstop : s.state = .stopping := h.closing (by rw [Sd.gates, hw]; exact nofun)
    have harmed : s.ctl.armed ≠ true := fun ha => by cases hstop.symm.trans (h.armed ha)
    have hfile : s.gates.kind.isSome ≠ true := fun ho => by
      have hloop : s.writer = .loop := (h.opened.mp ho).2
      rw [hw] at hloop
      cases hloop
    have hmode : s.burstMode = false := h.idling hw
    simp only [Sd.writerStep, hw]
    refine ⟨⟨fun ho => absurd ho hfile, fun ho => absurd rfl ho.1⟩, fun _ => ⟨rfl, ?_⟩,
      fun _ => rfl, fun _ => rfl, fun _ => nofun, fun hl => absurd rfl hl, nofun, h.raw, nofun⟩
    exact hmode.trans (Bool.eq_false_iff.mpr harmed).symm

theorem gates_write (s : Sd) (data : List UInt8) : (s.write data).gates = s.gates := by
  unfold Sd.write
  split
  · split <;> rfl
  · rfl

theorem gates_feedStep (s : Sd) : s.feedStep.gates = s.gates := by
  unfold Sd.feedStep
  split
  · rfl
  · split
    · simp only [Sd.gates, Option.map_map]
      rfl
    · rfl
  · rfl

theorem gates_begin (s : Sd) (b : Burst) : (s.begin b).gates = s.gates := by
  unfold Sd.begin
  split
  · split <;> rfl
  · rfl

theorem gates_chunk (s : Sd) (n : Nat) : (s.chunk n).gates = s.gates := by
  unfold Sd.chunk
  split
  · split <;> rfl
  · rfl

theorem gates_finish (s : Sd) : s.finish.gates = s.gates := by
  unfold Sd.finish
  split <;> rfl

theorem gates_workerStep (s : Sd) (tUs : UInt64) : (s.workerStep tUs).gates = s.gates := by
  unfold Sd.workerStep
  split
  · split
    · simp only [Sd.gates, Option.map_map]
      rfl
    · rfl
  · split <;> rfl
  · split <;> rfl
  all_goals rfl

theorem Gate.step (h : Gate s.gates) {m : Move} (hok : Sound s m) : Gate (step s m).gates := by
  cases m with
  | startBursts => exact h.startBursts hok
  | start target => exact h.start target
  | stop => exact h.stop
  | control => exact h.control hok
  | refuse => exact h.refuse
  | write data => exact (gates_write s data).symm ▸ h
  | feed => exact (gates_feedStep s).symm ▸ h
  | begin b => exact (gates_begin s b).symm ▸ h
  | chunk n => exact (gates_chunk s n).symm ▸ h
  | finish => exact (gates_finish s).symm ▸ h
  | worker tUs => exact (gates_workerStep s tUs).symm ▸ h
  | receive => exact h.receive
  | close => exact h.close
  | writer => exact h.writerStep

end

end IridiumAcars.SdCapture
