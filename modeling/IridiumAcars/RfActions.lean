import IridiumAcars.Lib.Runs
import IridiumAcars.Lib.Tasks

/-! The actions that move the tuner, each on its own task, one access to a guard or marker per step.
-/
namespace IridiumAcars.RfActions
open Runs Tasks Function

structure Tuner where
  loHz : Nat
  gainDbX10 : Int
  deriving DecidableEq

inductive Setting
  | hop (hz : Nat)
  | gain (dbX10 : Int)

def Tuner.apply (r : Tuner) : Setting → Tuner
  | .hop hz => { r with loHz := hz }
  | .gain g => { r with gainDbX10 := g }

/-- The scheduled and the manual passes that go through `autotune_try_begin`. -/
inductive Pass
  | gainCal
  | loRescan
  deriving DecidableEq

inductive Scan
  | http
  | serial
  deriving DecidableEq

inductive Survey
  | decode
  | auto
  deriving DecidableEq

inductive Action
  | autotune (p : Pass)
  | scan (o : Scan)
  | survey (k : Survey)
  deriving DecidableEq

/-- Where a task is in its action. A sweep knows the settings it believes to be in force. -/
inductive Phase
  | idle
  | entering (a : Action)
  | claimed
  | probing (k : Survey)
  | admitted (a : Action)
  | ready (a : Action)
  | sweeping (a : Action) (view : Tuner)
  | parked (a : Action)
  | leaving (a : Action)
  deriving DecidableEq

def Phase.inProgress : Phase → Bool
  | .admitted _ | .ready _ | .sweeping _ _ => true
  | .idle | .entering _ | .claimed | .probing _ | .parked _ | .leaving _ => false

def Action.isAutotune : Action → Bool
  | .autotune _ => true
  | .scan _ | .survey _ => false

def Phase.holdsAutotune : Phase → Bool
  | .admitted a | .ready a | .sweeping a _ | .parked a | .leaving a => a.isAutotune
  | .idle | .entering _ | .claimed | .probing _ => false

def Phase.Sweeping (p : Phase) : Prop := ∃ a view, p = .sweeping a view

instance : (p : Phase) → Decidable p.Sweeping
  | .sweeping a view => .isTrue ⟨a, view, rfl⟩
  | .idle | .entering _ | .claimed | .probing _ | .admitted _ | .ready _ | .parked _ | .leaving _ =>
    .isFalse (by rintro ⟨_,_,⟨⟩⟩)

/-- What the last guard before phase `p` lets its task pass in spite of. -/
def Phase.unseen (p q : Phase) : Bool :=
  match p with
  | .entering (.autotune _) => q.inProgress && !q.holdsAutotune
  | .entering (.scan _) | .probing _ => q.inProgress
  | _ => false

/-- `missed` records the actions in progress that a task's last guard did not see. -/
structure Rf (T : Type) where
  autotuneBusy : Bool
  scanType : Nat
  surveyRunning : Bool
  healthBusy : Bool
  tuner : Tuner
  task : T → Phase
  missed : T → T → Bool

section
variable {T : Type} [DecidableEq T]

def initial (tuner : Tuner) : Rf T :=
  ⟨false, 0, false, false, tuner, fun _ => .idle, fun _ _ => false⟩

def Rf.goto (s : Rf T) (t : T) (p : Phase) : Rf T := { s with task := update s.task t p }

def Rf.pass (s : Rf T) (t : T) (p : Phase) : Rf T :=
  { s with missed := update s.missed t fun u => (s.task t).unseen (s.task u) }.goto t p

/-- The flag an action has to win by compare-and-exchange. -/
def Rf.guardHeld (s : Rf T) : Action → Bool
  | .autotune _ => s.autotuneBusy
  | .scan _ => false
  | .survey .decode => s.surveyRunning
  | .survey .auto => s.healthBusy

def Rf.setGuard (s : Rf T) (a : Action) (held : Bool) : Rf T :=
  match a with
  | .autotune _ => { s with autotuneBusy := held }
  | .scan _ => s
  | .survey .decode => { s with surveyRunning := held }
  | .survey .auto => { s with healthBusy := held }

/-- `scan_begin`, directly or by `autotune_scan_mark`. The serial commands set no marker. -/
def Rf.scanBegin (s : Rf T) : Action → Rf T
  | .autotune .gainCal => { s with scanType := 1 }
  | .autotune .loRescan => { s with scanType := 2 }
  | .scan .http => { s with scanType := 2 }
  | .scan .serial => s
  | .survey _ => { s with scanType := 2 }

def Rf.scanEnd (s : Rf T) : Action → Rf T
  | .scan .serial => s
  | .autotune _ | .scan .http | .survey _ => { s with scanType := 0 }

def Action.afterClaim : Action → Phase
  | .autotune p => .admitted (.autotune p)
  | .scan o => .admitted (.scan o)
  | .survey .decode => .probing .decode
  | .survey .auto => .claimed

def Rf.advance (s : Rf T) (t : T) : Rf T :=
  match s.task t with
  | .entering a => if s.guardHeld a then s.goto t .idle else (s.setGuard a true).pass t a.afterClaim
  | .claimed => s.goto t (if s.surveyRunning then .leaving (.survey .auto) else .probing .auto)
  | .probing k =>
    if s.scanType = 0 then s.pass t (.admitted (.survey k)) else s.goto t (.leaving (.survey k))
  | .admitted a => (s.scanBegin a).goto t (.ready a)
  | .parked a => (s.scanEnd a).goto t (.leaving a)
  | .leaving a => (s.setGuard a false).goto t .idle
  | .idle | .ready _ | .sweeping _ _ => s

def Rf.tune (s : Rf T) (t : T) (x : Setting) : Rf T :=
  match s.task t with
  | .ready a => { s with tuner := s.tuner.apply x }.goto t (.sweeping a (s.tuner.apply x))
  | .sweeping a view => { s with tuner := s.tuner.apply x }.goto t (.sweeping a (view.apply x))
  | _ => s

def Rf.park (s : Rf T) (t : T) (x : Setting) : Rf T :=
  match s.task t with
  | .sweeping a _ => { s with tuner := s.tuner.apply x }.goto t (.parked a)
  | _ => s

def Rf.finish (s : Rf T) (t : T) : Rf T :=
  match s.task t with
  | .ready a => s.goto t (.parked a)
  | .sweeping a _ => s.goto t (.parked a)
  | _ => s

/-- The early returns; a gain calibration that cannot hop leaves with the marker set. -/
def Rf.bail (s : Rf T) (t : T) : Rf T :=
  match s.task t with
  | .entering _ => s.goto t .idle
  | .claimed => s.goto t (.leaving (.survey .auto))
  | .probing .auto => s.goto t (.leaving (.survey .auto))
  | .admitted (.autotune .gainCal) => s.goto t (.leaving (.autotune .gainCal))
  | .admitted (.survey k) => s.goto t (.leaving (.survey k))
  | .ready (.autotune .gainCal) => s.goto t (.leaving (.autotune .gainCal))
  | _ => s

def Rf.start (s : Rf T) (t : T) (a : Action) : Rf T :=
  match s.task t with
  | .idle => s.goto t (.entering a)
  | _ => s

inductive Move (T : Type)
  | start (t : T) (a : Action)
  | advance (t : T)
  | tune (t : T) (x : Setting)
  | park (t : T) (x : Setting)
  | finish (t : T)
  | bail (t : T)

def step (s : Rf T) : Move T → Rf T
  | .start t a => s.start t a
  | .advance t => s.advance t
  | .tune t x => s.tune t x
  | .park t x => s.park t x
  | .finish t => s.finish t
  | .bail t => s.bail t

def run (tuner : Tuner) (moves : List (Move T)) : Rf T := moves.foldl step (initial tuner)

end

variable {a : Action}

section
variable {T : Type}

/-- No action makes its first change while one sweeps that a guard of the two has missed. -/
def Admissible (s : Rf T) : Move T → Prop
  | .tune t _ => (∃ a, s.task t = .ready a) → ∀ u, (s.task u).Sweeping →
      s.missed t u = false ∧ s.missed u t = false
  | .start _ _ | .advance _ | .park _ _ | .finish _ | .bail _ => True

instance (p : Phase) : Decidable (∃ a, p = .ready a) :=
  match p with
  | .ready a => .isTrue ⟨a, rfl⟩
  | .idle | .entering _ | .claimed | .probing _ | .admitted _ | .sweeping _ _ | .parked _
  | .leaving _ => .isFalse (by rintro ⟨_,⟨⟩⟩)

instance [Fintype T] (s : Rf T) : (m : Move T) → Decidable (Admissible s m)
  | .tune _ _ => inferInstanceAs (Decidable (_ → _))
  | .start _ _ | .advance _ | .park _ _ | .finish _ | .bail _ => .isTrue trivial

structure Inv (s : Rf T) : Prop where
  busy : ∀ t, (s.task t).holdsAutotune = true → s.autotuneBusy = true
  one_pass : AtMostOne (fun p => p.holdsAutotune = true) s.task
  missed : ∀ t u, (s.task t).inProgress = true → (s.task u).inProgress = true →
    t = u ∨ s.missed t u = true ∨ s.missed u t = true
  one_sweep : AtMostOne Phase.Sweeping s.task
  view : ∀ t a v, s.task t = .sweeping a v → s.tuner = v

theorem inv_initial (tuner : Tuner) : Inv (initial tuner : Rf T) where
  busy _ h := by cases h
  one_pass _ _ h := by cases h
  missed _ _ h := by cases h
  one_sweep _ _ h := by obtain ⟨_,_,⟨⟩⟩ := h
  view _ _ _ h := by cases h

variable {s s' : Rf T} {t : T} {p : Phase}

theorem Inv.no_pass (h : Inv s) (hfree : s.autotuneBusy = false) (u : T) :
    ¬(s.task u).holdsAutotune = true := by
  intro hu
  have := h.busy u hu
  simp [hfree] at this

theorem Phase.Sweeping.inProgress (h : p.Sweeping) : p.inProgress = true := by
  obtain ⟨a,v,rfl⟩ := h
  rfl

theorem Inv.first_change (h : Inv s) (hp : s.task t = .ready a) {x : Setting}
    (hok : Admissible s (.tune t x)) (u : T) : ¬(s.task u).Sweeping := by
  intro hu
  obtain ⟨htu,hut⟩ := hok ⟨a, hp⟩ u hu
  obtain rfl | hmissed | hmissed := h.missed t u (congrArg Phase.inProgress hp) hu.inProgress
  · obtain ⟨b,v,hb⟩ := hu
    cases hp.symm.trans hb
  · cases htu.symm.trans hmissed
  · cases hut.symm.trans hmissed

theorem scanBegin_eq (s : Rf T) (a : Action) : ∃ n, s.scanBegin a = { s with scanType := n } := by
  rcases a with (_ | _) | (_ | _) | _ <;> exact ⟨_, rfl⟩

theorem scanEnd_eq (s : Rf T) (a : Action) : ∃ n, s.scanEnd a = { s with scanType := n } := by
  rcases a with _ | (_ | _) | _ <;> exact ⟨_, rfl⟩

variable [DecidableEq T]

structure Shift (s s' : Rf T) (t : T) (p : Phase) : Prop where
  task : s'.task = update s.task t p
  busy : s'.autotuneBusy = s.autotuneBusy ∨ (s.task t).holdsAutotune = true ∨ s.autotuneBusy = false
  pass : p.holdsAutotune = true → s'.autotuneBusy = true ∧
    ((s.task t).holdsAutotune = true ∨ s.autotuneBusy = false)
  others : ∀ u, u ≠ t → s'.missed u = s.missed u
  action : p.inProgress = true → (s.task t).inProgress = true ∧ s'.missed t = s.missed t ∨
    ∀ u, (s.task u).inProgress = true → s'.missed t u = true
  sweep : p.Sweeping → (s.task t).Sweeping ∨ ∀ u, ¬(s.task u).Sweeping
  tuner : s'.tuner = s.tuner ∨ (s.task t).Sweeping ∨ ∀ u, ¬(s.task u).Sweeping
  view : ∀ a v, p = .sweeping a v → s'.tuner = v

theorem Inv.mover (h : Inv s) (hs : Shift s s' t p) {u : T} (hut : u ≠ t)
    (hp : p.inProgress = true) (hu : (s.task u).inProgress = true) :
    s'.missed t u = true ∨ s'.missed u t = true := by
  obtain ⟨hold,hrow⟩ | hall := hs.action hp
  · rw [hrow, hs.others u hut]
    exact (h.missed t u hold hu).resolve_left (Ne.symm hut)
  · exact .inl (hall u hu)

theorem Inv.shift (h : Inv s) (hs : Shift s s' t p) : Inv s' where
  busy u hu := by
    rw [hs.task] at hu
    by_cases hut : u = t
    · subst hut
      rw [update_self] at hu
      exact (hs.pass hu).1
    · rw [update_of_ne hut] at hu
      obtain hsame | hheld | hfree := hs.busy
      · exact hsame.trans (h.busy u hu)
      · exact absurd (h.one_pass u t hu hheld) hut
      · exact absurd hu (h.no_pass hfree u)
  one_pass := by
    rw [hs.task]
    exact h.one_pass.update fun hp => (hs.pass hp).2.imp_right h.no_pass
  missed u v hu hv := by
    rw [hs.task] at hu hv
    by_cases hut : u = t <;> by_cases hvt : v = t
    · exact .inl (hut.trans hvt.symm)
    · subst hut
      rw [update_self] at hu
      rw [update_of_ne hvt] at hv
      exact .inr (h.mover hs hvt hu hv)
    · subst hvt
      rw [update_of_ne hut] at hu
      rw [update_self] at hv
      exact .inr (h.mover hs hut hv hu).symm
    · rw [update_of_ne hut] at hu
      rw [update_of_ne hvt] at hv
      rw [hs.others u hut, hs.others v hvt]
      exact h.missed u v hu hv
  one_sweep := by
    rw [hs.task]
    exact h.one_sweep.update hs.sweep
  view u a v hu := by
    rw [hs.task] at hu
    by_cases hut : u = t
    · subst hut
      rw [update_self] at hu
      exact hs.view a v hu
    · rw [update_of_ne hut] at hu
      obtain hsame | hmine | hnone := hs.tuner
      · exact hsame.trans (h.view u a v hu)
      · -- The tuner moves under a task that sweeps, and then no other task does.
        exact absurd (h.one_sweep u t ⟨a, v, hu⟩ hmine) hut
      · exact absurd ⟨a, v, hu⟩ (hnone u)

theorem Inv.quiet (h : Inv s) (htask : s'.task = update s.task t p)
    (hbusy : s'.autotuneBusy = s.autotuneBusy) (htuner : s'.tuner = s.tuner)
    (hothers : ∀ u, u ≠ t → s'.missed u = s.missed u)
    (hpass : p.holdsAutotune = true → (s.task t).holdsAutotune = true)
    (haction : p.inProgress = true → (s.task t).inProgress = true ∧ s'.missed t = s.missed t ∨
      ∀ u, (s.task u).inProgress = true → s'.missed t u = true)
    (hview : ∀ a v, p ≠ .sweeping a v) : Inv s' :=
  h.shift
    { task := htask
      busy := .inl hbusy
      pass := fun hp => ⟨hbusy.trans (h.busy t (hpass hp)), .inl (hpass hp)⟩
      others := hothers
      action := haction
      sweep := fun ⟨a, v, hp⟩ => absurd hp (hview a v)
      tuner := .inl htuner
      view := fun a v hp => absurd hp (hview a v) }

theorem Inv.outside (h : Inv s) (htask : s'.task = update s.task t p)
    (hbusy : s'.autotuneBusy = s.autotuneBusy) (htuner : s'.tuner = s.tuner)
    (hothers : ∀ u, u ≠ t → s'.missed u = s.missed u)
    (hpass : p.holdsAutotune = false) (haction : p.inProgress = false) : Inv s' := by
  refine h.quiet htask hbusy htuner hothers (fun hp => ?_) (fun hp => ?_) (fun a v hp => ?_)
  · rw [hpass] at hp
    cases hp
  · rw [haction] at hp
    cases hp
  · subst hp
    cases haction

theorem Inv.goto_outside (h : Inv s) (hpass : p.holdsAutotune = false)
    (haction : p.inProgress = false) : Inv (s.goto t p) :=
  h.outside rfl rfl rfl (fun _ _ => rfl) hpass haction

theorem Inv.onward (h : Inv s) (htask : s'.task = update s.task t p)
    (hbusy : s'.autotuneBusy = s.autotuneBusy) (htuner : s'.tuner = s.tuner)
    (hmissed : s'.missed = s.missed) (hpass : p.holdsAutotune = (s.task t).holdsAutotune)
    (haction : p.inProgress = true → (s.task t).inProgress = true)
    (hview : ∀ a v, p ≠ .sweeping a v) : Inv s' :=
  h.quiet htask hbusy htuner (fun u _ => congrFun hmissed u) (fun hp => hpass.symm.trans hp)
    (fun hp => .inl ⟨haction hp, congrFun hmissed t⟩) hview

theorem pass_missed (u : T) : (s.pass t p).missed t u = (s.task t).unseen (s.task u) :=
  congrFun (update_self t _ s.missed) u

theorem pass_others {u : T} (hut : u ≠ t) : (s.pass t p).missed u = s.missed u :=
  update_of_ne hut _ _

theorem Inv.entering (h : Inv s) (hp : s.task t = .entering a)
    (hfree : s.guardHeld a = false) : Inv ((s.setGuard a true).pass t a.afterClaim) := by
  cases a with
  | autotune x =>
    exact h.shift
      { task := rfl
        busy := .inr (.inr hfree)
        pass := fun _ => ⟨rfl, .inr hfree⟩
        others := fun _ => pass_others
        action := fun _ => .inr fun u hu => by
          rw [pass_missed]
          change (s.task t).unseen (s.task u) = true
          simp [hp, Phase.unseen, hu, h.no_pass hfree u]
        sweep := fun ⟨_, _, hx⟩ => by cases hx
        tuner := .inl rfl
        view := fun _ _ hx => by cases hx }
  | scan o =>
    refine h.quiet rfl rfl rfl (fun _ => pass_others) (fun hx => by cases hx)
      (fun _ => .inr fun u hu => ?_) (fun _ _ hx => by cases hx)
    rwa [Rf.setGuard, pass_missed, hp]
  | survey k => cases k <;> exact h.outside rfl rfl rfl (fun _ => pass_others) rfl rfl

theorem Inv.probing (h : Inv s) {k : Survey} (hp : s.task t = .probing k) :
    Inv (s.pass t (.admitted (.survey k))) := by
  refine h.quiet rfl rfl rfl (fun _ => pass_others) (fun hx => by cases hx)
    (fun _ => .inr fun u hu => ?_) (fun _ _ hx => by cases hx)
  rwa [pass_missed, hp]

theorem Inv.leaving (h : Inv s) (hp : s.task t = .leaving a) :
    Inv ((s.setGuard a false).goto t .idle) := by
  cases a with
  | autotune x =>
    exact h.shift
      { task := rfl
        busy := .inr (.inl (by rw [hp]; rfl))
        pass := fun hx => by cases hx
        others := fun _ _ => rfl
        action := fun hx => by cases hx
        sweep := fun ⟨_, _, hx⟩ => by cases hx
        tuner := .inl rfl
        view := fun _ _ hx => by cases hx }
  | scan o => exact h.goto_outside rfl rfl
  | survey k => cases k <;> exact h.outside rfl rfl rfl (fun _ _ => rfl) rfl rfl

theorem Inv.advance (h : Inv s) : Inv (s.advance t) := by
  cases hp : s.task t with
  | idle | ready a | sweeping a v => simpa only [Rf.advance, hp] using h
  | entering a =>
    simp only [Rf.advance, hp]
    split_ifs with hheld
    · exact h.goto_outside rfl rfl
    · exact h.entering hp (Bool.eq_false_of_not_eq_true hheld)
  | claimed =>
    simp only [Rf.advance, hp]
    split_ifs with hrun
    · exact h.goto_outside rfl rfl
    · exact h.goto_outside rfl rfl
  | probing k =>
    simp only [Rf.advance, hp]
    split
    · exact h.probing hp
    · exact h.goto_outside rfl rfl
  | admitted a =>
    simp only [Rf.advance, hp]
    obtain ⟨n,hn⟩ := scanBegin_eq s a
    rw [hn]
    have hpass : (s.task t).holdsAutotune = a.isAutotune := congrArg Phase.holdsAutotune hp
    have hprog : (s.task t).inProgress = true := congrArg Phase.inProgress hp
    exact h.onward rfl rfl rfl rfl hpass.symm (fun _ => hprog) (fun _ _ => nofun)
  | parked a =>
    simp only [Rf.advance, hp]
    obtain ⟨n,hn⟩ := scanEnd_eq s a
    rw [hn]
    have hpass : (s.task t).holdsAutotune = a.isAutotune := congrArg Phase.holdsAutotune hp
    exact h.onward rfl rfl rfl rfl hpass.symm nofun (fun _ _ => nofun)
  | leaving a => simpa only [Rf.advance, hp] using h.leaving hp

theorem Inv.retune (h : Inv s) {r : Tuner} (hprog : (s.task t).inProgress = true)
    (hmine : (s.task t).Sweeping ∨ ∀ u, ¬(s.task u).Sweeping)
    (hpass : p.holdsAutotune = (s.task t).holdsAutotune)
    (hview : ∀ a v, p = .sweeping a v → r = v) : Inv ({ s with tuner := r }.goto t p) :=
  h.shift
    { task := rfl
      busy := .inl rfl
      pass := fun hx => ⟨h.busy t (hpass.symm.trans hx), .inl (hpass.symm.trans hx)⟩
      others := fun _ _ => rfl
      action := fun _ => .inl ⟨hprog, rfl⟩
      sweep := fun _ => hmine
      tuner := .inr hmine
      view := hview }

theorem Inv.tune (h : Inv s) {x : Setting} (hok : Admissible s (.tune t x)) :
    Inv (s.tune t x) := by
  cases hp : s.task t with
  | ready a =>
    simp only [Rf.tune, hp]
    refine h.retune (congrArg Phase.inProgress hp) (.inr (h.first_change hp hok))
      (congrArg Phase.holdsAutotune hp).symm ?_
    intro b w hw
    cases hw
    rfl
  | sweeping a v =>
    simp only [Rf.tune, hp]
    refine h.retune (congrArg Phase.inProgress hp) (.inl ⟨a, v, hp⟩)
      (congrArg Phase.holdsAutotune hp).symm ?_
    intro b w hw
    cases hw
    rw [h.view t a v hp]
  | _ =>
    simpa only [Rf.tune, hp] using h

theorem Inv.park (h : Inv s) (x : Setting) : Inv (s.park t x) := by
  cases hp : s.task t with
  | sweeping a v =>
    simp only [Rf.park, hp]
    exact h.retune (congrArg Phase.inProgress hp) (.inl ⟨a, v, hp⟩)
      (congrArg Phase.holdsAutotune hp).symm fun _ _ => nofun
  | _ =>
    simpa only [Rf.park, hp] using h

theorem Inv.finish (h : Inv s) : Inv (s.finish t) := by
  cases hp : s.task t with
  | ready a | sweeping a v =>
    simp only [Rf.finish, hp]
    exact h.onward rfl rfl rfl rfl (congrArg Phase.holdsAutotune hp).symm nofun fun _ _ => nofun
  | _ =>
    simpa only [Rf.finish, hp] using h

theorem Inv.leave (h : Inv s)
    (hpass : a.isAutotune = (s.task t).holdsAutotune) : Inv (s.goto t (.leaving a)) :=
  h.onward rfl rfl rfl rfl hpass nofun fun _ _ => nofun

theorem Inv.bail (h : Inv s) : Inv (s.bail t) := by
  cases hp : s.task t with
  | entering a =>
    simp only [Rf.bail, hp]
    exact h.goto_outside rfl rfl
  | claimed =>
    simp only [Rf.bail, hp]
    exact h.leave (congrArg Phase.holdsAutotune hp).symm
  | probing k =>
    cases k <;> simp only [Rf.bail, hp]
    · exact h
    · exact h.leave (congrArg Phase.holdsAutotune hp).symm
  | admitted a =>
    rcases a with (_ | _) | _ | _ <;> simp only [Rf.bail, hp]
    · exact h.leave (congrArg Phase.holdsAutotune hp).symm
    · exact h
    · exact h
    · exact h.leave (congrArg Phase.holdsAutotune hp).symm
  | ready a =>
    rcases a with (_ | _) | _ | _ <;> simp only [Rf.bail, hp]
    · exact h.leave (congrArg Phase.holdsAutotune hp).symm
    all_goals exact h
  | _ => simpa only [Rf.bail, hp] using h

theorem Inv.start (h : Inv s) (a : Action) : Inv (s.start t a) := by
  cases hp : s.task t with
  | idle =>
    simp only [Rf.start, hp]
    exact h.goto_outside rfl rfl
  | _ =>
    simpa only [Rf.start, hp] using h

theorem Inv.step (h : Inv s) {m : Move T} (hok : Admissible s m) : Inv (step s m) := by
  cases m with
  | start t a => exact h.start a
  | advance t => exact h.advance
  | tune t x => exact h.tune hok
  | park t x => exact h.park x
  | finish t => exact h.finish
  | bail t => exact h.bail

end

end IridiumAcars.RfActions
