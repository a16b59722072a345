import IridiumAcars.Lib.Runs
import IridiumAcars.Lib.Selection

/-! The abort flag of `decode_survey.c` in every order of its loads and stores. -/
namespace IridiumAcars.SurveyStop
open Runs List
open Selection (keepGreater)

def dsFloorDwellMs : UInt64 := 7200000
def dsFloorVisits : UInt32 := 24
def dsVisitMs : Nat := 300000
def scanSettleMs : Nat := 500
def dsGuardMinMs : Nat := 2500
def dsGuardMaxMs : Nat := 4000

structure Center where
  centerHz : UInt32
  lwDa : UInt32
  lwDaValid : UInt32
  nbBursts : UInt32
  dwellMs : UInt64
  visits : UInt32
  eliminated : Bool
  deriving DecidableEq

/-- The ranking's floats: `ds_center_rate_per_h`, and `ds_lead_beats` at `DS_ELIM_Z`. -/
structure Ranking (K : Type*) where
  ratePerH : Center → K
  leadBeats : Center → Center → Bool

def dsCenterAddVisit (c : Center) (lwDa valid nb : UInt32) (dwellMs : UInt64) : Center :=
  { c with
    lwDa := c.lwDa+lwDa
    lwDaValid := c.lwDaValid+valid
    nbBursts := c.nbBursts+nb
    dwellMs := c.dwellMs+dwellMs
    visits := c.visits+1 }

def dsAliveCount (cs : List Center) : Nat := cs.countP fun c => !c.eliminated

def dsConverged (cs : List Center) : Bool := decide (dsAliveCount cs ≤ 1)

def dsCenterEligible (c : Center) : Bool :=
  !c.eliminated && decide (dsFloorDwellMs ≤ c.dwellMs) && decide (dsFloorVisits ≤ c.visits)

section
variable {K : Type*} [LinearOrder K] (R : Ranking K)

def dsLeader (cs : List Center) : Option (Center × Nat) :=
  match cs.zipIdx.filter fun x => !x.1.eliminated with
  | [] => none
  | x::xs => some (xs.foldl (keepGreater fun y => R.ratePerH y.1) x)

def dsEliminatePass (cs : List Center) : List Center :=
  match dsLeader R cs with
  | none => cs
  | some lead => cs.zipIdx.map fun x =>
    if x.2 = lead.2 ∨ x.1.eliminated then x.1
    else if !dsCenterEligible x.1 then x.1
    else if R.leadBeats lead.1 x.1 then { x.1 with eliminated := true } else x.1

end

inductive DsPhase
  | idle
  | shortlist
  | rr
  | place
  | done
  | aborted
  deriving DecidableEq

inductive Starter
  | idle
  | claimed
  | checked
  | armed
  deriving DecidableEq

inductive Wait
  | settle
  | guardBefore
  | dwell
  | guardAfter
  deriving DecidableEq

/-- The next statement of the survey task. A `visit` is at an index of the shortlist. -/
inductive Pc
  | absent
  | snapshot
  | prepass
  | shortlisted
  | head
  | headPoll
  | budget
  | visit (i : Nat)
  | hopFailed (i : Nat)
  | waiting (w : Wait) (i waited : Nat)
  | fold (i : Nat)
  | visited (i : Nat)
  | cycleEnd
  | place
  | parkPick (pick : UInt32)
  | persist (pick : UInt32)
  | abortPark
  | noResult
  | finish
  | finishRunning
  deriving DecidableEq

structure Ending where
  asked : Bool
  phase : Option DsPhase
  hz : UInt32
  nvsLo : UInt32
  persisted : Option UInt32
  deriving DecidableEq

/-- `stoppers` counts the stop calls between load and store; the last fields record the survey. -/
structure Survey where
  running : Bool
  abort : Bool
  phase : DsPhase
  nvsLo : UInt32
  curHz : UInt32
  centers : List Center
  starter : Starter
  task : Pc
  stoppers : Nat
  asked : Bool
  entered : Bool
  persisted : Option UInt32
  endings : List Ending

def initial (curHz : UInt32) : Survey :=
  ⟨false, false, .idle, 0, curHz, [], .idle, .absent, 0, false, false, none, []⟩

structure Air where
  scanning : Bool
  created : Bool
  lo : UInt32
  hz : UInt32
  shortlist : List UInt32
  hop : Bool
  drained : Bool
  spent : Bool
  lwDa : UInt32
  valid : UInt32
  pick : UInt32
  written : Bool

namespace Survey

def goto (s : Survey) (pc : Pc) : Survey := { s with task := pc }

def hop (s : Survey) (hz : UInt32) (ok : Bool) : Survey := if ok then { s with curHz := hz } else s

def poll (s : Survey) (pc : Pc) : Survey := if s.abort then s.goto .abortPark else s.goto pc

def endWith (s : Survey) (phase : Option DsPhase) : Survey :=
  { s with
    running := false
    asked := false
    endings := s.endings++[⟨s.asked, phase, s.curHz, s.nvsLo, s.persisted⟩] }

def startCall (s : Survey) : Survey :=
  if s.running then s
  else
    { s with
      running := true
      starter := .claimed
      asked := false
      entered := false
      persisted := none }

def startNext (s : Survey) (a : Air) : Survey :=
  match s.starter with
  | .idle => s
  | .claimed =>
    if a.scanning then { s.endWith none with starter := .idle } else { s with starter := .checked }
  | .checked => { s with abort := false, starter := .armed }
  | .armed =>
    if a.created then { s with starter := .idle, task := .snapshot }
    else { s.endWith none with starter := .idle }

end Survey

def Wait.next (i : Nat) : Wait → Pc
  | .settle => .waiting .guardBefore i 0
  | .guardBefore => .waiting .dwell i 0
  | .dwell => .waiting .guardAfter i 0
  | .guardAfter => .fold i

def Wait.onward (w : Wait) (i waited : Nat) (drained : Bool) : Pc :=
  match w with
  | .settle => if waited < scanSettleMs then .waiting w i (waited+250) else w.next i
  | .dwell => if waited < dsVisitMs then .waiting w i (waited+250) else w.next i
  | .guardBefore | .guardAfter =>
    if waited < dsGuardMaxMs then
      if drained ∧ dsGuardMinMs ≤ waited then .waiting w i dsGuardMaxMs
      else .waiting w i (waited+100)
    else w.next i

section
variable {K : Type*} [LinearOrder K] (R : Ranking K)

def taskStep (s : Survey) (a : Air) : Survey :=
  match s.task with
  | .absent => s
  | .snapshot => { s with nvsLo := a.lo, phase := .shortlist, task := .prepass }
  | .prepass =>
    if a.shortlist = [] then { s with curHz := a.hz, task := .noResult }
    else
      { s with
        curHz := a.hz
        centers := a.shortlist.map fun hz => ⟨hz, 0, 0, 0, 0, 0, false⟩
        task := .shortlisted }
  | .shortlisted =>
    if s.abort then s.goto .abortPark else { s with phase := .rr, task := .head }
  | .head => if dsConverged s.centers then s.goto .place else s.goto .headPoll
  | .headPoll => s.poll .budget
  | .budget => if a.spent then s.goto .place else s.goto (.visit 0)
  | .visit i =>
    match s.centers[i]? with
    | none => s.goto .cycleEnd
    | some c =>
      if c.eliminated then s.goto (.visit (i+1))
      else if a.hop then (s.hop c.centerHz true).goto (.waiting .settle i 0)
      else s.goto (.hopFailed i)
  | .hopFailed i => s.poll (.visit (i+1))
  | .waiting w i waited => s.poll (w.onward i waited a.drained)
  | .fold i =>
    { s with
      centers := s.centers.modify i fun c => dsCenterAddVisit c a.lwDa a.valid 0 dsVisitMs.toUInt64
      task := .visited i }
  | .visited i => s.poll (.visit (i+1))
  | .cycleEnd => { s with centers := dsEliminatePass R s.centers, task := .head }
  -- Nothing reads the flag from here on.
  | .place => { s with phase := .place, task := .parkPick a.pick }
  | .parkPick pick => (s.hop pick a.hop).goto (.persist pick)
  | .persist pick =>
    { s with
      persisted := if a.written then some pick else none
      entered := true
      phase := .done
      task := .finish }
  | .abortPark => { s.hop s.nvsLo a.hop with phase := .aborted, task := .finish }
  | .noResult => { s with phase := .done, task := .finish }
  | .finish => { s with abort := false, task := .finishRunning }
  | .finishRunning => { s.endWith (some s.phase) with task := .absent }

inductive Move
  | startCall
  | advance (a : Air)
  | stopLoad
  | stopStore

/-- `decode_survey_stop` is a load of `s_running` and, if that was set, a store of `s_abort`. -/
def step (s : Survey) : Move → Survey
  | .startCall => s.startCall
  | .advance a => if s.starter = .idle then taskStep R s a else s.startNext a
  | .stopLoad => if s.running then { s with stoppers := s.stoppers+1 } else s
  | .stopStore =>
    if s.stoppers = 0 then s
    else
      { s with
        abort := true
        stoppers := s.stoppers-1
        asked := s.asked || (s.running && !s.entered) }

def Ending.Honoured (e : Ending) : Prop :=
  e.asked = true → e.phase = some .aborted ∧ e.hz = e.nvsLo ∧ e.persisted = none

instance (e : Ending) : Decidable e.Honoured := inferInstanceAs (Decidable (_ → _))

/-- The start has cleared the flag, and the task reads it before it can leave the ranking
loop. -/
def reads (s : Survey) : Bool :=
  match s.task with
  | .absent => decide (s.starter = .armed)
  | .snapshot | .prepass | .shortlisted | .headPoll | .hopFailed _ | .waiting _ _ _ | .fold _
  | .visited _ | .abortPark => true
  | .head => !dsConverged s.centers
  | .budget => s.centers.any fun c => !c.eliminated
  | .visit i =>
    (s.centers.drop i).any (fun c => !c.eliminated) || !dsConverged (dsEliminatePass R s.centers)
  | .cycleEnd => !dsConverged (dsEliminatePass R s.centers)
  | .place | .parkPick _ | .persist _ | .noResult | .finish | .finishRunning => false

/-- The first stop lands where the flag is still read; after it the task is created, the budget
lasts and the hop back succeeds. -/
def Heard (s : Survey) : Move → Prop
  | .stopStore => s.stoppers ≠ 0 → s.running = true → s.entered = false →
      s.asked = true ∨ reads R s = true
  | .advance a => s.asked = true → (s.starter = .armed → a.created = true) ∧
      (s.task = .prepass → a.shortlist ≠ []) ∧ (s.task = .budget → a.spent = false) ∧
      (s.task = .abortPark → a.hop = true)
  | .startCall | .stopLoad => True

instance (s : Survey) : (m : Move) → Decidable (Heard R s m)
  | .stopStore => inferInstanceAs (Decidable (_ → _))
  | .advance _ => inferInstanceAs (Decidable (_ → _))
  | .startCall | .stopLoad => .isTrue trivial

def Move.own : Move → Bool
  | .advance _ => true
  | .startCall | .stopLoad | .stopStore => false

/-- A survey that was asked to stop has ended as promised, or ends in boundedly many steps. -/
structure Obeyed (s : Survey) : Prop where
  ended : ∀ e ∈ s.endings, e.Honoured
  ends : s.asked = true → ∀ more, AllSteps (step R) (Heard R) s more →
    s.centers.length+8 ≤ more.countP Move.own →
      s.endings.length < (more.foldl (step R) s).endings.length

end

section
variable {K : Type*} [LinearOrder K] {R : Ranking K} {s : Survey}

structure Safe (R : Ranking K) (s : Survey) : Prop where
  entered : s.entered = false
  ahead : s.abort = true ∧ reads R s = true ∨ s.task = .abortPark ∨
    (s.task = .finish ∨ s.task = .finishRunning) ∧ s.phase = .aborted ∧ s.curHz = s.nvsLo

structure Inv (R : Ranking K) (s : Survey) : Prop where
  starter : s.starter ≠ .idle → s.task = .absent ∧ s.running = true
  idle : s.running = false → s.starter = .idle ∧ s.task = .absent ∧ s.asked = false
  persisted : s.entered = false → s.persisted = none
  safe : s.asked = true → Safe R s
  endings : ∀ e ∈ s.endings, e.Honoured

theorem inv_initial (curHz : UInt32) : Inv R (initial curHz) where
  starter h := absurd rfl h
  idle _ := ⟨rfl, rfl, rfl⟩
  persisted _ := rfl
  safe h := by cases h
  endings _ h := by cases h

def visitsLeft (cs : List Center) (i : Nat) : Nat :=
  (if (cs.drop i).any fun c => !c.eliminated then 4 else 7)+(cs.length-i)

def stepsLeft (s : Survey) : Nat :=
  match s.task with
  | .absent => 7
  | .snapshot => 6
  | .prepass => 5
  | .shortlisted | .headPoll | .hopFailed _ | .waiting _ _ _ | .visited _ => 4
  | .head | .fold _ => 5
  | .cycleEnd => 6
  | .budget => 5+s.centers.length
  | .visit i => visitsLeft s.centers i
  | .abortPark => 3
  | .finish => 2
  | .finishRunning => 1
  | .place | .parkPick _ | .persist _ | .noResult => 0

theorem visitsLeft_bounds (cs : List Center) (i : Nat) :
    4+(cs.length-i) ≤ visitsLeft cs i ∧ visitsLeft cs i ≤ 7+(cs.length-i) := by
  unfold visitsLeft
  split <;> omega

theorem stepsLeft_le (s : Survey) : stepsLeft s ≤ s.centers.length+7 := by
  cases hpc : s.task with
  | visit i =>
    have := (visitsLeft_bounds s.centers i).2
    simp only [stepsLeft, hpc]
    omega
  | _ =>
    simp only [stepsLeft, hpc]
    omega

structure Continues (s s' : Survey) : Prop where
  running : s'.running = s.running
  starter : s'.starter = s.starter
  asked : s'.asked = s.asked
  endings : s'.endings = s.endings
  persisted : s'.entered = false → s.entered = false ∧ s'.persisted = s.persisted

theorem taskStep_continues (h : s.task ≠ .finishRunning) (a : Air) :
    Continues s (taskStep R s a) := by
  cases hpc : s.task with
  | finishRunning => exact absurd hpc h
  | visit i =>
    simp only [taskStep, hpc]
    split
    · exact ⟨rfl, rfl, rfl, rfl, fun he => ⟨he, rfl⟩⟩
    · split
      · exact ⟨rfl, rfl, rfl, rfl, fun he => ⟨he, rfl⟩⟩
      · split <;> exact ⟨rfl, rfl, rfl, rfl, fun he => ⟨he, rfl⟩⟩
  | prepass | head | budget | shortlisted =>
    simp only [taskStep, hpc]
    split <;> exact ⟨rfl, rfl, rfl, rfl, fun he => ⟨he, rfl⟩⟩
  | headPoll | hopFailed i | waiting w i waited | visited i =>
    simp only [taskStep, hpc, Survey.poll]
    split <;> exact ⟨rfl, rfl, rfl, rfl, fun he => ⟨he, rfl⟩⟩
  | parkPick pick | abortPark =>
    simp only [taskStep, hpc, Survey.hop]
    split <;> exact ⟨rfl, rfl, rfl, rfl, fun he => ⟨he, rfl⟩⟩
  | persist pick =>
    simp only [taskStep, hpc]
    exact ⟨rfl, rfl, rfl, rfl, nofun⟩
  | _ =>
    simp only [taskStep, hpc]
    exact ⟨rfl, rfl, rfl, rfl, fun he => ⟨he, rfl⟩⟩

theorem any_drop_eliminated {cs : List Center} {i : Nat} {c : Center} (hc : cs[i]? = some c)
    (helim : c.eliminated = true) :
    ((cs.drop i).any fun c => !c.eliminated) = (cs.drop (i+1)).any fun c => !c.eliminated := by
  obtain ⟨hlt,hget⟩ := List.getElem?_eq_some_iff.mp hc
  rw [drop_eq_getElem_cons hlt, hget, any_cons, helim]
  rfl

theorem Safe.poll (h : Safe R s) (hup : s.abort = true) (pc : Pc) : Safe R (s.poll pc) := by
  rw [Survey.poll, if_pos hup]
  exact ⟨h.entered, .inr (.inl rfl)⟩

theorem stepsLeft_poll (hup : s.abort = true) (pc : Pc) : stepsLeft (s.poll pc) = 3 := by
  rw [Survey.poll, if_pos hup]
  rfl

theorem Safe.up (h : Safe R s) (hpark : s.task ≠ .abortPark) (hfinish : s.task ≠ .finish)
    (hrunning : s.task ≠ .finishRunning) : s.abort = true ∧ reads R s = true := by
  obtain hup | hpc | ⟨hpc | hpc,-⟩ := h.ahead
  · exact hup
  · exact absurd hpc hpark
  · exact absurd hpc hfinish
  · exact absurd hpc hrunning

theorem Safe.visit (h : Safe R s) {i : Nat} (hpc : s.task = .visit i) (a : Air) :
    Safe R (taskStep R s a) ∧ stepsLeft (taskStep R s a)+1 ≤ stepsLeft s := by
  obtain ⟨hup,hreads⟩ := h.up (by rw [hpc]; exact nofun) (by rw [hpc]; exact nofun)
    (by rw [hpc]; exact nofun)
  have hleft : stepsLeft s = visitsLeft s.centers i := by simp only [stepsLeft, hpc]
  simp only [taskStep, hpc]
  cases hc : s.centers[i]? with
  | none =>
    have hnil := drop_eq_nil_of_le (getElem?_eq_none_iff.mp hc)
    have hloop : (!dsConverged (dsEliminatePass R s.centers)) = true := by
      simpa only [reads, hpc, hnil, any_nil, Bool.false_or] using hreads
    refine ⟨⟨h.entered, .inl ⟨hup, hloop⟩⟩, ?_⟩
    rw [hleft, visitsLeft, hnil]
    exact Nat.le_add_right 7 _
  | some c =>
    obtain ⟨hlt,-⟩ := List.getElem?_eq_some_iff.mp hc
    by_cases helim : c.eliminated = true
    · simp only [reads, hpc, any_drop_eliminated hc helim] at hreads
      simp only [if_pos helim]
      refine ⟨⟨h.entered, .inl ⟨hup, hreads⟩⟩, ?_⟩
      rw [hleft, visitsLeft, any_drop_eliminated hc helim]
      change visitsLeft s.centers (i+1)+1 ≤ _
      rw [visitsLeft]
      omega
    · have hwait : 4+1 ≤ stepsLeft s := by
        have := (visitsLeft_bounds s.centers i).1
        omega
      simp only [if_neg helim]
      split_ifs with hhop
      · exact ⟨⟨h.entered, .inl ⟨hup, rfl⟩⟩, hwait⟩
      · exact ⟨⟨h.entered, .inl ⟨hup, rfl⟩⟩, hwait⟩

theorem Safe.task (h : Safe R s) {a : Air} (hlist : s.task = .prepass → a.shortlist ≠ [])
    (hlasts : s.task = .budget → a.spent = false) (hhop : s.task = .abortPark → a.hop = true)
    (hrun : s.task ≠ .absent) (hend : s.task ≠ .finishRunning) :
    Safe R (taskStep R s a) ∧ stepsLeft (taskStep R s a)+1 ≤ stepsLeft s := by
  by_cases hpark : s.task = .abortPark
  · have hleft : stepsLeft s = 3 := by simp only [stepsLeft, hpark]
    rw [hleft]
    simp only [taskStep, hpark, Survey.hop, if_pos (hhop hpark)]
    exact ⟨⟨h.entered, .inr (.inr ⟨.inl rfl, rfl, rfl⟩)⟩, Nat.le_refl 3⟩
  by_cases hfin : s.task = .finish
  · have hleft : stepsLeft s = 2 := by simp only [stepsLeft, hfin]
    obtain ⟨-,hreads⟩ | hpc | ⟨-,hphase,hhz⟩ := h.ahead
    · simp [reads, hfin] at hreads
    · exact absurd hpc hpark
    · rw [hleft]
      simp only [taskStep, hfin]
      exact ⟨⟨h.entered, .inr (.inr ⟨.inr rfl, hphase, hhz⟩)⟩, Nat.le_refl 2⟩
  obtain ⟨hup,hreads⟩ := h.up hpark hfin hend
  cases hpc : s.task with
  | absent => exact absurd hpc hrun
  | finishRunning => exact absurd hpc hend
  | abortPark => exact absurd hpc hpark
  | finish => exact absurd hpc hfin
  | place | parkPick pick | persist pick | noResult => simp [reads, hpc] at hreads
  | budget =>
    simp only [reads, hpc] at hreads
    simp only [taskStep, hpc, hlasts hpc, Bool.false_eq_true, if_false]
    refine ⟨⟨h.entered, .inl ⟨hup, ?_⟩⟩, ?_⟩
    · simp only [reads, Survey.goto, drop_zero, hreads, Bool.true_or]
    · simp only [stepsLeft, hpc, Survey.goto, visitsLeft, drop_zero, hreads, if_true]
      omega
  | visit i => exact h.visit hpc a
  | snapshot =>
    simp only [taskStep, hpc, stepsLeft]
    exact ⟨⟨h.entered, .inl ⟨hup, rfl⟩⟩, Nat.le_refl 6⟩
  | prepass =>
    simp only [taskStep, hpc, if_neg (hlist hpc), stepsLeft]
    exact ⟨⟨h.entered, .inl ⟨hup, rfl⟩⟩, Nat.le_refl 5⟩
  | shortlisted =>
    simp only [taskStep, hpc, if_pos hup]
    refine ⟨⟨h.entered, .inr (.inl rfl)⟩, ?_⟩
    simp only [stepsLeft, hpc]
    exact Nat.le_refl 4
  | head =>
    have hloop : ¬dsConverged s.centers = true := by simpa [reads, hpc] using hreads
    simp only [taskStep, hpc, if_neg hloop, stepsLeft]
    exact ⟨⟨h.entered, .inl ⟨hup, rfl⟩⟩, Nat.le_refl 5⟩
  | headPoll | hopFailed i | waiting w i waited | visited i =>
    simp only [taskStep, hpc, stepsLeft_poll hup]
    refine ⟨h.poll hup _, ?_⟩
    simp only [stepsLeft, hpc]
    exact Nat.le_refl 4
  | fold i =>
    simp only [taskStep, hpc, stepsLeft]
    exact ⟨⟨h.entered, .inl ⟨hup, rfl⟩⟩, Nat.le_refl 5⟩
  | cycleEnd =>
    simp only [taskStep, hpc, stepsLeft]
    refine ⟨⟨h.entered, .inl ⟨hup, ?_⟩⟩, Nat.le_refl 6⟩
    simpa only [reads, hpc] using hreads

theorem Inv.starter_idle (h : Inv R s) (hrun : s.task ≠ .absent) : s.starter = .idle := by
  by_contra hstarter
  exact hrun (h.starter hstarter).1

theorem Inv.running_of_asked (h : Inv R s) (hasked : s.asked = true) : s.running = true := by
  by_contra hstop
  have := (h.idle (Bool.eq_false_iff.mpr hstop)).2.2
  rw [hasked] at this
  cases this

theorem Inv.ending (h : Inv R s) (hpc : s.task = .finishRunning) :
    (⟨s.asked, some s.phase, s.curHz, s.nvsLo, s.persisted⟩ : Ending).Honoured := by
  intro hasked
  have hsafe := h.safe hasked
  obtain ⟨-,hreads⟩ | hpark | ⟨-,hphase,hhz⟩ := hsafe.ahead
  · simp [reads, hpc] at hreads
  · cases hpc.symm.trans hpark
  · exact ⟨congrArg some hphase, hhz, h.persisted hsafe.entered⟩

theorem Inv.task (h : Inv R s) {a : Air} (hok : Heard R s (.advance a))
    (hidle : s.starter = .idle) : Inv R (taskStep R s a) := by
  by_cases hrun : s.task = .absent
  · simpa only [taskStep, hrun] using h
  by_cases hend : s.task = .finishRunning
  · simp only [taskStep, hend, Survey.endWith]
    refine ⟨fun hs => absurd hidle hs, fun _ => ⟨hidle, rfl, rfl⟩, h.persisted, nofun, ?_⟩
    intro e he
    rw [mem_append, mem_singleton] at he
    obtain hold | rfl := he
    · exact h.endings e hold
    · exact h.ending hend
  · have hgo := taskStep_continues (R := R) hend a
    have hrunning : s.running = true := by
      by_contra hstop
      exact hrun (h.idle (Bool.eq_false_iff.mpr hstop)).2.1
    refine ⟨fun hs => absurd (hgo.starter.trans hidle) hs, fun hs => ?_, fun he => ?_, fun hs => ?_,
      hgo.endings ▸ h.endings⟩
    · rw [hgo.running, hrunning] at hs
      cases hs
    · obtain ⟨hbefore,hsame⟩ := hgo.persisted he
      exact hsame.trans (h.persisted hbefore)
    · have hasked := hgo.asked.symm.trans hs
      obtain ⟨-,hlist,hlasts,hhop⟩ := hok hasked
      exact ((h.safe hasked).task hlist hlasts hhop hrun hend).1

theorem Safe.armed (h : Safe R s) (hpc : s.task = .absent) :
    s.abort = true ∧ s.starter = .armed := by
  obtain ⟨hup,hreads⟩ := h.up (by rw [hpc]; exact nofun) (by rw [hpc]; exact nofun)
    (by rw [hpc]; exact nofun)
  exact ⟨hup, by simpa [reads, hpc] using hreads⟩

theorem Inv.startNext (h : Inv R s) {a : Air} (hok : Heard R s (.advance a))
    (hstarter : s.starter ≠ .idle) : Inv R (s.startNext a) := by
  obtain ⟨hpc,hrunning⟩ := h.starter hstarter
  have hended : s.asked = false →
      Inv R { s.endWith none with starter := .idle } := by
    intro hasked
    refine ⟨fun hs => absurd rfl hs, fun _ => ⟨rfl, hpc, rfl⟩, h.persisted, nofun, ?_⟩
    intro e he
    simp only [Survey.endWith, mem_append, mem_singleton] at he
    obtain hold | rfl := he
    · exact h.endings e hold
    · intro hs
      exact absurd (hasked.symm.trans hs) (by decide)
  have hnot : s.starter ≠ .armed → s.asked = false := by
    intro hne
    by_contra hasked
    exact hne ((h.safe (eq_true_of_ne_false hasked)).armed hpc).2
  have hup : s.running = true → ∀ P : Prop, s.running = false → P := by
    intro ht P hf
    cases ht.symm.trans hf
  cases hs : s.starter with
  | idle => exact absurd hs hstarter
  | claimed =>
    have hasked := hnot (by rw [hs]; exact nofun)
    simp only [Survey.startNext, hs]
    split
    · exact hended hasked
    · refine ⟨fun _ => ⟨hpc, hrunning⟩, hup hrunning _, h.persisted, fun ht => ?_, h.endings⟩
      cases hasked.symm.trans ht
  | checked =>
    have hasked := hnot (by rw [hs]; exact nofun)
    simp only [Survey.startNext, hs]
    refine ⟨fun _ => ⟨hpc, hrunning⟩, hup hrunning _, h.persisted, fun ht => ?_, h.endings⟩
    cases hasked.symm.trans ht
  | armed =>
    simp only [Survey.startNext, hs]
    split_ifs with hcreated
    · refine ⟨fun hne => absurd rfl hne, hup hrunning _, h.persisted, fun ht => ?_, h.endings⟩
      have hsafe := h.safe ht
      exact ⟨hsafe.entered, .inl ⟨(hsafe.armed hpc).1, rfl⟩⟩
    · refine hended ?_
      by_contra hasked
      exact hcreated ((hok (eq_true_of_ne_false hasked)).1 hs)

theorem Inv.startCall (h : Inv R s) : Inv R s.startCall := by
  unfold Survey.startCall
  split_ifs with hrunning
  · assumption
  · have hpc := (h.idle (Bool.eq_false_iff.mpr hrunning)).2.1
    exact ⟨fun _ => ⟨hpc, rfl⟩, nofun, fun _ => rfl, nofun, h.endings⟩

theorem Inv.stopStore (h : Inv R s) (hok : Heard R s .stopStore) : Inv R (step R s .stopStore) := by
  by_cases hnone : s.stoppers = 0
  · simpa only [step, if_pos hnone] using h
  simp only [step, if_neg hnone]
  refine ⟨h.starter, fun hs => ?_, h.persisted, fun hasked => ?_, h.endings⟩
  · obtain ⟨hstarter,hpc,hnot⟩ := h.idle hs
    refine ⟨hstarter, hpc, ?_⟩
    change s.running = false at hs
    simp [hnot, hs]
  · by_cases hbefore : s.asked = true
    · have hsafe := h.safe hbefore
      exact ⟨hsafe.entered, hsafe.ahead.imp_left fun hup => ⟨rfl, hup.2⟩⟩
    · simp only [Bool.or_eq_true, Bool.and_eq_true, Bool.not_eq_true'] at hasked
      obtain ⟨hrunning,hentered⟩ := hasked.resolve_left hbefore
      exact ⟨hentered, .inl ⟨rfl, (hok hnone hrunning hentered).resolve_left hbefore⟩⟩

theorem Inv.step (h : Inv R s) {m : Move} (hok : Heard R s m) : Inv R (step R s m) := by
  cases m with
  | startCall => exact h.startCall
  | advance a =>
    by_cases hidle : s.starter = .idle
    · simpa only [SurveyStop.step, if_pos hidle] using h.task hok hidle
    · simpa only [SurveyStop.step, if_neg hidle] using h.startNext hok hidle
  | stopLoad =>
    simp only [SurveyStop.step]
    split
    · exact ⟨h.starter, h.idle, h.persisted, fun hs => ⟨(h.safe hs).entered, (h.safe hs).ahead⟩,
        h.endings⟩
    · exact h
  | stopStore => exact h.stopStore hok

theorem endings_le (s : Survey) (m : Move) : s.endings.length ≤ (step R s m).endings.length := by
  have hend : ∀ phase, s.endings.length ≤ (s.endWith phase).endings.length := by
    intro phase
    simp only [Survey.endWith, length_append]
    exact Nat.le_add_right _ _
  cases m with
  | startCall =>
    simp only [step, Survey.startCall]
    split <;> exact Nat.le_refl _
  | advance a =>
    simp only [step]
    split
    · by_cases hpc : s.task = .finishRunning
      · simpa only [taskStep, hpc] using hend _
      · rw [(taskStep_continues hpc a).endings]
    · cases hs : s.starter with
      | idle | checked => simp [Survey.startNext, hs]
      | claimed =>
        simp only [Survey.startNext, hs]
        split
        · exact hend none
        · exact Nat.le_refl _
      | armed =>
        simp only [Survey.startNext, hs]
        split
        · exact Nat.le_refl _
        · exact hend none
  | stopLoad | stopStore =>
    simp only [step]
    split <;> exact Nat.le_refl _

/-- A step of a survey that has been asked to stop ends it, or leaves it one step fewer. -/
theorem Inv.advance (h : Inv R s) (hasked : s.asked = true) {a : Air}
    (hok : Heard R s (.advance a)) :
    s.endings.length < (SurveyStop.step R s (.advance a)).endings.length ∨
      (SurveyStop.step R s (.advance a)).asked = true ∧
        stepsLeft (SurveyStop.step R s (.advance a))+1 ≤ stepsLeft s := by
  have hsafe := h.safe hasked
  obtain ⟨hcreated,hlist,hlasts,hhop⟩ := hok hasked
  by_cases hrun : s.task = .absent
  · have harmed := (hsafe.armed hrun).2
    simp only [SurveyStop.step, Survey.startNext, harmed, if_pos (hcreated harmed)]
    refine .inr ⟨hasked, ?_⟩
    simp only [stepsLeft, hrun]
    exact Nat.le_refl 7
  · simp only [SurveyStop.step, if_pos (h.starter_idle hrun)]
    by_cases hend : s.task = .finishRunning
    · left
      simp only [taskStep, hend, Survey.endWith, length_append, length_singleton]
      exact Nat.lt_succ_self _
    · exact .inr ⟨(taskStep_continues hend a).asked.trans hasked,
        (hsafe.task hlist hlasts hhop hrun hend).2⟩

theorem Inv.others (h : Inv R s) (hasked : s.asked = true) {m : Move} (hm : m.own = false) :
    (SurveyStop.step R s m).asked = true ∧ stepsLeft (SurveyStop.step R s m) = stepsLeft s := by
  cases m with
  | advance a => cases hm
  | startCall =>
    have hrunning := h.running_of_asked hasked
    simp only [SurveyStop.step, Survey.startCall, if_pos hrunning, hasked, and_self]
  | stopLoad =>
    simp only [SurveyStop.step, if_pos (h.running_of_asked hasked)]
    exact ⟨hasked, rfl⟩
  | stopStore =>
    by_cases hnone : s.stoppers = 0
    · simp only [SurveyStop.step, if_pos hnone, hasked, and_self]
    · simp only [SurveyStop.step, if_neg hnone, hasked, Bool.true_or]
      exact ⟨trivial, rfl⟩

theorem Inv.obeyed (h : Inv R s) : Obeyed R s where
  ended := h.endings
  ends hasked more hmore hcount := by
    refine hmore.reaches Move.own
      (fun t => Inv R t ∧ t.asked = true ∧ s.endings.length ≤ t.endings.length)
      (fun t => s.endings.length < t.endings.length) stepsLeft
      (fun t m _ hlt => Nat.lt_of_lt_of_le hlt (endings_le t m)) ?_ ⟨h, hasked, Nat.le_refl _⟩ ?_
    · rintro t m hok ⟨hinv,hask,hle⟩
      have hmono := Nat.le_trans hle (endings_le (R := R) t m)
      cases hm : m.own with
      | false =>
        obtain ⟨hask',hsame⟩ := hinv.others hask hm
        exact .inr ⟨⟨hinv.step hok, hask', hmono⟩, Nat.le_of_eq hsame⟩
      | true =>
        cases m with
        | startCall | stopLoad | stopStore => cases hm
        | advance a =>
          obtain hlt | ⟨hask',hfewer⟩ := hinv.advance hask hok
          · exact .inl (Nat.lt_of_le_of_lt hle hlt)
          · exact .inr ⟨⟨hinv.step hok, hask', hmono⟩, hfewer⟩
    · have := stepsLeft_le s
      omega

end

/-- A stop that lands while the task still reads the flag is obeyed, on every run. -/
theorem survey_stop_obeyed {K : Type*} [LinearOrder K] (R : Ranking K) (curHz : UInt32)
    {moves : List Move} (h : AllSteps (step R) (Heard R) (initial curHz) moves) :
    Obeyed R (moves.foldl (step R) (initial curHz)) :=
  (h.invariant (Inv R) (fun _ _ hok hs => hs.step hok) (inv_initial curHz)).obeyed

def countRanking : Ranking Nat := ⟨fun c => c.lwDa.toNat, fun _ _ => false⟩

def clearAir : Air :=
  ⟨false, true, 1620500000, 1621750000, [1621750000, 1623000000], true, true, false, 3, 2,
    1621000000, true⟩

def stopInPrepass : List Move :=
  .startCall::List.replicate 4 (.advance clearAir)++[.stopLoad, .stopStore]++
    List.replicate 5 (.advance clearAir)

theorem survey_stop_obeyed_in_prepass :
    (stopInPrepass.foldl (step countRanking) (initial 0)).endings =
        [⟨true, some .aborted, 1620500000, 1620500000, none⟩] ∧
      Obeyed countRanking (stopInPrepass.foldl (step countRanking) (initial 0)) :=
  ⟨by decide +kernel, survey_stop_obeyed countRanking 0 (by decide +kernel)⟩

def singleAir : Air := { clearAir with shortlist := [1621750000] }

def stopBeforeClear : List Move :=
  [.startCall, .stopLoad, .stopStore]++List.replicate 13 (.advance singleAir)

def stopWhilePlacing : List Move :=
  .startCall::List.replicate 8 (.advance singleAir)++[.stopLoad, .stopStore]++
    List.replicate 5 (.advance singleAir)

theorem late_and_early_stops_lost :
    let lost := ⟨true, some .done, 1621000000, 1620500000, some 1621000000⟩
    (stopBeforeClear.foldl (step countRanking) (initial 0)).endings = [lost] ∧
      (stopWhilePlacing.foldl (step countRanking) (initial 0)).endings = [lost] ∧
      ¬lost.Honoured := by
  decide +kernel

end IridiumAcars.SurveyStop
