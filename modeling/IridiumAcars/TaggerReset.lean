import IridiumAcars.Lib.Conflicts
import IridiumAcars.TaggerBaseline

/-! `fft_burst_tagger_reset_baseline` against a running step, field write by field write. -/
namespace IridiumAcars.FftBurstTagger
open Conflicts Runs List

/-- The detector's fields and the magnitudes of the running step. -/
abbrev Mem := Tagger × Magnitudes

/-- The fields that the reset stores to. -/
inductive Field
  | sum | clampRun | mask | index | primed | squelch | bursts
deriving DecidableEq

abbrev Accesses := Prog Field Mem

def read {α : Type} (fields : List Field) (f : Tagger → α) : Accesses α :=
  load fields fun s => f s.1

def write (fields : List Field) (f : Tagger → Magnitudes → Tagger) : Accesses Unit :=
  store fields fun s => (f s.1 s.2, s.2)

def setBase (fields : List Field) (f : Baseline → Magnitudes → Baseline) : Accesses Unit :=
  write fields fun t mag => { t with base := f t.base mag }

def resetField : Field → Tagger → Tagger
  | .sum, t => { t with base := { t.base with sum := fun _ => 0, written := [] } }
  | .clampRun, t => { t with base := { t.base with clampRun := fun _ => ⟨0, 0⟩ } }
  | .mask, t => { t with burstMask := fun _ => true }
  | .index, t => { t with base := { t.base with index := 0 } }
  | .primed, t => { t with base := { t.base with primed := false } }
  | .squelch, t => { t with squelchCount := 0 }
  | .bursts, t => { t with bursts := [] }

def resetOrder : List Field := [.sum, .clampRun, .mask, .index, .primed, .squelch, .bursts]

def resetStores : List (Store Field Mem) :=
  resetOrder.map fun x => ⟨x, fun s => (resetField x s.1, s.2)⟩

def resetProg : List Field → Accesses Unit
  | [] => pure ()
  | x::xs => do
    write [x] fun t _ => resetField x t
    resetProg xs

/-- `update_baseline_ema`. The index is read, advanced and tested by three accesses. -/
def emaProg (force : Bool) : Accesses Unit := do
  let n ← read [.bursts] fun t => t.bursts.length
  if 0 < n ∧ force = false then pure ()
  else
    setBase [] fun b _ => { b with writeNo := b.writeNo+1, writes := b.writes+1 }
    let i ← read [.index] fun t => t.base.index
    let primed ← read [.primed] fun t => t.base.primed
    setBase [.sum] fun b mag => { b with
      sum := fun k =>
        if primed then b.sum k-b.history i k+clampMag (mag k) else b.sum k+clampMag (mag k)
      written := b.written++[mag] }
    setBase [] fun b mag => { b with
      history := fun j k => if j = i then clampMag (mag k) else b.history j k }
    setBase [.clampRun] fun b mag => { b with
      clampRun := fun k => (b.clampRun k).track b.writeNo (mag k) }
    let j ← read [.index] fun t => t.base.index
    setBase [.index] fun b _ => { b with index := j+1 }
    let j ← read [.index] fun t => t.base.index
    if historySize ≤ j then
      setBase [.index] fun b _ => { b with index := 0 }
      setBase [.primed] fun b _ => { b with primed := true }
    else pure ()

def updateProg (cfg : Config) : Nat → Nat → Accesses Unit
  | 0, _ => pure ()
  | n+1, b => do
    let len ← read [.bursts] fun t => t.bursts.length
    if b < len then
      write [.bursts, .sum, .clampRun] fun t mag =>
        { t with bursts := t.bursts.modify b (refresh cfg mag t) }
      updateProg cfg n (b+1)
    else pure ()

def createProg (cfg : Config) (maxNew : Nat) : List Peak → List Burst → Accesses (List Burst)
  | [], outNew => pure outNew
  | p::ps, outNew => do
    let free ← read [.mask] fun t => t.burstMask p.bin
    if free = false then createProg cfg maxNew ps outNew
    else
      let len ← read [.bursts] fun t => t.bursts.length
      if maxBursts ≤ len then pure outNew
      else
        let b ← load [.sum] fun s : Mem => openBurst cfg s.2 s.1 p.bin
        write [.bursts] fun t _ => { t with bursts := t.bursts++[b] }
        write [] fun t _ => { t with burstId := t.burstId+10 }
        write [.mask] fun t _ => { t with burstMask := maskBurst cfg t.burstMask p.bin }
        createProg cfg maxNew ps (if outNew.length < maxNew then outNew++[b] else outNew)

def squelchProg (cfg : Config) (maxGone : Nat) : Accesses (List Burst) := do
  let old ← read [.bursts] fun t => t.bursts.filter (predatesStep cfg t)
  let gone ← read [] fun t => ((old.filter fun b => !activeNow t b).map (closeBurst t)).take maxGone
  let dropped ← read [] fun t => old.countP (activeNow t)
  write [] fun t _ => { t with squelchDropped := t.squelchDropped+UInt32.ofNat dropped }
  write [] fun t _ => { t with squelchEvents := t.squelchEvents+1 }
  write [.bursts] fun t _ => { t with bursts := [] }
  write [.mask, .bursts] fun t _ => { t with burstMask := rebuildBurstMask cfg t.bursts }
  write [.squelch] fun t _ => { t with squelchCount := t.squelchCount+3 }
  let count ← read [.squelch] fun t => t.squelchCount
  if 10 ≤ count then
    write [] fun t _ => { t with noiseResets := t.noiseResets+1 }
    resetProg resetOrder
  else pure ()
  pure gone

def createNewProg (cfg : Config) (sort : Qsort) (maxNew maxGone : Nat) :
    Accesses (List Burst × List Burst) := do
  let peaks ← load [.mask, .sum, .clampRun] fun s : Mem => sortPeaks sort (scanPeaks cfg s.2 s.1)
  let outNew ← createProg cfg maxNew peaks []
  let len ← read [.bursts] fun t => t.bursts.length
  if squelchMaxBursts < len then
    let gone ← squelchProg cfg maxGone
    pure ([], gone)
  else
    write [.squelch] fun t _ => { t with squelchCount := t.squelchCount-1 }
    pure (outNew, [])

def deleteProg (cfg : Config) (maxGone : Nat) : Accesses (List Burst) := do
  let due ← read [.bursts] fun t => t.bursts.filter (dueBurst cfg t)
  let kept ← read [.bursts] fun t => t.bursts.filter fun b => !dueBurst cfg t b
  let long ← read [.bursts] fun t => t.bursts.any longBurst
  let gone ← read [] fun t => (due.map (closeBurst t)).take maxGone
  write [.bursts] fun t _ => { t with bursts := kept }
  if due.isEmpty then pure ()
  else write [.mask, .bursts] fun t _ => { t with burstMask := rebuildBurstMask cfg t.bursts }
  if long then emaProg true else pure ()
  pure gone

/-- `fft_burst_tagger_step` between the magnitudes and the advance of `d_index`. -/
def bodyProg (cfg : Config) (sort : Qsort) (maxNew maxGone : Nat) :
    Accesses (List Burst × List Burst) := do
  let primed ← read [.primed] fun t => t.base.primed
  if primed then
    let len ← read [.bursts] fun t => t.bursts.length
    updateProg cfg len 0
    let (outNew, gone) ← createNewProg cfg sort maxNew maxGone
    let more ← deleteProg cfg (maxGone-gone.length)
    emaProg false
    pure (outNew, gone++more)
  else
    emaProg false
    pure ([], [])

/-- The whole step; the FFT and the magnitudes are `work` on the task's own buffers. -/
def stepProg (cfg : Config) (sort : Qsort) (maxNew maxGone : Nat) :
    List (Magnitudes → Magnitudes) → Accesses (List Burst × List Burst)
  | [] => do
    let out ← bodyProg cfg sort maxNew maxGone
    write [] fun t _ => nextIndex t
    pure out
  | f::work => do
    store [] fun s => (s.1, f s.2)
    stepProg cfg sort maxNew maxGone work

def reports (r : Reported) : List Burst × List Burst := (r.new, r.gone)

section
variable (t : Tagger) (mag : Magnitudes)

@[simp] theorem exec_read {α : Type} (fs : List Field) (f : Tagger → α) (s : Mem) :
    (read fs f).exec s = (s, f s.1) := rfl

@[simp] theorem exec_write (fs : List Field) (f : Tagger → Magnitudes → Tagger) :
    (write fs f).exec (t, mag) = ((f t mag, mag), ()) := rfl

@[simp] theorem exec_setBase (fs : List Field) (f : Baseline → Magnitudes → Baseline) :
    (setBase fs f).exec (t, mag) = (({ t with base := f t.base mag }, mag), ()) := rfl

theorem exec_emaProg (force : Bool) :
    (emaProg force).exec (t, mag) = ((updateBaselineEma mag force t, mag), ()) := by
  rw [emaProg, updateBaselineEma, exec_bind, exec_read]
  by_cases hfreeze : 0 < t.bursts.length ∧ force = false
  · simp only [if_pos hfreeze, exec_pure]
  · by_cases hlast : historySize ≤ t.base.index+1
    · simp [if_neg hfreeze, Baseline.write, hlast]
      exact ⟨rfl, rfl⟩
    · simp [if_neg hfreeze, Baseline.write, hlast]
      exact ⟨rfl, rfl⟩

theorem exec_resetProg (xs : List Field) :
    (resetProg xs).exec (t, mag) = ((xs.foldl (fun t x => resetField x t) t, mag), ()) := by
  induction xs generalizing t with
  | nil => rfl
  | cons x xs ih => exact ih (resetField x t)

theorem foldl_resetOrder : resetOrder.foldl (fun t x => resetField x t) t = resetBaseline t := rfl

theorem applyAll_resetStores : applyAll resetStores (t, mag) = (resetBaseline t, mag) := rfl

theorem exec_updateProg (cfg : Config) (pre rest : List Burst)
    (h : t.bursts = pre++rest) :
    (updateProg cfg rest.length pre.length).exec (t, mag) =
      (({ t with bursts := pre++rest.map (refresh cfg mag t) }, mag), ()) := by
  induction rest generalizing t pre with
  | nil => simp [updateProg, ← h]
  | cons b rest ih =>
    have hstep : (pre++b::rest).modify pre.length (refresh cfg mag t) =
        (pre++[refresh cfg mag t b])++rest := by
      rw [modify_eq_take_drop, take_left', drop_left'] <;> simp
    rw [length_cons, updateProg, exec_bind, exec_read]
    simp only [h, length_append, length_cons, Nat.lt_add_right_iff_pos,
      Nat.zero_lt_succ, if_true, exec_bind, exec_write]
    have hrest := ih { t with bursts := (pre++[refresh cfg mag t b])++rest }
      (pre++[refresh cfg mag t b]) rfl
    rw [length_append, length_singleton] at hrest
    rw [hstep, hrest]
    simp [refresh]

theorem exec_createProg (cfg : Config) (maxNew : Nat) (ps : List Peak) (outNew : List Burst) :
    (createProg cfg maxNew ps outNew).exec (t, mag) =
      (((createBursts cfg mag maxNew ps t outNew).1, mag),
        (createBursts cfg mag maxNew ps t outNew).2) := by
  induction ps generalizing t outNew with
  | nil => rfl
  | cons p ps ih =>
    rw [createProg, createBursts, exec_bind, exec_read]
    by_cases hmask : t.burstMask p.bin = false
    · simp only [if_pos hmask, ih]
    · by_cases hfull : maxBursts ≤ t.bursts.length
      · simp [hmask, hfull]
      · simp [hmask, hfull, ih]

theorem exec_squelchProg (cfg : Config) (maxGone : Nat) :
    (squelchProg cfg maxGone).exec (t, mag) =
      (((squelch cfg maxGone t).1, mag), (squelch cfg maxGone t).2) := by
  by_cases hcount : 10 ≤ t.squelchCount+3
  · simp [squelchProg, squelch, hcount, exec_resetProg, foldl_resetOrder, predatesStep,
      activeNow]
  · simp [squelchProg, squelch, hcount, predatesStep, activeNow]

theorem exec_createNewProg (cfg : Config) (sort : Qsort) (maxNew maxGone : Nat) :
    (createNewProg cfg sort maxNew maxGone).exec (t, mag) =
      (((createNewBursts cfg sort mag maxNew maxGone t).tagger, mag),
        ((createNewBursts cfg sort mag maxNew maxGone t).new,
          (createNewBursts cfg sort mag maxNew maxGone t).gone)) := by
  simp only [createNewProg, createNewBursts, created, exec_bind, exec_load, exec_createProg,
    exec_read]
  by_cases hfull : squelchMaxBursts <
      (createBursts cfg mag maxNew (sortPeaks sort (scanPeaks cfg mag t)) t []).1.bursts.length
  · simp [hfull, exec_squelchProg]
  · simp [hfull]

theorem exec_deleteProg (cfg : Config) (maxGone : Nat) :
    (deleteProg cfg maxGone).exec (t, mag) =
      (((deleteGoneBursts cfg mag maxGone t).1, mag), (deleteGoneBursts cfg mag maxGone t).2) := by
  by_cases hdue : (t.bursts.filter (dueBurst cfg t)).isEmpty
  · by_cases hlong : t.bursts.any longBurst
    · simp only [deleteProg, deleteGoneBursts, exec_bind, exec_read, exec_write, hdue, hlong,
        if_true, exec_pure, exec_emaProg]
    · simp only [deleteProg, deleteGoneBursts, exec_bind, exec_read, exec_write, hdue, hlong,
        if_true, exec_pure, if_false, Bool.false_eq_true]
  · by_cases hlong : t.bursts.any longBurst
    · simp only [deleteProg, deleteGoneBursts, exec_bind, exec_read, exec_write, hdue, hlong,
        if_true, exec_pure, exec_emaProg, if_false, Bool.false_eq_true]
    · simp only [deleteProg, deleteGoneBursts, exec_bind, exec_read, exec_write, hdue, hlong,
        exec_pure, if_false, Bool.false_eq_true]

theorem exec_bodyProg (cfg : Config) (sort : Qsort) (maxNew maxGone : Nat) :
    ∃ t', (bodyProg cfg sort maxNew maxGone).exec (t, mag) =
        ((t', mag), reports (step cfg sort mag maxNew maxGone t)) ∧
      (step cfg sort mag maxNew maxGone t).tagger = nextIndex t' := by
  rw [bodyProg, exec_bind, exec_read]
  by_cases hp : t.base.primed = true
  · have hupdate : (updateProg cfg t.bursts.length 0).exec (t, mag) =
        ((updateBursts cfg mag t, mag), ()) := exec_updateProg t mag cfg [] t.bursts rfl
    refine ⟨updateBaselineEma mag false (detect cfg sort mag maxNew maxGone t).tagger, ?_,
      by rw [step_primed sort maxNew maxGone t hp]⟩
    rw [reports, step_primed sort maxNew maxGone t hp]
    simp [if_pos hp, hupdate, exec_createNewProg, exec_deleteProg, exec_emaProg, detect]
  · rw [if_neg hp, exec_bind, exec_emaProg]
    refine ⟨updateBaselineEma mag false t, ?_,
      by rw [step_priming sort maxNew maxGone t hp]⟩
    rw [reports, step, if_neg hp]
    rfl

theorem exec_stepProg (cfg : Config) (sort : Qsort) (maxNew maxGone : Nat)
    (work : List (Magnitudes → Magnitudes)) :
    (stepProg cfg sort maxNew maxGone work).exec (t, mag) =
      let mag' := work.foldl (fun m f => f m) mag
      (((step cfg sort mag' maxNew maxGone t).tagger, mag'),
        reports (step cfg sort mag' maxNew maxGone t)) := by
  induction work generalizing mag with
  | nil =>
    obtain ⟨t',hbody,htagger⟩ := exec_bodyProg t mag cfg sort maxNew maxGone
    simp [stepProg, hbody, htagger]
  | cons f work ih => exact ih (f mag)

end

section

theorem resetField_comm (x y : Field) (t : Tagger) :
    resetField x (resetField y t) = resetField y (resetField x t) := by
  cases x <;> cases y <;> rfl

theorem forall_resetStores {P : Store Field Mem → Prop}
    (h : ∀ x, P ⟨x, fun s => (resetField x s.1, s.2)⟩) : ∀ g ∈ resetStores, P g :=
  forall_mem_map.mpr fun x _ => h x

theorem resetStores_commuting : Commuting resetStores :=
  forall_resetStores fun x => forall_resetStores fun y s =>
    congrArg (·, s.2) (resetField_comm x y s.1)

section
variable {α β : Type} {fs : List Field}

theorem load_then {f : Mem → α} {q : α → Accesses β} (hq : ∀ a, (q a).Sound resetStores)
    (h : ∀ x ∉ fs, ∀ t mag, f (resetField x t, mag) = f (t, mag)) :
    (load fs f >>= q).Sound resetStores :=
  (sound_load (forall_resetStores fun x hx s => h x hx s.1 s.2)).bind hq

theorem read_then {f : Tagger → α} {q : α → Accesses β} (hq : ∀ a, (q a).Sound resetStores)
    (h : ∀ x ∉ fs, ∀ t, f (resetField x t) = f t) : (read fs f >>= q).Sound resetStores :=
  load_then hq fun x hx t _ => h x hx t

theorem sound_write {f : Tagger → Magnitudes → Tagger}
    (h : ∀ x ∉ fs, ∀ t mag, f (resetField x t) mag = resetField x (f t mag)) :
    (write fs f).Sound resetStores :=
  sound_store (forall_resetStores fun x hx s => congrArg (·, s.2) (h x hx s.1 s.2))

end

theorem sound_resetProg (xs : List Field) : (resetProg xs).Sound resetStores := by
  induction xs with
  | nil => trivial
  | cons x xs ih =>
    exact (sound_write fun y _ t _ => resetField_comm x y t).bind fun _ => ih

-- the programs are followed access by access; that an access commutes with the reset of each
-- field it does not name is left to the end
theorem sound_emaProg (force : Bool) : (emaProg force).Sound resetStores := by
  repeat' first
    | trivial
    | refine read_then (fun _ => ?_) ?_
    | refine (sound_write ?_).bind fun _ => ?_
    | refine sound_write ?_
    | split
  all_goals intro x hx; cases x <;> first | exact fun _ => rfl | exact fun _ _ => rfl | simp at hx

variable (cfg : Config)

theorem sound_updateProg (n b : Nat) : (updateProg cfg n b).Sound resetStores := by
  induction n generalizing b with
  | zero => trivial
  | succ n ih =>
    repeat' first
      | trivial
      | exact ih _
      | refine read_then (fun _ => ?_) ?_
      | refine (sound_write ?_).bind fun _ => ?_
      | split
    all_goals intro x hx; cases x <;> first | exact fun _ => rfl | exact fun _ _ => rfl | simp at hx

theorem measureWidth_congr (mag : Magnitudes) {b b' : Baseline} (h : b.sum = b'.sum) (bin : Nat) :
    measureWidth cfg mag b bin = measureWidth cfg mag b' bin := by
  have hdown (n lo : Nat) : scanDown cfg mag b n lo = scanDown cfg mag b' n lo := by
    induction n generalizing lo with
    | zero => rfl
    | succ n ih => simp only [scanDown, h, ih]
  have hup (n hi : Nat) : scanUp cfg mag b n hi = scanUp cfg mag b' n hi := by
    induction n generalizing hi with
    | zero => rfl
    | succ n ih => simp only [scanUp, h, ih]
  rw [measureWidth, measureWidth, hdown, hup]

theorem openBurst_resetField {x : Field} (hx : x ∉ [Field.sum]) (t : Tagger) (mag : Magnitudes)
    (bin : Nat) : openBurst cfg mag (resetField x t) bin = openBurst cfg mag t bin := by
  have hsum : (resetField x t).base.sum = t.base.sum := by
    cases x <;> first | rfl | simp at hx
  rw [openBurst, openBurst, measureWidth_congr cfg mag hsum]
  cases x <;> rfl

theorem sound_createProg (maxNew : Nat) (ps : List Peak) (outNew : List Burst) :
    (createProg cfg maxNew ps outNew).Sound resetStores := by
  induction ps generalizing outNew with
  | nil => trivial
  | cons p ps ih =>
    repeat' first
      | trivial
      | exact ih _
      | exact fun _ hx t mag => openBurst_resetField cfg hx t mag p.bin
      | refine read_then (fun _ => ?_) ?_
      | refine load_then (fun _ => ?_) ?_
      | refine (sound_write ?_).bind fun _ => ?_
      | split
    all_goals intro x hx; cases x <;> first | exact fun _ => rfl | exact fun _ _ => rfl | simp at hx

theorem sound_squelchProg (maxGone : Nat) : (squelchProg cfg maxGone).Sound resetStores := by
  repeat' first
    | trivial
    | exact (sound_resetProg resetOrder).bind fun _ => trivial
    | refine read_then (fun _ => ?_) ?_
    | refine (sound_write ?_).bind fun _ => ?_
    | split
  all_goals intro x hx; cases x <;> first | exact fun _ => rfl | exact fun _ _ => rfl | simp at hx

theorem sound_createNewProg (sort : Qsort) (maxNew maxGone : Nat) :
    (createNewProg cfg sort maxNew maxGone).Sound resetStores := by
  repeat' first
    | trivial
    | refine load_then (fun _ => (sound_createProg cfg maxNew _ []).bind fun _ => ?_) ?_
    | exact (sound_squelchProg cfg maxGone).bind fun _ => trivial
    | refine read_then (fun _ => ?_) ?_
    | refine (sound_write ?_).bind fun _ => ?_
    | split
  all_goals intro x hx; cases x <;> first | exact fun _ => rfl | exact fun _ _ => rfl | simp at hx

theorem sound_deleteProg (maxGone : Nat) : (deleteProg cfg maxGone).Sound resetStores := by
  repeat' first
    | trivial
    | exact (sound_emaProg true).bind fun _ => trivial
    | refine read_then (fun _ => ?_) ?_
    | refine (sound_write ?_).bind fun _ => ?_
    | split
  all_goals intro x hx; cases x <;> first | exact fun _ => rfl | exact fun _ _ => rfl | simp at hx

theorem sound_bodyProg (sort : Qsort) (maxNew maxGone : Nat) :
    (bodyProg cfg sort maxNew maxGone).Sound resetStores := by
  refine read_then (fun primed => ?_) ?_
  · split
    · refine read_then (fun len => (sound_updateProg cfg len 0).bind fun _ => ?_) ?_
      · exact (sound_createNewProg cfg sort maxNew maxGone).bind fun r =>
          (sound_deleteProg cfg _).bind fun more => (sound_emaProg false).bind fun _ => trivial
      · intro x hx; cases x <;> first | exact fun _ => rfl | simp at hx
    · exact (sound_emaProg false).bind fun _ => trivial
  · intro x hx; cases x <;> first | exact fun _ => rfl | simp at hx

theorem sound_stepProg (sort : Qsort) (maxNew maxGone : Nat)
    (work : List (Magnitudes → Magnitudes)) :
    (stepProg cfg sort maxNew maxGone work).Sound resetStores := by
  induction work with
  | cons f work ih => exact (sound_store (forall_resetStores fun _ _ _ => rfl)).bind fun _ => ih
  | nil =>
    refine (sound_bodyProg cfg sort maxNew maxGone).bind fun out =>
      (sound_write fun x _ _ _ => ?_).bind fun _ => trivial
    cases x <;> rfl

end

structure Rewritten (b : Baseline) : Prop where
  index : b.index = b.written.length%historySize
  primed : b.primed = decide (historySize ≤ b.written.length)
  slots : ∀ i < historySize, i < b.written.length →
    ∃ m ∈ b.written, ∀ k, b.history i k = clampMag (m k)

section
variable {mag : Magnitudes} {b : Baseline}

theorem Rewritten.write (h : Rewritten b) : Rewritten (b.write mag) := by
  refine ⟨index_write h.index, primed_write h.index h.primed, fun i hi hlen => ?_⟩
  by_cases hslot : i = b.index
  · exact ⟨mag, by simp [Baseline.write], fun k => if_pos hslot⟩
  have hold : i < b.written.length := by
    rw [length_written_write] at hlen
    rw [h.index, historySize] at hslot
    rw [historySize] at hi
    omega
  obtain ⟨m,hm,hval⟩ := h.slots i hi hold
  exact ⟨m, mem_append_left _ hm, fun k => (if_neg hslot).trans (hval k)⟩

theorem rewritten_of_empty (hi : b.index = 0) (hp : b.primed = false) (hw : b.written = []) :
    Rewritten b := by
  refine ⟨?_, ?_, fun i _ hlen => ?_⟩
  · rw [hi, hw]
    rfl
  · rw [hp, hw]
    rfl
  · rw [hw] at hlen
    exact absurd hlen (Nat.not_lt_zero i)

theorem rewritten_kept (mag : Magnitudes) : KeptBy mag Rewritten :=
  ⟨fun _ h => h.write, fun _ _ => rewritten_of_empty rfl rfl rfl⟩

theorem run_rewritten (cfg : Config) (sort : Qsort) {t : Tagger} (h : Rewritten t.base)
    (calls : List Call) : Rewritten (run cfg sort t calls).base := by
  refine List.foldlRecOn (motive := fun t : Tagger => Rewritten t.base) calls _ h
    fun t ht c _ => ?_
  cases c with
  | step mag maxNew maxGone => exact (rewritten_kept mag).step sort maxNew maxGone ht
  | resetBaseline => exact rewritten_of_empty rfl rfl rfl
  | flush maxGone => exact ht

theorem Rewritten.forall_slots (h : Rewritten b) (hp : b.primed = true) :
    ∀ i < historySize, ∃ m ∈ b.written, ∀ k, b.history i k = clampMag (m k) := by
  rw [h.primed] at hp
  exact fun i hi => h.slots i hi (hi.trans_le (of_decide_eq_true hp))

end

/-- A reset whose stores all follow, or all precede, the step's accesses to their fields acts after
or before the whole step. -/
theorem reset_between_steps (cfg : Config) (sort : Qsort) (history : Nat → Nat → Int)
    (writes : Nat) (calls : List Call) (work : List (Magnitudes → Magnitudes))
    (own : Magnitudes) (maxNew maxGone : Nat) (sched : List Move)
    (out : List Burst × List Burst) :
    let t := run cfg sort (init history writes) calls
    let task := stepProg cfg sort maxNew maxGone work
    let d := Conflicts.run task resetStores (t, own) sched
    let mag := work.foldl (fun m f => f m) own
    AllSteps Conflicts.step Late (start task resetStores (t, own)) sched ∨
      AllSteps Conflicts.step Early (start task resetStores (t, own)) sched →
    d.left = .ret out → d.rest = [] →
    ((out = reports (step cfg sort mag maxNew maxGone (resetBaseline t)) ∧
        d.shared.1 = (step cfg sort mag maxNew maxGone (resetBaseline t)).tagger) ∨
      (out = reports (step cfg sort mag maxNew maxGone t) ∧
        d.shared.1 = resetBaseline (step cfg sort mag maxNew maxGone t).tagger)) ∧
    ∀ rest, (run cfg sort d.shared.1 rest).base.primed = true → ∀ i < historySize,
      ∃ m ∈ (run cfg sort d.shared.1 rest).base.written,
        ∀ k, (run cfg sort d.shared.1 rest).base.history i k = clampMag (m k) := by
  intro t task d mag hok hleft hrest
  have hserial := run_serial resetStores_commuting (sound_stepProg cfg sort maxNew maxGone work) hok
    hleft hrest
  have hbetween : (out = reports (step cfg sort mag maxNew maxGone (resetBaseline t)) ∧
      d.shared.1 = (step cfg sort mag maxNew maxGone (resetBaseline t)).tagger) ∨
    (out = reports (step cfg sort mag maxNew maxGone t) ∧
      d.shared.1 = resetBaseline (step cfg sort mag maxNew maxGone t).tagger) := by
    obtain hexec | ⟨v,hexec,hshared⟩ := hserial
    · rw [applyAll_resetStores, exec_stepProg] at hexec
      obtain ⟨hd,hout⟩ := Prod.mk.inj hexec
      exact .inl ⟨hout.symm, (congrArg Prod.fst hd).symm⟩
    · rw [exec_stepProg] at hexec
      obtain ⟨rfl,hout⟩ := Prod.mk.inj hexec
      exact .inr ⟨hout.symm, congrArg Prod.fst hshared⟩
  refine ⟨hbetween, fun rest hp => Rewritten.forall_slots ?_ hp⟩
  have hreach : Rewritten t.base := run_rewritten cfg sort (rewritten_of_empty rfl rfl rfl) calls
  apply run_rewritten
  obtain ⟨-,hd⟩ | ⟨-,hd⟩ := hbetween
  · rw [hd]
    exact (rewritten_kept mag).step sort maxNew maxGone (rewritten_of_empty rfl rfl rfl)
  · rw [hd]
    exact rewritten_of_empty rfl rfl rfl

def firstStep : Accesses (List Burst × List Burst) :=
  stepProg (wideBand 4096) insertionQsort 16 16 []

/-- The reset clears the sum once the step has added to it, and goes on as the step leaves the
other fields. -/
def wovenReset : List Move :=
  List.replicate 6 .left++[.right]++List.replicate 2 .left++[.right, .right]++
    List.replicate 3 .left++List.replicate 4 .right++[.left]

def fresh : Tagger := init (fun _ _ => 0) 0

theorem wovenReset_late :
    AllSteps Conflicts.step Late (start firstStep resetStores (fresh, fun _ => 1)) wovenReset := by
  decide +kernel

theorem woven_reset_serial :
    let d := Conflicts.run firstStep resetStores (fresh, fun _ => 1) wovenReset
    let after (t : Tagger) := step (wideBand 4096) insertionQsort (fun _ => 1) 16 16 t
    (([], []) = reports (after (resetBaseline fresh)) ∧
        d.shared.1 = (after (resetBaseline fresh)).tagger) ∨
      (([], []) = reports (after fresh) ∧ d.shared.1 = resetBaseline (after fresh).tagger) :=
  (reset_between_steps (wideBand 4096) insertionQsort (fun _ _ => 0) 0 [] [] (fun _ => 1) 16 16
    wovenReset ([], []) (.inl wovenReset_late) rfl rfl).1

/-- The slot is out of the sum yet counted as written. -/
theorem reset_inside_step_skips_slot :
    let d := Conflicts.run firstStep resetStores (fresh, fun _ => 1)
      (List.replicate 8 .left++List.replicate 7 .right++List.replicate 4 .left)
    let after (t : Tagger) := (step (wideBand 4096) insertionQsort (fun _ => 1) 16 16 t).tagger
    let first := after (resetBaseline fresh)
    let last := resetBaseline (after fresh)
    d.left = .ret ([], []) ∧ d.rest = [] ∧
    (d.shared.1.base.sum 0, d.shared.1.base.index, d.shared.1.base.written.length) = (0, 1, 0) ∧
    (first.base.sum 0, first.base.index, first.base.written.length) = (1, 1, 1) ∧
    (last.base.sum 0, last.base.index, last.base.written.length) = (0, 0, 0) :=
  ⟨rfl, rfl, rfl, rfl, rfl⟩

end IridiumAcars.FftBurstTagger
