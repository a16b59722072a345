import IridiumAcars.Lib.RingBuffer
import IridiumAcars.Lib.Runs
import Mathlib.Data.List.DropRight
import Mathlib.Data.UInt

/-! The hourly band-health worker of band_health.c and the medians of band_health_core.h. -/
namespace IridiumAcars.BandHealth
open RingBuffer Runs List

def bhHistHours : Nat := 168
def bhBaselineHours : Nat := 168
def bhMinEvalHours : Nat := 48
def bhTriggerPct : Nat := 60
def bhCooldownHours : Nat := 24
def bhMagic : UInt32 := 0x31504842

def insertFromEnd (x : Nat) : List Nat → List Nat
  | [] => [x]
  | t::ts => if t > x then t::insertFromEnd x ts else x::t::ts

def bhMedianU16 (v : List Nat) : Nat :=
  let v := v.take bhHistHours
  let tmp := (v.foldl (fun tmp x => insertFromEnd x tmp) []).reverse
  tmp.getD (v.length/2) 0

def bhBelowBaseline (trailingMedian baseline : Nat) : Bool :=
  decide (baseline ≠ 0) && decide (trailingMedian*100 < baseline*bhTriggerPct)

/-- `bh_persist_t`, in RAM as `s_hist` and in NVS. -/
structure BhPersist where
  magic : UInt32
  count : Nat
  head : Nat
  baseline : Nat
  cooldownH : Nat
  firedTotal : UInt32
  hist : Nat → Nat

structure Status where
  hoursTracked : Nat
  lastHour : Nat
  trailingMedian : Nat
  baseline : Nat
  cooldownH : Nat
  firedTotal : UInt32
  belowBaseline : Bool

def bhTrailingMedian (s : BhPersist) (span : Nat) : Nat :=
  let span := if span > s.count then s.count else span
  if span = 0 then 0 else bhMedianU16 (readBack bhHistHours s.hist s.head span)

def BhPersist.closeHour (s : BhPersist) (sample : Nat) : BhPersist :=
  { s with
    head := (s.head+1)%bhHistHours
    hist := Function.update s.hist ((s.head+1)%bhHistHours) sample
    count := if s.count < bhHistHours then s.count+1 else s.count
    cooldownH := if s.cooldownH > 0 then s.cooldownH-1 else s.cooldownH }

def BhPersist.rearm (s : BhPersist) (observed : Bool) : BhPersist :=
  if observed then { s with cooldownH := bhCooldownHours } else s

def BhPersist.freezeBaseline (s : BhPersist) : BhPersist :=
  if s.baseline = 0 ∧ s.count ≥ bhBaselineHours then
    let m := bhTrailingMedian s bhBaselineHours
    if m > 0 then { s with baseline := m } else s
  else s

def BhPersist.evaluate (s : BhPersist) : Nat × Bool :=
  if s.count ≥ bhMinEvalHours then
    let trail := bhTrailingMedian s bhHistHours
    (trail, bhBelowBaseline trail s.baseline)
  else (0, false)

def BhPersist.fired (s : BhPersist) : BhPersist :=
  { s with cooldownH := bhCooldownHours, firedTotal := s.firedTotal+1 }

/-- What a tick finds: the lifetime counter, `decode_survey_running` and
`autotune_scan_status`. -/
structure Hour where
  lwDa : UInt64
  decodeRunning : Bool
  scanStatus : Nat

structure Device where
  hist : BhPersist
  nvs : Option BhPersist
  surveyDone : Bool
  lwdaAtLastTick : UInt64

structure Tick where
  status : Status
  fire : Bool
  observed : Bool

def bucket (delta : UInt64) : Nat := if delta > 0xFFFF then 0xFFFF else delta.toNat

def Device.sample (d : Device) (h : Hour) : Nat := bucket (h.lwDa-d.lwdaAtLastTick)

def Device.bookHour (d : Device) (h : Hour) : BhPersist :=
  let s := d.hist.closeHour (d.sample h)
  ((s.rearm d.surveyDone).rearm h.decodeRunning).freezeBaseline

def Device.trigger (d : Device) (h : Hour) : Bool :=
  let s := d.bookHour h
  s.evaluate.2 && decide (s.cooldownH = 0) && decide (h.scanStatus = 0)

def bhHourTask (d : Device) (h : Hour) : Device × Tick :=
  let s := d.bookHour h
  let (trail, below) := s.evaluate
  let fire := d.trigger h
  let s := if fire then s.fired else s
  (⟨s, some s, false, h.lwDa⟩,
    ⟨⟨s.count, d.sample h, trail, s.baseline, s.cooldownH, s.firedTotal, below⟩, fire,
      d.surveyDone || h.decodeRunning⟩)

def fresh : BhPersist := ⟨bhMagic, 0, 0, 0, 0, 0, fun _ => 0⟩

def restorable (b : BhPersist) : Bool :=
  decide (b.magic = bhMagic) && decide (b.count ≤ bhHistHours) && decide (b.head < bhHistHours)

def restore (nvs : Option BhPersist) : BhPersist :=
  match nvs with
  | none => fresh
  | some b => if restorable b then b else fresh

def bandHealthInit (nvs : Option BhPersist) : Device := ⟨restore nvs, nvs, false, 0⟩

/-- A tick is skipped while the worker of the one before runs, or when there is none. -/
inductive Event
  | hour (h : Hour)
  | skipped
  | noteSurvey
  | reboot

def react (d : Device) : Event → Device × Option Tick
  | .hour h => ((bhHourTask d h).1, some (bhHourTask d h).2)
  | .skipped => (d, none)
  | .noteSurvey => ({ d with surveyDone := true }, none)
  | .reboot => (bandHealthInit d.nvs, none)

def ticks (es : List Event) : List Tick :=
  (runFrom react (bandHealthInit none) es).log.filterMap Prod.snd

def upperMedian (l : List Nat) : Nat := (l.insertionSort (· ≤ ·)).getD (l.length/2) 0

theorem upperMedian_perm {l l' : List Nat} (h : l.Perm l') : upperMedian l = upperMedian l' := by
  have hsorted : l.insertionSort (· ≤ ·) = l'.insertionSort (· ≤ ·) :=
    (((perm_insertionSort _ l).trans h).trans
      (perm_insertionSort _ l').symm).eq_of_pairwise'
      (pairwise_insertionSort _ l) (pairwise_insertionSort _ l')
  rw [upperMedian, upperMedian, hsorted, h.length_eq]

theorem insertFromEnd_perm (x : Nat) (ts : List Nat) : (insertFromEnd x ts).Perm (x::ts) := by
  induction ts with
  | nil => exact List.Perm.refl _
  | cons t ts ih =>
    rw [insertFromEnd]
    split
    · exact (ih.cons t).trans (List.Perm.swap x t ts)
    · exact List.Perm.refl _

theorem insertFromEnd_sorted (x : Nat) {ts : List Nat} (h : ts.Pairwise (· ≥ ·)) :
    (insertFromEnd x ts).Pairwise (· ≥ ·) := by
  induction ts with
  | nil => exact pairwise_singleton _ x
  | cons t ts ih =>
    obtain ⟨ht,hts⟩ := pairwise_cons.mp h
    rw [insertFromEnd]
    split_ifs with htx
    · refine pairwise_cons.mpr ⟨?_, ih hts⟩
      intro y hy
      obtain rfl | hy := mem_cons.mp ((insertFromEnd_perm x ts).mem_iff.mp hy)
      · exact htx.le
      · exact ht y hy
    · refine pairwise_cons.mpr ⟨?_, h⟩
      intro y hy
      obtain rfl | hy := mem_cons.mp hy
      · exact Nat.le_of_not_lt htx
      · exact le_trans (ht y hy) (Nat.le_of_not_lt htx)

theorem insertAll_sorted (v tmp : List Nat) (h : tmp.Pairwise (· ≥ ·)) :
    (v.foldl (fun tmp x => insertFromEnd x tmp) tmp).Pairwise (· ≥ ·) ∧
      (v.foldl (fun tmp x => insertFromEnd x tmp) tmp).Perm (v++tmp) := by
  induction v generalizing tmp with
  | nil => exact ⟨h, List.Perm.refl _⟩
  | cons x v ih =>
    obtain ⟨hs,hp⟩ := ih (insertFromEnd x tmp) (insertFromEnd_sorted x h)
    refine ⟨hs, hp.trans ?_⟩
    exact ((insertFromEnd_perm x tmp).append_left v).trans perm_middle

theorem bhMedianU16_eq {v : List Nat} (h : v.length ≤ bhHistHours) :
    bhMedianU16 v = upperMedian v := by
  obtain ⟨hs,hp⟩ := insertAll_sorted v [] List.Pairwise.nil
  rw [append_nil] at hp
  have heq : (v.foldl (fun tmp x => insertFromEnd x tmp) []).reverse =
      v.insertionSort (· ≤ ·) :=
    (((reverse_perm _).trans hp).trans (perm_insertionSort _ v).symm).eq_of_pairwise'
      (pairwise_reverse.mpr hs) (pairwise_insertionSort _ v)
  rw [bhMedianU16, take_of_length_le h, heq, upperMedian]

variable (o : Bool)

section
variable (s : BhPersist) (d : Device) (h : Hour)

@[simp] theorem rearm_count : (s.rearm o).count = s.count := by cases o <;> rfl
@[simp] theorem rearm_head : (s.rearm o).head = s.head := by cases o <;> rfl
@[simp] theorem rearm_hist : (s.rearm o).hist = s.hist := by cases o <;> rfl
@[simp] theorem rearm_magic : (s.rearm o).magic = s.magic := by cases o <;> rfl
@[simp] theorem rearm_baseline : (s.rearm o).baseline = s.baseline := by
  cases o <;> rfl

theorem freezeBaseline_eq : ∃ b, s.freezeBaseline = { s with baseline := b } := by
  unfold BhPersist.freezeBaseline
  split
  · by_cases hm : bhTrailingMedian s bhBaselineHours > 0
    · exact ⟨_, if_pos hm⟩
    · exact ⟨s.baseline, if_neg hm⟩
  · exact ⟨s.baseline, rfl⟩

@[simp] theorem freeze_count : s.freezeBaseline.count = s.count := by
  obtain ⟨b,hb⟩ := freezeBaseline_eq s
  rw [hb]

@[simp] theorem freeze_head : s.freezeBaseline.head = s.head := by
  obtain ⟨b,hb⟩ := freezeBaseline_eq s
  rw [hb]

@[simp] theorem freeze_hist : s.freezeBaseline.hist = s.hist := by
  obtain ⟨b,hb⟩ := freezeBaseline_eq s
  rw [hb]

@[simp] theorem freeze_magic : s.freezeBaseline.magic = s.magic := by
  obtain ⟨b,hb⟩ := freezeBaseline_eq s
  rw [hb]

@[simp] theorem freeze_cooldownH : s.freezeBaseline.cooldownH = s.cooldownH := by
  obtain ⟨b,hb⟩ := freezeBaseline_eq s
  rw [hb]

theorem freeze_of_frozen (hb : s.baseline ≠ 0) : s.freezeBaseline = s := by
  rw [BhPersist.freezeBaseline, if_neg (fun hand => hb hand.1)]

theorem freeze_of_open (hb : s.baseline = 0) (hnew : s.freezeBaseline.baseline ≠ 0) :
    s.count ≥ bhBaselineHours ∧
      s.freezeBaseline.baseline = bhTrailingMedian s bhBaselineHours := by
  by_cases hfull : s.count ≥ bhBaselineHours
  · refine ⟨hfull, ?_⟩
    by_cases hm : bhTrailingMedian s bhBaselineHours > 0
    · rw [BhPersist.freezeBaseline, if_pos ⟨hb, hfull⟩, if_pos hm]
    · rw [BhPersist.freezeBaseline, if_pos ⟨hb, hfull⟩, if_neg hm] at hnew
      exact absurd hb hnew
  · rw [BhPersist.freezeBaseline, if_neg (fun hand => hfull hand.2)] at hnew
    exact absurd hb hnew

theorem trailing_congr {s s' : BhPersist} (hc : s'.count = s.count) (hh : s'.head = s.head)
    (hr : s'.hist = s.hist) (span : Nat) : bhTrailingMedian s' span = bhTrailingMedian s span := by
  rw [bhTrailingMedian, bhTrailingMedian, hc, hh, hr]

theorem bookHour_cooldownH : (d.bookHour h).cooldownH =
    if d.surveyDone || h.decodeRunning then bhCooldownHours else d.hist.cooldownH-1 := by
  rw [Device.bookHour, freeze_cooldownH]
  cases h.decodeRunning <;> cases d.surveyDone <;>
    simp only [BhPersist.rearm, BhPersist.closeHour, Bool.or_true, Bool.or_false, if_true,
      Bool.false_eq_true, if_false]
  split <;> omega

end

structure Window (s : BhPersist) (samples : List Nat) : Prop where
  count : s.count = min samples.length bhHistHours
  read : readBack bhHistHours s.hist s.head s.count = samples.reverse.take bhHistHours

variable {samples : List Nat}

theorem Window.congr {s s' : BhPersist} (h : Window s samples)
    (hc : s'.count = s.count) (hh : s'.head = s.head) (hr : s'.hist = s.hist) :
    Window s' samples := by
  constructor
  · rw [hc, h.count]
  · rw [hc, hh, hr, h.read]

theorem Window.closeHour {s : BhPersist} (h : Window s samples) (x : Nat) :
    Window (s.closeHour x) (samples++[x]) := by
  have hcount := h.count
  have hread := h.read
  have hhours : bhHistHours = 167+1 := rfl
  rw [hhours] at hcount
  have hnew : (s.closeHour x).count = min samples.length 167+1 := by
    simp only [BhPersist.closeHour, hhours]
    split <;> omega
  constructor
  · rw [hnew, length_append, length_singleton, hhours]
    omega
  · have hpast : readBack bhHistHours s.hist s.head (min samples.length 167) =
        samples.reverse.take 167 := by
      rw [← take_readBack (show min samples.length 167 ≤ s.count by omega), hread,
        take_take, hhours, show min (min samples.length 167) (167+1) =
          min 167 samples.reverse.length by rw [length_reverse]; omega,
        ← take_eq_take_min]
    rw [hnew, reverse_append, reverse_singleton, singleton_append]
    have hpush : readBack bhHistHours (s.closeHour x).hist (s.closeHour x).head
        (min samples.length 167+1) =
          x::readBack bhHistHours s.hist s.head (min samples.length 167) :=
      readBack_push (by rw [hhours]; omega) x
    rw [hpush, hpast, hhours, take_succ_cons]

theorem Window.median {s : BhPersist} (h : Window s samples) :
    bhTrailingMedian s bhHistHours = upperMedian (samples.rtake bhHistHours) := by
  have hle : s.count ≤ bhHistHours := by
    rw [h.count]
    exact Nat.min_le_right _ _
  have hspan : (if bhHistHours > s.count then s.count else bhHistHours) = s.count := by
    split <;> omega
  have hmedian : bhMedianU16 (readBack bhHistHours s.hist s.head s.count) =
      upperMedian (samples.rtake bhHistHours) := by
    rw [bhMedianU16_eq (by rw [length_readBack]; exact hle), h.read,
      rtake_eq_reverse_take_reverse]
    exact upperMedian_perm (reverse_perm _).symm
  rw [bhTrailingMedian, hspan]
  split_ifs with hzero
  · rw [← hmedian, hzero]
    rfl
  · rw [hmedian]

def lastHours (ts : List Tick) (i : Nat) : List Nat :=
  ((ts.take (i+1)).map fun t => t.status.lastHour).rtake bhHistHours

structure FreezesAt (ts : List Tick) (k b : Nat) : Prop where
  full : bhBaselineHours ≤ k+1
  median : b = upperMedian (lastHours ts k)
  set : ∃ t, ts[k]? = some t ∧ t.status.baseline = b
  unset : ∀ j t, j < k → ts[j]? = some t → t.status.baseline = 0

structure Discipline (ts : List Tick) : Prop where
  tracked : ∀ i t, ts[i]? = some t → t.status.hoursTracked = min (i+1) bhHistHours
  trailing : ∀ i t, ts[i]? = some t → bhMinEvalHours ≤ t.status.hoursTracked →
    t.status.trailingMedian = upperMedian (lastHours ts i)
  lasting : ∀ (i j : Nat) (t u : Tick), ts[i]? = some t → ts[j]? = some u → i ≤ j →
    t.status.baseline ≠ 0 → u.status.baseline = t.status.baseline
  frozen : ∀ (i : Nat) (t : Tick), ts[i]? = some t → t.status.baseline ≠ 0 →
    ∃ k, k ≤ i ∧ FreezesAt ts k t.status.baseline
  apart : ∀ i j t u, ts[i]? = some t → ts[j]? = some u → t.fire = true → u.fire = true → i < j →
    i+24 ≤ j
  quiet : ∀ i j t u, ts[i]? = some t → ts[j]? = some u → t.observed = true → i ≤ j → j ≤ i+23 →
    u.fire = false

structure Inv (d : Device) (ts : List Tick) : Prop where
  restored : restore d.nvs = d.hist
  valid : restorable d.hist = true
  window : Window d.hist (ts.map fun t => t.status.lastHour)
  armed : ∀ i t, ts[i]? = some t → t.fire = true ∨ t.observed = true →
    i+1+bhCooldownHours ≤ d.hist.cooldownH+ts.length
  baseline : ∀ (i : Nat) (t : Tick), ts[i]? = some t → t.status.baseline ≠ 0 →
    t.status.baseline = d.hist.baseline
  frozen : d.hist.baseline ≠ 0 → ∃ k, k < ts.length ∧ FreezesAt ts k d.hist.baseline
  discipline : Discipline ts

section
variable {d : Device} {ts : List Tick} {h : Hour}

theorem lastHours_snoc (t : Tick) {i : Nat} (hi : i < ts.length) :
    lastHours (ts++[t]) i = lastHours ts i := by
  rw [lastHours, lastHours, take_append_of_le_length (by omega)]

theorem FreezesAt.snoc {k b : Nat} (hk : FreezesAt ts k b) (hlt : k < ts.length) (t : Tick) :
    FreezesAt (ts++[t]) k b where
  full := hk.full
  median := by rw [lastHours_snoc t hlt, hk.median]
  set := by
    obtain ⟨u,hu,hb⟩ := hk.set
    exact ⟨u, by rw [getElem?_append_left hlt, hu], hb⟩
  unset j u hj hu := by
    rw [getElem?_append_left (by omega)] at hu
    exact hk.unset j u hj hu

theorem Inv.bookWindow (hinv : Inv d ts) :
    Window (d.bookHour h) ((ts.map fun t => t.status.lastHour)++[d.sample h]) :=
  (hinv.window.closeHour (d.sample h)).congr (by simp [Device.bookHour])
    (by simp [Device.bookHour]) (by simp [Device.bookHour])

theorem Inv.bookCount (hinv : Inv d ts) :
    (d.bookHour h).count = min (ts.length+1) bhHistHours := by
  rw [(hinv.bookWindow (h := h)).count, length_append, length_map, length_singleton]

theorem Inv.bookArmed (hinv : Inv d ts) {i : Nat} {t : Tick} (ht : ts[i]? = some t)
    (harm : t.fire = true ∨ t.observed = true) :
    i+bhCooldownHours ≤ (d.bookHour h).cooldownH+ts.length := by
  have hold := hinv.armed i t ht harm
  have hi : i < ts.length := (List.getElem?_eq_some_iff.mp ht).1
  rw [bookHour_cooldownH]
  split <;> omega

theorem booked_baseline : (((d.hist.closeHour (d.sample h)).rearm d.surveyDone).rearm
    h.decodeRunning).baseline = d.hist.baseline := by
  rw [rearm_baseline, rearm_baseline]
  rfl

theorem bookHour_frozen (hb : d.hist.baseline ≠ 0) : (d.bookHour h).baseline = d.hist.baseline := by
  rw [Device.bookHour, freeze_of_frozen _ (by rw [booked_baseline]; exact hb), booked_baseline]

theorem bookHour_freezes (hb : d.hist.baseline = 0) (hnew : (d.bookHour h).baseline ≠ 0) :
    (d.bookHour h).count ≥ bhBaselineHours ∧
      (d.bookHour h).baseline = bhTrailingMedian (d.bookHour h) bhBaselineHours := by
  obtain ⟨hfull,hm⟩ := freeze_of_open _ (booked_baseline.trans hb) hnew
  refine ⟨(freeze_count _).symm ▸ hfull, hm.trans ?_⟩
  exact (trailing_congr (freeze_count _) (freeze_head _) (freeze_hist _) _).symm

theorem trigger_cooldownH (hfire : d.trigger h = true) : (d.bookHour h).cooldownH = 0 := by
  simp only [Device.trigger, Bool.and_eq_true, decide_eq_true_eq] at hfire
  exact hfire.1.2

theorem trigger_not_observed (hfire : d.trigger h = true) :
    (d.surveyDone || h.decodeRunning) = false := by
  cases ho : d.surveyDone || h.decodeRunning with
  | false => rfl
  | true =>
    have hcool := trigger_cooldownH hfire
    rw [bookHour_cooldownH, if_pos ho] at hcool
    exact absurd hcool (by decide)

structure Next (ts : List Tick) (t : Tick) : Prop where
  tracked : t.status.hoursTracked = min (ts.length+1) bhHistHours
  trailing : bhMinEvalHours ≤ t.status.hoursTracked →
    t.status.trailingMedian = upperMedian (lastHours (ts++[t]) ts.length)
  lasting : ∀ (i : Nat) (u : Tick), ts[i]? = some u → u.status.baseline ≠ 0 →
    t.status.baseline = u.status.baseline
  frozen : t.status.baseline ≠ 0 → ∃ k, k ≤ ts.length ∧ FreezesAt (ts++[t]) k t.status.baseline
  calm : t.fire = true → t.observed = false
  spaced : t.fire = true → ∀ (i : Nat) (u : Tick), ts[i]? = some u →
    u.fire = true ∨ u.observed = true → i+24 ≤ ts.length

theorem Discipline.snoc (hd : Discipline ts) {t : Tick} (hn : Next ts t) :
    Discipline (ts++[t]) where
  tracked i u hu := by
    obtain ⟨-,hu⟩ | ⟨rfl,rfl⟩ := getElem?_snoc_cases ts t u i hu
    · exact hd.tracked i u hu
    · exact hn.tracked
  trailing i u hu := by
    obtain ⟨hi,hu⟩ | ⟨rfl,rfl⟩ := getElem?_snoc_cases ts t u i hu
    · rw [lastHours_snoc t hi]
      exact hd.trailing i u hu
    · exact hn.trailing
  lasting i j u v hu hv hij hb := by
    obtain ⟨hi,hu⟩ | ⟨rfl,rfl⟩ := getElem?_snoc_cases ts t u i hu <;>
      obtain ⟨hj,hv⟩ | ⟨rfl,rfl⟩ := getElem?_snoc_cases ts t v j hv
    · exact hd.lasting i j u v hu hv hij hb
    · exact hn.lasting i u hu hb
    · omega
    · rfl
  frozen i u hu hb := by
    obtain ⟨hi,hu⟩ | ⟨rfl,rfl⟩ := getElem?_snoc_cases ts t u i hu
    · obtain ⟨k,hk,hf⟩ := hd.frozen i u hu hb
      exact ⟨k, hk, hf.snoc (by omega) t⟩
    · exact hn.frozen hb
  apart i j u v hu hv hfu hfv hij := by
    obtain ⟨hi,hu⟩ | ⟨rfl,rfl⟩ := getElem?_snoc_cases ts t u i hu <;>
      obtain ⟨hj,hv⟩ | ⟨rfl,rfl⟩ := getElem?_snoc_cases ts t v j hv
    · exact hd.apart i j u v hu hv hfu hfv hij
    · exact hn.spaced hfv i u hu (.inl hfu)
    · omega
    · omega
  quiet i j u v hu hv ho hij hji := by
    obtain ⟨hi,hu⟩ | ⟨rfl,rfl⟩ := getElem?_snoc_cases ts t u i hu <;>
      obtain ⟨hj,hv⟩ | ⟨rfl,rfl⟩ := getElem?_snoc_cases ts t v j hv
    · exact hd.quiet i j u v hu hv ho hij hji
    · rw [Bool.eq_false_iff]
      intro hf
      have := hn.spaced hf i u hu (.inr ho)
      omega
    · omega
    · rw [Bool.eq_false_iff]
      intro hf
      rw [hn.calm hf] at ho
      cases ho

theorem hourTask_hist : (bhHourTask d h).1.hist =
    if d.trigger h then (d.bookHour h).fired else d.bookHour h := rfl

theorem hourTask_same : (bhHourTask d h).1.hist.count = (d.bookHour h).count ∧
    (bhHourTask d h).1.hist.head = (d.bookHour h).head ∧
    (bhHourTask d h).1.hist.hist = (d.bookHour h).hist ∧
    (bhHourTask d h).1.hist.baseline = (d.bookHour h).baseline ∧
    (bhHourTask d h).1.hist.magic = (d.bookHour h).magic := by
  rw [hourTask_hist]
  split <;> exact ⟨rfl, rfl, rfl, rfl, rfl⟩

theorem Inv.restorable_next (hinv : Inv d ts) : restorable (bhHourTask d h).1.hist = true := by
  obtain ⟨hcount,hhead,-,-,hmagic⟩ := hourTask_same (d := d) (h := h)
  have hvalid := hinv.valid
  simp only [restorable, Bool.and_eq_true, decide_eq_true_eq] at hvalid ⊢
  rw [hcount, hhead, hmagic, hinv.bookCount]
  refine ⟨⟨?_, Nat.min_le_right _ _⟩, ?_⟩
  · simpa [Device.bookHour, BhPersist.closeHour] using hvalid.1.1
  · have hlt : (d.hist.head+1)%bhHistHours < bhHistHours := Nat.mod_lt _ (by decide)
    simpa [Device.bookHour, BhPersist.closeHour] using hlt

theorem lastHours_new : lastHours (ts++[(bhHourTask d h).2]) ts.length =
    ((ts.map fun t => t.status.lastHour)++[d.sample h]).rtake bhHistHours := by
  rw [lastHours, take_of_length_le (by simp), map_append]
  rfl

theorem Inv.bookMedian (hinv : Inv d ts) : bhTrailingMedian (d.bookHour h) bhHistHours =
    upperMedian (lastHours (ts++[(bhHourTask d h).2]) ts.length) := by
  rw [lastHours_new]
  exact hinv.bookWindow.median

theorem Inv.next_frozen (hinv : Inv d ts) (hb : (bhHourTask d h).2.status.baseline ≠ 0) :
    ∃ k, k ≤ ts.length ∧
      FreezesAt (ts++[(bhHourTask d h).2]) k (bhHourTask d h).2.status.baseline := by
  have hbook : (bhHourTask d h).2.status.baseline = (d.bookHour h).baseline :=
    hourTask_same.2.2.2.1
  rw [hbook] at hb ⊢
  by_cases hopen : d.hist.baseline = 0
  · obtain ⟨hfull,hm⟩ := bookHour_freezes hopen hb
    rw [hinv.bookCount] at hfull
    refine ⟨ts.length, le_rfl, le_trans hfull (Nat.min_le_left _ _), hm.trans hinv.bookMedian,
      ⟨_, getElem?_concat_length, hbook⟩, ?_⟩
    intro j u hj hu
    rw [getElem?_append_left hj] at hu
    by_contra hne
    exact hne ((hinv.baseline j u hu hne).trans hopen)
  · obtain ⟨k,hk,hf⟩ := hinv.frozen hopen
    rw [bookHour_frozen hopen]
    exact ⟨k, hk.le, hf.snoc hk _⟩

theorem Inv.next (hinv : Inv d ts) : Next ts (bhHourTask d h).2 where
  tracked := hourTask_same.1.trans hinv.bookCount
  trailing htracked := by
    rw [← hinv.bookMedian]
    have hcount : (d.bookHour h).count ≥ bhMinEvalHours := by
      rwa [← hourTask_same.1]
    change (d.bookHour h).evaluate.1 = _
    rw [BhPersist.evaluate, if_pos hcount]
  lasting i u hu hb := by
    have hsame := hinv.baseline i u hu hb
    rw [hsame] at hb ⊢
    exact hourTask_same.2.2.2.1.trans (bookHour_frozen hb)
  frozen := hinv.next_frozen
  calm := trigger_not_observed
  spaced hfire i u hu harm := by
    have hcool := hinv.bookArmed (h := h) hu harm
    rw [trigger_cooldownH hfire] at hcool
    simpa [bhCooldownHours] using hcool

theorem Inv.hour (hinv : Inv d ts) : Inv (bhHourTask d h).1 (ts++[(bhHourTask d h).2]) where
  restored := by
    change (if restorable (bhHourTask d h).1.hist then (bhHourTask d h).1.hist else fresh) = _
    rw [if_pos hinv.restorable_next]
  valid := hinv.restorable_next
  window := by
    obtain ⟨hcount,hhead,hhist,-⟩ := hourTask_same (d := d) (h := h)
    rw [map_append]
    exact hinv.bookWindow.congr hcount hhead hhist
  armed i u hu harm := by
    rw [hourTask_hist, length_append, length_singleton]
    obtain ⟨hi,hu⟩ | ⟨rfl,rfl⟩ := getElem?_snoc_cases ts _ u i hu
    · have hold := hinv.bookArmed (h := h) hu harm
      split
      · simp only [BhPersist.fired]
        omega
      · omega
    · by_cases hfire : d.trigger h = true
      · rw [if_pos hfire]
        simp only [BhPersist.fired]
        omega
      · have hobs : (d.surveyDone || h.decodeRunning) = true := harm.resolve_left hfire
        rw [if_neg hfire, bookHour_cooldownH, if_pos hobs]
        omega
  baseline i u hu hb := by
    obtain ⟨hi,hu⟩ | ⟨rfl,rfl⟩ := getElem?_snoc_cases ts _ u i hu
    · exact (hinv.next.lasting i u hu hb).symm
    · rfl
  frozen hb := by
    obtain ⟨k,hk,hf⟩ := hinv.next_frozen hb
    exact ⟨k, by rw [length_append, length_singleton]; omega, hf⟩
  discipline := hinv.discipline.snoc hinv.next

end

theorem inv_initial : Inv (bandHealthInit none) [] where
  restored := rfl
  valid := by decide
  window := ⟨rfl, rfl⟩
  armed i t ht := by cases ht
  baseline i t ht := by cases ht
  frozen hb := absurd rfl hb
  discipline :=
    { tracked := fun i t ht => by cases ht
      trailing := fun i t ht => by cases ht
      lasting := fun i j t u ht => by cases ht
      frozen := fun i t ht => by cases ht
      apart := fun i j t u ht => by cases ht
      quiet := fun i j t u ht => by cases ht }

theorem inv_run (es : List Event) :
    Inv (runFrom react (bandHealthInit none) es).ctx (ticks es) := by
  refine runFrom_invariant react (bandHealthInit none)
    (fun tr => Inv tr.ctx (tr.log.filterMap Prod.snd)) es inv_initial ?_
  intro tr e _ hinv
  rw [Trace.next, filterMap_append]
  cases e with
  | hour h => exact hinv.hour
  | skipped => simpa [react] using hinv
  | noteSurvey =>
    simp only [react, filterMap_cons_none, filterMap_nil, append_nil]
    exact { hinv with }
  | reboot =>
    simp only [react, filterMap_cons_none, filterMap_nil, append_nil]
    have hhist : (bandHealthInit tr.ctx.nvs).hist = tr.ctx.hist := hinv.restored
    exact
      { restored := rfl
        valid := by rw [hhist]; exact hinv.valid
        window := by rw [hhist]; exact hinv.window
        armed := by rw [hhist]; exact hinv.armed
        baseline := by rw [hhist]; exact hinv.baseline
        frozen := by rw [hhist]; exact hinv.frozen
        discipline := hinv.discipline }

/-- The frames counted since the tick before, or since the boot; a bucket holds 65535. -/
def hourlyCounts (last : UInt64) : List Event → List Nat
  | [] => []
  | .hour h::es => min (h.lwDa-last).toNat 65535::hourlyCounts h.lwDa es
  | .reboot::es => hourlyCounts 0 es
  | .skipped::es | .noteSurvey::es => hourlyCounts last es

theorem bucket_eq (delta : UInt64) : bucket delta = min delta.toNat 65535 := by
  rw [bucket]
  split
  · rename_i hbig
    exact (Nat.min_eq_right (UInt64.lt_iff_toNat_lt.mp hbig).le).symm
  · rename_i hsmall
    exact (Nat.min_eq_left (Nat.le_of_not_lt (mt UInt64.lt_iff_toNat_lt.mpr hsmall))).symm

theorem lastHour_counts (es : List Event) (tr : Trace Device Event (Option Tick)) :
    (((es.foldl (Trace.next react) tr).log.filterMap Prod.snd).map fun t => t.status.lastHour) =
      ((tr.log.filterMap Prod.snd).map fun t => t.status.lastHour)++
        hourlyCounts tr.ctx.lwdaAtLastTick es := by
  induction es generalizing tr with
  | nil => exact (append_nil _).symm
  | cons e es ih =>
    rw [foldl_cons, ih]
    cases e <;> simp [Trace.next, react, hourlyCounts, bhHourTask, Device.sample, bucket_eq,
      bandHealthInit]

theorem band_health_disciplined (es : List Event) :
    Discipline (ticks es) ∧
      ((ticks es).map fun t => t.status.lastHour) = hourlyCounts 0 es :=
  ⟨(inv_run es).discipline, lastHour_counts es ⟨bandHealthInit none, []⟩⟩

end IridiumAcars.BandHealth
