import IridiumAcars.Lib.Runs
import IridiumAcars.TaggerBaseline

/-! `process_chunk` of `dsp_processor.c`, coalescing off: which closed bursts reach the callback. -/
namespace IridiumAcars.FftBurstTagger
open Runs List

def newBufSize : Nat := 16
def goneBufSize : Nat := 16

/-- The detector with the calls of the burst callback, each with the index of its FFT step. -/
structure Detector where
  tagger : Tagger
  calls : List (Nat × Burst)

/-- `process_chunk`; `dispatch_gone_batch` calls back for every burst reported gone. -/
def processChunk (cfg : Config) (sort : Qsort) (p : Detector) (mag : Magnitudes) : Detector :=
  let r := step cfg sort mag newBufSize goneBufSize p.tagger
  ⟨r.tagger, p.calls++r.gone.map fun b => (p.tagger.dIndex, b)⟩

def processChunks (cfg : Config) (sort : Qsort) (p : Detector) (mags : List Magnitudes) :
    Detector := mags.foldl (processChunk cfg sort) p

def freshDetector (history : Nat → Nat → Int) : Detector := ⟨init history 0, []⟩

def Burst.key (b : Burst) : Nat × Nat := (b.start, b.centerBin)

section
variable (cfg : Config) (sort : Qsort) (mag : Magnitudes) (t : Tagger)

def squelches : Bool :=
  decide (squelchMaxBursts < (grown cfg sort mag newBufSize t).bursts.length)

def carried : List Burst := (updateBursts cfg mag t).bursts

def closing : List Burst :=
  if t.base.primed = false then []
  else if squelches cfg sort mag t then (carried cfg mag t).filter fun b => !activeNow t b
  else (carried cfg mag t).filter (dueBurst cfg t)

def dropping : List Burst :=
  if t.base.primed && squelches cfg sort mag t then (carried cfg mag t).filter (activeNow t)
  else []

end

structure Outcome (cfg : Config) (sort : Qsort) (mag : Magnitudes) (t : Tagger) (r : Reported)
    (opened brief : List Burst) : Prop where
  keys : ((carried cfg mag t++opened).map Burst.key).Nodup
  old : ∀ b ∈ carried cfg mag t, b.start+cfg.preLen < t.dIndex
  fresh : ∀ b ∈ opened, b.start+cfg.preLen = t.dIndex
  closing_sub : (closing cfg sort mag t).Sublist (carried cfg mag t)
  dropping_sub : (dropping cfg sort mag t).Sublist (carried cfg mag t)
  brief_sub : brief.Sublist opened
  tracked : ∀ a ∈ r.tagger.bursts, a ∈ carried cfg mag t++opened ∧
    a ∉ closing cfg sort mag t ∧ a ∉ dropping cfg sort mag t ∧ a ∉ brief
  complete : ∀ b ∈ carried cfg mag t, b ∈ closing cfg sort mag t ∨ b ∈ dropping cfg sort mag t ∨
    b ∈ r.tagger.bursts
  disjoint : ∀ b ∈ closing cfg sort mag t, b ∉ dropping cfg sort mag t
  gone : r.gone = ((closing cfg sort mag t++brief).map (closeBurst t)).take goneBufSize
  counter : r.tagger.squelchDropped =
    t.squelchDropped+UInt32.ofNat (dropping cfg sort mag t).length
  index : r.tagger.dIndex = t.dIndex+fftSize

variable {k : Nat × Nat} (maxGone : Nat) {b : Burst}

section
variable {cfg : Config} {sort : Qsort} {mag : Magnitudes} {t : Tagger}

theorem Apart.keys_nodup {bursts : List Burst} (h : Apart cfg bursts) :
    (bursts.map Burst.key).Nodup := by
  refine pairwise_map.mpr (h.imp fun hab hkey => hab ?_)
  have hbin : Burst.centerBin _ = Burst.centerBin _ := (Prod.ext_iff.mp hkey).2
  rw [hbin]
  exact ⟨Nat.le_add_right _ _, Nat.le_add_right _ _⟩

theorem Tracking.carried_old (h : Tracking cfg t) :
    ∀ b ∈ carried cfg mag t, b.start+cfg.preLen < t.dIndex := by
  intro b hb
  obtain ⟨a,ha,rfl⟩ := mem_map.mp hb
  exact (h.tracked a ha).seen.opened

theorem outcome_priming (h : Tracking cfg t) (hp : ¬t.base.primed = true) :
    Outcome cfg sort mag t (step cfg sort mag newBufSize goneBufSize t) [] [] := by
  have hb := h.idle (Bool.eq_false_iff.mpr hp)
  have hcarried : carried cfg mag t = [] := by rw [carried, updateBursts, hb]; rfl
  have hclosing : closing cfg sort mag t = [] := if_pos (Bool.eq_false_iff.mpr hp)
  have hdropping : dropping cfg sort mag t = [] := by simp [dropping, hp]
  rw [step_priming sort _ _ t hp, updateBaselineEma_frame]
  constructor <;> simp [hcarried, hclosing, hdropping, hb, nextIndex]

theorem ema_squelchDropped (force : Bool) (c : Tagger) :
    (updateBaselineEma mag force c).squelchDropped = c.squelchDropped := by
  rw [updateBaselineEma_frame]

theorem ema_bursts (force : Bool) (c : Tagger) :
    (updateBaselineEma mag force c).bursts = c.bursts := by
  rw [updateBaselineEma_frame]

theorem ema_dIndex (force : Bool) (c : Tagger) :
    (updateBaselineEma mag force c).dIndex = c.dIndex := by
  rw [updateBaselineEma_frame]

theorem squelch_squelchDropped (c : Tagger) :
    (squelch cfg maxGone c).1.squelchDropped = c.squelchDropped+
      UInt32.ofNat ((c.bursts.filter (predatesStep cfg c)).countP (activeNow c)) := by
  rw [squelch]
  split <;> rfl

theorem squelch_dIndex (c : Tagger) :
    (squelch cfg maxGone c).1.dIndex = c.dIndex := by
  rw [squelch]
  split <;> rfl

theorem delete_dIndex (c : Tagger) :
    (deleteGoneBursts cfg mag maxGone c).1.dIndex = c.dIndex := by
  rw [deleteGoneBursts_frame]
  rfl

theorem delete_squelchDropped (c : Tagger) :
    (deleteGoneBursts cfg mag maxGone c).1.squelchDropped = c.squelchDropped := by
  rw [deleteGoneBursts_frame]
  rfl

theorem delete_bursts (c : Tagger) :
    (deleteGoneBursts cfg mag maxGone c).1.bursts =
      c.bursts.filter fun b => !dueBurst cfg c b := by
  rw [deleteGoneBursts_frame]
  rfl

section
variable {c : Tagger} {opened : List Burst}

theorem closeBurst_congr (h : c.dIndex = t.dIndex) : closeBurst c = closeBurst t := by
  funext b
  rw [closeBurst, h, closeBurst]

theorem activeNow_congr (h : c.dIndex = t.dIndex) : activeNow c = activeNow t := by
  funext b
  rw [activeNow, h, activeNow]

theorem dueBurst_congr (cfg : Config) (h : c.dIndex = t.dIndex) :
    dueBurst cfg c = dueBurst cfg t := by
  funext b
  rw [dueBurst, h, dueBurst]

theorem Grown.fresh_start (hg : Grown cfg (updateBursts cfg mag t) c opened)
    (hroom : cfg.preLen ≤ t.dIndex) : ∀ b ∈ opened, b.start+cfg.preLen = t.dIndex := by
  intro b hb
  have hstart : b.start = t.dIndex-cfg.preLen := (hg.fresh b hb).1
  omega

theorem Grown.filter_predates (hg : Grown cfg (updateBursts cfg mag t) c opened)
    (hold : ∀ b ∈ carried cfg mag t, b.start+cfg.preLen < t.dIndex) :
    c.bursts.filter (predatesStep cfg c) = carried cfg mag t := by
  have hd : c.dIndex = t.dIndex := hg.dIndex
  rw [hg.bursts, filter_append, filter_eq_self.mpr, filter_eq_nil_iff.mpr,
    append_nil, carried]
  · intro b hb
    have hstart : b.start = t.dIndex-cfg.preLen := (hg.fresh b hb).1
    simp [predatesStep, hd, hstart]
  · intro b hb
    have := hold b hb
    simp only [predatesStep, hd, bne_iff_ne]
    omega

theorem outcome_squelch (h : Tracking cfg t) (hroom : cfg.preLen ≤ t.dIndex)
    (hp : t.base.primed = true) (hsq : squelches cfg sort mag t = true) :
    ∃ opened brief,
      Outcome cfg sort mag t (step cfg sort mag newBufSize goneBufSize t) opened brief := by
  obtain ⟨opened,hg⟩ := h.grown mag sort newBufSize
  have hold : ∀ b ∈ carried cfg mag t, b.start+cfg.preLen < t.dIndex := h.carried_old
  have hpred := hg.filter_predates hold
  have hd : (grown cfg sort mag newBufSize t).dIndex = t.dIndex := hg.dIndex
  have hactive := activeNow_congr hd
  have hclose := closeBurst_congr hd
  have hclosing : closing cfg sort mag t =
      (carried cfg mag t).filter fun b => !activeNow t b := by
    rw [closing, hp, if_neg (by decide), if_pos hsq]
  have hdropping : dropping cfg sort mag t = (carried cfg mag t).filter (activeNow t) := by
    rw [dropping, hp, hsq]
    rfl
  have hdrop : (grown cfg sort mag newBufSize t).squelchDropped = t.squelchDropped := by
    rw [hg.frame]
    rfl
  refine ⟨opened, [], ?_⟩
  rw [step_primed sort _ _ t hp, detect_squelch sort _ _ t (of_decide_eq_true hsq)]
  refine ⟨hg.bursts ▸ hg.apart.keys_nodup, hold, hg.fresh_start hroom, ?_, ?_,
    nil_sublist _, ?_, ?_, ?_, ?_, ?_, ?_⟩
  · rw [hclosing]
    exact filter_sublist
  · rw [hdropping]
    exact filter_sublist
  · intro a ha
    rw [nextIndex, ema_bursts, squelch_bursts] at ha
    exact absurd ha not_mem_nil
  · intro b hb
    rw [hclosing, hdropping]
    cases hb' : activeNow t b with
    | true => exact .inr (.inl (mem_filter.mpr ⟨hb, hb'⟩))
    | false => exact .inl (mem_filter.mpr ⟨hb, by rw [hb']; rfl⟩)
  · intro b hb hb'
    rw [hclosing] at hb
    rw [hdropping] at hb'
    have := (mem_filter.mp hb).2
    simp [(mem_filter.mp hb').2] at this
  · rw [hclosing, append_nil, squelch, hpred, hactive, hclose]
  · rw [nextIndex, ema_squelchDropped, squelch_squelchDropped, hpred, hactive, hdrop, hdropping,
      countP_eq_length_filter]
  · rw [nextIndex, ema_dIndex, squelch_dIndex, hd]

theorem outcome_keep (h : Tracking cfg t) (hroom : cfg.preLen ≤ t.dIndex)
    (hp : t.base.primed = true) (hsq : ¬squelches cfg sort mag t = true) :
    ∃ opened brief,
      Outcome cfg sort mag t (step cfg sort mag newBufSize goneBufSize t) opened brief := by
  obtain ⟨opened,hg⟩ := h.grown mag sort newBufSize
  have hbursts : (grown cfg sort mag newBufSize t).bursts = carried cfg mag t++opened := hg.bursts
  have hd : (relaxed (grown cfg sort mag newBufSize t)).dIndex = t.dIndex := hg.dIndex
  have hdue := dueBurst_congr cfg hd
  have hclose := closeBurst_congr hd
  have hclosing : closing cfg sort mag t = (carried cfg mag t).filter (dueBurst cfg t) := by
    rw [closing, hp, if_neg (by decide), if_neg hsq]
  have hdropping : dropping cfg sort mag t = [] := by
    simp [dropping, hsq]
  have hdrop : (relaxed (grown cfg sort mag newBufSize t)).squelchDropped = t.squelchDropped := by
    rw [relaxed, hg.frame]
    rfl
  refine ⟨opened, opened.filter (dueBurst cfg t), ?_⟩
  rw [step_primed sort _ _ t hp, detect_keep sort _ _ t (by simpa [squelches] using hsq)]
  generalize hc : relaxed (grown cfg sort mag newBufSize t) = c at hd hdue hclose hdrop
  have hkept : c.bursts = carried cfg mag t++opened := by rw [← hc]; exact hbursts
  refine ⟨hbursts ▸ hg.apart.keys_nodup, h.carried_old, hg.fresh_start hroom, ?_, ?_,
    filter_sublist, ?_, ?_, ?_, ?_, ?_, ?_⟩
  · rw [hclosing]
    exact filter_sublist
  · rw [hdropping]
    exact nil_sublist _
  · intro a ha
    rw [nextIndex, ema_bursts, delete_bursts, hdue, hkept] at ha
    obtain ⟨hmem,hnot⟩ := mem_filter.mp ha
    rw [hclosing, hdropping]
    have hnd : ¬dueBurst cfg t a = true := by simpa using hnot
    exact ⟨hmem, fun hc => hnd (mem_filter.mp hc).2, not_mem_nil,
      fun hc => hnd (mem_filter.mp hc).2⟩
  · intro b hb
    rw [hclosing, nextIndex, ema_bursts, delete_bursts, hdue, hkept]
    cases hb' : dueBurst cfg t b with
    | true => exact .inl (mem_filter.mpr ⟨hb, hb'⟩)
    | false =>
      exact .inr (.inr (mem_filter.mpr ⟨mem_append_left _ hb, by rw [hb']; rfl⟩))
  · intro b _
    rw [hdropping]
    exact not_mem_nil
  · rw [hclosing, ← filter_append, ← hkept, deleteGoneBursts, hdue, hclose]
  · rw [nextIndex, ema_squelchDropped, delete_squelchDropped, hdrop, hdropping]
    exact (UInt32.add_zero _).symm
  · rw [nextIndex, ema_dIndex, delete_dIndex, hd]

end

theorem chunk_outcome (sort : Qsort) (mag : Magnitudes) (h : Tracking cfg t)
    (hpre : cfg.preLen < historySize*fftSize) :
    ∃ opened brief,
      Outcome cfg sort mag t (step cfg sort mag newBufSize goneBufSize t) opened brief := by
  by_cases hp : t.base.primed = true
  · have hroom := hpre.le.trans (h.clock.primed hp)
    by_cases hsq : squelches cfg sort mag t = true
    · exact outcome_squelch h hroom hp hsq
    · exact outcome_keep h hroom hp hsq
  · exact ⟨[], [], outcome_priming h hp⟩

structure Retired (cfg : Config) (t : Tagger) (k : Nat × Nat) : Prop where
  past : k.1+cfg.preLen < t.dIndex
  gone : k ∉ t.bursts.map Burst.key

section
variable {r : Reported} {opened brief : List Burst}

theorem carried_keys : (carried cfg mag t).map Burst.key = t.bursts.map Burst.key := by
  rw [carried, updateBursts, map_map]
  refine map_congr_left fun b _ => ?_
  rw [Function.comp_apply, refresh]
  split <;> rfl

section
variable (o : Outcome cfg sort mag t r opened brief)
include o

theorem Outcome.fresh_key (hb : b ∈ opened)
    (hk : k.1+cfg.preLen < t.dIndex) : b.key ≠ k := by
  rintro rfl
  have hstart : b.key.1 = b.start := rfl
  have := o.fresh b hb
  omega

theorem Outcome.gone_keys (hk : k ∈ r.gone.map Burst.key) :
    k ∈ (closing cfg sort mag t).map Burst.key ∨ k ∈ brief.map Burst.key := by
  rw [o.gone, ← map_take, map_map] at hk
  obtain ⟨b,hb,rfl⟩ := mem_map.mp hk
  obtain hb | hb := mem_append.mp (mem_of_mem_take hb)
  · exact .inl (mem_map.mpr ⟨b, hb, rfl⟩)
  · exact .inr (mem_map.mpr ⟨b, hb, rfl⟩)

theorem Outcome.retired (hk : Retired cfg t k) :
    Retired cfg r.tagger k ∧ k ∉ r.gone.map Burst.key := by
  have hcarried : k ∉ (carried cfg mag t).map Burst.key := by
    rw [carried_keys]
    exact hk.gone
  have hfresh : k ∉ opened.map Burst.key := by
    intro hmem
    obtain ⟨b,hb,hkey⟩ := mem_map.mp hmem
    exact o.fresh_key hb hk.past hkey
  refine ⟨⟨?_, ?_⟩, ?_⟩
  · rw [o.index]
    exact Nat.lt_add_right _ hk.past
  · intro hmem
    obtain ⟨a,ha,rfl⟩ := mem_map.mp hmem
    obtain hold | hnew := mem_append.mp (o.tracked a ha).1
    · exact hcarried (mem_map_of_mem hold)
    · exact hfresh (mem_map_of_mem hnew)
  · intro hmem
    obtain hold | hnew := o.gone_keys hmem
    · exact hcarried ((o.closing_sub.map Burst.key).subset hold)
    · exact hfresh ((o.brief_sub.map Burst.key).subset hnew)

theorem Outcome.retires
    (hb : b ∈ closing cfg sort mag t ∨ b ∈ dropping cfg sort mag t ∨ b ∈ brief) :
    Retired cfg r.tagger b.key := by
  have hmem : b ∈ carried cfg mag t++opened := by
    obtain hb | hb | hb := hb
    · exact mem_append_left _ (o.closing_sub.subset hb)
    · exact mem_append_left _ (o.dropping_sub.subset hb)
    · exact mem_append_right _ (o.brief_sub.subset hb)
  refine ⟨?_, ?_⟩
  · have hstart : b.key.1 = b.start := rfl
    have hpos : 0 < fftSize := by decide
    rw [o.index, hstart]
    obtain hold | hnew := mem_append.mp hmem
    · have := o.old b hold
      omega
    · have := o.fresh b hnew
      omega
  · intro hkey
    obtain ⟨a,ha,hab⟩ := mem_map.mp hkey
    obtain ⟨hamem,hclosing,hdropping,hbrief⟩ := o.tracked a ha
    have heq : a = b := inj_on_of_nodup_map o.keys hamem hmem hab
    subst heq
    obtain hb | hb | hb := hb
    · exact hclosing hb
    · exact hdropping hb
    · exact hbrief hb

theorem Outcome.gone_retired (hb : b ∈ r.gone) : Retired cfg r.tagger b.key := by
  obtain hk | hk := o.gone_keys (mem_map_of_mem hb)
  · obtain ⟨a,ha,hab⟩ := mem_map.mp hk
    exact hab ▸ o.retires (.inl ha)
  · obtain ⟨a,ha,hab⟩ := mem_map.mp hk
    exact hab ▸ o.retires (.inr (.inr ha))

theorem Outcome.reported_nodup :
    ((closing cfg sort mag t++brief).map Burst.key).Nodup :=
  o.keys.sublist ((o.closing_sub.append o.brief_sub).map Burst.key)

theorem Outcome.entries_closing (hroom : (closing cfg sort mag t).length ≤ goneBufSize)
    (hb : b ∈ closing cfg sort mag t) : entries Burst.key r.gone b.key = [closeBurst t b] := by
  have hkeys : (r.gone.map Burst.key).Nodup := by
    rw [o.gone, ← map_take, map_map]
    exact o.reported_nodup.sublist ((take_sublist _ _).map _)
  refine entries_of_nodup Burst.key hkeys (a := closeBurst t b) ?_
  rw [o.gone, map_append, take_append, take_of_length_le (by simpa using hroom)]
  exact mem_append_left _ (mem_map_of_mem hb)

theorem Outcome.entries_dropping (hb : b ∈ dropping cfg sort mag t) :
    entries Burst.key r.gone b.key = [] := by
  refine entries_eq_nil _ fun hkey => ?_
  have hcar := o.dropping_sub.subset hb
  obtain hk | hk := o.gone_keys hkey
  · obtain ⟨a,ha,hab⟩ := mem_map.mp hk
    have heq : a = b := inj_on_of_nodup_map o.keys
      (mem_append_left _ (o.closing_sub.subset ha)) (mem_append_left _ hcar) hab
    exact o.disjoint b (heq ▸ ha) hb
  · obtain ⟨a,ha,hab⟩ := mem_map.mp hk
    exact o.fresh_key (o.brief_sub.subset ha) (o.old b hcar) hab

theorem Outcome.entries_lost (hlost : goneBufSize < (closing cfg sort mag t).length) :
    ∃ b ∈ closing cfg sort mag t, entries Burst.key r.gone b.key = [] := by
  refine ⟨(closing cfg sort mag t)[goneBufSize], getElem_mem hlost, ?_⟩
  refine entries_eq_nil _ fun hkey => ?_
  have hnodup := o.reported_nodup
  rw [map_append] at hnodup
  have hn := List.Nodup.of_append_left hnodup
  rw [o.gone, map_append, take_append_of_le_length (by simpa using hlost.le),
    ← map_take, map_map] at hkey
  obtain ⟨a,ha,hab⟩ := mem_map.mp hkey
  have heq : a = (closing cfg sort mag t)[goneBufSize] :=
    inj_on_of_nodup_map hn (mem_of_mem_take ha) (getElem_mem hlost) hab
  obtain ⟨j,hj,hja⟩ := mem_iff_getElem.mp ha
  rw [length_take] at hj
  rw [getElem_take] at hja
  have hinj := (List.Nodup.getElem_inj_iff (List.Nodup.of_map _ hn)).mp (hja.trans heq)
  omega

end

end

end

def callKey (c : Nat × Burst) : Nat × Nat := c.2.key

structure Delivering (cfg : Config) (p : Detector) : Prop where
  tracking : Tracking cfg p.tagger
  calls : ∀ k ∈ p.calls.map callKey, Retired cfg p.tagger k

theorem entries_stamped (d : Nat) (gone : List Burst) (k : Nat × Nat) :
    entries callKey (gone.map fun b => (d, b)) k =
      (entries Burst.key gone k).map fun b => (d, b) := by
  rw [entries, filter_map]
  rfl

section
variable {cfg : Config} {p : Detector} (hpre : cfg.preLen < historySize*fftSize) (sort : Qsort)
include hpre

theorem Delivering.chunk (h : Delivering cfg p) (mag : Magnitudes) :
    Delivering cfg (processChunk cfg sort p mag) := by
  obtain ⟨opened,brief,o⟩ := chunk_outcome sort mag h.tracking hpre
  refine ⟨step_tracking h.tracking hpre sort _ _, fun k hk => ?_⟩
  rw [processChunk, map_append, map_map] at hk
  obtain hk | hk := mem_append.mp hk
  · exact (o.retired (h.calls k hk)).1
  · obtain ⟨b,hb,rfl⟩ := mem_map.mp hk
    exact o.gone_retired hb

theorem Delivering.chunks (h : Delivering cfg p) (mags : List Magnitudes) :
    Delivering cfg (processChunks cfg sort p mags) :=
  List.foldlRecOn mags _ h fun _ hq mag _ => hq.chunk hpre sort mag

theorem Delivering.later (h : Delivering cfg p) (hk : Retired cfg p.tagger k)
    (mags : List Magnitudes) :
    entries callKey (processChunks cfg sort p mags).calls k = entries callKey p.calls k := by
  induction mags generalizing p with
  | nil => rfl
  | cons mag mags ih =>
    obtain ⟨opened,brief,o⟩ := chunk_outcome sort mag h.tracking hpre
    obtain ⟨hret,hgone⟩ := o.retired hk
    have hnow : entries callKey (processChunk cfg sort p mag).calls k =
        entries callKey p.calls k := by
      rw [processChunk, entries_append, entries_stamped, entries_eq_nil _ hgone, map_nil,
        append_nil]
    exact (ih (h.chunk hpre sort mag) hret).trans hnow

theorem Delivering.leaving (h : Delivering cfg p) {mag : Magnitudes}
    (hb : b ∈ closing cfg sort mag p.tagger ∨ b ∈ dropping cfg sort mag p.tagger)
    (mags : List Magnitudes) :
    entries callKey (processChunks cfg sort p (mag::mags)).calls b.key =
      (entries Burst.key (step cfg sort mag newBufSize goneBufSize p.tagger).gone b.key).map
        fun a => (p.tagger.dIndex, a) := by
  obtain ⟨opened,brief,o⟩ := chunk_outcome sort mag h.tracking hpre
  have hret := o.retires (hb.imp_right Or.inl)
  have hmem : b ∈ carried cfg mag p.tagger :=
    hb.elim (o.closing_sub.subset ·) (o.dropping_sub.subset ·)
  have hbefore : b.key ∉ p.calls.map callKey := by
    intro hk
    have hkey : b.key ∈ (carried cfg mag p.tagger).map Burst.key := mem_map_of_mem hmem
    rw [carried_keys] at hkey
    exact (h.calls _ hk).gone hkey
  rw [← entries_stamped]
  refine ((h.chunk hpre sort mag).later hpre sort hret mags).trans ?_
  rw [processChunk, entries_append, entries_eq_nil _ hbefore, nil_append]

end

def droppedLog (cfg : Config) (sort : Qsort) : Detector → List Magnitudes → List Burst
  | _, [] => []
  | p, mag::mags =>
    dropping cfg sort mag p.tagger++droppedLog cfg sort (processChunk cfg sort p mag) mags

section
variable {cfg : Config} {p : Detector} (hpre : cfg.preLen < historySize*fftSize) (sort : Qsort)
include hpre

theorem Delivering.dropped_later (h : Delivering cfg p)
    (hk : Retired cfg p.tagger k) (mags : List Magnitudes) :
    k ∉ (droppedLog cfg sort p mags).map Burst.key := by
  induction mags generalizing p with
  | nil => exact not_mem_nil
  | cons mag mags ih =>
    obtain ⟨opened,brief,o⟩ := chunk_outcome sort mag h.tracking hpre
    rw [droppedLog, map_append, mem_append, not_or]
    refine ⟨fun hmem => hk.gone ?_, ih (h.chunk hpre sort mag) (o.retired hk).1⟩
    have hkey := (o.dropping_sub.map Burst.key).subset hmem
    rwa [carried_keys] at hkey

theorem Delivering.counted (h : Delivering cfg p) (mags : List Magnitudes) :
    (processChunks cfg sort p mags).tagger.squelchDropped =
        p.tagger.squelchDropped+UInt32.ofNat (droppedLog cfg sort p mags).length ∧
      ((droppedLog cfg sort p mags).map Burst.key).Nodup := by
  induction mags generalizing p with
  | nil => exact ⟨(UInt32.add_zero _).symm, nodup_nil⟩
  | cons mag mags ih =>
    obtain ⟨opened,brief,o⟩ := chunk_outcome sort mag h.tracking hpre
    obtain ⟨hcount,hnodup⟩ := ih (h.chunk hpre sort mag)
    refine ⟨hcount.trans ?_, ?_⟩
    · rw [droppedLog, length_append, UInt32.ofNat_add, ← UInt32.add_assoc, ← o.counter]
      rfl
    · have hcar := (map_append ▸ o.keys).of_append_left
      rw [droppedLog, map_append, nodup_append']
      refine ⟨hcar.sublist (o.dropping_sub.map Burst.key), hnodup, fun k hk hlater => ?_⟩
      obtain ⟨b,hb,rfl⟩ := mem_map.mp hk
      exact (h.chunk hpre sort mag).dropped_later hpre sort (o.retires (.inr (.inl hb))) mags hlater

end

section
variable (cfg : Config) (sort : Qsort) (history : Nat → Nat → Int) (mags : List Magnitudes)

def detectorAt (i : Nat) : Detector :=
  processChunks cfg sort (freshDetector history) (mags.take i)

/-- A closed burst is passed on once, one active at a squelch is counted, others stay tracked. -/
structure DeliversOnce : Prop where
  closed : ∀ i mag, mags[i]? = some mag →
    ∀ b ∈ closing cfg sort mag (detectorAt cfg sort history mags i).tagger,
      entries callKey (processChunks cfg sort (freshDetector history) mags).calls b.key =
        [((detectorAt cfg sort history mags i).tagger.dIndex,
          { b with stop := (detectorAt cfg sort history mags i).tagger.dIndex })]
  dropped : ∀ i mag, mags[i]? = some mag →
    ∀ b ∈ dropping cfg sort mag (detectorAt cfg sort history mags i).tagger,
      entries callKey (processChunks cfg sort (freshDetector history) mags).calls b.key = []
  counted : (processChunks cfg sort (freshDetector history) mags).tagger.squelchDropped =
      UInt32.ofNat (droppedLog cfg sort (freshDetector history) mags).length ∧
    ((droppedLog cfg sort (freshDetector history) mags).map Burst.key).Nodup
  tracked : ∀ i mag, mags[i]? = some mag →
    ∀ b ∈ carried cfg mag (detectorAt cfg sort history mags i).tagger,
      b ∈ closing cfg sort mag (detectorAt cfg sort history mags i).tagger ∨
        b ∈ dropping cfg sort mag (detectorAt cfg sort history mags i).tagger ∨
        b ∈ (detectorAt cfg sort history mags (i+1)).tagger.bursts

variable {mags}

theorem processChunks_split {i : Nat} {mag : Magnitudes} (hi : mags[i]? = some mag) :
    processChunks cfg sort (freshDetector history) mags =
      processChunks cfg sort (detectorAt cfg sort history mags i) (mag::mags.drop (i+1)) := by
  obtain ⟨hlt,rfl⟩ := List.getElem?_eq_some_iff.mp hi
  rw [← drop_eq_getElem_cons hlt, detectorAt, processChunks, processChunks, processChunks,
    ← foldl_append, take_append_drop]

theorem detectorAt_succ {i : Nat} {mag : Magnitudes} (hi : mags[i]? = some mag) :
    detectorAt cfg sort history mags (i+1) =
      processChunk cfg sort (detectorAt cfg sort history mags i) mag := by
  rw [detectorAt, take_add_one, hi, processChunks, foldl_append]
  rfl

variable (mags)

theorem detectorAt_delivering (hpre : cfg.preLen < historySize*fftSize) (i : Nat) :
    Delivering cfg (detectorAt cfg sort history mags i) := by
  refine Delivering.chunks hpre sort ⟨run_tracking history 0 hpre sort [], ?_⟩ _
  exact fun k hk => absurd hk not_mem_nil

/-- Delivery fails exactly when one step closes more bursts than `process_chunk` has room
for. -/
theorem burst_delivery_iff (hpre : cfg.preLen < historySize*fftSize) :
    DeliversOnce cfg sort history mags ↔ ∀ i mag, mags[i]? = some mag →
      (closing cfg sort mag (detectorAt cfg sort history mags i).tagger).length ≤ goneBufSize := by
  constructor
  · intro h i mag hi
    have hd := detectorAt_delivering cfg sort history mags hpre i
    obtain ⟨opened,brief,o⟩ := chunk_outcome sort mag hd.tracking hpre
    by_contra hlost
    obtain ⟨b,hb,hnone⟩ := o.entries_lost (Nat.lt_of_not_le hlost)
    have hcall := h.closed i mag hi b hb
    rw [processChunks_split cfg sort history hi, hd.leaving hpre sort (.inl hb), hnone] at hcall
    exact cons_ne_nil _ _ hcall.symm
  · intro hroom
    refine ⟨fun i mag hi b hb => ?_, fun i mag hi b hb => ?_, ?_, fun i mag hi b hb => ?_⟩
    all_goals have hd := detectorAt_delivering cfg sort history mags hpre
    · obtain ⟨opened,brief,o⟩ := chunk_outcome sort mag (hd i).tracking hpre
      rw [processChunks_split cfg sort history hi, (hd i).leaving hpre sort (.inl hb),
        o.entries_closing (hroom i mag hi) hb]
      rfl
    · obtain ⟨opened,brief,o⟩ := chunk_outcome sort mag (hd i).tracking hpre
      rw [processChunks_split cfg sort history hi, (hd i).leaving hpre sort (.inr hb),
        o.entries_dropping hb]
      rfl
    · have hcount := (hd 0).counted hpre sort mags
      rwa [show (detectorAt cfg sort history mags 0) = freshDetector history from rfl,
        show (freshDetector history).tagger.squelchDropped = 0 from rfl, UInt32.zero_add] at hcount
    · obtain ⟨opened,brief,o⟩ := chunk_outcome sort mag (hd i).tracking hpre
      rw [detectorAt_succ cfg sort history hi]
      exact o.complete b hb

end

theorem processChunks_append (cfg : Config) (sort : Qsort) (p : Detector)
    (mags mags' : List Magnitudes) :
    processChunks cfg sort p (mags++mags') =
      processChunks cfg sort (processChunks cfg sort p mags) mags' :=
  foldl_append

theorem priming_chunks (cfg : Config) (sort : Qsort) (mag : Magnitudes)
    (history : Nat → Nat → Int) (hmag : ∀ k, mag k < emaSlotClamp) {n : Nat}
    (hn : n ≤ historySize) :
    processChunks cfg sort (freshDetector history) (List.replicate n mag) =
      ⟨priming mag history n, []⟩ := by
  induction n with
  | zero => simp [processChunks, freshDetector, priming, init, historySize]
  | succ n ih =>
    have hp : ¬(priming mag history n).base.primed = true := by
      simp only [priming, decide_eq_true_eq]
      omega
    rw [replicate_succ', processChunks_append, ih (Nat.le_of_lt hn)]
    change processChunk cfg sort _ mag = _
    rw [processChunk, priming_step cfg sort mag history hmag hn, step_priming sort _ _ _ hp]
    rfl

def shortPads (width : Nat) : Config := ⟨1, 2, width, 823095, -1007, 1023, false⟩

def comb (n : Nat) : Magnitudes := fun k => if k < n then 1 else 0

def combRun (n : Nat) : List Magnitudes :=
  List.replicate historySize (fun _ => 0)++[comb n, fun _ => 0]

theorem combRun_at (width n j : Nat) :
    detectorAt (shortPads width) insertionQsort (fun _ _ => 0) (combRun n) (historySize+j) =
      processChunks (shortPads width) insertionQsort
        ⟨priming (fun _ => 0) (fun _ _ => 0) historySize, []⟩ ([comb n, fun _ => 0].take j) := by
  rw [detectorAt, combRun, take_append, length_replicate, Nat.add_sub_cancel_left,
    take_of_length_le (by simp), processChunks_append,
    priming_chunks _ _ _ _ (fun _ => by decide) (Nat.le_refl _)]

section
variable {cfg : Config} {mag : Magnitudes} {t : Tagger}

theorem closing_silent (sort : Qsort) (hlive : ∀ k, binLive cfg mag t.base k = false)
    (hband : cfg.bandVdl2 = false) (hp : t.base.primed = true)
    (hcount : t.bursts.length ≤ squelchMaxBursts) :
    closing cfg sort mag t = t.bursts.filter (dueBurst cfg t) := by
  have hcarried : carried cfg mag t = t.bursts := by
    rw [carried, updateBursts]
    exact map_id'' (fun b => by simp [refresh, seenActive, hlive, hband]) _
  have hpeaks : scanPeaks cfg mag (updateBursts cfg mag t) = [] := by
    simp [scanPeaks, peaksAmong, updateBursts, binCandidate, hlive]
  have hgrown : (grown cfg sort mag newBufSize t).bursts = carried cfg mag t := by
    rw [grown, created, hpeaks]
    rfl
  have hsq : ¬squelches cfg sort mag t = true := by
    rw [squelches, hgrown, hcarried, decide_eq_true_eq]
    exact Nat.not_lt.mpr hcount
  rw [closing, hp, if_neg (by decide), if_neg hsq, hcarried]

theorem binLive_zero {b : Baseline} {k : Nat} (hb : 0 ≤ b.sum k) (hthr : 0 ≤ cfg.thresholdQ15) :
    binLive cfg (fun _ => 0) b k = false := by
  have hshift : ¬(b.sum k*cfg.thresholdQ15) >>> (15 : Nat) < 0*historySize := by
    rw [Int.shiftRight_eq_div_pow, Int.zero_mul]
    exact Int.not_lt.mpr (Int.ediv_nonneg (Int.mul_nonneg hb hthr) (by decide))
  rw [binLive, aboveThreshold, decide_eq_false hshift, Bool.false_and]

end

theorem processChunks_tagger (cfg : Config) (sort : Qsort) (p : Detector)
    (mags : List Magnitudes) :
    (processChunks cfg sort p mags).tagger =
      run cfg sort p.tagger (mags.map fun mag => .step mag newBufSize goneBufSize) := by
  induction mags generalizing p with
  | nil => rfl
  | cons mag mags ih => exact ih (processChunk cfg sort p mag)

theorem combRun_silence (n : Nat) : (combRun n)[513]? = some fun _ => 0 := by
  rw [combRun, getElem?_append_right (by rw [length_replicate]; decide),
    length_replicate]
  rfl

theorem combRun_not_live (n i k : Nat) :
    binLive (shortPads 0) (fun _ => 0)
      (detectorAt (shortPads 0) insertionQsort (fun _ _ => 0) (combRun n) i).tagger.base k =
        false := by
  have hcalls : ∀ c ∈ ((combRun n).take i).map fun mag => Call.step mag newBufSize goneBufSize,
      c.NonNegAt k := by
    intro c hc
    obtain ⟨mag,hmag,rfl⟩ := mem_map.mp hc
    obtain hmag | hmag := mem_append.mp (mem_of_mem_take hmag)
    · rw [eq_of_mem_replicate hmag]
      exact le_rfl
    · obtain rfl | hmag := mem_cons.mp hmag
      · rw [Call.NonNegAt, comb]
        split <;> decide
      · rw [mem_singleton.mp hmag]
        exact le_rfl
  have h := run_learned (shortPads 0) insertionQsort (fun _ _ => 0) 0 hcalls
  rw [detectorAt, processChunks_tagger]
  exact binLive_zero h.sum_range.1 (by decide)

def combDue (n : Nat) : List Burst :=
  let t := (processChunks (shortPads 0) insertionQsort
    ⟨priming (fun _ => 0) (fun _ _ => 0) historySize, []⟩ [comb n]).tagger
  t.bursts.filter (dueBurst (shortPads 0) t)

theorem combRun_closing {n : Nat} (hn : combDue n ≠ []) :
    closing (shortPads 0) insertionQsort (fun _ => 0)
      (detectorAt (shortPads 0) insertionQsort (fun _ _ => 0) (combRun n) 513).tagger =
        combDue n := by
  have h := (detectorAt_delivering (shortPads 0) insertionQsort (fun _ _ => 0) (combRun n)
    (by decide) 513).tracking
  have hat : detectorAt (shortPads 0) insertionQsort (fun _ _ => 0) (combRun n) 513 =
      processChunks (shortPads 0) insertionQsort
        ⟨priming (fun _ => 0) (fun _ _ => 0) historySize, []⟩ [comb n] := combRun_at 0 n 1
  have hp : (detectorAt (shortPads 0) insertionQsort (fun _ _ => 0) (combRun n)
      513).tagger.base.primed = true := by
    by_contra hnot
    have hnil := h.idle (Bool.eq_false_iff.mpr hnot)
    rw [hat] at hnil
    exact hn (by rw [combDue, hnil]; rfl)
  rw [closing_silent insertionQsort (combRun_not_live n 513) rfl hp h.count, hat, combDue]

theorem length_closing_le (cfg : Config) (sort : Qsort) (mag : Magnitudes) (t : Tagger) :
    (closing cfg sort mag t).length ≤ t.bursts.length := by
  have hlen : (carried cfg mag t).length = t.bursts.length := length_map _
  rw [closing, ← hlen]
  split
  · exact Nat.zero_le _
  · split <;> exact length_filter_le _ _

theorem comb_burst_delivered :
    DeliversOnce (shortPads 0) insertionQsort (fun _ _ => 0) (combRun 1) ∧
      (closing (shortPads 0) insertionQsort (fun _ => 0)
        (detectorAt (shortPads 0) insertionQsort (fun _ _ => 0) (combRun 1) 513).tagger).length =
          1 := by
  have hdue : (combDue 1).length = 1 := by decide +kernel
  have hclosing : (closing (shortPads 0) insertionQsort (fun _ => 0) (detectorAt (shortPads 0)
      insertionQsort (fun _ _ => 0) (combRun 1) 513).tagger).length = 1 := by
    rw [combRun_closing (ne_nil_of_length_pos (by rw [hdue]; decide)), hdue]
  refine ⟨(burst_delivery_iff (shortPads 0) insertionQsort (fun _ _ => 0) (combRun 1)
    (by decide)).mpr fun i mag hi => ?_, hclosing⟩
  by_cases hle : i ≤ historySize
  · have hsilent : detectorAt (shortPads 0) insertionQsort (fun _ _ => 0) (combRun 1) i =
        ⟨priming (fun _ => 0) (fun _ _ => 0) i, []⟩ := by
      rw [detectorAt, combRun, take_append_of_le_length (by rwa [length_replicate]),
        take_replicate, Nat.min_eq_left hle]
      exact priming_chunks _ _ _ _ (fun _ => by decide) hle
    rw [hsilent]
    exact (length_closing_le _ _ _ _).trans (Nat.zero_le _)
  · obtain ⟨hlt,-⟩ := List.getElem?_eq_some_iff.mp hi
    have hlen : (combRun 1).length = 514 := by
      rw [combRun, length_append, length_replicate]
      rfl
    have hlast : i = 513 := by
      rw [historySize] at hle
      omega
    subst hlast
    rw [combRun_silence] at hi
    rw [← Option.some.inj hi, hclosing]
    decide

theorem seventeenth_closed_burst_lost :
    ∃ b ∈ closing (shortPads 0) insertionQsort (fun _ => 0)
        (detectorAt (shortPads 0) insertionQsort (fun _ _ => 0) (combRun 17) 513).tagger,
      entries callKey (processChunks (shortPads 0) insertionQsort (freshDetector fun _ _ => 0)
        (combRun 17)).calls b.key = [] := by
  have hpre : (shortPads 0).preLen < historySize*fftSize := by decide
  have hd := detectorAt_delivering (shortPads 0) insertionQsort (fun _ _ => 0) (combRun 17) hpre
    513
  obtain ⟨opened,brief,o⟩ := chunk_outcome insertionQsort (fun _ => 0) hd.tracking hpre
  have hdue : goneBufSize < (combDue 17).length := by decide +kernel
  have hlost := hdue
  rw [← combRun_closing (ne_nil_of_length_pos (Nat.zero_lt_of_lt hdue))] at hlost
  obtain ⟨b,hb,hnone⟩ := o.entries_lost hlost
  refine ⟨b, hb, ?_⟩
  rw [processChunks_split _ _ _ (combRun_silence 17), hd.leaving hpre _ (.inl hb), hnone]
  rfl

end IridiumAcars.FftBurstTagger
