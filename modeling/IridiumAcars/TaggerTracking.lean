import Mathlib.Data.List.Induction
import IridiumAcars.FftBurstTagger

/-! What one detector step does to the burst table, and the tracking invariant over runs. -/
namespace IridiumAcars.FftBurstTagger
open List

variable {t : Tagger} {c : Tagger}
variable {cfg : Config} {mag : Magnitudes}

def Near (cfg : Config) (i j : Nat) : Prop := i ≤ j+cfg.width/2 ∧ j ≤ i+cfg.width/2

def MaskOk (cfg : Config) (mask : Nat → Bool) (bursts : List Burst) : Prop :=
  ∀ k < fftSize, mask k = false ↔ ∃ b ∈ bursts, Near cfg b.centerBin k

def Apart (cfg : Config) (bursts : List Burst) : Prop :=
  bursts.Pairwise fun a b => ¬Near cfg a.centerBin b.centerBin

theorem maskBurst_false (mask : Nat → Bool) (c : Nat) {k : Nat} (hk : k < fftSize) :
    maskBurst cfg mask c k = false ↔ mask k = false ∨ Near cfg c k := by
  have hmin : (c-cfg.width/2 ≤ k ∧ k ≤ min (c+cfg.width/2) (fftSize-1)) ↔ Near cfg c k := by
    rw [Near]
    omega
  rw [maskBurst]
  split
  · exact ⟨fun _ => .inr (hmin.mp ‹_›), fun _ => rfl⟩
  · exact ⟨.inl, fun h => h.resolve_right fun hn => absurd (hmin.mpr hn) ‹_›⟩

theorem maskOk_nil : MaskOk cfg (fun _ => true) [] := fun _ _ => by simp

theorem MaskOk.snoc {mask : Nat → Bool} {bursts : List Burst} (h : MaskOk cfg mask bursts)
    (b : Burst) : MaskOk cfg (maskBurst cfg mask b.centerBin) (bursts++[b]) := by
  intro k hk
  rw [maskBurst_false mask _ hk, h k hk]
  simp [or_and_right, exists_or]

theorem maskOk_rebuild (bursts : List Burst) :
    MaskOk cfg (rebuildBurstMask cfg bursts) bursts := by
  induction bursts using List.reverseRecOn with
  | nil => exact maskOk_nil
  | append_singleton bursts b ih =>
    rw [rebuildBurstMask, foldl_append]
    exact ih.snoc b

structure Grown (cfg : Config) (t c : Tagger) (opened : List Burst) : Prop where
  frame : c = { t with bursts := c.bursts, burstId := c.burstId, burstMask := c.burstMask }
  bursts : c.bursts = t.bursts++opened
  fresh : ∀ b ∈ opened, b.start = t.dIndex-cfg.preLen ∧ b.lastActive = t.dIndex-cfg.preLen
  apart : Apart cfg c.bursts
  mask : MaskOk cfg c.burstMask c.bursts

theorem Grown.refl (ha : Apart cfg t.bursts) (hm : MaskOk cfg t.burstMask t.bursts) :
    Grown cfg t t [] :=
  ⟨rfl, (append_nil _).symm, by simp, ha, hm⟩

theorem createBursts_grown (maxNew : Nat) {ps : List Peak} (hps : ∀ p ∈ ps, p.bin < fftSize)
    (outNew : List Burst) (ha : Apart cfg t.bursts) (hm : MaskOk cfg t.burstMask t.bursts) :
    ∃ opened, Grown cfg t (createBursts cfg mag maxNew ps t outNew).1 opened := by
  induction ps generalizing t outNew with
  | nil => exact ⟨[], .refl ha hm⟩
  | cons p ps ih =>
    have hrest : ∀ q ∈ ps, q.bin < fftSize := fun q hq => hps q (mem_cons_of_mem _ hq)
    rw [createBursts]
    split
    · exact ih hrest outNew ha hm
    · split
      · exact ⟨[], .refl ha hm⟩
      · have hfree : ∀ b ∈ t.bursts, ¬Near cfg b.centerBin p.bin := by
          intro b hb hn
          exact ‹¬t.burstMask p.bin = false› ((hm _ (hps p mem_cons_self)).mpr ⟨b, hb, hn⟩)
        have ha' : Apart cfg (t.bursts++[openBurst cfg mag t p.bin]) :=
          pairwise_append.mpr ⟨ha, pairwise_singleton _ _, by
            intro b hb b' hb'
            rw [mem_singleton.mp hb']
            exact hfree b hb⟩
        obtain ⟨opened,h⟩ := ih hrest
          (if outNew.length < maxNew then outNew++[openBurst cfg mag t p.bin] else outNew)
          (t := { t with
            bursts := t.bursts++[openBurst cfg mag t p.bin]
            burstId := t.burstId+10
            burstMask := maskBurst cfg t.burstMask p.bin }) ha'
            (hm.snoc (openBurst cfg mag t p.bin))
        refine ⟨openBurst cfg mag t p.bin::opened, h.frame, ?_, ?_, h.apart, h.mask⟩
        · rw [h.bursts, append_assoc]
          rfl
        · intro b hb
          obtain rfl | hb := mem_cons.mp hb
          · exact ⟨rfl, rfl⟩
          · exact h.fresh b hb

theorem maskBurst_of_false {mask : Nat → Bool} {k : Nat} (c : Nat) (h : mask k = false) :
    maskBurst cfg mask c k = false := by
  rw [maskBurst]
  split
  · rfl
  · exact h

theorem createBursts_masks (maxNew : Nat) (ps : List Peak) (t : Tagger) (outNew : List Burst) :
    let c := (createBursts cfg mag maxNew ps t outNew).1
    (∀ k, t.burstMask k = false → c.burstMask k = false) ∧
      (c.bursts.length < maxBursts → ∀ p ∈ ps, p.bin < fftSize → c.burstMask p.bin = false) := by
  induction ps generalizing t outNew with
  | nil => exact ⟨fun _ h => h, fun _ p hp => absurd hp not_mem_nil⟩
  | cons p ps ih =>
    simp only [createBursts]
    split
    · obtain ⟨hkeep,hall⟩ := ih t outNew
      refine ⟨hkeep, fun hc q hq hlt => ?_⟩
      obtain rfl | hq := mem_cons.mp hq
      · exact hkeep _ ‹_›
      · exact hall hc q hq hlt
    · split
      · exact ⟨fun _ h => h, fun hc => absurd hc (Nat.not_lt.mpr ‹_›)⟩
      · obtain ⟨hkeep,hall⟩ := ih { t with
            bursts := t.bursts++[openBurst cfg mag t p.bin]
            burstId := t.burstId+10
            burstMask := maskBurst cfg t.burstMask p.bin }
          (if outNew.length < maxNew then outNew++[openBurst cfg mag t p.bin] else outNew)
        refine ⟨fun k hk => hkeep k (maskBurst_of_false p.bin hk), fun hc q hq hlt => ?_⟩
        obtain rfl | hq := mem_cons.mp hq
        · exact hkeep _ ((maskBurst_false _ _ hlt).mpr (.inr ⟨by omega, by omega⟩))
        · exact hall hc q hq hlt

theorem mem_marginBins {bin : Nat} :
    bin ∈ marginBins cfg ↔ cfg.width/2 ≤ bin ∧ bin < fftSize-cfg.width/2 := by
  rw [marginBins, mem_range'_1]
  omega

theorem mem_sortPeaks {sort : Qsort} {ps : List Peak} {p : Peak} :
    p ∈ sortPeaks sort ps ↔ p ∈ ps := by
  rw [sortPeaks]
  split
  · exact (sort.perm ps).mem_iff
  · exact Iff.rfl

theorem scanPeaks_lt {p : Peak} (h : p ∈ scanPeaks cfg mag t) : p.bin < fftSize := by
  obtain ⟨bin,hbin,rfl⟩ := mem_map.mp h
  have := mem_marginBins.mp (mem_filter.mp hbin).1
  simp only
  omega

theorem created_grown (sort : Qsort) (maxNew : Nat) (ha : Apart cfg t.bursts)
    (hm : MaskOk cfg t.burstMask t.bursts) :
    ∃ opened, Grown cfg t (created cfg sort mag maxNew t).1 opened :=
  createBursts_grown maxNew (fun _ hp => scanPeaks_lt (mem_sortPeaks.mp hp)) [] ha hm

theorem created_masks_candidates (sort : Qsort) (maxNew : Nat) (t : Tagger)
    (hc : (created cfg sort mag maxNew t).1.bursts.length < maxBursts) {bin : Nat}
    (hbin : bin ∈ marginBins cfg) (hcand : binCandidate cfg mag t.base bin = true) :
    (created cfg sort mag maxNew t).1.burstMask bin = false := by
  obtain ⟨hkeep,hall⟩ := @createBursts_masks cfg mag maxNew
    (sortPeaks sort (scanPeaks cfg mag t)) t []
  cases hmask : t.burstMask bin with
  | false => exact hkeep bin hmask
  | true =>
    have hlt : bin < fftSize := by
      have := mem_marginBins.mp hbin
      omega
    have hpeak : ⟨bin, (mag bin*historySize).tdiv (t.base.sum bin+1)⟩ ∈ scanPeaks cfg mag t :=
      mem_map.mpr ⟨bin, mem_filter.mpr ⟨hbin, by rw [hmask, hcand]; rfl⟩, rfl⟩
    exact hall hc _ (mem_sortPeaks.mpr hpeak) hlt

theorem deleteGoneBursts_nil (maxGone : Nat) (h : t.bursts = []) :
    deleteGoneBursts cfg mag maxGone t = (t, []) := by
  cases t
  subst h
  simp [deleteGoneBursts]

section
variable (sort : Qsort) (maxNew maxGone : Nat) (t : Tagger)

def grown (cfg : Config) (sort : Qsort) (mag : Magnitudes) (maxNew : Nat) (t : Tagger) : Tagger :=
  (created cfg sort mag maxNew (updateBursts cfg mag t)).1

theorem squelch_bursts (c : Tagger) : (squelch cfg maxGone c).1.bursts = [] := by
  rw [squelch]
  split <;> rfl

theorem detect_squelch (h : squelchMaxBursts < (grown cfg sort mag maxNew t).bursts.length) :
    detect cfg sort mag maxNew maxGone t =
      ⟨(squelch cfg maxGone (grown cfg sort mag maxNew t)).1, [],
        (squelch cfg maxGone (grown cfg sort mag maxNew t)).2⟩ := by
  rw [grown] at h ⊢
  simp [detect, createNewBursts, if_pos h, deleteGoneBursts_nil _ (squelch_bursts _ _)]

def relaxed (c : Tagger) : Tagger := { c with squelchCount := c.squelchCount-1 }

theorem detect_keep (h : ¬squelchMaxBursts < (grown cfg sort mag maxNew t).bursts.length) :
    detect cfg sort mag maxNew maxGone t =
      ⟨(deleteGoneBursts cfg mag maxGone (relaxed (grown cfg sort mag maxNew t))).1,
        (created cfg sort mag maxNew (updateBursts cfg mag t)).2,
        (deleteGoneBursts cfg mag maxGone (relaxed (grown cfg sort mag maxNew t))).2⟩ := by
  rw [grown] at h ⊢
  simp [detect, createNewBursts, if_neg h, relaxed]

theorem step_primed (h : t.base.primed = true) :
    step cfg sort mag maxNew maxGone t =
      ⟨nextIndex (updateBaselineEma mag false (detect cfg sort mag maxNew maxGone t).tagger),
        (detect cfg sort mag maxNew maxGone t).new,
        (detect cfg sort mag maxNew maxGone t).gone⟩ := by
  rw [step, if_pos h]

theorem step_priming (h : ¬t.base.primed = true) :
    step cfg sort mag maxNew maxGone t = ⟨nextIndex (updateBaselineEma mag false t), [], []⟩ := by
  rw [step, if_neg h]

end

/-- The baseline cannot be primed before one history of steps. -/
structure Clock (b : Baseline) (d : Nat) : Prop where
  index : b.index < historySize
  primed : b.primed = true → historySize*fftSize ≤ d
  priming : b.primed = false → b.index*fftSize ≤ d

theorem Clock.reset (b : Baseline) (d : Nat) : Clock b.reset d :=
  ⟨Nat.zero_lt_succ 511, fun h => absurd h (by simp [Baseline.reset]),
    fun _ => by simp [Baseline.reset]⟩

theorem Clock.mono {b : Baseline} {d e : Nat} (h : Clock b d) (hde : d ≤ e) : Clock b e :=
  ⟨h.index, fun hp => (h.primed hp).trans hde, fun hp => (h.priming hp).trans hde⟩

theorem Baseline.write_primed {b : Baseline} (h : b.primed = true) :
    (b.write mag).primed = true := by
  simp [Baseline.write, h]

theorem Baseline.write_index (b : Baseline) : (b.write mag).index < historySize := by
  change (if historySize ≤ b.index+1 then 0 else b.index+1) < historySize
  split
  · exact Nat.zero_lt_succ 511
  · exact Nat.lt_of_not_le ‹_›

theorem Clock.write {b : Baseline} {d : Nat} (h : Clock b d) :
    Clock (b.write mag) (d+fftSize) := by
  refine ⟨b.write_index, fun hp => ?_, fun hp => ?_⟩
  · cases hb : b.primed with
    | true => exact (h.primed hb).trans (Nat.le_add_right _ _)
    | false =>
      have hlast : historySize ≤ b.index+1 := by simpa [Baseline.write, hb] using hp
      have := h.priming hb
      calc historySize*fftSize ≤ (b.index+1)*fftSize := Nat.mul_le_mul_right _ hlast
        _ = b.index*fftSize+fftSize := Nat.succ_mul _ _
        _ ≤ d+fftSize := by omega
  · obtain ⟨hlast,hb⟩ : ¬historySize ≤ b.index+1 ∧ b.primed = false := by
      simpa [Baseline.write] using hp
    have := h.priming hb
    rw [Baseline.write, if_neg hlast, Nat.succ_mul]
    omega

theorem Clock.write_again {b : Baseline} {d : Nat} (h : Clock b d) (hb : b.primed = true) :
    Clock (b.write mag) d :=
  ⟨b.write_index, fun _ => h.primed hb,
    fun hp => Bool.noConfusion (hp.symm.trans (Baseline.write_primed hb))⟩

/-- A burst tracked when the detector waits for the step at `d`. -/
structure Tracked (cfg : Config) (d : Nat) (b : Burst) : Prop where
  start_le : b.start ≤ b.lastActive
  active_lt : b.lastActive < d
  span : b.lastActive-b.start ≤ maxBurstLen
  recent : d < b.lastActive+cfg.postLen+fftSize
  opened : b.start+cfg.preLen < d

structure Tracking (cfg : Config) (t : Tagger) : Prop where
  count : t.bursts.length ≤ squelchMaxBursts
  squelch : t.squelchCount ≤ 9
  apart : Apart cfg t.bursts
  mask : MaskOk cfg t.burstMask t.bursts
  tracked : ∀ b ∈ t.bursts, Tracked cfg t.dIndex b
  clock : Clock t.base t.dIndex
  idle : t.base.primed = false → t.bursts = []

structure Seen (cfg : Config) (d : Nat) (b : Burst) : Prop where
  start_le : b.start ≤ b.lastActive
  active_le : b.lastActive ≤ d
  length_lt : d < b.start+maxBurstLen+cfg.postLen+fftSize
  opened : b.start+cfg.preLen < d

variable {b : Burst}

theorem Tracked.seen (h : Tracked cfg t.dIndex b) :
    Seen cfg t.dIndex (refresh cfg mag t b) := by
  obtain ⟨h1,h2,h3,h4,h5⟩ := h
  rw [refresh]
  split
  · exact ⟨by simp only; omega, Nat.le_refl _, by simp only; omega, h5⟩
  · exact ⟨h1, by omega, by omega, h5⟩

theorem Tracking.empty (hs : t.squelchCount ≤ 9) (hb : t.bursts = [])
    (hm : MaskOk cfg t.burstMask []) (hc : Clock t.base t.dIndex) : Tracking cfg t := by
  refine ⟨?_, hs, ?_, by rwa [hb], ?_, hc, fun _ => hb⟩ <;> rw [hb]
  · exact Nat.zero_le _
  · exact List.Pairwise.nil
  · exact fun b hmem => absurd hmem not_mem_nil

@[simp] theorem refresh_centerBin (t : Tagger) (b : Burst) :
    (refresh cfg mag t b).centerBin = b.centerBin := by
  rw [refresh]
  split <;> rfl

variable {opened : List Burst}

section
variable {t : Tagger}

theorem Tracking.grown (h : Tracking cfg t) (mag : Magnitudes) (sort : Qsort) (maxNew : Nat) :
    ∃ opened, Grown cfg (updateBursts cfg mag t) (grown cfg sort mag maxNew t) opened := by
  apply created_grown
  · exact pairwise_map.mpr (h.apart.imp fun hab => by simpa using hab)
  · intro k hk
    rw [updateBursts, h.mask k hk]
    simp

theorem Tracking.mem_grown (h : Tracking cfg t)
    (hg : Grown cfg (updateBursts cfg mag t) c opened) (hb : b ∈ c.bursts) :
    Seen cfg t.dIndex b ∨ b ∈ opened ∧ b.start = t.dIndex-cfg.preLen ∧
      b.lastActive = t.dIndex-cfg.preLen := by
  rw [hg.bursts] at hb
  obtain hb | hb := mem_append.mp hb
  · obtain ⟨a,ha,rfl⟩ := mem_map.mp hb
    exact .inl (h.tracked a ha).seen
  · exact .inr ⟨hb, hg.fresh b hb⟩

theorem Grown.base {u c : Tagger} (h : Grown cfg u c opened) :
    c.base = u.base := by rw [h.frame]

theorem Grown.dIndex {u c : Tagger} (h : Grown cfg u c opened) :
    c.dIndex = u.dIndex := by rw [h.frame]

theorem Grown.squelchCount {u c : Tagger} (h : Grown cfg u c opened) :
    c.squelchCount = u.squelchCount := by rw [h.frame]

theorem nextIndex_ema_empty (hb : c.bursts = []) (hs : c.squelchCount ≤ 9)
    (hm : MaskOk cfg c.burstMask []) (hc : Clock c.base c.dIndex) :
    Tracking cfg (nextIndex (updateBaselineEma mag false c)) := by
  have hema : updateBaselineEma mag false c = { c with base := c.base.write mag } := by
    rw [updateBaselineEma, hb]
    rfl
  rw [hema]
  exact Tracking.empty hs hb hm hc.write

theorem squelch_tracking (maxGone : Nat) (hc : Clock c.base c.dIndex) :
    Tracking cfg (nextIndex (updateBaselineEma mag false (squelch cfg maxGone c).1)) := by
  refine nextIndex_ema_empty (squelch_bursts maxGone c) ?_ ?_ ?_
  · rw [squelch]
    split
    · exact Nat.zero_le 9
    · exact Nat.le_of_lt_succ (Nat.lt_of_not_le ‹_›)
  · rw [squelch]
    split <;> exact maskOk_nil
  · rw [squelch]
    split
    · exact .reset _ _
    · exact hc

def Ready (c : Tagger) : Prop := Clock c.base c.dIndex ∧ c.base.primed = true

theorem Ready.ema (h : Ready c) (force : Bool) :
    Ready (updateBaselineEma mag force c) := by
  rw [updateBaselineEma]
  split
  · exact h
  · exact ⟨h.1.write_again h.2, Baseline.write_primed h.2⟩

theorem updateBaselineEma_frame (force : Bool) (c : Tagger) :
    updateBaselineEma mag force c = { c with base := (updateBaselineEma mag force c).base } := by
  rw [updateBaselineEma]
  split <;> rfl

def compacted (cfg : Config) (c : Tagger) : Tagger :=
  { c with
    bursts := c.bursts.filter fun b => !dueBurst cfg c b
    burstMask := if (c.bursts.filter (dueBurst cfg c)).isEmpty then c.burstMask
      else rebuildBurstMask cfg (c.bursts.filter fun b => !dueBurst cfg c b) }

theorem deleteGoneBursts_fst (maxGone : Nat) (c : Tagger) :
    (deleteGoneBursts cfg mag maxGone c).1 =
      if c.bursts.any longBurst then updateBaselineEma mag true (compacted cfg c)
      else compacted cfg c := rfl

theorem compacted_mask (h : MaskOk cfg c.burstMask c.bursts) :
    MaskOk cfg (compacted cfg c).burstMask (compacted cfg c).bursts := by
  rw [compacted]
  split
  · have hall : c.bursts.filter (fun b => !dueBurst cfg c b) = c.bursts := by
      rw [filter_eq_self]
      intro b hb
      have hnil := isEmpty_iff.mp ‹(c.bursts.filter (dueBurst cfg c)).isEmpty = true›
      simpa using filter_eq_nil_iff.mp hnil b hb
    rwa [hall]
  · exact maskOk_rebuild _

theorem deleteGoneBursts_frame (maxGone : Nat) (c : Tagger) :
    (deleteGoneBursts cfg mag maxGone c).1 =
      { compacted cfg c with base := (deleteGoneBursts cfg mag maxGone c).1.base } := by
  rw [deleteGoneBursts_fst]
  split
  · exact updateBaselineEma_frame true _
  · rfl

theorem Ready.delete (h : Ready c) (maxGone : Nat) :
    Ready (deleteGoneBursts cfg mag maxGone c).1 := by
  have hc : Ready (compacted cfg c) := h
  rw [deleteGoneBursts_fst]
  split
  · exact hc.ema true
  · exact hc

theorem keep_tracking (maxGone : Nat) (hr : Ready c) (hcount : c.bursts.length ≤ squelchMaxBursts)
    (hs : c.squelchCount ≤ 9) (ha : Apart cfg c.bursts) (hm : MaskOk cfg c.burstMask c.bursts)
    (hb : ∀ b ∈ c.bursts, b.start ≤ b.lastActive ∧ b.lastActive ≤ c.dIndex ∧
      b.start+cfg.preLen ≤ c.dIndex) :
    Tracking cfg (nextIndex (updateBaselineEma mag false
      (deleteGoneBursts cfg mag maxGone c).1)) := by
  have hready : Ready (updateBaselineEma mag false (deleteGoneBursts cfg mag maxGone c).1) :=
    (hr.delete maxGone).ema false
  rw [updateBaselineEma_frame, deleteGoneBursts_frame] at hready ⊢
  refine ⟨?_, hs, ?_, compacted_mask hm, ?_, hready.1.mono (Nat.le_add_right _ _), ?_⟩
  · exact (length_filter_le _ _).trans hcount
  · exact List.Pairwise.sublist filter_sublist ha
  · intro b hmem
    obtain ⟨hmem,hdue⟩ := mem_filter.mp hmem
    obtain ⟨h1,h2,h3⟩ := hb b hmem
    simp only [dueBurst, longBurst, Bool.not_eq_true', Bool.or_eq_false_iff,
      decide_eq_false_iff_not, Nat.not_le, Nat.not_lt] at hdue
    refine Tracked.mk (d := c.dIndex+fftSize) h1 ?_ hdue.2 ?_ ?_
    · exact Nat.lt_of_le_of_lt h2 (Nat.lt_add_of_pos_right (by decide))
    · exact Nat.add_lt_add_right hdue.1 fftSize
    · exact Nat.lt_of_le_of_lt h3 (Nat.lt_add_of_pos_right (by decide))
  · intro hp
    exact Bool.noConfusion (hp.symm.trans hready.2)

theorem step_tracking (h : Tracking cfg t) (hpre : cfg.preLen < historySize*fftSize)
    (sort : Qsort) (maxNew maxGone : Nat) :
    Tracking cfg (step cfg sort mag maxNew maxGone t).tagger := by
  by_cases hp : t.base.primed = true
  · rw [step_primed sort maxNew maxGone t hp]
    obtain ⟨opened,hg⟩ := h.grown mag sort maxNew
    have hready : Ready (FftBurstTagger.grown cfg sort mag maxNew t) := by
      rw [Ready, hg.base, hg.dIndex]
      exact ⟨h.clock, hp⟩
    by_cases hsq : squelchMaxBursts < (FftBurstTagger.grown cfg sort mag maxNew t).bursts.length
    · rw [detect_squelch sort maxNew maxGone t hsq]
      dsimp only
      exact squelch_tracking maxGone hready.1
    rw [detect_keep sort maxNew maxGone t hsq]
    dsimp only
    generalize FftBurstTagger.grown cfg sort mag maxNew t = c at hg hready hsq
    have hs : (relaxed c).squelchCount ≤ 9 :=
      (Nat.sub_le _ _).trans (hg.squelchCount.trans_le h.squelch)
    refine keep_tracking (c := relaxed c) maxGone hready (Nat.le_of_not_lt hsq) hs hg.apart
      hg.mask fun b hb => ?_
    · have hd : (relaxed c).dIndex = t.dIndex := hg.dIndex
      have hroom := h.clock.primed hp
      rw [hd]
      obtain hold | ⟨-,hstart,hlast⟩ := h.mem_grown hg hb
      · exact ⟨hold.start_le, hold.active_le, Nat.le_of_lt hold.opened⟩
      · omega
  · rw [step_priming sort maxNew maxGone t hp]
    have hb := h.idle (Bool.eq_false_iff.mpr hp)
    exact nextIndex_ema_empty hb h.squelch (hb ▸ h.mask) h.clock

/-- How long a burst reported gone is. -/
def GoneOk (cfg : Config) (d : Nat) (b : Burst) : Prop :=
  0 < b.stop-b.start ∧ (b.stop-b.start < maxBurstLen+cfg.postLen+fftSize ∨
    b.start = d-cfg.preLen ∧ b.stop = d)

theorem Seen.goneOk (h : Seen cfg c.dIndex b) :
    GoneOk cfg c.dIndex (closeBurst c b) := by
  have h1 := h.length_lt
  have h2 := h.opened
  exact ⟨by simp only [closeBurst]; omega, .inl (by simp only [closeBurst]; omega)⟩

theorem mem_of_mem_take_close {l : List Burst} {n : Nat}
    (h : b ∈ (l.map (closeBurst c)).take n) : ∃ a ∈ l, closeBurst c a = b :=
  mem_map.mp (mem_of_mem_take h)

theorem step_gone (h : Tracking cfg t) (hpos : 0 < cfg.preLen)
    (hpre : cfg.preLen < historySize*fftSize) (sort : Qsort) (maxNew maxGone : Nat) :
    ∀ b ∈ (step cfg sort mag maxNew maxGone t).gone, GoneOk cfg t.dIndex b := by
  intro b hb
  by_cases hp : t.base.primed = true
  · rw [step_primed sort maxNew maxGone t hp] at hb
    obtain ⟨opened,hg⟩ := h.grown mag sort maxNew
    have hroom := h.clock.primed hp
    have hd : (FftBurstTagger.grown cfg sort mag maxNew t).dIndex = t.dIndex := hg.dIndex
    rw [← hd] at hroom ⊢
    by_cases hsq : squelchMaxBursts < (FftBurstTagger.grown cfg sort mag maxNew t).bursts.length
    · rw [detect_squelch sort maxNew maxGone t hsq] at hb
      generalize FftBurstTagger.grown cfg sort mag maxNew t = c at hg hd hb
      obtain ⟨a,ha,rfl⟩ := mem_of_mem_take_close hb
      obtain ⟨hmem,hold⟩ := mem_filter.mp (mem_filter.mp ha).1
      obtain hseen | ⟨-,hstart,-⟩ := h.mem_grown hg hmem
      · exact Seen.goneOk (hd ▸ hseen)
      · rw [predatesStep, hd, hstart] at hold
        simp at hold
    · rw [detect_keep sort maxNew maxGone t hsq] at hb
      generalize FftBurstTagger.grown cfg sort mag maxNew t = c at hg hd hb hroom
      obtain ⟨a,ha,rfl⟩ := mem_of_mem_take_close hb
      obtain hseen | ⟨-,hstart,-⟩ := h.mem_grown hg (mem_filter.mp ha).1
      · exact Seen.goneOk (c := relaxed _) (hd ▸ hseen)
      · rw [← hd] at hstart
        exact ⟨by simp only [closeBurst, relaxed]; omega, .inr ⟨hstart, rfl⟩⟩
  · rw [step_priming sort maxNew maxGone t hp] at hb
    exact absurd hb not_mem_nil

end

theorem Tracked.seen_unrefreshed (h : Tracked cfg t.dIndex b) :
    Seen cfg t.dIndex b := by
  obtain ⟨h1,h2,h3,h4,h5⟩ := h
  exact ⟨h1, by omega, by omega, h5⟩

theorem call_tracking (h : Tracking cfg t) (hpre : cfg.preLen < historySize*fftSize) (sort : Qsort)
    (c : Call) : Tracking cfg (call cfg sort t c).1 := by
  cases c with
  | step mag maxNew maxGone => exact step_tracking h hpre sort maxNew maxGone
  | resetBaseline => exact .empty (Nat.zero_le 9) rfl maskOk_nil (.reset _ _)
  | flush maxGone => exact .empty h.squelch rfl maskOk_nil h.clock

theorem call_gone (h : Tracking cfg t) (hpos : 0 < cfg.preLen)
    (hpre : cfg.preLen < historySize*fftSize) (sort : Qsort) (c : Call) :
    ∀ b ∈ (call cfg sort t c).2, GoneOk cfg t.dIndex b := by
  cases c with
  | step mag maxNew maxGone => exact step_gone h hpos hpre sort maxNew maxGone
  | resetBaseline => exact fun b hb => absurd hb not_mem_nil
  | flush maxGone =>
    intro b hb
    obtain ⟨a,ha,rfl⟩ := mem_of_mem_take_close hb
    exact (h.tracked a ha).seen_unrefreshed.goneOk

theorem run_tracking (history : Nat → Nat → Int) (writes : Nat)
    (hpre : cfg.preLen < historySize*fftSize) (sort : Qsort) (calls : List Call) :
    Tracking cfg (run cfg sort (init history writes) calls) := by
  refine List.foldlRecOn calls _ ?_ fun t ht c _ => call_tracking ht hpre sort c
  exact .empty (Nat.zero_le 9) rfl maskOk_nil
    ⟨Nat.zero_lt_succ 511, fun h => absurd h (by simp [init]), fun _ => by simp [init]⟩

/-- The length bound leaves out the bursts that one step both opens and closes. -/
theorem tracking_invariant (cfg : Config) (hpos : 0 < cfg.preLen)
    (hpre : cfg.preLen < historySize*fftSize) (sort : Qsort) (history : Nat → Nat → Int)
    (writes : Nat) (calls : List Call) :
    let t := run cfg sort (init history writes) calls
    t.bursts.length ≤ squelchMaxBursts ∧ t.squelchCount ≤ 9 ∧
      t.bursts.Pairwise (fun a b => cfg.width/2 < max a.centerBin b.centerBin-
        min a.centerBin b.centerBin) ∧
      (∀ k < fftSize, t.burstMask k = false ↔ ∃ b ∈ t.bursts,
        max b.centerBin k-min b.centerBin k ≤ cfg.width/2) ∧
      (∀ b ∈ t.bursts, b.start ≤ b.lastActive ∧ b.lastActive ≤ t.dIndex ∧
        b.lastActive-b.start ≤ maxBurstLen) ∧
      (∀ c, ∀ b ∈ (call cfg sort t c).2, 0 < b.stop-b.start ∧
        (b.stop-b.start < maxBurstLen+cfg.postLen+fftSize ∨
          b.start = t.dIndex-cfg.preLen ∧ b.stop = t.dIndex)) ∧
      (∀ mag maxNew, t.base.primed = true →
        let c := (created cfg sort mag maxNew (updateBursts cfg mag t)).1
        c.bursts.length ≤ squelchMaxBursts →
          ∀ bin, cfg.width/2 ≤ bin → bin < fftSize-cfg.width/2 →
            binInDcMask cfg bin = false →
            aboveThreshold (mag bin) (t.base.sum bin) cfg.thresholdQ15 = true →
            binCarrierSaturated t.base bin = false → c.burstMask bin = false) := by
  intro t
  have h : Tracking cfg t := run_tracking history writes hpre sort calls
  refine ⟨h.count, h.squelch, ?_, ?_, ?_, call_gone h hpos hpre sort, ?_⟩
  · refine h.apart.imp fun hab => ?_
    rw [Near] at hab
    omega
  · intro k hk
    have hnear : ∀ b : Burst, Near cfg b.centerBin k ↔
        max b.centerBin k-min b.centerBin k ≤ cfg.width/2 := by
      intro b
      rw [Near]
      omega
    simpa only [hnear] using h.mask k hk
  · exact fun b hb => ⟨(h.tracked b hb).start_le, Nat.le_of_lt (h.tracked b hb).active_lt,
      (h.tracked b hb).span⟩
  · intro mag maxNew _ c hc bin hlo hhi hdc habove hsat
    refine created_masks_candidates sort maxNew _ ?_ (mem_marginBins.mpr ⟨hlo, hhi⟩) ?_
    · exact Nat.lt_of_le_of_lt hc (by decide)
    · simp [binCandidate, binLive, updateBursts, hdc, habove, hsat]

def spike (bin : Nat) : Magnitudes := fun k => if k = bin then 1 else 0

def silent : List Call := List.replicate historySize (.step (fun _ => 0) 16 16)

theorem run_silent (cfg : Config) :
    run cfg insertionQsort (init (fun _ _ => 0) 0) silent =
      priming (fun _ => 0) (fun _ _ => 0) historySize :=
  run_priming cfg insertionQsort _ _ (fun _ => by decide) (Nat.le_refl _) 16 16

theorem run_append (cfg : Config) (sort : Qsort) (t : Tagger) (calls calls' : List Call) :
    run cfg sort t (calls++calls') = run cfg sort (run cfg sort t calls) calls' :=
  foldl_append

def wideBand (preLen : Nat) : Config := ⟨preLen, 40000, 2046, 823095, 1, -1, false⟩

def spiked : List Call := silent++[.step (spike 1023) 16 16]

theorem one_spike_tracked :
    (run (wideBand 4096) insertionQsort (init (fun _ _ => 0) 0) spiked).bursts.map
        Burst.centerBin = [1023] ∧
      (run (wideBand 4096) insertionQsort (init (fun _ _ => 0) 0) spiked).bursts.length ≤
        squelchMaxBursts := by
  have h := tracking_invariant (wideBand 4096) (by decide) (by decide) insertionQsort
    (fun _ _ => 0) 0 spiked
  refine ⟨?_, h.1⟩
  rw [spiked, run_append, run_silent]
  decide +kernel

theorem pre_roll_over_length_bound :
    0 < (wideBand 1000000).preLen ∧ (wideBand 1000000).preLen < historySize*fftSize ∧
      (call (wideBand 1000000) insertionQsort
        (run (wideBand 1000000) insertionQsort (init (fun _ _ => 0) 0) silent)
        (.step (spike 1023) 16 16)).2.map (fun b => b.stop-b.start) = [1000000] ∧
      ¬1000000 < maxBurstLen+(wideBand 1000000).postLen+fftSize := by
  rw [run_silent]
  exact ⟨by decide, by decide, by decide +kernel, by decide⟩

end IridiumAcars.FftBurstTagger
