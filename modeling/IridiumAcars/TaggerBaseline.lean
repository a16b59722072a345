import Mathlib.Algebra.Order.BigOperators.Group.List
import IridiumAcars.Lib.RingBuffer
import IridiumAcars.TaggerTracking

/-! The noise baseline over runs: the sum of the last writes, and the clamp runs. -/
namespace IridiumAcars.FftBurstTagger
open RingBuffer List

def levels (b : Baseline) (k : Nat) : List Int := b.written.map fun m => clampMag (m k)

def trailing (b : Baseline) (k : Nat) : Nat :=
  (b.written.reverse.takeWhile fun m => decide (emaSlotClamp ≤ m k)).length

def RunOk (c : ClampRun) (writes r : Nat) : Prop :=
  if r = 0 then c = ⟨0, 0⟩ ∨ c.lastWrite.toNat < writes
  else c.lastWrite = UInt32.ofNat writes ∧ c.runLen = min r historySize

structure Learned (k : Nat) (b : Baseline) : Prop where
  index : b.index = b.written.length%historySize
  primed : b.primed = decide (historySize ≤ b.written.length)
  slots : Holds historySize (fun i => b.history i k) (levels b k)
    (b.written.length-historySize) b.written.length
  sum : b.sum k = ((levels b k).drop (b.written.length-historySize)).sum
  nonneg : ∀ m ∈ b.written, 0 ≤ m k
  writeNo : b.writeNo = UInt32.ofNat b.writes
  run : b.writes < 2^32 → RunOk (b.clampRun k) b.writes (trailing b k)

section
variable {k : Nat} {b : Baseline} {mag : Magnitudes}

@[simp] theorem length_levels (b : Baseline) (k : Nat) : (levels b k).length = b.written.length :=
  length_map _

theorem levels_write (b : Baseline) (k : Nat) :
    levels (b.write mag) k = levels b k++[clampMag (mag k)] := by
  simp [levels, Baseline.write]

theorem length_written_write (b : Baseline) :
    (b.write mag).written.length = b.written.length+1 := by
  simp [Baseline.write]

theorem trailing_write (b : Baseline) (k : Nat) :
    trailing (b.write mag) k = if emaSlotClamp ≤ mag k then trailing b k+1 else 0 := by
  rw [trailing, Baseline.write, reverse_append, reverse_singleton, singleton_append,
    takeWhile_cons]
  by_cases h : emaSlotClamp ≤ mag k <;> simp [h, trailing]

theorem succ_eq_ofNat_succ {n : Nat} {x : UInt32} :
    x+1 = UInt32.ofNat (n+1) ↔ x = UInt32.ofNat n := by
  rw [UInt32.ofNat_add]
  exact UInt32.add_left_inj 1

theorem ne_ofNat_of_lt {n : Nat} {x : UInt32} (hx : x.toNat < n) (hn : n < 2^32) :
    x ≠ UInt32.ofNat n := by
  intro h
  rw [h, UInt32.toNat_ofNat_of_lt' hn] at hx
  exact Nat.lt_irrefl _ hx

theorem RunOk.track {c : ClampRun} {w r : Nat} (h : RunOk c w r) (hw : w+1 < 2^32) (x : Int) :
    RunOk (c.track (UInt32.ofNat (w+1)) x) (w+1) (if emaSlotClamp ≤ x then r+1 else 0) := by
  have hlt : w < 2^32 := by omega
  by_cases hx : emaSlotClamp ≤ x
  · rw [ClampRun.track, if_pos hx, if_pos hx, RunOk, if_neg (Nat.succ_ne_zero r)]
    simp only [succ_eq_ofNat_succ]
    by_cases hr : r = 0
    · subst hr
      rw [RunOk, if_pos rfl] at h
      obtain rfl | hold := h
      · by_cases h0 : (0 : UInt32) = UInt32.ofNat w <;> simp [h0, historySize]
      · simp [ne_ofNat_of_lt hold hlt, historySize]
    · rw [RunOk, if_neg hr] at h
      obtain ⟨hlast,hlen⟩ := h
      rw [if_pos hlast]
      refine ⟨rfl, ?_⟩
      simp only [hlen]
      split <;> omega
  · rw [ClampRun.track, if_neg hx, if_neg hx, RunOk, if_pos rfl]
    by_cases hr : r = 0
    · rw [RunOk, if_pos hr] at h
      obtain hzero | hold := h
      · exact .inl hzero
      · exact .inr (Nat.lt_succ_of_lt hold)
    · rw [RunOk, if_neg hr] at h
      right
      rw [h.1, UInt32.toNat_ofNat_of_lt' hlt]
      exact Nat.lt_succ_self w

theorem history_write (h : Learned k b) :
    (fun i => (b.write mag).history i k) =
      Function.update (fun i => b.history i k) ((levels b k).length%historySize)
        (clampMag (mag k)) := by
  funext i
  rw [length_levels, ← h.index, Function.update_apply]
  rfl

theorem sum_write (h : Learned k b) :
    (b.write mag).sum k = ((levels b k++[clampMag (mag k)]).drop
      ((levels b k).length+1-historySize)).sum := by
  have hslots := h.slots
  have hsum := h.sum
  rw [← length_levels b k] at hslots hsum
  have hwrite : (b.write mag).sum k = if b.primed then b.sum k-b.history b.index k+clampMag (mag k)
      else b.sum k+clampMag (mag k) := rfl
  by_cases hfull : historySize ≤ (levels b k).length
  · have hp : b.primed = true := by
      rw [h.primed, ← length_levels b k]
      exact decide_eq_true hfull
    rw [hwrite, if_pos hp, hslots.sum_window (by decide) hfull, hsum, h.index, length_levels]
  · have hp : ¬b.primed = true := by
      rw [h.primed, ← length_levels b k]
      simpa using hfull
    rw [hwrite, if_neg hp, sum_window_growing (Nat.lt_of_not_le hfull), hsum]

theorem index_write (h : b.index = b.written.length%historySize) :
    (b.write mag).index = (b.write mag).written.length%historySize := by
  have hmod := Nat.mod_lt b.written.length (Nat.zero_lt_succ 511)
  rw [length_written_write]
  simp only [Baseline.write, h, historySize]
  split <;> omega

theorem primed_write (hi : b.index = b.written.length%historySize)
    (h : b.primed = decide (historySize ≤ b.written.length)) :
    (b.write mag).primed = decide (historySize ≤ (b.write mag).written.length) := by
  have hprimed : (b.write mag).primed = (decide (historySize ≤ b.index+1) || b.primed) := rfl
  rw [length_written_write, hprimed, h, hi, ← Bool.decide_or, decide_eq_decide, historySize]
  omega

theorem Learned.write (h : Learned k b) (hmag : 0 ≤ mag k) : Learned k (b.write mag) := by
  refine ⟨index_write h.index, primed_write h.index h.primed, ?_, ?_, ?_, ?_, ?_⟩
  · have hslots := h.slots
    rw [← length_levels b k] at hslots
    rw [length_written_write, levels_write, history_write h, ← length_levels b k]
    exact hslots.slide (clampMag (mag k))
  · rw [levels_write, length_written_write, ← length_levels b k]
    exact sum_write h
  · intro m hm
    obtain hm | hm := mem_append.mp hm
    · exact h.nonneg m hm
    · rwa [mem_singleton.mp hm]
  · rw [Baseline.write, h.writeNo, UInt32.ofNat_add]
    rfl
  · intro hw
    rw [trailing_write]
    have hrun := (h.run (Nat.lt_of_succ_lt hw)).track hw (mag k)
    rwa [UInt32.ofNat_add, ← h.writeNo] at hrun

theorem Learned.reset (h : Learned k b) : Learned k b.reset where
  index := (Nat.zero_mod _).symm
  primed := (decide_eq_false (show ¬historySize ≤ 0 by decide)).symm
  slots := Holds.empty (Nat.zero_le _)
  sum := by simp [levels, Baseline.reset]
  nonneg := fun m hm => absurd hm not_mem_nil
  writeNo := h.writeNo
  run := fun _ => .inl rfl

def window (b : Baseline) (k : Nat) : List Int :=
  (levels b k).drop (b.written.length-historySize)

theorem clampMag_range {x : Int} (hx : 0 ≤ x) : 0 ≤ clampMag x ∧ clampMag x ≤ emaSlotClamp := by
  rw [clampMag, emaSlotClamp]
  omega

theorem Learned.window_range (h : Learned k b) :
    ∀ x ∈ window b k, 0 ≤ x ∧ x ≤ emaSlotClamp := by
  intro x hx
  obtain ⟨m,hm,rfl⟩ := mem_map.mp (mem_of_mem_drop hx)
  exact clampMag_range (h.nonneg m hm)

theorem sum_le_length_mul {l : List Int} {c : Int} (h : ∀ x ∈ l, x ≤ c) : l.sum ≤ l.length*c := by
  simpa using sum_le_card_nsmul l c h

theorem Learned.sum_range (h : Learned k b) : 0 ≤ b.sum k ∧ b.sum k ≤ 2147483647 := by
  have hlen : (window b k).length ≤ historySize := by
    rw [window, length_drop, length_levels]
    omega
  rw [h.sum]
  refine ⟨sum_nonneg fun x hx => (h.window_range x hx).1, ?_⟩
  have hcard := sum_le_length_mul fun x hx => (h.window_range x hx).2
  rw [emaSlotClamp] at hcard
  rw [historySize] at hlen
  exact hcard.trans (by omega)

theorem le_length_takeWhile {α : Type*} (p : α → Bool) (n : Nat) (l : List α) :
    n ≤ (l.takeWhile p).length ↔ n ≤ l.length ∧ ∀ x ∈ l.take n, p x = true := by
  induction l generalizing n with
  | nil => simp
  | cons a l ih =>
    cases n with
    | zero => simp
    | succ n =>
      by_cases ha : p a = true
      · simp [ha, ih]
      · simp [ha]

theorem clampMag_eq_clamp {x : Int} : clampMag x = emaSlotClamp ↔ emaSlotClamp ≤ x :=
  min_eq_right_iff

theorem le_trailing (hfull : historySize ≤ b.written.length) :
    historySize ≤ trailing b k ↔ ∀ x ∈ window b k, x = emaSlotClamp := by
  rw [trailing, le_length_takeWhile, length_reverse, and_iff_right hfull, take_reverse,
    window, levels, ← map_drop, forall_mem_map]
  simp [decide_eq_true_eq, clampMag_eq_clamp]

theorem Learned.saturated_iff (h : Learned k b) (hw : b.writes < 2^32) :
    binCarrierSaturated b k = true ↔ historySize ≤ trailing b k := by
  have hrun := h.run hw
  rw [binCarrierSaturated, Bool.and_eq_true, decide_eq_true_eq, beq_iff_eq, h.writeNo]
  by_cases hr : trailing b k = 0
  · rw [RunOk, if_pos hr] at hrun
    rw [hr]
    obtain hzero | hold := hrun
    · rw [hzero]
      exact ⟨fun hsat => hsat.1, fun hle => absurd hle (by decide)⟩
    · exact ⟨fun hsat => absurd hsat.2 (ne_ofNat_of_lt hold hw), fun hle => absurd hle (by decide)⟩
  · rw [RunOk, if_neg hr] at hrun
    rw [hrun.1, hrun.2]
    simp

theorem Learned.saturated (h : Learned k b) (hw : b.writes < 2^32) (hp : b.primed = true) :
    binCarrierSaturated b k = true ↔ ∀ i < historySize, b.history i k = emaSlotClamp := by
  have hfull : historySize ≤ b.written.length := by
    rw [h.primed] at hp
    exact of_decide_eq_true hp
  have hslots := h.slots
  rw [← length_levels b k] at hslots hfull
  rw [h.saturated_iff hw, le_trailing (length_levels b k ▸ hfull), window, ← length_levels b k]
  exact (hslots.forall_cells hfull (· = emaSlotClamp)).symm

end

section
variable {cfg : Config} {mag : Magnitudes} {t : Tagger}

theorem createBursts_base (maxNew : Nat) (ps : List Peak) (t : Tagger) (outNew : List Burst) :
    (createBursts cfg mag maxNew ps t outNew).1.base = t.base := by
  induction ps generalizing t outNew with
  | nil => rfl
  | cons p ps ih =>
    rw [createBursts]
    split
    · exact ih t outNew
    · split
      · rfl
      · exact ih _ _

structure KeptBy (mag : Magnitudes) (P : Baseline → Prop) : Prop where
  write : ∀ b, P b → P (b.write mag)
  reset : ∀ b, P b → P b.reset

variable {P : Baseline → Prop}

theorem KeptBy.ema (hP : KeptBy mag P) (force : Bool) (h : P t.base) :
    P (updateBaselineEma mag force t).base := by
  rw [updateBaselineEma]
  split
  · exact h
  · exact hP.write _ h

theorem KeptBy.squelch (hP : KeptBy mag P) (maxGone : Nat) (h : P t.base) :
    P (squelch cfg maxGone t).1.base := by
  rw [FftBurstTagger.squelch]
  split
  · exact hP.reset _ h
  · exact h

theorem KeptBy.delete (hP : KeptBy mag P) (maxGone : Nat) (h : P t.base) :
    P (deleteGoneBursts cfg mag maxGone t).1.base := by
  rw [deleteGoneBursts_fst]
  split
  · exact hP.ema true h
  · exact h

theorem KeptBy.detect (hP : KeptBy mag P) (sort : Qsort) (maxNew maxGone : Nat) (h : P t.base) :
    P (detect cfg sort mag maxNew maxGone t).tagger.base := by
  have hg : P (grown cfg sort mag maxNew t).base := by
    rwa [grown, created, createBursts_base]
  by_cases hsq : squelchMaxBursts < (grown cfg sort mag maxNew t).bursts.length
  · rw [detect_squelch sort maxNew maxGone t hsq]
    exact hP.squelch maxGone hg
  · rw [detect_keep sort maxNew maxGone t hsq]
    exact hP.delete maxGone hg

theorem nextIndex_base (t : Tagger) : (nextIndex t).base = t.base := rfl

theorem KeptBy.step (hP : KeptBy mag P) (sort : Qsort) (maxNew maxGone : Nat) (h : P t.base) :
    P (step cfg sort mag maxNew maxGone t).tagger.base := by
  by_cases hp : t.base.primed = true
  · rw [step_primed sort maxNew maxGone t hp, nextIndex_base]
    exact hP.ema false (hP.detect sort maxNew maxGone h)
  · rw [step_priming sort maxNew maxGone t hp, nextIndex_base]
    exact hP.ema false h

def Call.NonNegAt (k : Nat) : Call → Prop
  | .step mag _ _ => 0 ≤ mag k
  | _ => True

theorem learned_kept {k : Nat} (hmag : 0 ≤ mag k) : KeptBy mag (Learned k) :=
  ⟨fun _ h => h.write hmag, fun _ h => h.reset⟩

theorem init_learned (history : Nat → Nat → Int) (writes k : Nat) :
    Learned k (init history writes).base where
  index := (Nat.zero_mod _).symm
  primed := (decide_eq_false (show ¬historySize ≤ 0 by decide)).symm
  slots := Holds.empty (Nat.zero_le _)
  sum := by simp [levels, init]
  nonneg := fun m hm => absurd hm not_mem_nil
  writeNo := rfl
  run := fun _ => .inl rfl

theorem run_learned (cfg : Config) (sort : Qsort) (history : Nat → Nat → Int) (writes : Nat)
    {calls : List Call} {k : Nat} (hcalls : ∀ c ∈ calls, c.NonNegAt k) :
    Learned k (run cfg sort (init history writes) calls).base := by
  refine List.foldlRecOn (motive := fun t : Tagger => Learned k t.base) calls _
    (init_learned history writes k) fun t ht c hc => ?_
  cases c with
  | step mag maxNew maxGone =>
    exact (learned_kept (hcalls _ hc)).step sort maxNew maxGone ht
  | resetBaseline => exact ht.reset
  | flush maxGone => exact ht

/-- What the threshold tests rely on, at one bin. -/
structure BaselineOk (b : Baseline) (k : Nat) : Prop where
  sum : b.sum k = ((b.written.drop (b.written.length-historySize)).map
    fun m => min (m k) emaSlotClamp).sum
  nonneg : 0 ≤ b.sum k
  int32 : b.sum k ≤ 2147483647
  saturated : b.writes < 2^32 → b.primed = true →
    (binCarrierSaturated b k = true ↔ ∀ i < historySize, b.history i k = emaSlotClamp)

theorem Learned.ok {k : Nat} {b : Baseline} (h : Learned k b) : BaselineOk b k where
  sum := by
    rw [h.sum, levels, ← map_drop]
    rfl
  nonneg := h.sum_range.1
  int32 := h.sum_range.2
  saturated := h.saturated

/-- At every step boundary, and after the detection part of a step with its forced write. -/
theorem baseline_invariant (cfg : Config) (sort : Qsort) (history : Nat → Nat → Int)
    (writes : Nat) (calls : List Call) (k : Nat) (hcalls : ∀ c ∈ calls, c.NonNegAt k) :
    BaselineOk (run cfg sort (init history writes) calls).base k ∧
      ∀ (mag : Magnitudes) (maxNew maxGone : Nat), 0 ≤ mag k →
        BaselineOk (detect cfg sort mag maxNew maxGone
          (run cfg sort (init history writes) calls)).tagger.base k := by
  have h := run_learned cfg sort history writes hcalls
  refine ⟨h.ok, fun mag maxNew maxGone hmag => ?_⟩
  exact ((learned_kept hmag).detect sort maxNew maxGone h).ok

def staleCalls : List Call :=
  [.step (fun _ => 7) 16 16, .resetBaseline, .step (fun _ => 9) 16 16,
    .step (fun _ => 5000000) 16 16]

theorem stale_history_not_summed :
    (run (wideBand 4096) insertionQsort (init (fun _ _ => 99) 0) staleCalls).base.sum 5 =
        4194312 ∧
      BaselineOk (run (wideBand 4096) insertionQsort (init (fun _ _ => 99) 0) staleCalls).base
        5 := by
  have hcalls : ∀ c ∈ staleCalls, c.NonNegAt 5 := by
    simp [staleCalls, Call.NonNegAt]
  exact ⟨by decide +kernel,
    (baseline_invariant (wideBand 4096) insertionQsort _ 0 staleCalls 5 hcalls).1⟩

end

end IridiumAcars.FftBurstTagger
