import Mathlib.Algebra.Order.Ring.Int
import IridiumAcars.FftBurstTagger

/-! The vector pre-screen of `create_new_bursts_internal` in front of the exact test. -/
namespace IridiumAcars.FftBurstTagger
open List

/-- `s_screen_shift`; `31 - clz` is the binary logarithm. -/
def screenShift (thresholdQ15 : Int) : Int :=
  if thresholdQ15 > 0 then
    let a : Int := thresholdQ15.toNat.log2
    let s := 24-a
    let s := if s < 0 then 0 else s
    if s > 24 then 24 else s
  else -1

def groupFlags (flags : Nat → Int32) (g : Nat) : Int32 :=
  flags (4*g) ||| flags (4*g+1) ||| flags (4*g+2) ||| flags (4*g+3)

/-- `fbt_detect_screen_arp4`: the flag words of the groups of 16 bins. -/
structure DetectScreen where
  run : Magnitudes → (Nat → Int) → Nat → Nat → Int32
  flagged_iff : ∀ mag base s g, g < fftSize/16 →
    (groupFlags (run mag base s) g ≠ 0 ↔ ∃ k < 16, base (16*g+k) >>> s < mag (16*g+k))

def clippedBins (cfg : Config) (lo hi : Nat) : List Nat :=
  let lo := if lo < cfg.width/2 then cfg.width/2 else lo
  let hi := if hi > fftSize-cfg.width/2 then fftSize-cfg.width/2 else hi
  List.range' lo (hi-lo)

def screenedPeaks (screen : DetectScreen) (cfg : Config) (mag : Magnitudes) (t : Tagger) :
    List Peak :=
  let flags := screen.run mag t.base.sum (screenShift cfg.thresholdQ15).toNat
  (List.range (fftSize/16)).flatMap fun g =>
    if groupFlags flags g = 0 then []
    else peaksAmong cfg mag t (clippedBins cfg (16*g) (16*g+16))

theorem screenShift_toNat {thr : Int} (h : 0 < thr) :
    (screenShift thr).toNat = 24-thr.toNat.log2 := by
  simp only [screenShift, gt_iff_lt, h, if_true]
  split <;> split <;> omega

theorem two_pow_le_shifted {thr : Int} (h : 0 < thr) :
    2^24 ≤ 2^(screenShift thr).toNat*thr := by
  have hlog : (2 : Int)^thr.toNat.log2 ≤ thr := by
    have := Nat.log2_self_le (show thr.toNat ≠ 0 by omega)
    have hcast : ((2^thr.toNat.log2 : Nat) : Int) ≤ thr := by omega
    rwa [Nat.cast_pow] at hcast
  calc (2 : Int)^24 ≤ 2^((24-thr.toNat.log2)+thr.toNat.log2) :=
        pow_le_pow_right₀ (by decide) (by omega)
    _ = 2^(screenShift thr).toNat*2^thr.toNat.log2 := by rw [screenShift_toNat h, pow_add]
    _ ≤ 2^(screenShift thr).toNat*thr :=
        mul_le_mul_of_nonneg_left hlog (pow_nonneg (by decide) _)

theorem shifted_lt_of_aboveThreshold {mag base thr : Int} (hthr : 0 < thr) (hbase : 0 ≤ base)
    (h : aboveThreshold mag base thr = true) : base >>> (screenShift thr).toNat < mag := by
  have hexact := of_decide_eq_true h
  rw [Int.shiftRight_eq_div_pow] at hexact
  have hsquare : 0 ≤ base*thr/((2^15 : Nat) : Int) :=
    Int.ediv_nonneg (mul_nonneg hbase hthr.le) (by decide)
  have hmag : 0 < mag := by
    rw [historySize] at hexact
    omega
  by_contra hle
  rw [not_lt, Int.shiftRight_eq_div_pow, Nat.cast_pow,
    Int.le_ediv_iff_mul_le (pow_pos (by decide) _)] at hle
  have hscaled : mag*historySize*((2^15 : Nat) : Int) ≤ base*thr :=
    calc mag*historySize*((2^15 : Nat) : Int) = mag*2^24 := by rw [mul_assoc]; rfl
      _ ≤ mag*(2^(screenShift thr).toNat*thr) :=
          mul_le_mul_of_nonneg_left (two_pow_le_shifted hthr) hmag.le
      _ = mag*2^(screenShift thr).toNat*thr := (mul_assoc _ _ _).symm
      _ ≤ base*thr := mul_le_mul_of_nonneg_right hle hthr.le
  exact absurd hexact (not_lt.mpr ((Int.le_ediv_iff_mul_le (by decide)).mpr hscaled))

variable (cfg : Config)

theorem clippedBins_append {a b c : Nat} (hab : a ≤ b) (hbc : b ≤ c) :
    clippedBins cfg a b++clippedBins cfg b c = clippedBins cfg a c := by
  simp only [clippedBins]
  generalize fftSize-cfg.width/2 = stop
  generalize cfg.width/2 = margin
  by_cases hlow : b < margin
  · have hnil : (if b > stop then stop else b)-margin = 0 := by split <;> omega
    rw [if_pos (show a < margin by omega), if_pos hlow, hnil]
    rfl
  rw [if_neg hlow]
  by_cases hhigh : b > stop
  · rw [if_pos hhigh, if_pos (show c > stop by omega),
      Nat.sub_eq_zero_of_le (show stop ≤ b by omega), range'_zero, append_nil]
  rw [if_neg hhigh]
  have hlo : (if a < margin then margin else a) ≤ b := by split <;> omega
  have hhi : b ≤ if c > stop then stop else c := by split <;> omega
  generalize (if a < margin then margin else a) = lo at hlo ⊢
  generalize (if c > stop then stop else c) = hi at hhi ⊢
  have hjoin : List.range' lo (b-lo)++List.range' (lo+(b-lo)) (hi-b) = _ :=
    range'_append_1
  rwa [Nat.add_sub_cancel' hlo, show b-lo+(hi-b) = hi-lo by omega] at hjoin

theorem clippedBins_groups (n : Nat) :
    (List.range n).flatMap (fun g => clippedBins cfg (16*g) (16*g+16)) =
      clippedBins cfg 0 (16*n) := by
  induction n with
  | zero => simp [clippedBins]
  | succ n ih =>
    rw [range_succ, flatMap_append, ih, flatMap_singleton,
      clippedBins_append cfg (by omega) (by omega), Nat.mul_succ]

theorem clippedBins_all : clippedBins cfg 0 fftSize = marginBins cfg := by
  have hlo : (if 0 < cfg.width/2 then cfg.width/2 else 0) = cfg.width/2 := by split <;> omega
  have hhi : (if fftSize > fftSize-cfg.width/2 then fftSize-cfg.width/2 else fftSize) =
      fftSize-cfg.width/2 := by split <;> omega
  simp only [clippedBins, marginBins, hlo, hhi]

variable (mag : Magnitudes) (t : Tagger)

theorem peaksAmong_flatMap {ι : Type} (groups : List ι) (bins : ι → List Nat) :
    peaksAmong cfg mag t (groups.flatMap bins) =
      groups.flatMap fun g => peaksAmong cfg mag t (bins g) := by
  simp only [peaksAmong, filter_flatMap, map_flatMap]

variable {cfg t}

theorem peaksAmong_unflagged (screen : DetectScreen) (hthr : 0 < cfg.thresholdQ15)
    (hbase : ∀ bin < fftSize, 0 ≤ t.base.sum bin) {g : Nat} (hg : g < fftSize/16)
    (hflags : groupFlags (screen.run mag t.base.sum (screenShift cfg.thresholdQ15).toNat) g = 0) :
    peaksAmong cfg mag t (clippedBins cfg (16*g) (16*g+16)) = [] := by
  rw [peaksAmong, map_eq_nil_iff, filter_eq_nil_iff]
  intro bin hbin hpeak
  rw [clippedBins, mem_range'_1] at hbin
  have hgroup : 16*g ≤ bin ∧ bin < 16*g+16 := by
    split at hbin <;> split at hbin <;> omega
  simp only [binCandidate, binLive, Bool.and_eq_true] at hpeak
  have habove := hpeak.2.2.1
  rw [fftSize] at hg
  have hlt := shifted_lt_of_aboveThreshold hthr (hbase bin (by rw [fftSize]; omega)) habove
  refine (screen.flagged_iff mag t.base.sum _ g hg).mpr ⟨bin-16*g, by omega, ?_⟩ hflags
  rwa [Nat.add_sub_cancel' hgroup.1]

/-- The scan over flagged groups finds the peaks of the scalar scan, in its order. -/
theorem screenedPeaks_eq_scanPeaks (screen : DetectScreen) (cfg : Config) (mag : Magnitudes)
    (t : Tagger) (hthr : 0 < cfg.thresholdQ15) (hbase : ∀ bin < fftSize, 0 ≤ t.base.sum bin) :
    screenedPeaks screen cfg mag t = scanPeaks cfg mag t := by
  have hgroups : screenedPeaks screen cfg mag t = (List.range (fftSize/16)).flatMap
      fun g => peaksAmong cfg mag t (clippedBins cfg (16*g) (16*g+16)) := by
    apply flatMap_congr
    intro g hg
    split
    · rename_i hflags
      exact (peaksAmong_unflagged mag screen hthr hbase (mem_range.mp hg) hflags).symm
    · rfl
  rw [hgroups, ← peaksAmong_flatMap, clippedBins_groups]
  exact congrArg (peaksAmong cfg mag t) (clippedBins_all cfg)

def scalarScreen : DetectScreen where
  run mag base s i :=
    if (List.range 16).any fun k => decide (base (16*(i/4)+k) >>> s < mag (16*(i/4)+k)) then 1
    else 0
  flagged_iff mag base s g _ := by
    have hgroup : (4*g)/4 = g ∧ (4*g+1)/4 = g ∧ (4*g+2)/4 = g ∧ (4*g+3)/4 = g := by omega
    simp only [groupFlags, hgroup, any_eq_true, mem_range, decide_eq_true_eq]
    split
    · rename_i hmark
      exact ⟨fun _ => hmark, fun _ => by decide⟩
    · rename_i hmark
      exact ⟨fun h => absurd rfl h, fun h => absurd h hmark⟩

theorem spike_screened :
    screenedPeaks scalarScreen ⟨4096, 40000, 16, 823095, 1, -1, false⟩
        (fun k => if k = 1000 then 90 else 0) (init (fun _ _ => 0) 0) = [⟨1000, 46080⟩] :=
  (screenedPeaks_eq_scanPeaks scalarScreen _ _ _ (by decide) fun _ _ => le_refl (0 : Int)).trans
    (by decide +kernel)

end IridiumAcars.FftBurstTagger
