import Mathlib.Data.List.DropRight
import Mathlib.Data.UInt
import IridiumAcars.Lib.RollingSum

/-! The rolling decode rates of `frame_decoder.c`: a ring of minutes and a ring of hours. -/
namespace IridiumAcars.DecodeRate
open RollingSum List

def drateMinBuckets : Nat := 60
def drateHrBuckets : Nat := 24

structure Minute where
  ms : Nat
  tl : Nat
  bc : Nat
  lwDa : Nat
  lwOther : Nat

def Minute.count (m : Minute) : Nat := m.ms+m.tl+m.bc+m.lwDa+m.lwOther

structure Classes where
  ms : UInt64
  tl : UInt64
  bc : UInt64
  lwDa : UInt64
  lwOther : UInt64

def Classes.add (c : Classes) (m : Minute) : Classes where
  ms := c.ms+.ofNat m.ms
  tl := c.tl+.ofNat m.tl
  bc := c.bc+.ofNat m.bc
  lwDa := c.lwDa+.ofNat m.lwDa
  lwOther := c.lwOther+.ofNat m.lwOther

def drateClassifiedSum (c : Classes) : UInt64 := c.ms+c.tl+c.bc+c.lwDa+c.lwOther

structure Drate where
  min : Nat → UInt32
  hr : Nat → UInt32
  classifiedAtLastRoll : UInt64
  minHead : Nat
  hrHead : Nat
  minInHr : Nat

def Drate.roll (s : Drate) (nowTotal : UInt64) : Drate :=
  { s with
    min := Function.update s.min ((s.minHead+1)%drateMinBuckets)
      (nowTotal-s.classifiedAtLastRoll).toUInt32
    classifiedAtLastRoll := nowTotal
    minHead := (s.minHead+1)%drateMinBuckets
    minInHr := s.minInHr+1 }

def Drate.rollHour (s : Drate) : Drate × Option UInt32 :=
  let hrSum := total drateMinBuckets s.min
  let hrHead := (s.hrHead+1)%drateHrBuckets
  let hr := Function.update s.hr hrHead hrSum
  let sum24h := total drateHrBuckets hr
  ({ s with hr := hr, hrHead := hrHead, minInHr := 0 },
    if sum24h > 10 ∧ hrSum = 0 then some sum24h else none)

def drateTick (c : Classes) (s : Drate) : Drate × Option UInt32 :=
  let s := s.roll (drateClassifiedSum c)
  if s.minInHr ≥ 60 then s.rollHour else (s, none)

def getRollingRates (s : Drate) : UInt32 × UInt32 :=
  let sum1h := total drateMinBuckets s.min
  (sum1h, totalExcept drateHrBuckets s.hrHead s.hr+sum1h)

def boot : Classes × Drate :=
  (⟨0, 0, 0, 0, 0⟩, ⟨fun _ => 0, fun _ => 0, 0, 0, 0, 0⟩)

def minute (s : Classes × Drate) (m : Minute) : Classes × Drate :=
  (s.1.add m, (drateTick (s.1.add m) s.2).1)

def run (minutes : List Minute) : Classes × Drate := minutes.foldl minute boot

def classified (minutes : List Minute) : Nat := (minutes.map Minute.count).sum

def deltas (minutes : List Minute) : List UInt32 :=
  (minutes.map fun m => UInt32.ofNat m.count).reverse

def hour (deltas : List UInt32) (k : Nat) : UInt32 :=
  (((deltas.drop (deltas.length%60)).drop (60*k)).take 60).sum

structure Inv (s : Classes × Drate) (deltas : List UInt32) : Prop where
  snapshot : s.2.classifiedAtLastRoll = drateClassifiedSum s.1
  minutes : Tracks drateMinBuckets s.2.min s.2.minHead (fun j => deltas.getD j 0)
  hours : Tracks drateHrBuckets s.2.hr s.2.hrHead (hour deltas)
  phase : s.2.minInHr = deltas.length%60

variable (minutes : List Minute)

theorem drateClassifiedSum_add (c : Classes) (m : Minute) :
    drateClassifiedSum (c.add m) = drateClassifiedSum c+.ofNat m.count := by
  simp only [drateClassifiedSum, Classes.add, Minute.count, UInt64.ofNat_add]
  ac_rfl

theorem inv_boot : Inv boot [] where
  snapshot := rfl
  minutes := .zero (by decide) fun _ => rfl
  hours := .zero (by decide) fun k => by simp [hour]
  phase := rfl

section
variable {c : Classes} {s : Drate} {ds : List UInt32}

theorem Inv.delta (h : Inv (c, s) ds) (m : Minute) :
    (drateClassifiedSum (c.add m)-s.classifiedAtLastRoll).toUInt32 = .ofNat m.count := by
  have hs : s.classifiedAtLastRoll = drateClassifiedSum c := h.snapshot
  rw [hs, drateClassifiedSum_add, add_sub_cancel_left]
  exact UInt64.toUInt32_ofNat' ..

theorem Inv.minutes_roll (h : Inv (c, s) ds) (m : Minute) :
    Tracks drateMinBuckets (s.roll (drateClassifiedSum (c.add m))).min
      (s.roll (drateClassifiedSum (c.add m))).minHead
      (fun j => (UInt32.ofNat m.count::ds).getD j 0) := by
  rw [Drate.roll, h.delta m]
  exact h.minutes.push rfl fun _ => rfl

theorem hour_cons_of_lt (d : UInt32) (h : ds.length%60+1 < 60) (k : Nat) :
    hour (d::ds) k = hour ds k := by
  have hphase : (ds.length+1)%60 = ds.length%60+1 := by omega
  rw [hour, hour, length_cons, hphase, drop_succ_cons]

theorem hour_cons_zero (d : UInt32) (h : ds.length%60 = 59) :
    hour (d::ds) 0 = ((d::ds).take 60).sum := by
  have hphase : (ds.length+1)%60 = 0 := by omega
  rw [hour, length_cons, hphase]
  rfl

theorem hour_cons_succ (d : UInt32) (h : ds.length%60 = 59) (k : Nat) :
    hour (d::ds) (k+1) = hour ds k := by
  have hphase : (ds.length+1)%60 = 0 := by omega
  rw [hour, hour, length_cons, hphase, h, drop_drop, drop_drop,
    show 0+60*(k+1) = 59+60*k+1 by omega, drop_succ_cons]

theorem Inv.hours_roll (h : Inv (c, s) ds) (m : Minute) (hlast : ds.length%60 = 59) :
    Tracks drateHrBuckets (s.roll (drateClassifiedSum (c.add m))).rollHour.1.hr
      (s.roll (drateClassifiedSum (c.add m))).rollHour.1.hrHead
      (hour (UInt32.ofNat m.count::ds)) := by
  have hsum : hour (UInt32.ofNat m.count::ds) 0 =
      total drateMinBuckets (s.roll (drateClassifiedSum (c.add m))).min := by
    rw [(h.minutes_roll m).total_eq, hour_cons_zero _ hlast]
    exact (total_getD 60 _).symm
  exact h.hours.push hsum fun k => hour_cons_succ _ hlast k

theorem drateTick_of_full (c : Classes) (h : s.minInHr+1 ≥ 60) :
    drateTick c s = (s.roll (drateClassifiedSum c)).rollHour := if_pos h

theorem drateTick_of_not_full (c : Classes) (h : ¬s.minInHr+1 ≥ 60) :
    drateTick c s = (s.roll (drateClassifiedSum c), none) := if_neg h

theorem Inv.minute (h : Inv (c, s) ds) (m : Minute) :
    Inv (minute (c, s) m) (UInt32.ofNat m.count::ds) := by
  have hphase : s.minInHr = ds.length%60 := h.phase
  have hlt : ds.length%60 < 60 := Nat.mod_lt _ (by decide)
  rw [DecodeRate.minute]
  by_cases hfull : s.minInHr+1 ≥ 60
  · have hlast : ds.length%60 = 59 := by omega
    have hzero : (ds.length+1)%60 = 0 := by omega
    rw [drateTick_of_full _ hfull]
    exact ⟨rfl, h.minutes_roll m, h.hours_roll m hlast, hzero.symm⟩
  · have hnext : s.minInHr+1 = (ds.length+1)%60 := by omega
    rw [drateTick_of_not_full _ hfull]
    exact ⟨rfl, h.minutes_roll m, h.hours.congr fun k => hour_cons_of_lt _ (by omega) k, hnext⟩

theorem Inv.decline (h : Inv (c, s) ds) (m : Minute) (hlast : ds.length%60 = 59) :
    (drateTick (c.add m) s).2 =
      if ((UInt32.ofNat m.count::ds).take 1440).sum > 10 ∧
        ((UInt32.ofNat m.count::ds).take 60).sum = 0
      then some ((UInt32.ofNat m.count::ds).take 1440).sum else none := by
  have hphase : s.minInHr = ds.length%60 := h.phase
  have hzero : (ds.length+1)%60 = 0 := by omega
  have hhour : total drateMinBuckets (s.roll (drateClassifiedSum (c.add m))).min =
      ((UInt32.ofNat m.count::ds).take 60).sum :=
    (h.minutes_roll m).total_eq.trans (total_getD 60 _)
  have hday : total drateHrBuckets (s.roll (drateClassifiedSum (c.add m))).rollHour.1.hr =
      ((UInt32.ofNat m.count::ds).take 1440).sum := by
    rw [(h.hours_roll m hlast).total_eq]
    refine (total_congr fun k _ => ?_).trans (total_blocks 24 60 _)
    rw [hour, length_cons, hzero, drop_zero]
  rw [drateTick_of_full _ (by omega), ← hday, ← hhour]
  rfl

end

theorem inv_run : Inv (run minutes) (deltas minutes) := by
  induction minutes using List.reverseRecOn with
  | nil => exact inv_boot
  | append_singleton minutes m ih =>
    rw [run, foldl_append, deltas, map_append, reverse_append]
    exact ih.minute m

theorem ofNat_classified :
    UInt32.ofNat (classified minutes) = (deltas minutes).sum := by
  rw [deltas, sum_reverse]
  induction minutes with
  | nil => rfl
  | cons m ms ih =>
    rw [classified, map_cons, sum_cons, UInt32.ofNat_add, map_cons, sum_cons, ← ih]
    rfl

theorem deltas_rtake (n : Nat) :
    deltas (minutes.rtake n) = (deltas minutes).take n := by
  rw [rtake_eq_reverse_take_reverse, deltas, deltas, ← map_reverse, ← map_reverse,
    reverse_reverse, map_take]

theorem deltas_rdrop (n : Nat) :
    deltas (minutes.rdrop n) = (deltas minutes).drop n := by
  rw [rdrop_eq_reverse_drop_reverse, deltas, deltas, ← map_reverse, ← map_reverse,
    reverse_reverse, map_drop]

theorem toNat_eq_classified_iff (x : UInt32) (minutes : List Minute) :
    x.toNat = classified minutes%2^32 ↔ x = (deltas minutes).sum := by
  rw [← ofNat_classified, ← UInt32.toNat_inj, UInt32.toNat_ofNat']

theorem modEq_classified_iff (ms ms' : List Minute) :
    classified ms ≡ classified ms' [MOD 2^32] ↔ (deltas ms).sum = (deltas ms').sum := by
  rw [← ofNat_classified, ← toNat_eq_classified_iff, UInt32.toNat_ofNat']
  rfl

theorem Inv.rates {s : Classes × Drate} {ds : List UInt32} (h : Inv s ds) :
    getRollingRates s.2 = ((ds.take 60).sum,
      (((ds.drop 60).drop (ds.length%60)).take 1380).sum+(ds.take 60).sum) := by
  have h1 : total drateMinBuckets s.2.min = (ds.take 60).sum :=
    h.minutes.total_eq.trans (total_getD 60 ds)
  have hskip := totalExcept_add s.2.hr h.hours.head_lt
  have hall : total drateHrBuckets (hour ds) = total 23 (fun k => hour ds (k+1))+hour ds 0 := by
    rw [drateHrBuckets, total_succ_front, add_comm]
  rw [h.hours.head_cell, h.hours.total_eq, hall] at hskip
  have h23 : total 23 (fun k => hour ds (k+1)) =
      (((ds.drop 60).drop (ds.length%60)).take 1380).sum := by
    rw [← total_blocks 23 60]
    refine total_congr fun k _ => ?_
    rw [hour, drop_drop, drop_drop, drop_drop]
    congr 3
    omega
  rw [getRollingRates, add_right_cancel hskip, h1, h23]

theorem sum_take_drop_iff (xs : List UInt32) (p n : Nat) :
    ((xs.drop p).take n).sum = (xs.take n).sum ↔ (xs.take p).sum = ((xs.drop n).take p).sum := by
  have hsplit : (xs.take p).sum+((xs.drop p).take n).sum =
      (xs.take n).sum+((xs.drop n).take p).sum := by
    rw [← sum_append, ← sum_append, ← take_add, ← take_add, Nat.add_comm]
  constructor
  · intro h
    rw [h, add_comm] at hsplit
    exact add_left_cancel hsplit
  · intro h
    rw [h, add_comm] at hsplit
    exact add_right_cancel hsplit

/-- The warning goes by the true counts of the last hour and of the last 24. -/
theorem decline_warned (minutes : List Minute) (m : Minute) :
    (drateTick ((run minutes).1.add m) (run minutes).2).2 =
      if (minutes.length+1)%60 = 0 ∧ classified ((minutes++[m]).rtake 1440)%2^32 > 10 ∧
          classified ((minutes++[m]).rtake 60)%2^32 = 0
      then some (.ofNat (classified ((minutes++[m]).rtake 1440))) else none := by
  have hinv := inv_run minutes
  generalize run minutes = cs at hinv ⊢
  obtain ⟨c,s⟩ := cs
  have hlength : (deltas minutes).length = minutes.length := by
    rw [deltas, length_reverse, length_map]
  have hsum (n : Nat) : ((UInt32.ofNat m.count::deltas minutes).take n).sum =
      UInt32.ofNat (classified ((minutes++[m]).rtake n)) := by
    rw [ofNat_classified, deltas_rtake, deltas, deltas, map_append, reverse_append]
    rfl
  by_cases hlast : minutes.length%60 = 59
  · rw [hinv.decline m (by rw [hlength, hlast]), hsum, hsum]
    refine if_congr ?_ rfl rfl
    rw [gt_iff_lt, UInt32.lt_iff_toNat_lt, UInt32.toNat_ofNat', ← UInt32.toNat_inj,
      UInt32.toNat_ofNat']
    exact ⟨fun h => ⟨by omega, h⟩, fun h => h.2⟩
  · have hphase := hinv.phase
    rw [hlength] at hphase
    rw [drateTick_of_not_full _ (by omega), if_neg (by omega)]

/-- The hour is always right; the 24 hours miss the running hour's minutes before the last 60. -/
theorem rolling_rates_true_window_iff (minutes : List Minute) :
    (getRollingRates (run minutes).2).1.toNat = classified (minutes.rtake 60)%2^32 ∧
      ((getRollingRates (run minutes).2).2.toNat = classified (minutes.rtake 1440)%2^32 ↔
        classified ((minutes.rdrop 60).rtake (minutes.length%60)) ≡
          classified ((minutes.rdrop 1440).rtake (minutes.length%60)) [MOD 2^32]) := by
  have hlength : (deltas minutes).length = minutes.length := by
    rw [deltas, length_reverse, length_map]
  rw [(inv_run minutes).rates, hlength]
  constructor
  · rw [toNat_eq_classified_iff, deltas_rtake]
  · have hday : (deltas minutes).take 1440 =
        (deltas minutes).take 60++((deltas minutes).drop 60).take 1380 := by
      rw [← take_add]
    rw [toNat_eq_classified_iff, modEq_classified_iff, deltas_rtake, deltas_rtake, deltas_rtake,
      deltas_rdrop, deltas_rdrop, hday, sum_append, add_comm, add_right_inj, sum_take_drop_iff,
      drop_drop]

/-- A frame in the first minute after boot is missing an hour later. -/
theorem first_minute_lost :
    let minutes := (⟨1, 0, 0, 0, 0⟩ : Minute)::List.replicate 60 ⟨0, 0, 0, 0, 0⟩
    (getRollingRates (run minutes).2).2 = 0 ∧ classified (minutes.rtake 1440) = 1 := by
  decide +kernel

end IridiumAcars.DecodeRate
