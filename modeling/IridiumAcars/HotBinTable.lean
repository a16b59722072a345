import IridiumAcars.Lib.SlotTable
import Mathlib.Data.UInt

/-! The hot-bin table, hot_bin_table.c, on the 32-bit millisecond clock of its callers. -/
namespace IridiumAcars.HotBin
open SlotTable

def hotBinEntries : Nat := 4
def hotBinDeadband : Nat := 4

structure HotBinEntry where
  bin : UInt32
  expiryMs : UInt32

structure HotBinTable where
  e : Fin hotBinEntries → HotBinEntry
  enabled : Bool
  published : UInt32
  cleared : UInt32

def within (a b : UInt32) : Bool :=
  decide ((a.toBitVec.toInt-b.toBitVec.toInt).natAbs ≤ hotBinDeadband)

def hotBinTableInit : HotBinTable := ⟨fun _ => ⟨0, 0⟩, true, 0, 0⟩

def HotBinEntry.live (x : HotBinEntry) (nowMs : UInt32) : Bool :=
  decide (x.expiryMs ≠ 0) && decide (nowMs < x.expiryMs)

/-- The live entry on the same channel, else the first free slot, else the smallest deadline. -/
def publishScan (t : HotBinTable) (bin nowMs : UInt32) :
    List (Fin hotBinEntries) → Option (Fin hotBinEntries) → Fin hotBinEntries → UInt32 →
      Fin hotBinEntries
  | [], freeI, soonI, _ => freeI.getD soonI
  | i::is, freeI, soonI, soonExp =>
    let exp := (t.e i).expiryMs
    let live := (t.e i).live nowMs
    if live && within (t.e i).bin bin then i
    else publishScan t bin nowMs is (if !live && freeI.isNone then some i else freeI)
      (if exp < soonExp then i else soonI) (if exp < soonExp then exp else soonExp)

def publishSlot (t : HotBinTable) (bin nowMs : UInt32) : Fin hotBinEntries :=
  publishScan t bin nowMs (List.finRange hotBinEntries) none ⟨0, by decide⟩ 0xFFFFFFFF

def hotBinTablePublish (t : HotBinTable) (bin nowMs ttlMs : UInt32) : HotBinTable :=
  { t with
    e := setSlot t.e (publishSlot t bin nowMs) ⟨bin, nowMs+ttlMs⟩
    published := t.published+1 }

def HotBinEntry.hot (bin nowMs : UInt32) (x : HotBinEntry) : Bool :=
  x.live nowMs && within x.bin bin

def hotBinTableClear (t : HotBinTable) (bin nowMs : UInt32) : HotBinTable :=
  match firstSlot (HotBinEntry.hot bin nowMs) t.e with
  | none => t
  | some i =>
    { t with e := setSlot t.e i { t.e i with expiryMs := 0 }, cleared := t.cleared+1 }

def hotBinTableClearAll (t : HotBinTable) : HotBinTable :=
  { t with e := fun i => { t.e i with expiryMs := 0 } }

def hotBinTableMatch (t : HotBinTable) (bin nowMs : UInt32) : Bool :=
  t.enabled && (firstSlot (HotBinEntry.hot bin nowMs) t.e).isSome

def hotBinTableSetEnabled (t : HotBinTable) (on : Bool) : HotBinTable := { t with enabled := on }

inductive HotBinCall where
  | clear (bin nowMs : UInt32)
  | clearAll
  | setEnabled (on : Bool)

def stepTable (t : HotBinTable) : HotBinCall → HotBinTable
  | .clear bin nowMs => hotBinTableClear t bin nowMs
  | .clearAll => hotBinTableClearAll t
  | .setEnabled on => hotBinTableSetEnabled t on

def runTable : List HotBinCall → HotBinTable → HotBinTable
  | [], t => t
  | c::cs, t => runTable cs (stepTable t c)

theorem live_iff (x : HotBinEntry) (nowMs : UInt32) :
    x.live nowMs = true ↔ nowMs.toNat < x.expiryMs.toNat := by
  rw [HotBinEntry.live, Bool.and_eq_true, decide_eq_true_eq, decide_eq_true_eq,
    UInt32.lt_iff_toNat_lt]
  constructor
  · intro h
    exact h.2
  · intro h
    refine ⟨?_, h⟩
    rintro h0
    rw [h0] at h
    exact absurd h (Nat.not_lt_zero _)

theorem not_live_at_end (x : HotBinEntry) : x.live 0xFFFFFFFF = false := by
  rw [Bool.eq_false_iff]
  intro h
  have hlt := (live_iff x _).mp h
  have hx := x.expiryMs.toNat_lt
  have hend : (0xFFFFFFFF : UInt32).toNat = 2^32-1 := rfl
  omega

theorem within_self (a : UInt32) : within a a = true := by simp [within]

variable (t : HotBinTable)

theorem match_iff (bin nowMs : UInt32) :
    hotBinTableMatch t bin nowMs = true ↔
      t.enabled = true ∧ ∃ i, (t.e i).live nowMs = true ∧ within (t.e i).bin bin = true := by
  rw [hotBinTableMatch, Bool.and_eq_true]
  refine and_congr_right fun _ => ?_
  constructor
  · intro h
    obtain ⟨i,hi⟩ := Option.isSome_iff_exists.mp h
    exact ⟨i, by simpa [HotBinEntry.hot] using firstSlot_some hi⟩
  · rintro ⟨i,hi⟩
    cases hf : firstSlot (HotBinEntry.hot bin nowMs) t.e with
    | some j => rfl
    | none =>
      have hnone := firstSlot_none hf i
      rw [HotBinEntry.hot, hi.1, hi.2] at hnone
      cases hnone

theorem stepTable_expiry (c : HotBinCall) (i : Fin hotBinEntries) :
    ((stepTable t c).e i).expiryMs = (t.e i).expiryMs ∨ ((stepTable t c).e i).expiryMs = 0 := by
  cases c with
  | clear bin nowMs =>
    rw [stepTable, hotBinTableClear]
    cases firstSlot (HotBinEntry.hot bin nowMs) t.e with
    | none => exact Or.inl rfl
    | some j =>
      by_cases hj : i = j
      · subst hj
        right
        simp
      · left
        simp [setSlot_other _ _ _ _ hj]
  | clearAll => exact Or.inr rfl
  | setEnabled on => exact Or.inl rfl

theorem runTable_expiry (cs : List HotBinCall) (t : HotBinTable) (i : Fin hotBinEntries) :
    ((runTable cs t).e i).expiryMs = (t.e i).expiryMs ∨ ((runTable cs t).e i).expiryMs = 0 := by
  induction cs generalizing t with
  | nil => exact Or.inl rfl
  | cons c cs ih =>
    obtain h | h := ih (stepTable t c)
    · obtain h' | h' := stepTable_expiry t c i
      · exact Or.inl (h.trans h')
      · exact Or.inr (h.trans h')
    · exact Or.inr h

theorem runTable_not_live (cs : List HotBinCall) {t : HotBinTable} {i : Fin hotBinEntries}
    {nowMs : UInt32} (h : (t.e i).live nowMs = false) :
    ((runTable cs t).e i).live nowMs = false := by
  rw [Bool.eq_false_iff, ne_eq, live_iff] at h ⊢
  obtain he | he := runTable_expiry cs t i
  · rwa [he]
  · rw [he]
    exact Nat.not_lt_zero _

theorem publish_slot (bin nowMs ttlMs : UInt32) :
    (hotBinTablePublish t bin nowMs ttlMs).e (publishSlot t bin nowMs) = ⟨bin, nowMs+ttlMs⟩ := by
  simp [hotBinTablePublish]

/-- The deadline is kept exactly when the clock is in its first half. -/
theorem hot_bin_ttl_iff (t : HotBinTable) (bin nowMs ttlMs : UInt32) (hon : t.enabled = true)
    (hpos : 0 < ttlMs) (hlt : ttlMs < 0x80000000) :
    ((∀ d < ttlMs, hotBinTableMatch (hotBinTablePublish t bin nowMs ttlMs) bin (nowMs+d) = true) ∧
      ∀ (cs : List HotBinCall) (d : UInt32), ttlMs ≤ d → d < 0x80000000 →
        ((runTable cs (hotBinTablePublish t bin nowMs ttlMs)).e (publishSlot t bin nowMs)).live
          (nowMs+d) = false) ↔
      nowMs ≤ 0x80000000 := by
  have hhalf : (0x80000000 : UInt32).toNat = 2^31 := rfl
  have hsize : UInt32.size = 2^32 := rfl
  have hn := nowMs.toNat_lt
  rw [UInt32.lt_iff_toNat_lt] at hpos hlt
  rw [hhalf] at hlt
  rw [UInt32.le_iff_toNat_le, hhalf]
  constructor
  · rintro ⟨hmatch,hdead⟩
    by_contra hlate
    by_cases hwrap : nowMs.toNat+ttlMs.toNat < 2^32
    · -- the clock wraps to 0 while the deadline stands
      have hd : (UInt32.ofNat (2^32-nowMs.toNat)).toNat = 2^32-nowMs.toNat :=
        UInt32.toNat_ofNat_of_lt' (by omega)
      have hlive := hdead [] (UInt32.ofNat (2^32-nowMs.toNat))
        (by rw [UInt32.le_iff_toNat_le, hd]; omega)
        (by rw [UInt32.lt_iff_toNat_lt, hd, hhalf]; omega)
      rw [runTable, publish_slot, Bool.eq_false_iff, ne_eq, live_iff, UInt32.toNat_add,
        UInt32.toNat_add, hd] at hlive
      omega
    · -- the deadline itself wraps
      have hd : (UInt32.ofNat (2^32-1-nowMs.toNat)).toNat = 2^32-1-nowMs.toNat :=
        UInt32.toNat_ofNat_of_lt' (by omega)
      have hend : nowMs+UInt32.ofNat (2^32-1-nowMs.toNat) = 0xFFFFFFFF := by
        apply UInt32.toNat_inj.mp
        rw [UInt32.toNat_add, hd]
        change _ = 2^32-1
        omega
      have hm := hmatch (UInt32.ofNat (2^32-1-nowMs.toNat))
        (by rw [UInt32.lt_iff_toNat_lt, hd]; omega)
      obtain ⟨-,i,hi,-⟩ := (match_iff _ _ _).mp hm
      rw [hend, not_live_at_end] at hi
      cases hi
  · intro hearly
    constructor
    · intro d hd
      rw [UInt32.lt_iff_toNat_lt] at hd
      rw [match_iff]
      refine ⟨hon, publishSlot t bin nowMs, ?_, ?_⟩
      · rw [publish_slot, live_iff, UInt32.toNat_add, UInt32.toNat_add]
        omega
      · rw [publish_slot]
        exact within_self bin
    · intro cs d hge hd
      apply runTable_not_live
      rw [UInt32.le_iff_toNat_le] at hge
      rw [UInt32.lt_iff_toNat_lt, hhalf] at hd
      rw [publish_slot, Bool.eq_false_iff, ne_eq, live_iff, UInt32.toNat_add, UInt32.toNat_add]
      omega

/-- A chain published one second after start keeps its 700 ms. -/
theorem hot_bin_ttl_after_start :
    (∀ d < 700, hotBinTableMatch (hotBinTablePublish hotBinTableInit 100 1000 700) 100 (1000+d) =
      true) ∧
    ∀ (cs : List HotBinCall) (d : UInt32), 700 ≤ d → d < 0x80000000 →
      ((runTable cs (hotBinTablePublish hotBinTableInit 100 1000 700)).e
        (publishSlot hotBinTableInit 100 1000)).live (1000+d) = false :=
  (hot_bin_ttl_iff hotBinTableInit 100 1000 700 rfl (by decide) (by decide)).mpr (by decide)

/-- A chain published 100 ms before the clock wraps is not boosted at all. -/
theorem hot_bin_lost_before_wrap :
    hotBinTableInit.enabled = true ∧
    hotBinTableMatch (hotBinTablePublish hotBinTableInit 100 0xFFFFFF9C 700) 100 (0xFFFFFF9C+0) =
      false := by
  decide

end IridiumAcars.HotBin
