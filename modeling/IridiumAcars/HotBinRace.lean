import IridiumAcars.HotBinTable

/-! The hot-bin table under concurrency: the stores of `arm` against the loads of a match. -/
namespace IridiumAcars.HotBinRace
open HotBin List Function

/-- A stored word; call 0 is `hot_bin_table_init`. -/
structure Word where
  value : UInt32
  call : Nat
deriving DecidableEq

structure Slot where
  bin : Word
  expiry : Word
deriving DecidableEq

abbrev Index : Type := Fin hotBinEntries

inductive Writer
  | idle
  | closing (i : Index) (bin deadline : UInt32)
  | setting (i : Index) (bin deadline : UInt32)
  | opening (i : Index) (deadline : UInt32)

/-- `stores` counts the bins stored between the two loads of `hot_bin_table_match`. -/
inductive Reader
  | idle
  | scan (todo : List Index) (bin nowMs : UInt32)
  | between (i : Index) (expiry : Word) (stores : Nat) (todo : List Index) (bin nowMs : UInt32)

structure Hit where
  slot : Index
  bin : Word
  deadline : Word
  stores : Nat
deriving DecidableEq

structure System where
  slot : Index → Slot
  enabled : Bool
  published : UInt32
  calls : Nat
  writer : Writer
  reader : Reader
  hits : List Hit

def initial : System := ⟨fun _ => ⟨⟨0, 0⟩, ⟨0, 0⟩⟩, true, 0, 0, .idle, .idle, []⟩

def System.table (s : System) : HotBinTable :=
  ⟨fun i => ⟨(s.slot i).bin.value, (s.slot i).expiry.value⟩, s.enabled, s.published, 0⟩

/-- The scan of `hot_bin_table_publish`. No other task stores, so its loads are one step. -/
def System.publish (s : System) (bin nowMs ttlMs : UInt32) : System :=
  match s.writer with
  | .idle =>
    { s with
      calls := s.calls+1
      writer := .closing (publishSlot s.table bin nowMs) bin (nowMs+ttlMs) }
  | _ => s

def Reader.binStored (r : Reader) (i : Index) : Reader :=
  match r with
  | .between j e n todo bin nowMs => .between j e (if j = i then n+1 else n) todo bin nowMs
  | r => r

def System.store (s : System) : System :=
  match s.writer with
  | .idle => s
  | .closing i bin deadline =>
    { s with
      slot := update s.slot i { s.slot i with expiry := ⟨0, s.calls⟩ }
      writer := .setting i bin deadline }
  | .setting i bin deadline =>
    { s with
      slot := update s.slot i { s.slot i with bin := ⟨bin, s.calls⟩ }
      writer := .opening i deadline
      reader := s.reader.binStored i }
  | .opening i deadline =>
    { s with
      slot := update s.slot i { s.slot i with expiry := ⟨deadline, s.calls⟩ }
      published := s.published+1
      writer := .idle }

def System.matchStart (s : System) (bin nowMs : UInt32) : System :=
  match s.reader with
  | .idle =>
    if s.enabled then { s with reader := .scan (List.finRange hotBinEntries) bin nowMs } else s
  | _ => s

def System.load (s : System) : System :=
  match s.reader with
  | .idle => s
  | .scan [] _ _ => { s with reader := .idle }
  | .scan (i::todo) bin nowMs =>
    let e := (s.slot i).expiry
    if e.value = 0 ∨ nowMs ≥ e.value then { s with reader := .scan todo bin nowMs }
    else { s with reader := .between i e 0 todo bin nowMs }
  | .between i e n todo bin nowMs =>
    let b := (s.slot i).bin
    if within b.value bin then { s with reader := .idle, hits := s.hits++[⟨i, b, e, n⟩] }
    else { s with reader := .scan todo bin nowMs }

inductive Move
  | publish (bin nowMs ttlMs : UInt32)
  | store
  | matchStart (bin nowMs : UInt32)
  | load

def step (s : System) : Move → System
  | .publish bin nowMs ttlMs => s.publish bin nowMs ttlMs
  | .store => s.store
  | .matchStart bin nowMs => s.matchStart bin nowMs
  | .load => s.load

def run (moves : List Move) : System := moves.foldl step initial

def Hit.Paired (h : Hit) : Prop := h.bin.call = h.deadline.call

instance (h : Hit) : Decidable h.Paired := inferInstanceAs (Decidable (_ = _))

structure WriterInv (s : System) : Prop where
  paired : ∀ i, (s.slot i).expiry.value ≠ 0 → (s.slot i).bin.call = (s.slot i).expiry.call
  known : ∀ i, (s.slot i).expiry.call ≤ s.calls
  earlier : s.writer ≠ .idle → ∀ i, (s.slot i).expiry.value ≠ 0 → (s.slot i).expiry.call < s.calls
  setting : ∀ i bin d, s.writer = .setting i bin d → (s.slot i).expiry.value = 0
  opening : ∀ i d, s.writer = .opening i d →
    (s.slot i).expiry.value = 0 ∧ (s.slot i).bin.call = s.calls

def ReaderOk (s : System) : Reader → Prop
  | .idle | .scan _ _ _ => True
  | .between i e n _ _ _ =>
    (if n = 0 then (s.slot i).bin.call = e.call else e.call < (s.slot i).bin.call) ∧
      e.call ≤ s.calls ∧ (s.writer ≠ .idle → e.call < s.calls)

structure Inv (s : System) : Prop where
  writer : WriterInv s
  reader : ReaderOk s s.reader
  hits : ∀ h ∈ s.hits, h.Paired ↔ h.stores = 0

theorem inv_initial : Inv initial where
  writer :=
    { paired := fun _ h => absurd rfl h
      known := fun _ => le_rfl
      earlier := fun h => absurd rfl h
      setting := by intro i bin d h; cases h
      opening := by intro i d h; cases h }
  reader := trivial
  hits := by intro h hh; cases hh

theorem ReaderOk.mono {s s' : System} {r : Reader} (h : ReaderOk s r)
    (hbin : ∀ i, (s'.slot i).bin = (s.slot i).bin) (hcalls : s.calls ≤ s'.calls)
    (hwriter : s'.writer ≠ .idle → s.writer ≠ .idle ∨ s.calls < s'.calls) : ReaderOk s' r := by
  cases r with
  | idle => trivial
  | scan todo bin now => trivial
  | between i e n todo bin now =>
    obtain ⟨hcall,hknown,hearlier⟩ := h
    refine ⟨by rw [hbin]; exact hcall, hknown.trans hcalls, ?_⟩
    intro hbusy
    obtain hold | hnew := hwriter hbusy
    · exact lt_of_lt_of_le (hearlier hold) hcalls
    · exact lt_of_le_of_lt hknown hnew

variable {i : Index}

section
variable {s : System}

theorem Inv.publish (h : Inv s) (bin nowMs ttlMs : UInt32) : Inv (s.publish bin nowMs ttlMs) := by
  unfold System.publish
  split
  · exact
      { writer :=
          { paired := h.writer.paired
            known := fun i => Nat.le_succ_of_le (h.writer.known i)
            earlier := fun _ i _ => Nat.lt_succ_of_le (h.writer.known i)
            setting := by intro i b d hw; cases hw
            opening := by intro i d hw; cases hw }
        reader := h.reader.mono (fun _ => rfl) (Nat.le_succ _) fun _ => .inr (Nat.lt_succ_self _)
        hits := h.hits }
  · exact h

def Slot.Paired (c : Slot) : Prop := c.expiry.value ≠ 0 → c.bin.call = c.expiry.call

def Slot.Earlier (calls : Nat) (c : Slot) : Prop := c.expiry.value ≠ 0 → c.expiry.call < calls

theorem all_updated {p : Slot → Prop} {slot : Index → Slot} {c : Slot} (hc : p c)
    (h : ∀ j, p (slot j)) (j : Index) : p (update slot i c j) := by
  by_cases hji : j = i
  · subst hji
    rwa [update_self]
  · rw [update_of_ne hji]
    exact h j

theorem expiry_update_bin (slot : Index → Slot) (i j : Index) (w : Word) :
    (update slot i { slot i with expiry := w } j).bin = (slot j).bin := by
  by_cases hji : j = i
  · subst hji
    rw [update_self]
  · rw [update_of_ne hji]

theorem Inv.close (h : Inv s) {bin deadline : UInt32}
    (hw : s.writer = .closing i bin deadline) :
    Inv { s with
      slot := update s.slot i { s.slot i with expiry := ⟨0, s.calls⟩ }
      writer := .setting i bin deadline } where
  writer :=
    { paired := all_updated (p := Slot.Paired) (absurd rfl ·) h.writer.paired
      known := all_updated (p := (·.expiry.call ≤ s.calls)) le_rfl h.writer.known
      earlier := fun _ => all_updated (p := Slot.Earlier s.calls) (absurd rfl ·)
        (h.writer.earlier (by rw [hw]; exact nofun))
      setting := by
        intro j b d hset
        cases hset
        simp
      opening := by intro j d hopen; cases hopen }
  reader := h.reader.mono (expiry_update_bin s.slot i · _) le_rfl
    fun _ => .inl (by rw [hw]; exact nofun)
  hits := h.hits

theorem Inv.open (h : Inv s) {deadline : UInt32} (hw : s.writer = .opening i deadline) :
    Inv { s with
      slot := update s.slot i { s.slot i with expiry := ⟨deadline, s.calls⟩ }
      published := s.published+1
      writer := .idle } where
  writer :=
    { paired := all_updated (p := Slot.Paired) (fun _ => (h.writer.opening i deadline hw).2)
        h.writer.paired
      known := all_updated (p := (·.expiry.call ≤ s.calls)) le_rfl h.writer.known
      earlier := fun hidle => absurd rfl hidle
      setting := by intro j b d hset; cases hset
      opening := by intro j d hopen; cases hopen }
  reader := h.reader.mono (expiry_update_bin s.slot i · _) le_rfl fun hidle => absurd rfl hidle
  hits := h.hits

theorem Inv.set (h : Inv s) {bin deadline : UInt32}
    (hw : s.writer = .setting i bin deadline) :
    Inv { s with
      slot := update s.slot i { s.slot i with bin := ⟨bin, s.calls⟩ }
      writer := .opening i deadline
      reader := s.reader.binStored i } where
  writer :=
    { paired := all_updated (p := Slot.Paired) (absurd (h.writer.setting i bin deadline hw))
        h.writer.paired
      known := all_updated (p := (·.expiry.call ≤ s.calls)) (h.writer.known i) h.writer.known
      earlier := fun _ => all_updated (p := Slot.Earlier s.calls)
        (absurd (h.writer.setting i bin deadline hw)) (h.writer.earlier (by rw [hw]; exact nofun))
      setting := by intro j b d hset; cases hset
      opening := by
        intro j d hopen
        cases hopen
        simp only [update_self, and_true]
        exact h.writer.setting i bin deadline hw }
  reader := by
    have hreader := h.reader
    have hbusy : s.writer ≠ .idle := by
      rw [hw]
      exact nofun
    cases hr : s.reader with
    | idle => trivial
    | scan todo b now => trivial
    | between j e n todo b now =>
      rw [hr] at hreader
      obtain ⟨hcall,hknown,hearlier⟩ := hreader
      refine ⟨?_, hknown, fun _ => hearlier hbusy⟩
      by_cases hji : j = i
      · subst hji
        simp only [if_true, update_self, Nat.add_eq_zero_iff, Nat.one_ne_zero, and_false,
          if_false]
        exact hearlier hbusy
      · simp only [if_neg hji, update_of_ne hji]
        exact hcall
  hits := h.hits

theorem Inv.store (h : Inv s) : Inv s.store := by
  unfold System.store
  split
  case h_1 => exact h
  case h_2 i bin deadline hw => exact h.close hw
  case h_3 i bin deadline hw => exact h.set hw
  case h_4 i deadline hw => exact h.open hw

theorem Inv.withReader (h : Inv s) {r : Reader} (hr : ReaderOk s r) : Inv { s with reader := r } :=
  { writer := { h.writer with }
    reader := by
      cases r with
      | idle => trivial
      | scan todo bin now => trivial
      | between i e n todo bin now => exact hr
    hits := h.hits }

theorem Inv.matchStart (h : Inv s) (bin nowMs : UInt32) : Inv (s.matchStart bin nowMs) := by
  unfold System.matchStart
  split
  · split
    · exact h.withReader trivial
    · exact h
  · exact h

theorem Inv.load (h : Inv s) : Inv s.load := by
  unfold System.load
  split
  case h_1 => exact h
  case h_2 => exact h.withReader trivial
  case h_3 i todo bin now hr =>
    dsimp only
    split_ifs with hdead
    · exact h.withReader trivial
    have hlive : (s.slot i).expiry.value ≠ 0 := fun hz => hdead (.inl hz)
    exact h.withReader ⟨by rw [if_pos rfl]; exact h.writer.paired i hlive, h.writer.known i,
      fun hbusy => h.writer.earlier hbusy i hlive⟩
  case h_4 i e n todo bin now hr =>
    have hreader := h.reader
    rw [hr] at hreader
    dsimp only
    split_ifs with hnear
    · refine { writer := { h.writer with }, reader := trivial, hits := ?_ }
      intro hit hmem
      obtain hold | hnew := mem_append.mp hmem
      · exact h.hits hit hold
      · obtain rfl := mem_singleton.mp hnew
        have hcall := hreader.1
        simp only [Hit.Paired]
        split at hcall
        · exact iff_of_true hcall ‹_›
        · exact iff_of_false (by omega) ‹_›
    · exact h.withReader trivial

theorem Inv.step (h : Inv s) (m : Move) : Inv (step s m) := by
  cases m with
  | publish bin nowMs ttlMs => exact h.publish bin nowMs ttlMs
  | store => exact h.store
  | matchStart bin nowMs => exact h.matchStart bin nowMs
  | load => exact h.load

end

theorem inv_run (moves : List Move) : Inv (run moves) := by
  induction moves using List.reverseRecOn with
  | nil => exact inv_initial
  | append_singleton moves m ih =>
    rw [run, foldl_append]
    exact ih.step m

/-- A match compares one call's pair iff no bin was stored in between. -/
theorem match_paired_iff (moves : List Move) :
    (∀ h ∈ (run moves).hits, h.Paired) ↔ ∀ h ∈ (run moves).hits, h.stores = 0 := by
  have hinv := (inv_run moves).hits
  constructor
  · intro hpaired h hh
    exact (hinv h hh).mp (hpaired h hh)
  · intro hstores h hh
    exact (hinv h hh).mpr (hstores h hh)

def straddle : List Move :=
  [.publish 100 0 1000, .store, .store, .store, .matchStart 104 10, .load,
    .publish 104 20 1000, .store, .store, .load]

theorem straddle_mixes_publishes :
    (run straddle).hits = [⟨⟨0, by decide⟩, ⟨104, 2⟩, ⟨1000, 1⟩, 1⟩] ∧
      ¬∀ h ∈ (run straddle).hits, h.Paired := by
  have hhits : (run straddle).hits = [⟨⟨0, by decide⟩, ⟨104, 2⟩, ⟨1000, 1⟩, 1⟩] := by decide +kernel
  refine ⟨hhits, ?_⟩
  rw [hhits]
  intro h
  exact absurd (h _ mem_cons_self) (by decide)

end IridiumAcars.HotBinRace
