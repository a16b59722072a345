import IridiumAcars.LiveFeedContent
import IridiumAcars.Lib.Runs
import Mathlib.Data.List.Flatten

/-! What is pushed is the conversion of the bytes given back to the ring, in order and once each. -/
namespace IridiumAcars.LiveFeed
open SignalBuffer Runs List

theorem given_feedSample (p : DspProcessor) (x : Sample) :
    (p.feedSample x).given = p.given++[x] := by
  rw [DspProcessor.feedSample]
  split
  · simp [DspProcessor.given, DspProcessor.tagged]
  · simp [DspProcessor.given, DspProcessor.tagged]

theorem given_feed (p : DspProcessor) (samples : List Sample) :
    (dspProcessorFeed p samples).given = p.given++samples := by
  induction samples generalizing p with
  | nil => exact (append_nil _).symm
  | cons x samples ih =>
    rw [dspProcessorFeed, foldl_cons, ← dspProcessorFeed, ih, given_feedSample,
      append_assoc]
    rfl

def unfed (prev : Option Slot) : Feed → List Slot
  | .take a => prev.toList++a.owed.toList
  | .handOver p _ a => p::a.owed.toList
  | .release _ a => a.owed.toList
  | .releaseSlot _ | .waitData => []
  | _ => prev.toList

/-- A converted slot reaches the hand-over during a continuous raw capture. -/
def Sheds (s : State) : Action → Prop
  | .feed _ => (∃ p n a, s.feed = .handOver p n a) ∧ s.capture = true
  | _ => False

def NeverSheds (buf : Nat → UInt8) (acts : List Action) : Prop :=
  AllSteps step (fun s a => ¬Sheds s a) (start buf) acts

def Fed (s : State) : Prop :=
  s.dsp.given++(unfed s.prev s.feed).flatMap s.load = expected s.spans

section
variable {s s' : State} {fault : Bool}

theorem Fed.keep (h : Fed s) (hdsp : s'.dsp = s.dsp) (hload : s'.load = s.load)
    (hspans : s'.spans = s.spans) (hunfed : unfed s'.prev s'.feed = unfed s.prev s.feed) :
    Fed s' := by
  rwa [Fed, hdsp, hload, hspans, hunfed]

theorem Fed.dispatch (h : Fed s) (hs : Slots s) {c : Slot} {off n : UInt32}
    (hf : s.feed = .dispatch c off n) (hdsp : s'.dsp = s.dsp) (hprev : s'.prev = s.prev)
    {bytes : List UInt8} {d : Bool}
    (hload : s'.load = Function.update s.load c (if d then [] else convert bytes))
    (hspans : s'.spans = s.spans++[(bytes, d)])
    (hfeed : s'.feed = .take (.advance c)) : Fed s' := by
  have hnot : c ∉ s.prev.toList := by
    intro hmem
    exact (hs.next c (by rw [hf]; rfl)).2 (Option.mem_toList.mp hmem)
  have hold : s.dsp.given++s.prev.toList.flatMap s.load = expected s.spans := by
    have := h
    rwa [Fed, hf] at this
  rw [Fed, hdsp, hload, hspans, hprev, hfeed, expected_snoc, ← hold]
  simp [unfed, After.owed, flatMap_update hnot]

theorem feed_fed (h : Fed s) (hg : Good s) (hshed : ¬Sheds s (.feed fault))
    (hm : FeedMove s fault s') : Fed s' := by
  cases hm with
  | stay => exact h
  | acquire hf _ | first c hf hp | takeRaw c p hf hp _ | consume c p hf | span c off n hf hr =>
    exact h.keep rfl rfl rfl (by rw [hf]; rfl)
  | empty c hf hr => exact h.keep rfl rfl rfl (by rw [hf]; exact append_nil _)
  | drop c off n hf => exact h.dispatch hg.slots hf rfl rfl (d := true) rfl rfl rfl
  | send c off n hf => exact h.dispatch hg.slots hf rfl rfl (d := false) rfl rfl rfl
  | skip a hf hp =>
    cases a with
    | advance c | drain c => exact h.keep rfl rfl rfl (by rw [hf, hp]; rfl)
  | takeReady a p hf hp _ => exact h.keep rfl rfl rfl (by rw [hf, hp]; rfl)
  | handOver p n a hf =>
    have hcap : s.capture = false := by
      cases hc : s.capture with
      | false => rfl
      | true => exact absurd ⟨⟨p, n, a, hf⟩, hc⟩ hshed
    have hold := h
    rw [Fed, hf] at hold
    rw [Fed]
    simp only [hcap, Bool.false_eq_true, if_false]
    rw [given_feed, hg.content.handOver p n a hf]
    simpa [unfed] using hold
  | release p a hf =>
    cases a with
    | advance c | drain c => exact h.keep rfl rfl rfl (by rw [hf]; rfl)
  | giveBack c hf => exact h.keep rfl rfl rfl (by rw [hf]; rfl)
  | wake hf _ =>
    have hp : s.prev = none := by simpa [hf] using hg.slots.prev
    exact h.keep rfl rfl rfl (by rw [hf, hp]; rfl)

theorem ingest_fed (h : Fed s) {submit submitRest : Bool}
    (hm : IngestMove s submit submitRest s') : Fed s' := by
  cases hm with
  | stay => exact h
  | _ => exact h

theorem step_fed (h : Fed s) (hg : Good s) {a : Action} (hshed : ¬Sheds s a) :
    Fed (step s a) := by
  cases a with
  | usbWrite w => exact h
  | usb => exact h
  | feed fault => exact feed_fed h hg hshed (feedMove s fault)
  | timeout =>
    rw [step]
    split
    · have hf : s.feed = .waitData := ‹_›
      have hp : s.prev = none := by simpa [hf] using hg.slots.prev
      exact h.keep rfl rfl rfl (by rw [hf, hp]; rfl)
    · exact h
  | ingest submit submitRest => exact ingest_fed h (ingestMove s submit submitRest)
  | capture active => exact h

theorem run_fed {buf : Nat → UInt8} {acts : List Action} (h : NeverSheds buf acts) :
    Fed (run buf acts) := by
  have hboth : Good (run buf acts) ∧ Fed (run buf acts) :=
    AllSteps.invariant (fun s => Good s ∧ Fed s)
      (fun s a hok hs => ⟨step_good hs.1 a, step_fed hs.2 hs.1 hok⟩) h
      ⟨run_good buf [], rfl⟩
  exact hboth.2

theorem step_capture (s : State) {a : Action} (ha : a ≠ .capture true) :
    s.capture = false → (step s a).capture = false := by
  intro hs
  cases a with
  | feed fault =>
    have hm := feedMove s fault
    rw [step]
    generalize dspFeedStep s fault = s' at hm
    cases hm with
    | skip a hf hp => cases a <;> exact hs
    | release p a hf => cases a <;> exact hs
    | _ => exact hs
  | timeout =>
    rw [step]
    split <;> exact hs
  | ingest submit submitRest =>
    have hm := ingestMove s submit submitRest
    rw [step]
    generalize ingestStep s submit submitRest = s' at hm
    cases hm with
    | _ => exact hs
  | capture active =>
    cases active with
    | false => rfl
    | true => exact absurd rfl ha
  | _ => exact hs

theorem neverSheds_of_no_capture {buf : Nat → UInt8} {acts : List Action}
    (h : ∀ a ∈ acts, a ≠ .capture true) : NeverSheds buf acts := by
  have hall {s : State} (hs : s.capture = false) :
      AllSteps step (fun s a => ¬Sheds s a) s acts := by
    induction acts generalizing s with
    | nil => trivial
    | cons a acts ih =>
      refine ⟨?_, ih (fun b hb => h b (mem_cons_of_mem _ hb))
        (step_capture s (h a mem_cons_self) hs)⟩
      intro hshed
      cases a with
      | feed fault => exact absurd (hs.symm.trans hshed.2) (by decide)
      | _ => exact hshed
  exact hall rfl

theorem Slots.out_unfed (h : Slots s) {i : Slot} {o : Bool}
    (ho : view s.feed s.prev i = .out o) : i ∈ unfed s.prev s.feed := by
  have hafter {a : After} (hc : some a.slot = some i) (hv : a.view = .out o) :
      i ∈ a.owed.toList := by
    cases a with
    | advance c => exact Option.mem_toList.mpr hc
    | drain c => cases hv
  have hp := h.prev
  rw [view] at ho
  by_cases hc : s.feed.current = some i
  · rw [if_pos hc] at ho
    cases hf : s.feed with
    | take a =>
      rw [hf] at hc ho
      exact mem_append_right _ (hafter hc ho)
    | handOver p n a =>
      rw [hf] at hc ho
      exact mem_cons_of_mem _ (hafter hc ho)
    | release p a =>
      rw [hf] at hc ho
      exact hafter hc ho
    | _ =>
      rw [hf] at ho
      cases ho
  · rw [if_neg hc] at ho
    by_cases hprev : s.prev = some i
    · rw [if_pos hprev] at ho
      cases hf : s.feed with
      | take a => exact mem_append_left _ (Option.mem_toList.mpr hprev)
      | handOver p n a | release p a =>
        rw [hf] at ho
        cases ho
      | releaseSlot c | waitData =>
        rw [hf] at hp
        exact absurd (hprev.symm.trans hp) (Option.some_ne_none i)
      | _ => exact Option.mem_toList.mpr hprev
    · rw [if_neg hprev] at ho
      cases ho

theorem Slots.unpushed_subperm (h : Slots s) : s.unpushed.Subperm (unfed s.prev s.feed) := by
  have hsub : s.unpushed.Sublist s.busy := by
    apply List.Sublist.append_right
    cases hg : s.ingest with
    | ready m => exact nil_sublist _
    | _ => exact List.Sublist.refl _
  refine subperm_of_subset (h.busy.sublist hsub) fun i hi => ?_
  have hwork : work s.ingest s.queue i ≠ .absent := fun habs => not_busy habs (hsub.subset hi)
  obtain ⟨⟨o,ho⟩,_⟩ := (h.ok i).of_busy hwork
  exact h.out_unfed ho

theorem length_flatMap_le {xs ys : List Slot} (h : xs.Subperm ys) (load : Slot → List Sample) :
    (xs.flatMap load).length ≤ (ys.flatMap load).length := by
  obtain ⟨zs,hperm,hsub⟩ := h
  rw [← (hperm.flatMap_right load).length_eq]
  exact (hsub.flatMap load).length_le

theorem Good.given_pushed (h : Good s) (hfed : Fed s) :
    s.dsp.given <+: s.pushes.flatMap Push.samples := by
  have hpushed := h.content.pushed
  have hle := length_flatMap_le h.slots.unpushed_subperm s.load
  have hall := congrArg List.length (hfed.trans hpushed.symm)
  rw [length_append, length_append] at hall
  have hgiven : s.dsp.given <+: expected s.spans := ⟨_, hfed⟩
  exact prefix_of_prefix_length_le hgiven ⟨_, hpushed⟩ (by omega)

theorem length_loads {load : Slot → List Sample} (h : ∀ i, (load i).length ≤ 8192)
    {xs : List Slot} (hx : xs.length ≤ 2) : (xs.flatMap load).length ≤ 2*8192 := by
  have hall : (xs.flatMap load).length ≤ xs.length*8192 := by
    clear hx
    induction xs with
    | nil => exact Nat.zero_le _
    | cons i xs ih =>
      have := h i
      rw [flatMap_cons, length_append, length_cons]
      omega
  exact hall.trans (Nat.mul_le_mul_right 8192 hx)

theorem length_unfed (prev : Option Slot) (f : Feed) : (unfed prev f).length ≤ 2 := by
  have hle (o : Option Slot) : o.toList.length ≤ 1 := by cases o <;> simp
  have hprev := hle prev
  cases f with
  | take a =>
    have := hle a.owed
    rw [unfed, length_append]
    omega
  | handOver p n a =>
    have := hle a.owed
    rw [unfed, length_cons]
    omega
  | release p a => exact (hle a.owed).trans (by decide)
  | releaseSlot c => exact Nat.zero_le _
  | waitData => exact Nat.zero_le _
  | _ => exact hprev.trans (by decide)

def keptBytes (spans : List (List UInt8 × Bool)) : List UInt8 :=
  (spans.filter fun x => !x.2).flatMap Prod.fst

theorem convert_kept {spans : List (List UInt8 × Bool)} (h : ∀ x ∈ spans, 2 ∣ x.1.length) :
    convert (keptBytes spans) = expected spans := by
  induction spans with
  | nil => rfl
  | cons x spans ih =>
    have hrest := ih fun y hy => h y (mem_cons_of_mem _ hy)
    obtain ⟨bytes,d⟩ := x
    cases d with
    | true => simpa [keptBytes, expected] using hrest
    | false =>
      have hx : 2 ∣ bytes.length := h (bytes, false) (by simp)
      have hkept : keptBytes ((bytes, false)::spans) = bytes++keptBytes spans := by
        simp [keptBytes]
      rw [hkept, convert_append hx, hrest]
      simp [expected]

/-- Bytes of returned writes, or a dispatched or ready slot, wait for the feed. -/
def State.workLeft (s : State) : Prop :=
  s.ring.consumed.length < (returned s.ring).length ∨
    ∃ i, s.ready i = true ∨ ∃ owes, view s.feed s.prev i = .out owes

theorem Good.not_blocked (h : Good s) (hfeed : s.feedBlocked) (hingest : s.ingestBlocked) :
    ¬s.workLeft := by
  obtain ⟨hf,hready⟩ := h.slots.blocked hfeed hingest
  have hp : s.prev = none := by simpa [hf] using h.slots.prev
  rintro (hbytes | ⟨i,hi | ⟨o,ho⟩⟩)
  · rw [State.feedBlocked, hf] at hfeed
    rcases h.bytes.notified (by rw [hf]; rfl) with hle | hn
    · omega
    · exact absurd (hfeed.symm.trans hn) (by decide)
  · exact absurd ((hready i).symm.trans hi) (by decide)
  · simp [view, hf, hp] at ho

theorem Good.consume_converted (h : Good s) (a : Action)
    (hne : (step s a).ring.consumed ≠ s.ring.consumed) : s.pending = [] := by
  cases a with
  | usbWrite w => exact absurd (write_extends _ _).consumed hne
  | usb => exact absurd (writer_extends _).consumed hne
  | feed fault =>
    have hm := feedMove s fault
    rw [step] at hne
    generalize dspFeedStep s fault = s' at hm hne
    cases hm with
    | consume c p hf => exact h.slots.pending_nil (.inr ⟨c, p, hf⟩)
    | span c off n hf _ | empty c hf _ => exact h.slots.pending_nil (.inl (by rw [hf]; rfl))
    | skip a hf hp | release p a hf => cases a <;> exact absurd rfl hne
    | _ => exact absurd rfl hne
  | timeout =>
    rw [step] at hne
    split at hne <;> exact absurd rfl hne
  | ingest submit submitRest =>
    have hm := ingestMove s submit submitRest
    rw [step] at hne
    generalize ingestStep s submit submitRest = s' at hm hne
    cases hm with
    | _ => exact absurd rfl hne
  | capture active => exact absurd rfl hne

theorem Good.slot_written (h : Good s) (a : Action) {i : Slot}
    (hne : (step s a).resamp i ≠ s.resamp i) :
    s.ingest.slot = some i ∧ s.ready i = false ∧ ∃ owes, view s.feed s.prev i = .out owes := by
  cases a with
  | feed fault =>
    have hm := feedMove s fault
    rw [step] at hne
    generalize dspFeedStep s fault = s' at hm hne
    cases hm with
    | skip a hf hp | release p a hf => cases a <;> exact absurd rfl hne
    | _ => exact absurd rfl hne
  | timeout =>
    rw [step] at hne
    split at hne <;> exact absurd rfl hne
  | ingest submit submitRest =>
    have hm := ingestMove s submit submitRest
    rw [step] at hne
    generalize ingestStep s submit submitRest = s' at hm hne
    cases hm with
    | store m done tile hg =>
      have hi : i = m.slot := by
        by_contra hother
        exact hne (Function.update_of_ne hother _ _)
      have hslot : s.ingest.slot = some i := by rw [hg, hi]; rfl
      obtain ⟨hout,hready⟩ := h.slots.at_ingest hslot
      exact ⟨hslot, hready, hout⟩
    | _ => exact absurd rfl hne
  | _ => exact absurd rfl hne

theorem Bytes.length_outstanding (h : Bytes s) :
    (outstanding s.ring s.rawBytes (LiveFeed.owed s.prev s.feed)).length ≤ 16384 := by
  cases ho : LiveFeed.owed s.prev s.feed with
  | none => exact Nat.zero_le _
  | some i =>
    obtain ⟨hchunk,off,n,hp,hle⟩ := h.owed i ho
    rw [outstanding, length_span h.ring hp hle]
    exact hchunk.le

theorem Good.idle (h : Good s) (hf : s.feed = .waitData) :
    s.spans.flatMap Prod.fst = s.ring.consumed ∧
      s.pushes.flatMap Push.samples = expected s.spans ∧
      (Fed s → s.dsp.given = expected s.spans) := by
  have hspans := h.bytes.spans
  have hpushed := h.content.pushed
  have hnone := h.slots.unpushed_subperm
  rw [hf] at hspans hnone
  rw [subperm_nil.mp hnone, flatMap_nil, append_nil] at hpushed
  refine ⟨hspans.trans (append_nil _), hpushed, fun hfed => ?_⟩
  rw [Fed, hf] at hfed
  exact (append_nil _).symm.trans hfed

end

/-- Over every interleaving of USB writes, feed, ingest, dropped dispatches and captures. -/
theorem feed_ingest_exact (buf : Nat → UInt8) (acts : List Action) :
    let s := run buf acts
    let pushed := s.pushes.flatMap Push.samples
    (∃ last, s.spans.flatMap Prod.fst = s.ring.consumed++last ∧ last.length ≤ 16384) ∧
      (∃ late, convert (keptBytes s.spans) = pushed++late ∧ late.length ≤ 2*8192) ∧
      (NeverSheds buf acts → s.dsp.given <+: pushed ∧
        ∃ late, convert (keptBytes s.spans) = s.dsp.given++late ∧ late.length ≤ 2*8192) ∧
      (s.feed = .waitData → s.spans.flatMap Prod.fst = s.ring.consumed ∧
        pushed = convert (keptBytes s.spans) ∧
        (NeverSheds buf acts → s.dsp.given = convert (keptBytes s.spans))) ∧
      (∀ a, (step s a).ring.consumed ≠ s.ring.consumed → s.pending = []) ∧
      (∀ a i, (step s a).resamp i ≠ s.resamp i →
        s.ingest.slot = some i ∧ s.ready i = false ∧
          ∃ owes, view s.feed s.prev i = .out owes) ∧
      (∀ x ∈ s.spans, 2 ∣ x.1.length) ∧
      s.queue.length < dispatchDepth ∧
      s.lost = 0 ∧
      ¬(s.feedBlocked ∧ s.ingestBlocked ∧ s.workLeft) := by
  intro s pushed
  have h : Good s := run_good buf acts
  have heven := fun x hx => (h.bytes.chunks x hx).1
  have hkept := convert_kept heven
  refine ⟨⟨_, h.bytes.spans, ?_⟩, ⟨_, hkept.trans h.content.pushed.symm, ?_⟩, ?_, ?_,
    h.consume_converted, fun a i => h.slot_written a, heven, ?_, h.slots.lost, ?_⟩
  · exact h.bytes.length_outstanding
  · exact length_loads h.content.small
      (h.slots.unpushed_subperm.length_le.trans (length_unfed _ _))
  · intro hnever
    have hfed := run_fed hnever
    exact ⟨h.given_pushed hfed, _, hkept.trans hfed.symm,
      length_loads h.content.small (length_unfed _ _)⟩
  · intro hwait
    obtain ⟨hspans,hall,hfed⟩ := h.idle hwait
    rw [hkept]
    exact ⟨hspans, hall, fun hnever => hfed (run_fed hnever)⟩
  · exact h.slots.queue_le.trans_lt (by decide)
  · rintro ⟨hfeed,hingest,hwork⟩
    exact h.not_blocked hfeed hingest hwork

def writeActions (w : UsbWrite) : List Action := .usbWrite w::List.replicate 6 .usb

def twoBytes : UsbWrite := ⟨⟨[1, 2], by decide⟩, by decide⟩

def oneChunk : List Action :=
  writeActions twoBytes++List.replicate 5 (.feed false)++List.replicate 6 (.ingest true true)++
    List.replicate 8 (.feed false)

theorem feed_ingest_exact_one_chunk :
    (run (fun _ => 0) oneChunk).feed = .waitData ∧
      (run (fun _ => 0) oneChunk).ring.consumed = [1, 2] ∧
      (run (fun _ => 0) oneChunk).pushes.flatMap Push.samples = convert [1, 2] ∧
      (run (fun _ => 0) oneChunk).dsp.given = convert [1, 2] := by
  have hnever : NeverSheds (fun _ => 0) oneChunk := by
    apply neverSheds_of_no_capture
    simp [oneChunk, writeActions]
  obtain ⟨_,_,_,hidle,_⟩ := feed_ingest_exact (fun _ => 0) oneChunk
  obtain ⟨hspans,hpushed,hgiven⟩ := hidle rfl
  exact ⟨rfl, hspans.symm, hpushed, hgiven hnever⟩

def oneDrop : List Action :=
  writeActions twoBytes++List.replicate 3 (.feed false)++[.feed true]++
    List.replicate 9 (.feed false)

/-- The bytes of a dropped dispatch are given back to the ring but never pushed. -/
theorem dropped_bytes_unpushed :
    (run (fun _ => 0) oneDrop).feed = .waitData ∧
      (run (fun _ => 0) oneDrop).ring.consumed = [1, 2] ∧
      (run (fun _ => 0) oneDrop).pushes.flatMap Push.samples ≠
        convert (run (fun _ => 0) oneDrop).ring.consumed := by
  refine ⟨rfl, rfl, ?_⟩
  exact nofun

end IridiumAcars.LiveFeed
