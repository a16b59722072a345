import IridiumAcars.LiveFeed

/-! Each slot has one owner at any time, and the owner determines its three semaphores. -/
namespace IridiumAcars.LiveFeed
open SignalBuffer UsbRing List Function

inductive View
  | free
  | held
  | out (owes : Bool)
  | taken

inductive Work
  | absent
  | reading
  | converted

def After.slot : After → Slot
  | .advance c | .drain c => c

def After.view : After → View
  | .advance _ => .out true
  | .drain _ => .held

variable (c : Slot)

@[simp] theorem After.slot_advance : (After.advance c).slot = c := rfl

@[simp] theorem After.slot_drain : (After.drain c).slot = c := rfl

@[simp] theorem After.view_advance : (After.advance c).view = .out true := rfl

@[simp] theorem After.view_drain : (After.drain c).view = .held := rfl

@[simp] def Feed.current : Feed → Option Slot
  | .acquire | .waitData => none
  | .waitRaw c | .consume c _ | .read c | .dispatch c _ _ | .releaseSlot c => some c
  | .take a | .handOver _ _ a | .release _ a => some a.slot

@[simp] def Feed.currentView : Feed → View
  | .take a | .handOver _ _ a | .release _ a => a.view
  | _ => .held

@[simp] def Feed.prevView : Feed → View
  | .acquire | .waitRaw _ => .out true
  | .handOver _ _ _ | .release _ _ => .taken
  | _ => .out false

def view (f : Feed) (prev : Option Slot) (i : Slot) : View :=
  if f.current = some i then f.currentView
  else if prev = some i then f.prevView
  else .free

@[simp] def Ingest.msg : Ingest → Option Msg
  | .idle => none
  | .convert m _ | .giveRaw m _ _ | .store m _ _ | .push m _ | .ready m => some m

@[simp] def Ingest.reading : Ingest → Bool
  | .convert _ _ | .giveRaw _ _ _ => true
  | .store m done tile => done+tile.length < m.complexTotal
  | _ => false

def Ingest.slot (g : Ingest) : Option Slot := g.msg.map Msg.slot

def State.busy (s : State) : List Slot := s.ingest.slot.toList++s.queue.map Msg.slot

def work (g : Ingest) (queue : List Msg) (i : Slot) : Work :=
  if g.slot = some i then if g.reading then .reading else .converted
  else if i ∈ queue.map Msg.slot then .reading
  else .absent

/-- The free, raw-done and ready semaphores of a slot in each of its states. -/
inductive SlotOk : View → Work → Bool → Bool → Bool → Prop
  | free : SlotOk .free .absent true false false
  | held : SlotOk .held .absent false false false
  | reading : SlotOk (.out true) .reading false false false
  | converted (owes : Bool) : SlotOk (.out owes) .converted false owes false
  | ready (owes : Bool) : SlotOk (.out owes) .absent false owes true
  | taken : SlotOk .taken .absent false false false

def State.Ok (s : State) (i : Slot) : Prop :=
  SlotOk (view s.feed s.prev i) (work s.ingest s.queue i) (s.free i) (s.rawDone i) (s.ready i)

@[simp] def PrevOk (prev : Option Slot) : Feed → Prop
  | .consume _ p | .handOver p _ _ | .release p _ => prev = some p
  | .releaseSlot _ | .waitData => prev = none
  | _ => True

structure Slots (s : State) : Prop where
  ok : ∀ i, s.Ok i
  busy : s.busy.Nodup
  next : ∀ c, s.feed.current = some c → s.nextAcquire = c+1 ∧ s.prev ≠ some c
  rotated : s.feed.current = none → s.prev ≠ some s.nextAcquire
  prev : PrevOk s.prev s.feed
  lost : s.lost = 0

/-- A dropped dispatch gives both semaphores at once. -/
def State.dropSpan (s : State) (c : Slot) (off n : UInt32) : State :=
  { s with
    nOut := update s.nOut c 0
    rawDone := update s.rawDone c true
    ready := update s.ready c true
    spans := s.spans++[(readSpan s.ring.buf off.toNat n.toNat, true)]
    load := update s.load c []
    lost := s.lost+giveLost s.rawDone c+giveLost s.ready c
    rawBytes := update s.rawBytes c n
    feed := .take (.advance c) }

def State.sendSpan (s : State) (c : Slot) (off n : UInt32) : State :=
  { s with
    queue := s.queue++[⟨c, off, n⟩]
    spans := s.spans++[(readSpan s.ring.buf off.toNat n.toNat, false)]
    load := update s.load c (convert (readSpan s.ring.buf off.toNat n.toNat))
    rawBytes := update s.rawBytes c n
    feed := .take (.advance c) }

inductive FeedMove (s : State) (fault : Bool) : State → Prop
  | stay : FeedMove s fault s
  | acquire (hf : s.feed = .acquire) (hfree : s.free s.nextAcquire = true) :
    FeedMove s fault { s with
      free := update s.free s.nextAcquire false
      nextAcquire := s.nextAcquire+1
      feed := .waitRaw s.nextAcquire }
  | first (c : Slot) (hf : s.feed = .waitRaw c) (hp : s.prev = none) :
    FeedMove s fault { s with feed := .read c }
  | takeRaw (c p : Slot) (hf : s.feed = .waitRaw c) (hp : s.prev = some p)
    (hd : s.rawDone p = true) :
    FeedMove s fault
      { s with rawDone := update s.rawDone p false, feed := .consume c p }
  | consume (c p : Slot) (hf : s.feed = .consume c p) :
    FeedMove s fault { s with ring := usbringConsume s.ring (s.rawBytes p), feed := .read c }
  | span (c : Slot) (off n : UInt32) (hf : s.feed = .read c)
    (hr : (usbringPeek s.ring).reader = .holding off n) :
    FeedMove s fault { s with
      ring := usbringPeek s.ring
      feed := .dispatch c off (if n < outBlockSize then n else outBlockSize) }
  | empty (c : Slot) (hf : s.feed = .read c)
    (hr : ∀ off n, (usbringPeek s.ring).reader ≠ .holding off n) :
    FeedMove s fault { s with ring := usbringPeek s.ring, feed := .take (.drain c) }
  | drop (c : Slot) (off n : UInt32) (hf : s.feed = .dispatch c off n) :
    FeedMove s fault (s.dropSpan c off n)
  | send (c : Slot) (off n : UInt32) (hf : s.feed = .dispatch c off n) :
    FeedMove s fault (s.sendSpan c off n)
  | skip (a : After) (hf : s.feed = .take a) (hp : s.prev = none) :
    FeedMove s fault (s.finish a)
  | takeReady (a : After) (p : Slot) (hf : s.feed = .take a) (hp : s.prev = some p)
    (hr : s.ready p = true) :
    FeedMove s fault
      { s with ready := update s.ready p false, feed := .handOver p (s.nOut p) a }
  | handOver (p : Slot) (n : Nat) (a : After) (hf : s.feed = .handOver p n a) :
    FeedMove s fault { s with
      dsp := if s.capture then s.dsp else dspProcessorFeed s.dsp ((s.resamp p).take n)
      feed := .release p a }
  | release (p : Slot) (a : After) (hf : s.feed = .release p a) :
    FeedMove s fault ((ingestCore1Release s p).finish a)
  | giveBack (c : Slot) (hf : s.feed = .releaseSlot c) :
    FeedMove s fault { ingestCore1Release s c with feed := .waitData }
  | wake (hf : s.feed = .waitData) (hn : s.notified = true) :
    FeedMove s fault { s with notified := false, feed := .acquire }

theorem feedMove (s : State) (fault : Bool) : FeedMove s fault (dspFeedStep s fault) := by
  rw [dspFeedStep]
  split
  case h_1 hf =>
    split
    · exact .acquire hf ‹_›
    · exact .stay
  case h_2 c hf =>
    split
    · exact .first c hf ‹_›
    · split
      · exact .takeRaw c _ hf ‹_› ‹_›
      · exact .stay
  case h_3 c p hf => exact .consume c p hf
  case h_4 c hf =>
    rw [espLibusbReadStream]
    split
    · exact .span c _ _ hf ‹_›
    · exact .empty c hf ‹_›
  case h_5 c off n hf =>
    rw [ingestCore1Dispatch]
    split
    · exact .drop c off n hf
    · exact .send c off n hf
  case h_6 a hf =>
    split
    · exact .skip a hf ‹_›
    · split
      · exact .takeReady a _ hf ‹_› ‹_›
      · exact .stay
  case h_7 p n a hf => exact .handOver p n a hf
  case h_8 p a hf => exact .release p a hf
  case h_9 c hf => exact .giveBack c hf
  case h_10 hf =>
    split
    · exact .wake hf ‹_›
    · exact .stay

theorem work_absent {g : Ingest} {queue : List Msg} {i : Slot} (h : work g queue i = .absent) :
    g.slot ≠ some i ∧ i ∉ queue.map Msg.slot := by
  rw [work] at h
  by_cases hg : g.slot = some i
  · rw [if_pos hg] at h
    split at h <;> cases h
  · rw [if_neg hg] at h
    refine ⟨hg, fun hq => ?_⟩
    rw [if_pos hq] at h
    cases h

section
variable {v : View} {w : Work} {f d r : Bool}

theorem SlotOk.of_held (h : SlotOk .held w f d r) :
    w = .absent ∧ f = false ∧ d = false ∧ r = false := by
  cases h
  exact ⟨rfl, rfl, rfl, rfl⟩

theorem SlotOk.of_taken (h : SlotOk .taken w f d r) :
    w = .absent ∧ f = false ∧ d = false ∧ r = false := by
  cases h
  exact ⟨rfl, rfl, rfl, rfl⟩

theorem SlotOk.of_free (h : SlotOk .free w f d r) : f = true ∧ r = false := by
  cases h
  exact ⟨rfl, rfl⟩

theorem SlotOk.of_done {o : Bool} (h : SlotOk (.out o) .absent f d r) : d = o ∧ r = true := by
  cases h
  exact ⟨rfl, rfl⟩

theorem SlotOk.of_reading (h : SlotOk v .reading f d r) : v = .out true ∧ d = false := by
  cases h
  exact ⟨rfl, rfl⟩

theorem SlotOk.of_converted (h : SlotOk v .converted f d r) : r = false := by
  cases h
  rfl

theorem SlotOk.acquire (h : SlotOk .free w f d r) : SlotOk .held w false d r := by
  cases h
  exact .held

theorem SlotOk.dispatch (h : SlotOk .held w f d r) : SlotOk (.out true) .reading f d r := by
  cases h
  exact .reading

theorem SlotOk.drop (h : SlotOk .held w f d r) : SlotOk (.out true) w f true true := by
  cases h
  exact .ready true

theorem SlotOk.convert (h : SlotOk v .reading f d r) : SlotOk v .converted f true r := by
  cases h
  exact .converted true

theorem SlotOk.finish (h : SlotOk v .converted f d r) : SlotOk v .absent f d true := by
  cases h
  exact .ready _

theorem SlotOk.takeRaw (h : SlotOk (.out true) w f true r) : SlotOk (.out false) w f false r := by
  cases h with
  | converted => exact .converted false
  | ready => exact .ready false

theorem SlotOk.takeReady (h : SlotOk (.out false) w f d true) : SlotOk .taken w f d false := by
  cases h
  exact .taken

theorem SlotOk.release (h : SlotOk .taken w f d r) : SlotOk .free w true d r := by
  cases h
  exact .free

theorem SlotOk.giveBack (h : SlotOk .held w f d r) : SlotOk .free w true d r := by
  cases h
  exact .free

end

theorem next_ne : c+1 ≠ c := by
  revert c
  decide

inductive IngestMove (s : State) (submit submitRest : Bool) : State → Prop
  | stay : IngestMove s submit submitRest s
  | receive (m : Msg) (rest : List Msg) (hg : s.ingest = .idle) (hq : s.queue = m::rest) :
    IngestMove s submit submitRest { s with
      queue := rest
      ingest := if m.complexTotal = 0 then .giveRaw m 0 [] else .convert m 0 }
  | convert (m : Msg) (done : Nat) (hg : s.ingest = .convert m done) :
    IngestMove s submit submitRest
      { s with ingest := .giveRaw m done (convertTile s.ring m done) }
  | last (m : Msg) (done : Nat) (tile : List Sample) (hg : s.ingest = .giveRaw m done tile)
    (hlast : m.complexTotal ≤ done+tile.length) :
    IngestMove s submit submitRest { s with
      rawDone := update s.rawDone m.slot true
      lost := s.lost+giveLost s.rawDone m.slot
      ingest := .store m done tile }
  | more (m : Msg) (done : Nat) (tile : List Sample) (hg : s.ingest = .giveRaw m done tile)
    (hmore : ¬m.complexTotal ≤ done+tile.length) :
    IngestMove s submit submitRest { s with ingest := .store m done tile }
  | store (m : Msg) (done : Nat) (tile : List Sample) (hg : s.ingest = .store m done tile) :
    IngestMove s submit submitRest { s with
      resamp := update s.resamp m.slot ((s.resamp m.slot).take done++tile)
      ingest :=
        if done+tile.length < m.complexTotal then .convert m (done+tile.length)
        else .push m (done+tile.length) }
  | push (m : Msg) (n : Nat) (hg : s.ingest = .push m n) :
    IngestMove s submit submitRest { s with
      nOut := update s.nOut m.slot n
      pushes := s.pushes++[⟨(s.resamp m.slot).take n, submit, submitRest⟩]
      ingest := .ready m }
  | ready (m : Msg) (hg : s.ingest = .ready m) :
    IngestMove s submit submitRest { s with
      ready := update s.ready m.slot true
      lost := s.lost+giveLost s.ready m.slot
      ingest := .idle }

theorem ingestMove (s : State) (submit submitRest : Bool) :
    IngestMove s submit submitRest (ingestStep s submit submitRest) := by
  rw [ingestStep]
  split
  case h_1 hg =>
    split
    · exact .stay
    · exact .receive _ _ hg ‹_›
  case h_2 m done hg => exact .convert m done hg
  case h_3 m done tile hg =>
    split
    · exact .last m done tile hg ‹_›
    · exact .more m done tile hg ‹_›
  case h_4 m done tile hg => exact .store m done tile hg
  case h_5 m n hg => exact .push m n hg
  case h_6 m hg => exact .ready m hg

variable {a : After}

section
variable {s s' : State} {fault : Bool}

theorem Slots.goto (h : Slots s) {r : Ring} {d : DspProcessor} {f : Feed} (hp : PrevOk s.prev f)
    (hcur : f.current = s.feed.current) (hcv : f.currentView = s.feed.currentView)
    (hpv : s.prev ≠ none → f.prevView = s.feed.prevView) :
    Slots { s with ring := r, dsp := d, feed := f } := by
  refine ⟨?_, h.busy, ?_, ?_, hp, h.lost⟩
  · intro i
    have hv : view f s.prev i = view s.feed s.prev i := by
      rw [view, view, hcur, hcv]
      by_cases hi : s.prev = some i
      · rw [if_pos hi, if_pos hi, hpv (by rw [hi]; exact Option.some_ne_none i)]
      · rw [if_neg hi, if_neg hi]
    simpa only [State.Ok, hv] using h.ok i
  · intro c hc
    exact h.next c (hcur.symm.trans hc)
  · intro hnone
    exact h.rotated (hcur.symm.trans hnone)

theorem Slots.acquire (h : Slots s) (hf : s.feed = .acquire) :
    Slots { s with
      free := update s.free s.nextAcquire false
      nextAcquire := s.nextAcquire+1
      feed := .waitRaw s.nextAcquire } := by
  have hprev := h.rotated (by rw [hf]; rfl)
  refine ⟨?_, h.busy, ?_, ?_, trivial, h.lost⟩
  · intro i
    have hold := h.ok i
    by_cases hi : i = s.nextAcquire
    · subst hi
      simp only [State.Ok, view, hf, Feed.current, hprev, reduceCtorEq, if_false] at hold
      simpa [State.Ok, view] using hold.acquire
    · simpa [State.Ok, view, hf, hi, Ne.symm hi] using hold
  · intro c hc
    cases hc
    exact ⟨rfl, hprev⟩
  · intro hnone
    cases hnone

theorem Slots.takeRaw (h : Slots s) {c p : Slot} (hf : s.feed = .waitRaw c)
    (hp : s.prev = some p) (hd : s.rawDone p = true) :
    Slots { s with rawDone := update s.rawDone p false, feed := .consume c p } := by
  obtain ⟨hnext,hprev⟩ := h.next c (by rw [hf]; rfl)
  have hpc : c ≠ p := fun he => hprev (by rw [hp, he])
  refine ⟨?_, h.busy, ?_, ?_, hp, h.lost⟩
  · intro i
    have hold := h.ok i
    by_cases hi : i = p
    · subst hi
      simp only [State.Ok, view, hf, hp, hd, Feed.current, Feed.prevView, Option.some.injEq,
        hpc, if_false, if_true] at hold
      simpa [State.Ok, view, hp, hpc] using hold.takeRaw
    · simpa [State.Ok, view, hf, hp, hi, Ne.symm hi] using hold
  · intro c' hc'
    cases hc'
    exact ⟨hnext, hprev⟩
  · intro hnone
    cases hnone

theorem Slots.drop (h : Slots s) {c : Slot} {off n : UInt32}
    (hf : s.feed = .dispatch c off n) : Slots (s.dropSpan c off n) := by
  unfold State.dropSpan
  have hc := h.ok c
  simp only [State.Ok, view, hf, Feed.current, Feed.currentView, if_true] at hc
  obtain ⟨_,_,hd,hr⟩ := hc.of_held
  refine ⟨?_, h.busy, ?_, ?_, trivial, ?_⟩
  · intro i
    by_cases hi : i = c
    · subst hi
      simpa [State.Ok, view] using hc.drop
    · simpa [State.Ok, view, hf, hi, Ne.symm hi] using h.ok i
  · intro c' hc'
    cases hc'
    exact h.next c (by rw [hf]; rfl)
  · intro hnone
    cases hnone
  · simp [giveLost, hd, hr, h.lost]

theorem Slots.send (h : Slots s) {c : Slot} {off n : UInt32}
    (hf : s.feed = .dispatch c off n) : Slots (s.sendSpan c off n) := by
  unfold State.sendSpan
  have hc := h.ok c
  simp only [State.Ok, view, hf, Feed.current, Feed.currentView, if_true] at hc
  obtain ⟨hw,_,_,_⟩ := hc.of_held
  obtain ⟨hg,hq⟩ := work_absent hw
  refine ⟨?_, ?_, ?_, ?_, trivial, h.lost⟩
  · intro i
    by_cases hi : i = c
    · subst hi
      simpa [State.Ok, view, work, hg] using hc.dispatch
    · simpa [State.Ok, view, work, hf, hi, Ne.symm hi] using h.ok i
  · rw [State.busy, map_append, ← append_assoc]
    refine h.busy.append (nodup_singleton c) ?_
    intro i hold hnew
    rw [mem_singleton.mp hnew] at hold
    rcases mem_append.mp hold with hcur | hwait
    · exact hg (Option.mem_toList.mp hcur)
    · exact hq hwait
  · intro c' hc'
    cases hc'
    exact h.next c (by rw [hf]; rfl)
  · intro hnone
    cases hnone

theorem slots_finish (hok : ∀ i, (s.finish a).Ok i) (hbusy : s.busy.Nodup)
    (hnext : s.nextAcquire = a.slot+1) (hlost : s.lost = 0) : Slots (s.finish a) := by
  cases a with
  | advance c =>
    refine ⟨hok, hbusy, ?_, ?_, trivial, hlost⟩
    · intro c' hc'
      cases hc'
    · intro _ hsame
      exact next_ne c (hnext.symm.trans (Option.some.inj hsame).symm)
  | drain c =>
    refine ⟨hok, hbusy, ?_, ?_, rfl, hlost⟩
    · intro c' hc'
      cases hc'
      exact ⟨hnext, Option.some_ne_none c |>.symm⟩
    · intro hnone
      cases hnone

theorem Slots.skip (h : Slots s) (hf : s.feed = .take a) (hp : s.prev = none) :
    Slots (s.finish a) := by
  obtain ⟨hnext,_⟩ := h.next a.slot (by rw [hf]; rfl)
  refine slots_finish (fun i => ?_) h.busy hnext h.lost
  cases a <;> simpa [State.Ok, State.finish, view, hf, hp] using h.ok i

theorem Slots.takeReady (h : Slots s) {p : Slot} (hf : s.feed = .take a)
    (hp : s.prev = some p) (hr : s.ready p = true) {n : Nat} :
    Slots { s with ready := update s.ready p false, feed := .handOver p n a } := by
  obtain ⟨hnext,hprev⟩ := h.next a.slot (by rw [hf]; rfl)
  have hpc : a.slot ≠ p := fun he => hprev (by rw [hp, he])
  refine ⟨?_, h.busy, ?_, ?_, hp, h.lost⟩
  · intro i
    have hold := h.ok i
    by_cases hi : i = p
    · subst hi
      simp only [State.Ok, view, hf, hp, hr, Feed.current, Feed.prevView, Option.some.injEq,
        hpc, if_false, if_true] at hold
      simpa [State.Ok, view, hp, hpc] using hold.takeReady
    · simpa [State.Ok, view, hf, hp, hi, Ne.symm hi] using hold
  · intro c' hc'
    cases hc'
    exact ⟨hnext, hprev⟩
  · intro hnone
    cases hnone

theorem Slots.release (h : Slots s) {p : Slot} (hf : s.feed = .release p a) :
    Slots ((ingestCore1Release s p).finish a) := by
  obtain ⟨hnext,hprev⟩ := h.next a.slot (by rw [hf]; rfl)
  have hp : s.prev = some p := by simpa [hf] using h.prev
  have hpc : a.slot ≠ p := fun he => hprev (by rw [hp, he])
  have hold := h.ok p
  simp only [State.Ok, view, hf, hp, Feed.current, Feed.prevView, Option.some.injEq, hpc,
    if_false, if_true] at hold
  obtain ⟨_,hfree,_,_⟩ := hold.of_taken
  have hlost : s.lost+giveLost s.free p = 0 := by simp [giveLost, hfree, h.lost]
  refine slots_finish (fun i => ?_) h.busy hnext hlost
  by_cases hi : i = p
  · subst hi
    cases a with
    | advance c | drain c =>
      have hci : c ≠ i := hpc
      simpa [State.Ok, State.finish, ingestCore1Release, view, hci] using hold.release
  · cases a <;>
      simpa [State.Ok, State.finish, ingestCore1Release, view, hf, hp, hi, Ne.symm hi] using h.ok i

theorem Slots.giveBack (h : Slots s) {c : Slot} (hf : s.feed = .releaseSlot c) :
    Slots { ingestCore1Release s c with feed := .waitData } := by
  have hp : s.prev = none := by simpa [hf] using h.prev
  have hold := h.ok c
  simp only [State.Ok, view, hf, Feed.current, Feed.currentView, if_true] at hold
  obtain ⟨_,hfree,_,_⟩ := hold.of_held
  refine ⟨?_, h.busy, ?_, ?_, hp, ?_⟩
  · intro i
    by_cases hi : i = c
    · subst hi
      simpa [State.Ok, ingestCore1Release, view, hp] using hold.giveBack
    · simpa [State.Ok, ingestCore1Release, view, hf, hp, hi, Ne.symm hi] using h.ok i
  · intro c' hc'
    cases hc'
  · intro _ hsame
    exact absurd (hp.symm.trans hsame) (Option.some_ne_none _).symm
  · simp [ingestCore1Release, giveLost, hfree, h.lost]

theorem Slots.wake (h : Slots s) (hf : s.feed = .waitData) :
    Slots { s with notified := false, feed := .acquire } := by
  have hp : s.prev = none := by simpa [hf] using h.prev
  refine ⟨?_, h.busy, ?_, ?_, trivial, h.lost⟩
  · intro i
    simpa [State.Ok, view, hf, hp] using h.ok i
  · intro c' hc'
    cases hc'
  · intro _ hsame
    exact absurd (hp.symm.trans hsame) (Option.some_ne_none _).symm

theorem feed_slots (h : Slots s) (hm : FeedMove s fault s') : Slots s' := by
  cases hm with
  | stay => exact h
  | acquire hf _ => exact h.acquire hf
  | first c hf hp =>
    exact h.goto (f := .read c) trivial (by rw [hf]; rfl) (by rw [hf]; rfl)
      fun hsome => absurd hp hsome
  | takeRaw c p hf hp hd => exact h.takeRaw hf hp hd
  | consume c p hf =>
    exact h.goto (f := .read c) trivial (by rw [hf]; rfl) (by rw [hf]; rfl)
      fun _ => by rw [hf]; rfl
  | span c off n hf hr =>
    exact h.goto (f := .dispatch c off _) trivial (by rw [hf]; rfl) (by rw [hf]; rfl)
      fun _ => by rw [hf]; rfl
  | empty c hf hr =>
    exact h.goto (f := .take (.drain c)) trivial (by rw [hf]; rfl) (by rw [hf]; rfl)
      fun _ => by rw [hf]; rfl
  | drop c off n hf => exact h.drop hf
  | send c off n hf => exact h.send hf
  | skip a hf hp => exact h.skip hf hp
  | takeReady a p hf hp hr => exact h.takeReady hf hp hr
  | handOver p n a hf =>
    have hp := h.prev
    rw [hf] at hp
    exact h.goto (f := .release p a) hp (by rw [hf]; rfl) (by rw [hf]; rfl)
      fun _ => by rw [hf]; rfl
  | release p a hf => exact h.release hf
  | giveBack c hf => exact h.giveBack hf
  | wake hf _ => exact h.wake hf

end

section
variable {s s' : State} {submit submitRest : Bool}

theorem Slots.proceed (h : Slots s) {g : Ingest} {resamp : Slot → List Sample} {nOut : Slot → Nat}
    {pushes : List Push} (hmsg : g.msg = s.ingest.msg) (hreading : g.reading = s.ingest.reading) :
    Slots { s with ingest := g, resamp := resamp, nOut := nOut, pushes := pushes } := by
  have hslot : g.slot = s.ingest.slot := by rw [Ingest.slot, hmsg, Ingest.slot]
  refine ⟨?_, ?_, h.next, h.rotated, h.prev, h.lost⟩
  · intro i
    have hw : work g s.queue i = work s.ingest s.queue i := by rw [work, work, hslot, hreading]
    simpa only [State.Ok, hw] using h.ok i
  · simpa only [State.busy, hslot] using h.busy

theorem Slots.receive (h : Slots s) {m : Msg} {rest : List Msg} (hg : s.ingest = .idle)
    (hq : s.queue = m::rest) {g : Ingest} (hmsg : g.msg = some m) (hreading : g.reading = true) :
    Slots { s with queue := rest, ingest := g } := by
  have hslot : g.slot = some m.slot := by rw [Ingest.slot, hmsg, Option.map_some]
  have hidle : s.ingest.slot = none := by rw [hg]; rfl
  refine ⟨?_, ?_, h.next, h.rotated, h.prev, h.lost⟩
  · intro i
    have hw : work g rest i = work s.ingest s.queue i := by
      by_cases hi : i = m.slot
      · simp only [work, hslot, hreading, hi, hidle, hq, map_cons, mem_cons, true_or,
          if_true, reduceCtorEq, if_false]
      · simp [work, hslot, hidle, hq, hi, Ne.symm hi]
    simpa only [State.Ok, hw] using h.ok i
  · have hbusy := h.busy
    rw [State.busy, hidle, hq] at hbusy
    rwa [State.busy, hslot]

theorem Slots.last (h : Slots s) {m : Msg} {done : Nat} {tile : List Sample}
    (hg : s.ingest = .giveRaw m done tile) (hlast : m.complexTotal ≤ done+tile.length) :
    Slots { s with
      rawDone := update s.rawDone m.slot true
      lost := s.lost+giveLost s.rawDone m.slot
      ingest := .store m done tile } := by
  have hold := h.ok m.slot
  simp only [State.Ok, work, hg, Ingest.slot, Ingest.msg, Ingest.reading, Option.map_some,
    if_true] at hold
  refine ⟨?_, ?_, h.next, h.rotated, h.prev, ?_⟩
  · intro i
    by_cases hi : i = m.slot
    · subst hi
      simpa [State.Ok, work, Ingest.slot, Nat.not_lt.mpr hlast] using hold.convert
    · simpa [State.Ok, work, hg, Ingest.slot, hi, Ne.symm hi] using h.ok i
  · simpa [State.busy, hg, Ingest.slot] using h.busy
  · simp [giveLost, hold.of_reading.2, h.lost]

theorem Slots.ready (h : Slots s) {m : Msg} (hg : s.ingest = .ready m) :
    Slots { s with
      ready := update s.ready m.slot true
      lost := s.lost+giveLost s.ready m.slot
      ingest := .idle } := by
  have hold := h.ok m.slot
  simp only [State.Ok, work, hg, Ingest.slot, Ingest.msg, Ingest.reading, Option.map_some,
    if_true, Bool.false_eq_true, if_false] at hold
  have hbusy := h.busy
  simp only [State.busy, hg, Ingest.slot, Ingest.msg, Option.map_some, Option.toList_some,
    singleton_append, nodup_cons] at hbusy
  refine ⟨?_, ?_, h.next, h.rotated, h.prev, ?_⟩
  · intro i
    by_cases hi : i = m.slot
    · subst hi
      simpa [State.Ok, work, Ingest.slot, hbusy.1] using hold.finish
    · simpa [State.Ok, work, hg, Ingest.slot, hi, Ne.symm hi] using h.ok i
  · simpa [State.busy, Ingest.slot] using hbusy.2
  · simp [giveLost, hold.of_converted, h.lost]

theorem ingest_slots (h : Slots s) (hm : IngestMove s submit submitRest s') : Slots s' := by
  cases hm with
  | stay => exact h
  | receive m rest hg hq =>
    split_ifs with hzero
    · exact h.receive hg hq rfl rfl
    · exact h.receive hg hq rfl rfl
  | convert m done hg | push m n hg => exact h.proceed (by rw [hg]; rfl) (by rw [hg]; rfl)
  | last m done tile hg hlast => exact h.last hg hlast
  | more m done tile hg hmore =>
    exact h.proceed (by rw [hg]; rfl) (by rw [hg]; exact decide_eq_true (Nat.lt_of_not_le hmore))
  | store m done tile hg =>
    split_ifs with hmore
    · exact h.proceed (by rw [hg]; rfl) (by rw [hg]; exact (decide_eq_true hmore).symm)
    · exact h.proceed (by rw [hg]; rfl) (by rw [hg]; exact (decide_eq_false hmore).symm)
  | ready m hg => exact h.ready hg

end

theorem step_slots {s : State} (h : Slots s) (a : Action) : Slots (step s a) := by
  cases a with
  | usbWrite w | usb | capture active => exact ⟨h.ok, h.busy, h.next, h.rotated, h.prev, h.lost⟩
  | feed fault => exact feed_slots h (feedMove s fault)
  | timeout =>
    rw [step]
    split
    · exact h.wake ‹_›
    · exact h
  | ingest submit submitRest => exact ingest_slots h (ingestMove s submit submitRest)

theorem start_slots (buf : Nat → UInt8) : Slots (start buf) := by
  refine ⟨fun i => ?_, nodup_nil, ?_, ?_, trivial, rfl⟩
  · simpa [State.Ok, start, view, work, Ingest.slot] using SlotOk.free
  · intro c hc
    cases hc
  · intro _ hsome
    cases hsome

def State.feedBlocked (s : State) : Prop :=
  match s.feed with
  | .acquire => s.free s.nextAcquire = false
  | .waitRaw _ => ∃ p, s.prev = some p ∧ s.rawDone p = false
  | .take _ => ∃ p, s.prev = some p ∧ s.ready p = false
  | .waitData => s.notified = false
  | _ => False

def State.ingestBlocked (s : State) : Prop := s.ingest = .idle ∧ s.queue = []

theorem Slots.blocked {s : State} (h : Slots s) (hfeed : s.feedBlocked)
    (hingest : s.ingestBlocked) : s.feed = .waitData ∧ ∀ i, s.ready i = false := by
  obtain ⟨hg,hq⟩ := hingest
  have hwork (i : Slot) : work s.ingest s.queue i = .absent := by
    simp [work, hg, hq, Ingest.slot]
  rw [State.feedBlocked] at hfeed
  cases hf : s.feed with
  | acquire =>
    rw [hf] at hfeed
    have hold := h.ok s.nextAcquire
    simp only [State.Ok, view, hf, Feed.current, h.rotated (by rw [hf]; rfl), reduceCtorEq,
      if_false] at hold
    exact absurd (hold.of_free.1.symm.trans hfeed) (by decide)
  | waitRaw c =>
    rw [hf] at hfeed
    obtain ⟨p,hp,hd⟩ := hfeed
    obtain ⟨_,hprev⟩ := h.next c (by rw [hf]; rfl)
    have hpc : c ≠ p := fun he => hprev (by rw [hp, he])
    have hold := h.ok p
    simp only [State.Ok, view, hf, hp, Feed.current, Feed.prevView, Option.some.injEq, hpc,
      if_false, if_true, hwork] at hold
    exact absurd (hold.of_done.1.symm.trans hd) (by decide)
  | take a =>
    rw [hf] at hfeed
    obtain ⟨p,hp,hr⟩ := hfeed
    obtain ⟨_,hprev⟩ := h.next a.slot (by rw [hf]; rfl)
    have hpc : a.slot ≠ p := fun he => hprev (by rw [hp, he])
    have hold := h.ok p
    simp only [State.Ok, view, hf, hp, Feed.current, Feed.prevView, Option.some.injEq, hpc,
      if_false, if_true, hwork] at hold
    exact absurd (hold.of_done.2.symm.trans hr) (by decide)
  | waitData =>
    refine ⟨rfl, fun i => ?_⟩
    have hp : s.prev = none := by simpa [hf] using h.prev
    have hold := h.ok i
    simp only [State.Ok, view, hf, hp, Feed.current, reduceCtorEq, if_false] at hold
    exact hold.of_free.2
  | _ =>
    rw [hf] at hfeed
    exact hfeed.elim

theorem Slots.queue_le {s : State} (h : Slots s) : s.queue.length ≤ 2 := by
  have hle := h.busy.length_le_card
  rw [State.busy, length_append, length_map, Fintype.card_fin] at hle
  omega

end IridiumAcars.LiveFeed
