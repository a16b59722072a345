import IridiumAcars.LiveFeedBytes

/-! The tiles add up to the conversion of the span, whatever the USB side writes meanwhile. -/
namespace IridiumAcars.LiveFeed
open SignalBuffer UsbRing List Function

variable (xs : List UInt8)

theorem length_convert : (convert xs).length = xs.length/2 := by
  fun_induction convert xs with
  | case1 i q rest ih =>
    simp only [length_cons, ih]
    omega
  | case2 xs hshort =>
    cases xs with
    | nil => rfl
    | cons i rest =>
      cases rest with
      | nil => simp
      | cons q rest => exact (hshort i q rest rfl).elim

theorem drop_convert (d : Nat) :
    (convert xs).drop d = convert (xs.drop (2*d)) := by
  induction d generalizing xs with
  | zero => rfl
  | succ d ih =>
    have hd : 2*(d+1) = 2*d+1+1 := by omega
    match xs with
    | [] => rfl
    | [i] => simp [convert, hd]
    | i::q::rest =>
      rw [convert, drop_succ_cons, ih, hd, drop_succ_cons, drop_succ_cons]

theorem take_convert (d : Nat) :
    (convert xs).take d = convert (xs.take (2*d)) := by
  induction d generalizing xs with
  | zero => rfl
  | succ d ih =>
    have hd : 2*(d+1) = 2*d+1+1 := by omega
    match xs with
    | [] => rfl
    | [i] => simp [convert, hd]
    | i::q::rest =>
      rw [convert, take_succ_cons, ih, hd, take_succ_cons, take_succ_cons, convert]

theorem convert_append {xs : List UInt8} (hx : 2 ∣ xs.length) (ys : List UInt8) :
    convert (xs++ys) = convert xs++convert ys := by
  obtain ⟨d,hd⟩ := hx
  have htake := take_convert (xs++ys) d
  have hdrop := drop_convert (xs++ys) d
  rw [← hd, take_left] at htake
  rw [← hd, drop_left] at hdrop
  rw [← htake, ← hdrop, take_append_drop]

variable (buf : Nat → UInt8)

theorem readSpan_slice (off : Nat) {n k len : Nat} (h : k+len ≤ n) :
    readSpan buf (off+k) len = ((readSpan buf off n).drop k).take len := by
  apply ext_getElem
  · simp only [readSpan, length_map, length_range, length_take, length_drop]
    omega
  · intro j h1 h2
    simp [readSpan, Nat.add_assoc]

def State.pending (s : State) : List Msg :=
  (if s.ingest.reading then s.ingest.msg.toList else [])++s.queue

def Ingest.unpushed : Ingest → Option Slot
  | .ready _ => none
  | g => g.slot

def State.unpushed (s : State) : List Slot := s.ingest.unpushed.toList++s.queue.map Msg.slot

def expected (spans : List (List UInt8 × Bool)) : List Sample :=
  spans.flatMap fun x => if x.2 then [] else convert x.1

structure Reads (r : Ring) (rawBytes : Slot → UInt32) (load : Slot → List Sample) (m : Msg) :
    Prop where
  bytes : rawBytes m.slot = m.bytes
  holds : ∃ n, r.reader = .holding m.off n
  load : load m.slot = convert (span r m.bytes)

def IngestOk (resamp : Slot → List Sample) (nOut : Slot → Nat) (load : Slot → List Sample) :
    Ingest → Prop
  | .idle => True
  | .convert m done =>
    (resamp m.slot).take done = (load m.slot).take done ∧
      (load m.slot).length = m.complexTotal
  | .giveRaw m done tile | .store m done tile =>
    (resamp m.slot).take done++tile = (load m.slot).take (done+tile.length) ∧
      (load m.slot).length = m.complexTotal
  | .push m n => (resamp m.slot).take n = load m.slot
  | .ready m => (resamp m.slot).take (nOut m.slot) = load m.slot

structure Content (s : State) : Prop where
  pending : ∀ m ∈ s.pending, Reads s.ring s.rawBytes s.load m
  progress : IngestOk s.resamp s.nOut s.load s.ingest
  ready : ∀ i, s.ready i = true → (s.resamp i).take (s.nOut i) = s.load i
  handOver : ∀ p n a, s.feed = .handOver p n a → (s.resamp p).take n = s.load p
  small : ∀ i, (s.load i).length ≤ 8192
  pushed : s.pushes.flatMap Push.samples++s.unpushed.flatMap s.load = expected s.spans
  pushSmall : ∀ p ∈ s.pushes, p.samples.length ≤ 8192

theorem view_owed {f : Feed} {prev : Option Slot} {i : Slot} (h : view f prev i = .out true) :
    owed prev f = some i ∧ ∀ c p, f ≠ .consume c p := by
  have hafter {a : After} (hc : some a.slot = some i) (hv : a.view = .out true) :
      a.owed = some i := by
    cases a with
    | advance c => exact hc
    | drain c => cases hv
  rw [view] at h
  by_cases hc : f.current = some i
  · rw [if_pos hc] at h
    cases f with
    | take a | handOver p n a | release p a => exact ⟨hafter hc h, by rintro _ _ ⟨⟩⟩
    | _ => cases h
  · rw [if_neg hc] at h
    by_cases hp : prev = some i
    · rw [if_pos hp] at h
      cases f with
      | acquire | waitRaw c => exact ⟨hp, by rintro _ _ ⟨⟩⟩
      | _ => cases h
    · rw [if_neg hp] at h
      cases h

variable {m : Msg} {g : Ingest} {c : Slot} {lost : Nat}

section
variable {s s' : State} {fault : Bool}

theorem Slots.pending_work (h : Slots s) (hm : m ∈ s.pending) :
    work s.ingest s.queue m.slot = .reading := by
  rw [State.pending] at hm
  rcases mem_append.mp hm with hcur | hwait
  · split_ifs at hcur with hr
    · have hslot : s.ingest.slot = some m.slot := by
        rw [Ingest.slot, Option.mem_toList.mp hcur, Option.map_some]
      rw [work, if_pos hslot, if_pos hr]
    · cases hcur
  · have hmem : m.slot ∈ s.queue.map Msg.slot := mem_map_of_mem hwait
    have hother : s.ingest.slot ≠ some m.slot := by
      intro hsame
      have hbusy := h.busy
      rw [State.busy, hsame] at hbusy
      exact (nodup_cons.mp hbusy).1 hmem
    rw [work, if_neg hother, if_pos hmem]

theorem Slots.pending_owed (h : Slots s) (hm : m ∈ s.pending) :
    owed s.prev s.feed = some m.slot ∧ ∀ c p, s.feed ≠ .consume c p := by
  have hok := h.ok m.slot
  rw [State.Ok, h.pending_work hm] at hok
  exact view_owed hok.of_reading.1

theorem Slots.pending_nil (h : Slots s)
    (hf : owed s.prev s.feed = none ∨ ∃ c p, s.feed = .consume c p) : s.pending = [] := by
  apply eq_nil_iff_forall_not_mem.mpr
  intro m hm
  obtain ⟨howed,hne⟩ := h.pending_owed hm
  rcases hf with hnone | ⟨c,p,hc⟩
  · exact Option.some_ne_none _ (howed.symm.trans hnone)
  · exact hne c p hc

theorem Content.keep (h : Content s) {notified capture : Bool} {free rawDone ready : Slot → Bool}
    {nextAcquire : Slot} {prev : Option Slot} {f : Feed} {d : DspProcessor}
    (hready : ∀ i, ready i = true → s.ready i = true)
    (hhand : ∀ p n a, f = .handOver p n a → (s.resamp p).take n = s.load p) :
    Content { s with
      notified := notified, capture := capture, free := free, rawDone := rawDone,
      ready := ready, nextAcquire := nextAcquire, prev := prev, feed := f, dsp := d,
      lost := lost } :=
  ⟨h.pending, h.progress, fun i hi => h.ready i (hready i hi), hhand, h.small, h.pushed,
    h.pushSmall⟩

theorem Content.moveRing (h : Content s) (hnil : s.pending = []) {r : Ring} {f : Feed}
    (hhand : ∀ p n a, f ≠ .handOver p n a) : Content { s with ring := r, feed := f } := by
  refine ⟨?_, h.progress, h.ready, ?_, h.small, h.pushed, h.pushSmall⟩
  · intro m hm
    have hold : m ∈ s.pending := hm
    rw [hnil] at hold
    cases hold
  · intro p n a hf
    exact absurd hf (hhand p n a)

theorem IngestOk.frame {resamp resamp' load load' : Slot → List Sample} {nOut nOut' : Slot → Nat}
    (h : IngestOk resamp nOut load g)
    (hsame : ∀ i, g.slot = some i → resamp' i = resamp i ∧ nOut' i = nOut i ∧ load' i = load i) :
    IngestOk resamp' nOut' load' g := by
  cases g with
  | idle => trivial
  | push m n =>
    obtain ⟨hr,_,hl⟩ := hsame m.slot rfl
    simpa only [IngestOk, hr, hl] using h
  | _ m =>
    obtain ⟨hr,hn,hl⟩ := hsame m.slot rfl
    simpa only [IngestOk, hr, hn, hl] using h

theorem Ingest.slot_of_unpushed {i : Slot} (h : g.unpushed = some i) :
    g.slot = some i := by
  cases g with
  | ready m => cases h
  | _ => exact h

theorem mem_busy {i : Slot} (h : i ∈ s.unpushed) : i ∈ s.busy := by
  rcases mem_append.mp h with hcur | hwait
  · exact mem_append_left _
      (Option.mem_toList.mpr (Ingest.slot_of_unpushed (Option.mem_toList.mp hcur)))
  · exact mem_append_right _ hwait

theorem not_busy (hc : work s.ingest s.queue c = .absent) : c ∉ s.busy := by
  obtain ⟨hg,hq⟩ := work_absent hc
  intro hmem
  rcases mem_append.mp hmem with hcur | hwait
  · exact hg (Option.mem_toList.mp hcur)
  · exact hq hwait

theorem expected_snoc (spans : List (List UInt8 × Bool)) (bytes : List UInt8) (dropped : Bool) :
    expected (spans++[(bytes, dropped)]) =
      expected spans++(if dropped then [] else convert bytes) := by
  simp [expected]

theorem flatMap_update {slots : List Slot} (hc : c ∉ slots) (load : Slot → List Sample)
    (xs : List Sample) :
    slots.flatMap (update load c xs) = slots.flatMap load := by
  apply flatMap_congr
  intro i hi
  exact update_of_ne (fun he : i = c => hc (he ▸ hi)) _ _

theorem Slots.dispatched_absent (h : Slots s) {off n : UInt32}
    (hf : s.feed = .dispatch c off n) : work s.ingest s.queue c = .absent := by
  have hc := h.ok c
  simp only [State.Ok, view, hf, Feed.current, Feed.currentView, if_true] at hc
  exact hc.of_held.1

theorem Content.drop (h : Content s) (hs : Slots s) {off n : UInt32}
    (hf : s.feed = .dispatch c off n) : Content (s.dropSpan c off n) := by
  unfold State.dropSpan
  have habsent := hs.dispatched_absent hf
  have hbusy := not_busy habsent
  refine ⟨?_, ?_, ?_, nofun, ?_, ?_, h.pushSmall⟩
  · intro m hm
    have hold : m ∈ s.pending := hm
    rw [hs.pending_nil (.inl (by rw [hf]; rfl))] at hold
    cases hold
  · refine h.progress.frame fun i hi => ?_
    have hic : i ≠ c := fun he => (work_absent habsent).1 (he ▸ hi)
    exact ⟨rfl, update_of_ne hic _ _, update_of_ne hic _ _⟩
  · intro i hi
    by_cases hic : i = c
    · subst hic
      simp
    · simp only [update_of_ne hic] at hi ⊢
      exact h.ready i hi
  · intro i
    by_cases hic : i = c
    · subst hic
      simp
    · simp only [update_of_ne hic]
      exact h.small i
  · have hnot : c ∉ s.unpushed := fun hmem => hbusy (mem_busy hmem)
    simp only [expected_snoc, if_true, append_nil, ← h.pushed]
    exact congrArg _ (flatMap_update hnot s.load [])

theorem Content.send (h : Content s) (hs : Slots s) (hb : Bytes s) {off n : UInt32}
    (hf : s.feed = .dispatch c off n) : Content (s.sendSpan c off n) := by
  unfold State.sendSpan
  obtain ⟨hchunk,m,hp,hle⟩ := hb.next c off n hf
  have habsent := hs.dispatched_absent hf
  have hbusy := not_busy habsent
  have hlen := length_span hb.ring hp hle
  rw [hb.readSpan_next hf]
  refine ⟨?_, ?_, ?_, nofun, ?_, ?_, h.pushSmall⟩
  · intro m' hm'
    have hnil := hs.pending_nil (.inl (by rw [hf]; rfl))
    rw [State.pending] at hm' hnil
    simp only at hm'
    rw [← append_assoc, hnil] at hm'
    rw [mem_singleton.mp hm']
    exact ⟨update_self _ _ _, ⟨m, hp⟩, update_self _ _ _⟩
  · refine h.progress.frame fun i hi => ?_
    have hic : i ≠ c := fun he => (work_absent habsent).1 (he ▸ hi)
    exact ⟨rfl, rfl, update_of_ne hic _ _⟩
  · intro i hi
    have hic : i ≠ c := by
      rintro rfl
      have hok := hs.ok i
      simp only [State.Ok, view, hf, Feed.current, Feed.currentView, if_true] at hok
      exact absurd (hok.of_held.2.2.2.symm.trans hi) (by decide)
    simp only [update_of_ne hic]
    exact h.ready i hi
  · intro i
    by_cases hic : i = c
    · subst hic
      have := hchunk.le
      simp only [update_self, length_convert, hlen]
      omega
    · simp only [update_of_ne hic]
      exact h.small i
  · have hnot : c ∉ s.unpushed := fun hmem => hbusy (mem_busy hmem)
    have hold := flatMap_update hnot s.load (convert (span s.ring n))
    have hunpushed : s.ingest.unpushed.toList++(s.queue++[Msg.mk c off n]).map Msg.slot =
        s.unpushed++[c] := by
      rw [State.unpushed, map_append, append_assoc]
      rfl
    simp only [State.unpushed, expected_snoc]
    rw [hunpushed, flatMap_append, hold, ← h.pushed]
    simp

theorem feed_content (h : Content s) (hs : Slots s) (hb : Bytes s) (hm : FeedMove s fault s') :
    Content s' := by
  cases hm with
  | stay => exact h
  | acquire hf _ | first c hf hp | takeRaw c p hf hp _ =>
    exact h.keep (fun _ hi => hi) (by rintro _ _ _ ⟨⟩)
  | consume c p hf => exact h.moveRing (hs.pending_nil (.inr ⟨c, p, hf⟩)) (by rintro _ _ _ ⟨⟩)
  | span c off n hf hr | empty c hf hr =>
    exact h.moveRing (hs.pending_nil (.inl (by rw [hf]; rfl))) (by rintro _ _ _ ⟨⟩)
  | drop c off n hf => exact h.drop hs hf
  | send c off n hf => exact h.send hs hb hf
  | takeReady a p hf hp hr =>
    refine h.keep (fun i hi => ?_) fun p' n a' hf' => ?_
    · by_cases hip : i = p
      · rwa [hip]
      · rwa [update_of_ne hip] at hi
    · cases hf'
      exact h.ready p hr
  | skip a hf hp | release p a hf => cases a <;> exact h.keep (fun _ hi => hi) (by rintro _ _ _ ⟨⟩)
  | handOver p n a hf | giveBack c hf | wake hf _ =>
    exact h.keep (fun _ hi => hi) (by rintro _ _ _ ⟨⟩)

end

section
variable {s s' : State} {submit submitRest : Bool}

theorem Reads.tile (h : Reads s.ring s.rawBytes s.load m) (hb : Bytes s)
    (howed : owed s.prev s.feed = some m.slot) (done : Nat) :
    (s.load m.slot).take done++convertTile s.ring m done =
        (s.load m.slot).take (done+(convertTile s.ring m done).length) := by
  obtain ⟨hchunk,off,n,hp,hle⟩ := hb.owed m.slot howed
  obtain ⟨n',hp'⟩ := h.holds
  rw [hp'] at hp
  cases hp
  rw [h.bytes] at hchunk hle
  have hlen := length_span hb.ring hp' hle
  have hspan := hb.ring.reader
  rw [hp'] at hspan
  have hread := SpanOk.readSpan hb.ring.ring hspan hle hchunk.pos
  have hload : (s.load m.slot).length = m.complexTotal := by
    rw [h.load, length_convert, hlen, Msg.complexTotal]
  generalize hk : min (m.complexTotal-done) ingestTileComplex = k
  have hkle : k ≤ m.complexTotal-done := hk ▸ Nat.min_le_left _ _
  have htile : convertTile s.ring m done = ((s.load m.slot).drop done).take k := by
    rw [convertTile, hk, h.load]
    by_cases hdone : done ≤ m.complexTotal
    · have hfit : 2*done+2*k ≤ m.bytes.toNat := by
        rw [Msg.complexTotal] at hdone hkle
        omega
      rw [readSpan_slice _ _ hfit, hread, drop_convert, take_convert]
      rfl
    · have hzero : k = 0 := by omega
      rw [hzero]
      rfl
  have hlast : (convertTile s.ring m done).length = k := by
    rw [htile, length_take, length_drop]
    omega
  rw [hlast, htile, take_add]

theorem Content.receive (h : Content s) (hs : Slots s) (hb : Bytes s) {rest : List Msg}
    (hg : s.ingest = .idle) (hq : s.queue = m::rest)
    (hg' : g = .giveRaw m 0 [] ∨ g = .convert m 0) :
    Content { s with queue := rest, ingest := g } := by
  have hmem : m ∈ s.pending := by simp [State.pending, hq]
  obtain ⟨howed,_⟩ := hs.pending_owed hmem
  have hreads := h.pending m hmem
  obtain ⟨hchunk,off,n,hp,hle⟩ := hb.owed m.slot howed
  rw [hreads.bytes] at hle
  have hload : (s.load m.slot).length = m.complexTotal := by
    rw [hreads.load, length_convert, length_span hb.ring hp hle, Msg.complexTotal]
  have hmsg : g.msg = some m ∧ g.reading = true ∧ g.unpushed = some m.slot := by
    rcases hg' with rfl | rfl <;> exact ⟨rfl, rfl, rfl⟩
  obtain ⟨hmsg,hreading,hunpushed⟩ := hmsg
  refine ⟨?_, ?_, h.ready, h.handOver, h.small, ?_, h.pushSmall⟩
  · intro m' hm'
    have hold : m' ∈ s.pending := by
      rw [State.pending] at hm' ⊢
      simp only [hmsg, hreading, if_true] at hm'
      simpa [hg, hq] using hm'
    exact h.pending m' hold
  · rcases hg' with rfl | rfl
    · exact ⟨rfl, hload⟩
    · exact ⟨rfl, hload⟩
  · have hpushed := h.pushed
    simp only [State.unpushed, hg, hq] at hpushed
    simp only [State.unpushed, hunpushed]
    exact hpushed

theorem Content.proceed (h : Content s) {rawDone : Slot → Bool}
    (hmsg : g.msg = s.ingest.msg) (hreading : g.reading = true → s.ingest.reading = true)
    (hunpushed : g.unpushed = s.ingest.unpushed) (hok : IngestOk s.resamp s.nOut s.load g) :
    Content { s with rawDone := rawDone, lost := lost, ingest := g } := by
  refine ⟨?_, hok, h.ready, h.handOver, h.small, ?_, h.pushSmall⟩
  · intro m hm
    have hold : m ∈ s.pending := by
      rw [State.pending] at hm ⊢
      simp only [hmsg] at hm
      rcases mem_append.mp hm with hcur | hwait
      · split_ifs at hcur with hr
        · rw [if_pos (hreading hr)]
          exact mem_append_left _ hcur
        · cases hcur
      · exact mem_append_right _ hwait
    exact h.pending m hold
  · have hpushed := h.pushed
    simp only [State.unpushed] at hpushed
    simp only [State.unpushed, hunpushed]
    exact hpushed

theorem SlotOk.of_busy {v : View} {w : Work} {f d r : Bool} (h : SlotOk v w f d r)
    (hw : w ≠ .absent) : (∃ o, v = .out o) ∧ r = false := by
  cases h with
  | reading => exact ⟨⟨true, rfl⟩, rfl⟩
  | converted => exact ⟨⟨_, rfl⟩, rfl⟩
  | _ => exact absurd rfl hw

theorem Slots.at_ingest (h : Slots s) {i : Slot} (hi : s.ingest.slot = some i) :
    (∃ o, view s.feed s.prev i = .out o) ∧ s.ready i = false := by
  refine (h.ok i).of_busy ?_
  rw [work, if_pos hi]
  split <;> rintro ⟨⟩

theorem Slots.ready_ne (h : Slots s) {i k : Slot} (hk : s.ingest.slot = some k)
    (hi : s.ready i = true) : i ≠ k := by
  rintro rfl
  exact absurd ((h.at_ingest hk).2.symm.trans hi) (by decide)

theorem Slots.handOver_ne (h : Slots s) {i p : Slot} {n : Nat} {a : After}
    (hi : s.ingest.slot = some i) (hf : s.feed = .handOver p n a) : p ≠ i := by
  rintro rfl
  obtain ⟨⟨o,ho⟩,_⟩ := h.at_ingest hi
  have hp : s.prev = some p := by simpa [hf] using h.prev
  have hc := (h.next a.slot (by rw [hf]; rfl)).2
  have hne : a.slot ≠ p := fun he => hc (by rw [hp, he])
  simp [view, hf, hp, hne] at ho

theorem Content.store (h : Content s) (hs : Slots s) {done : Nat} {tile : List Sample}
    (hg : s.ingest = .store m done tile)
    (hg' : done+tile.length < m.complexTotal ∧ g = .convert m (done+tile.length) ∨
      m.complexTotal ≤ done+tile.length ∧ g = .push m (done+tile.length)) :
    Content { s with
      resamp := update s.resamp m.slot ((s.resamp m.slot).take done++tile)
      ingest := g } := by
  have hslot : s.ingest.slot = some m.slot := by rw [hg]; rfl
  obtain ⟨hnew,hload⟩ : IngestOk s.resamp s.nOut s.load (.store m done tile) := hg ▸ h.progress
  have hfull : ((s.resamp m.slot).take done++tile).take (done+tile.length) =
      (s.resamp m.slot).take done++tile := by
    apply take_of_length_le
    rw [length_append, length_take]
    omega
  refine ⟨?_, ?_, ?_, ?_, h.small, ?_, h.pushSmall⟩
  · intro m' hm'
    have hold : m' ∈ s.pending := by
      rcases hg' with ⟨hmore,rfl⟩ | ⟨_,rfl⟩
      · simpa [State.pending, hg, hmore] using hm'
      · exact mem_append_right _ (by simpa [State.pending] using hm')
    exact h.pending m' hold
  · rcases hg' with ⟨_,rfl⟩ | ⟨hlast,rfl⟩
    · refine ⟨?_, hload⟩
      simp only [update_self, hfull]
      exact hnew
    · have hall : (s.load m.slot).take (done+tile.length) = s.load m.slot :=
        take_of_length_le (by omega)
      simp only [IngestOk, update_self, hfull]
      exact hnew.trans hall
  · intro i hi
    simp only [update_of_ne (hs.ready_ne hslot hi)]
    exact h.ready i hi
  · intro p n a hf
    simp only [update_of_ne (hs.handOver_ne hslot hf)]
    exact h.handOver p n a hf
  · have hpushed := h.pushed
    simp only [State.unpushed, hg] at hpushed
    rcases hg' with ⟨_,rfl⟩ | ⟨_,rfl⟩
    · exact hpushed
    · exact hpushed

theorem Content.push (h : Content s) (hs : Slots s) {n : Nat}
    (hg : s.ingest = .push m n) {submit submitRest : Bool} :
    Content { s with
      nOut := update s.nOut m.slot n
      pushes := s.pushes++[⟨(s.resamp m.slot).take n, submit, submitRest⟩]
      ingest := .ready m } := by
  have hslot : s.ingest.slot = some m.slot := by rw [hg]; rfl
  have hload : (s.resamp m.slot).take n = s.load m.slot := by
    have hok := h.progress
    rwa [hg] at hok
  refine ⟨?_, ?_, ?_, h.handOver, h.small, ?_, ?_⟩
  · intro m' hm'
    have hold : m' ∈ s.pending := mem_append_right _ (by simpa [State.pending] using hm')
    exact h.pending m' hold
  · simp only [IngestOk]
    rw [update_self, hload]
  · intro i hi
    simp only [update_of_ne (hs.ready_ne hslot hi)]
    exact h.ready i hi
  · have hpushed := h.pushed
    simp only [State.unpushed, hg, Ingest.unpushed, Ingest.slot, Ingest.msg, Option.map_some,
      Option.toList_some, flatMap_append, flatMap_cons, flatMap_nil,
      append_nil] at hpushed
    simp only [State.unpushed, Ingest.unpushed, flatMap_append, flatMap_cons,
      flatMap_nil, append_nil, Option.toList_none, nil_append, hload,
      append_assoc]
    exact hpushed
  · intro p hp
    rcases mem_append.mp hp with hold | hnew
    · exact h.pushSmall p hold
    · rw [mem_singleton.mp hnew, hload]
      exact h.small m.slot

theorem Content.finish (h : Content s) (hg : s.ingest = .ready m) :
    Content { s with
      ready := update s.ready m.slot true
      lost := lost
      ingest := .idle } := by
  have hload : (s.resamp m.slot).take (s.nOut m.slot) = s.load m.slot := by
    have hok := h.progress
    rwa [hg] at hok
  refine ⟨?_, trivial, ?_, h.handOver, h.small, ?_, h.pushSmall⟩
  · intro m' hm'
    have hold : m' ∈ s.pending := mem_append_right _ (by simpa [State.pending] using hm')
    exact h.pending m' hold
  · intro i hi
    by_cases him : i = m.slot
    · rwa [him]
    · simp only [update_of_ne him] at hi
      exact h.ready i hi
  · have hpushed := h.pushed
    simp only [State.unpushed, hg] at hpushed
    exact hpushed

theorem ingest_content (h : Content s) (hs : Slots s) (hb : Bytes s)
    (hm : IngestMove s submit submitRest s') : Content s' := by
  have hok := h.progress
  cases hm with
  | stay => exact h
  | receive m rest hg hq =>
    refine h.receive hs hb hg hq ?_
    by_cases hzero : m.complexTotal = 0
    · exact .inl (if_pos hzero)
    · exact .inr (if_neg hzero)
  | convert m done hg =>
    have hmem : m ∈ s.pending := by simp [State.pending, hg]
    rw [hg] at hok
    refine h.proceed (by rw [hg]; rfl) (fun _ => by rw [hg]; rfl) (by rw [hg]; rfl) ⟨?_, hok.2⟩
    rw [hok.1]
    exact (h.pending m hmem).tile hb (hs.pending_owed hmem).1 done
  | last m done tile hg hlast | more m done tile hg hmore =>
    rw [hg] at hok
    exact h.proceed (by rw [hg]; rfl) (fun _ => by rw [hg]; rfl) (by rw [hg]; rfl) hok
  | store m done tile hg =>
    refine h.store hs hg ?_
    by_cases hmore : done+tile.length < m.complexTotal
    · exact .inl ⟨hmore, if_pos hmore⟩
    · exact .inr ⟨Nat.le_of_not_lt hmore, if_neg hmore⟩
  | push m n hg => exact h.push hs hg
  | ready m hg => exact h.finish hg

end

theorem Content.grow {s : State} (h : Content s) (hs : Slots s) (hb : Bytes s) {r : Ring}
    {notified : Bool} (hx : Extends s.ring r) :
    Content { s with ring := r, notified := notified } := by
  refine ⟨?_, h.progress, h.ready, h.handOver, h.small, h.pushed, h.pushSmall⟩
  intro m hm
  have hold : m ∈ s.pending := hm
  obtain ⟨hbytes,hholds,hload⟩ := h.pending m hold
  obtain ⟨_,off,n,hp,hle⟩ := hb.owed m.slot (hs.pending_owed hold).1
  rw [hbytes] at hle
  refine ⟨hbytes, ?_, ?_⟩
  · rwa [hx.reader]
  · rwa [hx.span hb.ring hp hle]

theorem step_content {s : State} (h : Content s) (hs : Slots s) (hb : Bytes s) (a : Action) :
    Content (step s a) := by
  cases a with
  | usbWrite w => exact h.grow hs hb (write_extends _ _)
  | usb => exact h.grow hs hb (writer_extends _)
  | feed fault => exact feed_content h hs hb (feedMove s fault)
  | timeout =>
    rw [step]
    split
    · exact h.keep (fun _ hi => hi) (by rintro _ _ _ ⟨⟩)
    · exact h
  | ingest submit submitRest => exact ingest_content h hs hb (ingestMove s submit submitRest)
  | capture active => exact h.keep (fun _ hi => hi) h.handOver

theorem start_content : Content (start buf) :=
  ⟨nofun, trivial, nofun, nofun, fun _ => Nat.zero_le _, rfl, nofun⟩

structure Good (s : State) : Prop where
  slots : Slots s
  bytes : Bytes s
  content : Content s

theorem step_good {s : State} (h : Good s) (a : Action) : Good (step s a) :=
  ⟨step_slots h.slots a, step_bytes h.bytes h.slots a, step_content h.content h.slots h.bytes a⟩

theorem run_good (acts : List Action) : Good (run buf acts) :=
  List.foldlRecOn acts step ⟨start_slots buf, start_bytes buf, start_content buf⟩
    fun _ hs a _ => step_good hs a

end IridiumAcars.LiveFeed
