import IridiumAcars.LiveFeedSlots
import IridiumAcars.UsbRingFifo
import Mathlib.Algebra.BigOperators.Ring.List

/-! Every dispatched span is the oldest outstanding part of the stream, of even length. -/
namespace IridiumAcars.LiveFeed
open UsbRing List

def Calm : Reader → Prop
  | .idle | .holding _ _ => True
  | _ => False

section
variable {r : Ring}

theorem peek_inv (h : Inv 0 22 r) : Inv 0 22 (usbringPeek r) :=
  step_inv (by decide) (step_inv (by decide) (step_inv (by decide) h _) _) _

theorem consume_inv (h : Inv 0 22 r) (n : UInt32) : Inv 0 22 (usbringConsume r n) :=
  step_inv (by decide) (step_inv (by decide) (step_inv (by decide) h _) _) _

theorem usbringPeek_eq (hr : Calm r.reader) {off n : UInt32}
    (hs : usbringPeekContig r.head r.tail streamRingbufBytes = (off, n)) :
    usbringPeek r =
      if n = 0 then { r with reader := .idle } else { r with reader := .holding off n } := by
  cases hp : r.reader with
  | idle | holding off n => simp [usbringPeek, UsbRing.step, usbringReadStep, hp, hs]
  | _ =>
    rw [hp] at hr
    exact hr.elim

theorem peek_spec (h : Inv 0 22 r) (hr : Calm r.reader) :
    (usbringPeek r = { r with reader := .idle } ∧ r.accepted.length = r.consumed.length) ∨
      ∃ off n, usbringPeek r = { r with reader := .holding off n } ∧ n ≠ 0 ∧
        n.toNat = min (r.accepted.length-r.consumed.length) (2^22-r.consumed.length%2^22) := by
  have hle := h.ring.le
  have hlt := Nat.mod_lt r.consumed.length (Nat.two_pow_pos 22)
  obtain ⟨_,hn⟩ := peekContig_eq (k := 22) (by decide) hle h.ring.room
  rw [← h.ring.head_eq, ← h.ring.tail_eq] at hn
  rcases hs : usbringPeekContig r.head r.tail (UInt32.ofNat (2^22)) with ⟨off,n⟩
  rw [hs] at hn
  simp only [headPos, UInt32.toNat_zero, Nat.zero_add] at hn hle
  rw [usbringPeek_eq hr hs]
  split_ifs with hz
  · rw [hz, UInt32.toNat_zero] at hn
    exact .inl ⟨rfl, by omega⟩
  · exact .inr ⟨off, n, rfl, hz, hn⟩

def span (r : Ring) (n : UInt32) : List UInt8 := (r.accepted.drop r.consumed.length).take n.toNat

theorem consume_spec (h : Inv 0 22 r) {off n m : UInt32} (hp : r.reader = .holding off n)
    (hm : m ≠ 0) (hle : m ≤ n) :
    usbringConsume r m = { r with
      tail := usbringNextTail r.tail m
      reader := .holding (off+m) (n-m)
      consumed := r.consumed++span r m } := by
  have hspan := h.reader
  rw [hp] at hspan
  have hread := SpanOk.readSpan h.ring hspan hle hm
  have hok : ¬(m = 0 ∨ n < m) := not_or.mpr ⟨hm, UInt32.not_lt.mpr hle⟩
  simp only [usbringConsume, UsbRing.step, usbringReadStep, hp, if_neg hok, hread, span]

theorem length_span (h : Inv 0 22 r) {off n m : UInt32} (hp : r.reader = .holding off n)
    (hle : m ≤ n) : (span r m).length = m.toNat := by
  have hspan := h.reader
  rw [hp] at hspan
  have hlen := hspan.1
  have hmn := UInt32.le_iff_toNat_le.mp hle
  rw [headPos, headPos] at hlen
  rw [span, length_take, length_drop]
  omega

def returned (r : Ring) : List UInt8 :=
  (r.returns.filter fun w => w.2).flatMap fun w => w.1.data

def writing : Writer → List UInt8
  | .idle => []
  | .loadHead b | .loadTail b _ | .copy b _ _ | .copyRest b _ _ | .storeHead b _
  | .returning b _ => b.data

def EvenWrites (r : Ring) : Prop :=
  (∀ w ∈ r.returns, 2 ∣ w.1.data.length) ∧ 2 ∣ (writing r.writer).length

theorem returned_accepted (r : Ring) : returned r <+: r.accepted := prefix_append _ _

theorem EvenWrites.accepted (h : EvenWrites r) : 2 ∣ r.accepted.length := by
  have hreturned : 2 ∣ (returned r).length := by
    rw [returned, length_flatMap]
    refine dvd_sum fun n hn => ?_
    obtain ⟨w,hw,rfl⟩ := mem_map.mp hn
    exact h.1 w (mem_of_mem_filter hw)
  have hlast := h.2
  rw [Ring.accepted, length_append]
  refine Nat.dvd_add hreturned ?_
  split
  · rwa [‹r.writer = _›] at hlast
  · exact Nat.dvd_zero 2

structure Extends (r r' : Ring) : Prop where
  inv : Inv 0 22 r → Inv 0 22 r'
  reader : r'.reader = r.reader
  consumed : r'.consumed = r.consumed
  accepted : r.accepted <+: r'.accepted

theorem write_extends (r : Ring) (b : Block) :
    Extends r (UsbRing.step streamRingbufBytes r (.write b)) := by
  refine ⟨fun h => step_inv (by decide) h _, ?_, ?_, ?_⟩ <;>
    cases hw : r.writer <;> simp [UsbRing.step, hw, Ring.accepted]

theorem writer_extends (r : Ring) :
    Extends r (UsbRing.step streamRingbufBytes r .writer) :=
  ⟨fun h => step_inv (by decide) h _, writeStep_reader _ r, writeStep_consumed _ r,
    writeStep_accepted _ r⟩

theorem Extends.span {r' : Ring} (h : Extends r r') (hi : Inv 0 22 r) {off n m : UInt32}
    (hp : r.reader = .holding off n) (hle : m ≤ n) : span r' m = LiveFeed.span r m := by
  have hlen := length_span hi hp hle
  obtain ⟨rest,hrest⟩ := h.accepted
  rw [LiveFeed.span, length_take, length_drop] at hlen
  rw [LiveFeed.span, LiveFeed.span, h.consumed, ← hrest, drop_append, take_append_of_le_length]
  rw [length_drop]
  omega

theorem EvenWrites.write (h : EvenWrites r) (w : UsbWrite) :
    EvenWrites (UsbRing.step streamRingbufBytes r (.write w.block)) := by
  cases hw : r.writer with
  | idle =>
    simp only [UsbRing.step, hw]
    exact ⟨h.1, w.even⟩
  | _ => simpa [UsbRing.step, hw] using h

theorem EvenWrites.writer (h : EvenWrites r) :
    EvenWrites (UsbRing.step streamRingbufBytes r .writer) := by
  obtain ⟨hret,hwr⟩ := h
  have keep {w : Writer} (hw : writing w = writing r.writer) {buf : Nat → UInt8} {head : UInt32} :
      EvenWrites { r with buf := buf, head := head, writer := w } :=
    ⟨hret, by simpa only [hw] using hwr⟩
  cases hw : r.writer with
  | idle => simpa only [UsbRing.step, usbringWriteStep, hw] using ⟨hret, hwr⟩
  | loadHead b | loadTail b head =>
    simp only [UsbRing.step, usbringWriteStep, hw]
    split <;> exact keep (by rw [hw]; rfl)
  | copy b head first | copyRest b head first | storeHead b head =>
    simp only [UsbRing.step, usbringWriteStep, hw]
    exact keep (by rw [hw]; rfl)
  | returning b ok =>
    rw [hw] at hwr
    simp only [UsbRing.step, usbringWriteStep, hw]
    refine ⟨?_, Nat.dvd_zero 2⟩
    intro w hmem
    rcases mem_append.mp hmem with hold | hnew
    · exact hret w hold
    · rwa [mem_singleton.mp hnew]

end

def After.owed : After → Option Slot
  | .advance c => some c
  | .drain _ => none

def owed (prev : Option Slot) : Feed → Option Slot
  | .acquire | .waitRaw _ => prev
  | .consume _ p => some p
  | .take a | .handOver _ _ a | .release _ a => a.owed
  | _ => none

def outstanding (r : Ring) (rawBytes : Slot → UInt32) : Option Slot → List UInt8
  | none => []
  | some i => span r (rawBytes i)

structure Chunk (n : UInt32) : Prop where
  pos : n ≠ 0
  even : 2 ∣ n.toNat
  le : n.toNat ≤ 16384

def After.drained : After → Bool
  | .advance _ => false
  | .drain _ => true

def Feed.drained : Feed → Bool
  | .take a | .handOver _ _ a | .release _ a => a.drained
  | .releaseSlot _ | .waitData => true
  | _ => false

structure Bytes (s : State) : Prop where
  ring : Inv 0 22 s.ring
  calm : Calm s.ring.reader
  writes : EvenWrites s.ring
  even : 2 ∣ s.ring.consumed.length
  owed : ∀ i, owed s.prev s.feed = some i →
    Chunk (s.rawBytes i) ∧ ∃ off n, s.ring.reader = .holding off n ∧ s.rawBytes i ≤ n
  next : ∀ c off n, s.feed = .dispatch c off n →
    Chunk n ∧ ∃ m, s.ring.reader = .holding off m ∧ n ≤ m
  spans : s.spans.flatMap Prod.fst =
    s.ring.consumed++outstanding s.ring s.rawBytes (LiveFeed.owed s.prev s.feed)
  chunks : ∀ x ∈ s.spans, 2 ∣ x.1.length ∧ x.1.length ≤ 16384
  notified : s.feed.drained = true →
    (returned s.ring).length ≤ s.ring.consumed.length ∨ s.notified = true

section
variable {s s' : State} {fault : Bool}

theorem Bytes.keep (h : Bytes s) (hring : s'.ring = s.ring) (hraw : s'.rawBytes = s.rawBytes)
    (hspans : s'.spans = s.spans)
    (howed : LiveFeed.owed s'.prev s'.feed = LiveFeed.owed s.prev s.feed)
    (hfeed : ∀ c off n, s'.feed = .dispatch c off n → s.feed = .dispatch c off n)
    (hnotified : s'.feed.drained = true → s.feed.drained = true ∧ s'.notified = s.notified) :
    Bytes s' := by
  refine ⟨?_, ?_, ?_, ?_, ?_, ?_, ?_, ?_, ?_⟩
  · rw [hring]
    exact h.ring
  · rw [hring]
    exact h.calm
  · rw [hring]
    exact h.writes
  · rw [hring]
    exact h.even
  · rw [hring, hraw, howed]
    exact h.owed
  · intro c off n hf
    rw [hring]
    exact h.next c off n (hfeed c off n hf)
  · rw [hring, hraw, hspans, howed]
    exact h.spans
  · rw [hspans]
    exact h.chunks
  · intro hd
    obtain ⟨hold,hsame⟩ := hnotified hd
    rw [hring, hsame]
    exact h.notified hold

theorem Bytes.consume (h : Bytes s) {c p : Slot} (hf : s.feed = .consume c p) :
    Bytes { s with ring := usbringConsume s.ring (s.rawBytes p), feed := .read c } := by
  obtain ⟨hchunk,off,n,hp,hle⟩ := h.owed p (by rw [hf]; rfl)
  have hinv := consume_inv h.ring (s.rawBytes p)
  have hlen := length_span h.ring hp hle
  rw [consume_spec h.ring hp hchunk.pos hle] at hinv ⊢
  refine ⟨hinv, trivial, h.writes, ?_, ?_, ?_, ?_, h.chunks, ?_⟩
  · rw [length_append, hlen]
    exact Nat.dvd_add h.even hchunk.even
  · intro i hi
    cases hi
  · intro c' off' n' hf'
    cases hf'
  · have hspans := h.spans
    rw [hf] at hspans
    simpa [LiveFeed.owed, outstanding] using hspans
  · intro hd
    cases hd

theorem even_contig {a d : Nat} (ha : 2 ∣ a) (hd : 2 ∣ d) :
    2 ∣ min (min (a-d) (2^22-d%2^22)) 16384 := by
  omega

theorem Bytes.read (h : Bytes s) {c : Slot} {off n : UInt32} (hf : s.feed = .read c)
    (hr : (usbringPeek s.ring).reader = .holding off n) :
    Bytes { s with
      ring := usbringPeek s.ring
      feed := .dispatch c off (if n < outBlockSize then n else outBlockSize) } := by
  have hinv := peek_inv h.ring
  rcases peek_spec h.ring h.calm with ⟨hidle,_⟩ | ⟨off',n',hpeek,hpos,hn⟩
  · rw [hidle] at hr
    cases hr
  · rw [hpeek] at hinv hr ⊢
    cases hr
    have hblock : outBlockSize.toNat = 16384 := rfl
    have hmin := toNat_if_lt n outBlockSize
    rw [hn, hblock] at hmin
    refine ⟨hinv, trivial, h.writes, h.even, ?_, ?_, ?_, h.chunks, ?_⟩
    · intro i hi
      cases hi
    · intro c' off' n' hf'
      cases hf'
      refine ⟨⟨?_, ?_, ?_⟩, n, rfl, ?_⟩
      · split
        · exact hpos
        · decide
      · rw [hmin]
        exact even_contig h.writes.accepted h.even
      · rw [hmin]
        exact Nat.min_le_right _ _
      · rw [UInt32.le_iff_toNat_le, hmin, hn]
        exact Nat.min_le_left _ _
    · have hspans := h.spans
      rwa [hf] at hspans
    · intro hd
      cases hd

theorem Bytes.empty (h : Bytes s) {c : Slot} (hf : s.feed = .read c)
    (hr : ∀ off n, (usbringPeek s.ring).reader ≠ .holding off n) :
    Bytes { s with ring := usbringPeek s.ring, feed := .take (.drain c) } := by
  have hinv := peek_inv h.ring
  rcases peek_spec h.ring h.calm with ⟨hidle,hlen⟩ | ⟨off,n,hpeek,_⟩
  · rw [hidle] at hinv ⊢
    refine ⟨hinv, trivial, h.writes, h.even, ?_, ?_, ?_, h.chunks, ?_⟩
    · intro i hi
      cases hi
    · intro c' off' n' hf'
      cases hf'
    · have hspans := h.spans
      rwa [hf] at hspans
    · intro _
      exact .inl ((returned_accepted s.ring).length_le.trans hlen.le)
  · rw [hpeek] at hr
    exact absurd rfl (hr off n)

theorem Bytes.readSpan_next (h : Bytes s) {c : Slot} {off n : UInt32}
    (hf : s.feed = .dispatch c off n) :
    readSpan s.ring.buf off.toNat n.toNat = span s.ring n := by
  obtain ⟨hchunk,m,hp,hle⟩ := h.next c off n hf
  have hspan := h.ring.reader
  rw [hp] at hspan
  exact SpanOk.readSpan h.ring.ring hspan hle hchunk.pos

theorem Bytes.dispatch (h : Bytes s) {c : Slot} {off n : UInt32} (hf : s.feed = .dispatch c off n)
    (hring : s'.ring = s.ring) (hraw : s'.rawBytes = Function.update s.rawBytes c n)
    {dropped : Bool}
    (hspans : s'.spans = s.spans++[(readSpan s.ring.buf off.toNat n.toNat, dropped)])
    (hfeed : s'.feed = .take (.advance c)) : Bytes s' := by
  obtain ⟨hchunk,m,hp,hle⟩ := h.next c off n hf
  have hread := h.readSpan_next hf
  have hlen := length_span h.ring hp hle
  have hself : s'.rawBytes c = n := by rw [hraw, Function.update_self]
  have howed : LiveFeed.owed s'.prev s'.feed = some c := by rw [hfeed]; rfl
  refine ⟨?_, ?_, ?_, ?_, ?_, ?_, ?_, ?_, ?_⟩
  · rw [hring]
    exact h.ring
  · rw [hring]
    exact h.calm
  · rw [hring]
    exact h.writes
  · rw [hring]
    exact h.even
  · intro i hi
    cases Option.some.inj (howed.symm.trans hi)
    rw [hself, hring]
    exact ⟨hchunk, off, m, hp, hle⟩
  · intro c' off' n' hf'
    rw [hfeed] at hf'
    cases hf'
  · have hold := h.spans
    rw [hf] at hold
    simp only [LiveFeed.owed, outstanding, append_nil] at hold
    rw [hspans, howed, hring, outstanding, hself, flatMap_append, hold, hread]
    simp
  · intro x hx
    rw [hspans] at hx
    rcases mem_append.mp hx with hold | hnew
    · exact h.chunks x hold
    · rw [mem_singleton.mp hnew, hread]
      exact ⟨hlen ▸ hchunk.even, hlen ▸ hchunk.le⟩
  · intro hd
    rw [hfeed] at hd
    cases hd

theorem feed_bytes (h : Bytes s) (hs : Slots s) (hm : FeedMove s fault s') : Bytes s' := by
  cases hm with
  | stay => exact h
  | acquire hf _ =>
    exact h.keep rfl rfl rfl (by rw [hf]; rfl) (by rintro _ _ _ ⟨⟩) (by rintro ⟨⟩)
  | first c hf hp | takeRaw c p hf hp _ =>
    exact h.keep rfl rfl rfl (by rw [hf, hp]; rfl) (by rintro _ _ _ ⟨⟩) (by rintro ⟨⟩)
  | consume c p hf => exact h.consume hf
  | span c off n hf hr => exact h.read hf hr
  | empty c hf hr => exact h.empty hf hr
  | drop c off n hf | send c off n hf => exact h.dispatch hf rfl rfl rfl rfl
  | skip a hf hp | release p a hf =>
    cases a with
    | advance c =>
      exact h.keep rfl rfl rfl (by rw [hf]; rfl) (by rintro _ _ _ ⟨⟩) (by rintro ⟨⟩)
    | drain c =>
      exact h.keep rfl rfl rfl (by rw [hf]; rfl) (by rintro _ _ _ ⟨⟩) fun _ =>
        ⟨by rw [hf]; rfl, rfl⟩
  | takeReady a p hf hp _ | handOver p n a hf =>
    exact h.keep rfl rfl rfl (by rw [hf]; rfl) (by rintro _ _ _ ⟨⟩) fun hd =>
      ⟨by rw [hf]; exact hd, rfl⟩
  | giveBack c hf =>
    exact h.keep rfl rfl rfl (by rw [hf]; rfl) (by rintro _ _ _ ⟨⟩) fun _ =>
      ⟨by rw [hf]; rfl, rfl⟩
  | wake hf _ =>
    have hp : s.prev = none := by simpa [hf] using hs.prev
    exact h.keep rfl rfl rfl (by rw [hf, hp]; rfl) (by rintro _ _ _ ⟨⟩) (by rintro ⟨⟩)

theorem ingest_bytes (h : Bytes s) {submit submitRest : Bool}
    (hm : IngestMove s submit submitRest s') : Bytes s' := by
  have same (hring : s'.ring = s.ring) (hraw : s'.rawBytes = s.rawBytes)
      (hspans : s'.spans = s.spans) (hprev : s'.prev = s.prev) (hfeed : s'.feed = s.feed)
      (hn : s'.notified = s.notified) : Bytes s' :=
    h.keep hring hraw hspans (by rw [hprev, hfeed]) (fun c off n hf => hfeed ▸ hf)
      fun hd => ⟨hfeed ▸ hd, hn⟩
  cases hm with
  | stay => exact h
  | _ => exact same rfl rfl rfl rfl rfl rfl

theorem Bytes.grow (h : Bytes s) {r : Ring} {notified : Bool} (hx : Extends s.ring r)
    (hw : EvenWrites r)
    (hn : (returned r).length ≤ (returned s.ring).length ∧ notified = s.notified ∨
      notified = true) : Bytes { s with ring := r, notified := notified } := by
  refine ⟨hx.inv h.ring, ?_, hw, ?_, ?_, ?_, ?_, h.chunks, ?_⟩
  · rw [hx.reader]
    exact h.calm
  · rw [hx.consumed]
    exact h.even
  · intro i hi
    rw [hx.reader]
    exact h.owed i hi
  · intro c off n hf
    rw [hx.reader]
    exact h.next c off n hf
  · have hspans := h.spans
    rw [hx.consumed]
    cases ho : LiveFeed.owed s.prev s.feed with
    | none =>
      rwa [ho] at hspans
    | some i =>
      obtain ⟨_,off,n,hp,hle⟩ := h.owed i ho
      rw [ho] at hspans
      rwa [outstanding, hx.span h.ring hp hle]
  · intro hd
    rcases hn with ⟨hle,hsame⟩ | htrue
    · rw [hx.consumed, hsame]
      rcases h.notified hd with hold | hold
      · exact .inl (hle.trans hold)
      · exact .inr hold
    · exact .inr htrue

theorem usbWrite_bytes (h : Bytes s) (w : UsbWrite) : Bytes (step s (.usbWrite w)) := by
  refine h.grow (write_extends _ _) (h.writes.write w) (.inl ⟨?_, rfl⟩)
  cases hw : s.ring.writer <;> simp [UsbRing.step, hw, returned]

theorem usb_bytes (h : Bytes s) : Bytes (step s .usb) := by
  refine h.grow (writer_extends _) h.writes.writer ?_
  cases hw : s.ring.writer with
  | returning b ok =>
    cases ok with
    | false => exact .inl ⟨by simp [UsbRing.step, usbringWriteStep, hw, returned], rfl⟩
    | true =>
      cases hb : b.data with
      | nil => exact .inl ⟨by simp [UsbRing.step, usbringWriteStep, hw, returned, hb], by simp [hb]⟩
      | cons x xs => exact .inr (by simp [hb])
  | loadHead b | loadTail b head =>
    refine .inl ⟨?_, rfl⟩
    simp only [UsbRing.step, usbringWriteStep, hw]
    split <;> exact le_rfl
  | _ => exact .inl ⟨by simp [UsbRing.step, usbringWriteStep, hw, returned], rfl⟩

theorem step_bytes (h : Bytes s) (hs : Slots s) (a : Action) : Bytes (step s a) := by
  cases a with
  | usbWrite w => exact usbWrite_bytes h w
  | usb => exact usb_bytes h
  | feed fault => exact feed_bytes h hs (feedMove s fault)
  | timeout =>
    rw [step]
    split
    · have hf : s.feed = .waitData := ‹_›
      have hp : s.prev = none := by simpa [hf] using hs.prev
      exact h.keep rfl rfl rfl (by rw [hf, hp]; rfl) (by rintro _ _ _ ⟨⟩) (by rintro ⟨⟩)
    · exact h
  | ingest submit submitRest => exact ingest_bytes h (ingestMove s submit submitRest)
  | capture active =>
    exact h.keep rfl rfl rfl rfl (fun _ _ _ hf => hf) fun hd => ⟨hd, rfl⟩

end

theorem start_bytes (buf : Nat → UInt8) : Bytes (start buf) where
  ring := usbringRun_inv (by decide) buf 0 []
  calm := trivial
  writes := ⟨nofun, Nat.dvd_zero 2⟩
  even := Nat.dvd_zero 2
  owed := nofun
  next := nofun
  spans := rfl
  chunks := nofun
  notified := nofun

end IridiumAcars.LiveFeed
