import IridiumAcars.Lib.Runs
import IridiumAcars.UsbRingFifo

/-! Pausing and resuming the USB stream around a retune, against the feed task's cycle. -/
namespace IridiumAcars.StreamRetune
open UsbRing Runs

/-- `usbring_reset`. The record of what was written and consumed starts again with it. -/
def usbringReset (r : Ring) : Ring := { r with head := 0, tail := 0, returns := [], consumed := [] }

/-- Handling transfers, or between pause and resume. -/
inductive Pump
  | streaming
  | paused
  | tuned
deriving DecidableEq

inductive Feed
  | empty
  | dispatch (n : UInt32)
  | converting (n : UInt32)
  | converted (n : UInt32)

structure State where
  ring : Ring
  pump : Pump
  feed : Feed

def outBlockSize : UInt32 := 16*1024

def feedStep (capacity : UInt32) (s : State) : State :=
  match s.feed with
  | .empty =>
    match s.ring.reader with
    | .peekTail _ =>
      let r := UsbRing.step capacity s.ring .reader
      match r.reader with
      | .holding _ n => ⟨r, s.pump, .dispatch (if n < outBlockSize then n else outBlockSize)⟩
      | _ => { s with ring := r }
    | _ => { s with ring := UsbRing.step capacity (UsbRing.step capacity s.ring .peek) .reader }
  | .dispatch n => { s with feed := .converting n }
  | .converting _ => s
  | .converted n =>
    match s.ring.reader with
    | .consumeStore _ _ _ _ _ =>
      ⟨{ UsbRing.step capacity s.ring .reader with reader := .idle }, s.pump, .empty⟩
    | _ =>
      { s with ring := UsbRing.step capacity (UsbRing.step capacity s.ring (.consume n)) .reader }

inductive Action
  | transfer (b : Block)
  | write
  | pause
  | tune
  | resume
  | feed
  | convert

/-- A transfer completes with data only while streaming. -/
def step (capacity : UInt32) (s : State) : Action → State
  | .transfer b =>
    match s.pump with
    | .streaming => { s with ring := UsbRing.step capacity s.ring (.write b) }
    | _ => s
  | .write => { s with ring := UsbRing.step capacity s.ring .writer }
  | .pause =>
    match s.pump, s.ring.writer with
    | .streaming, .idle => { s with pump := .paused }
    | _, _ => s
  | .tune =>
    match s.pump with
    | .paused => { s with pump := .tuned }
    | _ => s
  | .resume =>
    match s.pump with
    | .tuned => { s with ring := usbringReset s.ring, pump := .streaming }
    | _ => s
  | .feed => feedStep capacity s
  | .convert =>
    match s.feed with
    | .converting n => { s with feed := .converted n }
    | _ => s

def start (buf : Nat → UInt8) : State := ⟨usbringStart buf 0, .streaming, .empty⟩

def run (capacity : UInt32) (buf : Nat → UInt8) (acts : List Action) : State :=
  acts.foldl (step capacity) (start buf)

def State.atRest (s : State) : Prop := s.feed = .empty ∧ s.ring.reader = .idle

/-- A stream is resumed only while the feed is at rest. -/
def ResumesAtRest (s : State) (a : Action) : Prop := a = .resume → s.pump = .tuned → s.atRest

def Held (s : State) : Prop :=
  match s.feed with
  | .empty => s.ring.reader = .idle ∨ ∃ head, s.ring.reader = .peekTail head
  | .dispatch n | .converting n => ∃ off m, s.ring.reader = .holding off m ∧ n ≠ 0 ∧ n ≤ m
  | .converted n =>
    (∃ off m, s.ring.reader = .holding off m ∧ n ≠ 0 ∧ n ≤ m) ∨
      ∃ off m tail bytes, s.ring.reader = .consumeStore off m n tail bytes

structure Good (k : Nat) (s : State) : Prop where
  ring : Inv 0 k s.ring
  held : Held s
  paused : s.pump ≠ .streaming → s.ring.writer = .idle

section
variable {k : Nat} {s : State}

theorem usbringReset_eq {r : Ring} (hw : r.writer = .idle) (hr : r.reader = .idle) :
    usbringReset r = usbringStart r.buf 0 := by
  rw [usbringReset, hw, hr]
  rfl

theorem Good.resume (h : Good k s) (hp : s.pump = .tuned) (hrest : s.atRest) :
    Good k { s with ring := usbringReset s.ring, pump := .streaming } := by
  have hw := h.paused (by rw [hp]; decide)
  rw [usbringReset_eq hw hrest.2]
  refine ⟨usbringStart_inv s.ring.buf 0, ?_, fun hne => absurd rfl hne⟩
  rw [Held, hrest.1]
  exact .inl rfl

theorem Good.stage (h : Good k s) {f : Feed} (hf : Held { s with feed := f }) :
    Good k { s with feed := f } := ⟨h.ring, hf, h.paused⟩

theorem Good.peek (hk : k < 32) (h : Good k s) (hf : s.feed = .empty) (hr : s.ring.reader = .idle) :
    Good k ⟨UsbRing.step (UInt32.ofNat (2^k)) (UsbRing.step (UInt32.ofNat (2^k)) s.ring .peek)
      .reader, s.pump, s.feed⟩ := by
  refine ⟨step_inv hk (step_inv hk h.ring .peek) .reader, ?_, ?_⟩
  · rw [Held, hf]
    exact .inr ⟨s.ring.head, by simp [UsbRing.step, usbringReadStep, hr]⟩
  · simpa [UsbRing.step, usbringReadStep, hr] using h.paused

theorem blockPart_le (n : UInt32) : (if n < outBlockSize then n else outBlockSize) ≤ n := by
  split
  · exact UInt32.le_refl n
  · exact UInt32.not_lt.mp ‹_›

theorem blockPart_ne_zero {n : UInt32} (hn : n ≠ 0) :
    (if n < outBlockSize then n else outBlockSize) ≠ 0 := by
  split
  · exact hn
  · decide

theorem Good.span (hk : k < 32) (h : Good k s) (hf : s.feed = .empty) {head : UInt32}
    (hr : s.ring.reader = .peekTail head) : Good k (feedStep (UInt32.ofNat (2^k)) s) := by
  have hinv := step_inv hk h.ring .reader
  cases hs : usbringPeekContig head s.ring.tail (UInt32.ofNat (2^k)) with
  | mk off n =>
    by_cases hn : n = 0
    · have hstep : UsbRing.step (UInt32.ofNat (2^k)) s.ring .reader =
          { s.ring with reader := .idle } := by
        simp [UsbRing.step, usbringReadStep, hr, hs, hn]
      rw [hstep] at hinv
      have hfeed : feedStep (UInt32.ofNat (2^k)) s =
        { s with ring := { s.ring with reader := .idle } } := by simp only [feedStep, hf, hr, hstep]
      rw [hfeed]
      refine ⟨hinv, ?_, h.paused⟩
      rw [Held, hf]
      exact .inl rfl
    · have hstep : UsbRing.step (UInt32.ofNat (2^k)) s.ring .reader =
          { s.ring with reader := .holding off n } := by
        simp [UsbRing.step, usbringReadStep, hr, hs, hn]
      rw [hstep] at hinv
      have hfeed : feedStep (UInt32.ofNat (2^k)) s =
          ⟨{ s.ring with reader := .holding off n }, s.pump,
            .dispatch (if n < outBlockSize then n else outBlockSize)⟩ := by
        simp only [feedStep, hf, hr, hstep]
      rw [hfeed]
      exact ⟨hinv, ⟨off, n, rfl, blockPart_ne_zero hn, blockPart_le n⟩, h.paused⟩

theorem Good.consume (hk : k < 32) (h : Good k s) {n off m : UInt32} (hf : s.feed = .converted n)
    (hr : s.ring.reader = .holding off m) (hn : n ≠ 0) (hm : n ≤ m) :
    Good k ⟨UsbRing.step (UInt32.ofNat (2^k))
      (UsbRing.step (UInt32.ofNat (2^k)) s.ring (.consume n)) .reader, s.pump, s.feed⟩ := by
  have hok : ¬(n = 0 ∨ m < n) := not_or.mpr ⟨hn, UInt32.not_lt.mpr hm⟩
  refine ⟨step_inv hk (step_inv hk h.ring (.consume n)) .reader, ?_, ?_⟩
  · rw [Held, hf]
    exact .inr ⟨off, m, s.ring.tail, readSpan s.ring.buf off.toNat n.toNat,
      by simp only [UsbRing.step, hr, if_neg hok, usbringReadStep]⟩
  · simpa only [UsbRing.step, hr, if_neg hok, usbringReadStep] using h.paused

theorem Good.store (hk : k < 32) (h : Good k s) {n off m tail : UInt32} {bytes : List UInt8}
    (hr : s.ring.reader = .consumeStore off m n tail bytes) :
    Good k ⟨{ UsbRing.step (UInt32.ofNat (2^k)) s.ring .reader with reader := .idle },
      s.pump, .empty⟩ := by
  have hinv := step_inv hk h.ring .reader
  refine ⟨⟨?_, ?_, trivial⟩, .inl rfl, ?_⟩
  · exact ⟨hinv.ring.head_eq, hinv.ring.tail_eq, hinv.ring.room, hinv.ring.holds, hinv.ring.order⟩
  · exact hinv.writer
  · simpa only [UsbRing.step, usbringReadStep, hr] using h.paused

theorem feed_good (hk : k < 32) (h : Good k s) : Good k (feedStep (UInt32.ofNat (2^k)) s) := by
  have hheld := h.held
  cases hf : s.feed with
  | empty =>
    simp only [Held, hf] at hheld
    obtain hr | ⟨head,hr⟩ := hheld
    · simpa only [feedStep, hf, hr] using h.peek hk hf hr
    · exact h.span hk hf hr
  | dispatch n =>
    simp only [Held, hf] at hheld
    simp only [feedStep, hf]
    exact h.stage hheld
  | converting n => simpa only [feedStep, hf] using h
  | converted n =>
    simp only [Held, hf] at hheld
    obtain ⟨off,m,hr,hn,hm⟩ | ⟨off,m,tail,bytes,hr⟩ := hheld
    · simpa only [feedStep, hf, hr] using h.consume hk hf hr hn hm
    · simpa only [feedStep, hf, hr] using h.store hk hr

theorem step_good (hk : k < 32) (h : Good k s) {a : Action} (ha : ResumesAtRest s a) :
    Good k (step (UInt32.ofNat (2^k)) s a) := by
  cases a with
  | transfer b =>
    cases hp : s.pump with
    | streaming =>
      have hreader : (UsbRing.step (UInt32.ofNat (2^k)) s.ring (.write b)).reader =
          s.ring.reader := by
        cases hw : s.ring.writer <;> simp [UsbRing.step, hw]
      simp only [step, hp]
      refine ⟨step_inv hk h.ring (.write b), ?_, fun hne => absurd rfl hne⟩
      simpa only [Held, hreader] using h.held
    | paused | tuned => simpa only [step, hp] using h
  | write =>
    refine ⟨step_inv hk h.ring .writer, ?_, ?_⟩
    · simpa only [Held, step, UsbRing.step, writeStep_reader] using h.held
    · intro hne
      have hw := h.paused hne
      simp [step, UsbRing.step, usbringWriteStep, hw]
  | pause =>
    rw [step]
    split
    · exact ⟨h.ring, h.held, fun _ => ‹_›⟩
    · exact h
  | tune =>
    cases hp : s.pump with
    | paused =>
      simp only [step, hp]
      exact ⟨h.ring, h.held, fun _ => h.paused (by rw [hp]; decide)⟩
    | streaming | tuned => simpa only [step, hp] using h
  | resume =>
    cases hp : s.pump with
    | tuned => simpa only [step, hp] using h.resume hp (ha rfl hp)
    | streaming | paused => simpa only [step, hp] using h
  | feed => exact feed_good hk h
  | convert =>
    have hheld := h.held
    cases hf : s.feed with
    | converting n =>
      simp only [Held, hf] at hheld
      simp only [step, hf]
      exact h.stage (.inl hheld)
    | empty | dispatch n | converted n => simpa only [step, hf] using h

end

theorem start_good (k : Nat) (buf : Nat → UInt8) : Good k (start buf) :=
  ⟨usbringStart_inv buf 0, .inl rfl, fun hne => absurd rfl hne⟩

/-- Counts start at the last reset, so an exposed byte was written after it. -/
theorem retune_keeps_ring (k : Fin 32) (buf : Nat → UInt8) (acts : List Action)
    (hrest : AllSteps (step (UInt32.ofNat (2^k.val))) ResumesAtRest (start buf) acts) :
    let s := run (UInt32.ofNat (2^k.val)) buf acts
    usbringUsed s.ring.head s.ring.tail ≤ UInt32.ofNat (2^k.val) ∧
      ∀ off n, s.ring.reader = .holding off n → ∀ m ≤ n,
        readSpan s.ring.buf off.toNat m.toNat =
          (s.ring.accepted.drop s.ring.consumed.length).take m.toNat := by
  intro s
  have h : Good k.val s :=
    hrest.invariant (Good k.val) (fun _ _ ha hs => step_good k.isLt hs ha) (start_good k.val buf)
  exact ⟨(h.ring.used k.isLt).2, fun off n hheld m hmn => h.ring.exposed hheld hmn⟩

def transferTwo (a b : UInt8) : List Action :=
  .transfer ⟨[a, b], by simp⟩::List.replicate 6 .write

def retune : List Action := [.pause, .tune, .resume]

theorem resumesAtRest_of_ne {a : Action} (ha : a ≠ .resume) (s : State) : ResumesAtRest s a :=
  fun h => absurd h ha

/-- The second transfer is peeked after a resume at rest, and only its bytes are exposed. -/
theorem retune_at_rest_keeps_ring :
    let s := run (UInt32.ofNat (2^22)) (fun _ => 0)
      (transferTwo 1 2++retune++transferTwo 3 4++[.feed, .feed])
    s.ring.reader = .holding 0 2 ∧ readSpan s.ring.buf 0 2 = [3, 4] ∧
      s.ring.accepted = [3, 4] ∧
      usbringUsed s.ring.head s.ring.tail ≤ UInt32.ofNat (2^22) := by
  refine ⟨rfl, rfl, rfl, ?_⟩
  have hbefore : ∀ a ∈ transferTwo 1 2++[.pause, .tune], ∀ s, ResumesAtRest s a :=
    fun a ha => resumesAtRest_of_ne (by rintro rfl; simp [transferTwo] at ha)
  have hafter : ∀ a ∈ transferTwo 3 4++[.feed, .feed], ∀ s, ResumesAtRest s a :=
    fun a ha => resumesAtRest_of_ne (by rintro rfl; simp [transferTwo] at ha)
  have hrest : AllSteps (step (UInt32.ofNat (2^22))) ResumesAtRest (start fun _ => 0)
      ((transferTwo 1 2++[.pause, .tune])++.resume::(transferTwo 3 4++[.feed, .feed])) :=
    (allSteps_of_forall hbefore _).append ⟨fun _ _ => ⟨rfl, rfl⟩, allSteps_of_forall hafter _⟩
  exact (retune_keeps_ring 22 (fun _ => 0) _ hrest).1

/-- The feed consumes after the reset what it had peeked before: the fill count wraps. -/
theorem stale_consume_wraps_used :
    let acts := transferTwo 1 2++[.feed, .feed, .feed]++retune++[.convert, .feed, .feed]
    let s := run (UInt32.ofNat (2^22)) (fun _ => 0) acts
    let t := run (UInt32.ofNat (2^22)) (fun _ => 0) (acts++[.feed, .feed])
    usbringUsed s.ring.head s.ring.tail = 4294967294 ∧
      ¬usbringUsed s.ring.head s.ring.tail ≤ UInt32.ofNat (2^22) ∧
      t.ring.reader = .holding 2 4194302 ∧ t.ring.accepted = [] := by
  exact ⟨rfl, by decide, rfl, rfl⟩

end IridiumAcars.StreamRetune
