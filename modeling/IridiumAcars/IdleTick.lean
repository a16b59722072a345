import IridiumAcars.IdaChain
import Mathlib.Data.Fintype.Card

/-! The decoder task of frame_decoder.c as it drives the fragment reassembler: clock, tick and feed.
-/
namespace IridiumAcars.DecoderTask
open SlotTable IdaReasm IdaChain List

def fsDetectHz : UInt64 := 2500000
def fftSize : UInt64 := 2048

def reasmFreqKeyHz (packedPeakBin : Int32) : UInt32 :=
  let bin := packedPeakBin.toUInt32 &&& 0xFFFF
  (bin.toUInt64*fsDetectHz/fftSize).toUInt32

theorem reasmFreqKeyHz_le (packedPeakBin : Int32) :
    (reasmFreqKeyHz packedPeakBin).toNat ≤ 79998779 := by
  have hbin : (packedPeakBin.toUInt32 &&& 0xFFFF).toNat ≤ 0xFFFF := by
    rw [UInt32.toNat_and]
    exact Nat.and_le_right
  rw [reasmFreqKeyHz, fsDetectHz, fftSize, UInt64.toNat_toUInt32, UInt64.toNat_div,
    UInt64.toNat_mul, UInt32.toNat_toUInt64]
  change _*2500000%2^64/2048%2^32 ≤ _
  rw [Nat.mod_eq_of_lt (a := _*2500000) (by omega)]
  exact (Nat.mod_le _ _).trans (Nat.le_of_lt_succ (Nat.div_lt_of_lt_mul (by omega)))

/-- A result of `ida_decode`, within the bounds it keeps. -/
abbrev DecodedIda := {d : IdaDecode.IdaDecoded // d.daCont ≤ 1 ∧ d.payload.length ≤ 24}

/-- `ida` is what `ida_decode` made of the bits. -/
structure FrameQueueItem where
  timestampUs : Nat
  peakBin : Int32
  direction : UInt8
  ida : Option DecodedIda

/-- What `process_one` feeds: a clean frame, or, when wanted, a continuation of bad checksum. -/
def admitted (bestEffortDecode : Bool) (it : FrameQueueItem) : Option Feed :=
  match it.ida with
  | none => none
  | some ida =>
    let idaOkHdr := ida.val.ok && ida.val.headerOk
    let clean := idaOkHdr && ida.val.crcOk
    let dirtyCont := idaOkHdr && !ida.val.crcOk && decide (ida.val.daCtr > 0)
    if clean || (dirtyCont && bestEffortDecode) then
      some { frag := fragmentOf ida.val ida.property
             fragCrcOk := ida.val.crcOk
             uplink := it.direction == 1
             freqHz := reasmFreqKeyHz it.peakBin
             nowUs := it.timestampUs
             outCap := idaReasmMaxBytes }
    else none

def drainLoop : Nat → IdaReassembler → Nat → IdaReassembler × List IdaSalvage
  | 0, ctx, _ => (ctx, [])
  | fuel+1, ctx, nowUs =>
    match idaReassemblerReap ctx nowUs with
    | (ctx, none) => (ctx, [])
    | (ctx, some sv) => ((drainLoop fuel ctx nowUs).1, sv::(drainLoop fuel ctx nowUs).2)

/-- Reap until nothing is overdue. Every reap frees a slot, so the loop ends. -/
def idaSalvageDrain (ctx : IdaReassembler) (nowUs : Nat) : IdaReassembler × List IdaSalvage :=
  drainLoop (idaReasmMaxSessions+1) ctx nowUs

structure Clock where
  rfNow : Nat
  wallAtRfNow : Nat
  lastTick : Nat

structure Decoder where
  idaReasm : IdaReassembler
  clock : Clock

def Decoder.start (startUs : Nat) : Decoder := ⟨.init, ⟨0, 0, startUs⟩⟩

/-- What one pass meets: the popped frame, the timer at its two uses, and the configuration. -/
structure Pass where
  popped : Option FrameQueueItem
  wallUs : Nat
  nowUs : Nat
  bestEffortDecode : Bool

def Clock.advance (c : Clock) (p : Pass) : Clock :=
  match p.popped with
  | none => c
  | some it =>
    if it.timestampUs > c.rfNow then
      { c with rfNow := it.timestampUs, wallAtRfNow := p.wallUs }
    else c

def Clock.ticks (c : Clock) (nowUs : Nat) : Bool := decide (nowUs-c.lastTick > 1000000)

/-- The newest capture time, extrapolated by the time since its frame was popped. -/
def Clock.drainNow (c : Clock) (nowUs : Nat) : Nat := c.rfNow+(nowUs-c.wallAtRfNow)

def tick (d : Decoder) (nowUs : Nat) : Decoder :=
  if d.clock.ticks nowUs then
    { idaReasm := (idaSalvageDrain d.idaReasm (d.clock.drainNow nowUs)).1
      clock := { d.clock with lastTick := nowUs } }
  else d

/-- The reassembler's part of `process_one`: reap before feed, on the frame's own time. -/
def processOne (ctx : IdaReassembler) (bestEffortDecode : Bool) (it : FrameQueueItem) :
    IdaReassembler :=
  match admitted bestEffortDecode it with
  | none => ctx
  | some f => (idaReassemblerFeedEx (idaSalvageDrain ctx it.timestampUs).1 f).1

def ticked (d : Decoder) (p : Pass) : Decoder :=
  tick { d with clock := d.clock.advance p } p.nowUs

def decoderPass (d : Decoder) (p : Pass) : Decoder :=
  match p.popped with
  | none => ticked d p
  | some it =>
    { ticked d p with idaReasm := processOne (ticked d p).idaReasm p.bestEffortDecode it }

def Pass.fragment (p : Pass) : Option Feed := p.popped.bind (admitted p.bestEffortDecode)

def Pass.stamps (p : Pass) : List Nat := p.popped.toList.map FrameQueueItem.timestampUs

def TickReaps (d : Decoder) (p : Pass) (i : Fin idaReasmMaxSessions) : Prop :=
  (d.idaReasm.sessions i).active = true ∧ ((ticked d p).idaReasm.sessions i).active = false

/-- No tick of the run reaps a chain that matches a fragment processed after it. -/
def LiveChainsKept : Decoder → List Pass → Prop
  | _, [] => True
  | d, p::ps =>
    (∀ i, TickReaps d p i → ∀ f ∈ (p::ps).filterMap Pass.fragment,
      (d.idaReasm.sessions i).accepts f.uplink f.freqHz f.frag.daCtr f.nowUs = false) ∧
    LiveChainsKept (decoderPass d p) ps

def Pass.times (p : Pass) : Option Nat × Nat × Nat :=
  (p.popped.map FrameQueueItem.timestampUs, p.wallUs, p.nowUs)

def Clock.next (c : Clock) (p : Pass) : Clock :=
  if (c.advance p).ticks p.nowUs then { c.advance p with lastTick := p.nowUs } else c.advance p

/-- No tick finds the clock past a popped frame's timeout while a frame within its gap is to come.
-/
def OnTime : List Nat → Clock → List Pass → Prop
  | _, _, [] => True
  | seen, c, p::ps =>
    ((c.advance p).ticks p.nowUs = true →
      ∀ a ∈ seen, ∀ b ∈ (p::ps).flatMap Pass.stamps, a ≤ b → b ≤ a+idaReasmFragGapUs →
        (c.advance p).drainNow p.nowUs ≤ a+idaReasmSessionTimeoutUs) ∧
    OnTime (seen++p.stamps) (c.next p) ps

def drainedSlot (s : Session) (nowUs : Nat) : Session :=
  if s.due nowUs then s.deactivate else s

def dueSlots (slots : Fin idaReasmMaxSessions → Session) (nowUs : Nat) :
    Finset (Fin idaReasmMaxSessions) :=
  Finset.univ.filter fun i => (slots i).due nowUs = true

theorem due_deactivate (s : Session) (nowUs : Nat) : s.deactivate.due nowUs = false := rfl

theorem dueSlots_reaped {slots : Fin idaReasmMaxSessions → Session} {nowUs : Nat}
    {i : Fin idaReasmMaxSessions} :
    dueSlots (setSlot slots i (slots i).deactivate) nowUs = (dueSlots slots nowUs).erase i := by
  ext j
  rw [dueSlots, dueSlots, Finset.mem_erase, Finset.mem_filter, Finset.mem_filter]
  by_cases hj : j = i
  · simp [hj, due_deactivate]
  · simp [hj, setSlot_other _ i j _ hj]

theorem drainLoop_sessions (fuel : Nat) (ctx : IdaReassembler) (nowUs : Nat)
    (h : (dueSlots ctx.sessions nowUs).card ≤ fuel) (i : Fin idaReasmMaxSessions) :
    (drainLoop fuel ctx nowUs).1.sessions i = drainedSlot (ctx.sessions i) nowUs := by
  induction fuel generalizing ctx with
  | zero =>
    have hnone : i ∉ dueSlots ctx.sessions nowUs := by
      rw [Finset.card_eq_zero.mp (Nat.le_zero.mp h)]
      exact Finset.notMem_empty i
    rw [dueSlots, Finset.mem_filter] at hnone
    rw [drainLoop, drainedSlot, if_neg fun hd => hnone ⟨Finset.mem_univ i, hd⟩]
  | succ fuel ih =>
    have hstep := (reap_step ctx nowUs).1
    rw [drainLoop]
    generalize idaReassemblerReap ctx nowUs = r at hstep ⊢
    obtain ⟨ctx',out⟩ := r
    dsimp only at hstep
    generalize hslots : ctx'.sessions = slots at hstep
    cases hstep with
    | notDue hnot =>
      rw [drainedSlot, if_neg (by rw [hnot i]; decide)]
      exact congrFun hslots i
    | reaped j hdue =>
      have hcard := Finset.card_erase_of_mem (s := dueSlots ctx.sessions nowUs) (a := j)
        (Finset.mem_filter.mpr ⟨Finset.mem_univ j, hdue⟩)
      have hrest := ih ctx' (by rw [hslots, dueSlots_reaped]; omega)
      dsimp only
      rw [hrest, hslots]
      by_cases hi : i = j
      · rw [hi, setSlot_same, drainedSlot, drainedSlot, due_deactivate, if_pos hdue,
          if_neg (by decide)]
      · rw [setSlot_other _ j i _ hi]

theorem drain_sessions (ctx : IdaReassembler) (nowUs : Nat) (i : Fin idaReasmMaxSessions) :
    (idaSalvageDrain ctx nowUs).1.sessions i = drainedSlot (ctx.sessions i) nowUs := by
  have hcard := Finset.card_le_univ (dueSlots ctx.sessions nowUs)
  rw [Fintype.card_fin] at hcard
  exact drainLoop_sessions _ ctx nowUs (by omega) i

theorem due_iff (s : Session) (nowUs : Nat) : s.due nowUs = true ↔
    s.active = true ∧ s.lastTimeUs+idaReasmSessionTimeoutUs < nowUs := by
  rw [Session.due, Bool.and_eq_true, Bool.and_eq_true, decide_eq_true_eq, decide_eq_true_eq,
    idaReasmSessionTimeoutUs]
  constructor
  · rintro ⟨⟨hact,-⟩,hgt⟩
    exact ⟨hact, by omega⟩
  · rintro ⟨hact,hgt⟩
    exact ⟨⟨hact, by omega⟩, by omega⟩

variable (d : Decoder)

theorem tickReaps_iff (p : Pass) (i : Fin idaReasmMaxSessions) :
    TickReaps d p i ↔ (d.clock.advance p).ticks p.nowUs = true ∧
      (d.idaReasm.sessions i).due ((d.clock.advance p).drainNow p.nowUs) = true := by
  rw [TickReaps, ticked, tick]
  dsimp only
  cases (d.clock.advance p).ticks p.nowUs with
  | false => simp
  | true =>
    rw [if_pos rfl]
    dsimp only
    rw [drain_sessions, drainedSlot]
    cases hdue : (d.idaReasm.sessions i).due ((d.clock.advance p).drainNow p.nowUs) with
    | false => simp
    | true => simpa [Session.deactivate] using (due_iff _ _).mp hdue |>.1

theorem ticked_session (p : Pass) (i : Fin idaReasmMaxSessions) :
    (ticked d p).idaReasm.sessions i = d.idaReasm.sessions i ∨
      TickReaps d p i ∧ ((ticked d p).idaReasm.sessions i).active = false := by
  by_cases h : TickReaps d p i
  · exact .inr ⟨h, h.2⟩
  left
  rw [tickReaps_iff, not_and] at h
  rw [ticked, tick]
  dsimp only
  split
  · next ht => rw [drain_sessions, drainedSlot, if_neg (h ht)]
  · rfl

variable (ps : List Pass)

section
variable {seen : List Nat} {ctx : IdaReassembler}

def Stamped (seen : List Nat) (ctx : IdaReassembler) : Prop :=
  ∀ i, (ctx.sessions i).active = true → (ctx.sessions i).lastTimeUs ∈ seen

theorem Stamped.drain (h : Stamped seen ctx) (nowUs : Nat) :
    Stamped seen (idaSalvageDrain ctx nowUs).1 := by
  intro i
  rw [drain_sessions, drainedSlot]
  split
  · exact fun hact => nomatch hact
  · exact h i

theorem Stamped.mono {seen' : List Nat} (h : Stamped seen ctx) (hle : seen ⊆ seen') :
    Stamped seen' ctx :=
  fun i hact => hle (h i hact)

theorem Stamped.set {slots : Fin idaReasmMaxSessions → Session} (i : Fin idaReasmMaxSessions)
    {s : Session} (h : ∀ j, (slots j).active = true → (slots j).lastTimeUs ∈ seen)
    (hs : s.active = true → s.lastTimeUs ∈ seen) (j : Fin idaReasmMaxSessions) :
    (setSlot slots i s j).active = true → (setSlot slots i s j).lastTimeUs ∈ seen := by
  by_cases hj : j = i
  · rwa [hj, setSlot_same]
  · rw [setSlot_other _ i j _ hj]
    exact h j

theorem Stamped.feed (h : Stamped seen ctx) {f : Feed} (hf : f.nowUs ∈ seen) :
    Stamped seen (idaReassemblerFeedEx ctx f).1 := by
  have hstep := feedEx_step ctx f
  rw [Stamped]
  generalize (idaReassemblerFeedEx ctx f).1.sessions = slots at hstep ⊢
  generalize (idaReassemblerFeedEx ctx f).1.cntOrphan = orphans at hstep
  generalize (idaReassemblerFeedEx ctx f).2 = r at hstep
  cases hstep with
  | standalone | tableFull | orphan => exact h
  | opened i hctr hcont hfree | extended i hctr hcont hacc hlen => exact Stamped.set i h fun _ => hf
  | overflow i hctr hacc hlen | completed i hctr hcont hacc hlen =>
    exact Stamped.set i h fun hact => nomatch hact

theorem admitted_nowUs {bestEffortDecode : Bool} {it : FrameQueueItem} {f : Feed}
    (h : admitted bestEffortDecode it = some f) : f.nowUs = it.timestampUs := by
  rw [admitted] at h
  split at h
  · cases h
  · dsimp only at h
    split at h
    · rw [← Option.some.inj h]
    · cases h

theorem Stamped.processOne (h : Stamped seen ctx) (bestEffortDecode : Bool) {it : FrameQueueItem}
    (hit : it.timestampUs ∈ seen) : Stamped seen (processOne ctx bestEffortDecode it) := by
  rw [DecoderTask.processOne]
  split
  · exact h
  · next f hf => exact (h.drain _).feed (admitted_nowUs hf ▸ hit)

theorem Stamped.ticked {d : Decoder} (h : Stamped seen d.idaReasm) (p : Pass) :
    Stamped seen (ticked d p).idaReasm := by
  intro i hact
  obtain hsame | ⟨-,hidle⟩ := ticked_session d p i
  · rw [hsame] at hact ⊢
    exact h i hact
  · rw [hidle] at hact
    cases hact

theorem Stamped.pass {d : Decoder} (h : Stamped seen d.idaReasm) (p : Pass) :
    Stamped (seen++p.stamps) (decoderPass d p).idaReasm := by
  have htick := (h.ticked p).mono (subset_append_left seen p.stamps)
  rw [decoderPass]
  split
  · exact htick
  · next it hit =>
    refine htick.processOne _ ?_
    simp [Pass.stamps, hit]

theorem clock_ticked (p : Pass) : (ticked d p).clock = d.clock.next p := by
  rw [ticked, tick, Clock.next]
  dsimp only
  split <;> rfl

theorem clock_decoderPass (p : Pass) :
    (decoderPass d p).clock = d.clock.next p := by
  rw [decoderPass]
  split <;> exact clock_ticked d p

theorem fragment_stamp {p : Pass} {f : Feed} (h : p.fragment = some f) : f.nowUs ∈ p.stamps := by
  obtain ⟨it,hit,hf⟩ := Option.bind_eq_some_iff.mp h
  simp [Pass.stamps, hit, admitted_nowUs hf]

/-- On time, no chain that a later fragment matches is overdue at a tick. -/
theorem liveChainsKept_of_onTime (seen : List Nat) (d : Decoder)
    (hs : Stamped seen d.idaReasm) (h : OnTime seen d.clock ps) : LiveChainsKept d ps := by
  induction ps generalizing seen d with
  | nil => trivial
  | cons p ps ih =>
    obtain ⟨hnow,hrest⟩ := h
    refine ⟨?_, ih _ _ (hs.pass p) (clock_decoderPass d p ▸ hrest)⟩
    intro i hreaps f hf
    obtain ⟨hticks,hdue⟩ := (tickReaps_iff d p i).mp hreaps
    obtain ⟨hact,hover⟩ := (due_iff _ _).mp hdue
    obtain ⟨q,hq,hfrag⟩ := mem_filterMap.mp hf
    by_contra hacc
    obtain ⟨-,-,-,htime,hgap,-⟩ := accepted_of_accepts _ f (by simpa using hacc)
    have hbound := hnow hticks _ (hs i hact) f.nowUs
      (mem_flatMap.mpr ⟨q, hq, fragment_stamp hfrag⟩) htime (by omega)
    omega

end

section

def chainFrame (daCtr daCont : Nat) (h : daCont ≤ 1) : DecodedIda :=
  ⟨{ IdaDecode.IdaDecoded.blank with
      ok := true, headerOk := true, crcOk := true, daCtr := daCtr, daCont := daCont
      daLen := 20, payload := List.replicate 20 0 },
    h, show (List.replicate 20 (0 : UInt8)).length ≤ 24 by decide⟩

def opener : DecodedIda := chainFrame 0 1 le_rfl

theorem closing_le : 0 ≤ 1 := Nat.zero_le 1

def closer : DecodedIda := chainFrame 1 0 closing_le

def Pass.recast (p : Pass) (ida : Option DecodedIda) : Pass :=
  { p with popped := p.popped.map fun it => ⟨it.timestampUs, 0, 0, ida⟩ }

variable {p : Pass} {c : Clock} {ctx : IdaReassembler}

theorem stamps_eq (p : Pass) : p.stamps = p.times.1.toList := by
  rw [Pass.stamps, Pass.times]
  cases p.popped <;> rfl

theorem advance_congr {q : Pass} (h : q.times = p.times) : c.advance q = c.advance p := by
  obtain ⟨hstamp,hwall,-⟩ : _ ∧ _ ∧ _ := by simpa [Pass.times] using h
  rw [Clock.advance, Clock.advance]
  cases hq : q.popped with
  | none | some it => cases hp : p.popped <;> simp_all

theorem flatMap_stamps_congr {ps qs : List Pass} (h : qs.map Pass.times = ps.map Pass.times) :
    qs.flatMap Pass.stamps = ps.flatMap Pass.stamps := by
  have hmap : ∀ l : List Pass, l.flatMap Pass.stamps =
      (l.map Pass.times).flatMap fun t => t.1.toList := by
    intro l
    rw [flatMap_map]
    exact flatMap_congr fun p _ => stamps_eq p
  rw [hmap, hmap, h]

theorem OnTime.congr {seen : List Nat} {ps qs : List Pass} {c : Clock} (h : OnTime seen c ps)
    (hq : qs.map Pass.times = ps.map Pass.times) : OnTime seen c qs := by
  induction ps generalizing seen c qs with
  | nil =>
    rw [map_eq_nil_iff.mp hq]
    trivial
  | cons p ps ih =>
    obtain ⟨q,qs,rfl,htimes,hrest⟩ := map_eq_cons_iff.mp hq
    have hstamps := flatMap_stamps_congr hq
    have hadv := advance_congr (c := c) htimes
    have hnow : q.nowUs = p.nowUs := congrArg (·.2.2) htimes
    have hseen : q.stamps = p.stamps := by rw [stamps_eq, stamps_eq, htimes]
    refine ⟨?_, ?_⟩
    · rw [hadv, hnow, hstamps]
      exact h.1
    · rw [Clock.next, hadv, hnow, hseen]
      exact ih h.2 hrest

theorem times_recast (p : Pass) (ida : Option DecodedIda) : (p.recast ida).times = p.times := by
  rw [Pass.recast, Pass.times, Pass.times, Option.map_map]
  rfl

theorem advance_recast (c : Clock) (p : Pass) (ida : Option DecodedIda) :
    c.advance (p.recast ida) = c.advance p :=
  advance_congr (times_recast p ida)

theorem next_recast (c : Clock) (p : Pass) (ida : Option DecodedIda) :
    c.next (p.recast ida) = c.next p := by
  rw [Clock.next, Clock.next, advance_recast]
  rfl

def Idle (ctx : IdaReassembler) : Prop := ∀ i, (ctx.sessions i).active = false

theorem Idle.drain (h : Idle ctx) (nowUs : Nat) : Idle (idaSalvageDrain ctx nowUs).1 := by
  intro i
  rw [drain_sessions, drainedSlot]
  split
  · rfl
  · exact h i

theorem Idle.ticked {d : Decoder} (h : Idle d.idaReasm) (p : Pass) :
    Idle (ticked d p).idaReasm := by
  intro i
  obtain hsame | ⟨-,hidle⟩ := ticked_session d p i
  · rw [hsame]
    exact h i
  · exact hidle

theorem decoderPass_silent (p : Pass) :
    (decoderPass d (p.recast none)).idaReasm = (ticked d (p.recast none)).idaReasm := by
  rw [decoderPass]
  split
  · rfl
  · next it hit =>
    obtain ⟨it',-,rfl⟩ := Option.map_eq_some_iff.mp hit
    rfl

def feedAt (ida : DecodedIda) (t : Nat) : Feed where
  frag := fragmentOf ida.val ida.property
  fragCrcOk := ida.val.crcOk
  uplink := false
  freqHz := 0
  nowUs := t
  outCap := idaReasmMaxBytes

theorem admitted_clean (bestEffortDecode : Bool) (t : Nat) (ida : DecodedIda)
    (hok : (ida.val.ok && ida.val.headerOk) = true) (hcrc : ida.val.crcOk = true) :
    admitted bestEffortDecode ⟨t, 0, 0, some ida⟩ = some (feedAt ida t) := by
  have hkey : reasmFreqKeyHz 0 = 0 := by decide
  have hup : ((0 : UInt8) == 1) = false := by decide
  simp [admitted, hok, hcrc, hkey, hup, feedAt]

theorem accepts_closer {a b : Nat} (hab : a ≤ b) (hgap : b ≤ a+idaReasmFragGapUs) :
    (openSession (feedAt opener a)).accepts (feedAt closer b).uplink (feedAt closer b).freqHz
      (feedAt closer b).frag.daCtr (feedAt closer b).nowUs = true := by
  have hlo : windowLo 0 ≤ 0 := by decide
  have hhi : 0 ≤ windowHi 0 := by decide
  rw [accepts_iff]
  exact ⟨rfl, rfl, rfl, hab, Nat.sub_le_iff_le_add'.mpr hgap, hlo, hhi⟩

theorem Idle.opens {d : Decoder} (h : Idle d.idaReasm) {a : Nat} (ha : a ∈ p.stamps) :
    ∃ i, (decoderPass d (p.recast (some opener))).idaReasm.sessions i =
      openSession (feedAt opener a) := by
  obtain ⟨it,hit,rfl⟩ := mem_map.mp ha
  have hpop : p.popped = some it := by simpa using hit
  have hidle := (h.ticked (p.recast (some opener))).drain it.timestampUs
  have hstep :=
    feedEx_step (idaSalvageDrain (DecoderTask.ticked d (p.recast (some opener))).idaReasm
    it.timestampUs).1 (feedAt opener it.timestampUs)
  have hpass : (decoderPass d (p.recast (some opener))).idaReasm = (idaReassemblerFeedEx
      (idaSalvageDrain (DecoderTask.ticked d (p.recast (some opener))).idaReasm it.timestampUs).1
      (feedAt opener it.timestampUs)).1 := by
    have hrecast : (p.recast (some opener)).popped = some ⟨it.timestampUs, 0, 0, some opener⟩ := by
      rw [Pass.recast, hpop]
      rfl
    rw [decoderPass]
    split
    · next hnone => exact absurd (hnone.symm.trans hrecast) (by simp)
    · next it' hsome =>
      rw [← Option.some.inj (hrecast.symm.trans hsome)]
      dsimp only
      rw [processOne, admitted_clean _ _ _ rfl rfl]
  rw [hpass]
  generalize (idaReassemblerFeedEx _ (feedAt opener it.timestampUs)).1.sessions = slots at hstep ⊢
  generalize (idaReassemblerFeedEx _ (feedAt opener it.timestampUs)).1.cntOrphan = orphans at hstep
  generalize (idaReassemblerFeedEx _ (feedAt opener it.timestampUs)).2 = r at hstep
  cases hstep with
  | standalone hctr hcont => cases hcont
  | tableFull hctr hcont hfull => exact absurd (hfull ⟨0, by decide⟩) (by rw [hidle]; decide)
  | opened i hctr hcont hfree => exact ⟨i, setSlot_same _ _ _⟩
  | orphan hctr hnone => cases hctr
  | overflow i hctr hacc hlen => cases hctr
  | completed i hctr hcont hacc hlen => cases hctr
  | extended i hctr hcont hacc hlen => cases hctr

def LateFor (a : Nat) : Clock → List Pass → Prop
  | _, [] => False
  | c, p::ps =>
    ((c.advance p).ticks p.nowUs = true ∧
      a+idaReasmSessionTimeoutUs < (c.advance p).drainNow p.nowUs ∧
      ∃ b ∈ (p::ps).flatMap Pass.stamps, a ≤ b ∧ b ≤ a+idaReasmFragGapUs) ∨
    LateFor a (c.next p) ps

theorem fragment_recast {b : Nat} (h : b ∈ p.stamps) :
    (p.recast (some closer)).fragment = some (feedAt closer b) := by
  obtain ⟨it,hit,rfl⟩ := mem_map.mp h
  have hpop : p.popped = some it := by simpa using hit
  rw [Pass.fragment, Pass.recast, hpop]
  exact admitted_clean p.bestEffortDecode it.timestampUs closer rfl rfl

theorem LateFor.pending {a : Nat} (c : Clock) (h : LateFor a c ps) :
    ∃ b ∈ ps.flatMap Pass.stamps, a ≤ b ∧ b ≤ a+idaReasmFragGapUs := by
  induction ps generalizing c with
  | nil => cases h
  | cons p ps ih =>
    obtain ⟨-,-,hb⟩ | hrest := h
    · exact hb
    · obtain ⟨b,hb,hab⟩ := ih _ hrest
      exact ⟨b, mem_append_right _ hb, hab⟩

theorem LateFor.kills {a : Nat} (c : Clock) (h : LateFor a c ps) :
    ∃ qs, qs.map Pass.times = ps.map Pass.times ∧ ∀ ctx : IdaReassembler,
      (∃ i, ctx.sessions i = openSession (feedAt opener a)) → ¬ LiveChainsKept ⟨ctx, c⟩ qs := by
  induction ps generalizing c with
  | nil => cases h
  | cons p ps ih =>
    by_cases hlate : (c.advance p).ticks p.nowUs = true ∧
        a+idaReasmSessionTimeoutUs < (c.advance p).drainNow p.nowUs ∧
        ∃ b ∈ (p::ps).flatMap Pass.stamps, a ≤ b ∧ b ≤ a+idaReasmFragGapUs
    · obtain ⟨hticks,hover,b,hb,hab,hgap⟩ := hlate
      obtain ⟨q,hq,hbq⟩ := mem_flatMap.mp hb
      refine ⟨(p::ps).map (Pass.recast · (some closer)), ?_, ?_⟩
      · rw [map_map]
        exact map_congr_left fun p _ => times_recast p _
      · rintro ctx ⟨i,hi⟩ hkept
        have hreaps : TickReaps ⟨ctx, c⟩ (p.recast (some closer)) i := by
          rw [tickReaps_iff, advance_recast]
          refine ⟨hticks, (due_iff _ _).mpr ?_⟩
          dsimp only
          rw [hi]
          exact ⟨rfl, hover⟩
        have hno := hkept.1 i hreaps (feedAt closer b)
          (mem_filterMap.mpr ⟨_, mem_map_of_mem (f := (Pass.recast · (some closer))) hq,
            fragment_recast hbq⟩)
        rw [show (Decoder.mk ctx c).idaReasm.sessions i = _ from hi,
          accepts_closer hab hgap] at hno
        cases hno
    · have hrest := h.resolve_left hlate
      obtain ⟨qs,hqs,hkill⟩ := ih (c.next p) hrest
      obtain ⟨b,hb,hab⟩ := LateFor.pending ps _ hrest
      refine ⟨p.recast none::qs, by rw [map_cons, map_cons, times_recast, hqs], ?_⟩
      rintro ctx ⟨i,hi⟩ ⟨-,hkept⟩
      have hclock := clock_decoderPass ⟨ctx, c⟩ (p.recast none)
      have hctx := decoderPass_silent ⟨ctx, c⟩ p
      refine hkill (ticked ⟨ctx, c⟩ (p.recast none)).idaReasm ⟨i, ?_⟩ ?_
      · -- the tick of this pass is not past the timeout, so the chain stays
        obtain hsame | ⟨hreaps,-⟩ := ticked_session ⟨ctx, c⟩ (p.recast none) i
        · exact hsame.trans hi
        · rw [tickReaps_iff, advance_recast, due_iff] at hreaps
          dsimp only at hreaps
          rw [hi] at hreaps
          exact absurd ⟨hreaps.1, hreaps.2.2, b, mem_append_right _ hb, hab⟩ hlate
      · rw [next_recast] at hclock
        rwa [← hctx, show Decoder.mk _ (c.next p) = decoderPass ⟨ctx, c⟩ (p.recast none) by
          rw [← hclock]]

theorem killed_of_not_onTime (seen : List Nat) (c : Clock)
    (h : ¬ OnTime seen c ps) : (∃ a ∈ seen, LateFor a c ps) ∨
      ∃ qs, qs.map Pass.times = ps.map Pass.times ∧ ∀ ctx : IdaReassembler, Idle ctx →
        ¬ LiveChainsKept ⟨ctx, c⟩ qs := by
  induction ps generalizing seen c with
  | nil => exact absurd trivial h
  | cons p ps ih =>
    by_cases hnow : (c.advance p).ticks p.nowUs = true →
        ∀ a ∈ seen, ∀ b ∈ (p::ps).flatMap Pass.stamps, a ≤ b → b ≤ a+idaReasmFragGapUs →
          (c.advance p).drainNow p.nowUs ≤ a+idaReasmSessionTimeoutUs
    · obtain ⟨a,ha,hlate⟩ | ⟨qs,hqs,hkill⟩ := ih _ _ fun hrest => h ⟨hnow, hrest⟩
      · obtain hseen | hstamp := mem_append.mp ha
        · exact .inl ⟨a, hseen, .inr hlate⟩
        · obtain ⟨qs,hqs,hkill⟩ := hlate.kills
          right
          refine ⟨p.recast (some opener)::qs,
            by rw [map_cons, map_cons, times_recast, hqs], ?_⟩
          rintro ctx hidle ⟨-,hkept⟩
          refine hkill _ (Idle.opens (d := ⟨ctx, c⟩) hidle hstamp) ?_
          rwa [← next_recast c p (some opener), ← clock_decoderPass ⟨ctx, c⟩]
      · right
        refine ⟨p.recast none::qs, by rw [map_cons, map_cons, times_recast, hqs], ?_⟩
        rintro ctx hidle ⟨-,hkept⟩
        refine hkill (decoderPass ⟨ctx, c⟩ (p.recast none)).idaReasm ?_ ?_
        · rw [decoderPass_silent]
          exact Idle.ticked (d := ⟨ctx, c⟩) hidle _
        · rwa [← next_recast c p none, ← clock_decoderPass ⟨ctx, c⟩]
    · push Not at hnow
      obtain ⟨hticks,a,ha,b,hb,hab,hgap,hover⟩ := hnow
      exact .inl ⟨a, ha, .inl ⟨hticks, hover, b, hb, hab, hgap⟩⟩

end

/-- The tick spares every live chain, whatever the frames contain, exactly when the run is on time.
-/
theorem idle_tick_spares_live_chains_iff (startUs : Nat) (ps : List Pass) :
    (∀ qs, qs.map Pass.times = ps.map Pass.times → LiveChainsKept (Decoder.start startUs) qs) ↔
      OnTime [] (Decoder.start startUs).clock ps := by
  have hidle : Idle (Decoder.start startUs).idaReasm := fun _ => rfl
  constructor
  · intro h
    by_contra hlate
    obtain ⟨a,ha,-⟩ | ⟨qs,hqs,hkill⟩ := killed_of_not_onTime ps [] _ hlate
    · cases ha
    · exact hkill _ hidle (h qs hqs)
  · intro h qs hqs
    refine liveChainsKept_of_onTime qs [] _ (fun i hact => ?_) (h.congr hqs)
    rw [hidle i] at hact
    cases hact

def starvedRun : List Pass :=
  [⟨some ⟨1000000, 0, 0, some opener⟩, 3000000, 3000000, false⟩,
   ⟨none, 4200000, 4200000, false⟩,
   ⟨some ⟨1090000, 0, 0, some closer⟩, 4500000, 4500000, false⟩]

/-- The tick reaps the chain; without it the same frames complete it. -/
theorem starved_chain_reaped : ¬ LiveChainsKept (Decoder.start 0) starvedRun ∧
    (starvedRun.foldl decoderPass (Decoder.start 0)).idaReasm.cntOrphan = 1 ∧
    ((starvedRun.eraseIdx 1).foldl decoderPass (Decoder.start 0)).idaReasm.cntCompleted = 1 := by
  refine ⟨?_, by decide +kernel, by decide +kernel⟩
  rintro ⟨-,hkept,-⟩
  have hfrag : admitted false ⟨1090000, 0, 0, some closer⟩ = some (feedAt closer 1090000) :=
    admitted_clean false 1090000 _ rfl rfl
  have hno := hkept ⟨0, by decide⟩ ⟨by decide +kernel, by decide +kernel⟩ (feedAt closer 1090000)
    (mem_filterMap.mpr ⟨_, mem_cons_of_mem _ mem_cons_self, hfrag⟩)
  exact absurd hno (by decide +kernel)

end IridiumAcars.DecoderTask
