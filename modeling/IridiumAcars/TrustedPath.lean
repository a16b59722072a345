import IridiumAcars.IdleTick
import IridiumAcars.SbdIntegrity

/-! The decoder task's two stages together: fragments into envelopes, envelopes into SBD messages.
A complete chain with a fragment of bad checksum stays out of the second stage. -/
namespace IridiumAcars.TrustedPath
open SlotTable IdaReasm IdaChain DecoderTask List
open SbdReasm (SbdReassembler SbdMessage sbdReassemblerFeed sbdReassemblerTick sbdMaxPayload)
open SbdIntegrity (Part bodies AssembledFrom)

/-- `acars` holds the messages that `try_acars` got. -/
structure Chain where
  decoder : Decoder
  sbd : SbdReassembler
  acars : List SbdMessage

def Chain.start (startUs : Nat) : Chain := ⟨.start startUs, .init, []⟩

/-- What `process_one` hands to `sbd_reassembler_feed`. -/
def envelope (d : Decoder) (p : Pass) : Option SbdReasm.Feed :=
  p.popped.bind fun it => (admitted p.bestEffortDecode it).bind fun f =>
    let r := (idaReassemblerFeedEx (idaSalvageDrain (ticked d p).idaReasm it.timestampUs).1 f).2
    if r.ret = 1 ∧ r.dirty = false then some ⟨r.out, it.direction == 1, it.timestampUs⟩ else none

def sbdTicked (c : Chain) (p : Pass) : SbdReassembler :=
  let clock := c.decoder.clock.advance p
  if clock.ticks p.nowUs then sbdReassemblerTick c.sbd (clock.drainNow p.nowUs) else c.sbd

def Chain.pass (c : Chain) (p : Pass) : Chain :=
  match envelope c.decoder p with
  | none => ⟨decoderPass c.decoder p, sbdTicked c p, c.acars⟩
  | some e =>
    let fed := sbdReassemblerFeed (sbdTicked c p) e
    ⟨decoderPass c.decoder p, fed.1,
      if fed.2.ret = 1 then c.acars++fed.2.out.toList else c.acars⟩

/-- The bytes of fed fragments, in sequence, each of good checksum. -/
def Clean (fed : List Feed) (e : SbdReasm.Feed) : Prop :=
  ∃ fs : List Feed, InSequence fs ∧ e.payload = chainPayload fs ∧
    ∀ g ∈ fs, g ∈ fed ∧ g.fragCrcOk = true ∧ g.uplink = e.uplink

/-- Made of one clean envelope, or of all that the first one announces. -/
def Trusted (fed : List Feed) (msg : SbdMessage) : Prop :=
  ∃ ps : List Part, (∀ p ∈ ps, Clean fed p.feed ∧ p.env.typ = msg.typ ∧
      p.feed.uplink = msg.uplink) ∧
    msg.payload = (bodies ps).take sbdMaxPayload ∧
    (ps.length = 1 ∧ msg.msgNo ≤ 1 ∨ AssembledFrom ps msg ∧ ps.length = msg.msgCount)

section
variable {fed : List Feed} {f : Feed}

def Kept (fed : List Feed) (s : Session) : Prop :=
  s.active = true → ∃ fs, Grown fs s ∧ (∀ g ∈ fs, g ∈ fed) ∧ ∀ o ∈ fs.head?, o.fragCrcOk = true

theorem kept_idle {s : Session} (h : s.active = false) : Kept fed s := by
  intro hact
  rw [h] at hact
  cases hact

theorem crcOk_of_not_dirty {fs : List Feed} (hhead : ∀ o ∈ fs.head?, o.fragCrcOk = true)
    (h : chainDirty fs = false) : ∀ g ∈ fs, g.fragCrcOk = true := by
  cases fs with
  | nil => exact fun g hg => absurd hg not_mem_nil
  | cons o fs =>
    rw [chainDirty, tail_cons, any_eq_false] at h
    refine forall_mem_cons.mpr ⟨hhead o rfl, fun g hg => ?_⟩
    simpa using h g hg

theorem inSequence_single (h : f.frag.daCtr = 0) : InSequence [f] := by
  refine ⟨by simp [h], by simp, ?_, isChain_singleton f⟩
  intro o ho g hg
  rw [mem_singleton.mp hg, ← Option.some.inj (Option.mem_def.mp ho)]
  exact nearHz_self _

section
variable {ctx : IdaReassembler} (h : ∀ i, Kept fed (ctx.sessions i)) (hfed : f ∈ fed)
  (hopen : f.frag.daCtr = 0 → f.fragCrcOk = true)
include h hfed hopen

theorem feed_kept (i : Fin idaReasmMaxSessions) :
    Kept fed ((idaReassemblerFeedEx ctx f).1.sessions i) := by
  have hstep := feedEx_step ctx f
  generalize (idaReassemblerFeedEx ctx f).1.sessions = slots at hstep ⊢
  generalize (idaReassemblerFeedEx ctx f).1.cntOrphan = orphans at hstep
  generalize (idaReassemblerFeedEx ctx f).2 = r at hstep
  cases hstep with
  | standalone | tableFull | orphan => exact h i
  | overflow j hctr hacc hlen | completed j hctr hcont hacc hlen =>
    exact forall_setSlot j h (kept_idle rfl) i
  | opened j hctr hcont hfree =>
    refine forall_setSlot j h (fun _ => ⟨[f], .opener f hctr hcont, ?_, ?_⟩) i
    · exact forall_mem_singleton.mpr hfed
    · intro o ho
      rw [← Option.some.inj (Option.mem_def.mp ho)]
      exact hopen hctr
  | extended j hctr hcont hacc hlen =>
    obtain ⟨fs,hg,hsub,hhead⟩ := h j (accepted_of_accepts _ f hacc).active
    refine forall_setSlot j h (fun _ => ⟨fs++[f], .extend fs _ f hg hctr hcont hacc hlen,
      forall_mem_append.mpr ⟨hsub, forall_mem_singleton.mpr hfed⟩, ?_⟩) i
    intro o ho
    obtain ⟨o',ho',-⟩ := hg.facts.head
    rw [head?_append, ho'] at ho
    exact hhead o (ho'.trans ho)

theorem feed_clean {nowUs : Nat} (hcap : f.outCap = idaReasmMaxBytes)
    (hret : (idaReassemblerFeedEx ctx f).2.ret = 1)
    (hdirty : (idaReassemblerFeedEx ctx f).2.dirty = false) :
    Clean fed ⟨(idaReassemblerFeedEx ctx f).2.out, f.uplink, nowUs⟩ := by
  have hstep := feedEx_step ctx f
  generalize (idaReassemblerFeedEx ctx f).1.sessions = slots at hstep
  generalize (idaReassemblerFeedEx ctx f).1.cntOrphan = orphans at hstep
  generalize (idaReassemblerFeedEx ctx f).2 = r at hstep hret hdirty ⊢
  cases hstep with
  | tableFull | orphan | overflow | opened | extended => cases hret
  | standalone hctr hcont =>
    refine ⟨[f], inSequence_single hctr, ?_,
      forall_mem_singleton.mpr ⟨hfed, hopen hctr, rfl⟩⟩
    have hlen := f.frag.len_le
    simp only [chainPayload, flatMap_singleton]
    exact take_of_length_le (by rw [hcap]; unfold idaReasmMaxBytes; omega)
  | completed j hctr hcont hacc hlen =>
    have ha := accepted_of_accepts _ f hacc
    obtain ⟨fs,hg,hsub,hhead⟩ := h j ha.active
    have hf := hg.facts
    have hall : ((ctx.sessions j).dirty || !f.fragCrcOk) = false := hdirty
    rw [hf.dirty, Bool.or_eq_false_iff, Bool.not_eq_false'] at hall
    refine ⟨fs++[f], hf.inSequence_snoc ha hctr, ?_, forall_mem_append.mpr
      ⟨fun g hg => ?_, forall_mem_singleton.mpr ⟨hfed, hall.2, rfl⟩⟩⟩
    · rw [chainPayload_snoc, ← hf.payload]
      exact take_of_length_le (hcap ▸ ((ctx.sessions j).merge f hlen).len_le)
    · exact ⟨hsub g hg, crcOk_of_not_dirty hhead hall.1 g hg,
        (hf.uplink g hg).trans ha.uplink.symm⟩

end

/-- No opener of bad checksum is admitted. -/
theorem admitted_spec {bestEffortDecode : Bool} {it : FrameQueueItem}
    (h : admitted bestEffortDecode it = some f) : (f.frag.daCtr = 0 → f.fragCrcOk = true) ∧
      f.uplink = (it.direction == 1) ∧ f.outCap = idaReasmMaxBytes := by
  rw [admitted] at h
  split at h
  · cases h
  · next ida _ =>
    dsimp only at h
    split at h
    · next hin =>
      rw [← Option.some.inj h]
      refine ⟨fun hctr => ?_, rfl, rfl⟩
      have hzero : ida.val.daCtr = 0 := hctr
      simp only [hzero] at hin
      simp_all
    · cases h

theorem kept_drain {ctx : IdaReassembler} (h : ∀ i, Kept fed (ctx.sessions i)) (nowUs : Nat)
    (i : Fin idaReasmMaxSessions) : Kept fed ((idaSalvageDrain ctx nowUs).1.sessions i) := by
  rw [drain_sessions, drainedSlot]
  split
  · exact kept_idle rfl
  · exact h i

theorem kept_ticked {d : Decoder} (h : ∀ i, Kept fed (d.idaReasm.sessions i)) (p : Pass)
    (i : Fin idaReasmMaxSessions) : Kept fed ((ticked d p).idaReasm.sessions i) := by
  obtain hsame | ⟨-,hidle⟩ := ticked_session d p i
  · rw [hsame]
    exact h i
  · exact kept_idle hidle

end

section
variable {fed : List Feed} {e : SbdReasm.Feed}

def Held (fed : List Feed) (s : SbdReasm.Session) : Prop :=
  s.active = true → ∃ ps, SbdIntegrity.SlotFacts ps s ∧ ∀ p ∈ ps, Clean fed p.feed

theorem held_idle {s : SbdReasm.Session} (h : s.active = false) : Held fed s := by
  intro hact
  rw [h] at hact
  cases hact

theorem Held.expire {s : SbdReasm.Session} (h : Held fed s) (nowUs : Nat) :
    Held fed (s.expire nowUs) := by
  rw [SbdReasm.Session.expire]
  split
  · exact held_idle rfl
  · exact h

theorem trusted_one (he : Clean fed e) {env : SbdReasm.Parsed}
    (hparse : SbdReasm.parseEnvelope e.payload e.uplink = some env) (count : Nat) {no : Nat}
    (hno : no ≤ 1) :
    Trusted fed ⟨env.typ, e.uplink, e.nowUs, env.body.take sbdMaxPayload, count, no⟩ := by
  refine ⟨[⟨e, env, hparse⟩], ?_, ?_, .inl ⟨rfl, hno⟩⟩
  · intro p hp
    rw [mem_singleton.mp hp]
    exact ⟨he, rfl, rfl⟩
  · rw [bodies, flatMap_singleton]

theorem sbd_feed {ctx : SbdReassembler} (h : ∀ i, Held fed (ctx.sessions i)) (he : Clean fed e) :
    (∀ i, Held fed ((sbdReassemblerFeed ctx e).1.sessions i)) ∧
      ∀ msg ∈ (sbdReassemblerFeed ctx e).2.out, Trusted fed msg := by
  have hswept : ∀ i, Held fed (SbdReasm.sweep ctx.sessions e.nowUs i) := fun i => (h i).expire _
  have hstep := SbdReasm.feed_step ctx e
  generalize (sbdReassemblerFeed ctx e).1.sessions = slots at hstep ⊢
  generalize (sbdReassemblerFeed ctx e).2 = r at hstep ⊢
  have hnone (msg : SbdMessage) (hm : msg ∈ (none : Option SbdMessage)) : Trusted fed msg := by
    cases hm
  cases hstep with
  | filtered => exact ⟨h, hnone⟩
  | tableFull | unmatched | stray => exact ⟨hswept, hnone⟩
  | short env hparse hno count =>
    exact ⟨hswept, fun msg hm => Option.some.inj hm ▸ trusted_one he hparse count (by decide)⟩
  | single env hparse hno hcnt =>
    exact ⟨hswept, fun msg hm => Option.some.inj hm ▸ trusted_one he hparse 1 le_rfl⟩
  | opened env i hparse hno hcnt hfree =>
    refine ⟨forall_setSlot i hswept fun _ => ⟨[⟨e, env, hparse⟩],
      SbdIntegrity.facts_open ⟨e, env, hparse⟩ hno hcnt, ?_⟩, hnone⟩
    exact fun p hp => mem_singleton.mp hp ▸ he
  | extended env i hparse hno hawait hmore =>
    obtain ⟨ps,hf,hps⟩ := hswept i ((SbdIntegrity.awaits_iff _ _ _ _).mp hawait).1
    refine ⟨forall_setSlot i hswept fun _ => ⟨ps++[⟨e, env, hparse⟩],
      hf.extend ⟨e, env, hparse⟩ hawait hmore, ?_⟩, hnone⟩
    exact forall_mem_append.mpr ⟨hps, fun p hp => mem_singleton.mp hp ▸ he⟩
  | completed env i hparse hno hawait hlast =>
    obtain ⟨hact,hnext,-,-⟩ := (SbdIntegrity.awaits_iff _ _ _ _).mp hawait
    obtain ⟨ps,hf,hps⟩ := hswept i hact
    have hall := hf.assembled_snoc ⟨e, env, hparse⟩ hawait
    refine ⟨forall_setSlot i hswept (held_idle rfl), fun msg hm => Option.some.inj hm ▸ ?_⟩
    refine ⟨ps++[⟨e, env, hparse⟩], ?_, hall.payload, .inr ⟨hall, ?_⟩⟩
    · intro p hp
      refine ⟨?_, hall.same p hp⟩
      exact forall_mem_append.mpr
        ⟨hps, fun p hp => mem_singleton.mp hp ▸ he⟩ p hp
    · have hlen := hf.next
      have hcnt := hf.cnt
      rw [length_append, length_singleton]
      change ps.length+1 = (SbdReasm.sweep ctx.sessions e.nowUs i).msg.msgCount
      omega

end

structure Sound (fed : List Feed) (c : Chain) : Prop where
  ida : ∀ i, Kept fed (c.decoder.idaReasm.sessions i)
  sbd : ∀ i, Held fed (c.sbd.sessions i)
  acars : ∀ msg ∈ c.acars, Trusted fed msg

theorem ida_pass {fed : List Feed} {d : Decoder} (h : ∀ i, Kept fed (d.idaReasm.sessions i))
    {p : Pass} (hp : ∀ f ∈ p.fragment, f ∈ fed) :
    (∀ i, Kept fed ((decoderPass d p).idaReasm.sessions i)) ∧
      ∀ e ∈ envelope d p, Clean fed e := by
  have htick := kept_ticked h p
  rw [decoderPass, envelope]
  rw [Pass.fragment] at hp
  cases hpop : p.popped with
  | none => exact ⟨htick, fun e he => by cases he⟩
  | some it =>
    rw [hpop] at hp
    simp only [Option.bind_some, processOne] at hp ⊢
    cases hadm : admitted p.bestEffortDecode it with
    | none => exact ⟨htick, fun e he => by cases he⟩
    | some f =>
      obtain ⟨hopen,hup,hcap⟩ := admitted_spec hadm
      have hdrain := kept_drain htick it.timestampUs
      have hfed := hp f hadm
      refine ⟨feed_kept hdrain hfed hopen, fun e he => ?_⟩
      rw [Option.bind_some] at he
      split at he
      · next hret =>
        rw [← Option.some.inj he, ← hup]
        exact feed_clean hdrain hfed hopen hcap hret.1 hret.2
      · cases he

theorem Sound.pass {fed : List Feed} {c : Chain} (h : Sound fed c) {p : Pass}
    (hp : ∀ f ∈ p.fragment, f ∈ fed) : Sound fed (c.pass p) := by
  obtain ⟨hida,henv⟩ := ida_pass h.ida hp
  have hsbd (i) : Held fed ((sbdTicked c p).sessions i) := by
    rw [sbdTicked]
    split
    · exact (h.sbd i).expire _
    · exact h.sbd i
  rw [Chain.pass]
  cases hcase : envelope c.decoder p with
  | none => exact ⟨hida, hsbd, h.acars⟩
  | some e =>
    obtain ⟨hslots,hout⟩ := sbd_feed hsbd (henv e hcase)
    refine ⟨hida, hslots, ?_⟩
    dsimp only
    split
    · exact forall_mem_append.mpr ⟨h.acars, fun msg hm => hout msg (Option.mem_toList.mp hm)⟩
    · exact h.acars

theorem sound_run (startUs : Nat) (ps : List Pass) :
    Sound (ps.filterMap Pass.fragment) (ps.foldl Chain.pass (.start startUs)) := by
  refine List.foldlRecOn ps Chain.pass ?_ fun c h p hp => h.pass fun f hf => ?_
  · exact ⟨fun _ => kept_idle rfl, fun _ => held_idle rfl, fun _ hm => absurd hm not_mem_nil⟩
  · exact mem_filterMap.mpr ⟨p, hp, hf⟩

/-- However best-effort decoding is switched, a message for the ACARS parser is made of complete
chains of fragments that all passed their checksum. -/
theorem acars_messages_trusted (startUs : Nat) (ps : List Pass) (msg : SbdMessage)
    (h : msg ∈ (ps.foldl Chain.pass (.start startUs)).acars) :
    Trusted (ps.filterMap Pass.fragment) msg :=
  (sound_run startUs ps).acars msg h

def cleanFrame (daCtr : Nat) (more : Bool) (payload : List UInt8) : DecodedIda :=
  ⟨{ IdaDecode.IdaDecoded.blank with
      ok := true, headerOk := true, crcOk := true, daCtr := daCtr, daCont := more.toNat
      payload := payload.take 24 },
    more.toNat_le, length_take_le 24 payload⟩

/-- A short message in two fragments. -/
def twoFrames : List Pass :=
  [⟨some ⟨1000000, 0, 0, some (cleanFrame 0 true [0x76, 9, 1])⟩, 1000000, 1000000, true⟩,
   ⟨some ⟨1090000, 0, 0, some (cleanFrame 1 false [2, 3])⟩, 1090000, 1090000, true⟩]

theorem acars_messages_trusted_two :
    Trusted (twoFrames.filterMap Pass.fragment) ⟨.dataDl7609, false, 1090000, [1, 2, 3], 1, 0⟩ :=
  acars_messages_trusted 0 twoFrames _ (by decide +kernel)

end IridiumAcars.TrustedPath
