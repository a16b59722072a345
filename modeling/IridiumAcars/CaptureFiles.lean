import IridiumAcars.Lib.Runs
import IridiumAcars.CaptureGates

/-! The open file, the held-over bytes and the stream buffer form one pipeline of one kind of data.
-/
namespace IridiumAcars.SdCapture
open Runs LittleEndian List

section

def Worker.owed (skip : Bool) : Worker → List UInt8
  | .recording rest => if skip then [] else rest
  | .chunking data rest => if skip then [] else data++rest
  | .sending data rest => data++rest
  | .idle | .opening _ | .beginning _ => []

def Worker.pending : Worker → List Record
  | .beginning r => [r]
  | .idle | .opening _ | .recording _ | .chunking _ _ | .sending _ _ => []

def Worker.committed : Worker → Bool
  | .beginning _ | .sending _ _ => true
  | .idle | .opening _ | .recording _ | .chunking _ _ => false

def Worker.Fit (skip : Bool) : Worker → Prop
  | .opening b => hdrSize.toNat+4*b.lengthSamples.toNat < 2^32
  | .beginning r => hdrSize.toNat+4*r.burst.lengthSamples.toNat < 2^32
  | .sending _ _ => skip = false
  | .idle | .recording _ | .chunking _ _ => True

structure BurstFlow (live : Prop) (pipe : List UInt8) (room : Nat) (begun : List Record)
    (w : Worker) (skip : Bool) : Prop where
  room : (w.owed skip).length ≤ room
  framed : ∃ rs : List Record, (rs++w.pending).Sublist begun ∧ pipe <+: rs.flatMap Record.bytes ∧
    (live ∨ w.committed = true → pipe++w.owed skip = rs.flatMap Record.bytes)

variable {live : Prop} {pipe : List UInt8} {room : Nat} {begun : List Record} {w w' : Worker}
  {skip skip' : Bool}

theorem BurstFlow.calm {live' : Prop} (h : BurstFlow live pipe room begun w skip)
    (hlive : live' → live) : BurstFlow live' pipe room begun w skip := by
  obtain ⟨rs,hsub,hpre,hall⟩ := h.framed
  exact ⟨h.room, rs, hsub, hpre, fun hl => hall (hl.imp_left hlive)⟩

theorem BurstFlow.more_room {room' : Nat} (h : BurstFlow live pipe room begun w skip)
    (hroom : room ≤ room') : BurstFlow live pipe room' begun w skip :=
  ⟨Nat.le_trans h.room hroom, h.framed⟩

theorem BurstFlow.still (h : BurstFlow live pipe room begun w skip) (hpend : w'.pending = [])
    (hcomm : w'.committed = true → live) (hlive : live → w'.owed skip' = w.owed skip)
    (hlen : (w'.owed skip').length ≤ (w.owed skip).length) :
    BurstFlow live pipe room begun w' skip' := by
  obtain ⟨rs,hsub,hpre,hall⟩ := h.framed
  refine ⟨Nat.le_trans hlen h.room, rs, ?_, hpre, fun hl => ?_⟩
  · rw [hpend, append_nil]
    exact (sublist_append_left rs w.pending).trans hsub
  · have hl' : live := hl.elim id hcomm
    rw [hlive hl']
    exact hall (.inl hl')

theorem BurstFlow.opened {b : Burst} (h : BurstFlow live pipe room begun (.opening b) skip)
    (hlive : live) (r : Record) : BurstFlow live pipe room (begun++[r]) (.beginning r) skip := by
  obtain ⟨rs,hsub,hpre,hall⟩ := h.framed
  refine ⟨h.room, rs, ?_, hpre, fun _ => hall (.inl hlive)⟩
  rw [Worker.pending, append_nil] at hsub
  exact hsub.append (List.Sublist.refl [r])

theorem BurstFlow.header {r : Record} (h : BurstFlow live pipe room begun (.beginning r) skip)
    (hfit : r.header.length+r.burst.iq.length ≤ room) :
    BurstFlow live (pipe++r.header) (room-r.header.length) begun (.recording r.burst.iq) false := by
  obtain ⟨rs,hsub,hpre,hall⟩ := h.framed
  have hpipe : pipe = rs.flatMap Record.bytes := by
    simpa only [Worker.owed, append_nil] using hall (.inr rfl)
  have hall' : pipe++r.header++r.burst.iq = (rs++[r]).flatMap Record.bytes := by
    rw [flatMap_append, ← hpipe, flatMap_singleton, Record.bytes, append_assoc]
  refine ⟨?_, rs++[r], ?_, ⟨_, hall'⟩, fun _ => hall'⟩
  · change r.burst.iq.length ≤ _
    omega
  · rwa [Worker.pending, append_nil]

theorem BurstFlow.chunk {data rest : List UInt8}
    (h : BurstFlow live pipe room begun (.sending data rest) skip) :
    BurstFlow live (pipe++data) (room-data.length) begun (.recording rest) false := by
  obtain ⟨rs,hsub,hpre,hall⟩ := h.framed
  have hall' : pipe++data++rest = rs.flatMap Record.bytes := by
    rw [append_assoc]
    exact hall (.inr rfl)
  refine ⟨?_, rs, hsub, ⟨_, hall'⟩, fun _ => hall'⟩
  have hroom : (data++rest).length ≤ room := h.room
  rw [length_append] at hroom
  change rest.length ≤ _
  omega

end

section

def Feed.pending : Feed → List UInt8
  | .writing data => data
  | .idle | .modeRead _ => []

def RawFlow (pipe passed : List UInt8) (feed : Feed) : Prop :=
  ∃ p, passed = p++feed.pending ∧ pipe.Sublist p

def Sd.pipe (s : Sd) (f : File) : List UInt8 := f.written++(s.stash++s.stream)

structure Flow (live : Prop) (s : Sd) (f : File) : Prop where
  raw : f.kind = .continuous → s.worker.mute s.burstSkip = true ∧ RawFlow (s.pipe f) f.passed s.feed
  bursts : f.kind = .bursts → s.feed.pending = [] ∧
    (s.state = .active → s.burstMode = true → s.feed = .idle) ∧
    BurstFlow live (s.pipe f) s.space f.begun s.worker s.burstSkip

variable {live : Prop} {s : Sd} {f : File}

theorem Flow.not_raw (h : Flow live s f) (hloud : s.worker.mute s.burstSkip = false) :
    f.kind ≠ .continuous := by
  intro hk
  cases hloud.symm.trans (h.raw hk).1

theorem Flow.write (h : Flow live s f) (data : List UInt8) : Flow live (s.write data) f := by
  cases hf : s.feed with
  | idle =>
    simp only [Sd.write, hf]
    split_ifs with hmode
    · assumption
    · refine ⟨fun hk => ⟨(h.raw hk).1, ?_⟩,
        fun hk => ⟨rfl, fun _ hm => absurd hm hmode, (h.bursts hk).2.2⟩⟩
      have hraw := (h.raw hk).2
      rwa [hf] at hraw
  | modeRead | writing => simpa only [Sd.write, hf] using h

theorem mute_begin (hmute : s.worker.mute s.burstSkip = true) (hmode : s.burstMode = false)
    (b : Burst) : (s.begin b).worker.mute (s.begin b).burstSkip = true := by
  cases hw : s.worker with
  | idle => simp [Sd.begin, hw, hmode, Worker.mute]
  | _ => simpa only [Sd.begin, hw] using hmute

theorem Flow.begin (h : Flow live s f) (hmode : f.kind = .continuous → s.burstMode = false)
    (b : Burst) : Flow live (s.begin b) f := by
  refine ⟨fun hk => ⟨mute_begin (h.raw hk).1 (hmode hk) b, ?_⟩, fun hk => ?_⟩
  · have hraw := (h.raw hk).2
    cases hw : s.worker with
    | idle =>
      simp only [Sd.begin, hw, hmode hk]
      exact hraw
    | _ => simpa only [Sd.begin, hw] using hraw
  · cases hw : s.worker with
    | idle =>
      obtain ⟨hpend,hgate,hflow⟩ := h.bursts hk
      rw [hw] at hflow
      simp only [Sd.begin, hw]
      split_ifs with hm
      · exact ⟨hpend, hgate, hflow.still rfl nofun (fun _ => rfl) (Nat.le_refl _)⟩
      · exact ⟨hpend, hgate, hflow.still rfl nofun (fun _ => rfl) (Nat.le_refl _)⟩
    | _ =>
      simpa only [Sd.begin, hw] using h.bursts hk

theorem Flow.finish (h : Flow live s f) : Flow live s.finish f := by
  cases hw : s.worker with
  | recording rest =>
    cases rest with
    | nil =>
      simp only [Sd.finish, hw]
      refine ⟨fun hk => ⟨rfl, (h.raw hk).2⟩, fun hk => ?_⟩
      obtain ⟨hpend,hgate,hflow⟩ := h.bursts hk
      rw [hw] at hflow
      have howed : Worker.owed s.burstSkip (.recording []) = [] := by
        rw [Worker.owed]
        split <;> rfl
      refine ⟨hpend, hgate, hflow.still rfl nofun (fun _ => howed.symm) (Nat.zero_le _)⟩
    | cons x rest => simpa only [Sd.finish, hw] using h
  | _ => simpa only [Sd.finish, hw] using h

theorem owed_chunking (skip : Bool) (rest : List UInt8) (n : Nat) :
    Worker.owed skip (.chunking (rest.take n) (rest.drop n)) =
      Worker.owed skip (.recording rest) := by
  rw [Worker.owed, Worker.owed, take_append_drop]

theorem length_owed_drop (skip : Bool) (rest : List UInt8) (n : Nat) :
    (Worker.owed skip (.recording (rest.drop n))).length ≤
      (Worker.owed skip (.recording rest)).length := by
  cases skip with
  | true => exact Nat.le_refl _
  | false =>
    change (rest.drop n).length ≤ rest.length
    rw [length_drop]
    omega

theorem Flow.chunk (h : Flow live s f) (hraw : f.kind = .continuous → s.burstMode = false)
    (hburst : f.kind = .bursts → live → s.burstMode = true) (n : Nat) :
    Flow live (s.chunk n) f := by
  cases hw : s.worker with
  | recording rest =>
    simp only [Sd.chunk, hw]
    split_ifs with hm
    · refine ⟨fun hk => ?_, fun hk => ?_⟩
      · rw [hraw hk] at hm
        cases hm
      · obtain ⟨hpend,hgate,hflow⟩ := h.bursts hk
        rw [hw] at hflow
        have howed := owed_chunking s.burstSkip rest (4*n)
        exact ⟨hpend, hgate,
          hflow.still rfl nofun (fun _ => howed) (Nat.le_of_eq (congrArg _ howed))⟩
    · refine ⟨fun hk => ⟨?_, (h.raw hk).2⟩, fun hk => ?_⟩
      · have hmute := (h.raw hk).1
        rwa [hw] at hmute
      · obtain ⟨hpend,hgate,hflow⟩ := h.bursts hk
        rw [hw] at hflow
        exact ⟨hpend, hgate, hflow.still rfl nofun (fun hl => absurd (hburst hk hl) hm)
          (length_owed_drop _ _ _)⟩
  | _ => simpa only [Sd.chunk, hw] using h

theorem pipe_send {data : List UInt8} (hfit : data.length ≤ s.space) :
    (s.send data).pipe f = s.pipe f++data := by
  rw [Sd.pipe, Sd.pipe, Sd.send, take_of_length_le hfit]
  simp

theorem space_send {data : List UInt8} (hfit : data.length ≤ s.space) :
    (s.send data).space = s.space-data.length := by
  have hstream : (s.send data).stream = s.stream++data := by
    rw [Sd.send, take_of_length_le hfit]
  rw [Sd.space, hstream, length_append, Sd.space, Nat.sub_sub]

theorem length_header (r : Record) : r.header.length = hdrSize.toNat := by
  simp only [Record.header, length_append, length_leBytes]
  rfl

theorem recordBytes_toNat {n : UInt32} (h : hdrSize.toNat+4*n.toNat < 2^32) :
    (sdCaptureBurstRecordBytes hdrSize n).toNat = hdrSize.toNat+4*n.toNat := by
  have hhdr : hdrSize.toNat = 40 := rfl
  rw [hhdr] at h ⊢
  rw [sdCaptureBurstRecordBytes, UInt32.toNat_add, UInt32.toNat_mul, UInt32.toNat_mul, hhdr]
  have htwo : (2 : UInt32).toNat = 2 := rfl
  rw [htwo]
  omega

theorem fits_header {r : Record} (hsmall : hdrSize.toNat+4*r.burst.lengthSamples.toNat < 2^32)
    (hfits : sdCaptureBurstFits s.space hdrSize r.burst.lengthSamples = true) :
    r.header.length+r.burst.iq.length ≤ s.space := by
  rw [sdCaptureBurstFits, decide_eq_true_eq, recordBytes_toNat hsmall] at hfits
  rwa [length_header, r.burst.whole]

theorem Flow.beginning (h : Flow live s f) {r : Record} (hw : s.worker = .beginning r)
    (hsmall : hdrSize.toNat+4*r.burst.lengthSamples.toNat < 2^32) (tUs : UInt64) :
    Flow live (s.workerStep tUs) f := by
  refine ⟨fun hk => absurd hk (h.not_raw (by rw [hw]; rfl)), fun hk => ?_⟩
  obtain ⟨hpend,hgate,hflow⟩ := h.bursts hk
  rw [hw] at hflow
  simp only [Sd.workerStep, hw]
  by_cases hfits : sdCaptureBurstFits s.space hdrSize r.burst.lengthSamples = true
  · have hfit := fits_header hsmall hfits
    have hhdr : r.header.length ≤ s.space := by omega
    have hskip : decide (s.space < r.header.length) = false := decide_eq_false (by omega)
    rw [if_pos hfits, hskip]
    refine ⟨hpend, hgate, ?_⟩
    have hnext := hflow.header hfit
    rwa [← pipe_send hhdr, ← space_send hhdr] at hnext
  · rw [if_neg hfits]
    exact ⟨hpend, hgate, hflow.still rfl nofun (fun _ => rfl) (Nat.le_refl _)⟩

theorem Flow.sending (h : Flow live s f) {data rest : List UInt8}
    (hw : s.worker = .sending data rest) (hskip : s.burstSkip = false) (tUs : UInt64) :
    Flow live (s.workerStep tUs) f := by
  refine ⟨fun hk => absurd hk (h.not_raw (by rw [hw]; rfl)), fun hk => ?_⟩
  obtain ⟨hpend,hgate,hflow⟩ := h.bursts hk
  rw [hw] at hflow
  have hroom : (data++rest).length ≤ s.space := hflow.room
  have hfit : data.length ≤ s.space := by
    rw [length_append] at hroom
    omega
  simp only [Sd.workerStep, hw]
  refine ⟨hpend, hgate, ?_⟩
  have hnext := hflow.chunk
  rwa [← pipe_send hfit, ← space_send hfit, ← hskip] at hnext

def Sd.newlyBegun (s : Sd) (tUs : UInt64) : List Record :=
  match s.worker with
  | .opening b => if s.state = .active then [⟨s.burstSeq, tUs, b⟩] else []
  | .idle | .beginning _ | .recording _ | .chunking _ _ | .sending _ _ => []

theorem file_workerStep (s : Sd) (tUs : UInt64) : (s.workerStep tUs).file =
    s.file.map fun f => { f with begun := f.begun++s.newlyBegun tUs } := by
  cases hw : s.worker with
  | opening b =>
    simp only [Sd.workerStep, Sd.newlyBegun, hw]
    split
    · rfl
    · simp
  | beginning r | chunking data rest =>
    simp only [Sd.workerStep, Sd.newlyBegun, hw, append_nil, Option.map_id']
    split <;> rfl
  | idle | recording =>
    simp [Sd.workerStep, Sd.newlyBegun, hw]
  | sending data rest =>
    simp only [Sd.workerStep, Sd.newlyBegun, hw, append_nil, Option.map_id']
    rfl

theorem Flow.chunking (h : Flow live s f) {data rest : List UInt8}
    (hw : s.worker = .chunking data rest) (hactive : s.state = .active → live)
    (hdead : s.state ≠ .active → live → f.kind = .bursts → s.worker.owed s.burstSkip = [])
    (tUs : UInt64) : Flow live (s.workerStep tUs) f := by
  simp only [Sd.workerStep, hw]
  refine ⟨fun hk => absurd hk (h.not_raw (by rw [hw]; rfl)), fun hk => ?_⟩
  obtain ⟨hpend,hgate,hflow⟩ := h.bursts hk
  rw [hw] at hflow
  split_ifs with hs
  · have howed : Worker.owed s.burstSkip (.sending data rest) =
        Worker.owed s.burstSkip (.chunking data rest) := by
      rw [hs.2]
      rfl
    exact ⟨hpend, hgate, hflow.still rfl (fun _ => hactive hs.1) (fun _ => howed)
      (Nat.le_of_eq (congrArg _ howed))⟩
  · refine ⟨hpend, hgate, hflow.still rfl nofun (fun hl => ?_) ?_⟩
    · cases hskip : s.burstSkip with
      | true => rfl
      | false =>
        have hnil := hdead (fun ha => hs ⟨ha, hskip⟩) hl hk
        rw [hw, hskip] at hnil
        have hrest : data = [] ∧ rest = [] := append_eq_nil_iff.mp hnil
        rw [hrest.1, hrest.2]
        rfl
    · cases s.burstSkip with
      | true => exact Nat.le_refl _
      | false =>
        change rest.length ≤ (data++rest).length
        rw [length_append]
        omega

theorem Flow.workerStep (h : Flow live s f) (hfit : s.worker.Fit s.burstSkip)
    (hactive : s.state = .active → live)
    (hdead : s.state ≠ .active → live → f.kind = .bursts → s.worker.owed s.burstSkip = [])
    (tUs : UInt64) :
    Flow live (s.workerStep tUs) { f with begun := f.begun++s.newlyBegun tUs } := by
  cases hw : s.worker with
  | opening b =>
    refine ⟨fun hk => absurd hk (h.not_raw (by rw [hw]; rfl)), fun hk => ?_⟩
    obtain ⟨hpend,hgate,hflow⟩ := h.bursts hk
    rw [hw] at hflow
    simp only [Sd.workerStep, Sd.newlyBegun, hw]
    by_cases hs : s.state = .active
    · rw [if_pos hs, if_pos hs]
      exact ⟨hpend, hgate, hflow.opened (hactive hs) _⟩
    · rw [if_neg hs, if_neg hs, append_nil]
      exact ⟨hpend, hgate, hflow.still rfl nofun (fun _ => rfl) (Nat.le_refl _)⟩
  | beginning r =>
    rw [hw] at hfit
    simpa only [Sd.newlyBegun, hw, append_nil] using h.beginning hw hfit tUs
  | chunking data rest =>
    simpa only [Sd.newlyBegun, hw, append_nil] using h.chunking hw hactive hdead tUs
  | sending data rest =>
    rw [hw] at hfit
    simpa only [Sd.newlyBegun, hw, append_nil] using h.sending hw hfit tUs
  | idle | recording =>
    simpa only [Sd.workerStep, Sd.newlyBegun, hw, append_nil] using h

def Sd.newlyPassed (s : Sd) : List UInt8 :=
  match s.feed with
  | .modeRead data => if s.state = .active then data else []
  | .idle | .writing _ => []

theorem file_feedStep (s : Sd) :
    s.feedStep.file = s.file.map fun f => { f with passed := f.passed++s.newlyPassed } := by
  cases hf : s.feed with
  | idle => simp [Sd.feedStep, Sd.newlyPassed, hf]
  | modeRead data =>
    simp only [Sd.feedStep, Sd.newlyPassed, hf]
    split
    · rfl
    · simp
  | writing data =>
    simp only [Sd.feedStep, Sd.newlyPassed, hf, append_nil, Option.map_id']
    rfl

theorem want_sublist (s : Sd) (data : List UInt8) : (s.want data).Sublist data := by
  have htrim : (s.trim data).Sublist data := by
    rw [Sd.trim]
    split
    · exact take_sublist _ _
    · exact List.Sublist.refl _
  exact (take_sublist _ _).trans htrim

theorem RawFlow.send {pipe passed data sent : List UInt8} (h : RawFlow pipe passed (.writing data))
    (hsent : sent.Sublist data) : RawFlow (pipe++sent) passed .idle := by
  obtain ⟨p,hp,hsub⟩ := h
  exact ⟨passed, (append_nil _).symm, hp ▸ hsub.append hsent⟩

theorem Flow.feedStep (h : Flow live s f)
    (hburst : f.kind = .bursts → s.state = .active → s.burstMode = true) :
    Flow live s.feedStep { f with passed := f.passed++s.newlyPassed } := by
  cases hf : s.feed with
  | idle => simpa only [Sd.feedStep, Sd.newlyPassed, hf, append_nil] using h
  | modeRead data =>
    simp only [Sd.feedStep, Sd.newlyPassed, hf]
    by_cases hs : s.state = .active
    · rw [if_pos hs, if_pos hs]
      refine ⟨fun hk => ⟨(h.raw hk).1, ?_⟩, fun hk => ?_⟩
      · obtain ⟨p,hp,hsub⟩ := (h.raw hk).2
        rw [hf] at hp
        exact ⟨f.passed, rfl, hp.symm ▸ hsub.trans (sublist_append_left p [])⟩
      · have hidle := (h.bursts hk).2.1 hs (hburst hk hs)
        rw [hf] at hidle
        cases hidle
    · rw [if_neg hs, if_neg hs, append_nil]
      refine ⟨fun hk => ⟨(h.raw hk).1, ?_⟩, fun hk => ⟨rfl, fun _ _ => rfl, (h.bursts hk).2.2⟩⟩
      have hraw := (h.raw hk).2
      rwa [hf] at hraw
  | writing data =>
    simp only [Sd.feedStep, Sd.newlyPassed, hf, append_nil]
    refine ⟨fun hk => ⟨(h.raw hk).1, ?_⟩, fun hk => ?_⟩
    · have hraw := (h.raw hk).2
      rw [hf] at hraw
      have hpipe : (s.send (s.want data)).pipe f = s.pipe f++(s.want data).take s.space := by
        simp [Sd.pipe, Sd.send]
      have hnext := hraw.send ((take_sublist s.space _).trans (want_sublist s data))
      rwa [← hpipe] at hnext
    · obtain ⟨hpend,-,hflow⟩ := h.bursts hk
      rw [hf] at hpend
      have hwant : s.want data = [] := sublist_nil.mp (hpend ▸ want_sublist s data)
      have hsend : s.send (s.want data) = s := by
        rw [hwant, Sd.send, take_nil, append_nil]
      rw [hsend]
      exact ⟨rfl, fun _ _ => rfl, hflow⟩

theorem Flow.calm {live' : Prop} (h : Flow live s f) (hlive : live' → live) : Flow live' s f :=
  ⟨h.raw, fun hk => ⟨(h.bursts hk).1, (h.bursts hk).2.1, (h.bursts hk).2.2.calm hlive⟩⟩

end

def File.blank (k : Kind) (target : Nat) : File := ⟨k, target, [], [], []⟩

structure Tidy (s : Sd) : Prop where
  fit : s.worker.Fit s.burstSkip
  stash : s.file = none → s.stash = []
  fresh : ∀ k t, s.ctl = .opening k t → Flow True s (.blank k t)
  flow : ∀ f, s.file = some f → Flow (s.state = .active) s f
  counted : ∀ f, s.file = some f → s.bytesCaptured = f.written.length ∧ s.bytesTarget = f.target
  filled : ∀ f, s.file = some f → s.state = .stopping → f.target ≤ (s.pipe f).length
  closed : ∀ f ∈ s.closed, OneKind f f.contents

theorem tidy_initial : Tidy initial where
  fit := trivial
  stash _ := rfl
  fresh _ _ h := by cases h
  flow _ h := by cases h
  counted _ h := by cases h
  filled _ h := by cases h
  closed _ h := by cases h

section
variable {s : Sd}

theorem Tidy.move (h : Tidy s) {c : Ctl} (hc : ∀ k t, c ≠ .opening k t) :
    Tidy { s with ctl := c } :=
  ⟨h.fit, h.stash, fun k t he => absurd he (hc k t),
    fun f hf => ⟨(h.flow f hf).raw, (h.flow f hf).bursts⟩, h.counted, h.filled, h.closed⟩

theorem Tidy.startBursts (h : Tidy s) (hg : Gate s.gates) (hok : Sound s .startBursts) :
    Tidy s.startBursts := by
  cases hc : s.ctl with
  | idle =>
    have hnone := hg.file_none (hok hc)
    have habsurd : ∀ f, s.file ≠ some f := by
      rw [hnone]
      rintro _ ⟨⟩
    simp only [Sd.startBursts, hc]
    exact ⟨h.fit, h.stash, by rintro _ _ ⟨⟩, fun f hf => absurd hf (habsurd f), h.counted, h.filled,
      h.closed⟩
  | _ =>
    simpa only [Sd.startBursts, hc] using h

theorem Tidy.start (h : Tidy s) (target : Nat) : Tidy (s.start target) := by
  cases hc : s.ctl with
  | idle =>
    simp only [Sd.start, hc]
    exact h.move (by rintro _ _ ⟨⟩)
  | _ =>
    simpa only [Sd.start, hc] using h

theorem Tidy.stop (h : Tidy s) : Tidy s.stop := by
  cases hc : s.ctl with
  | idle =>
    simp only [Sd.stop, hc]
    split
    · exact h.move (by rintro _ _ ⟨⟩)
    · exact h
  | _ =>
    simpa only [Sd.stop, hc] using h

theorem refused_ne_opening (k k' : Kind) (t : Nat) : Sd.refused k ≠ .opening k' t := by
  cases k <;> exact nofun

theorem Tidy.refuse (h : Tidy s) : Tidy s.refuse := by
  cases hc : s.ctl with
  | mounting k target =>
    simp only [Sd.refuse, hc]
    exact h.move (refused_ne_opening k)
  | _ =>
    simpa only [Sd.refuse, hc] using h

theorem Tidy.mounting (h : Tidy s) (hidle : s.state = .idle) (hnone : s.file = none) (k : Kind)
    (target : Nat) (hfeed : s.feed.sending = false) (hmute : s.worker.mute s.burstSkip = true) :
    Tidy { s with stream := [], ctl := .opening k target } := by
  have habsurd : ∀ f, s.file ≠ some f := by
    rw [hnone]
    exact fun _ => nofun
  refine ⟨h.fit, h.stash, fun k' t' he => ?_, fun f hf => absurd hf (habsurd f), h.counted,
    fun f hf => absurd hf (habsurd f), h.closed⟩
  have hpipe : Sd.pipe { s with stream := [], ctl := .opening k target } (.blank k' t') = [] := by
    rw [Sd.pipe, h.stash hnone]
    rfl
  have hpend : s.feed.pending = [] := by
    cases hf : s.feed with
    | idle | modeRead => rfl
    | writing =>
      rw [hf] at hfeed
      cases hfeed
  have howed : s.worker.owed s.burstSkip = [] ∧ s.worker.pending = [] := by
    cases hw : s.worker with
    | idle => exact ⟨rfl, rfl⟩
    | recording rest =>
      rw [hw] at hmute
      have hskip : s.burstSkip = true := hmute
      rw [hskip]
      exact ⟨rfl, rfl⟩
    | _ =>
      rw [hw] at hmute
      cases hmute
  refine ⟨fun _ => ⟨hmute, [], hpend.symm, ?_⟩,
    fun _ => ⟨hpend, fun ha => ?_, ?_, [], ?_, ?_, fun _ => ?_⟩⟩
  · rw [hpipe]
  · cases hidle.symm.trans ha
  · rw [howed.1]
    exact Nat.zero_le _
  · rw [howed.2]
    exact List.Sublist.refl _
  · rw [hpipe]
    exact nil_prefix
  · rw [hpipe, howed.1]
    rfl

theorem Tidy.opening (h : Tidy s) {k : Kind} {target : Nat} (hc : s.ctl = .opening k target)
    (hok : Sound s .control) : Tidy s.control := by
  have hfresh := h.fresh k target hc
  have hfeed : k = .bursts → s.feed = .idle := by
    rintro rfl
    rw [Sound, Sd.controlSound, hc] at hok
    exact of_decide_eq_true hok
  simp only [Sd.control, hc]
  refine ⟨h.fit, by rintro ⟨⟩, by rintro _ _ ⟨⟩, fun f hf => ?_, fun f hf => ?_,
    by rintro _ _ ⟨⟩, h.closed⟩
  · cases Option.some.inj hf
    have hflow := hfresh.calm (fun _ : CapState.active = .active => trivial)
    exact ⟨hflow.raw, fun hk => ⟨(hflow.bursts hk).1, fun _ _ => hfeed hk, (hflow.bursts hk).2.2⟩⟩
  · cases Option.some.inj hf
    exact ⟨rfl, rfl⟩

theorem Tidy.disarm (h : Tidy s) : Tidy { s with burstMode := false, ctl := .idle } := by
  refine ⟨h.fit, h.stash, fun _ _ => nofun, fun f hf => ⟨(h.flow f hf).raw, fun hk => ?_⟩,
    h.counted, h.filled, h.closed⟩
  obtain ⟨hpend,-,hflow⟩ := (h.flow f hf).bursts hk
  exact ⟨hpend, fun _ => nofun, hflow⟩

theorem Tidy.stopping (h : Tidy s) (hc : s.ctl = .stopping) (hok : Sound s .control) :
    Tidy s.control := by
  rw [Sound, Sd.controlSound, hc] at hok
  simp only [Sd.control, hc]
  refine ⟨h.fit, h.stash, by rintro _ _ ⟨⟩, fun f hf => ?_, h.counted, fun f hf _ => ?_, h.closed⟩
  · have hflow := (h.flow f hf).calm (fun he : CapState.stopping = .active => by cases he)
    exact ⟨hflow.raw, fun hk => ⟨(hflow.bursts hk).1, by rintro ⟨⟩, (hflow.bursts hk).2.2⟩⟩
  · cases hs : s.state with
    | idle =>
      rw [hs] at hok
      cases hok
    | active =>
      rw [hs] at hok
      have htarget := of_decide_eq_true hok
      rw [(h.counted f hf).1, (h.counted f hf).2] at htarget
      change f.target ≤ (f.written++(s.stash++s.stream)).length
      rwa [length_append, length_append]
    | stopping => exact h.filled f hf hs

theorem Tidy.control (h : Tidy s) (hg : Gate s.gates) (hok : Sound s .control) :
    Tidy s.control := by
  cases hc : s.ctl with
  | idle => simpa only [Sd.control, hc] using h
  | starting k target =>
    simp only [Sd.control, hc]
    split
    · exact h.move (by rintro _ _ ⟨⟩)
    · exact h.move (refused_ne_opening k)
  | mounting k target =>
    have hidle : s.state = .idle := hg.entered (congrArg Ctl.entered hc)
    rw [Sound, Sd.controlSound, hc, Bool.and_eq_true, Bool.not_eq_true'] at hok
    simp only [Sd.control, hc]
    exact h.mounting hidle (hg.file_none hidle) k target hok.1 hok.2
  | opening k target => exact h.opening hc hok
  | backingOut | waiting =>
    simp only [Sd.control, hc]
    exact h.disarm
  | stopping => exact h.stopping hc hok

end

section
variable {s : Sd}

theorem Gate.raw_mode (hg : Gate s.gates) {f : File} (hf : s.file = some f)
    (hk : f.kind = .continuous) : s.burstMode = false :=
  hg.raw (by rw [Sd.gates, hf, Option.map_some, hk])

theorem Gate.burst_mode (hg : Gate s.gates) {f : File} (hf : s.file = some f)
    (hk : f.kind = .bursts) (hs : s.state = .active) : s.burstMode = true :=
  hg.bursts hs (by rw [Sd.gates, hf, Option.map_some, hk])

theorem Gate.opening_mode (hg : Gate s.gates) {k : Kind} {t : Nat} (hc : s.ctl = .opening k t) :
    s.state = .idle ∧ s.burstMode = decide (k = .bursts) := by
  have hidle : s.state = .idle := hg.entered (congrArg Ctl.entered hc)
  refine ⟨hidle, ((hg.resting hidle).2.trans (congrArg Ctl.armed hc)).trans ?_⟩
  cases k <;> rfl

theorem Gate.opening_raw (hg : Gate s.gates) {k : Kind} {t : Nat} (hc : s.ctl = .opening k t)
    (hk : k = .continuous) : s.burstMode = false := by
  rw [(hg.opening_mode hc).2, hk]
  rfl

def Produced (s s' : Sd) : Prop :=
  s'.state = s.state ∧ s'.ctl = s.ctl ∧ s'.stash = s.stash ∧ s'.bytesCaptured = s.bytesCaptured ∧
    s'.bytesTarget = s.bytesTarget ∧ s'.closed = s.closed ∧ s.stream.length ≤ s'.stream.length

theorem produced_refl (s : Sd) : Produced s s := ⟨rfl, rfl, rfl, rfl, rfl, rfl, Nat.le_refl _⟩

theorem produced_send (s : Sd) (data : List UInt8) : Produced s (s.send data) := by
  refine ⟨rfl, rfl, rfl, rfl, rfl, rfl, ?_⟩
  rw [Sd.send, length_append]
  omega

theorem Tidy.produce (h : Tidy s) {s' : Sd} {g : File → File} (hp : Produced s s')
    (hfile : s'.file = s.file.map g)
    (hg : ∀ f, (g f).written = f.written ∧ (g f).target = f.target)
    (hfit : s'.worker.Fit s'.burstSkip)
    (hfresh : ∀ k t, s.ctl = .opening k t → Flow True s' (.blank k t))
    (hflow : ∀ f, s.file = some f → Flow (s.state = .active) s' (g f)) : Tidy s' := by
  obtain ⟨hstate,hctl,hstash,hcaptured,htarget,hclosed,hlen⟩ := hp
  have hsome : ∀ f', s'.file = some f' → ∃ f, s.file = some f ∧ g f = f' := by
    intro f' hf'
    rw [hfile] at hf'
    exact Option.map_eq_some_iff.mp hf'
  refine ⟨hfit, fun hnone => ?_, fun k t hc => ?_, fun f' hf' => ?_, fun f' hf' => ?_,
    fun f' hf' hs => ?_, ?_⟩
  · rw [hfile, Option.map_eq_none_iff] at hnone
    rw [hstash]
    exact h.stash hnone
  · rw [hctl] at hc
    exact hfresh k t hc
  · obtain ⟨f,hf,rfl⟩ := hsome f' hf'
    rw [hstate]
    exact hflow f hf
  · obtain ⟨f,hf,rfl⟩ := hsome f' hf'
    rw [hcaptured, htarget, (hg f).1, (hg f).2]
    exact h.counted f hf
  · obtain ⟨f,hf,rfl⟩ := hsome f' hf'
    rw [hstate] at hs
    have hfilled := h.filled f hf hs
    rw [Sd.pipe, length_append, length_append] at hfilled
    rw [Sd.pipe, length_append, length_append, (hg f).1, (hg f).2, hstash]
    omega
  · rw [hclosed]
    exact h.closed

theorem Tidy.produce_id (h : Tidy s) {s' : Sd} (hp : Produced s s') (hfile : s'.file = s.file)
    (hfit : s'.worker.Fit s'.burstSkip)
    (hfresh : ∀ k t, s.ctl = .opening k t → Flow True s' (.blank k t))
    (hflow : ∀ f, s.file = some f → Flow (s.state = .active) s' f) : Tidy s' :=
  h.produce hp (hfile.trans (Option.map_id' ..).symm) (fun _ => ⟨rfl, rfl⟩) hfit hfresh hflow

theorem Tidy.write (h : Tidy s) (data : List UInt8) : Tidy (s.write data) := by
  have hp : Produced s (s.write data) ∧ (s.write data).file = s.file ∧
      (s.write data).worker = s.worker ∧ (s.write data).burstSkip = s.burstSkip := by
    unfold Sd.write
    split
    · split <;> exact ⟨produced_refl s, rfl, rfl, rfl⟩
    · exact ⟨produced_refl s, rfl, rfl, rfl⟩
  obtain ⟨hp,hfile,hw,hskip⟩ := hp
  refine h.produce_id hp hfile ?_ (fun k t hc => (h.fresh k t hc).write data)
    fun f hf => (h.flow f hf).write data
  rw [hw, hskip]
  exact h.fit

theorem Tidy.feedStep (h : Tidy s) (hg : Gate s.gates) : Tidy s.feedStep := by
  have hp : Produced s s.feedStep ∧ s.feedStep.worker = s.worker ∧
      s.feedStep.burstSkip = s.burstSkip := by
    unfold Sd.feedStep
    split
    · exact ⟨produced_refl s, rfl, rfl⟩
    · split <;> exact ⟨produced_refl s, rfl, rfl⟩
    · exact ⟨produced_send s _, rfl, rfl⟩
  obtain ⟨hp,hw,hskip⟩ := hp
  refine h.produce hp (file_feedStep s) (fun _ => ⟨rfl, rfl⟩) ?_ (fun k t hc => ?_)
    fun f hf => (h.flow f hf).feedStep (hg.burst_mode hf)
  · rw [hw, hskip]
    exact h.fit
  · have hidle := (hg.opening_mode hc).1
    have hnone : s.newlyPassed = [] := by
      cases hf : s.feed with
      | modeRead data => simp [Sd.newlyPassed, hf, hidle]
      | idle | writing => simp only [Sd.newlyPassed, hf]
    have hstep := (h.fresh k t hc).feedStep fun _ hs => by cases hidle.symm.trans hs
    rwa [hnone] at hstep

theorem Tidy.begin (h : Tidy s) (hg : Gate s.gates) {b : Burst} (hok : Sound s (.begin b)) :
    Tidy (s.begin b) := by
  have hp : Produced s (s.begin b) ∧ (s.begin b).file = s.file ∧
      (s.begin b).worker.Fit (s.begin b).burstSkip := by
    unfold Sd.begin
    split
    · split
      · exact ⟨produced_refl s, rfl, hok⟩
      · exact ⟨produced_refl s, rfl, trivial⟩
    · exact ⟨produced_refl s, rfl, h.fit⟩
  exact h.produce_id hp.1 hp.2.1 hp.2.2
    (fun k t hc => (h.fresh k t hc).begin (hg.opening_raw hc) b)
    fun f hf => (h.flow f hf).begin (hg.raw_mode hf) b

theorem Tidy.chunk (h : Tidy s) (hg : Gate s.gates) (n : Nat) : Tidy (s.chunk n) := by
  have hp : Produced s (s.chunk n) ∧ (s.chunk n).file = s.file ∧
      (s.chunk n).worker.Fit (s.chunk n).burstSkip := by
    unfold Sd.chunk
    split
    · split <;> exact ⟨produced_refl s, rfl, trivial⟩
    · exact ⟨produced_refl s, rfl, h.fit⟩
  refine h.produce_id hp.1 hp.2.1 hp.2.2 (fun k t hc => ?_)
    fun f hf => (h.flow f hf).chunk (hg.raw_mode hf) (hg.burst_mode hf) n
  refine (h.fresh k t hc).chunk (hg.opening_raw hc) (fun hk _ => ?_) n
  have hk : k = .bursts := hk
  rw [(hg.opening_mode hc).2, hk]
  rfl

theorem Tidy.finish (h : Tidy s) : Tidy s.finish := by
  have hp : Produced s s.finish ∧ s.finish.file = s.file ∧
      s.finish.worker.Fit s.finish.burstSkip := by
    unfold Sd.finish
    split
    · exact ⟨produced_refl s, rfl, trivial⟩
    · exact ⟨produced_refl s, rfl, h.fit⟩
  exact h.produce_id hp.1 hp.2.1 hp.2.2 (fun k t hc => (h.fresh k t hc).finish)
    fun f hf => (h.flow f hf).finish

theorem Flow.owed_blank {k : Kind} {t : Nat} (h : Flow True s (.blank k t)) (hk : k = .bursts) :
    s.worker.owed s.burstSkip = [] := by
  obtain ⟨-,-,hflow⟩ := h.bursts hk
  obtain ⟨rs,hsub,-,hall⟩ := hflow.framed
  have hrs : rs = [] := (append_eq_nil_iff.mp (sublist_nil.mp hsub)).1
  have hnil := hall (.inl trivial)
  rw [hrs] at hnil
  exact (append_eq_nil_iff.mp hnil).2

theorem Tidy.workerStep (h : Tidy s) (hg : Gate s.gates) (tUs : UInt64) :
    Tidy (s.workerStep tUs) := by
  have hp : Produced s (s.workerStep tUs) ∧
      (s.workerStep tUs).worker.Fit (s.workerStep tUs).burstSkip := by
    have hfit := h.fit
    unfold Sd.workerStep
    split
    case h_1 b hw =>
      rw [hw] at hfit
      split
      · exact ⟨produced_refl s, hfit⟩
      · exact ⟨produced_refl s, trivial⟩
    case h_2 r hw =>
      split
      · exact ⟨produced_send s _, trivial⟩
      · exact ⟨produced_refl s, trivial⟩
    case h_3 data rest hw =>
      split
      case isTrue hs => exact ⟨produced_refl s, hs.2⟩
      case isFalse => exact ⟨produced_refl s, trivial⟩
    case h_4 data rest hw => exact ⟨produced_send s _, trivial⟩
    all_goals exact ⟨produced_refl s, hfit⟩
  refine h.produce hp.1 (file_workerStep s tUs) (fun _ => ⟨rfl, rfl⟩) hp.2 (fun k t hc => ?_)
    fun f hf => (h.flow f hf).workerStep h.fit id (fun hs hl _ => absurd hl hs) tUs
  have hidle := (hg.opening_mode hc).1
  have hnone : s.newlyBegun tUs = [] := by
    cases hw : s.worker with
    | opening b => simp [Sd.newlyBegun, hw, hidle]
    | _ => simp only [Sd.newlyBegun, hw]
  have hfresh := h.fresh k t hc
  have hstep := hfresh.workerStep h.fit (fun _ => trivial) (fun _ _ hk => hfresh.owed_blank hk) tUs
  rwa [hnone] at hstep

end

section
variable {s : Sd}

theorem aligned_le (s : Sd) : s.aligned ≤ s.received.length := Nat.div_mul_le_self _ _

theorem pipe_receive (s : Sd) (f : File) :
    f.written++s.received.take s.aligned++
        (s.received.drop s.aligned++s.stream.drop (writerRecvChunk-s.stash.length)) = s.pipe f := by
  have hsplit : s.received++s.stream.drop (writerRecvChunk-s.stash.length) = s.stash++s.stream := by
    rw [Sd.received, append_assoc, take_append_drop]
  rw [Sd.pipe, ← hsplit, append_assoc, ← append_assoc (s.received.take _),
    take_append_drop]

def Sd.grown (s : Sd) (f : File) : File :=
  { f with written := f.written++s.received.take s.aligned }

theorem length_grown (s : Sd) (f : File) :
    (s.grown f).written.length = f.written.length+s.aligned := by
  rw [Sd.grown, length_append, length_take, Nat.min_eq_left (aligned_le s)]

section
variable (hrun : s.state ≠ .idle ∧ s.writer = .loop)
include hrun

theorem state_receive : s.receive.state = s.state ∨
    s.receive.state = .stopping ∧ s.bytesTarget ≤ s.bytesCaptured+s.aligned := by
  simp only [Sd.receive, if_pos hrun]
  split
  case isTrue hstop => exact .inr ⟨rfl, hstop.2.2.2⟩
  case isFalse => exact .inl rfl

theorem active_of_receive (h : s.receive.state = .active) : s.state = .active := by
  obtain hsame | ⟨hstop,-⟩ := state_receive hrun
  · rwa [← hsame]
  · cases hstop.symm.trans h

theorem file_receive {f : File} (hf : s.file = some f) : s.receive.file = some (s.grown f) := by
  simp only [Sd.receive, if_pos hrun, hf]
  rfl

theorem pipe_grown (f : File) : s.receive.pipe (s.grown f) = s.pipe f := by
  rw [← pipe_receive s f]
  simp only [Sd.receive, if_pos hrun]
  rfl

theorem space_receive : s.space ≤ s.receive.space := by
  have hstream : s.receive.stream = s.stream.drop (writerRecvChunk-s.stash.length) := by
    simp only [Sd.receive, if_pos hrun]
  rw [Sd.space, Sd.space, hstream, length_drop]
  omega

theorem frame_receive (hsome : s.file.isSome = true) : s.receive.ctl = s.ctl ∧
    s.receive.worker = s.worker ∧ s.receive.burstSkip = s.burstSkip ∧ s.receive.feed = s.feed ∧
    s.receive.burstMode = s.burstMode ∧ s.receive.closed = s.closed ∧
    s.receive.bytesTarget = s.bytesTarget ∧
    s.receive.bytesCaptured = s.bytesCaptured+s.aligned := by
  simp [Sd.receive, if_pos hrun, hsome]

end

theorem Tidy.receive (h : Tidy s) (hg : Gate s.gates) : Tidy s.receive := by
  by_cases hrun : s.state ≠ .idle ∧ s.writer = .loop
  · have hsome : s.file.isSome = true := by
      have hopen := hg.opened.mpr hrun
      rwa [Sd.gates, Option.isSome_map] at hopen
    obtain ⟨f,hf⟩ := Option.isSome_iff_exists.mp hsome
    obtain ⟨hcap,htgt⟩ := h.counted f hf
    have hfile := file_receive hrun hf
    have hpipe := pipe_grown hrun f
    obtain ⟨hctl,hworker,hskip,hfeed,hmode,hclosed,htarget,hcaptured⟩ := frame_receive hrun hsome
    refine ⟨?_, ?_, fun k t hc => ?_, fun f' hf' => ?_, fun f' hf' => ?_, fun f' hf' hs => ?_, ?_⟩
    · rw [hworker, hskip]
      exact h.fit
    · rw [hfile]
      rintro ⟨⟩
    · rw [hctl] at hc
      exact absurd (hg.opening_mode hc).1 hrun.1
    · cases (hfile.symm.trans hf')
      have hflow := (h.flow f hf).calm (active_of_receive hrun)
      refine ⟨fun hk => ?_, fun hk => ?_⟩
      · rw [hworker, hskip, hfeed, hpipe]
        exact hflow.raw hk
      · obtain ⟨hpend,hgate,hrecords⟩ := hflow.bursts hk
        rw [hworker, hskip, hfeed, hmode, hpipe]
        exact ⟨hpend, fun ha => hgate (active_of_receive hrun ha),
          hrecords.more_room (space_receive hrun)⟩
    · cases (hfile.symm.trans hf')
      rw [hcaptured, htarget, length_grown, hcap, htgt]
      exact ⟨rfl, rfl⟩
    · cases (hfile.symm.trans hf')
      rw [hpipe]
      obtain hsame | ⟨-,hreached⟩ := state_receive hrun
      · exact h.filled f hf (hsame.symm.trans hs)
      · have hgrown : (s.grown f).written.length ≤ (s.pipe f).length := by
          rw [← hpipe, Sd.pipe, length_append]
          omega
        rw [length_grown, ← hcap] at hgrown
        rw [htgt] at hreached
        exact Nat.le_trans hreached hgrown
    · rw [hclosed]
      exact h.closed
  · rwa [Sd.receive, if_neg hrun]

theorem Flow.oneKind {live : Prop} {f : File} (h : Flow live s f) : OneKind f (s.pipe f) := by
  rw [OneKind]
  cases hk : f.kind with
  | continuous =>
    obtain ⟨p,hp,hsub⟩ := (h.raw hk).2
    rw [hp]
    exact hsub.trans (sublist_append_left p _)
  | bursts =>
    obtain ⟨rs,hsub,hpre,-⟩ := (h.bursts hk).2.2.framed
    exact ⟨rs, (sublist_append_left rs _).trans hsub, hpre⟩

theorem Tidy.close (h : Tidy s) (hg : Gate s.gates) : Tidy s.close := by
  by_cases hrun : s.state = .stopping ∧ s.writer = .loop
  · have hidle : s.state ≠ .idle := by
      rw [hrun.1]
      decide
    have hsome : s.file.isSome = true := by
      have hopen := hg.opened.mpr ⟨hidle, hrun.2⟩
      rwa [Sd.gates, Option.isSome_map] at hopen
    obtain ⟨f,hf⟩ := Option.isSome_iff_exists.mp hsome
    simp only [Sd.close, if_pos hrun, hf]
    refine ⟨h.fit, fun _ => rfl, fun k t hc => absurd (hg.opening_mode hc).1 hidle, by rintro _ ⟨⟩,
      by rintro _ ⟨⟩, by rintro _ ⟨⟩, fun g hgc => ?_⟩
    rw [mem_append, mem_singleton] at hgc
    obtain hold | rfl := hgc
    · exact h.closed g hold
    · have hfull : f.target-(s.pipe f).length = 0 := Nat.sub_eq_zero_of_le (h.filled f hf hrun.1)
      have hcontents : File.contents { f with written := s.pipe f } = s.pipe f := by
        rw [File.contents, hfull]
        exact append_nil _
      change OneKind _ (File.contents { f with written := s.pipe f })
      rw [hcontents]
      exact (h.flow f hf).oneKind
  · rwa [Sd.close, if_neg hrun]

theorem Tidy.writerStep (h : Tidy s) (hg : Gate s.gates) : Tidy s.writerStep := by
  by_cases hw : s.writer = .loop
  · simpa only [Sd.writerStep, hw] using h
  have hstop : s.state = .stopping := hg.closing hw
  have hidle : s.state ≠ .idle := by
    rw [hstop]
    decide
  have hnone : ∀ f, s.file ≠ some f := by
    intro f hf
    exact hw (hg.opened.mp (by rw [Sd.gates, hf]; rfl)).2
  have hopening : ∀ k t, s.ctl ≠ .opening k t := fun k t hc => hidle (hg.opening_mode hc).1
  cases hc : s.writer with
  | loop => exact absurd hc hw
  | clearing | idling =>
    simp only [Sd.writerStep, hc]
    exact ⟨h.fit, h.stash, fun k t he => absurd he (hopening k t), fun f hf => absurd hf (hnone f),
      h.counted, fun f hf => absurd hf (hnone f), h.closed⟩

theorem Tidy.step (h : Tidy s) (hg : Gate s.gates) {m : Move} (hok : Sound s m) :
    Tidy (step s m) := by
  cases m with
  | startBursts => exact h.startBursts hg hok
  | start target => exact h.start target
  | stop => exact h.stop
  | control => exact h.control hg hok
  | refuse => exact h.refuse
  | write data => exact h.write data
  | feed => exact h.feedStep hg
  | begin b => exact h.begin hg hok
  | chunk n => exact h.chunk hg n
  | finish => exact h.finish
  | worker tUs => exact h.workerStep hg tUs
  | receive => exact h.receive hg
  | close => exact h.close hg
  | writer => exact h.writerStep hg

theorem OneKind.shorten {f : File} {bytes bytes' : List UInt8} (h : OneKind f bytes)
    (hpre : bytes' <+: bytes) : OneKind f bytes' := by
  rw [OneKind] at h ⊢
  cases hk : f.kind with
  | continuous =>
    rw [hk] at h
    exact hpre.sublist.trans h
  | bursts =>
    rw [hk] at h
    obtain ⟨rs,hsub,hrs⟩ := h
    exact ⟨rs, hsub, hpre.trans hrs⟩

/-- A run whose steps are all sound keeps every file to one kind of data. -/
theorem capture_files_one_kind {moves : List Move} (h : AllSteps step Sound initial moves) :
    Unmixed (run moves) := by
  obtain ⟨hg,ht⟩ := h.invariant (fun s => Gate s.gates ∧ Tidy s)
    (fun _ _ hok hs => ⟨hs.1.step hok, hs.2.step hs.1 hok⟩) ⟨gate_initial, tidy_initial⟩
  exact ⟨ht.closed, fun f hf => (ht.flow f hf).oneKind.shorten (prefix_append _ _)⟩

end

def rawThenBurst (b : Burst) : List Move :=
  [.start 0, .control, .write [1, 2, 3, 4], .control, .control, .feed, .feed, .stop, .control,
    .close, .writer, .writer, .control, .startBursts, .control, .control, .control, .begin b,
    .worker 7, .worker 7, .chunk 1, .worker 7, .worker 7, .receive, .stop, .control, .chunk 1,
    .close, .writer, .writer, .control, .finish]

def twoSamples : Burst := ⟨2, 0, 0, 0, 0, [1, 2, 3, 4, 5, 6, 7, 8], rfl⟩

theorem capture_files_one_kind_cut :
    AllSteps step Sound initial (rawThenBurst twoSamples) ∧
      Unmixed (run (rawThenBurst twoSamples)) :=
  ⟨by decide +kernel, capture_files_one_kind (by decide +kernel)⟩

/-- A second burst request is refused and takes the flag down; the feed then writes into the file.
-/
def refusedBursts : List Move :=
  [.startBursts, .control, .control, .control, .startBursts, .control, .control, .write [1, 2],
  .feed, .feed, .stop, .control, .close]

theorem refused_start_mixes_file : ¬Unmixed (run refusedBursts) := by
  have hclosed : (run refusedBursts).closed = [⟨.bursts, 0, [1, 2], [1, 2], []⟩] := by
    decide +kernel
  intro h
  have hfile := h.1 _ (by rw [hclosed]; exact mem_singleton_self _)
  obtain ⟨rs,hsub,hpre⟩ := hfile
  rw [sublist_nil.mp hsub] at hpre
  cases prefix_nil.mp hpre

end IridiumAcars.SdCapture
