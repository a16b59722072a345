import IridiumAcars.SbdReasm
import IridiumAcars.Lib.Ownership
import IridiumAcars.Lib.Runs

/-! Integrity of multi-frame SBD messages over whole runs of feeds and ticks. -/
namespace IridiumAcars.SbdIntegrity
open Ownership Runs SbdReasm List

inductive Event where
  | feed (f : Feed)
  | tick (nowUs : Nat)
deriving DecidableEq

inductive Outcome where
  | fed (r : FeedResult)
  | ticked
deriving DecidableEq

def react (ctx : SbdReassembler) : Event → SbdReassembler × Outcome
  | .feed f => ((sbdReassemblerFeed ctx f).1, .fed (sbdReassemblerFeed ctx f).2)
  | .tick nowUs => (sbdReassemblerTick ctx nowUs, .ticked)

abbrev Log := List (Event × Outcome)

def run (es : List Event) : Trace SbdReassembler Event Outcome := runFrom react .init es

structure Part where
  feed : Feed
  env : Parsed
  parsed : parseEnvelope feed.payload feed.uplink = some env

def bodies (ps : List Part) : List UInt8 := ps.flatMap fun p => p.env.body

/-- Parts 1, 2, … of one type and direction, the first of which announces the count. -/
structure AssembledFrom (ps : List Part) (msg : SbdMessage) : Prop where
  numbers : ps.map (fun p => p.env.msgNo) = (List.range ps.length).map (· + 1)
  same : ∀ p ∈ ps, p.env.typ = msg.typ ∧ p.feed.uplink = msg.uplink
  first : ∃ p, ps.head? = some p ∧ p.env.msgCnt = msg.msgCount ∧ p.feed.nowUs = msg.timestampUs
  payload : msg.payload = (bodies ps).take sbdMaxPayload
  msgNo : msg.msgNo = ps.length

structure SlotFacts (ps : List Part) (s : Session) : Prop where
  msg : AssembledFrom ps s.msg
  active : s.active = true
  typ : s.typ = s.msg.typ
  uplink : s.uplink = s.msg.uplink
  next : s.msgNoNext = ps.length+1
  cnt : s.msgCnt = s.msg.msgCount
  more : ps.length < s.msgCnt
  cnt_le : s.msgCnt ≤ sbdMsgCntMax

theorem take_append_bounded (n : Nat) (a b : List UInt8) :
    a.take n ++ (b.take n).take (n-(a.take n).length) = (a++b).take n := by
  rw [take_append, take_take, length_take]
  congr 2
  omega

theorem awaits_iff (s : Session) (msgNo : Nat) (uplink : Bool) (typ : SbdType) :
    s.awaits msgNo uplink typ = true ↔
      s.active = true ∧ s.msgNoNext = msgNo ∧ s.uplink = uplink ∧ s.typ = typ := by
  simp [Session.awaits, and_assoc]

theorem facts_open (p : Part) (hno : p.env.msgNo = 1)
    (hcnt : 1 < p.env.msgCnt ∧ p.env.msgCnt ≤ sbdMsgCntMax) :
    SlotFacts [p] (openSession p.feed p.env) := by
  unfold sbdMsgCntMax at hcnt
  have hmod : p.env.msgCnt.toNat%256 = p.env.msgCnt.toNat := Nat.mod_eq_of_lt (by omega)
  have hcast : (p.env.msgCnt.toNat : Int) = p.env.msgCnt := Int.toNat_of_nonneg (by omega)
  refine ⟨⟨?_, ?_, ⟨p, rfl, ?_, rfl⟩, ?_, rfl⟩, rfl, rfl, rfl, rfl, rfl, ?_, ?_⟩
  · simp [hno]
  · intro q hq
    rw [mem_singleton.mp hq]
    exact ⟨rfl, rfl⟩
  · simp only [openSession, hmod, hcast]
  · simp [openSession, bodies]
  · simp only [openSession, hmod, length_singleton]
    omega
  · simp only [openSession, hmod, sbdMsgCntMax]
    omega

variable {ps : List Part}

theorem SlotFacts.assembled_snoc {s : Session} (h : SlotFacts ps s) (p : Part)
    (hawait : s.awaits p.env.msgNo p.feed.uplink p.env.typ = true) :
    AssembledFrom (ps++[p]) (s.extend p.feed p.env).msg := by
  obtain ⟨-,hnext,hup,htyp⟩ := (awaits_iff s _ _ _).mp hawait
  have hno : p.env.msgNo = ps.length+1 := by rw [← hnext, h.next]
  refine ⟨?_, ?_, ?_, ?_, ?_⟩
  · rw [map_append, h.msg.numbers, length_append, length_singleton, range_succ,
      map_append, map_singleton, map_singleton, hno]
  · intro q hq
    rcases mem_append.mp hq with hq | hq
    · exact h.msg.same q hq
    · rw [mem_singleton.mp hq, ← htyp, ← hup]
      exact ⟨h.typ, h.uplink⟩
  · obtain ⟨q,hq,hc,ht⟩ := h.msg.first
    exact ⟨q, by rw [head?_append, hq]; rfl, hc, ht⟩
  · have hbodies : bodies (ps++[p]) = bodies ps ++ p.env.body := by simp [bodies]
    rw [hbodies, ← take_append_bounded, ← h.msg.payload]
    rfl
  · rwa [length_append]

theorem SlotFacts.extend {s : Session} (h : SlotFacts ps s) (p : Part)
    (hawait : s.awaits p.env.msgNo p.feed.uplink p.env.typ = true)
    (hmore : p.env.msgNo ≠ s.msgCnt) : SlotFacts (ps++[p]) (s.extend p.feed p.env) := by
  obtain ⟨-,hnext,-,-⟩ := (awaits_iff s _ _ _).mp hawait
  have hno : p.env.msgNo = ps.length+1 := by rw [← hnext, h.next]
  have hlt := h.more
  have hle := h.cnt_le
  have hlen : (ps++[p]).length = ps.length+1 := by simp
  unfold sbdMsgCntMax at hle
  refine ⟨h.assembled_snoc p hawait, h.active, h.typ, h.uplink, ?_, h.cnt, ?_, h.cnt_le⟩
  · rw [hlen]
    simp only [Session.extend]
    omega
  · rw [hlen]
    simp only [Session.extend]
    omega

def consumedEntry (p : Part) : Event × Outcome := (.feed p.feed, .fed ⟨0, none⟩)

def Completed (ps : List Part) (f : Feed) (msg : SbdMessage) : Prop :=
  ∃ p : Part, p.feed = f ∧ 1 < msg.msgNo ∧ AssembledFrom (ps++[p]) msg ∧
    (ps++[p]).length = msg.msgCount

def Used (ps : List Part) : Event × Outcome → Prop
  | (.feed f, .fed r) => (∃ msg, r = ⟨1, some msg⟩ ∧ Completed ps f msg) ∨
      ps = [] ∧ ∀ msg ∈ r.out, msg.msgNo ≤ 1
  | _ => ps = []

def EntryOk (x : Event × Outcome) (xs : Log) : Prop := ∃ ps, xs = ps.map consumedEntry ∧ Used ps x

structure SlotOk (s : Session) (xs : Log) : Prop where
  idle : s.active = false → xs = []
  held : s.active = true → ∃ ps, SlotFacts ps s ∧ xs = ps.map consumedEntry

def Explained (t : Trace SbdReassembler Event Outcome) : Prop :=
  ∃ L : Ledger (Fin sbdMaxSessions), Books t.log L (fun i => SlotOk (t.ctx.sessions i)) EntryOk

theorem slotOk_idle (s : Session) (h : s.active = false) : SlotOk s [] :=
  ⟨fun _ => rfl, fun ha => absurd ha (by rw [h]; decide)⟩

theorem slotOk_held (s : Session) (ps : List Part) (h : SlotFacts ps s) :
    SlotOk s (ps.map consumedEntry) :=
  ⟨fun hi => absurd hi (by rw [h.active]; decide), fun _ => ⟨ps, h, rfl⟩⟩

theorem entryOk_quiet (f : Feed) (r : FeedResult) (h : ∀ msg ∈ r.out, msg.msgNo ≤ 1) :
    EntryOk (.feed f, .fed r) [] :=
  ⟨[], rfl, Or.inr ⟨rfl, h⟩⟩

theorem books_sweep {log : Log} {L : Ledger (Fin sbdMaxSessions)}
    {slots : Fin sbdMaxSessions → Session} (h : Books log L (fun i => SlotOk (slots i)) EntryOk)
    (nowUs : Nat) : Books log (L.drop fun i => (slots i).stale nowUs)
      (fun i => SlotOk (sweep slots nowUs i)) EntryOk := by
  refine h.drop _ ?_ ?_
  · intro i hi
    rw [sweep, Session.expire, if_pos hi]
    exact slotOk_idle _ rfl
  · intro i hi xs hx
    rwa [sweep, Session.expire, hi]

theorem explained_feed (t : Trace SbdReassembler Event Outcome) (f : Feed) (h : Explained t) :
    Explained (t.next react (.feed f)) := by
  obtain ⟨L,hold⟩ := h
  have hb := books_sweep hold f.nowUs
  have hstep := feed_step t.ctx f
  change ∃ L', Books (t.log ++ [(.feed f, .fed (sbdReassemblerFeed t.ctx f).2)]) L'
    (fun i => SlotOk ((sbdReassemblerFeed t.ctx f).1.sessions i)) EntryOk
  generalize (sbdReassemblerFeed t.ctx f).1.sessions = slots at hstep ⊢
  generalize (sbdReassemblerFeed t.ctx f).2 = r at hstep ⊢
  cases hstep with
  | filtered hparse => exact hold.pass (entryOk_quiet f _ (by simp))
  | short e hparse hno count | single e hparse hno hcnt | tableFull e hparse hno hfull
  | unmatched e hparse hno hnone | stray e hparse hno hcnt =>
    exact hb.pass (entryOk_quiet f _ (by simp))
  | opened e i hparse hno hcnt hfree =>
    refine hb.put i ?_ (entryOk_quiet f _ (by simp))
    intro xs hx
    rw [hx.idle hfree]
    exact slotOk_held _ [⟨f, e, hparse⟩] (facts_open ⟨f, e, hparse⟩ hno hcnt)
  | extended e i hparse hno hawait hmore =>
    refine hb.put i ?_ (entryOk_quiet f _ (by simp))
    intro xs hx
    obtain ⟨ps,hf,rfl⟩ := hx.held ((awaits_iff _ _ _ _).mp hawait).1
    have := slotOk_held _ _ (hf.extend ⟨f, e, hparse⟩ hawait hmore)
    simpa [consumedEntry] using this
  | completed e i hparse hno hawait hlast =>
    refine hb.take i (slotOk_idle _ rfl) ?_
    intro xs hx
    obtain ⟨-,hnext,-,-⟩ := (awaits_iff _ _ _ _).mp hawait
    obtain ⟨ps,hf,rfl⟩ := hx.held ((awaits_iff _ _ _ _).mp hawait).1
    refine ⟨ps, rfl, Or.inl ⟨_, rfl, ⟨f, e, hparse⟩, rfl, hno,
      hf.assembled_snoc ⟨f, e, hparse⟩ hawait, ?_⟩⟩
    have hlen := hf.next
    have hcnt := hf.cnt
    rw [length_append, length_singleton]
    change ps.length+1 = (sweep t.ctx.sessions f.nowUs i).msg.msgCount
    omega

variable (es : List Event)

theorem explained_run : Explained (run es) := by
  refine runFrom_invariant react .init Explained es ?_ ?_
  · exact ⟨Ledger.empty, books_empty _ _ fun _ => slotOk_idle _ rfl⟩
  · intro t e _ h
    cases e with
    | feed f => exact explained_feed t f h
    | tick nowUs =>
      obtain ⟨L,hb⟩ := h
      exact (books_sweep hb nowUs).pass ⟨[], rfl, rfl⟩

theorem slotFacts_run (i : Fin sbdMaxSessions)
    (h : ((run es).ctx.sessions i).active = true) :
    ∃ ps, SlotFacts ps ((run es).ctx.sessions i) := by
  obtain ⟨L,hb⟩ := explained_run es
  obtain ⟨ps,hf,-⟩ := (hb.slots i).held h
  exact ⟨ps, hf⟩

def emits : Event × Outcome → Bool
  | (.feed _, .fed r) => r.out.isSome
  | _ => false

theorem used_disjoint {log : Log} {L : Ledger (Fin sbdMaxSessions)}
    {held : Fin sbdMaxSessions → Log → Prop} (hb : Books log L held EntryOk) (n m : Nat)
    (h : n ≠ m) : (usedBy emits log L n).Disjoint (usedBy emits log L m) := by
  refine hb.usedBy_disjoint emits ?_ n m h
  intro x xs hx y hy
  obtain ⟨ps,rfl,-⟩ := hx
  obtain ⟨g,-,rfl⟩ := mem_map.mp hy
  rfl

theorem event_at {n : Nat} {x : Event × Outcome}
    (h : (run es).log[n]? = some x) : es[n]? = some x.1 := by
  have he := congrArg (fun l => l[n]?) (runFrom_events react .init es)
  rw [← he, getElem?_map]
  change ((run es).log[n]?).map Prod.fst = _
  rw [h]
  rfl

theorem events_map {ks : List Nat}
    (h : ks.map (fun k => (run es).log[k]?) = ps.map (fun p => some (consumedEntry p))) :
    ks.map (fun k => es[k]?) = ps.map (fun p => some (.feed p.feed)) := by
  induction ks generalizing ps with
  | nil =>
    rw [map_eq_nil_iff.mp h.symm]
    rfl
  | cons k ks ih =>
    cases ps with
    | nil => cases h
    | cons p ps =>
      rw [map_cons, map_cons, List.cons.injEq] at h
      rw [map_cons, map_cons, ih h.2, event_at es h.1]
      rfl

/-- Each message of several envelopes consists of its own envelopes, all of them, in order. -/
theorem sbd_multi_frame_integrity (es : List Event) :
    (run es).log.map Prod.fst = es ∧
    (∃ used : Nat → List Nat, (∀ n m, n ≠ m → (used n).Disjoint (used m)) ∧
      ∀ n f r msg, (run es).log[n]? = some (.feed f, .fed ⟨r, some msg⟩) →
        (msg.msgNo ≤ 1 → used n = [n]) ∧
        (1 < msg.msgCount → 1 < msg.msgNo → ∃ ps : List Part, (used n).Pairwise (· < ·) ∧
          (used n).getLast? = some n ∧
          (used n).map (fun k => es[k]?) = ps.map (fun p => some (.feed p.feed)) ∧
          ps.length = msg.msgCount ∧ AssembledFrom ps msg)) ∧
    ∀ i, ((run es).ctx.sessions i).active = true →
      2 ≤ ((run es).ctx.sessions i).msgNoNext ∧
      ((run es).ctx.sessions i).msgNoNext ≤ ((run es).ctx.sessions i).msgCnt ∧
      ((run es).ctx.sessions i).msgCnt ≤ sbdMsgCntMax ∧
      ((run es).ctx.sessions i).msg.payload.length ≤ sbdMaxPayload := by
  refine ⟨runFrom_events _ _ es, ?_, ?_⟩
  · obtain ⟨L,hb⟩ := explained_run es
    refine ⟨usedBy emits (run es).log L, used_disjoint hb, ?_⟩
    intro n f r msg hx
    have hemit : (run es).log[n]?.any emits = true := by rw [hx]; rfl
    obtain ⟨hused,hsorted⟩ := usedBy_sorted (L := L) emits n hemit
    obtain ⟨ps,hps,hu⟩ := hb.closings n _ hx
    have hchain : (L.chain (.spent n)).map (fun k => (run es).log[k]?) =
        ps.map (fun p => some (consumedEntry p)) := by
      rw [L.map_chain _ _ hb.size, hps, map_map]
      rfl
    rcases hu with ⟨msg',hr,p,hpf,hno,hass,hlen⟩ | ⟨rfl,hle⟩
    · cases hr
      refine ⟨fun hle => absurd hno (by omega), fun _ _ => ⟨ps++[p], ?_, ?_, ?_, hlen, hass⟩⟩
      · rwa [hused]
      · rw [hused]
        simp
      · rw [hused, map_append, map_append, events_map es hchain, map_singleton,
          map_singleton, event_at es hx, hpf]
    · have hnil : L.chain (.spent n) = [] := by simpa using hchain
      refine ⟨fun _ => by rw [hused, hnil]; rfl, fun _ hno => ?_⟩
      have := hle msg rfl
      omega
  · intro i hi
    obtain ⟨ps,hf⟩ := slotFacts_run es i hi
    obtain ⟨p,hp,-⟩ := hf.msg.first
    have hpos : 0 < ps.length := length_pos_iff.mpr (by rintro rfl; cases hp)
    have hnext := hf.next
    have hmore := hf.more
    refine ⟨by omega, by omega, hf.cnt_le, ?_⟩
    rw [hf.msg.payload, length_take]
    omega

end IridiumAcars.SbdIntegrity
