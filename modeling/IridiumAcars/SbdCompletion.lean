import IridiumAcars.SbdIntegrity
import Mathlib.Algebra.BigOperators.Fin
import Mathlib.Algebra.Order.BigOperators.Group.Finset

/-! Which sessions can still be completed: 0x7608 sessions, but no HELLO session. -/
namespace IridiumAcars.SbdCompletion
open SlotTable Runs SbdReasm SbdIntegrity List

variable (slots : Fin sbdMaxSessions → Session) (i : Fin sbdMaxSessions)

def InTimeout (s : Session) (nowUs : Nat) : Prop :=
  s.lastUpdateUs ≤ nowUs ∧ nowUs-s.lastUpdateUs ≤ sbdTimeoutUs

/-- `m'` is the message `m` with, at most, more payload. -/
structure SameMessage (m m' : SbdMessage) : Prop where
  typ : m'.typ = m.typ
  uplink : m'.uplink = m.uplink
  timestamp : m'.timestampUs = m.timestampUs
  count : m'.msgCount = m.msgCount
  payload : m.payload <+: m'.payload

/-- The envelopes, each inside the timeout, end with the message of session `i`. -/
inductive CompletesBy (i : Fin sbdMaxSessions) : SbdReassembler → List Feed → SbdMessage → Prop
  | last (ctx : SbdReassembler) (f : Feed) (msg : SbdMessage)
      (hactive : (ctx.sessions i).active = true) (htime : InTimeout (ctx.sessions i) f.nowUs)
      (hout : (sbdReassemblerFeed ctx f).2 = ⟨1, some msg⟩)
      (hsame : SameMessage (ctx.sessions i).msg msg)
      (hfree : ((sbdReassemblerFeed ctx f).1.sessions i).active = false) :
      CompletesBy i ctx [f] msg
  | more (ctx : SbdReassembler) (f : Feed) (fs : List Feed) (msg : SbdMessage)
      (hactive : (ctx.sessions i).active = true) (htime : InTimeout (ctx.sessions i) f.nowUs)
      (hsame : SameMessage (ctx.sessions i).msg ((sbdReassemblerFeed ctx f).1.sessions i).msg)
      (hrest : CompletesBy i (sbdReassemblerFeed ctx f).1 fs msg) :
      CompletesBy i ctx (f::fs) msg

def Completable (ctx : SbdReassembler) (i : Fin sbdMaxSessions) : Prop :=
  ∃ fs msg, CompletesBy i ctx fs msg

theorem sameMessage_self (m : SbdMessage) : SameMessage m m :=
  ⟨rfl, rfl, rfl, rfl, prefix_rfl⟩

variable (s : Session)

theorem sameMessage_extend (f : Feed) (e : Parsed) :
    SameMessage s.msg (s.extend f e).msg :=
  ⟨rfl, rfl, rfl, rfl, prefix_append _ _⟩

theorem sweep_fresh (nowUs : Nat) (h : nowUs-(slots i).lastUpdateUs ≤ sbdTimeoutUs) :
    sweep slots nowUs i = slots i := by
  have hnot : (slots i).stale nowUs = false := by
    simp only [Session.stale, Bool.and_eq_false_iff, decide_eq_false_iff_not]
    exact Or.inr (by omega)
  rw [sweep, Session.expire, hnot]
  rfl

variable {p : List UInt8}

theorem parseHello_typ {e : Parsed} (h : parseHello p = some e) :
    e.typ = .hello0600 ∧ e.msgNo ≤ 1 := by
  unfold parseHello at h
  split at h
  · cases h
  split at h
  · cases h
  cases h
  refine ⟨rfl, ?_⟩
  dsimp only
  split <;> omega

theorem parsePrehdr_cnt {typ : SbdType} {p q : List UInt8} {cnt : Int}
    (h : parsePrehdr typ p = some (cnt, q)) : typ = .dataDl7608 ∨ cnt = -1 := by
  unfold parsePrehdr at h
  by_cases ht : typ = .dataDl7608
  · exact Or.inl ht
  · rw [if_neg ht] at h
    cases h
    exact Or.inr rfl

theorem parseData_typ {typ : SbdType} {uplink : Bool} {e : Parsed}
    (h : parseData typ uplink p = some e) :
    e.typ = typ ∧ (typ = .dataDl7608 ∨ e.msgCnt = -1) := by
  unfold parseData at h
  cases hp : parsePrehdr typ p with
  | none =>
    rw [hp] at h
    cases h
  | some x =>
    obtain ⟨cnt,q⟩ := x
    rw [hp] at h
    cases hs : parseSubHeader (skipAck uplink q) with
    | none => simp [hs] at h
    | some y =>
      simp only [Option.pure_def, Option.bind_eq_bind, Option.bind_some, hs,
        Option.some.injEq] at h
      subst h
      exact ⟨rfl, parsePrehdr_cnt hp⟩

theorem classify_7608 {uplink : Bool} (h : classify p uplink = .dataDl7608) :
    uplink = false := by
  cases uplink with
  | false => rfl
  | true =>
    unfold classify at h
    simp only [if_true] at h
    repeat' split at h
    all_goals cases h

theorem parse_kinds {payload : List UInt8} {uplink : Bool} {e : Parsed}
    (h : parseEnvelope payload uplink = some e) :
    (e.typ = .hello0600 → e.msgNo ≤ 1) ∧
    (0 < e.msgCnt → e.typ = .hello0600 ∨ e.typ = .dataDl7608 ∧ uplink = false) := by
  unfold parseEnvelope at h
  split at h
  · cases h
  cases hc : classify payload uplink with
  | unknown =>
    rw [hc] at h
    cases h
  | hello0600 =>
    rw [hc] at h
    obtain ⟨ht,hno⟩ := parseHello_typ h
    exact ⟨fun _ => hno, fun _ => Or.inl ht⟩
  | dataDl7608 =>
    rw [hc] at h
    obtain ⟨ht,-⟩ := parseData_typ h
    exact ⟨fun hn => absurd (ht.symm.trans hn) (by decide),
      fun _ => Or.inr ⟨ht, classify_7608 hc⟩⟩
  | _ =>
    rw [hc] at h
    obtain ⟨ht,hcnt⟩ := parseData_typ h
    rw [ht]
    constructor
    · intro hn
      cases hn
    · intro hpos
      rcases hcnt with hn | hn
      · cases hn
      · omega

def continuation (k : Nat) : List UInt8 :=
  [0x76, 0x08, 0x26, 0, 0, 0, 0, 0, 0, 0x10, 0, UInt8.ofNat k, 0]

theorem parse_continuation (k : Nat) (hk : k < 256) :
    parseEnvelope (continuation k) false = some ⟨.dataDl7608, 0, k, []⟩ := by
  have hno : (UInt8.ofNat k).toNat = k := by
    rw [UInt8.toNat_ofNat']
    exact Nat.mod_eq_of_lt hk
  change some (⟨.dataDl7608, 0, (UInt8.ofNat k).toNat, []⟩ : Parsed) = _
  rw [hno]

def partsMissing (s : Session) : Nat := if s.active then s.msgCnt+1-s.msgNoNext else 0

def missing (slots : Fin sbdMaxSessions → Session) : Nat := ∑ i, partsMissing (slots i)

theorem missing_expire_le (nowUs : Nat) :
    partsMissing (s.expire nowUs) ≤ partsMissing s := by
  unfold Session.expire
  split
  · exact Nat.zero_le _
  · exact le_refl _

theorem missing_sweep_le (nowUs : Nat) :
    missing (sweep slots nowUs) ≤ missing slots :=
  Finset.sum_le_sum fun i _ => missing_expire_le (slots i) nowUs

theorem missing_setSlot_lt (h : partsMissing s < partsMissing (slots i)) :
    missing (setSlot slots i s) < missing slots := by
  refine Finset.sum_lt_sum ?_ ⟨i, Finset.mem_univ i, by rwa [setSlot_same]⟩
  intro j _
  by_cases hj : j = i
  · subst hj
    rw [setSlot_same]
    exact Nat.le_of_lt h
  · rw [setSlot_other _ _ _ _ hj]

structure Waiting (s : Session) : Prop where
  next : 2 ≤ s.msgNoNext ∧ s.msgNoNext ≤ s.msgCnt
  cnt_le : s.msgCnt ≤ sbdMsgCntMax
  kind : s.typ = .hello0600 ∨ s.typ = .dataDl7608 ∧ s.uplink = false

theorem waiting_run (es : List Event) (i : Fin sbdMaxSessions)
    (h : ((run es).ctx.sessions i).active = true) : Waiting ((run es).ctx.sessions i) := by
  obtain ⟨ps,hf⟩ := slotFacts_run es i h
  obtain ⟨p,hp,hcnt,-⟩ := hf.msg.first
  have hpos : 0 < ps.length := length_pos_iff.mpr (by rintro rfl; cases hp)
  have hnext := hf.next
  have hmore := hf.more
  have hc := hf.cnt
  refine ⟨⟨by omega, by omega⟩, hf.cnt_le, ?_⟩
  obtain ⟨htyp,hup⟩ := hf.msg.same p (mem_of_head? hp)
  rw [hf.typ, hf.uplink, ← htyp, ← hup]
  exact (parse_kinds p.parsed).2 (by omega)

theorem sweep_active (nowUs : Nat) (i : Fin sbdMaxSessions)
    (h : (sweep slots nowUs i).active = true) :
    sweep slots nowUs i = slots i := by
  unfold sweep Session.expire at h ⊢
  split
  · rw [if_pos ‹_›] at h
    cases h
  · rfl

theorem partsMissing_extend_lt (f : Feed) (e : Parsed) (hw : Waiting s)
    (hawait : s.awaits e.msgNo f.uplink e.typ = true) :
    partsMissing (s.extend f e) < partsMissing s := by
  obtain ⟨hact,hnext,-,-⟩ := (awaits_iff s _ _ _).mp hawait
  obtain ⟨h2,hle⟩ := hw.next
  have hcnt := hw.cnt_le
  unfold sbdMsgCntMax at hcnt
  have hact' : (s.extend f e).active = true := hact
  rw [partsMissing, partsMissing, if_pos hact, if_pos hact']
  simp only [Session.extend]
  omega

section
variable {slots slots' : Fin sbdMaxSessions → Session} {i : Fin sbdMaxSessions} {nowUs : Nat}
  {r : FeedResult}

/-- The part session `i` waits for either completes it or brings some session closer to
its end. -/
theorem advance (hw : ∀ j, (slots j).active = true → Waiting (slots j))
    (hi : (slots i).active = true) (htyp : (slots i).typ ≠ .hello0600)
    (htime : InTimeout (slots i) nowUs)
    (hstep : FeedStep slots ⟨continuation (slots i).msgNoNext, false, nowUs⟩ slots' r) :
    (∃ msg, r = ⟨1, some msg⟩ ∧ SameMessage (slots i).msg msg ∧ (slots' i).active = false) ∨
    (missing slots' < missing slots ∧ (slots' i).active = true ∧ (slots' i).typ ≠ .hello0600 ∧
      InTimeout (slots' i) nowUs ∧ SameMessage (slots i).msg (slots' i).msg) := by
  obtain ⟨⟨h2,hle⟩,hcnt,hkind⟩ := hw i hi
  obtain ⟨h7608,hdown⟩ := hkind.resolve_left htyp
  unfold sbdMsgCntMax at hcnt
  have hsweep := sweep_fresh slots i nowUs htime.2
  have hparse := parse_continuation (slots i).msgNoNext (by omega)
  have hlow (j : Fin sbdMaxSessions) (s : Session)
      (h : partsMissing s < partsMissing (sweep slots nowUs j)) :
      missing (setSlot (sweep slots nowUs) j s) < missing slots :=
    lt_of_lt_of_le (missing_setSlot_lt _ j s h) (missing_sweep_le slots nowUs)
  have hkeep (j : Fin sbdMaxSessions) (s : Session) (hj : i ≠ j) :
      setSlot (sweep slots nowUs) j s i = slots i := by
    rw [setSlot_other _ _ _ _ hj, hsweep]
  cases hstep with
  | filtered h => exact absurd (hparse.symm.trans h) (by simp)
  | short e h hno count | single e h hno _ | tableFull e h hno _ | opened e j h hno _ _
  | stray e h hno _ =>
    cases hparse.symm.trans h
    exact absurd hno (by simp; omega)
  | unmatched e h _ hnone =>
    cases hparse.symm.trans h
    have hawait : (sweep slots nowUs i).awaits (slots i).msgNoNext false .dataDl7608 = true := by
      rw [hsweep, awaits_iff]
      exact ⟨hi, rfl, hdown, h7608⟩
    exact absurd (hnone i) (by rw [hawait]; decide)
  | completed e j h hno hawait hlast =>
    by_cases hj : i = j
    · subst hj
      refine Or.inl ⟨_, rfl, ?_, by rw [setSlot_same]⟩
      simp only [hsweep]
      exact sameMessage_extend _ _ _
    · have hact := ((awaits_iff _ _ _ _).mp hawait).1
      have heq := sweep_active slots nowUs j hact
      refine Or.inr ⟨hlow j _ ?_, ?_⟩
      · simp only [heq] at hawait hact ⊢
        have hlt := partsMissing_extend_lt _ ⟨continuation (slots i).msgNoNext, false, nowUs⟩ e
          (hw j hact) hawait
        exact lt_of_le_of_lt (Nat.zero_le _) hlt
      · simp only [hkeep j _ hj]
        exact ⟨hi, htyp, htime, sameMessage_self _⟩
  | extended e j h hno hawait hmore =>
    have hact := ((awaits_iff _ _ _ _).mp hawait).1
    have heq := sweep_active slots nowUs j hact
    refine Or.inr ⟨hlow j _ ?_, ?_⟩
    · simp only [heq] at hawait hact ⊢
      exact partsMissing_extend_lt _ _ e (hw j hact) hawait
    · by_cases hj : i = j
      · subst hj
        simp only [setSlot_same, hsweep]
        exact ⟨hi, htyp, ⟨Nat.le_refl _, by simp [Session.extend]⟩, sameMessage_extend _ _ _⟩
      · simp only [hkeep j _ hj]
        exact ⟨hi, htyp, htime, sameMessage_self _⟩

theorem hello_unchanged (f : Feed) (hi : (slots i).active = true)
    (htyp : (slots i).typ = .hello0600) (htime : InTimeout (slots i) f.nowUs)
    (hstep : FeedStep slots f slots' r) : slots' i = slots i := by
  have hsweep := sweep_fresh slots i f.nowUs htime.2
  have hother (e : Parsed) (j : Fin sbdMaxSessions) (s : Session)
      (hparse : parseEnvelope f.payload f.uplink = some e) (hno : 1 < e.msgNo)
      (hawait : (sweep slots f.nowUs j).awaits e.msgNo f.uplink e.typ = true) :
      setSlot (sweep slots f.nowUs) j s i = slots i := by
    have hij : i ≠ j := by
      rintro rfl
      obtain ⟨-,-,-,ht⟩ := (awaits_iff _ _ _ _).mp hawait
      rw [hsweep, htyp] at ht
      have := (parse_kinds hparse).1 ht.symm
      omega
    rw [setSlot_other _ _ _ _ hij, hsweep]
  cases hstep with
  | filtered h => rfl
  | opened e j h hno hcnt hfree =>
    have hij : i ≠ j := by
      rintro rfl
      rw [hsweep, hi] at hfree
      cases hfree
    rw [setSlot_other _ _ _ _ hij, hsweep]
  | completed e j h hno hawait hlast | extended e j h hno hawait hmore =>
    exact hother e j _ h hno hawait
  | _ => exact hsweep

end

theorem completes_at (nowUs n : Nat) (es : List Event) (i : Fin sbdMaxSessions)
    (hn : missing (run es).ctx.sessions ≤ n) (hi : ((run es).ctx.sessions i).active = true)
    (htyp : ((run es).ctx.sessions i).typ ≠ .hello0600)
    (htime : InTimeout ((run es).ctx.sessions i) nowUs) :
    ∃ fs msg, (∀ f ∈ fs, f.nowUs = nowUs) ∧ CompletesBy i (run es).ctx fs msg := by
  induction n generalizing es with
  | zero =>
    have hpos : 0 < partsMissing ((run es).ctx.sessions i) := by
      have hw := (waiting_run es i hi).next
      rw [partsMissing, if_pos hi]
      omega
    have hle : partsMissing ((run es).ctx.sessions i) ≤ missing (run es).ctx.sessions :=
      Finset.single_le_sum (f := fun j => partsMissing ((run es).ctx.sessions j))
        (fun _ _ => Nat.zero_le _) (Finset.mem_univ i)
    omega
  | succ n ih =>
    let f : Feed := ⟨continuation ((run es).ctx.sessions i).msgNoNext, false, nowUs⟩
    have hnext : (run (es++[.feed f])).ctx = (sbdReassemblerFeed (run es).ctx f).1 := by
      rw [run, runFrom_snoc]
      rfl
    rcases advance (waiting_run es) hi htyp htime (feed_step (run es).ctx f) with
      ⟨msg,hout,hsame,hfree⟩ | ⟨hless,hact,htyp',htime',hsame⟩
    · refine ⟨[f], msg, ?_, .last _ f msg hi htime hout hsame hfree⟩
      intro g hg
      rw [mem_singleton.mp hg]
    · rw [← hnext] at hless hact htyp' htime' hsame
      obtain ⟨fs,msg,hall,hrest⟩ := ih (es++[.feed f]) (by omega) hact htyp' htime'
      rw [hnext] at hsame hrest
      refine ⟨f::fs, msg, ?_, .more _ f fs msg hi htime hsame hrest⟩
      intro g hg
      rcases mem_cons.mp hg with rfl | hg
      · rfl
      · exact hall g hg

theorem hello_not_completes (ctx : SbdReassembler) (fs : List Feed) (msg : SbdMessage)
    (htyp : (ctx.sessions i).typ = .hello0600) :
    ¬ CompletesBy i ctx fs msg := by
  intro h
  induction h with
  | last ctx f msg hactive htime hout hsame hfree =>
    rw [hello_unchanged f hactive htyp htime (feed_step ctx f), hactive] at hfree
    cases hfree
  | more ctx f fs msg hactive htime hsame hrest ih =>
    apply ih
    rwa [hello_unchanged f hactive htyp htime (feed_step ctx f)]

/-- In every reachable state a session can be completed exactly when it is not a HELLO. -/
theorem sbd_session_completable_iff (es : List Event) (i : Fin sbdMaxSessions)
    (hi : ((run es).ctx.sessions i).active = true) :
    Completable (run es).ctx i ↔ ((run es).ctx.sessions i).typ ≠ .hello0600 := by
  constructor
  · rintro ⟨fs,msg,h⟩ htyp
    exact hello_not_completes i _ fs msg htyp h
  · intro htyp
    obtain ⟨fs,msg,-,h⟩ := completes_at ((run es).ctx.sessions i).lastUpdateUs _ es i (le_refl _) hi
      htyp ⟨le_refl _, by omega⟩
    exact ⟨fs, msg, h⟩

def slotZero : Fin sbdMaxSessions := ⟨0, by decide⟩

def firstOfTwo : Feed :=
  ⟨[0x76, 0x08, 0x26, 0, 0, 2, 0, 0, 0, 0x10, 2, 1, 0xab, 0xcd], false, 1000⟩

theorem sbd_session_completable_7608 :
    ((run [.feed firstOfTwo]).ctx.sessions slotZero).active = true ∧
      Completable (run [.feed firstOfTwo]).ctx slotZero :=
  ⟨by rfl, (sbd_session_completable_iff [.feed firstOfTwo] slotZero rfl).mpr (by decide)⟩

def helloOfTwo : Feed :=
  ⟨[0x06, 0x00, 0x20, 0, 0, 0, 0, 0, 0, 0, 0, 0, 0, 0, 0, 0, 0, 2], true, 1000⟩

theorem sbd_hello_session_stuck :
    ((run [.feed helloOfTwo]).ctx.sessions slotZero).active = true ∧
      ¬ Completable (run [.feed helloOfTwo]).ctx slotZero := by
  refine ⟨by rfl, ?_⟩
  rintro ⟨fs,msg,h⟩
  exact hello_not_completes slotZero _ fs msg (by rfl) h

end IridiumAcars.SbdCompletion
