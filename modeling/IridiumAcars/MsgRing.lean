import IridiumAcars.Lib.RingBuffer
import IridiumAcars.Lib.Runs

/-! The ring of decoded messages, msg_ring.c, and a client that polls it by id. -/
namespace IridiumAcars.Messages
open RingBuffer Runs Function

def msgRingCapacity : Nat := 32
def msgRingTxtMax : Nat := 256

/-- `acars_msg_t`; character arrays as stored, `snrDb` by its bit pattern. -/
structure AcarsMsg where
  id : Nat
  timestampUs : UInt64
  uplink : Bool
  mode : UInt8
  label : Vector UInt8 3
  blockId : UInt8
  msgNum : Vector UInt8 5
  flightId : Vector UInt8 7
  crcOk : Bool
  isPartial : Bool
  peakBin : Int32
  snrDb : UInt32
  reg : Vector UInt8 8
  ack : UInt8
  msgNumSeq : UInt8
  more : Bool
  hasAvlc : Bool
  avlcSrcAddr : UInt32
  avlcDstAddr : UInt32
  avlcSrcType : UInt8
  avlcDstType : UInt8
  txt : Vector UInt8 msgRingTxtMax
deriving DecidableEq

def AcarsMsg.blank : AcarsMsg where
  id := 0
  timestampUs := 0
  uplink := false
  mode := 0
  label := Vector.replicate _ 0
  blockId := 0
  msgNum := Vector.replicate _ 0
  flightId := Vector.replicate _ 0
  crcOk := false
  isPartial := false
  peakBin := 0
  snrDb := 0
  reg := Vector.replicate _ 0
  ack := 0
  msgNumSeq := 0
  more := false
  hasAvlc := false
  avlcSrcAddr := 0
  avlcDstAddr := 0
  avlcSrcType := 0
  avlcDstType := 0
  txt := Vector.replicate _ 0

open List

structure MsgRing where
  ring : Nat → AcarsMsg
  head : Nat
  lastId : Nat

def msgRingInit : MsgRing := ⟨fun _ => AcarsMsg.blank, 0, 0⟩

def msgRingPush (r : MsgRing) (m : AcarsMsg) : MsgRing :=
  { ring := update r.ring r.head { m with id := r.lastId+1 }
    head := (r.head+1)%msgRingCapacity
    lastId := r.lastId+1 }

/-- The walk from the oldest slot; `n < cap` is part of the loop condition. -/
def snapshotLoop (r : MsgRing) (sinceId cap : Nat) : List Nat → List AcarsMsg → List AcarsMsg
  | [], out => out
  | k::ks, out =>
    if out.length < cap then
      let e := r.ring ((r.head+k)%msgRingCapacity)
      if e.id = 0 ∨ e.id ≤ sinceId then snapshotLoop r sinceId cap ks out
      else snapshotLoop r sinceId cap ks (out++[e])
    else out

def msgRingSnapshot (r : MsgRing) (sinceId cap : Nat) : List AcarsMsg :=
  if cap = 0 then [] else snapshotLoop r sinceId cap (List.range msgRingCapacity) []

structure Polled where
  ring : MsgRing
  sinceId : Nat

inductive RingEvent where
  | push (m : AcarsMsg)
  | snapshot (cap : Nat)

def react (s : Polled) : RingEvent → Polled × List AcarsMsg
  | .push m => (⟨msgRingPush s.ring m, s.sinceId⟩, [])
  | .snapshot cap =>
    let out := msgRingSnapshot s.ring s.sinceId cap
    (⟨s.ring, (out.getLast?.map AcarsMsg.id).getD s.sinceId⟩, out)

def run (es : List RingEvent) : Trace Polled RingEvent (List AcarsMsg) :=
  runFrom react ⟨msgRingInit, 0⟩ es

def received (es : List RingEvent) : List AcarsMsg := (run es).log.flatMap Prod.snd

def pushed : List RingEvent → List AcarsMsg
  | [] => []
  | .push m::es => m::pushed es
  | .snapshot _::es => pushed es

def stamped (ms : List AcarsMsg) : List AcarsMsg := ms.mapIdx fun k m => { m with id := k+1 }

variable (es : List RingEvent) (ms : List AcarsMsg)

@[simp] theorem length_stamped : (stamped ms).length = ms.length := by
  simp [stamped]

theorem stamped_snoc (m : AcarsMsg) :
    stamped (ms++[m]) = stamped ms++[{ m with id := ms.length+1 }] := by
  simp [stamped, mapIdx_append]

theorem getElem?_stamped (k : Nat) :
    (stamped ms)[k]? = ms[k]?.map fun m => { m with id := k+1 } := by
  simp [stamped]

theorem map_id_stamped :
    (stamped ms).map AcarsMsg.id = List.range' 1 ms.length := by
  apply ext_getElem?
  intro k
  rw [getElem?_map, getElem?_stamped]
  by_cases hk : k < ms.length
  · rw [getElem?_eq_getElem hk, getElem?_range' hk]
    simp [Nat.add_comm]
  · rw [getElem?_eq_none (by omega), getElem?_eq_none (by simpa using hk)]
    rfl

section
variable {r : MsgRing} {ms : List AcarsMsg}

structure Filled (r : MsgRing) (ms : List AcarsMsg) : Prop where
  lastId : r.lastId = ms.length
  head : r.head = ms.length%msgRingCapacity
  kept : Holds msgRingCapacity r.ring (stamped ms) (ms.length-msgRingCapacity) ms.length
  unused : ∀ i, ms.length ≤ i → i < msgRingCapacity → (r.ring i).id = 0

theorem filled_init : Filled msgRingInit [] :=
  ⟨rfl, rfl, Holds.empty le_rfl, fun _ _ _ => rfl⟩

theorem Filled.push (h : Filled r ms) (m : AcarsMsg) : Filled (msgRingPush r m) (ms++[m]) := by
  have hlen : (ms++[m]).length = ms.length+1 := by simp
  have hslide := h.kept
  rw [← length_stamped ms] at hslide
  have hnext := hslide.slide { m with id := r.lastId+1 }
  refine ⟨?_, ?_, ?_, ?_⟩
  · rw [hlen, ← h.lastId]
    rfl
  · rw [hlen, msgRingPush, h.head, Nat.mod_add_mod]
  · rw [hlen, stamped_snoc, ← h.lastId, msgRingPush, h.head, h.lastId]
    rwa [length_stamped, h.lastId] at hnext
  · intro i hi hcap
    have hne : i ≠ r.head := by
      rw [h.head, Nat.mod_eq_of_lt (by omega)]
      omega
    change (update r.ring r.head _ i).id = 0
    rw [update_of_ne hne]
    exact h.unused i (by omega) hcap

theorem snapshotLoop_eq (r : MsgRing) (sinceId cap : Nat) (ks : List Nat) (out : List AcarsMsg)
    (hout : out.length ≤ cap) :
    snapshotLoop r sinceId cap ks out =
      (out++(ks.map fun k => r.ring ((r.head+k)%msgRingCapacity)).filter fun e =>
        decide (¬ (e.id = 0 ∨ e.id ≤ sinceId))).take cap := by
  induction ks generalizing out with
  | nil => simp [snapshotLoop, take_of_length_le hout]
  | cons k ks ih =>
    rw [snapshotLoop, map_cons, filter_cons]
    by_cases hroom : out.length < cap
    · rw [if_pos hroom]
      by_cases he : (r.ring ((r.head+k)%msgRingCapacity)).id = 0 ∨
          (r.ring ((r.head+k)%msgRingCapacity)).id ≤ sinceId
      · simp only [he, if_true, not_true_eq_false, decide_false, Bool.false_eq_true, if_false]
        exact ih out hout
      · simp only [he, if_false, not_false_eq_true, decide_true, if_true]
        rw [ih _ (by simp; omega), append_assoc, singleton_append]
    · rw [if_neg hroom, take_append_of_le_length (by omega),
        take_of_length_le hout]

theorem Filled.walk (h : Filled r ms) :
    ((List.range msgRingCapacity).map fun k => r.ring ((r.head+k)%msgRingCapacity)).filter
      (fun e => decide (e.id ≠ 0)) = (stamped ms).drop (ms.length-msgRingCapacity) := by
  have hid : ∀ e ∈ stamped ms, e.id ≠ 0 := by
    intro e he
    have hmem := mem_map_of_mem (f := AcarsMsg.id) he
    rw [map_id_stamped, mem_range'_1] at hmem
    omega
  have hkeep : ∀ a, ((stamped ms).drop a).filter (fun e => decide (e.id ≠ 0)) =
      (stamped ms).drop a := by
    intro a
    rw [filter_eq_self]
    intro e he
    exact decide_eq_true (hid e (mem_of_mem_drop he))
  rw [h.head]
  by_cases hfull : msgRingCapacity ≤ ms.length
  · have hread := h.kept.read le_rfl
      (show ms.length-msgRingCapacity+msgRingCapacity ≤ ms.length by omega)
    rw [take_of_length_le (by simp; omega)] at hread
    rw [← hkeep, ← hread]
    congr 2
    funext k
    congr 1
    rw [Nat.mod_add_mod, show ms.length+k = ms.length-msgRingCapacity+k+msgRingCapacity by omega,
      Nat.add_mod_right]
  · -- the slots from the write index on are still empty
    have hread := h.kept.read (a := 0) (by omega) (show 0+ms.length ≤ ms.length by omega)
    rw [drop_zero, take_of_length_le (by simp)] at hread
    rw [← hkeep, show ms.length-msgRingCapacity = 0 by omega, drop_zero, ← hread,
      Nat.mod_eq_of_lt (by omega),
      show List.range msgRingCapacity = List.range (msgRingCapacity-ms.length+ms.length) by
        rw [Nat.sub_add_cancel (by omega)],
      range_add, map_append, filter_append, map_map]
    have hempty : ((List.range (msgRingCapacity-ms.length)).map fun k =>
        r.ring ((ms.length+k)%msgRingCapacity)).filter (fun e => decide (e.id ≠ 0)) = [] := by
      rw [filter_eq_nil_iff]
      intro e he
      obtain ⟨k,hk,rfl⟩ := mem_map.mp he
      rw [mem_range] at hk
      rw [Nat.mod_eq_of_lt (by omega)]
      simpa using h.unused (ms.length+k) (by omega) (by omega)
    rw [hempty, nil_append]
    congr 2
    funext k
    rw [comp_apply, show ms.length+(msgRingCapacity-ms.length+k) = 0+k+msgRingCapacity by
      omega, Nat.add_mod_right]

theorem filter_stamped (a b : Nat) :
    ((stamped ms).drop a).filter (fun e => decide (b < e.id)) = (stamped ms).drop (max b a) := by
  induction ms using List.reverseRecOn with
  | nil => simp [stamped]
  | append_singleton ms m ih =>
    rw [stamped_snoc]
    by_cases ha : a ≤ ms.length
    · rw [drop_append_of_le_length (by simpa using ha), filter_append, ih]
      by_cases hb : b ≤ ms.length
      · have hlt : b < ms.length+1 := by omega
        rw [drop_append_of_le_length (by simp; omega)]
        simp [hlt]
      · have hlt : ¬ b < ms.length+1 := by omega
        rw [drop_eq_nil_of_le (by simp; omega), drop_eq_nil_of_le (by simp; omega)]
        simp [hlt]
    · rw [drop_eq_nil_of_le (by simp; omega), drop_eq_nil_of_le (by simp; omega)]
      rfl

/-- A snapshot is the run of ids after `since` that are still in the ring, cut at `cap`. -/
theorem Filled.snapshot (h : Filled r ms) (sinceId cap : Nat) :
    msgRingSnapshot r sinceId cap =
      ((stamped ms).drop (max sinceId (ms.length-msgRingCapacity))).take cap := by
  rw [msgRingSnapshot]
  by_cases hcap : cap = 0
  · rw [if_pos hcap, hcap, take_zero]
  rw [if_neg hcap, snapshotLoop_eq r sinceId cap _ [] (by simp), nil_append,
    ← filter_stamped, ← h.walk, filter_filter]
  congr 2
  funext e
  by_cases h0 : e.id = 0
  · simp [h0]
  · by_cases hs : e.id ≤ sinceId
    · simp [h0, hs, Nat.not_lt.mpr hs]
    · simp [h0, hs, Nat.lt_of_not_le hs]

end

theorem run_snoc (e : RingEvent) :
    run (es++[e]) = (run es).next react e := runFrom_snoc react _ es e

theorem received_snoc (e : RingEvent) :
    received (es++[e]) = received es++(react (run es).ctx e).2 := by
  rw [received, run_snoc, Trace.next, flatMap_append, received]
  simp

theorem pushed_append (es fs : List RingEvent) : pushed (es++fs) = pushed es++pushed fs := by
  induction es with
  | nil => rfl
  | cons e es ih =>
    cases e with
    | push m => exact congrArg (m::·) ih
    | snapshot cap => exact ih

theorem filled_run : Filled (run es).ctx.ring (pushed es) := by
  induction es using List.reverseRecOn with
  | nil => exact filled_init
  | append_singleton es e ih =>
    rw [run_snoc, pushed_append]
    cases e with
    | push m => exact ih.push m
    | snapshot cap =>
      rwa [pushed, pushed, append_nil]

def resume (es : List RingEvent) : Nat :=
  max (run es).ctx.sinceId ((pushed es).length-msgRingCapacity)

def answer (es : List RingEvent) (cap : Nat) : List AcarsMsg :=
  (react (run es).ctx (.snapshot cap)).2

theorem answer_eq (cap : Nat) :
    answer es cap = ((stamped (pushed es)).drop (resume es)).take cap :=
  (filled_run es).snapshot _ cap

theorem answer_ids (cap : Nat) : (answer es cap).map AcarsMsg.id =
    List.range' (resume es+1) (min cap ((pushed es).length-resume es)) := by
  rw [answer_eq, map_take, map_drop, map_id_stamped, drop_range', Nat.mul_one,
    Nat.add_comm 1]
  obtain h | h := Nat.le_total cap ((pushed es).length-resume es)
  · rw [take_range'_of_length_ge h, Nat.min_eq_left h]
  · rw [take_range'_of_length_le h, Nat.min_eq_right h]

theorem mem_answer_id {es : List RingEvent} {cap : Nat} {e : AcarsMsg} (h : e ∈ answer es cap) :
    resume es < e.id ∧ e.id ≤ resume es+min cap ((pushed es).length-resume es) := by
  have hmem := mem_map_of_mem (f := AcarsMsg.id) h
  rw [answer_ids, mem_range'_1] at hmem
  omega

theorem sinceId_snapshot (cap : Nat) :
    (run (es++[.snapshot cap])).ctx.sinceId =
      ((answer es cap).getLast?.map AcarsMsg.id).getD (run es).ctx.sinceId := by
  rw [run_snoc]
  rfl

structure Client (es : List RingEvent) : Prop where
  sorted : ((received es).map AcarsMsg.id).Pairwise (· < ·)
  below : ∀ e ∈ received es, e.id ≤ (run es).ctx.sinceId
  last : (run es).ctx.sinceId = 0 ∨ ∃ e ∈ received es, e.id = (run es).ctx.sinceId
  genuine : ∀ e ∈ received es, e ∈ stamped (pushed es)

theorem Client.push {es : List RingEvent} (h : Client es) (m : AcarsMsg) :
    Client (es++[.push m]) := by
  have hrec : received (es++[.push m]) = received es := by
    rw [received_snoc]
    exact append_nil _
  have hsince : (run (es++[.push m])).ctx.sinceId = (run es).ctx.sinceId := by
    rw [run_snoc]
    rfl
  refine ⟨?_, ?_, ?_, ?_⟩
  · rw [hrec]
    exact h.sorted
  · rw [hrec, hsince]
    exact h.below
  · rw [hrec, hsince]
    exact h.last
  · intro e he
    rw [hrec] at he
    rw [pushed_append, pushed, pushed, stamped_snoc]
    exact mem_append_left _ (h.genuine e he)

theorem Client.snapshot {es : List RingEvent} (h : Client es) (cap : Nat) :
    Client (es++[.snapshot cap]) := by
  have hrec : received (es++[.snapshot cap]) = received es++answer es cap := received_snoc es _
  have hnew : ∀ e ∈ answer es cap, (run es).ctx.sinceId < e.id := fun e he =>
    lt_of_le_of_lt (Nat.le_max_left _ _) (mem_answer_id he).1
  have hsorted : ((answer es cap).map AcarsMsg.id).Pairwise (· < ·) := by
    rw [answer_ids]
    exact pairwise_lt_range'
  have hsince := sinceId_snapshot es cap
  have hpushed : pushed (es++[.snapshot cap]) = pushed es := by
    rw [pushed_append]
    exact append_nil _
  refine ⟨?_, ?_, ?_, ?_⟩
  · rw [hrec, map_append, pairwise_append]
    refine ⟨h.sorted, hsorted, ?_⟩
    intro a ha b hb
    obtain ⟨x,hx,rfl⟩ := mem_map.mp ha
    obtain ⟨y,hy,rfl⟩ := mem_map.mp hb
    exact lt_of_le_of_lt (h.below x hx) (hnew y hy)
  · intro e he
    rw [hrec, mem_append] at he
    rw [hsince]
    cases hout : answer es cap using List.reverseRecOn with
    | nil =>
      rw [hout] at he
      obtain he | he := he
      · exact h.below e he
      · cases he
    | append_singleton init l _ =>
      rw [hout, map_append, pairwise_append] at hsorted
      rw [getLast?_append_of_ne_nil _ (by simp)]
      change e.id ≤ l.id
      obtain he | he := he
      · exact (h.below e he).trans (hnew l (by rw [hout]; simp)).le
      · rw [hout, mem_append, mem_singleton] at he
        obtain he | rfl := he
        · exact (hsorted.2.2 e.id (mem_map_of_mem he) l.id (by simp)).le
        · exact le_rfl
  · rw [hsince, hrec]
    cases hlast : (answer es cap).getLast? with
    | none =>
      obtain h0 | ⟨e,he,hid⟩ := h.last
      · exact Or.inl h0
      · exact Or.inr ⟨e, mem_append_left _ he, hid⟩
    | some l =>
      exact Or.inr ⟨l, mem_append_right _ (mem_of_getLast? hlast), rfl⟩
  · intro e he
    rw [hrec, mem_append] at he
    rw [hpushed]
    obtain he | he := he
    · exact h.genuine e he
    · rw [answer_eq] at he
      exact mem_of_mem_drop (mem_of_mem_take he)

theorem client_run : Client es := by
  induction es using List.reverseRecOn with
  | nil => exact ⟨.nil, fun e he => (by cases he), .inl rfl, fun e he => (by cases he)⟩
  | append_singleton es e ih =>
    cases e with
    | push m => exact ih.push m
    | snapshot cap => exact ih.snapshot cap

/-- The poll after `pre` is the first to pass over id `i`. -/
def Skips (pre : List RingEvent) (cap i : Nat) : Prop :=
  1 ≤ i ∧ (∀ e ∈ received pre, e.id < i) ∧ (∃ e ∈ answer pre cap, i < e.id) ∧
    ∀ e ∈ answer pre cap, e.id ≠ i

theorem skips_overwritten {pre : List RingEvent} {cap i : Nat} (h : Skips pre cap i) :
    i+msgRingCapacity ≤ (pushed pre).length := by
  obtain ⟨hpos,hnew,⟨e,he,hlt⟩,hne⟩ := h
  have hsince : (run pre).ctx.sinceId < i := by
    obtain h0 | ⟨x,hx,hid⟩ := (client_run pre).last
    · omega
    · exact hid ▸ hnew x hx
  have hres : i ≤ resume pre := by
    by_contra hgt
    have hmem : i ∈ (answer pre cap).map AcarsMsg.id := by
      rw [answer_ids, mem_range'_1]
      have := (mem_answer_id he).2
      omega
    obtain ⟨x,hx,hid⟩ := mem_map.mp hmem
    exact hne x hx hid
  have hcap : 0 < msgRingCapacity := by decide
  rw [resume] at hres
  omega

theorem caught_up {pre : List RingEvent} {cap : Nat} (hcap : 1 ≤ cap)
    (h : answer pre cap = []) : (pushed pre).length ≤ (run pre).ctx.sinceId := by
  have hids := congrArg List.length (answer_ids pre cap)
  have hpos : 0 < msgRingCapacity := by decide
  rw [h, map_nil, length_nil, length_range', resume] at hids
  omega

/-- A polling client gets genuine entries in order and misses only what was overwritten. -/
theorem polling_skips_only_overwritten (es : List RingEvent)
    (hcap : ∀ cap, RingEvent.snapshot cap ∈ es → 1 ≤ cap) :
    ((received es).map AcarsMsg.id).Pairwise (· < ·) ∧
    (∀ e ∈ received es, ∃ m, 1 ≤ e.id ∧ (pushed es)[e.id-1]? = some m ∧ e = { m with id := e.id }) ∧
    ∀ pre cap post, es = pre++.snapshot cap::post →
      (∀ i, Skips pre cap i → i+msgRingCapacity ≤ (pushed pre).length) ∧
      (answer pre cap = [] → (pushed pre).length ≤ (run pre).ctx.sinceId) := by
  refine ⟨(client_run es).sorted, ?_, ?_⟩
  · intro e he
    obtain ⟨k,hk⟩ := mem_iff_getElem?.mp ((client_run es).genuine e he)
    rw [getElem?_stamped, Option.map_eq_some_iff] at hk
    obtain ⟨m,hm,rfl⟩ := hk
    exact ⟨m, Nat.le_add_left 1 k, hm, rfl⟩
  · rintro pre cap post rfl
    exact ⟨fun i hi => skips_overwritten hi, caught_up (hcap cap (by simp))⟩

/-- Forty messages and one poll of up to four entries: ids 9 to 12 arrive. -/
theorem polling_skips_only_overwritten_forty :
    (received (List.replicate 40 (.push AcarsMsg.blank)++[.snapshot 4])).map AcarsMsg.id =
      [9, 10, 11, 12] ∧
    ((received (List.replicate 40 (.push AcarsMsg.blank)++[.snapshot 4])).map
      AcarsMsg.id).Pairwise (· < ·) :=
  ⟨by decide +kernel,
    (polling_skips_only_overwritten (List.replicate 40 (.push AcarsMsg.blank)++[.snapshot 4])
      (fun cap h => by simp at h; omega)).1⟩

end IridiumAcars.Messages
