import IridiumAcars.FrameQueue
import IridiumAcars.Lib.Runs

/-! Under every interleaving of its two threads the frame queue is a bounded first-in
first-out queue. -/
namespace IridiumAcars.FrameQueue
open RingBuffer List
variable {n : Nat}

structure Ring.Ok (n : Nat) (r : Ring) : Prop where
  tail_eq : r.tail = r.committed.length%n
  head_eq : r.head = r.taken.length%n
  le : r.taken.length ≤ r.committed.length
  room : r.committed.length < r.taken.length+n
  holds : Holds n r.slots (r.committed.map Prod.snd) r.taken.length r.committed.length
  applied : ∀ e ∈ r.committed, ∃ stale, e.2 = applyWrites e.1.writes stale
  order : r.taken.map FrameQueueItem.view <+: r.committed.map fun e => e.2.view

def Ring.Free (n : Nat) (r : Ring) : Prop := r.committed.length+1 < r.taken.length+n

def Ring.Pending (r : Ring) : Prop := r.taken.length < r.committed.length

theorem nextIndex_mod {k : Nat} (m : Nat) : nextIndex (2^k) (m%2^k) = (m+1)%2^k := by
  rw [nextIndex, Nat.and_two_pow_sub_one_eq_mod, Nat.mod_add_mod]

section
variable {r : Ring}

theorem Ring.Ok.write (h : r.Ok n) (w : SlotWrite) : (r.write r.tail w).Ok n := by
  have hholds := h.holds.update le_rfl h.room (w (r.slots r.tail))
  rw [← h.tail_eq] at hholds
  exact ⟨h.tail_eq, h.head_eq, h.le, h.room, hholds, h.applied, h.order⟩

theorem Ring.Ok.slot_head (h : r.Ok n) (hp : r.Pending) :
    (r.committed.map Prod.snd)[r.taken.length]? = some (r.slots r.head) := by
  rw [h.head_eq]
  exact h.holds _ le_rfl hp

theorem Ring.Ok.head_ne_tail (h : r.Ok n) (hp : r.Pending) : r.head ≠ r.tail := by
  rw [h.head_eq, h.tail_eq]
  exact mod_ne_of_lt hp h.room

theorem Ring.Ok.publish {k : Nat} (h : r.Ok (2^k)) (hfree : r.Free (2^k)) {c : Call}
    {stale : FrameQueueItem} (hslot : r.slots r.tail = applyWrites c.writes stale) :
    (r.publish (2^k) c r.tail).Ok (2^k) := by
  have hholds := h.holds
  have hlen : (r.committed.map Prod.snd).length = r.committed.length := length_map _
  rw [← hlen] at hholds
  have hnew := hholds.snoc
  rw [hlen, ← h.tail_eq] at hnew
  constructor
  · simp only [Ring.publish, length_append, length_singleton]
    rw [h.tail_eq, nextIndex_mod]
  · exact h.head_eq
  · simp only [Ring.publish, length_append, length_singleton]
    exact Nat.le_succ_of_le h.le
  · simp only [Ring.publish, length_append, length_singleton]
    exact hfree
  · simpa only [Ring.publish, length_append, length_singleton, map_append,
      map_singleton] using hnew
  · intro e he
    rcases mem_append.mp he with he | he
    · exact h.applied e he
    · rw [mem_singleton.mp he]
      exact ⟨stale, hslot⟩
  · simp only [Ring.publish, map_append]
    exact h.order.trans (prefix_append _ _)

theorem Ring.Ok.release {k : Nat} (h : r.Ok (2^k)) (hp : r.Pending) {out : FrameQueueItem}
    (hout : out.view = (r.slots r.head).view) : (r.release (2^k) out r.head).Ok (2^k) := by
  have hslot := h.slot_head hp
  constructor
  · exact h.tail_eq
  · simp only [Ring.release, length_append, length_singleton]
    rw [h.head_eq, nextIndex_mod]
  · simp only [Ring.release, length_append, length_singleton]
    exact hp
  · have := h.room
    simp only [Ring.release, length_append, length_singleton]
    omega
  · simp only [Ring.release, length_append, length_singleton]
    exact h.holds.mono (Nat.le_succ _) le_rfl
  · exact h.applied
  · obtain ⟨rest,hrest⟩ := h.order
    have hview : (r.committed.map fun e => e.2.view)[r.taken.length]? = some out.view := by
      have := congrArg (Option.map FrameQueueItem.view) hslot
      rw [← getElem?_map, map_map] at this
      rwa [hout]
    rw [← hrest, getElem?_append_right (by simp), length_map, Nat.sub_self] at hview
    cases rest with
    | nil => cases hview
    | cons x rest =>
      cases hview
      refine ⟨rest, ?_⟩
      simp only [Ring.release, map_append, map_singleton, append_assoc,
        singleton_append]
      exact hrest

end

def Ring.Filling (r : Ring) (c : Call) (ws : List SlotWrite) : Prop :=
  ∃ stale, applyWrites ws (r.slots r.tail) = applyWrites c.writes stale

def Ring.Copying (r : Ring) (rs : List SlotRead) (out : FrameQueueItem) : Prop :=
  ∃ out0, applyReads rs (r.slots r.head) out = applyReads popReads (r.slots r.head) out0

def ProducerOk (n : Nat) (r : Ring) (full : Bool) : Producer → Prop
  | .idle | .loadTail _ | .countPushed | .returning true => True
  | .loadHead _ tail => tail = r.tail
  | .drop | .returning false => full = true
  | .fill c slot ws => slot = r.tail ∧ r.Free n ∧ r.Filling c ws
  | .commitLoad c => r.Free n ∧ r.Filling c []
  | .commitStore c tail => tail = r.tail ∧ r.Free n ∧ r.Filling c []

def ConsumerOk (r : Ring) : Consumer → Prop
  | .idle | .loadHead _ | .countPopped => True
  | .loadTail _ head => head = r.head
  | .copy out head rs => head = r.head ∧ r.Pending ∧ r.Copying rs out
  | .storeHead out head => head = r.head ∧ r.Pending ∧ r.Copying [] out

section
variable {r : Ring}

theorem ProducerOk.full {full : Bool} {p : Producer} (h : ProducerOk n r full p) (b : Bool) :
    ProducerOk n r (full || b) p := by
  cases p with
  | drop => exact Bool.or_eq_true_iff.mpr (Or.inl h)
  | returning ok =>
    cases ok with
    | false => exact Bool.or_eq_true_iff.mpr (Or.inl h)
    | true => trivial
  | _ => exact h

theorem ProducerOk.release {full : Bool} {p : Producer} (h : ProducerOk n r full p)
    (out : FrameQueueItem) (head : Nat) : ProducerOk n (r.release n out head) full p := by
  have hfree (hf : r.Free n) : (r.release n out head).Free n := by
    have : r.committed.length+1 < r.taken.length+n := hf
    simp only [Ring.Free, Ring.release, length_append, length_singleton]
    omega
  cases p with
  | fill c slot ws | commitStore c tail => exact ⟨h.1, hfree h.2.1, h.2.2⟩
  | commitLoad c => exact ⟨hfree h.1, h.2⟩
  | returning ok => cases ok <;> exact h
  | _ => exact h

theorem ConsumerOk.write {c : Consumer} (hr : r.Ok n) (h : ConsumerOk r c) (w : SlotWrite) :
    ConsumerOk (r.write r.tail w) c := by
  have hslot (hp : r.Pending) : (r.write r.tail w).slots r.head = r.slots r.head :=
    Function.update_of_ne (hr.head_ne_tail hp) _ _
  have hcopy (hp : r.Pending) {rs : List SlotRead} {out : FrameQueueItem}
      (hc : r.Copying rs out) : (r.write r.tail w).Copying rs out := by
    obtain ⟨out0,hout⟩ := hc
    refine ⟨out0, ?_⟩
    simpa only [show (r.write r.tail w).head = r.head from rfl, hslot hp] using hout
  cases c with
  | copy out head rs | storeHead out head => exact ⟨h.1, h.2.1, hcopy h.2.1 h.2.2⟩
  | _ => exact h

theorem ConsumerOk.publish {k : Consumer} (h : ConsumerOk r k) (c : Call) (tail : Nat) :
    ConsumerOk (r.publish n c tail) k := by
  have hp (hp : r.Pending) : (r.publish n c tail).Pending := by
    have : r.taken.length < r.committed.length := hp
    simp only [Ring.Pending, Ring.publish, length_append, length_singleton]
    omega
  cases k with
  | copy out head rs | storeHead out head => exact ⟨h.1, hp h.2.1, h.2.2⟩
  | _ => exact h

end

theorem Ring.Ok.full_iff {r : Ring} {k : Nat} (h : r.Ok (2^k)) :
    nextIndex (2^k) r.tail = r.head ↔ r.committed.length+1 = r.taken.length+2^k := by
  have hle := h.le
  have hroom := h.room
  rw [h.tail_eq, h.head_eq, nextIndex_mod]
  constructor
  · intro he
    by_contra hne
    exact mod_ne_of_lt (by omega) (by omega) he.symm
  · intro he
    rw [he, Nat.add_mod_right]

theorem Ring.Ok.empty_iff {r : Ring} (h : r.Ok n) :
    r.head = r.tail ↔ r.committed.length = r.taken.length := by
  rw [h.tail_eq, h.head_eq]
  constructor
  · intro he
    by_contra hne
    have := h.le
    exact mod_ne_of_lt (by omega) h.room he
  · intro he
    rw [he]

structure Queue.Safe (n : Nat) (q : Queue) : Prop where
  ring : q.toRing.Ok n
  producer : ProducerOk n q.toRing q.sawFull q.producer
  consumer : ConsumerOk q.toRing q.consumer
  returned : ∀ r ∈ q.returns, r.1 = false → r.2 = true
  dropped : q.dropped = UInt64.ofNat q.refused

structure Queue.Inv (n : Nat) (q : Queue) : Prop extends q.Safe n where
  seen : q.producer ≠ .idle → q.inFlight+1 = n → q.sawFull = true

theorem Queue.Safe.observe {q : Queue} (h : q.Safe n) : (q.observe n).Inv n where
  ring := h.ring
  producer := h.producer.full _
  consumer := h.consumer
  returned := h.returned
  dropped := h.dropped
  seen := by
    intro _ hfull
    have hflight : q.inFlight+1 = n := hfull
    simp [Queue.observe, hflight]

section
variable {q : Queue} {k : Nat}

theorem Queue.Safe.goto (h : q.Safe n) {p : Producer}
    (hold : q.refused = q.returns.countP fun r => !r.1)
    (hnew : ({ q with producer := p } : Queue).refused = q.returns.countP fun r => !r.1)
    (hp : ProducerOk n q.toRing q.sawFull p) : ({ q with producer := p } : Queue).Safe n :=
  ⟨h.ring, hp, h.consumer, h.returned, by rw [hnew, ← hold]; exact h.dropped⟩

theorem producerStep_safe (h : q.Inv (2^k)) : (producerStep (2^k) q).Safe (2^k) := by
  have hprod := h.producer
  have hd := h.dropped
  have hring := h.ring
  cases hp : q.producer with
  | idle => simpa only [producerStep, hp] using h.toSafe
  | loadTail c =>
    simp only [producerStep, hp]
    exact h.toSafe.goto (by simp [Queue.refused, hp]) (by simp [Queue.refused]) rfl
  | loadHead c tail =>
    rw [hp] at hprod
    have htail : tail = q.tail := hprod
    simp only [producerStep, hp, htail]
    split_ifs with hfull
    · have hlen := hring.full_iff.mp hfull
      have hle := hring.le
      have hflight : q.inFlight+1 = 2^k := by
        rw [Ring.inFlight]
        omega
      exact h.toSafe.goto (by simp [Queue.refused, hp]) (by simp [Queue.refused])
        (h.seen (by rw [hp]; nofun) hflight)
    · have hne : q.committed.length+1 ≠ q.taken.length+2^k := fun he =>
        hfull (hring.full_iff.mpr he)
      have hroom := hring.room
      exact h.toSafe.goto (by simp [Queue.refused, hp]) (by simp [Queue.refused])
        ⟨rfl, by rw [Ring.Free]; omega, q.slots q.tail, rfl⟩
  | drop =>
    rw [hp] at hprod
    have hone : q.refused = q.returns.countP fun r => !r.1 := by simp [Queue.refused, hp]
    simp only [producerStep, hp]
    refine ⟨hring, hprod, h.consumer, h.returned, ?_⟩
    rw [hd, hone]
    simp [Queue.refused]
  | fill c slot ws =>
    rw [hp] at hprod
    obtain ⟨hslot,hfree,hfill⟩ := hprod
    cases ws with
    | nil =>
      simp only [producerStep, hp]
      exact h.toSafe.goto (by simp [Queue.refused, hp]) (by simp [Queue.refused]) ⟨hfree, hfill⟩
    | cons w ws =>
      simp only [producerStep, hp, hslot]
      refine ⟨hring.write w, ⟨rfl, hfree, ?_⟩, h.consumer.write hring w, h.returned, ?_⟩
      · obtain ⟨stale,hstale⟩ := hfill
        refine ⟨stale, ?_⟩
        rw [← hstale]
        simp [Ring.write, applyWrites]
      · rw [hd]
        simp [Queue.refused, hp]
  | commitLoad c =>
    rw [hp] at hprod
    simp only [producerStep, hp]
    exact h.toSafe.goto (by simp [Queue.refused, hp]) (by simp [Queue.refused]) ⟨rfl, hprod⟩
  | commitStore c tail =>
    rw [hp] at hprod
    obtain ⟨htail,hfree,stale,hstale⟩ := hprod
    simp only [producerStep, hp, htail]
    refine ⟨hring.publish hfree hstale, trivial, h.consumer.publish c _, h.returned, ?_⟩
    rw [hd]
    simp [Queue.refused, hp]
  | countPushed =>
    simp only [producerStep, hp]
    refine ⟨hring, trivial, h.consumer, h.returned, ?_⟩
    rw [hd]
    simp [Queue.refused, hp]
  | returning ok =>
    rw [hp] at hprod
    simp only [producerStep, hp]
    refine ⟨hring, trivial, h.consumer, ?_, ?_⟩
    · intro r hr hfalse
      rcases mem_append.mp hr with hr | hr
      · exact h.returned r hr hfalse
      · cases mem_singleton.mp hr
        cases ok with
        | false => exact hprod
        | true => cases hfalse
    · rw [hd]
      cases ok <;> simp [Queue.refused, hp]

theorem Queue.Safe.nSoft_head (h : q.Safe n) (hp : q.Pending) :
    (q.slots q.head).nSoft.toNat ≤ frameQueueMaxSoft := by
  have hmem := mem_of_getElem? (h.ring.slot_head hp)
  obtain ⟨e,he,hslot⟩ := mem_map.mp hmem
  obtain ⟨stale,hstale⟩ := h.ring.applied e he
  rw [← hslot, hstale]
  exact e.1.nSoft_le stale

theorem consumerStep_safe (h : q.Safe (2^k)) : (consumerStep (2^k) q).Safe (2^k) := by
  have hcons := h.consumer
  have hring := h.ring
  have keep {c : Consumer} (hc : ConsumerOk q.toRing c) :
      ({ q with consumer := c } : Queue).Safe (2^k) :=
    ⟨hring, h.producer, hc, h.returned, h.dropped⟩
  cases hp : q.consumer with
  | idle => simpa only [consumerStep, hp] using h
  | loadHead out =>
    simp only [consumerStep, hp]
    exact keep rfl
  | loadTail out head =>
    rw [hp] at hcons
    have hhead : head = q.head := hcons
    simp only [consumerStep, hp, hhead]
    split_ifs with hempty
    · exact keep trivial
    · have hne : q.committed.length ≠ q.taken.length := fun he => hempty (hring.empty_iff.mpr he)
      have hle := hring.le
      exact keep ⟨rfl, by rw [Ring.Pending]; omega, out, rfl⟩
  | copy out head rs =>
    rw [hp] at hcons
    obtain ⟨hhead,hpend,hcopy⟩ := hcons
    cases rs with
    | nil =>
      simp only [consumerStep, hp]
      exact keep ⟨hhead, hpend, hcopy⟩
    | cons r rs =>
      simp only [consumerStep, hp, hhead]
      exact keep ⟨rfl, hpend, hcopy⟩
  | storeHead out head =>
    rw [hp] at hcons
    obtain ⟨hhead,hpend,out0,hout⟩ := hcons
    have hview : out.view = (q.slots q.head).view := by
      rw [← pop_view (h.nSoft_head hpend) out0, ← hout]
      rfl
    simp only [consumerStep, hp, hhead]
    exact ⟨hring.release hpend hview, h.producer.release out _, trivial, h.returned, h.dropped⟩
  | countPopped =>
    simp only [consumerStep, hp]
    exact ⟨hring, h.producer, trivial, h.returned, h.dropped⟩

theorem step_inv (h : q.Inv (2^k)) (a : Action) : (step (2^k) q a).Inv (2^k) := by
  cases a with
  | call c =>
    cases hp : q.producer with
    | idle =>
      simp only [step, hp]
      have hd := h.dropped
      refine Queue.Safe.observe ⟨h.ring, trivial, h.consumer, h.returned, ?_⟩
      rw [hd]
      simp [Queue.refused, hp]
    | _ => simpa only [step, hp] using h
  | producer => exact (producerStep_safe h).observe
  | pop out =>
    cases hp : q.consumer with
    | idle =>
      simp only [step, hp]
      exact ⟨⟨h.ring, h.producer, trivial, h.returned, h.dropped⟩, h.seen⟩
    | _ => simpa only [step, hp] using h
  | consumer => exact (consumerStep_safe h.toSafe).observe

theorem step_slots (h : q.Inv (2^k)) (a : Action) {i : Nat} (hlo : q.taken.length ≤ i)
    (hhi : i < q.committed.length) :
    (step (2^k) q a).slots (i%2^k) = q.slots (i%2^k) := by
  cases a with
  | call c =>
    cases hp : q.producer with
    | idle =>
      simp only [step, hp]
      rfl
    | _ => simp only [step, hp]
  | producer =>
    have hprod := h.producer
    cases hp : q.producer with
    | fill c slot ws =>
      cases ws with
      | nil => simp only [step, producerStep, hp]; rfl
      | cons w ws =>
        rw [hp] at hprod
        have hne : i%2^k ≠ slot := by
          have hroom := h.ring.room
          rw [hprod.1, h.ring.tail_eq]
          exact mod_ne_of_lt hhi (by omega)
        simp only [step, producerStep, hp]
        exact Function.update_of_ne hne _ _
    | loadHead c tail =>
      simp only [step, producerStep, hp]
      by_cases hfull : nextIndex (2^k) tail = q.head <;> simp only [hfull] <;> rfl
    | _ => simp only [step, producerStep, hp]; rfl
  | pop out => cases hp : q.consumer <;> simp only [step, hp]
  | consumer =>
    cases hp : q.consumer with
    | copy out head rs => cases rs <;> simp only [step, consumerStep, hp] <;> rfl
    | loadTail out head =>
      simp only [step, consumerStep, hp]
      by_cases hempty : head = q.tail <;> (simp only [hempty]; rfl)
    | _ => simp only [step, consumerStep, hp]; rfl

end

def frameQueueRun (nSlots : Nat) (acts : List Action) : Option Queue :=
  (frameQueueCreate nSlots).map fun q => acts.foldl (step nSlots) q

theorem frameQueueCreate_inv (k : Nat) :
    ∃ q, frameQueueCreate (2^(k+1)) = some q ∧ q.Inv (2^(k+1)) := by
  have hpos := Nat.two_pow_pos k
  have hpow : isPowerOfTwo (2^(k+1)) = true := by
    rw [isPowerOfTwo, Nat.and_two_pow_sub_one_eq_mod, Nat.mod_self]
    simp
  have htwo : ¬ 2^(k+1) < 2 := by
    rw [Nat.pow_succ]
    omega
  refine ⟨_, by simp only [frameQueueCreate, hpow, htwo]; rfl, ?_⟩
  have hroom : 0 < 0+2^(k+1) := by
    rw [Nat.pow_succ]
    omega
  refine ⟨⟨⟨by simp, by simp, le_rfl, hroom, Holds.empty le_rfl, by simp, by simp⟩, trivial,
    trivial, by simp, rfl⟩, ?_⟩
  intro hidle
  exact absurd rfl hidle

theorem frameQueueRun_inv (k : Nat) (acts : List Action) :
    ∃ q, frameQueueRun (2^(k+1)) acts = some q ∧ q.Inv (2^(k+1)) := by
  obtain ⟨q,hq,hinv⟩ := frameQueueCreate_inv k
  refine ⟨_, by rw [frameQueueRun, hq]; rfl, ?_⟩
  exact List.foldlRecOn acts (step (2^(k+1))) hinv fun s hs a _ => step_inv hs a

def Call.Publishes (it : FrameQueueItem) : Call → Prop
  | .push item => it.view = ({ item with nSoft := clampSoft item.nSoft } : FrameQueueItem).view
  | .reserve fill => ∃ stale, it = applyWrites fill.writes stale

theorem frame_queue_fifo (k : Nat) (acts : List Action) :
    ∃ q, frameQueueRun (2^(k+1)) acts = some q ∧
      (q.taken.map FrameQueueItem.view <+: q.committed.map fun e => e.2.view) ∧
      (∀ e ∈ q.committed, e.1.Publishes e.2) ∧
      (∀ a i, q.taken.length ≤ i → i < q.committed.length →
        q.committed[i]?.map Prod.snd = some (q.slots (i%2^(k+1))) ∧
        (step (2^(k+1)) q a).slots (i%2^(k+1)) = q.slots (i%2^(k+1))) ∧
      q.taken.length ≤ q.committed.length ∧ q.inFlight ≤ 2^(k+1)-1 ∧
      (∀ r ∈ q.returns, r.1 = false → r.2 = true) ∧
      q.dropped = UInt64.ofNat q.refused := by
  obtain ⟨q,hq,h⟩ := frameQueueRun_inv k acts
  refine ⟨q, hq, h.ring.order, ?_, ?_, h.ring.le, ?_, h.returned, h.dropped⟩
  · intro e he
    obtain ⟨stale,hstale⟩ := h.ring.applied e he
    obtain ⟨c,it⟩ := e
    cases c with
    | push item =>
      have hit : it = applyWrites (pushWrites item) stale := hstale
      rw [Call.Publishes, hit]
      exact push_view item stale
    | reserve fill => exact ⟨stale, hstale⟩
  · intro a i hlo hhi
    rw [← getElem?_map]
    exact ⟨h.ring.holds i hlo hhi, step_slots h a hlo hhi⟩
  · have hroom := h.ring.room
    rw [Ring.inFlight]
    omega

def Action.calls : Action → List Call
  | .call c => [c]
  | _ => []

def Producer.calls : Producer → List Call
  | .loadTail c | .loadHead c _ | .fill c _ _ | .commitLoad c | .commitStore c _ => [c]
  | _ => []

theorem calls_step (n : Nat) (q : Queue) (a : Action) :
    ((step n q a).committed.map Prod.fst++(step n q a).producer.calls).Sublist
      (q.committed.map Prod.fst++q.producer.calls++a.calls) := by
  cases a with
  | call c => cases hq : q.producer <;> simp [step, Queue.observe, Producer.calls, Action.calls, hq]
  | pop out => cases hq : q.consumer <;> simp [step, hq]
  | producer =>
    cases hq : q.producer with
    | fill c slot ws =>
      cases ws <;> simp [step, producerStep, Queue.observe, Producer.calls, Ring.write, hq]
    | loadHead c tail =>
      simp only [step, producerStep, Queue.observe, hq]
      split <;> simp [Producer.calls]
    | _ => simp [step, producerStep, Queue.observe, Producer.calls, Ring.publish, hq]
  | consumer =>
    cases hq : q.consumer with
    | copy out head rs => cases rs <;> simp [step, consumerStep, Queue.observe, hq]
    | loadTail out head =>
      simp only [step, consumerStep, Queue.observe, hq]
      split <;> simp
    | _ => simp [step, consumerStep, Queue.observe, Ring.release, hq]

theorem calls_run (n : Nat) (q : Queue) (acts : List Action) :
    ((acts.foldl (step n) q).committed.map Prod.fst).Sublist
      (q.committed.map Prod.fst++q.producer.calls++acts.flatMap Action.calls) := by
  induction acts generalizing q with
  | nil => simp
  | cons a acts ih =>
    rw [flatMap_cons, ← append_assoc]
    exact (ih (step n q a)).trans ((calls_step n q a).append_right _)

/-- What `decoder_task` pops was given to `frame_decoder_push`, in order and once each. -/
theorem decoder_pops_pushed_frames (k : Nat) (acts : List Action) :
    ∃ q, frameQueueRun (2^(k+1)) acts = some q ∧
      (q.committed.map Prod.fst).Sublist (acts.flatMap Action.calls) ∧
      (q.taken.map FrameQueueItem.view <+: q.committed.map fun e => e.2.view) ∧
      ∀ e ∈ q.committed, ∀ nowUs a, frameDecoderCall nowUs a = some e.1 →
        e.2.view = (a.header nowUs, a.softBits.take frameQueueMaxSoft, a.bits) := by
  obtain ⟨q,hq,hinv⟩ := frameQueueRun_inv k acts
  obtain ⟨q0,hq0,rfl⟩ := Option.map_eq_some_iff.mp hq
  refine ⟨_, hq, ?_, hinv.ring.order, fun e he nowUs a hcall => ?_⟩
  · have hcalls := calls_run (2^(k+1)) q0 acts
    rw [frameQueueCreate] at hq0
    split at hq0
    · cases hq0
    · rw [← Option.some.inj hq0] at hcalls ⊢
      exact hcalls
  · obtain ⟨stale,hstale⟩ := hinv.ring.applied e he
    rw [frameDecoderCall] at hcall
    split at hcall
    · cases hcall
    · rw [hstale, ← Option.some.inj hcall]
      exact decoderWrites_view _ _ stale (by omega)

end IridiumAcars.FrameQueue
