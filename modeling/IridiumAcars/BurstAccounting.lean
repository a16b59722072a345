import Mathlib.Tactic.Abel
import IridiumAcars.BurstQueue

/-! Where every pushed burst is, and what the semaphore and the counters say about it. -/
namespace IridiumAcars.BurstQueue
open RankedBuffer Tasks List Function
variable {P B : Type}

def Outcome.gives : Outcome B → Nat
  | .admitted => 1
  | _ => 0

def Outcome.evicts : Outcome B → Nat
  | .replaced _ => 1
  | _ => 0

def Outcome.drops : Outcome B → Nat
  | .refused => 1
  | _ => 0

def Phase.due (w : Outcome B → Nat) : Phase B → Nat
  | .inserted r => w r
  | .released r => w r
  | _ => 0

def Phase.holds : Phase B → Nat
  | .holding _ => 1
  | .inserted _ => 1
  | _ => 0

def Phase.pending : Phase B → Multiset B
  | .counted b => {b}
  | .waiting b => {b}
  | .holding b => {b}
  | _ => 0

def Worker.owes : Worker B → Nat
  | .took => 1
  | .holding => 1
  | _ => 0

def Worker.holds : Worker B → Nat
  | .holding => 1
  | .popped _ => 1
  | _ => 0

section
variable {st : Staleness B} {head : UInt64} {pq : List B}

def Outcome.lost (b : B) : Outcome B → List B
  | .admitted => []
  | .replaced old => [old]
  | .refused => [b]

theorem find_slot {p : B × Nat → Bool} {old : B} {i : Nat}
    (h : pq.zipIdx.find? p = some (old, i)) : pq[i]? = some old := by
  have hmem := mem_of_find?_eq_some h
  simpa using mem_zipIdx_iff_getElem?.mp hmem

theorem pqInsertLocked_spec (st : Staleness B) (head : UInt64) (rank : Ranking B) (b : B)
    (hlen : pq.length ≤ burstPqCap) :
    let r := pqInsertLocked st head rank b pq
    r.1.length = pq.length+r.2.gives ∧ r.1.length ≤ burstPqCap ∧
      (r.2.lost b++r.1).Perm (b::pq) := by
  intro r
  by_cases hroom : pq.length < burstPqCap
  · have hr : r = (pq++[b], .admitted) := if_pos hroom
    rw [hr]
    refine ⟨by simp [Outcome.gives], by simpa using Nat.succ_le_of_lt hroom,
      perm_append_singleton b pq⟩
  have hr : r = _ := if_neg hroom
  rw [hr]
  split
  · next old i hfind =>
    refine ⟨by simp [Outcome.gives], by simpa using hlen, ?_⟩
    exact set_perm (find_slot hfind) b
  · split
    · next i old hleast =>
      split
      · refine ⟨by simp [Outcome.gives], by simpa using hlen, ?_⟩
        exact set_perm (Ranking.least_spec hleast).1 b
      · exact ⟨rfl, hlen, .refl _⟩
    · exact ⟨rfl, hlen, .refl _⟩

theorem pqInsertLocked_full (rank : Ranking B) (b : B) (hfull : pq.length = burstPqCap)
    (hfresh : ∀ c ∈ pq, st.lapped head c = false) :
    let r := pqInsertLocked st head rank b pq
    ∃ lost, r.2.lost b = [lost] ∧ ∀ c ∈ r.1, rank.le lost c = true := by
  intro r
  have hnone : (pq.zipIdx.find? fun slot => st.lapped head slot.1) = none := by
    rw [find?_eq_none]
    intro slot hslot
    rw [hfresh slot.1 (fst_mem_of_mem_zipIdx hslot)]
    exact Bool.false_ne_true
  have hne : pq ≠ [] := by
    intro hnil
    rw [hnil] at hfull
    cases hfull
  obtain ⟨i,old,hleast⟩ := Ranking.least_isSome (r := rank) hne
  obtain ⟨hslot,hbelow⟩ := Ranking.least_spec hleast
  have hr : r = if rank.lt old b then (pq.set i b, .replaced old) else (pq, .refused) := by
    simp [r, pqInsertLocked, hfull, hnone, hleast]
  rw [hr]
  split_ifs with hlt
  · refine ⟨old, rfl, fun c hc => ?_⟩
    obtain hc | rfl := mem_or_eq_of_mem_set hc
    · exact hbelow c hc
    · exact Ranking.le_of_lt hlt
  · exact ⟨b, rfl, fun c hc => rank.trans _ _ _ (Ranking.le_of_not_lt hlt) (hbelow c hc)⟩

theorem pqExtractMaxLocked_spec (rank : Ranking B) (hne : pq ≠ []) :
    ∃ b rest, pqExtractMaxLocked rank pq = some (b, rest) ∧ (b::rest).Perm pq ∧
      ∀ c ∈ pq, rank.le c b = true := by
  obtain ⟨i,b,hleast⟩ := Ranking.least_isSome (r := rank.flip) hne
  obtain ⟨hslot,habove⟩ := Ranking.least_spec hleast
  refine ⟨b, removeSlot pq i, ?_, removeSlot_perm hslot, habove⟩
  rw [pqExtractMaxLocked, hleast]
  rfl

end

def System.placed (s : System P B) : Multiset B :=
  s.rejected+s.popped+s.displaced+s.dropped+s.pq

theorem store_frame (s : System P B) (q : List B × Outcome B) (b : B) :
    (s.store q b).pq = q.1 ∧ (s.store q b).items = s.items ∧ (s.store q b).lock = s.lock ∧
    (s.store q b).burstsQueued = s.burstsQueued ∧ (s.store q b).burstsEvicted = s.burstsEvicted ∧
    (s.store q b).burstsDropped = s.burstsDropped ∧ (s.store q b).task = s.task ∧
    (s.store q b).worker = s.worker ∧ (s.store q b).pushed = s.pushed := by
  obtain ⟨pq,r⟩ := q
  cases r <;> exact ⟨rfl, rfl, rfl, rfl, rfl, rfl, rfl, rfl, rfl⟩

theorem length_displaced_store (s : System P B) (q : List B × Outcome B) (b : B) :
    (s.store q b).displaced.length = s.displaced.length+q.2.evicts := by
  obtain ⟨pq,r⟩ := q
  cases r <;> simp [System.store, Outcome.evicts]

theorem length_dropped_store (s : System P B) (q : List B × Outcome B) (b : B) :
    (s.store q b).dropped.length = s.dropped.length+q.2.drops := by
  obtain ⟨pq,r⟩ := q
  cases r <;> simp [System.store, Outcome.drops]

theorem placed_store (s : System P B) (q : List B × Outcome B) (b : B) :
    (s.store q b).placed+s.pq = s.placed+(q.2.lost b++q.1 : List B) := by
  obtain ⟨pq,r⟩ := q
  cases r <;> simp only [System.store, System.placed, Outcome.lost, ← Multiset.coe_add] <;> abel

section
variable [Fintype P]

structure Inv (s : System P B) : Prop where
  bounded : s.pq.length ≤ burstPqCap
  items : s.pq.length = s.items+total (Phase.due Outcome.gives) s.task+s.worker.owes
  mutex : total Phase.holds s.task+s.worker.holds = s.lock.toNat
  queued : s.burstsQueued = UInt32.ofNat s.pushed.length
  evicted : s.burstsEvicted+UInt32.ofNat (total (Phase.due Outcome.evicts) s.task) =
    UInt32.ofNat s.displaced.length
  dropped : s.burstsDropped+UInt32.ofNat (total (Phase.due Outcome.drops) s.task) =
    UInt32.ofNat s.dropped.length
  account : (s.pushed : Multiset B) = total Phase.pending s.task+s.placed
  running : s.worker ≠ .underrun

theorem initial_inv : Inv (initial P B) := by
  have hdue : ∀ w, total (Phase.due w) (initial P B).task = 0 := fun w => total_zero fun _ => rfl
  have hholds : total Phase.holds (initial P B).task = 0 := total_zero fun _ => rfl
  have hpending : total Phase.pending (initial P B).task = 0 := total_zero fun _ => rfl
  refine ⟨Nat.zero_le _, ?_, ?_, rfl, ?_, ?_, ?_, fun h => by cases h⟩
  · rw [hdue]
    rfl
  · rw [hholds]
    rfl
  · rw [hdue]
    rfl
  · rw [hdue]
    rfl
  · rw [hpending]
    rfl

structure Balanced (s s' : System P B) (old new : Phase B) : Prop where
  bounded : s'.pq.length ≤ burstPqCap
  items : s'.pq.length+s.items+old.due Outcome.gives =
    s.pq.length+s'.items+new.due Outcome.gives
  mutex : s'.lock.toNat+old.holds = s.lock.toNat+new.holds
  queued : s'.burstsQueued = UInt32.ofNat s'.pushed.length
  evicted : s'.burstsEvicted+UInt32.ofNat (new.due Outcome.evicts)+
      UInt32.ofNat s.displaced.length =
    s.burstsEvicted+UInt32.ofNat (old.due Outcome.evicts)+UInt32.ofNat s'.displaced.length
  dropped : s'.burstsDropped+UInt32.ofNat (new.due Outcome.drops)+UInt32.ofNat s.dropped.length =
    s.burstsDropped+UInt32.ofNat (old.due Outcome.drops)+UInt32.ofNat s'.dropped.length
  account : (s'.pushed : Multiset B)+old.pending+s.placed = s.pushed+new.pending+s'.placed
  worker : s'.worker = s.worker

theorem counted_move {c c' : UInt32} {n n' e e' d d' : Nat}
    (h : c+UInt32.ofNat e = UInt32.ofNat n)
    (hmove : c'+UInt32.ofNat d'+UInt32.ofNat n = c+UInt32.ofNat d+UInt32.ofNat n')
    (he : e'+d = e+d') : c'+UInt32.ofNat e' = UInt32.ofNat n' := by
  have he := congrArg UInt32.ofNat he
  rw [UInt32.ofNat_add, UInt32.ofNat_add] at he
  grind

variable [DecidableEq P] {s s' : System P B} {p : P} {x : Phase B}

theorem Inv.move (h : Inv s) (htask : s'.task = update s.task p x)
    (hb : Balanced s s' (s.task p) x) : Inv s' := by
  have hdue := fun w => total_update (Phase.due w) s.task p x
  have hholds := total_update Phase.holds s.task p x
  have hpending := total_update Phase.pending s.task p x
  rw [← htask] at hdue hholds hpending
  refine ⟨hb.bounded, ?_, ?_, hb.queued, counted_move h.evicted hb.evicted (hdue _),
    counted_move h.dropped hb.dropped (hdue _), ?_, hb.worker ▸ h.running⟩
  · have hitems := h.items
    have hbal := hb.items
    have hgives := hdue Outcome.gives
    rw [hb.worker]
    omega
  · have hmutex := h.mutex
    have hbal := hb.mutex
    rw [hb.worker]
    omega
  · have hbal := hb.account
    rw [h.account] at hbal
    refine add_right_cancel (b := (s.task p).pending+s.placed) ?_
    calc (s'.pushed : Multiset B)+((s.task p).pending+s.placed)
        = total Phase.pending s.task+s.placed+x.pending+s'.placed := by rw [← hbal, add_assoc]
      _ = (total Phase.pending s.task+x.pending)+s'.placed+s.placed := by abel
      _ = (total Phase.pending s'.task+(s.task p).pending)+s'.placed+s.placed := by rw [hpending]
      _ = total Phase.pending s'.task+s'.placed+((s.task p).pending+s.placed) := by abel

variable {b : B} {r : Outcome B}

theorem Inv.push (h : Inv s) (hp : s.task p = .idle) (b : B) :
    Inv { s.goto p (.counted b) with
      burstsQueued := s.burstsQueued+1, pushed := s.pushed++[b] } := by
  refine h.move (p := p) rfl ?_
  rw [hp]
  refine ⟨h.bounded, rfl, rfl, ?_, rfl, rfl, ?_, rfl⟩
  · rw [h.queued, length_append, UInt32.ofNat_add]
    rfl
  · rw [← Multiset.coe_add]
    exact congrArg (·+s.placed) (add_zero _)

theorem Inv.reject (h : Inv s) (hp : s.task p = .counted b) :
    Inv { s.goto p .idle with rejected := s.rejected++[b] } := by
  refine h.move (p := p) rfl ?_
  rw [hp]
  refine ⟨h.bounded, rfl, rfl, h.queued, rfl, rfl, ?_, rfl⟩
  simp only [System.placed, System.goto, Phase.pending, ← Multiset.coe_add,
    Multiset.coe_singleton]
  abel

theorem Inv.pass (h : Inv s) {y : Phase B} {k : Bool} (hp : s.task p = y)
    (hdue : ∀ w, x.due w = y.due w) (hpending : x.pending = y.pending)
    (hlock : k.toNat+y.holds = s.lock.toNat+x.holds) :
    Inv { s.goto p x with lock := k } := by
  refine h.move (p := p) rfl ?_
  rw [hp]
  refine ⟨h.bounded, ?_, hlock, h.queued, ?_, ?_, ?_, rfl⟩
  · rw [hdue]
    rfl
  · rw [hdue]
    rfl
  · rw [hdue]
    rfl
  · rw [hpending]
    rfl

theorem Inv.insert (h : Inv s) (hp : s.task p = .holding b) (st : Staleness B) (head : UInt64)
    (rank : Ranking B) :
    Inv ((s.store (pqInsertLocked st head rank b s.pq) b).goto p
      (.inserted (pqInsertLocked st head rank b s.pq).2)) := by
  obtain ⟨hlen,hcap,hperm⟩ := pqInsertLocked_spec st head rank b h.bounded
  generalize pqInsertLocked st head rank b s.pq = q at hlen hcap hperm
  obtain ⟨hpq,hitems,hlock,hqueued,hevicted,hdropped,htask,hworker,hpushed⟩ := store_frame s q b
  refine h.move (p := p) (congrArg (update · p _) htask) ?_
  rw [hp]
  refine ⟨?_, ?_, ?_, ?_, ?_, ?_, ?_, hworker⟩
  · exact hpq ▸ hcap
  · simp only [System.goto, hpq, hitems, Phase.due]
    omega
  · simp only [System.goto, hlock, Phase.holds]
  · simp only [System.goto, hqueued, hpushed, h.queued]
  · simp only [System.goto, hevicted, length_displaced_store, Phase.due, UInt32.ofNat_add]
    grind
  · simp only [System.goto, hdropped, length_dropped_store, Phase.due, UInt32.ofNat_add]
    grind
  · have hplaced := placed_store s q b
    rw [Multiset.coe_eq_coe.mpr hperm, ← Multiset.cons_coe, ← Multiset.singleton_add] at hplaced
    refine add_right_cancel (b := (s.pq : Multiset B)) ?_
    simp only [System.goto, hpushed, Phase.pending, add_zero]
    calc (s.pushed : Multiset B)+{b}+s.placed+s.pq
        = s.pushed+(s.placed+({b}+s.pq)) := by abel
      _ = s.pushed+(s.store q b).placed+s.pq := by rw [← hplaced, add_assoc]

theorem Inv.report (h : Inv s) (hp : s.task p = .released r) :
    Inv ((s.account r).goto p .idle) := by
  have hroom : s.items+r.gives ≤ burstPqCap := by
    have hitems := h.items
    have hdue := total_update (Phase.due Outcome.gives) s.task p .idle
    have hbounded := h.bounded
    rw [hp] at hdue
    simp only [Phase.due] at hdue
    omega
  have htask : ((s.account r).goto p .idle).task = update s.task p .idle := by
    cases r <;> rfl
  refine h.move htask ?_
  rw [hp]
  cases r with
  | admitted =>
    refine ⟨h.bounded, ?_, rfl, h.queued, rfl, rfl, rfl, rfl⟩
    simp only [System.goto, System.account, giveItem, Phase.due, Outcome.gives] at hroom ⊢
    rw [if_pos (Nat.lt_of_succ_le hroom)]
    omega
  | replaced old =>
    refine ⟨h.bounded, rfl, rfl, h.queued, ?_, rfl, rfl, rfl⟩
    simp [System.goto, System.account, Phase.due, Outcome.evicts]
  | refused =>
    refine ⟨h.bounded, rfl, rfl, h.queued, rfl, ?_, rfl, rfl⟩
    simp [System.goto, System.account, Phase.due, Outcome.drops]

omit [DecidableEq P] in
theorem Inv.goWorker (h : Inv s) {n : Nat} {k : Bool} {w : Worker B}
    (hitems : n+w.owes = s.items+s.worker.owes)
    (hlock : k.toNat+s.worker.holds = s.lock.toNat+w.holds) (hw : w ≠ .underrun) :
    Inv { s with items := n, lock := k, worker := w } := by
  refine ⟨h.bounded, ?_, ?_, h.queued, h.evicted, h.dropped, h.account, hw⟩
  · have hold := h.items
    dsimp only
    omega
  · have hold := h.mutex
    dsimp only
    omega

omit [DecidableEq P] in
theorem Inv.ne_nil (h : Inv s) (hw : s.worker = .holding) : s.pq ≠ [] := by
  intro hnil
  have hitems := h.items
  rw [hnil, hw] at hitems
  simp [Worker.owes] at hitems

omit [DecidableEq P] in
theorem Inv.extract (h : Inv s) (hw : s.worker = .holding) {rest : List B}
    (hperm : (b::rest).Perm s.pq) :
    Inv { s with pq := rest, worker := .popped b, popped := s.popped++[b] } := by
  have hlen := hperm.length_eq
  rw [length_cons] at hlen
  refine ⟨?_, ?_, ?_, h.queued, h.evicted, h.dropped, ?_, fun hu => by cases hu⟩
  · exact (Nat.le_of_succ_le hlen.le).trans h.bounded
  · have hitems := h.items
    rw [hw] at hitems
    simp only [Worker.owes] at hitems ⊢
    omega
  · have hmutex := h.mutex
    rwa [hw] at hmutex
  · rw [h.account, System.placed, System.placed, ← Multiset.coe_eq_coe.mpr hperm,
      ← Multiset.cons_coe, ← Multiset.singleton_add, ← Multiset.coe_add, Multiset.coe_singleton]
    abel

theorem Inv.locked_by_task (h : Inv s) {p : P} (hp : (s.task p).holds = 1) : s.lock.toNat = 1 := by
  have hmutex := h.mutex
  have hholds := total_update Phase.holds s.task p .idle
  have hle := Bool.toNat_le s.lock
  rw [hp] at hholds
  simp only [Phase.holds] at hholds
  omega

omit [DecidableEq P] in
theorem Inv.locked_by_worker (h : Inv s) (hw : s.worker.holds = 1) : s.lock.toNat = 1 := by
  have hmutex := h.mutex
  have hle := Bool.toNat_le s.lock
  omega

theorem step_inv (st : Staleness B) (h : Inv s) (m : Move P B) : Inv (step st s m) := by
  cases m with
  | push p b =>
    rw [step]
    split
    · next hp => exact h.push hp b
    · exact h
  | check p head =>
    rw [step]
    split
    · next b hp =>
      split
      · exact h.reject hp
      · exact h.pass hp (fun _ => rfl) rfl rfl
    · exact h
  | lock p =>
    rw [step]
    split
    · next b hp =>
      split
      · exact h
      · next hfree => exact h.pass hp (fun _ => rfl) rfl (by simp [hfree, Phase.holds])
    · exact h
  | insert p head rank =>
    rw [step]
    split
    · next b hp => exact h.insert hp st head rank
    · exact h
  | unlock p =>
    rw [step]
    split
    · next r hp =>
      exact h.pass hp (fun _ => rfl) rfl (h.locked_by_task (by rw [hp]; rfl)).symm
    · exact h
  | report p =>
    rw [step]
    split
    · next r hp => exact h.report hp
    · exact h
  | takeItem =>
    rw [step]
    split
    · next hw =>
      split
      · next hpos =>
        refine h.goWorker (k := s.lock) ?_ (by rw [hw]; rfl) fun hu => by cases hu
        rw [hw]
        exact Nat.sub_add_cancel hpos
      · exact h
    · exact h
  | lockWorker =>
    rw [step]
    split
    · next hw =>
      split
      · exact h
      · next hfree =>
        exact h.goWorker (n := s.items) (by rw [hw]; rfl) (by rw [hw]; simp [hfree, Worker.holds])
          fun hu => by cases hu
    · exact h
  | extract rank =>
    rw [step]
    split
    · next hw =>
      obtain ⟨b,rest,hextract,hperm,-⟩ := pqExtractMaxLocked_spec rank (h.ne_nil hw)
      rw [hextract]
      exact h.extract hw hperm
    · exact h
  | unlockWorker =>
    rw [step]
    split
    · next b hw =>
      have hlock := h.locked_by_worker (by rw [hw]; rfl)
      exact h.goWorker (n := s.items) (by rw [hw]; rfl) (by rw [hw]; exact hlock.symm)
        fun hu => by cases hu
    · exact h

theorem run_inv (st : Staleness B) (moves : List (Move P B)) : Inv (run st moves) :=
  List.foldlRecOn moves _ initial_inv fun _ h m _ => step_inv st h m

def System.Quiescent (s : System P B) : Prop := (∀ p, s.task p = .idle) ∧ s.worker = .idle

structure QueueOk (st : Staleness B) (s : System P B) : Prop where
  account : s.Quiescent →
    (s.pushed : Multiset B) = s.rejected+s.popped+s.displaced+s.dropped+s.pq
  counters : s.Quiescent →
    s.burstsQueued = UInt32.ofNat s.pushed.length ∧
    s.burstsEvicted = UInt32.ofNat s.displaced.length ∧
    s.burstsDropped = UInt32.ofNat s.dropped.length
  bounded : s.pq.length ≤ burstPqCap
  nonempty : s.worker = .holding → s.pq ≠ []
  items : s.items+total (Phase.due Outcome.gives) s.task+s.worker.owes = s.pq.length
  pops : s.worker = .holding → ∀ rank, ∃ b, (step st s (.extract rank)).worker = .popped b ∧
    b ∈ s.pq ∧ ∀ c ∈ s.pq, rank.le c b = true
  keeps : ∀ p b, s.task p = .holding b → ∀ head rank, s.pq.length = burstPqCap →
    (∀ c ∈ s.pq, st.lapped head c = false) →
    (step st s (.insert p head rank)).pq.length = burstPqCap ∧
    ∃ lost, (lost::(step st s (.insert p head rank)).pq).Perm (b::s.pq) ∧
      ∀ c ∈ (step st s (.insert p head rank)).pq, rank.le lost c = true

/-- Nothing is lost, doubled or miscounted under any interleaving, and both sides order by rank. -/
theorem burst_queue_exact (st : Staleness B) (moves : List (Move P B)) :
    QueueOk st (run st moves) := by
  have h := run_inv st moves
  generalize run st moves = s at h
  refine ⟨fun hq => ?_, fun hq => ?_, h.bounded, h.ne_nil, h.items.symm, fun hw rank => ?_,
    fun p b hp head rank hfull hfresh => ?_⟩
  · have hpending : total Phase.pending s.task = 0 := total_zero fun p => by rw [hq.1 p]; rfl
    rw [h.account, hpending, zero_add, System.placed]
  · have hdue : ∀ w, total (Phase.due w) s.task = 0 := fun w =>
      total_zero fun p => by rw [hq.1 p]; rfl
    have hevicted := h.evicted
    have hdropped := h.dropped
    rw [hdue] at hevicted hdropped
    exact ⟨h.queued, by simpa using hevicted, by simpa using hdropped⟩
  · obtain ⟨b,rest,hextract,hperm,habove⟩ := pqExtractMaxLocked_spec rank (h.ne_nil hw)
    refine ⟨b, ?_, hperm.subset mem_cons_self, habove⟩
    simp only [step, hw, hextract]
  · obtain ⟨hlen,hcap,hperm⟩ := pqInsertLocked_spec st head rank b h.bounded
    obtain ⟨lost,hlost,hbelow⟩ := pqInsertLocked_full rank b hfull hfresh
    have hpq : (step st s (.insert p head rank)).pq = (pqInsertLocked st head rank b s.pq).1 := by
      simp only [step, hp]
      exact (store_frame s _ b).1
    rw [hlost] at hperm
    rw [hpq]
    exact ⟨by omega, lost, hperm, hbelow⟩

end

end IridiumAcars.BurstQueue
