import IridiumAcars.WorkerExtract
import IridiumAcars.Lib.Runs

/-! A burst handed to the decoder is untorn when its copies are in and no push reaches it. -/
namespace IridiumAcars.WorkerExtract
open RingBuffer SignalBuffer List

variable {s : System} {stream : List Cell}

theorem extractSample_eq (b : Buffer) (extStart : UInt32) (j : Nat) :
    extractSample b extStart j = widenCell (b.ring ((extStart.toNat+j)%2^23)) := by
  have hactual : ((extStart+UInt32.ofNat (j/decimChunkIn*decimChunkIn))%
      signalBufCapacityComplex).toNat = (extStart.toNat+j/4000*4000)%2^23 := by
    rw [UInt32.toNat_mod, toNat_capacity, UInt32.toNat_add, UInt32.toNat_ofNat', decimChunkIn]
    omega
  have hcell : chunkCell ((extStart.toNat+j/4000*4000)%2^23) (j-j/4000*4000) =
      (extStart.toNat+j)%2^23 := by
    rw [chunkCell, toNat_capacity]
    split_ifs with hfit
    · omega
    · omega
  rw [extractSample]
  simp only [hactual]
  rw [decimChunkIn, hcell]

/-- The burst is one the 64-bit and 32-bit index arithmetic of the worker does not wrap on. -/
structure DetectedBurst.InRange (d : DetectedBurst) : Prop where
  prePad : wbPrePadSamples.toNat ≤ d.startSampleIdx.toNat
  stop : d.startSampleIdx.toNat+d.lengthSamples.toNat < 2^64
  length : d.lengthSamples.toNat+wbPrePadSamples.toNat < 2^32

section
variable {d : DetectedBurst}

theorem toNat_prePad : wbPrePadSamples.toNat = 288 := rfl

theorem DetectedBurst.InRange.toNat_checkLen (h : d.InRange) :
    d.checkLen.toNat = d.lengthSamples.toNat+288 := by
  have hl := h.length
  rw [toNat_prePad] at hl
  rw [checkLen, UInt32.toNat_add, toNat_prePad]
  omega

theorem DetectedBurst.InRange.toNat_checkStart (h : d.InRange) :
    d.checkStart.toNat = d.startSampleIdx.toNat-288 := by
  have hp := h.prePad
  rw [toNat_prePad] at hp
  rw [checkStart, UInt64.toNat_sub_of_le]
  · rfl
  · rwa [UInt64.le_iff_toNat_le]

theorem DetectedBurst.InRange.extLen_le (h : d.InRange) : d.extLen.toNat ≤ d.checkLen.toNat := by
  rw [h.toNat_checkLen, extLen]
  generalize hs : (if wbMaxBurstSamples < d.lengthSamples then wbMaxBurstSamples
    else d.lengthSamples) = safeLen
  have hsafe : safeLen.toNat ≤ d.lengthSamples.toNat ∧ safeLen.toNat ≤ 625000 := by
    have hmax : wbMaxBurstSamples.toNat = 625000 := rfl
    by_cases hlong : wbMaxBurstSamples < d.lengthSamples
    · have := UInt32.lt_iff_toNat_lt.mp hlong
      rw [if_pos hlong] at hs
      rw [← hs]
      omega
    · have := mt UInt32.lt_iff_toNat_lt.mpr hlong
      rw [if_neg hlong] at hs
      rw [← hs]
      omega
  have hround : (safeLen-safeLen%80+wbPrePadSamples).toNat =
      safeLen.toNat-safeLen.toNat%80+288 := by
    have hle : safeLen%80 ≤ safeLen := by
      rw [UInt32.le_iff_toNat_le, UInt32.toNat_mod]
      exact Nat.mod_le _ _
    rw [UInt32.toNat_add, UInt32.toNat_sub_of_le _ _ hle, UInt32.toNat_mod, toNat_prePad,
      show (80 : UInt32).toNat = 80 from rfl]
    omega
  by_cases hmax : wbExtractMax < safeLen-safeLen%80+wbPrePadSamples
  · have := UInt32.lt_iff_toNat_lt.mp hmax
    rw [if_pos hmax]
    omega
  · rw [if_neg hmax]
    omega

theorem DetectedBurst.InRange.bounds (h : d.InRange) {b : Buffer} {m : Nat}
    (htotal : b.headTotal = UInt64.ofNat m) (hm : m < 2^64) (hvalid : d.valid b = true) :
    d.checkStart.toNat+d.extLen.toNat ≤ m ∧ m ≤ d.checkStart.toNat+2^23 := by
  have hstop := h.stop
  have hpad := h.prePad
  have hstart := h.toNat_checkStart
  have hcl := h.toNat_checkLen
  have hel := h.extLen_le
  rw [toNat_prePad] at hpad
  obtain ⟨_,hend,hage⟩ := burstValid_bounds htotal hm (by omega) hvalid
  exact ⟨by omega, hage⟩

end

def DetectedBurst.window (d : DetectedBurst) (stream : List Sample) : List (Int16 × Int16) :=
  ((stream.drop d.checkStart.toNat).take d.extLen.toNat).map Sample.value

def Agrees (stream : List Sample) (reach : Nat) (d : DetectedBurst)
    (xs : List (Int16 × Int16)) : Prop :=
  ∀ j v, reach ≤ d.checkStart.toNat+j+2^23 → xs[j]? = some v →
    (stream[d.checkStart.toNat+j]?).map Sample.value = some v

def WorkerOk (stream : List Sample) (m reach : Nat) : Worker → Prop
  | .idle => True
  | .check d => d.InRange
  | .read d xs => d.InRange ∧ d.checkStart.toNat+d.extLen.toNat ≤ m ∧
      xs.length ≤ d.extLen.toNat ∧ Agrees stream reach d xs
  | .recheck d xs => d.InRange ∧ d.checkStart.toNat+d.extLen.toNat ≤ m ∧
      xs.length = d.extLen.toNat ∧ Agrees stream reach d xs

/-- Everything before `pos` has landed, and the copies under way bring the rest up to `stop`. -/
structure Landed (b : Buffer) (stream : List Cell) (stop pos : Nat) : Prop where
  holds : Holds (2^23) b.ring stream (stop-2^23) pos
  blocks : Blocks (2^23) stream pos b.inFlight
  length : pos+blocksLength b.inFlight = stop

def ProducerOk (b : Buffer) (stream : List Cell) (m a pos : Nat) : Producer → Prop
  | .idle => a = 0 ∧ Indexed b stream m
  | .copying p alignedCount newCarry =>
    alignedCount = a ∧ m ≤ pos ∧ Planned b stream m p a newCarry

def Right (stream : List Sample) (e : DetectedBurst × List (Int16 × Int16)) : Prop :=
  e.1.checkStart.toNat+e.1.extLen.toNat ≤ stream.length ∧ e.2 = e.1.window stream

structure Inv (s : System) (m a pos : Nat) : Prop where
  producer : ProducerOk s.buf (s.stream.map Sample.cell) m a pos s.producer
  landed : Landed s.buf (s.stream.map Sample.cell) (m+a) pos
  worker : WorkerOk s.stream m (m+a) s.worker
  delivered : ∀ e ∈ s.delivered, Right s.stream e

section
variable {b : Buffer} {m a pos : Nat} {p : Producer}

theorem ProducerOk.le (h : ProducerOk b stream m a pos p) : m ≤ stream.length := by
  cases p with
  | idle => exact h.2.le
  | copying p k r => exact (Nat.le_add_right _ _).trans h.2.2.le

theorem ProducerOk.headTotal (h : ProducerOk b stream m a pos p) :
    b.headTotal = UInt64.ofNat m := by
  cases p with
  | idle => exact h.2.headTotal
  | copying p k r => exact h.2.2.headTotal

theorem Landed.settled {stop : Nat} (h : Landed b stream stop pos) :
    Holds (2^23) b.settle.ring stream (stop-2^23) stop := by
  have hlen := h.length
  have hall := h.holds.writeBlocks h.blocks (by omega)
  rwa [hlen] at hall

theorem Agrees.mono {stream : List Sample} {reach reach' : Nat} {d : DetectedBurst}
    {xs : List (Int16 × Int16)} (h : Agrees stream reach d xs) (hr : reach ≤ reach')
    (ys : List Sample) : Agrees (stream++ys) reach' d xs := by
  intro j v hreach hget
  have hold := h j v (hr.trans hreach) hget
  obtain ⟨x,hx,_⟩ := Option.map_eq_some_iff.mp hold
  rwa [List.getElem?_append_left (List.getElem?_eq_some_iff.mp hx).1]

theorem WorkerOk.mono {stream : List Sample} {m' reach reach' : Nat} {w : Worker}
    (h : WorkerOk stream m reach w) (hm : m ≤ m') (hr : reach ≤ reach') (ys : List Sample) :
    WorkerOk (stream++ys) m' reach' w := by
  cases w with
  | idle => trivial
  | check d => exact h
  | read d xs | recheck d xs => exact ⟨h.1, h.2.1.trans hm, h.2.2.1, h.2.2.2.mono hr ys⟩

theorem Right.mono {stream : List Sample} {e : DetectedBurst × List (Int16 × Int16)}
    (h : Right stream e) (ys : List Sample) : Right (stream++ys) e := by
  obtain ⟨hlen,heq⟩ := h
  refine ⟨?_, ?_⟩
  · rw [length_append]
    omega
  · rw [heq, DetectedBurst.window, DetectedBurst.window, drop_append_of_le_length (by omega),
      take_append_of_le_length]
    rw [length_drop]
    omega

end

def Producer.count : Producer → Nat
  | .idle => 0
  | .copying _ alignedCount _ => alignedCount

/-- Samples of a published push that have not landed. -/
def System.unlanded (s : System) : Nat :=
  match s.producer with
  | .idle => blocksLength s.buf.inFlight
  | .copying _ _ _ => 0

/-- No published sample is read before it has landed, and where a re-check finds the window not yet
lapped, the push under way does not lap it either. -/
def Apart (s : System) : Prop :=
  match s.worker with
  | .read d xs =>
    d.checkStart.toNat+xs.length < s.buf.headTotal.toNat →
      d.checkStart.toNat+xs.length+s.unlanded < s.buf.headTotal.toNat
  | .recheck d _ =>
    s.buf.headTotal.toNat ≤ d.checkStart.toNat+signalBufCapacityComplex.toNat →
      s.buf.headTotal.toNat+s.producer.count ≤
        d.checkStart.toNat+signalBufCapacityComplex.toNat
  | .idle | .check _ => True

/-- Chunks fit the scratch, no second submit fails and indices do not wrap. -/
def Meets (s : System) : Action → Prop
  | .push p => p.samples.length ≤ pushMax ∧ p.submitRest = true
  | .burst d => d.InRange
  | .worker => s.stream.length < 2^64 ∧ Apart s
  | _ => True

section
variable {m a pos : Nat}

theorem Inv.toNat_headTotal (h : Inv s m a pos) (hlen : s.stream.length < 2^64) :
    s.buf.headTotal.toNat = m := by
  have hle := h.producer.le
  rw [length_map] at hle
  rw [h.producer.headTotal]
  exact UInt64.toNat_ofNat_of_lt' (Nat.lt_of_le_of_lt hle hlen)

theorem Inv.count_eq (h : Inv s m a pos) : s.producer.count = a := by
  have hp := h.producer
  cases hs : s.producer with
  | idle =>
    rw [hs] at hp
    exact hp.1.symm
  | copying p k r =>
    rw [hs] at hp
    exact hp.1

theorem Inv.lt_pos (h : Inv s m a pos) {k : Nat} (hk : k+s.unlanded < m) : k < pos := by
  have hp := h.producer
  have hlen := h.landed.length
  cases hs : s.producer with
  | idle =>
    rw [hs] at hp
    rw [System.unlanded, hs] at hk
    have := hp.1
    simp only at hk
    omega
  | copying p c r =>
    rw [hs] at hp
    exact (Nat.le_add_right _ _).trans_lt (hk.trans_le hp.2.1)

theorem Inv.extract (h : Inv s m a pos) {d : DetectedBurst} {j : Nat}
    (hin : d.checkStart.toNat+j < pos) (hreach : m+a ≤ d.checkStart.toNat+j+2^23) :
    (s.stream[d.checkStart.toNat+j]?).map Sample.value =
      some (extractSample s.buf d.extStart j) := by
  have hcell := h.landed.holds (d.checkStart.toNat+j) (by omega) hin
  rw [getElem?_map] at hcell
  obtain ⟨x,hx,hxc⟩ := Option.map_eq_some_iff.mp hcell
  have hring : (d.extStart.toNat+j)%2^23 = (d.checkStart.toNat+j)%2^23 := by
    rw [DetectedBurst.extStart, UInt64.toNat_toUInt32]
    omega
  rw [hx, Option.map_some, extractSample_eq, hring, ← hxc, widenCell_cell]

theorem push_inv (h : Inv s m a pos) {p : Push} (hp : Meets s (.push p)) :
    ∃ m' a' pos', Inv (step s (.push p)) m' a' pos' := by
  obtain ⟨hprod,hland,hwork,hdel⟩ := h
  cases hs : s.producer with
  | copying q k r =>
    simp only [step, hs]
    exact ⟨m, a, pos, hprod, hland, hwork, hdel⟩
  | idle =>
    rw [hs] at hprod
    obtain ⟨rfl,hix⟩ := hprod
    simp only [step, hs]
    by_cases hsmall : s.buf.carry.length+p.samples.length < alignComplex
    · rw [if_pos hsmall]
      refine ⟨m, 0, pos, ⟨rfl, ?_⟩, ⟨?_, ?_, hland.length⟩, hwork.mono le_rfl le_rfl _,
        fun e he => (hdel e he).mono _⟩
      · rw [map_append]
        exact hix.defer (by rwa [length_map])
      · rw [map_append]
        exact hland.holds.append _
      · rw [map_append]
        exact hland.blocks.append _
    · rw [if_neg hsmall]
      cases hf : s.buf.inFlight with
      | cons c cs =>
        simp only
        exact ⟨m, 0, pos, by rw [hs]; exact ⟨rfl, hix⟩, hland, hwork, hdel⟩
      | nil =>
        have hpos := hland.length
        rw [hf] at hpos
        have hpos : pos = m := hpos
        subst hpos
        generalize hplan : pushPlan s.buf.carry.length p.samples.length = plan
        obtain ⟨k,r⟩ := plan
        obtain ⟨hpl,hblocks,hcount⟩ := hix.plan hp.1 hsmall hplan
        rw [← map_append] at hpl hblocks
        simp only [hp.2, Bool.not_true, Bool.and_false, Bool.false_eq_true, if_false]
        refine ⟨pos, k, pos, ⟨rfl, le_rfl, ?_⟩, ⟨?_, hblocks, by rw [hcount]⟩,
          hwork.mono le_rfl (by omega) _, fun e he => (hdel e he).mono _⟩
        · exact ⟨hpl.head, hpl.headTotal, hpl.small, hpl.le, hpl.short, hpl.carry⟩
        · rw [map_append]
          exact (hland.holds.append _).mono (by omega) le_rfl

theorem land_inv (h : Inv s m a pos) (k : Nat) : ∃ pos', Inv (step s (.land k)) m a pos' := by
  obtain ⟨hprod,hland,hwork,hdel⟩ := h
  have hlen := hland.length
  obtain ⟨pos',hle,hheld,hblocks,hcount⟩ := hland.holds.land hland.blocks (by omega) k
  have hland' : Landed (step s (.land k)).buf (s.stream.map Sample.cell) (m+a) pos' :=
    ⟨hheld, hblocks, hcount.trans hlen⟩
  refine ⟨pos', ?_, hland', hwork, hdel⟩
  change ProducerOk _ _ m a pos' s.producer
  cases hs : s.producer with
  | idle =>
    rw [hs] at hprod
    obtain ⟨rfl,hix⟩ := hprod
    exact ⟨rfl, hix.le, hix.short, hix.carry, hix.head, hix.headTotal, hland'.settled⟩
  | copying p k' r =>
    rw [hs] at hprod
    obtain ⟨ha,hpos,hpl⟩ := hprod
    exact ⟨ha, hpos.trans hle, hpl.head, hpl.headTotal, hpl.small, hpl.le, hpl.short, hpl.carry⟩

theorem publish_inv (h : Inv s m a pos) : ∃ m' a', Inv (step s .publish) m' a' pos := by
  obtain ⟨hprod,hland,hwork,hdel⟩ := h
  cases hs : s.producer with
  | idle =>
    simp only [step, hs]
    exact ⟨m, a, hprod, hland, hwork, hdel⟩
  | copying p k r =>
    simp only [step, hs]
    split_ifs with hdone
    · rw [hs] at hprod
      obtain ⟨rfl,hpos,hpl⟩ := hprod
      refine ⟨m+k, 0, ⟨rfl, hpl.publish hland.settled⟩, ⟨hland.holds, hland.blocks, hland.length⟩,
        ?_, hdel⟩
      have hgrow := hwork.mono (Nat.le_add_right m k) le_rfl []
      rwa [append_nil] at hgrow
    · exact ⟨m, a, hprod, hland, hwork, hdel⟩

theorem worker_inv (h : Inv s m a pos) (hmeets : Meets s .worker) :
    Inv (workerStep s) m a pos := by
  obtain ⟨hlen,hapart⟩ := hmeets
  have htotal := h.toNat_headTotal hlen
  have keep {w : Worker} (hw : WorkerOk s.stream m (m+a) w) : Inv { s with worker := w } m a pos :=
    ⟨h.producer, h.landed, hw, h.delivered⟩
  have hwork := h.worker
  have hle : m ≤ s.stream.length := by
    have := h.producer.le
    rwa [length_map] at this
  cases hw : s.worker with
  | idle => simpa only [workerStep, hw] using h
  | check d =>
    rw [hw] at hwork
    simp only [workerStep, hw]
    split_ifs with hskip
    · exact keep trivial
    · have hend := (hwork.bounds h.producer.headTotal (by omega)
        (Bool.of_not_eq_false (not_or.mp hskip).2)).1
      refine keep ⟨hwork, hend, Nat.zero_le _, ?_⟩
      intro j v _ hget
      cases hget
  | read d xs =>
    rw [hw] at hwork
    obtain ⟨hd,hend,hxs,hag⟩ := hwork
    rw [Apart, hw] at hapart
    simp only [htotal] at hapart
    simp only [workerStep, hw]
    split_ifs with hmore
    · refine keep ⟨hd, hend, by rw [length_append, length_singleton]; exact hmore, ?_⟩
      intro j v hreach hget
      obtain ⟨_,hold⟩ | ⟨rfl,rfl⟩ := Runs.getElem?_snoc_cases _ _ _ _ hget
      · exact hag j v hreach hold
      · exact h.extract (h.lt_pos (hapart (by omega))) hreach
    · exact keep ⟨hd, hend, by omega, hag⟩
  | recheck d xs =>
    rw [hw] at hwork
    obtain ⟨hd,hend,hxs,hag⟩ := hwork
    rw [Apart, hw] at hapart
    simp only [htotal, h.count_eq, toNat_capacity] at hapart
    simp only [workerStep, hw]
    split_ifs with hvalid
    · have hroom := hapart (hd.bounds h.producer.headTotal (by omega) hvalid).2
      refine ⟨h.producer, h.landed, trivial, ?_⟩
      intro e he
      rcases mem_append.mp he with he | he
      · exact h.delivered e he
      · cases mem_singleton.mp he
        refine ⟨hend.trans hle, ?_⟩
        apply ext_getElem?
        intro j
        change xs[j]? = _
        rw [DetectedBurst.window, getElem?_map]
        by_cases hj : j < d.extLen.toNat
        · obtain ⟨v,hv⟩ : ∃ v, xs[j]? = some v := ⟨_, getElem?_eq_getElem (by omega)⟩
          rw [getElem?_take_of_lt hj, getElem?_drop, hv, hag j v (by omega) hv]
        · rw [getElem?_eq_none (by omega), getElem?_eq_none (by simp; omega)]
          rfl
    · exact keep trivial

theorem step_inv (h : Inv s m a pos) {act : Action} (hmeets : Meets s act) :
    ∃ m' a' pos', Inv (step s act) m' a' pos' := by
  cases act with
  | push p => exact push_inv h hmeets
  | land k => exact ⟨m, a, land_inv h k⟩
  | publish =>
    obtain ⟨m',a',h'⟩ := publish_inv h
    exact ⟨m', a', pos, h'⟩
  | burst d =>
    refine ⟨m, a, pos, ?_⟩
    cases hw : s.worker with
    | idle =>
      simp only [step, hw]
      exact ⟨h.producer, h.landed, hmeets, h.delivered⟩
    | _ => simpa only [step, hw] using h
  | worker => exact ⟨m, a, pos, worker_inv h hmeets⟩

end

def Kept (s : System) : List Action → Prop
  | [] => True
  | act::acts => Meets s act ∧ Kept (step s act) acts

theorem foldl_inv {m a pos : Nat} (h : Inv s m a pos) {acts : List Action} (hkept : Kept s acts) :
    ∃ m' a' pos', Inv (acts.foldl step s) m' a' pos' := by
  induction acts generalizing s m a pos with
  | nil => exact ⟨m, a, pos, h⟩
  | cons act acts ih =>
    obtain ⟨m',a',pos',h'⟩ := step_inv h hkept.1
    exact ih h' hkept.2

theorem initial_inv : Inv initial 0 0 0 where
  producer := ⟨rfl, Nat.zero_le _, by decide, rfl, rfl, rfl, Holds.empty (Nat.zero_le _)⟩
  landed := ⟨Holds.empty (Nat.zero_le _), trivial, rfl⟩
  worker := trivial
  delivered := by simp [initial]

theorem no_torn_burst (acts : List Action) (hkept : Kept initial acts) :
    ∀ e ∈ (run acts).delivered,
      e.1.checkStart.toNat+e.1.extLen.toNat ≤ (run acts).stream.length ∧
        e.2 = e.1.window (run acts).stream := by
  obtain ⟨m,a,pos,h⟩ := foldl_inv initial_inv hkept
  exact h.delivered

theorem run_append (xs ys : List Action) : run (xs++ys) = ys.foldl step (run xs) :=
  foldl_append

def deliverActions (d : DetectedBurst) : List Action :=
  .burst d::List.replicate (d.extLen.toNat+3) .worker

variable {n : Nat}

section
variable {s : System} {d : DetectedBurst}

theorem read_run (hw : s.worker = .read d []) (hn : n ≤ d.extLen.toNat) :
    (List.replicate n Action.worker).foldl step s =
      { s with worker := .read d ((List.range n).map (extractSample s.buf d.extStart)) } := by
  induction n with
  | zero =>
    rw [range_zero, map_nil, ← hw]
    rfl
  | succ n ih =>
    have hlen : ((List.range n).map (extractSample s.buf d.extStart)).length = n := by simp
    rw [replicate_succ', foldl_append, ih (by omega), foldl_cons, foldl_nil,
      step, workerStep]
    simp only [hlen, if_pos (Nat.lt_of_succ_le hn)]
    rw [range_succ, map_append, map_singleton]

theorem deliver_run (hw : s.worker = .idle) (hlong : ¬d.lengthSamples < 128)
    (hvalid : d.valid s.buf = true) :
    (deliverActions d).foldl step s =
      { s with
        worker := .idle
        delivered := s.delivered++
          [(d, (List.range d.extLen.toNat).map (extractSample s.buf d.extStart))] } := by
  have hcheck : ¬(d.lengthSamples < 128 ∨ d.valid s.buf = false) := by
    rw [hvalid]
    simpa using hlong
  have hfirst : step (step s (.burst d)) .worker = { s with worker := .read d [] } := by
    simp only [step, hw, workerStep, if_neg hcheck]
  have hsplit : List.replicate (d.extLen.toNat+3) Action.worker =
      .worker::(List.replicate d.extLen.toNat .worker++[.worker, .worker]) := by
    rw [replicate_succ, replicate_add]
    rfl
  rw [deliverActions, hsplit, foldl_cons, foldl_cons, hfirst, foldl_append,
    read_run rfl le_rfl]
  simp [step, workerStep, hvalid]

end

def chunkOf (x : Sample) (n : Nat) : Push := ⟨List.replicate n x, true, true⟩

variable {x : Sample}

theorem push_chunk (hidle : s.producer = .idle) (hcarry : s.buf.carry = [])
    (hfly : s.buf.inFlight = []) (hn : n/32*32 = n) (hpos : 0 < n) (hmax : n ≤ pushMax)
    (hfit : s.buf.head.toNat+n ≤ 2^23) :
    step s (.push (chunkOf x n)) =
      { s with
        buf := { s.buf with inFlight := [(s.buf.head.toNat, List.replicate n x.cell)] }
        producer := .copying (chunkOf x n) n 0
        stream := s.stream++List.replicate n x } := by
  have hlen : (chunkOf x n).samples.length = n := length_replicate
  have hplan : pushPlan 0 n = (n, 0) := by
    rw [pushPlan_eq (by decide) hmax]
    exact Prod.ext (by omega) (by omega)
  have hscr : s.buf.scratch (chunkOf x n) n = List.replicate n x.cell := by
    rw [Buffer.scratch, hcarry, chunkOf, take_of_length_le (by simp), map_replicate]
    rfl
  have hcopies : s.buf.copies (s.buf.scratch (chunkOf x n) n) =
      [(s.buf.head.toNat, List.replicate n x.cell)] := by
    rw [hscr, Buffer.copies, splitBlocks, toNat_capacity, length_replicate,
      if_pos (by omega)]
  simp only [step, hidle, hcarry, hfly, length_nil, hlen, hplan, hcopies]
  rw [if_neg (by rw [alignComplex]; omega)]
  rfl

def fillActions (x : Sample) (n : Nat) : List Action :=
  (List.replicate n [Action.push (chunkOf x 8192), .publish, .land 8192]).flatten

structure Filled (s : System) (x : Sample) (n : Nat) : Prop where
  producer : s.producer = .idle
  worker : s.worker = .idle
  delivered : s.delivered = []
  carry : s.buf.carry = []
  inFlight : s.buf.inFlight = []
  head : s.buf.head.toNat = 8192*n%2^23
  headTotal : s.buf.headTotal = UInt64.ofNat (8192*n)
  stream : s.stream = List.replicate (8192*n) x

theorem fill_step (h : Filled s x n) :
    Filled ([Action.push (chunkOf x 8192), .publish, .land 8192].foldl step s) x (n+1) := by
  have hhead := h.head
  have hpush := push_chunk (x := x) h.producer h.carry h.inFlight (n := 8192) (by decide)
    (by decide) (by decide) (by omega)
  simp only [foldl_cons, foldl_nil, hpush]
  simp only [step, chunkOf, Bool.true_or, if_true, Buffer.publish, landRest, length_replicate,
    le_refl]
  refine ⟨rfl, h.worker, h.delivered, ?_, rfl, ?_, ?_, ?_⟩
  · rw [Nat.sub_zero, drop_of_length_le (by rw [length_replicate]), map_nil]
  · have hnext := toNat_nextHead (a := 8192) h.head (by decide)
    rwa [Nat.mul_add, Nat.mul_one]
  · rw [Nat.mul_add, Nat.mul_one, UInt64.ofNat_add, ← h.headTotal]
  · rw [Nat.mul_add, Nat.mul_one, replicate_add, ← h.stream]

theorem fill_run (x : Sample) (n : Nat) : Filled (run (fillActions x n)) x n := by
  induction n with
  | zero => exact ⟨rfl, rfl, rfl, rfl, rfl, rfl, rfl, rfl⟩
  | succ n ih =>
    have h := fill_step ih
    rwa [fillActions, replicate_succ', flatten_append, flatten_singleton, run_append]

def earlyBurst : DetectedBurst := ⟨288, 128⟩

def loudSample : Sample := ⟨256, 256, rfl, rfl⟩

/-- The worker takes the first burst while a push has written one cell and not published. -/
def overtakeActions (y : Sample) : List Action :=
  [.push (chunkOf y 32), .land 1]++deliverActions earlyBurst

theorem overtake_step (h : Filled s x n) (y : Sample) :
    let s' := [Action.push (chunkOf y 32), .land 1].foldl step s
    s'.buf.ring (8192*n%2^23) = y.cell ∧ s'.buf.headTotal = s.buf.headTotal ∧
      s'.unlanded = 0 ∧ s'.producer.count = 32 ∧ s'.worker = .idle ∧ s'.delivered = [] ∧
      s'.stream = s.stream++List.replicate 32 y := by
  have hhead := h.head
  have hpush := push_chunk (x := y) h.producer h.carry h.inFlight (n := 32) (by decide) (by decide)
    (by decide) (by omega)
  simp only [foldl_cons, foldl_nil, hpush]
  refine ⟨?_, rfl, rfl, rfl, h.worker, h.delivered, rfl⟩
  rw [← hhead]
  exact (Option.some.inj (blit_inside s.buf.ring s.buf.head.toNat [y.cell] Nat.one_pos)).symm

theorem workerStep_frame (s : System) :
    (workerStep s).buf = s.buf ∧ (workerStep s).producer = s.producer ∧
      (workerStep s).stream = s.stream := by
  cases hw : s.worker with
  | idle => simp only [workerStep, hw, and_self]
  | check d | read d xs | recheck d xs =>
    simp only [workerStep, hw]; split <;> exact ⟨rfl, rfl, rfl⟩

theorem kept_workers (hlen : s.stream.length < 2^64) (hland : s.unlanded = 0)
    (hlap : s.buf.headTotal.toNat+s.producer.count ≤ 2^23) (n : Nat) :
    Kept s (List.replicate n .worker) := by
  induction n generalizing s with
  | zero => trivial
  | succ n ih =>
    obtain ⟨hbuf,hprod,hstream⟩ := workerStep_frame s
    refine ⟨⟨hlen, ?_⟩, ih ?_ ?_ ?_⟩
    · rw [Apart, hland, toNat_capacity]
      split
      · exact id
      · exact fun _ => hlap.trans (Nat.le_add_left _ _)
      all_goals trivial
    · exact (congrArg List.length hstream).trans_lt hlen
    · rwa [step, System.unlanded, hbuf, hprod]
    · rwa [step, hbuf, hprod]

theorem kept_append {xs ys : List Action} (hx : Kept s xs) (hy : Kept (xs.foldl step s) ys) :
    Kept s (xs++ys) := by
  induction xs generalizing s with
  | nil => exact hy
  | cons x xs ih => exact ⟨hx.1, ih hx.2 hy⟩

theorem meets_chunk (x : Sample) (s : System) (hn : n ≤ pushMax) :
    Meets s (.push (chunkOf x n)) :=
  ⟨by rw [chunkOf, length_replicate]; exact hn, rfl⟩

theorem overtake_delivers (h : Filled s x n) (y : Sample)
    (hvalid : earlyBurst.valid s.buf = true) :
    let s' := [Action.push (chunkOf y 32), .land 1].foldl step s
    ((overtakeActions y).foldl step s).delivered =
        [(earlyBurst, (List.range 368).map (extractSample s'.buf earlyBurst.extStart))] ∧
      ((overtakeActions y).foldl step s).stream = s.stream++List.replicate 32 y := by
  obtain ⟨-,htotal,-,-,hidle,hdel,hstream⟩ := overtake_step h y
  rw [overtakeActions, foldl_append]
  generalize [Action.push (chunkOf y 32), .land 1].foldl step s = s' at *
  have hvalid' : earlyBurst.valid s'.buf = true := by
    rwa [DetectedBurst.valid, signalBufferBurstValid, htotal]
  rw [deliver_run hidle (by decide) hvalid', hdel, hstream]
  exact ⟨rfl, rfl⟩

theorem no_torn_burst_overtaken :
    ∃ e ∈ (run (fillActions loudSample 1++overtakeActions zeroSample)).delivered,
      e.2 = e.1.window (run (fillActions loudSample 1++overtakeActions zeroSample)).stream := by
  have hfill := fill_run loudSample 1
  have hvalid : earlyBurst.valid (run (fillActions loudSample 1)).buf = true := by
    rw [DetectedBurst.valid, signalBufferBurstValid, hfill.headTotal]
    decide
  have hkept : Kept initial (fillActions loudSample 1++overtakeActions zeroSample) := by
    refine kept_append ⟨meets_chunk _ _ (by decide), trivial, trivial, trivial⟩ ?_
    refine kept_append ⟨meets_chunk _ _ (by decide), trivial, trivial⟩
      ⟨⟨by decide, by decide, by decide⟩, ?_⟩
    obtain ⟨-,htotal,hland,hcount,hidle,-,hstream⟩ := overtake_step hfill zeroSample
    rw [hfill.headTotal] at htotal
    rw [hfill.stream] at hstream
    change Kept (step ([Action.push (chunkOf zeroSample 32), .land 1].foldl step
      (run (fillActions loudSample 1))) (.burst earlyBurst)) _
    generalize [Action.push (chunkOf zeroSample 32), .land 1].foldl step
      (run (fillActions loudSample 1)) = s' at *
    simp only [step, hidle]
    refine kept_workers (s := { s' with worker := .check earlyBurst }) ?_ hland ?_ _
    · rw [hstream, length_append, length_replicate, length_replicate]
      decide
    · rw [htotal, hcount]
      decide
  have hlast := (overtake_delivers hfill zeroSample hvalid).1
  rw [← run_append] at hlast
  obtain ⟨e,he⟩ := exists_mem_of_ne_nil _ (hlast.trans_ne (cons_ne_nil _ _))
  exact ⟨e, he, (no_torn_burst _ hkept e he).2⟩

theorem torn_of_filled (h : Filled s zeroSample 1024) :
    let s' := (overtakeActions loudSample).foldl step s
    ∃ e ∈ s'.delivered, e.2 ≠ e.1.window s'.stream := by
  have hvalid : earlyBurst.valid s.buf = true := by
    rw [DetectedBurst.valid, signalBufferBurstValid, h.headTotal]
    decide
  obtain ⟨hring,-⟩ := overtake_step h loudSample
  obtain ⟨hdel,hstream⟩ := overtake_delivers h loudSample hvalid
  intro s'
  rw [hdel, hstream]
  refine ⟨_, mem_singleton.mpr rfl, fun heq => ?_⟩
  generalize [Action.push (chunkOf loudSample 32), .land 1].foldl step s = s'' at *
  have hread : extractSample s''.buf earlyBurst.extStart 0 = loudSample.value := by
    rw [extractSample_eq]
    exact (congrArg widenCell hring).trans (widenCell_cell loudSample)
  have hhead : ((List.range 368).map (extractSample s''.buf earlyBurst.extStart))[0]? =
      some loudSample.value := by
    rw [getElem?_map, getElem?_range (by decide), Option.map_some, hread]
  have hzero : (earlyBurst.window (s.stream++List.replicate 32 loudSample))[0]? =
      some zeroSample.value := by
    rw [DetectedBurst.window, getElem?_map, getElem?_take_of_lt (by decide),
      getElem?_drop, show earlyBurst.checkStart.toNat+0 = 0 from rfl, h.stream,
      getElem?_append_left (by rw [length_replicate]; omega), getElem?_replicate,
      if_pos (by omega), Option.map_some]
  have hfirst := congrArg (fun l => l[0]?) heq
  simp only at hfirst
  rw [hhead, hzero] at hfirst
  exact absurd hfirst (by decide)

theorem torn_burst_delivered :
    ∃ e ∈ (run (fillActions zeroSample 1024++overtakeActions loudSample)).delivered,
      e.2 ≠ e.1.window (run (fillActions zeroSample 1024++overtakeActions loudSample)).stream := by
  rw [run_append]
  exact torn_of_filled (fill_run zeroSample 1024)

end IridiumAcars.WorkerExtract
