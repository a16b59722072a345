import IridiumAcars.SignalBuffer

/-! Every push keeps the ring, its two counters and the carry at the positions of one stream. -/
namespace IridiumAcars.SignalBuffer
open RingBuffer List

theorem toNat_capacity : signalBufCapacityComplex.toNat = 2^23 := rfl

structure Indexed (b : Buffer) (stream : List Cell) (m : Nat) : Prop where
  le : m ≤ stream.length
  short : stream.length < m+alignComplex
  carry : b.carry = stream.drop m
  head : b.head.toNat = m%2^23
  headTotal : b.headTotal = UInt64.ofNat m
  holds : Holds (2^23) b.settle.ring stream (m-2^23) m

def pushMax : Nat := alignScratchMax-(alignComplex-1)

theorem pushPlan_eq {c n : Nat} (hc : c < alignComplex) (hn : n ≤ pushMax) :
    pushPlan c n = ((c+n)/32*32, (c+n)%32) := by
  simp only [alignComplex, pushMax, alignScratchMax] at hc hn
  have hmax : ¬alignScratchMax < (c+n)/32*32 := by
    simp only [alignScratchMax]
    omega
  have hrest : c+n-(c+n)/32*32 = (c+n)%32 := by omega
  simp only [pushPlan, alignComplex, if_neg hmax, hrest]

theorem copyOut_counters (b : Buffer) (p : Push) (xs : List Cell) :
    (b.copyOut p xs).head = b.head ∧ (b.copyOut p xs).headTotal = b.headTotal := by
  rw [Buffer.copyOut]
  cases p.submit <;> exact ⟨rfl, rfl⟩

theorem copyOut_settle {b : Buffer} (hb : b.inFlight = []) {p : Push} (hp : p.submitRest = true)
    (xs : List Cell) : (b.copyOut p xs).settle.ring = writeBlocks b.ring (b.copies xs) := by
  rw [Buffer.copyOut, hp]
  cases p.submit with
  | false => simp [Buffer.settle, writeBlocks, hb]
  | true => simp [Buffer.settle]

structure Planned (b : Buffer) (stream : List Cell) (m : Nat) (p : Push) (a r : Nat) : Prop where
  head : b.head.toNat = m%2^23
  headTotal : b.headTotal = UInt64.ofNat m
  small : a ≤ alignScratchMax
  le : m+a ≤ stream.length
  short : stream.length < m+a+alignComplex
  carry : (p.samples.drop (p.samples.length-r)).map Sample.cell = stream.drop (m+a)

section
variable {b : Buffer} {stream : List Cell} {m : Nat} {p : Push} {a r : Nat}

theorem toNat_nextHead {head : UInt32} (hhead : head.toNat = m%2^23)
    (ha : a ≤ alignScratchMax) :
    (signalBufferNextHead head (UInt32.ofNat a) signalBufCapacityComplex).toNat = (m+a)%2^23 := by
  have hlt := Nat.mod_lt m (Nat.two_pow_pos 23)
  rw [alignScratchMax] at ha
  have hsum : (head+UInt32.ofNat a).toNat = m%2^23+a := by
    rw [UInt32.toNat_add, hhead, UInt32.toNat_ofNat_of_lt' (by simp only [UInt32.size]; omega)]
    omega
  rw [signalBufferNextHead, UInt32.toNat_mod, toNat_capacity, hsum, Nat.mod_add_mod]

theorem Planned.publish (h : Planned b stream m p a r)
    (hheld : Holds (2^23) b.settle.ring stream (m+a-2^23) (m+a)) :
    Indexed (b.publish p a r) stream (m+a) where
  le := h.le
  short := h.short
  carry := h.carry
  head := toNat_nextHead h.head h.small
  headTotal := by
    rw [UInt64.ofNat_add, ← h.headTotal]
    rfl
  holds := hheld

theorem Indexed.plan (h : Indexed b stream m) (hn : p.samples.length ≤ pushMax)
    (hlarge : ¬b.carry.length+p.samples.length < alignComplex)
    (hplan : pushPlan b.carry.length p.samples.length = (a, r)) :
    Planned b (stream++p.samples.map Sample.cell) m p a r ∧
      Blocks (2^23) (stream++p.samples.map Sample.cell) m (b.copies (b.scratch p a)) ∧
      blocksLength (b.copies (b.scratch p a)) = a := by
  have hc : b.carry.length = stream.length-m := by rw [h.carry, length_drop]
  have hle := h.le
  have hshort := h.short
  rw [pushPlan_eq (by omega) hn] at hplan
  obtain ⟨ha,hr⟩ := Prod.mk.inj hplan
  simp only [alignComplex, pushMax, alignScratchMax] at hlarge hshort hn
  have hsplit : b.carry.length+p.samples.length = a+r := by omega
  have hcarry : b.carry.length ≤ a := by omega
  have hscratch : (b.scratch p a).length = a := by
    rw [Buffer.scratch, length_append, length_map, length_take]
    omega
  have hdrop : (stream++p.samples.map Sample.cell).drop m = b.carry++p.samples.map Sample.cell := by
    rw [drop_append_of_le_length hle, ← h.carry]
  refine ⟨⟨h.head, h.headTotal, ?_, ?_, ?_, ?_⟩, ?_, ?_⟩
  · rw [alignScratchMax]
    omega
  · rw [length_append, length_map]
    omega
  · rw [length_append, length_map, alignComplex]
    omega
  · rw [← drop_drop, hdrop, drop_append, drop_eq_nil_of_le hcarry,
      nil_append, ← map_drop, show a-b.carry.length = p.samples.length-r by omega]
  · rw [Buffer.copies, toNat_capacity, h.head]
    apply splitBlocks_blocks (Nat.two_pow_pos 23) (by omega)
    intro j hj
    have hscr : b.scratch p a = (b.carry++p.samples.map Sample.cell).take a := by
      rw [Buffer.scratch, take_append, take_of_length_le hcarry, map_take]
    rw [hscr, getElem?_take_of_lt (by omega), ← hdrop, getElem?_drop]
  · rw [Buffer.copies, blocksLength_split, hscratch]

theorem Indexed.defer (h : Indexed b stream m) {xs : List Cell}
    (hsmall : b.carry.length+xs.length < alignComplex) :
    Indexed { b with carry := b.carry++xs } (stream++xs) m := by
  have hc : b.carry.length = stream.length-m := by rw [h.carry, length_drop]
  have hle := h.le
  refine ⟨?_, ?_, ?_, h.head, h.headTotal, h.holds.append _⟩
  · rw [length_append]
    omega
  · rw [length_append]
    omega
  · rw [drop_append_of_le_length hle, ← h.carry]

theorem push_indexed (h : Indexed b stream m) (hp : p.submitRest = true)
    (hn : p.samples.length ≤ pushMax) :
    ∃ m', Indexed (signalBufferPush b p) (stream++p.samples.map Sample.cell) m' := by
  rw [signalBufferPush]
  split_ifs with hsmall
  · exact ⟨m, h.defer (by rwa [length_map])⟩
  generalize hplan : pushPlan b.carry.length p.samples.length = plan
  obtain ⟨a,r⟩ := plan
  obtain ⟨hpl,hblocks,hcount⟩ := h.plan hn hsmall hplan
  obtain ⟨hhead,htotal⟩ := copyOut_counters b.settle p (b.scratch p a)
  have hbase : Holds (2^23) b.settle.ring (stream++p.samples.map Sample.cell) (m+a-2^23) m :=
    (h.holds.append _).mono (by omega) le_rfl
  have hsmall := hpl.small
  rw [alignScratchMax] at hsmall
  have hheld := hbase.writeBlocks hblocks (by omega)
  refine ⟨m+a, Planned.publish ⟨?_, ?_, hpl.small, hpl.le, hpl.short, hpl.carry⟩ ?_⟩
  · rw [hhead]
    exact h.head
  · rw [htotal]
    exact h.headTotal
  · rw [hcount] at hheld
    rwa [copyOut_settle rfl hp]

end

theorem run_indexed {pushes : List Push} (hsize : ∀ p ∈ pushes, p.samples.length ≤ pushMax)
    (hrest : ∀ p ∈ pushes, p.submitRest = true) :
    ∃ m, Indexed (signalBufferRun pushes) ((pushes.flatMap Push.samples).map Sample.cell) m := by
  induction pushes using List.reverseRecOn with
  | nil =>
    refine ⟨0, Nat.zero_le _, by decide, rfl, rfl, rfl, Holds.empty (Nat.zero_le _)⟩
  | append_singleton pushes p ih =>
    obtain ⟨m,hm⟩ := ih (fun q hq => hsize q (mem_append_left _ hq))
      fun q hq => hrest q (mem_append_left _ hq)
    rw [signalBufferRun, foldl_append, flatMap_append, map_append]
    simp only [foldl_cons, foldl_nil, flatMap_cons, flatMap_nil,
      append_nil]
    exact push_indexed hm (hrest p (by simp)) (hsize p (by simp))

variable {length : UInt32}

theorem readChunk_eq (b : Buffer) (startIdx : UInt32)
    (hlen : length.toNat < 2^23) :
    signalBufferReadChunk b startIdx length =
      (List.range length.toNat).map fun i => widenCell (b.ring ((startIdx.toNat+i)%2^23)) := by
  have hactual : (startIdx%signalBufCapacityComplex).toNat = startIdx.toNat%2^23 := by
    rw [UInt32.toNat_mod, toNat_capacity]
  have hlt := Nat.mod_lt startIdx.toNat (Nat.two_pow_pos 23)
  have hsum : (startIdx%signalBufCapacityComplex+length).toNat =
      startIdx.toNat%2^23+length.toNat := by
    rw [UInt32.toNat_add, hactual]
    omega
  have hcell (i : Nat) (hi : startIdx.toNat%2^23+i < 2^23) :
      (startIdx.toNat+i)%2^23 = startIdx.toNat%2^23+i := add_mod_of_fits hi
  rw [signalBufferReadChunk]
  simp only [UInt32.le_iff_toNat_le, hsum, toNat_capacity, hactual]
  by_cases hfit : startIdx.toNat%2^23+length.toNat ≤ 2^23
  · rw [if_pos hfit]
    apply map_congr_left
    intro i hi
    have := mem_range.mp hi
    rw [hcell i (by omega)]
  · have hend : (signalBufCapacityComplex-startIdx%signalBufCapacityComplex).toNat =
        2^23-startIdx.toNat%2^23 := by
      rw [UInt32.toNat_sub_of_le, hactual, toNat_capacity]
      rw [UInt32.le_iff_toNat_le, hactual, toNat_capacity]
      exact hlt.le
    have hrest : (length-(signalBufCapacityComplex-startIdx%signalBufCapacityComplex)).toNat =
        length.toNat-(2^23-startIdx.toNat%2^23) := by
      rw [UInt32.toNat_sub_of_le, hend]
      rw [UInt32.le_iff_toNat_le, hend]
      omega
    rw [if_neg hfit, hend, hrest]
    generalize hto : 2^23-startIdx.toNat%2^23 = toEnd
    have hsplit : length.toNat = toEnd+(length.toNat-toEnd) := by omega
    have hfirst : (List.range toEnd).map (fun i => widenCell (b.ring (startIdx.toNat%2^23+i))) =
        (List.range toEnd).map fun i => widenCell (b.ring ((startIdx.toNat+i)%2^23)) := by
      apply map_congr_left
      intro i hi
      have := mem_range.mp hi
      rw [hcell i (by omega)]
    have hwrap : (List.range (length.toNat-toEnd)).map (fun i => widenCell (b.ring i)) =
        (List.range (length.toNat-toEnd)).map fun i =>
          widenCell (b.ring ((startIdx.toNat+(toEnd+i))%2^23)) := by
      apply map_congr_left
      intro i hi
      have := mem_range.mp hi
      have hi : (startIdx.toNat+(toEnd+i))%2^23 = i := by omega
      rw [hi]
    rw [hfirst, hwrap]
    generalize length.toNat-toEnd = rest at hsplit
    rw [hsplit, range_add, map_append, map_map]
    rfl

theorem burstValid_bounds {b : Buffer} {m : Nat} (htotal : b.headTotal = UInt64.ofNat m)
    (hm : m < 2^64) {startIdx : UInt64}
    (hwrap : startIdx.toNat+length.toNat < 2^64)
    (hvalid : signalBufferBurstValid b startIdx length = true) :
    length.toNat < 2^23 ∧ startIdx.toNat+length.toNat ≤ m ∧ m ≤ startIdx.toNat+2^23 := by
  have hht : b.headTotal.toNat = m := by
    rw [htotal]
    exact UInt64.toNat_ofNat_of_lt' hm
  rw [signalBufferBurstValid] at hvalid
  by_cases hlen : length = 0 ∨ signalBufCapacityComplex ≤ length
  · rw [if_pos hlen] at hvalid
    cases hvalid
  rw [if_neg hlen] at hvalid
  have hlt := mt UInt32.le_iff_toNat_le.mpr (not_or.mp hlen).2
  rw [toNat_capacity] at hlt
  have hend : (startIdx+length.toUInt64).toNat = startIdx.toNat+length.toNat := by
    rw [UInt64.toNat_add, UInt32.toNat_toUInt64]
    omega
  by_cases hpast : b.headTotal < startIdx+length.toUInt64
  · simp only [if_pos hpast] at hvalid
    cases hvalid
  simp only [if_neg hpast, decide_eq_true_eq] at hvalid
  have hle := mt UInt64.lt_iff_toNat_lt.mpr hpast
  rw [hend, hht] at hle
  have hage := UInt64.le_iff_toNat_le.mp hvalid
  rw [UInt64.toNat_sub_of_le _ _ (by rw [UInt64.le_iff_toNat_le, hht]; omega), hht,
    UInt32.toNat_toUInt64, toNat_capacity] at hage
  omega

theorem Indexed.readChunk {b : Buffer} {stream : List Sample} {m : Nat}
    (h : Indexed b (stream.map Sample.cell) m) (hm : m < 2^64) {startIdx : UInt64}
    (hwrap : startIdx.toNat+length.toNat < 2^64)
    (hvalid : signalBufferBurstValid b startIdx length = true) :
    signalBufferReadChunk b.settle startIdx.toUInt32 length =
      ((stream.drop startIdx.toNat).take length.toNat).map Sample.value := by
  obtain ⟨hlen,hend,hage⟩ := burstValid_bounds h.headTotal hm hwrap hvalid
  have hread := h.holds.read (by omega : m-2^23 ≤ startIdx.toNat) hend
  have hcell (i : Nat) : (startIdx.toUInt32.toNat+i)%2^23 = (startIdx.toNat+i)%2^23 := by
    rw [UInt64.toNat_toUInt32]
    omega
  rw [readChunk_eq _ _ hlen]
  simp only [hcell]
  rw [← map_drop, ← map_take] at hread
  have hvalue := congrArg (List.map widenCell) hread
  rw [map_map, map_map] at hvalue
  refine hvalue.trans (map_congr_left ?_)
  intro s _
  exact widenCell_cell s

theorem signal_buffer_index (pushes : List Push)
    (hsize : ∀ p ∈ pushes, p.samples.length ≤ alignScratchMax-31)
    (hrest : ∀ p ∈ pushes, p.submitRest = true) :
    let b := (signalBufferRun pushes).settle
    let stream := pushes.flatMap Push.samples
    let cap := signalBufCapacityComplex.toNat
    ∃ headTotal, b.headTotal = UInt64.ofNat headTotal ∧
      b.head.toNat = headTotal%cap ∧
      headTotal ≤ stream.length ∧ stream.length-headTotal < 32 ∧
      b.carry = (stream.drop headTotal).map Sample.cell ∧
      (∀ idx, headTotal ≤ idx+cap → idx < headTotal →
        stream[idx]?.map Sample.cell = some (b.ring (idx%cap))) ∧
      ∀ startIdx length, stream.length < 2^64 → startIdx.toNat+length.toNat < 2^64 →
        signalBufferBurstValid b startIdx length = true →
        startIdx.toNat+length.toNat ≤ stream.length ∧
          signalBufferReadChunk b startIdx.toUInt32 length =
            ((stream.drop startIdx.toNat).take length.toNat).map Sample.value := by
  intro b stream cap
  obtain ⟨m,h⟩ := run_indexed hsize hrest
  have hle := h.le
  have hshort := h.short
  rw [length_map] at hle hshort
  refine ⟨m, h.headTotal, h.head, hle, ?_, ?_, ?_, ?_⟩
  · exact Nat.sub_lt_left_of_lt_add hle hshort
  · rw [map_drop]
    exact h.carry
  · intro idx hlo hhi
    rw [← getElem?_map]
    exact h.holds idx (by rw [Nat.sub_le_iff_le_add]; exact hlo) hhi
  · intro startIdx length hstream hwrap hvalid
    have hm : m < 2^64 := Nat.lt_of_le_of_lt hle hstream
    obtain ⟨_,hend,_⟩ := burstValid_bounds h.headTotal hm hwrap hvalid
    exact ⟨hend.trans hle, h.readChunk hm hwrap hvalid⟩

theorem low_widen (b : Int8) : (widen b).toUInt16 &&& 0xFF = 0 := by
  obtain ⟨⟨v⟩⟩ := b
  revert v
  decide +kernel

def rampSample (k : Nat) : Sample where
  i := widen (Int8.ofNat (k%127+1))
  q := widen (-Int8.ofNat (k%113+1))
  low_i := low_widen _
  low_q := low_widen _

def transfer (k : Nat) : Push :=
  ⟨(List.range 16321).map fun i => rampSample (16321*k+i), true, true⟩

theorem transfers_samples (n : Nat) :
    ((List.range n).map transfer).flatMap Push.samples =
      (List.range (16321*n)).map rampSample := by
  induction n with
  | zero => rfl
  | succ n ih =>
    rw [range_succ, map_append, flatMap_append, ih, Nat.mul_succ, range_add,
      map_append, map_map]
    simp [transfer]

/-- The window lies across the end of the ring and across the boundary 8388994 of two transfers,
where the carry holds the two samples before it. -/
theorem signal_buffer_index_wrapped :
    let b := (signalBufferRun ((List.range 520).map transfer)).settle
    signalBufferBurstValid b 8388508 600 = true ∧
      signalBufferReadChunk b 8388508 600 =
        (List.range 600).map fun i => (rampSample (8388508+i)).value := by
  intro b
  have hsize : ∀ p ∈ (List.range 520).map transfer, p.samples.length ≤ alignScratchMax-31 := by
    intro p hp
    obtain ⟨k,-,rfl⟩ := mem_map.mp hp
    rw [transfer, length_map, length_range]
    decide
  have hrest : ∀ p ∈ (List.range 520).map transfer, p.submitRest = true := by
    intro p hp
    obtain ⟨k,-,rfl⟩ := mem_map.mp hp
    rfl
  obtain ⟨m,htotal,-,hle,hshort,-,-,hread⟩ := signal_buffer_index _ hsize hrest
  rw [transfers_samples, length_map, length_range] at hle hshort hread
  have hvalid : signalBufferBurstValid b 8388508 600 = true := by
    have hlo : 8486889 ≤ m := by omega
    have hhi : m ≤ 8486920 := hle
    rw [signalBufferBurstValid, htotal]
    interval_cases m <;> rfl
  refine ⟨hvalid, ?_⟩
  have hwindow : signalBufferReadChunk b 8388508 600 =
      ((((List.range (16321*520)).map rampSample).drop 8388508).take 600).map Sample.value :=
    (hread 8388508 600 (by decide) (by decide) hvalid).2
  rw [hwindow, ← map_drop, ← map_take, map_map, range_eq_range',
    drop_range', take_range'_of_length_ge (by decide), range'_eq_map_range,
    map_map]
  rfl

def zeroSample : Sample := ⟨0, 0, rfl, rfl⟩

def oneLine : List Push := [⟨List.replicate 32 zeroSample, false, true⟩]

def wrappedStart : UInt64 := 18446744073709551611

/-- The end of a window that starts there wraps past the check, although the stream has no
such samples. -/
theorem wrapped_start_is_valid :
    signalBufferBurstValid (signalBufferRun oneLine).settle wrappedStart 10 = true ∧
      signalBufferReadChunk (signalBufferRun oneLine).settle wrappedStart.toUInt32 10 ≠
        (((oneLine.flatMap Push.samples).drop wrappedStart.toNat).take 10).map Sample.value := by
  refine ⟨by decide +kernel, ?_⟩
  intro h
  have hlen := congrArg List.length h
  rw [readChunk_eq _ _ (by decide), length_map, length_range, length_map,
    length_take, length_drop] at hlen
  exact absurd hlen (by decide +kernel)

end IridiumAcars.SignalBuffer
