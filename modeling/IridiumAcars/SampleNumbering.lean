import IridiumAcars.LiveFeedExact
import IridiumAcars.SignalBufferIndex

/-! The tagger and the sample ring count the same samples as long as no chunk is shed. -/
namespace IridiumAcars.LiveFeed
open SignalBuffer Runs List

theorem DspProcessor.length_tagged (p : DspProcessor) : p.tagged.length = p.dIndex := by
  have hsum {steps : List (List Sample)} (h : ∀ chunk ∈ steps, chunk.length = fbtFftSize) :
      steps.flatten.length = steps.length*fbtFftSize := by
    induction steps with
    | nil => exact (Nat.zero_mul _).symm
    | cons chunk steps ih =>
      rw [flatten_cons, length_append, h chunk mem_cons_self,
        ih fun c hc => h c (mem_cons_of_mem _ hc), length_cons, Nat.succ_mul,
        Nat.add_comm]
  exact hsum p.full

theorem window_of_isPrefix {xs ys : List Sample} (h : xs <+: ys) {i n : Nat}
    (hin : i+n ≤ xs.length) : (ys.drop i).take n = (xs.drop i).take n := by
  obtain ⟨rest,rfl⟩ := h
  rw [drop_append_of_le_length (by omega), take_append_of_le_length]
  rw [length_drop]
  omega

/-- With no chunk shed, a valid window reads back as the samples the tagger saw. -/
theorem sample_numbering (buf : Nat → UInt8) (acts : List Action)
    (hnever : NeverSheds buf acts) :
    let s := run buf acts
    let pushed := s.pushes.flatMap Push.samples
    let b := (signalBufferRun s.pushes).settle
    (∀ (k : Nat) (x : Sample), s.dsp.given[k]? = some x → pushed[k]? = some x) ∧
      s.dsp.tagged.length = s.dsp.dIndex ∧ s.dsp.tagged <+: s.dsp.given ∧
      ((∀ p ∈ s.pushes, p.submitRest = true) → pushed.length < 2^64 →
        ∀ startIdx length, startIdx.toNat+length.toNat ≤ s.dsp.dIndex →
          signalBufferBurstValid b startIdx length = true →
          signalBufferReadChunk b startIdx.toUInt32 length =
            ((s.dsp.tagged.drop startIdx.toNat).take length.toNat).map Sample.value) := by
  intro s pushed b
  have h : Good s := run_good buf acts
  have hgiven : s.dsp.given <+: pushed := h.given_pushed (run_fed hnever)
  have htagged : s.dsp.tagged <+: s.dsp.given := prefix_append _ _
  refine ⟨?_, s.dsp.length_tagged, htagged, ?_⟩
  · intro k x hx
    obtain ⟨rest,hrest⟩ := hgiven
    rwa [← hrest, List.getElem?_append_left (List.getElem?_eq_some_iff.mp hx).1]
  · intro hrest hlen startIdx length hin hvalid
    have hsize : ∀ p ∈ s.pushes, p.samples.length ≤ pushMax := fun p hp =>
      (h.content.pushSmall p hp).trans (by decide)
    obtain ⟨m,hm⟩ := run_indexed hsize hrest
    rw [← s.dsp.length_tagged] at hin
    have hmle := hm.le
    rw [length_map] at hmle
    have hall := (htagged.trans hgiven).length_le
    have hread := hm.readChunk (Nat.lt_of_le_of_lt hmle hlen)
      (Nat.lt_of_le_of_lt (hin.trans hall) hlen) hvalid
    rw [hread, window_of_isPrefix (htagged.trans hgiven) hin]

/-- At rest the tagger has been given all that was pushed, and less than a step of it is unread. -/
theorem dIndex_at_rest {buf : Nat → UInt8} {acts : List Action} (hnever : NeverSheds buf acts)
    (hwait : (run buf acts).feed = .waitData) :
    ((run buf acts).pushes.flatMap Push.samples).length/2048*2048 ≤ (run buf acts).dsp.dIndex := by
  obtain ⟨-,hall,hgiven⟩ := (run_good buf acts).idle hwait
  have hlen := congrArg List.length ((hgiven (run_fed hnever)).trans hall.symm)
  have hshort : _ < 2048 := (run buf acts).dsp.short
  rw [DspProcessor.given, length_append, DspProcessor.length_tagged] at hlen
  rw [← hlen, DspProcessor.dIndex, fbtFftSize]
  omega

def passChunk (w : UsbWrite) : List Action :=
  writeActions w++List.replicate 6 (.feed false)++List.replicate 6 (.ingest true true)++
    List.replicate 8 (.feed false)

def rampBytes (k : Nat) : List UInt8 := (List.range 2048).map fun i => UInt8.ofNat (i+k)

theorem length_rampBytes (k : Nat) : (rampBytes k).length = 2048 := by
  rw [rampBytes, length_map, length_range]

def rampBlock (k : Nat) : UsbRing.Block :=
  ⟨rampBytes k, (length_rampBytes k).trans_lt (by decide)⟩

theorem even_rampBlock (k : Nat) : 2 ∣ (rampBlock k).data.length := by
  rw [rampBlock, length_rampBytes]
  decide

def ramp (k : Nat) : UsbWrite := ⟨rampBlock k, even_rampBlock k⟩

/-- Three chunks, the second dispatched and converted during a capture that is stopped before it is
handed over. -/
def captureBetween : List Action :=
  passChunk (ramp 0)++[.capture true]++writeActions (ramp 1)++List.replicate 6 (.feed false)++
    List.replicate 6 (.ingest true true)++[.capture false]++List.replicate 8 (.feed false)++
    passChunk (ramp 2)++List.replicate 5 (.feed false)

instance (f : Feed) : Decidable (∃ p n a, f = .handOver p n a) := by
  cases f with
  | handOver p n a => exact .isTrue ⟨p, n, a, rfl⟩
  | _ => exact .isFalse (by rintro ⟨_,_,_,⟨⟩⟩)

instance (s : State) (a : Action) : Decidable (Sheds s a) := by
  cases a <;> unfold Sheds <;> infer_instance

theorem burstValid_window {b : Buffer} (h : b.headTotal = 3072) :
    signalBufferBurstValid b.settle 100 1900 = true := by
  rw [signalBufferBurstValid, show b.settle.headTotal = 3072 from h]
  decide

theorem run_captureBetween :
    let s := run (fun _ => 0) captureBetween
    s.feed = .waitData ∧ (s.pushes.flatMap Push.samples).length = 3072 ∧
      (signalBufferRun s.pushes).headTotal = 3072 ∧ ∀ p ∈ s.pushes, p.submitRest = true := by
  decide +kernel

theorem sample_numbering_captured :
    let s := run (fun _ => 0) captureBetween
    NeverSheds (fun _ => 0) captureBetween ∧ 2048 ≤ s.dsp.dIndex ∧
      signalBufferReadChunk (signalBufferRun s.pushes).settle 100 1900 =
        ((s.dsp.tagged.drop 100).take 1900).map Sample.value := by
  have hnever : NeverSheds (fun _ => 0) captureBetween := by
    unfold NeverSheds
    decide +kernel
  obtain ⟨hwait,hpushed,htotal,hrest⟩ := run_captureBetween
  have hindex := dIndex_at_rest hnever hwait
  have hread := sample_numbering (fun _ => 0) captureBetween hnever
  generalize run (fun _ => 0) captureBetween = s at *
  rw [hpushed] at hindex
  exact ⟨hnever, hindex, hread.2.2.2 hrest (hpushed.trans_lt (by decide)) 100 1900
    (le_trans (by decide) hindex) (burstValid_window htotal)⟩

def nextBytes : UsbWrite := ⟨⟨[3, 4], by decide⟩, by decide⟩

def captureFirst : List Action :=
  [.capture true]++passChunk twoBytes++[.capture false]++passChunk nextBytes

/-- The shed chunk is in the ring but not counted by the tagger. -/
theorem shed_chunk_shifts_index :
    let s := run (fun _ => 0) captureFirst
    let pushed := s.pushes.flatMap Push.samples
    pushed.map Sample.value = (convert [1, 2, 3, 4]).map Sample.value ∧
      s.dsp.given.map Sample.value = (convert [3, 4]).map Sample.value ∧
      s.dsp.given[0]? ≠ pushed[0]? := by
  intro s pushed
  have hpushed : pushed.map Sample.value = (convert [1, 2, 3, 4]).map Sample.value := by
    decide +kernel
  have hgiven : s.dsp.given.map Sample.value = (convert [3, 4]).map Sample.value := by
    decide +kernel
  refine ⟨hpushed, hgiven, fun hsame => ?_⟩
  have hfirst := congrArg (Option.map Sample.value) hsame
  rw [← getElem?_map, ← getElem?_map, hpushed, hgiven] at hfirst
  exact absurd hfirst (by decide)

end IridiumAcars.LiveFeed
