import IridiumAcars.IdaReasm
import Mathlib.Data.List.Chain

/-! What a slot's content says about the fragments that were fed into it. -/
namespace IridiumAcars.IdaChain
open IdaReasm List

variable {fs : List Feed}

def NearHz (a b : UInt32) : Prop := a.toNat ≤ b.toNat+5000 ∧ b.toNat ≤ a.toNat+5000

def HopOk (a b : Feed) : Prop := a.nowUs ≤ b.nowUs ∧ b.nowUs-a.nowUs ≤ idaReasmFragGapUs

instance (a b : UInt32) : Decidable (NearHz a b) := inferInstanceAs (Decidable (_ ∧ _))
instance (a b : Feed) : Decidable (HopOk a b) := inferInstanceAs (Decidable (_ ∧ _))

def chainPayload (gs : List Feed) : List UInt8 := gs.flatMap fun g => g.frag.payload

theorem length_chainPayload_le (fs : List Feed) : (chainPayload fs).length ≤ 24*fs.length := by
  induction fs with
  | nil => exact Nat.zero_le _
  | cons f fs ih =>
    have := f.frag.len_le
    rw [chainPayload, flatMap_cons, length_append, length_cons]
    change f.frag.payload.length+(chainPayload fs).length ≤ _
    omega

def chainDirty (gs : List Feed) : Bool := gs.tail.any fun g => !g.fragCrcOk

/-- Counters 0, 1, 2, …, one direction, all near the opener, every hop in time. -/
structure InSequence (gs : List Feed) : Prop where
  ctr : gs.map (fun g => g.frag.daCtr) = List.range gs.length
  uplink : ∀ g ∈ gs, ∀ h ∈ gs, g.uplink = h.uplink
  near : ∀ o ∈ gs.head?, ∀ g ∈ gs, NearHz g.freqHz o.freqHz
  hops : gs.IsChain HopOk

instance (gs : List Feed) : Decidable (InSequence gs) :=
  decidable_of_iff (gs.map (fun g => g.frag.daCtr) = List.range gs.length ∧
      (∀ g ∈ gs, ∀ h ∈ gs, g.uplink = h.uplink) ∧
      (∀ o ∈ gs.head?, ∀ g ∈ gs, NearHz g.freqHz o.freqHz) ∧ gs.IsChain HopOk)
    ⟨fun ⟨hc,hu,hn,hh⟩ => ⟨hc, hu, hn, hh⟩, fun h => ⟨h.ctr, h.uplink, h.near, h.hops⟩⟩

inductive Grown : List Feed → Session → Prop
  | opener (f : Feed) (hctr : f.frag.daCtr = 0) (hcont : f.frag.daCont = 1) :
      Grown [f] (openSession f)
  | extend (fs : List Feed) (s : Session) (f : Feed) (hg : Grown fs s) (hctr : 0 < f.frag.daCtr)
      (hcont : f.frag.daCont = 1)
      (hacc : s.accepts f.uplink f.freqHz f.frag.daCtr f.nowUs = true)
      (hlen : ¬ f.frag.payload.length > idaReasmMaxBytes-s.payload.length) :
      Grown (fs++[f]) ((s.merge f hlen).advance f.frag.daCtr)

structure SlotFacts (fs : List Feed) (s : Session) : Prop where
  seq : InSequence fs
  cont : ∀ g ∈ fs, g.frag.daCont = 1
  active : s.active = true
  length_le : fs.length ≤ 8
  nextCtr : s.nextCtr = fs.length%8
  payload : s.payload = chainPayload fs
  dirty : s.dirty = chainDirty fs
  uplink : ∀ g ∈ fs, g.uplink = s.uplink
  head : ∃ o, fs.head? = some o ∧ o.freqHz = s.freqHz
  last : ∃ g, fs.getLast? = some g ∧ g.nowUs = s.lastTimeUs

theorem nearHz_self (a : UInt32) : NearHz a a := ⟨by omega, by omega⟩

theorem nearHz_of_window (freq opener : UInt32) (hlo : windowLo opener ≤ freq)
    (hhi : freq ≤ windowHi opener) : NearHz freq opener := by
  have h5 : idaReasmFreqDeadbandHz.toNat = 5000 := rfl
  have hh : freq.toNat ≤ (opener.toNat+5000)%2^32 := by
    have := UInt32.le_iff_toNat_le.mp hhi
    rwa [windowHi, UInt32.toNat_add, h5] at this
  have hmod := Nat.mod_le (opener.toNat+5000) (2^32)
  refine ⟨by omega, ?_⟩
  by_cases hc : opener > idaReasmFreqDeadbandHz
  · rw [windowLo, if_pos hc] at hlo
    have hlt : idaReasmFreqDeadbandHz.toNat < opener.toNat := UInt32.lt_iff_toNat_lt.mp hc
    have hl := UInt32.le_iff_toNat_le.mp hlo
    rw [UInt32.toNat_sub_of_le _ _ (UInt32.le_iff_toNat_le.mpr (by omega)), h5] at hl
    omega
  · have : ¬ idaReasmFreqDeadbandHz.toNat < opener.toNat := fun h =>
      hc (UInt32.lt_iff_toNat_lt.mpr h)
    omega

theorem accepts_iff (s : Session) (f : Feed) :
    s.accepts f.uplink f.freqHz f.frag.daCtr f.nowUs = true ↔
      s.active = true ∧ s.uplink = f.uplink ∧ f.frag.daCtr = s.nextCtr ∧ s.lastTimeUs ≤ f.nowUs ∧
        f.nowUs-s.lastTimeUs ≤ idaReasmFragGapUs ∧ windowLo s.freqHz ≤ f.freqHz ∧
        f.freqHz ≤ windowHi s.freqHz := by
  simp [Session.accepts, Session.acceptsIgnoringFreq, decide_eq_false_iff_not, and_assoc]

structure Accepted (s : Session) (f : Feed) : Prop where
  active : s.active = true
  uplink : f.uplink = s.uplink
  ctr : f.frag.daCtr = s.nextCtr
  time : s.lastTimeUs ≤ f.nowUs
  gap : f.nowUs-s.lastTimeUs ≤ idaReasmFragGapUs
  near : NearHz f.freqHz s.freqHz

theorem accepted_of_accepts (s : Session) (f : Feed)
    (h : s.accepts f.uplink f.freqHz f.frag.daCtr f.nowUs = true) : Accepted s f := by
  obtain ⟨hact,hup,hctr,htime,hgap,hlo,hhi⟩ := (accepts_iff s f).mp h
  exact ⟨hact, hup.symm, hctr, htime, hgap, nearHz_of_window _ _ hlo hhi⟩

theorem chainPayload_snoc (fs : List Feed) (f : Feed) :
    chainPayload (fs++[f]) = chainPayload fs ++ f.frag.payload := by
  simp [chainPayload]

theorem chainDirty_snoc (fs : List Feed) (f : Feed) (h : fs ≠ []) :
    chainDirty (fs++[f]) = (chainDirty fs || !f.fragCrcOk) := by
  cases fs with
  | nil => exact absurd rfl h
  | cons g fs => simp [chainDirty]

variable {s : Session}

theorem SlotFacts.ne_nil (h : SlotFacts fs s) : fs ≠ [] := by
  obtain ⟨o,ho,-⟩ := h.head
  rintro rfl
  cases ho

theorem SlotFacts.ctr_eq {f : Feed} (h : SlotFacts fs s) (ha : Accepted s f)
    (hpos : 0 < f.frag.daCtr) : f.frag.daCtr = fs.length ∧ fs.length < 8 := by
  have hctr := ha.ctr
  have hle := h.length_le
  rw [h.nextCtr] at hctr
  omega

theorem SlotFacts.inSequence_snoc {f : Feed} (h : SlotFacts fs s) (ha : Accepted s f)
    (hpos : 0 < f.frag.daCtr) : InSequence (fs++[f]) := by
  obtain ⟨hctr,-⟩ := h.ctr_eq ha hpos
  obtain ⟨o,ho,hfreq⟩ := h.head
  obtain ⟨l,hl,htime⟩ := h.last
  have hup : ∀ g ∈ fs++[f], g.uplink = s.uplink := by
    intro g hg
    rcases mem_append.mp hg with hg | hg
    · exact h.uplink g hg
    · rw [mem_singleton.mp hg, ha.uplink]
  refine ⟨?_, ?_, ?_, ?_⟩
  · rw [map_append, h.seq.ctr, length_append, map_singleton, hctr]
    exact range_succ.symm
  · intro g hg k hk
    rw [hup g hg, hup k hk]
  · intro o' ho' g hg
    have hoo : o' = o := by
      rw [head?_append, ho] at ho'
      simpa [eq_comm] using ho'
    subst hoo
    rcases mem_append.mp hg with hg | hg
    · exact h.seq.near o' ho g hg
    · rw [mem_singleton.mp hg, hfreq]
      exact ha.near
  · refine h.seq.hops.append (isChain_singleton f) ?_
    intro x hx y hy
    have hxl : x = l := by
      rw [hl] at hx
      simpa [eq_comm] using hx
    have hyf : y = f := by simpa [eq_comm] using hy
    subst hxl hyf
    refine ⟨?_, ?_⟩
    · rw [htime]
      exact ha.time
    · rw [htime]
      exact ha.gap

theorem InSequence.last_ctr {f : Feed} (h : InSequence (fs++[f])) :
    f.frag.daCtr = fs.length := by
  have hctr := h.ctr
  rw [map_append, length_append, length_singleton, range_succ] at hctr
  have := append_inj_right hctr (by simp)
  simpa using this

theorem Grown.facts (hg : Grown fs s) : SlotFacts fs s := by
  induction hg with
  | opener f hctr hcont =>
    have hlen := f.frag.len_le
    refine ⟨⟨?_, ?_, ?_, isChain_singleton f⟩, ?_, rfl, by simp, rfl, ?_, rfl, ?_, ⟨f, rfl, rfl⟩,
      ⟨f, rfl, rfl⟩⟩
    · simp [hctr]
    · intro g hg k hk
      rw [mem_singleton.mp hg, mem_singleton.mp hk]
    · intro o ho g hg
      have : f = o := by simpa using ho
      rw [mem_singleton.mp hg, ← this]
      exact nearHz_self _
    · intro g hg
      rw [mem_singleton.mp hg, hcont]
    · simp only [openSession, chainPayload, flatMap_singleton]
      exact take_of_length_le (by unfold idaReasmMaxBytes; omega)
    · intro g hg
      rw [mem_singleton.mp hg]
      rfl
  | extend fs s f _ hctr hcont hacc hlen ih =>
    have ha := accepted_of_accepts s f hacc
    obtain ⟨hlf,hlt⟩ := ih.ctr_eq ha hctr
    refine ⟨ih.inSequence_snoc ha hctr, ?_, ih.active, ?_, ?_, ?_, ?_, ?_, ?_, ?_⟩
    · intro g hg
      rcases mem_append.mp hg with hg | hg
      · exact ih.cont g hg
      · rw [mem_singleton.mp hg, hcont]
    · rw [length_append, length_singleton]
      omega
    · change (f.frag.daCtr+1)%8 = _
      rw [hlf, length_append, length_singleton]
    · rw [chainPayload_snoc, ← ih.payload]
      rfl
    · rw [chainDirty_snoc fs f ih.ne_nil, ← ih.dirty]
      rfl
    · intro g hg
      rcases mem_append.mp hg with hg | hg
      · exact ih.uplink g hg
      · rw [mem_singleton.mp hg, ha.uplink]
        rfl
    · obtain ⟨o,ho,hfreq⟩ := ih.head
      exact ⟨o, by rw [head?_append, ho]; rfl, hfreq⟩
    · exact ⟨f, by simp, rfl⟩

end IridiumAcars.IdaChain
