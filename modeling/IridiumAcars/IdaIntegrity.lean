import IridiumAcars.IdaChain
import IridiumAcars.Lib.Ownership
import IridiumAcars.Lib.Runs

/-! Chain integrity over whole runs of feeds and reaps, kept in a ledger of owners. -/
namespace IridiumAcars.IdaIntegrity
open SlotTable Ownership Runs IdaReasm IdaChain List

inductive Event where
  | feed (f : Feed)
  | reap (nowUs : Nat)
deriving DecidableEq

inductive Outcome where
  | fed (r : FeedResult)
  | reaped (r : Option IdaSalvage)
deriving DecidableEq

def react (ctx : IdaReassembler) : Event → IdaReassembler × Outcome
  | .feed f => ((idaReassemblerFeedEx ctx f).1, .fed (idaReassemblerFeedEx ctx f).2)
  | .reap nowUs => ((idaReassemblerReap ctx nowUs).1, .reaped (idaReassemblerReap ctx nowUs).2)

abbrev Log := List (Event × Outcome)

def run (es : List Event) : Trace IdaReassembler Event Outcome := runFrom react .init es

def consumedEntry (g : Feed) : Event × Outcome := (.feed g, .fed .consumed)

structure Completed (fs : List Feed) (f : Feed) (r : FeedResult) : Prop where
  seq : InSequence (fs++[f])
  cont : ∀ g ∈ fs, g.frag.daCont = 1
  final : f.frag.daCont = 0
  out : r.out = chainPayload (fs++[f])
  dirty : r.dirty = chainDirty (fs++[f])

structure Salvaged (fs : List Feed) (sal : IdaSalvage) : Prop where
  seq : InSequence fs
  cont : ∀ g ∈ fs, g.frag.daCont = 1
  payload : sal.payload = chainPayload fs
  dirty : sal.dirty = chainDirty fs

def Used (fs : List Feed) : Event × Outcome → Prop
  | (.feed f, .fed r) => r.ret = 1 ∧ 0 < f.frag.daCtr ∧ Completed fs f r ∨
      ¬ (r.ret = 1 ∧ 0 < f.frag.daCtr) ∧ fs = []
  | (.reap _, .reaped (some sal)) => Salvaged fs sal
  | _ => fs = []

def EntryOk (x : Event × Outcome) (xs : Log) : Prop := ∃ fs, xs = fs.map consumedEntry ∧ Used fs x

structure SlotOk (s : Session) (xs : Log) : Prop where
  idle : s.active = false → xs = []
  grown : s.active = true → ∃ fs, Grown fs s ∧ xs = fs.map consumedEntry

def Explained (t : Trace IdaReassembler Event Outcome) : Prop :=
  ∃ L : Ledger (Fin idaReasmMaxSessions),
    Books t.log L (fun i => SlotOk (t.ctx.sessions i)) EntryOk

theorem slotOk_idle (s : Session) (h : s.active = false) : SlotOk s [] :=
  ⟨fun _ => rfl, fun ha => absurd ha (by rw [h]; decide)⟩

theorem slotOk_grown (s : Session) (fs : List Feed) (h : Grown fs s) :
    SlotOk s (fs.map consumedEntry) :=
  ⟨fun hi => absurd hi (by rw [h.facts.active]; decide), fun _ => ⟨fs, h, rfl⟩⟩

theorem explained_start : Explained ⟨.init, []⟩ :=
  ⟨Ledger.empty, books_empty _ _ fun _ => slotOk_idle _ rfl⟩

theorem entryOk_fed (f : Feed) (r : FeedResult) (h : ¬ (r.ret = 1 ∧ 0 < f.frag.daCtr)) :
    EntryOk (.feed f, .fed r) [] :=
  ⟨[], rfl, Or.inr ⟨h, rfl⟩⟩

theorem explained_feed (t : Trace IdaReassembler Event Outcome) (f : Feed)
    (hcap : idaReasmMaxBytes ≤ f.outCap) (h : Explained t) :
    Explained (t.next react (.feed f)) := by
  obtain ⟨L,hb⟩ := h
  have hstep := feedEx_step t.ctx f
  change ∃ L', Books (t.log ++ [(.feed f, .fed (idaReassemblerFeedEx t.ctx f).2)]) L'
    (fun i => SlotOk ((idaReassemblerFeedEx t.ctx f).1.sessions i)) EntryOk
  generalize (idaReassemblerFeedEx t.ctx f).1.sessions = slots at hstep ⊢
  generalize (idaReassemblerFeedEx t.ctx f).1.cntOrphan = orphans at hstep
  generalize (idaReassemblerFeedEx t.ctx f).2 = r at hstep ⊢
  cases hstep with
  | standalone hctr hcont | tableFull hctr hcont hfull =>
    exact hb.pass (entryOk_fed f _ (by omega))
  | orphan hctr hnone => exact hb.pass (entryOk_fed f _ (by simp [FeedResult.dropped]))
  | opened i hctr hcont hfree =>
    refine hb.put i ?_ (entryOk_fed f _ (by omega))
    intro xs hx
    rw [hx.idle hfree]
    exact slotOk_grown _ [f] (.opener f hctr hcont)
  | overflow i hctr hacc hlen =>
    have hd : Books t.log (L.drop fun j => decide (j = i)) (fun j => SlotOk (setSlot
        t.ctx.sessions i (t.ctx.sessions i).deactivate j)) EntryOk := by
      refine hb.drop _ ?_ ?_
      · intro j hj
        rw [of_decide_eq_true hj, setSlot_same]
        exact slotOk_idle _ rfl
      · intro j hj xs hx
        rwa [setSlot_other _ i j _ (of_decide_eq_false hj)]
    exact hd.pass (entryOk_fed f _ (by simp [FeedResult.dropped]))
  | completed i hctr hcont hacc hlen =>
    refine hb.take i (slotOk_idle _ rfl) ?_
    intro xs hx
    have ha := accepted_of_accepts _ f hacc
    obtain ⟨fs,hg,rfl⟩ := hx.grown ha.active
    have hf := hg.facts
    have hmerged := ((t.ctx.sessions i).merge f hlen).len_le
    refine ⟨fs, rfl, Or.inl ⟨rfl, hctr, hf.inSequence_snoc ha hctr, hf.cont, hcont, ?_, ?_⟩⟩
    · rw [chainPayload_snoc, ← hf.payload]
      exact take_of_length_le (le_trans hmerged hcap)
    · rw [chainDirty_snoc fs f hf.ne_nil, ← hf.dirty]
      rfl
  | extended i hctr hcont hacc hlen =>
    refine hb.put i ?_ (entryOk_fed f _ (by simp [FeedResult.consumed]))
    intro xs hx
    obtain ⟨fs,hg,rfl⟩ := hx.grown (accepted_of_accepts _ f hacc).active
    have := slotOk_grown _ _ (Grown.extend fs _ f hg hctr hcont hacc hlen)
    simpa [consumedEntry] using this

theorem explained_reap (t : Trace IdaReassembler Event Outcome) (nowUs : Nat)
    (h : Explained t) : Explained (t.next react (.reap nowUs)) := by
  obtain ⟨L,hb⟩ := h
  have hstep := (reap_step t.ctx nowUs).1
  change ∃ L', Books (t.log ++ [(.reap nowUs, .reaped (idaReassemblerReap t.ctx nowUs).2)]) L'
    (fun i => SlotOk ((idaReassemblerReap t.ctx nowUs).1.sessions i)) EntryOk
  generalize (idaReassemblerReap t.ctx nowUs).1.sessions = slots at hstep ⊢
  generalize (idaReassemblerReap t.ctx nowUs).2 = r at hstep ⊢
  cases hstep with
  | notDue hnot => exact hb.pass ⟨[], rfl, rfl⟩
  | reaped i hdue =>
    refine hb.take i (slotOk_idle _ rfl) ?_
    intro xs hx
    have hact : (t.ctx.sessions i).active = true := by
      simp only [Session.due, Bool.and_eq_true] at hdue
      exact hdue.1.1
    obtain ⟨fs,hg,rfl⟩ := hx.grown hact
    have hf := hg.facts
    refine ⟨fs, rfl, hf.seq, hf.cont, ?_, hf.dirty⟩
    rw [← hf.payload]
    exact take_of_length_le (t.ctx.sessions i).len_le

theorem explained_run (es : List Event)
    (hcap : ∀ f, .feed f ∈ es → idaReasmMaxBytes ≤ f.outCap) : Explained (run es) := by
  refine runFrom_invariant react .init Explained es explained_start ?_
  intro t e he h
  cases e with
  | feed f => exact explained_feed t f (hcap f he) h
  | reap nowUs => exact explained_reap t nowUs h

def emits : Event × Outcome → Bool
  | (.feed _, .fed r) => decide (r.ret = 1)
  | _ => false

section
variable {log : Log} {L : Ledger (Fin idaReasmMaxSessions)}
  {held : Fin idaReasmMaxSessions → Log → Prop} (hb : Books log L held EntryOk)
include hb

theorem used_disjoint (n m : Nat) (h : n ≠ m) :
    (usedBy emits log L n).Disjoint (usedBy emits log L m) := by
  refine hb.usedBy_disjoint emits ?_ n m h
  intro x xs hx y hy
  obtain ⟨fs,rfl,-⟩ := hx
  obtain ⟨g,-,rfl⟩ := mem_map.mp hy
  rfl

theorem spent_used (n : Nat) (x : Event × Outcome) (hx : log[n]? = some x) :
    ∃ fs, (L.chain (.spent n)).map (fun k => log[k]?) = fs.map (fun g => some (consumedEntry g)) ∧
      Used fs x := by
  obtain ⟨fs,hfs,hu⟩ := hb.closings n x hx
  refine ⟨fs, ?_, hu⟩
  rw [L.map_chain log _ hb.size, hfs, map_map]
  rfl

end

/-- Each message and each reaped chain is made of its own fragments, complete and in order. -/
theorem ida_chain_integrity (es : List Event)
    (hcap : ∀ f, .feed f ∈ es → idaReasmMaxBytes ≤ f.outCap) :
    (run es).log.map Prod.fst = es ∧ ∃ chain : Nat → List Nat,
      (∀ n m, n ≠ m → (chain n).Disjoint (chain m)) ∧
      (∀ n f r, (run es).log[n]? = some (.feed f, .fed r) → r.ret = 1 → 0 < f.frag.daCtr →
        ∃ js fs, chain n = js++[n] ∧ (js++[n]).Pairwise (· < ·) ∧
          js.map (fun j => (run es).log[j]?) = fs.map (fun g => some (consumedEntry g)) ∧
          f.frag.daCtr = fs.length ∧ Completed fs f r) ∧
      (∀ n f r, (run es).log[n]? = some (.feed f, .fed r) → r.ret = 1 → f.frag.daCtr = 0 →
        chain n = [n]) ∧
      (∀ n nowUs sal, (run es).log[n]? = some (.reap nowUs, .reaped (some sal)) →
        ∃ fs, (chain n).map (fun j => (run es).log[j]?) =
          fs.map (fun g => some (consumedEntry g)) ∧ Salvaged fs sal) := by
  obtain ⟨L,hb⟩ := explained_run es hcap
  refine ⟨runFrom_events _ _ es, usedBy emits (run es).log L, used_disjoint hb, ?_, ?_, ?_⟩
  · intro n f r hx hret hctr
    obtain ⟨fs,hmap,hused⟩ := spent_used hb n _ hx
    have hemit : (run es).log[n]?.any emits = true := by rw [hx]; simpa [emits] using hret
    obtain ⟨hchain,hsorted⟩ := usedBy_sorted (L := L) emits n hemit
    rcases hused with ⟨-,-,hc⟩ | ⟨hno,-⟩
    · exact ⟨L.chain (.spent n), fs, hchain, hsorted, hmap, hc.seq.last_ctr, hc⟩
    · exact absurd ⟨hret, hctr⟩ hno
  · intro n f r hx hret hctr
    obtain ⟨fs,hmap,hused⟩ := spent_used hb n _ hx
    have hemit : (run es).log[n]?.any emits = true := by rw [hx]; simpa [emits] using hret
    rcases hused with ⟨-,hpos,-⟩ | ⟨-,rfl⟩
    · omega
    · have hnil : L.chain (.spent n) = [] := by simpa using hmap
      rw [usedBy, if_pos hemit, hnil]
      rfl
  · intro n nowUs sal hx
    obtain ⟨fs,hmap,hused⟩ := spent_used hb n _ hx
    have hemit : ¬ (run es).log[n]?.any emits = true := by rw [hx]; simp [emits]
    refine ⟨fs, ?_, hused⟩
    rwa [usedBy, if_neg hemit]

def twoFragments : List Event :=
  [.feed ⟨⟨1, 0, [1,2], by decide, by decide⟩, true, false, 1621000000, 10, 320⟩,
   .feed ⟨⟨0, 1, [3], by decide, by decide⟩, true, false, 1621000300, 90010, 320⟩]

theorem ida_chain_integrity_two : ∃ f, (run twoFragments).log[1]? =
    some (.feed f, .fed ⟨1, [1,2,3], false⟩) ∧ ∃ chain : Nat → List Nat, chain 1 = [0,1] ∧
      ∀ n m, n ≠ m → (chain n).Disjoint (chain m) := by
  have hlog : (run twoFragments).log[1]? = some (.feed ⟨⟨0, 1, [3], by decide, by decide⟩, true,
    false, 1621000300, 90010, 320⟩, .fed ⟨1, [1,2,3], false⟩) := by rfl
  obtain ⟨-,chain,hdisj,hemit,-⟩ := ida_chain_integrity twoFragments (by
    intro f hf
    simp only [twoFragments, mem_cons, Event.feed.injEq, not_mem_nil, or_false] at hf
    rcases hf with rfl | rfl <;> decide)
  refine ⟨_, hlog, chain, ?_, hdisj⟩
  obtain ⟨js,fs,hchain,hsorted,hmap,hlen,-⟩ := hemit 1 _ _ hlog rfl (by decide)
  have hjs : js.length = 1 := by
    have := congrArg List.length hmap
    rw [length_map, length_map] at this
    rw [this, ← hlen]
  obtain ⟨j,rfl⟩ := length_eq_one_iff.mp hjs
  have hj : j < 1 := by simpa using hsorted
  have : j = 0 := by omega
  rw [hchain, this]
  rfl

end IridiumAcars.IdaIntegrity
