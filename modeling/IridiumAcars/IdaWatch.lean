import IridiumAcars.IdaIntegrity

/-! Runs of the reassembler watched from outside: each slot's fragments, when its chain was opened
and touched last, and when chains ended. -/
namespace IridiumAcars.IdaWatch
open SlotTable IdaReasm IdaChain IdaIntegrity List

abbrev Slot := Fin idaReasmMaxSessions

def joins (ctx : IdaReassembler) (f : Feed) : Option Slot :=
  if f.frag.daCtr = 0 then if f.frag.daCont = 0 then none else findFreeSession ctx
  else (findMatchingSession ctx f.uplink f.freqHz f.frag.daCtr f.nowUs).filter fun i =>
    !decide (f.frag.payload.length > idaReasmMaxBytes-(ctx.sessions i).payload.length)

/-- Calls are numbered from 0; `ended` has the calls that opened and ended each past chain. -/
structure Watch where
  ctx : IdaReassembler
  chains : Slot → List Feed
  opened : Slot → Nat
  touched : Slot → Nat
  ended : List (Nat × Nat)
  calls : Nat

def Watch.start : Watch := ⟨.init, fun _ => [], fun _ => 0, fun _ => 0, [], 0⟩

def joinChain (chains : Slot → List Feed) (f : Feed) : Option Slot → Slot → List Feed
  | none => chains
  | some i => setSlot chains i (if f.frag.daCtr = 0 then [f] else chains i++[f])

def touch (touched : Slot → Nat) (call : Nat) : Option Slot → Slot → Nat
  | none => touched
  | some i => setSlot touched i call

def Watch.ends (w : Watch) (ctx : IdaReassembler) : List (Nat × Nat) :=
  ((List.finRange idaReasmMaxSessions).filter fun l =>
    (w.ctx.sessions l).active && !(ctx.sessions l).active).map fun l => (w.opened l, w.calls)

def Watch.next (w : Watch) : Event → Watch
  | .feed f =>
    { ctx := (idaReassemblerFeedEx w.ctx f).1
      chains := joinChain w.chains f (joins w.ctx f)
      opened := touch w.opened w.calls (if f.frag.daCtr = 0 then joins w.ctx f else none)
      touched := touch w.touched w.calls (joins w.ctx f)
      ended := w.ended++w.ends (idaReassemblerFeedEx w.ctx f).1
      calls := w.calls+1 }
  | .reap nowUs =>
    { w with
      ctx := (idaReassemblerReap w.ctx nowUs).1
      ended := w.ended++w.ends (idaReassemblerReap w.ctx nowUs).1
      calls := w.calls+1 }

def watch (es : List Event) : Watch := es.foldl Watch.next .start

def Matches (ctx : IdaReassembler) (f : Feed) (i : Slot) : Prop :=
  (ctx.sessions i).accepts f.uplink f.freqHz f.frag.daCtr f.nowUs = true

instance (ctx : IdaReassembler) (f : Feed) (i : Slot) : Decidable (Matches ctx f i) :=
  inferInstanceAs (Decidable (_ = _))

def extended (s : Session) (f : Feed)
    (h : ¬ f.frag.payload.length > idaReasmMaxBytes-s.payload.length) : Session :=
  if f.frag.daCont = 0 then (s.merge f h).deactivate else (s.merge f h).advance f.frag.daCtr

inductive Joined (ctx : IdaReassembler) (f : Feed) : Option Slot → (Slot → Session) → Prop
  | opened (i : Slot) (hctr : f.frag.daCtr = 0) (hcont : f.frag.daCont = 1)
      (hfree : findFreeSession ctx = some i) :
      Joined ctx f (some i) (setSlot ctx.sessions i (openSession f))
  | merged (i : Slot) (hctr : 0 < f.frag.daCtr)
      (hfind : findMatchingSession ctx f.uplink f.freqHz f.frag.daCtr f.nowUs = some i)
      (hlen : ¬ f.frag.payload.length > idaReasmMaxBytes-(ctx.sessions i).payload.length) :
      Joined ctx f (some i) (setSlot ctx.sessions i (extended (ctx.sessions i) f hlen))
  | kept {slots : Slot → Session}
      (h : ∀ i, slots i = ctx.sessions i ∨ (slots i).active = false) : Joined ctx f none slots

theorem joined_feed (ctx : IdaReassembler) (f : Feed) :
    Joined ctx f (joins ctx f) (idaReassemblerFeedEx ctx f).1.sessions := by
  have hle := f.frag.cont_le
  by_cases h0 : f.frag.daCtr = 0
  · rw [joins, if_pos h0]
    split_ifs with hc
    · simp only [idaReassemblerFeedEx, if_pos (And.intro h0 hc)]
      exact .kept fun _ => .inl rfl
    · simp only [idaReassemblerFeedEx, if_neg (fun h : _ ∧ _ => hc h.2), if_pos (And.intro h0 hc)]
      cases hfree : findFreeSession ctx with
      | none => exact .kept fun _ => .inl rfl
      | some i => exact .opened i h0 (by omega) hfree
  · rw [joins, if_neg h0]
    simp only [idaReassemblerFeedEx, if_neg (fun h : _ ∧ _ => h0 h.1)]
    cases hmatch : findMatchingSession ctx f.uplink f.freqHz f.frag.daCtr f.nowUs with
    | none => exact .kept fun _ => .inl rfl
    | some i =>
      by_cases hlen : f.frag.payload.length > idaReasmMaxBytes-(ctx.sessions i).payload.length
      · rw [Option.filter_some_neg (by rw [decide_eq_true hlen]; decide)]
        simp only [dif_pos hlen]
        refine .kept fun j => ?_
        by_cases hj : j = i
        · rw [hj, setSlot_same]
          exact .inr rfl
        · exact .inl (setSlot_other _ i j _ hj)
      · have hjoin := Joined.merged i (Nat.pos_of_ne_zero h0) hmatch hlen
        rw [Option.filter_some_pos (by rw [decide_eq_false hlen]; rfl)]
        simp only [dif_neg hlen]
        by_cases hc : f.frag.daCont = 0
        · simpa only [if_pos hc, extended] using hjoin
        · simpa only [if_neg hc, extended] using hjoin

/-- How a slot that is active after an event came to be so. -/
inductive Fed (w w' : Watch) : Event → Slot → Prop
  | same (e : Event) (i : Slot) (hs : w'.ctx.sessions i = w.ctx.sessions i)
      (hc : w'.chains i = w.chains i) (ho : w'.opened i = w.opened i)
      (ht : w'.touched i = w.touched i) : Fed w w' e i
  | opened (f : Feed) (i : Slot) (hctr : f.frag.daCtr = 0) (hcont : f.frag.daCont = 1)
      (hfree : (w.ctx.sessions i).active = false)
      (hlow : ∀ l < i, (w.ctx.sessions l).active = true ∧ (w'.ctx.sessions l).active = true)
      (hs : w'.ctx.sessions i = openSession f) (hc : w'.chains i = [f])
      (ho : w'.opened i = w.calls) (ht : w'.touched i = w.calls) : Fed w w' (.feed f) i
  | extended (f : Feed) (i : Slot) (hctr : 0 < f.frag.daCtr) (hcont : f.frag.daCont = 1)
      (hacc : (w.ctx.sessions i).accepts f.uplink f.freqHz f.frag.daCtr f.nowUs = true)
      (hlen : ¬ f.frag.payload.length > idaReasmMaxBytes-(w.ctx.sessions i).payload.length)
      (hs : w'.ctx.sessions i = ((w.ctx.sessions i).merge f hlen).advance f.frag.daCtr)
      (hc : w'.chains i = w.chains i++[f]) (ho : w'.opened i = w.opened i)
      (ht : w'.touched i = w.calls) : Fed w w' (.feed f) i

variable {i : Slot}

theorem fed_feed (w : Watch) (f : Feed)
    (hact : ((w.next (.feed f)).ctx.sessions i).active = true) :
    Fed w (w.next (.feed f)) (.feed f) i := by
  have hjoin := joined_feed w.ctx f
  generalize hw : w.next (.feed f) = w' at hact ⊢
  have hctx : w'.ctx.sessions = (idaReassemblerFeedEx w.ctx f).1.sessions := by rw [← hw]; rfl
  have hc : w'.chains = joinChain w.chains f (joins w.ctx f) := by rw [← hw]; rfl
  have ho : w'.opened =
      touch w.opened w.calls (if f.frag.daCtr = 0 then joins w.ctx f else none) := by rw [← hw]; rfl
  have ht : w'.touched = touch w.touched w.calls (joins w.ctx f) := by rw [← hw]; rfl
  rw [← hctx] at hjoin
  generalize hs : w'.ctx.sessions = slots at hjoin
  generalize joins w.ctx f = slot at hjoin hc ho ht
  cases hjoin with
  | kept hkeep =>
    rw [ite_self] at ho
    obtain hsame | hidle := hkeep i
    · exact .same _ i (by rw [hs, hsame]) (by rw [hc]; rfl) (by rw [ho]; rfl) (by rw [ht]; rfl)
    · rw [hs, hidle] at hact
      cases hact
  | opened k hctr hcont hfree =>
    rw [if_pos hctr, touch] at ho
    rw [joinChain, if_pos hctr] at hc
    rw [touch] at ht
    by_cases hi : i = k
    · subst hi
      have hfirst := firstSlot_some hfree
      rw [Bool.not_eq_true'] at hfirst
      refine .opened f i hctr hcont hfirst (fun l hl => ?_) (by rw [hs, setSlot_same])
        (by rw [hc, setSlot_same]) (by rw [ho, setSlot_same]) (by rw [ht, setSlot_same])
      have hlow := firstSlot_min hfree l hl
      rw [Bool.not_eq_false'] at hlow
      rwa [hs, setSlot_other _ i l _ hl.ne, and_self]
    · exact .same _ i (by rw [hs, setSlot_other _ k i _ hi]) (by rw [hc, setSlot_other _ k i _ hi])
        (by rw [ho, setSlot_other _ k i _ hi]) (by rw [ht, setSlot_other _ k i _ hi])
  | merged k hctr hfind hlen =>
    rw [if_neg (by omega), touch] at ho
    rw [joinChain, if_neg (by omega)] at hc
    rw [touch] at ht
    by_cases hi : i = k
    · subst hi
      have hle := f.frag.cont_le
      rw [hs, setSlot_same, extended] at hact
      by_cases hlast : f.frag.daCont = 0
      · rw [if_pos hlast] at hact
        cases hact
      · exact .extended f i hctr (by omega) (lastSlot_some hfind) hlen
          (by rw [hs, setSlot_same, extended, if_neg hlast]) (by rw [hc, setSlot_same])
          (by rw [ho]) (by rw [ht, setSlot_same])
    · exact .same _ i (by rw [hs, setSlot_other _ k i _ hi]) (by rw [hc, setSlot_other _ k i _ hi])
        (by rw [ho]) (by rw [ht, setSlot_other _ k i _ hi])

theorem fed_reap (w : Watch) (nowUs : Nat)
    (hact : ((w.next (.reap nowUs)).ctx.sessions i).active = true) :
    Fed w (w.next (.reap nowUs)) (.reap nowUs) i := by
  refine .same _ i ?_ rfl rfl rfl
  have hstep := (reap_step w.ctx nowUs).1
  change ((idaReassemblerReap w.ctx nowUs).1.sessions i).active = true at hact
  change (idaReassemblerReap w.ctx nowUs).1.sessions i = _
  generalize (idaReassemblerReap w.ctx nowUs).1.sessions = slots at hstep hact ⊢
  generalize (idaReassemblerReap w.ctx nowUs).2 = r at hstep
  cases hstep with
  | notDue => rfl
  | reaped k =>
    by_cases hi : i = k
    · rw [hi, setSlot_same] at hact
      cases hact
    · exact setSlot_other _ k i _ hi

theorem fed_next (w : Watch) (e : Event)
    (hact : ((w.next e).ctx.sessions i).active = true) : Fed w (w.next e) e i := by
  cases e with
  | feed f => exact fed_feed w f hact
  | reap nowUs => exact fed_reap w nowUs hact

/-- The slot's fragments, the call of its opener and that of its last fragment. -/
structure Tracked (es : List Event) (w : Watch) (i : Slot) : Prop where
  grown : Grown (w.chains i) (w.ctx.sessions i)
  early : w.opened i < es.length
  last : ∃ fs g, w.chains i = fs++[g] ∧ es[w.touched i]? = some (.feed g) ∧
    (fs = [] → w.touched i = w.opened i)

/-- An opener takes the lowest free slot: a lower slot holds an older chain, or an older chain ended
in it since. -/
structure Inv (es : List Event) (w : Watch) : Prop where
  calls : w.calls = es.length
  past : ∀ p ∈ w.ended, p.2 < es.length
  tracked : ∀ i, (w.ctx.sessions i).active = true → Tracked es w i
  order : ∀ j, (w.ctx.sessions j).active = true → ∀ l < j,
    (w.ctx.sessions l).active = true ∧ w.opened l < w.opened j ∨
      ∃ p ∈ w.ended, p.1 < w.opened j ∧ w.opened j < p.2 ∧
        ((w.ctx.sessions l).active = true → p.2 < w.opened l)

section
variable {es : List Event} {w : Watch}

theorem Inv.tracked_next (h : Inv es w) (e : Event)
    (hact : ((w.next e).ctx.sessions i).active = true) : Tracked (es++[e]) (w.next e) i := by
  have hlen : (es++[e]).length = es.length+1 := length_append
  have hnow : (es++[e])[w.calls]? = some e := by rw [h.calls, getElem?_concat_length]
  have hfed := fed_next w e hact
  generalize w.next e = w' at hact hfed
  cases hfed with
  | same _ _ hs hc ho ht =>
    rw [hs] at hact
    obtain ⟨hgrown,hearly,fs,g,hfs,hg,hone⟩ := h.tracked i hact
    refine ⟨by rwa [hc, hs], by rw [ho]; omega, fs, g, by rw [hc, hfs], ?_, by rwa [ht, ho]⟩
    rw [ht, List.getElem?_append_left (List.getElem?_eq_some_iff.mp hg).1, hg]
  | opened f _ hctr hcont hfree hlow hs hc ho ht =>
    refine ⟨by rw [hc, hs]; exact .opener f hctr hcont, by rw [ho, h.calls]; omega, [], f, hc, ?_,
      fun _ => by rw [ht, ho]⟩
    rw [ht, hnow]
  | extended f _ hctr hcont hacc hroom hs hc ho ht =>
    obtain ⟨hgrown,hearly,-⟩ := h.tracked i (accepted_of_accepts _ f hacc).active
    refine ⟨by rw [hc, hs]; exact .extend _ _ f hgrown hctr hcont hacc hroom, by rw [ho]; omega,
      _, f, hc, by rw [ht, hnow], fun hnil => absurd hnil hgrown.facts.ne_nil⟩

theorem Fed.before {w' : Watch} {e : Event} (h : Fed w w' e i)
    (hact : (w'.ctx.sessions i).active = true) :
    (w.ctx.sessions i).active = true ∧ w'.opened i = w.opened i ∨
      (w.ctx.sessions i).active = false ∧ w'.opened i = w.calls ∧
        ∀ l < i, (w.ctx.sessions l).active = true ∧ (w'.ctx.sessions l).active = true := by
  cases h with
  | same _ _ hs _ ho => exact .inl ⟨by rwa [hs] at hact, ho⟩
  | opened _ _ _ _ hfree hlow _ _ ho => exact .inr ⟨hfree, ho, hlow⟩
  | extended f _ _ _ hacc _ _ _ ho => exact .inl ⟨(accepted_of_accepts _ f hacc).active, ho⟩

theorem ended_next (w : Watch) (e : Event) : (w.next e).ended = w.ended++w.ends (w.next e).ctx := by
  cases e <;> rfl

theorem Inv.order_next (h : Inv es w) (e : Event) {j l : Slot} (hlj : l < j)
    (hact : ((w.next e).ctx.sessions j).active = true) :
    ((w.next e).ctx.sessions l).active = true ∧ (w.next e).opened l < (w.next e).opened j ∨
      ∃ p ∈ (w.next e).ended, p.1 < (w.next e).opened j ∧ (w.next e).opened j < p.2 ∧
        (((w.next e).ctx.sessions l).active = true → p.2 < (w.next e).opened l) := by
  have hended := ended_next w e
  have hfed : ∀ i, ((w.next e).ctx.sessions i).active = true → _ := fun i hi =>
    (fed_next w e hi).before hi
  generalize w.next e = w' at hact hfed hended ⊢
  obtain ⟨hj,ho⟩ | ⟨-,ho,hlow⟩ := hfed j hact
  · rw [ho, hended]
    obtain ⟨hl,hlt⟩ | ⟨p,hp,h1,h2,h3⟩ := h.order j hj l hlj
    · cases hl' : (w'.ctx.sessions l).active with
      | true =>
        obtain ⟨-,ho'⟩ | ⟨hidle,-⟩ := hfed l hl'
        · exact .inl ⟨rfl, by rwa [ho']⟩
        · rw [hl] at hidle
          cases hidle
      | false =>
        -- the chain in the lower slot has just ended
        refine .inr ⟨(w.opened l, w.calls), mem_append_right _ (mem_map.mpr ⟨l, ?_, rfl⟩),
          hlt, h.calls ▸ (h.tracked j hj).early, nofun⟩
        exact mem_filter.mpr ⟨mem_finRange l, by rw [hl, hl']; rfl⟩
    · refine .inr ⟨p, mem_append_left _ hp, h1, h2, fun hl => ?_⟩
      obtain ⟨hl,ho'⟩ | ⟨-,ho',-⟩ := hfed l hl
      · rw [ho']
        exact h3 hl
      · rw [ho', h.calls]
        exact h.past p hp
  · obtain ⟨hl,hl'⟩ := hlow l hlj
    obtain ⟨-,ho'⟩ | ⟨hidle,-⟩ := hfed l hl'
    · refine .inl ⟨hl', ?_⟩
      rw [ho, ho', h.calls]
      exact (h.tracked l hl).early
    · rw [hl] at hidle
      cases hidle

theorem inv_watch (es : List Event) : Inv es (watch es) := by
  induction es using List.reverseRecOn with
  | nil => exact ⟨rfl, nofun, fun _ => nofun, fun _ => nofun⟩
  | append_singleton es e ih =>
    rw [watch, foldl_append]
    refine ⟨?_, fun p hp => ?_, fun i hi => ih.tracked_next e hi,
      fun j hj l hlj => ih.order_next e hlj hj⟩
    · rw [length_append, ← ih.calls]
      cases e <;> rfl
    · rw [length_append]
      rw [foldl_cons, foldl_nil, ended_next] at hp
      obtain hp | hp := mem_append.mp hp
      · exact (ih.past p hp).trans (Nat.lt_succ_self _)
      · obtain ⟨l,-,rfl⟩ := mem_map.mp hp
        exact Nat.lt_succ_of_le ih.calls.le

end

theorem grown_nextCtr_iff {fs : List Feed} {s : Session} (h : Grown fs s) :
    s.nextCtr = fs.length ↔ ∀ g ∈ fs, g.frag.daCtr ≠ 7 := by
  have hf := h.facts
  have hle := hf.length_le
  have hctr : (∀ g ∈ fs, g.frag.daCtr ≠ 7) ↔ ∀ c ∈ List.range fs.length, c ≠ 7 := by
    rw [← hf.seq.ctr, forall_mem_map]
  rw [hf.nextCtr, hctr]
  constructor
  · intro hlen c hc
    have := mem_range.mp hc
    omega
  · intro hno
    have : ¬ 7 < fs.length := fun hlt => hno 7 (mem_range.mpr hlt) rfl
    omega

/-- A reaped chain is counted right unless it ends in a fragment of counter 7. -/
theorem reap_counts_fragments_iff (es : List Event) (nowUs : Nat) {sal : IdaSalvage}
    (h : (idaReassemblerReap (watch es).ctx nowUs).2 = some sal) :
    ∃ i, firstSlot (fun s => s.due nowUs) (watch es).ctx.sessions = some i ∧
      sal.payload = chainPayload ((watch es).chains i) ∧
      (idaReassemblerReap (watch es).ctx nowUs).1.partsExpired =
        bumpBin (watch es).ctx.partsExpired sal.frags ∧
      (sal.frags = ((watch es).chains i).length ↔
        ∀ g ∈ (watch es).chains i, g.frag.daCtr ≠ 7) := by
  rw [idaReassemblerReap] at h ⊢
  cases hdue : firstSlot (fun s => s.due nowUs) (watch es).ctx.sessions with
  | none =>
    rw [hdue] at h
    cases h
  | some i =>
    rw [hdue] at h
    cases h
    have hd := firstSlot_some hdue
    simp only [Session.due, Bool.and_eq_true] at hd
    have hg := ((inv_watch es).tracked i hd.1.1).grown
    refine ⟨i, rfl, ?_, rfl, grown_nextCtr_iff hg⟩
    rw [← hg.facts.payload]
    exact take_of_length_le ((watch es).ctx.sessions i).len_le

theorem one_byte_le : [(7 : UInt8)].length ≤ 24 := by decide

def frag (ctr cont : Nat) (hcont : cont ≤ 1) (nowUs : Nat) : Event :=
  .feed ⟨⟨cont, ctr, [7], hcont, one_byte_le⟩, true, false, 1621000000, nowUs, 320⟩

theorem reap_counts_fragments_two :
    let es := [frag 0 1 (by decide) 0, frag 1 1 (by decide) 90000]
    ∃ sal, (idaReassemblerReap (watch es).ctx 2000000).2 = some sal ∧ sal.frags = 2 ∧
      ∃ i, sal.frags = ((watch es).chains i).length := by
  refine ⟨_, rfl, rfl, ?_⟩
  obtain ⟨i,hi,-,-,hiff⟩ := reap_counts_fragments_iff
    [frag 0 1 (by decide) 0, frag 1 1 (by decide) 90000] 2000000 rfl
  have hi' : i = ⟨0, by decide⟩ := Option.some.inj (hi.symm.trans (by decide +kernel))
  exact ⟨i, hiff.mpr (by rw [hi']; decide +kernel)⟩

/-- Eight fragments that all promise another one are reported as none. -/
theorem eight_fragments_reported_as_none :
    let es := (List.range 8).map fun k => frag k 1 (by decide) (90000*k)
    ∃ sal, (idaReassemblerReap (watch es).ctx 9000000).2 = some sal ∧ sal.frags = 0 ∧
      sal.payload.length = 8 ∧ ((watch es).chains ⟨0, by decide⟩).length = 8 ∧
      (idaReassemblerReap (watch es).ctx 9000000).1.partsExpired ⟨7, by decide⟩ = 0 := by
  refine ⟨⟨List.replicate 8 7, false, 1621000000, 630000, 0, false⟩, ?_⟩
  decide +kernel

theorem grown_fits {fs : List Feed} {s : Session} (h : Grown fs s) {f : Feed}
    (hctr : 0 < f.frag.daCtr) (hacc : s.accepts f.uplink f.freqHz f.frag.daCtr f.nowUs = true) :
    ¬ f.frag.payload.length > idaReasmMaxBytes-s.payload.length := by
  have hlt := (h.facts.ctr_eq (accepted_of_accepts s f hacc) hctr).2
  have hle := length_chainPayload_le fs
  have hf := f.frag.len_le
  rw [h.facts.payload]
  unfold idaReasmMaxBytes
  omega

def Appended (ctx : IdaReassembler) (f : Feed) (i : Slot) : Prop :=
  ∃ s, (idaReassemblerFeedEx ctx f).1.sessions = setSlot ctx.sessions i s ∧
    s.payload = (ctx.sessions i).payload++f.frag.payload

theorem payload_extended (s : Session) (f : Feed)
    (h : ¬ f.frag.payload.length > idaReasmMaxBytes-s.payload.length) :
    (extended s f h).payload = s.payload++f.frag.payload := by
  unfold extended
  split <;> rfl

theorem appended_last {es : List Event} {f : Feed} (hctr : 0 < f.frag.daCtr)
    (hfind : findMatchingSession (watch es).ctx f.uplink f.freqHz f.frag.daCtr f.nowUs = some i) :
    Appended (watch es).ctx f i := by
  have hacc := lastSlot_some hfind
  have hfits := grown_fits ((inv_watch es).tracked i (accepted_of_accepts _ f hacc).active).grown
    hctr hacc
  have hjoins : joins (watch es).ctx f = some i := by
    rw [joins, if_neg (by omega), hfind]
    exact Option.filter_some_pos (by rw [decide_eq_false hfits]; rfl)
  have hjoin := joined_feed (watch es).ctx f
  rw [hjoins] at hjoin
  generalize hslots : (idaReassemblerFeedEx (watch es).ctx f).1.sessions = slots at hjoin
  cases hjoin with
  | opened _ h0 => omega
  | merged _ _ _ hlen => exact ⟨_, hslots, payload_extended _ f hlen⟩

/-- `g` is a fragment a chain may have taken right before `f`. -/
def Precedes (g f : Feed) : Prop :=
  g.uplink = f.uplink ∧ g.frag.daCtr+1 = f.frag.daCtr ∧
    g.freqHz.toNat ≤ f.freqHz.toNat+10000 ∧ f.freqHz.toNat ≤ g.freqHz.toNat+10000

/-- No chain that was there before two matching ones ended between their openings, and the fragment
before has not come again since the newest matching chain took it. -/
structure Orderly (es : List Event) (f : Feed) : Prop where
  ends : ∀ a b, Matches (watch es).ctx f a → Matches (watch es).ctx f b →
    ∀ p ∈ (watch es).ended, p.1 < (watch es).opened a → (watch es).opened a < p.2 →
      (watch es).opened b ≤ p.2
  once : 1 < f.frag.daCtr → ∀ i, Matches (watch es).ctx f i →
    (∀ j, Matches (watch es).ctx f j → (watch es).opened j ≤ (watch es).opened i) →
    ∀ n g, (watch es).touched i < n → es[n]? = some (.feed g) → ¬ Precedes g f

theorem most_recent_chain_wins (es : List Event) (f : Feed) (hctr : 0 < f.frag.daCtr)
    (hmatch : ∃ j, Matches (watch es).ctx f j) (horder : Orderly es f) :
    ∃ i, Matches (watch es).ctx f i ∧ Appended (watch es).ctx f i ∧
      ∀ j, Matches (watch es).ctx f j → (watch es).touched j ≤ (watch es).touched i := by
  cases hfind : findMatchingSession (watch es).ctx f.uplink f.freqHz f.frag.daCtr f.nowUs with
  | none =>
    obtain ⟨j,hj⟩ := hmatch
    cases hj.symm.trans (lastSlot_none hfind j)
  | some i =>
    have hi : Matches (watch es).ctx f i := lastSlot_some hfind
    have hnewest : ∀ j, Matches (watch es).ctx f j → (watch es).opened j ≤ (watch es).opened i := by
      intro j hj
      obtain hlt | rfl := Fin.lt_or_eq_of_le (lastSlot_max hfind j hj)
      · obtain ⟨-,hlt⟩ | ⟨p,hp,h1,h2,h3⟩ :=
          (inv_watch es).order i (accepted_of_accepts _ f hi).active j hlt
        · exact hlt.le
        · exact absurd (horder.ends i j hi hj p hp h1 h2)
            (Nat.not_le.mpr (h3 (accepted_of_accepts _ f hj).active))
      · exact le_rfl
    refine ⟨i, hi, appended_last hctr hfind, fun j hj => ?_⟩
    have haj := accepted_of_accepts _ f hj
    have hai := accepted_of_accepts _ f hi
    obtain ⟨hgrown,-,fs,g,hfs,hg,hone⟩ := (inv_watch es).tracked j haj.active
    have hfacts := hgrown.facts
    have hlen := (hfacts.ctr_eq haj hctr).1
    rw [hfs] at hfacts hlen
    rw [length_append, length_singleton] at hlen
    by_contra hlate
    by_cases h1 : 1 < f.frag.daCtr
    · refine horder.once h1 i hi hnewest _ g (Nat.not_le.mp hlate) hg ?_
      have hmem : g ∈ fs++[g] := mem_append_right _ (mem_singleton_self g)
      obtain ⟨o,ho,hfreq⟩ := hfacts.head
      have hnear := hfacts.seq.near o ho g hmem
      have hfnear := haj.near
      rw [← hfreq] at hfnear
      rw [NearHz] at hnear hfnear
      refine ⟨(hfacts.uplink g hmem).trans haj.uplink.symm, ?_, by omega, by omega⟩
      rw [hfacts.seq.last_ctr, hlen]
    · obtain ⟨hgrown',-,fs',g',hfs',-,hone'⟩ := (inv_watch es).tracked i hai.active
      have hlen' := (hgrown'.facts.ctr_eq hai hctr).1
      rw [hfs', length_append, length_singleton] at hlen'
      have hj1 := hone (length_eq_zero_iff.mp (by omega))
      have hi1 := hone' (length_eq_zero_iff.mp (by omega))
      have := hnewest j hj
      omega

/-- A finished chain, then two open ones that match: the later one takes the third fragment. -/
theorem most_recent_chain_wins_overtaken :
    let es := [frag 0 1 (by decide) 0, frag 1 0 (by decide) 90000, frag 0 1 (by decide) 180000,
      frag 1 1 (by decide) 270000, frag 0 1 (by decide) 360000, frag 1 1 (by decide) 450000]
    let f : Feed := ⟨⟨1, 2, [9], by decide, by decide⟩, true, false, 1621002000, 540000, 320⟩
    (∃ a b, a ≠ b ∧ Matches (watch es).ctx f a ∧ Matches (watch es).ctx f b) ∧
    ∃ i, Matches (watch es).ctx f i ∧ Appended (watch es).ctx f i ∧
      ∀ j, Matches (watch es).ctx f j → (watch es).touched j ≤ (watch es).touched i := by
  intro es f
  refine ⟨by decide +kernel, most_recent_chain_wins es f (by decide) (by decide +kernel)
    ⟨by decide +kernel, fun _ i hi hnewest n g hn hg => ?_⟩⟩
  have hlast : ∀ i, Matches (watch es).ctx f i →
      (∀ j, Matches (watch es).ctx f j → (watch es).opened j ≤ (watch es).opened i) →
      es.length ≤ (watch es).touched i+1 := by decide +kernel
  rw [getElem?_eq_none ((hlast i hi hnewest).trans hn)] at hg
  cases hg

/-- Where a lower slot is freed between two openings, the older of the two chains wins. -/
example :
    let w := watch [frag 0 1 (by decide) 0, frag 0 1 (by decide) 90000, frag 1 1 (by decide) 180000,
      frag 1 0 (by decide) 270000, frag 0 1 (by decide) 360000, frag 1 1 (by decide) 450000]
    let f : Feed := ⟨⟨1, 2, [9], by decide, by decide⟩, true, false, 1621000000, 540000, 320⟩
    ∃ a b, Matches w.ctx f a ∧ Matches w.ctx f b ∧ w.touched a < w.touched b ∧
      ((idaReassemblerFeedEx w.ctx f).1.sessions a).payload = [7, 7, 9] := by
  decide +kernel

/-- An opener and its continuation, each sent twice: the next one goes to the stale upper slot. -/
theorem stale_chain_wins :
    let w := watch [frag 0 1 (by decide) 0, frag 0 1 (by decide) 90000, frag 1 1 (by decide) 180000,
      frag 1 1 (by decide) 270000]
    let f : Feed := ⟨⟨0, 2, [9], by decide, by decide⟩, true, false, 1621000000, 360000, 320⟩
    let older : Slot := ⟨1, by decide⟩
    let newer : Slot := ⟨0, by decide⟩
    Matches w.ctx f older ∧ Matches w.ctx f newer ∧ w.touched older < w.touched newer ∧
      ((idaReassemblerFeedEx w.ctx f).1.sessions older).payload = [7, 7, 9] ∧
      ((idaReassemblerFeedEx w.ctx f).1.sessions newer).payload = [7, 7] := by
  decide +kernel

end IridiumAcars.IdaWatch
