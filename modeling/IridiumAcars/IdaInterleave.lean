import IridiumAcars.IdaIntegrity
import IridiumAcars.IdleTick
import Mathlib.Data.Fintype.EquivFin

/-! Chains that cannot be confused do not disturb each other, in any interleaving. -/
namespace IridiumAcars.IdaInterleave
open SlotTable Runs IdaReasm IdaChain IdaIntegrity List
variable {m : Nat}

inductive Item (m : Nat) where
  | frag (c : Fin m) (f : Feed)
  | reap (nowUs : Nat)

def Item.event : Item m → Event
  | .frag _ f => .feed f
  | .reap nowUs => .reap nowUs

def Item.time : Item m → Nat
  | .frag _ f => f.nowUs
  | .reap nowUs => nowUs

def Item.fragOf (c : Fin m) : Item m → Option Feed
  | .frag d f => if d = c then some f else none
  | .reap _ => none

def fragsOf (c : Fin m) (items : List (Item m)) : List Feed := items.filterMap (Item.fragOf c)

/-- A chain that is fine on its own: in sequence, at most eight fragments, continued up
to the last. -/
structure WellFormed (gs : List Feed) : Prop where
  seq : InSequence gs
  length_le : gs.length ≤ 8
  cont : gs.map (fun g => g.frag.daCont) = List.replicate (gs.length-1) 1 ++ [0]

instance (gs : List Feed) : Decidable (WellFormed gs) :=
  decidable_of_iff (InSequence gs ∧ gs.length ≤ 8 ∧
      gs.map (fun g => g.frag.daCont) = List.replicate (gs.length-1) 1 ++ [0])
    ⟨fun ⟨hs,hl,hc⟩ => ⟨hs, hl, hc⟩, fun h => ⟨h.seq, h.length_le, h.cont⟩⟩

/-- Every fragment is told from the other chains by direction or frequency. -/
def Separated (chains : Fin m → List Feed) : Prop :=
  ∀ c d, c ≠ d → (∀ f ∈ chains c, ∀ g ∈ chains d, f.uplink ≠ g.uplink) ∨
    ∀ f ∈ chains c, ∀ o ∈ (chains d).head?, ¬ NearHz f.freqHz o.freqHz

instance (chains : Fin m → List Feed) : Decidable (Separated chains) :=
  inferInstanceAs (Decidable (∀ _ _, _ → _ ∨ _))

structure Interleaves (items : List (Item m)) (chains : Fin m → List Feed) : Prop where
  frags : ∀ c, fragsOf c items = chains c
  clock : (items.map Item.time).Pairwise (· ≤ ·)

instance (items : List (Item m)) (chains : Fin m → List Feed) :
    Decidable (Interleaves items chains) :=
  decidable_of_iff ((∀ c, fragsOf c items = chains c) ∧ (items.map Item.time).Pairwise (· ≤ ·))
    ⟨fun ⟨hf,hc⟩ => ⟨hf, hc⟩, fun h => ⟨h.frags, h.clock⟩⟩

def aloneResult (gs : List Feed) : Option (Event × Outcome) := (run (gs.map .feed)).log.getLast?

/-- Every last fragment returns 1 and what its chain returns alone; nothing is orphaned. -/
def Undisturbed (items : List (Item m)) (chains : Fin m → List Feed) : Prop :=
  (∀ (n : Nat) c f, items[n]? = some (.frag c f) → f.frag.daCont = 0 →
    ∃ r, (run (items.map Item.event)).log[n]? = some (.feed f, .fed r) ∧ r.ret = 1 ∧
      aloneResult (chains c) = some (.feed f, .fed r)) ∧
  (run (items.map Item.event)).ctx.cntOrphan = 0

def WindowFits (gs : List Feed) : Prop :=
  2 ≤ gs.length → ∀ o ∈ gs.head?, o.freqHz.toNat+5000 < 2^32

theorem fragsOf_append (c : Fin m) (p q : List (Item m)) :
    fragsOf c (p++q) = fragsOf c p ++ fragsOf c q := filterMap_append

@[simp] theorem fragsOf_frag_same (c : Fin m) (f : Feed) (q : List (Item m)) :
    fragsOf c (.frag c f::q) = f::fragsOf c q := by
  simp [fragsOf, Item.fragOf]

theorem fragsOf_frag_other (c d : Fin m) (f : Feed) (q : List (Item m)) (h : d ≠ c) :
    fragsOf c (.frag d f::q) = fragsOf c q := by
  simp [fragsOf, Item.fragOf, h]

@[simp] theorem fragsOf_reap (c : Fin m) (nowUs : Nat) (q : List (Item m)) :
    fragsOf c (.reap nowUs::q) = fragsOf c q := rfl

variable {gs : List Feed}

section
variable {fs rest : List Feed} {f : Feed}

theorem WellFormed.ctr_eq (h : WellFormed (fs++f::rest)) : f.frag.daCtr = fs.length := by
  have hctr := congrArg (fun l => l[fs.length]?) h.seq.ctr
  simpa using hctr

theorem WellFormed.cont_final (h : WellFormed (fs++[f])) : f.frag.daCont = 0 := by
  have hc := congrArg (fun l => l[fs.length]?) h.cont
  simpa using hc

theorem WellFormed.cont_more {g : Feed} (h : WellFormed (fs++f::g::rest)) : f.frag.daCont = 1 := by
  have hc := congrArg (fun l => l[fs.length]?) h.cont
  have hlt : fs.length < fs.length+rest.length+1 := by omega
  simpa [getElem?_append, getElem?_replicate, hlt] using hc

theorem WellFormed.last_fragment (h : WellFormed (fs++f::rest)) (h0 : f.frag.daCont = 0) :
    rest = [] := by
  cases rest with
  | nil => rfl
  | cons g rest =>
    rw [h.cont_more] at h0
    cases h0

theorem WellFormed.ne_nil (h : WellFormed gs) : gs ≠ [] := by
  rintro rfl
  have := h.cont
  simp at this

theorem WellFormed.ne_of_continued (h : WellFormed gs)
    (hc : ∀ g ∈ fs, g.frag.daCont = 1) : fs ≠ gs := by
  rintro rfl
  cases fs using List.reverseRecOn with
  | nil => exact h.ne_nil rfl
  | append_singleton fs f =>
    have h1 := hc f (by simp)
    rw [h.cont_final] at h1
    cases h1

theorem WellFormed.hop {l : Feed} (h : WellFormed (fs++f::rest)) (hl : fs.getLast? = some l) :
    HopOk l f :=
  (isChain_append.mp h.seq.hops).2.2 l hl f rfl

end

theorem window_of_nearHz (freq opener : UInt32) (h : NearHz freq opener)
    (hfit : opener.toNat+5000 < 2^32) : windowLo opener ≤ freq ∧ freq ≤ windowHi opener := by
  have h5 : idaReasmFreqDeadbandHz.toNat = 5000 := rfl
  obtain ⟨h1,h2⟩ := h
  constructor
  · by_cases hc : opener > idaReasmFreqDeadbandHz
    · have hlt : idaReasmFreqDeadbandHz.toNat < opener.toNat := UInt32.lt_iff_toNat_lt.mp hc
      rw [windowLo, if_pos hc, UInt32.le_iff_toNat_le,
        UInt32.toNat_sub_of_le _ _ (UInt32.le_iff_toNat_le.mpr (by omega)), h5]
      omega
    · rw [windowLo, if_neg hc, UInt32.le_iff_toNat_le]
      exact Nat.zero_le _
  · rwa [windowHi, UInt32.le_iff_toNat_le, UInt32.toNat_add, h5, Nat.mod_eq_of_lt hfit]

theorem window_empty (freq opener : UInt32) (hfit : ¬ opener.toNat+5000 < 2^32) :
    ¬ (windowLo opener ≤ freq ∧ freq ≤ windowHi opener) := by
  have h5 : idaReasmFreqDeadbandHz.toNat = 5000 := rfl
  have hlt32 := opener.toNat_lt
  have hc : opener > idaReasmFreqDeadbandHz := UInt32.lt_iff_toNat_lt.mpr (by omega)
  rintro ⟨hlo,hhi⟩
  rw [windowLo, if_pos hc, UInt32.le_iff_toNat_le,
    UInt32.toNat_sub_of_le _ _ (UInt32.le_iff_toNat_le.mpr (by omega)), h5] at hlo
  rw [windowHi, UInt32.le_iff_toNat_le, UInt32.toNat_add, h5] at hhi
  omega

structure InProgress (chains : Fin m → List Feed) (p : List (Item m))
    (slots : Fin idaReasmMaxSessions → Session) (own : Fin idaReasmMaxSessions → Option (Fin m)) :
    Prop where
  idle : ∀ i, own i = none → (slots i).active = false
  grown : ∀ i c, own i = some c → Grown (fragsOf c p) (slots i)
  inj : ∀ i j c, own i = some c → own j = some c → i = j
  total : ∀ c, fragsOf c p ≠ [] → fragsOf c p ≠ chains c → ∃ i, own i = some c

def expected (gs : List Feed) (f : Feed) : FeedResult :=
  ⟨1, (chainPayload gs).take f.outCap, chainDirty gs⟩

variable {c : Fin m} {ctx : IdaReassembler}

section
variable {chains : Fin m → List Feed} {p q : List (Item m)}
  {slots : Fin idaReasmMaxSessions → Session} {own : Fin idaReasmMaxSessions → Option (Fin m)}

theorem InProgress.owner (h : InProgress chains p slots own) (i : Fin idaReasmMaxSessions)
    (ha : (slots i).active = true) : ∃ c, own i = some c := by
  cases ho : own i with
  | none =>
    rw [h.idle i ho] at ha
    cases ha
  | some c => exact ⟨c, rfl⟩

theorem Interleaves.next_frag {f : Feed} (h : Interleaves (p++.frag c f::q) chains) :
    chains c = fragsOf c p ++ f::fragsOf c q := by
  rw [← h.frags c, fragsOf_append, fragsOf_frag_same]

theorem mem_fragsOf (c : Fin m) (g : Feed) (h : g ∈ fragsOf c q) : .frag c g ∈ q := by
  obtain ⟨x,hx,he⟩ := mem_filterMap.mp h
  cases x with
  | frag d f =>
    by_cases hd : d = c
    · subst hd
      have : f = g := by simpa [Item.fragOf] using he
      rwa [← this]
    · simp [Item.fragOf, hd] at he
  | reap nowUs => simp [Item.fragOf] at he

theorem InProgress.not_due (h : InProgress chains p slots own) (hwf : ∀ c, WellFormed (chains c))
    (nowUs : Nat) (hi : Interleaves (p++.reap nowUs::q) chains) (i : Fin idaReasmMaxSessions) :
    (slots i).due nowUs = false := by
  by_contra hdue
  simp only [Bool.not_eq_false, Session.due, Bool.and_eq_true, decide_eq_true_eq] at hdue
  obtain ⟨⟨hact,-⟩,hlate⟩ := hdue
  obtain ⟨c,hc⟩ := h.owner i hact
  have hf := (h.grown i c hc).facts
  have hsplit : chains c = fragsOf c p ++ fragsOf c q := by
    rw [← hi.frags c, fragsOf_append, fragsOf_reap]
  cases hq : fragsOf c q with
  | nil =>
    rw [hq, append_nil] at hsplit
    exact (hwf c).ne_of_continued hf.cont hsplit.symm
  | cons g rest =>
    obtain ⟨l,hl,htime⟩ := hf.last
    rw [hq] at hsplit
    obtain ⟨-,hgap⟩ := (hsplit ▸ hwf c).hop hl
    have hclock : nowUs ≤ g.nowUs := by
      have hmem : (.frag c g : Item m) ∈ q := mem_fragsOf c g (by rw [hq]; simp)
      have hpw := hi.clock
      rw [map_append, map_cons, pairwise_append, pairwise_cons] at hpw
      exact hpw.2.1.1 _ (mem_map.mpr ⟨_, hmem, rfl⟩)
    unfold idaReasmFragGapUs at hgap
    unfold idaReasmSessionTimeoutUs at hlate
    omega

theorem InProgress.free_slot (h : InProgress chains p slots own) (hm : m ≤ idaReasmMaxSessions)
    (c : Fin m) (hc : fragsOf c p = []) : ∃ i, (slots i).active = false := by
  by_contra hn
  have hall : ∀ i, ∃ d, own i = some d := fun i =>
    h.owner i (by by_contra ha; exact hn ⟨i, by simpa using ha⟩)
  choose g hg using hall
  have hinj : Function.Injective g := by
    intro i j hij
    exact h.inj i j (g i) (hg i) (by rw [hij]; exact hg j)
  have hcard : Fintype.card (Fin idaReasmMaxSessions) = Fintype.card (Fin m) := by
    have := Fintype.card_le_of_injective g hinj
    simp only [Fintype.card_fin] at this ⊢
    omega
  obtain ⟨i,hi⟩ := ((Fintype.bijective_iff_injective_and_card g).mpr ⟨hinj, hcard⟩).2 c
  have hgr := (h.grown i c (by rw [hg i, hi])).facts.ne_nil
  exact hgr hc

theorem Separated.opener_eq (hsep : Separated chains) {c d : Fin m} {f o : Feed} {s : Session}
    (hf : f ∈ chains c) (ho : (chains d).head? = some o) (hup : o.uplink = s.uplink)
    (hfreq : o.freqHz = s.freqHz)
    (hacc : s.accepts f.uplink f.freqHz f.frag.daCtr f.nowUs = true) : d = c := by
  have ha := accepted_of_accepts s f hacc
  by_contra hdc
  rcases hsep c d (Ne.symm hdc) with h | h
  · apply h f hf o (mem_of_head? ho)
    rw [ha.uplink, hup]
  · apply h f hf o ho
    rw [hfreq]
    exact ha.near

theorem Interleaves.head_eq (hi : Interleaves (p++q) chains) {o : Feed}
    (ho : (fragsOf c p).head? = some o) : (chains c).head? = some o := by
  rw [← hi.frags c, fragsOf_append, head?_append, ho]
  rfl

theorem InProgress.accepts_own (h : InProgress chains p slots own)
    (hwf : ∀ c, WellFormed (chains c)) (hfit : ∀ c, WindowFits (chains c)) {f : Feed}
    (hi : Interleaves (p++.frag c f::q) chains) {i : Fin idaReasmMaxSessions}
    (ho : own i = some c) :
    (slots i).accepts f.uplink f.freqHz f.frag.daCtr f.nowUs = true := by
  have hf := (h.grown i c ho).facts
  have hsplit := hi.next_frag
  have hw : WellFormed (fragsOf c p ++ f::fragsOf c q) := hsplit ▸ hwf c
  have hmem : f ∈ fragsOf c p ++ f::fragsOf c q := by simp
  obtain ⟨o,hhead,hfreq⟩ := hf.head
  obtain ⟨l,hl,htime⟩ := hf.last
  obtain ⟨hle,hgap⟩ := hw.hop hl
  have hlen := hw.length_le
  rw [length_append, length_cons] at hlen
  have hhead' := hi.head_eq hhead
  have hpos : 0 < (fragsOf c p).length := length_pos_iff.mpr hf.ne_nil
  have hfits := hfit c (by rw [hsplit, length_append, length_cons]; omega) o hhead'
  have hnear := (hwf c).seq.near o hhead' f (by rw [hsplit]; exact hmem)
  obtain ⟨hlo,hhi⟩ := window_of_nearHz _ _ hnear hfits
  rw [accepts_iff, ← hfreq, ← htime]
  refine ⟨hf.active, ?_, ?_, hle, hgap, hlo, hhi⟩
  · have hmo : o ∈ fragsOf c p := mem_of_head? hhead
    rw [← hf.uplink o hmo]
    exact hw.seq.uplink o (mem_append_left _ hmo) f hmem
  · rw [hw.ctr_eq, hf.nextCtr, Nat.mod_eq_of_lt (by omega)]

theorem InProgress.accepts_only (h : InProgress chains p slots own) (hsep : Separated chains)
    {f : Feed} (hi : Interleaves (p++.frag c f::q) chains) {j : Fin idaReasmMaxSessions}
    (hacc : (slots j).accepts f.uplink f.freqHz f.frag.daCtr f.nowUs = true) :
    own j = some c := by
  obtain ⟨d,hd⟩ := h.owner j (accepted_of_accepts _ f hacc).active
  have hf := (h.grown j d hd).facts
  obtain ⟨o,hhead,hfreq⟩ := hf.head
  have hmem : f ∈ chains c := by
    rw [hi.next_frag]
    simp
  have := hsep.opener_eq hmem (hi.head_eq hhead) (hf.uplink o (mem_of_head? hhead)) hfreq hacc
  rw [hd, this]

theorem fragsOf_snoc_other (c d : Fin m) (f : Feed) (h : c ≠ d) :
    fragsOf d (p++[.frag c f]) = fragsOf d p := by
  rw [fragsOf_append, fragsOf_frag_other d c f [] h]
  exact append_nil _

theorem fragsOf_snoc_same (c : Fin m) (f : Feed) :
    fragsOf c (p++[.frag c f]) = fragsOf c p ++ [f] := by
  rw [fragsOf_append, fragsOf_frag_same]
  rfl

theorem InProgress.step (h : InProgress chains p slots own) {f : Feed}
    (i : Fin idaReasmMaxSessions) (s : Session) (o : Option (Fin m))
    (hown : own i = some c ∨ own i = none ∧ ∀ j, own j ≠ some c)
    (hidle : o = none → s.active = false ∧ fragsOf c p ++ [f] = chains c)
    (hheld : ∀ d, o = some d → d = c ∧ Grown (fragsOf c p ++ [f]) s) :
    InProgress chains (p++[.frag c f]) (setSlot slots i s) (setSlot own i o) := by
  have hno : ∀ j, j ≠ i → own j ≠ some c := by
    intro j hj hjc
    rcases hown with hi | ⟨-,hi⟩
    · exact hj (h.inj j i c hjc hi)
    · exact hi j hjc
  refine ⟨?_, ?_, ?_, ?_⟩
  · intro j hj
    by_cases hji : j = i
    · subst hji
      rw [setSlot_same] at hj ⊢
      exact (hidle hj).1
    · rw [setSlot_other _ _ _ _ hji] at hj ⊢
      exact h.idle j hj
  · intro j d hj
    by_cases hji : j = i
    · subst hji
      rw [setSlot_same] at hj ⊢
      obtain ⟨rfl,hg⟩ := hheld d hj
      rwa [fragsOf_snoc_same]
    · rw [setSlot_other _ _ _ _ hji] at hj ⊢
      have hcd : c ≠ d := by
        rintro rfl
        exact hno j hji hj
      rw [fragsOf_snoc_other c d f hcd]
      exact h.grown j d hj
  · intro j k d hj hk
    by_cases hji : j = i
    · by_cases hki : k = i
      · rw [hji, hki]
      · subst hji
        rw [setSlot_same] at hj
        rw [setSlot_other _ _ _ _ hki] at hk
        obtain ⟨rfl,-⟩ := hheld d hj
        exact absurd hk (hno k hki)
    · by_cases hki : k = i
      · subst hki
        rw [setSlot_same] at hk
        rw [setSlot_other _ _ _ _ hji] at hj
        obtain ⟨rfl,-⟩ := hheld d hk
        exact absurd hj (hno j hji)
      · rw [setSlot_other _ _ _ _ hji] at hj
        rw [setSlot_other _ _ _ _ hki] at hk
        exact h.inj j k d hj hk
  · intro d hne hpart
    by_cases hcd : c = d
    · subst hcd
      rw [fragsOf_snoc_same] at hpart
      cases ho : o with
      | none => exact absurd (hidle ho).2 hpart
      | some d =>
        obtain ⟨rfl,-⟩ := hheld d ho
        exact ⟨i, by rw [setSlot_same]⟩
    · rw [fragsOf_snoc_other c d f hcd] at hne hpart
      obtain ⟨j,hj⟩ := h.total d hne hpart
      have hji : j ≠ i := by
        rintro rfl
        rcases hown with hi | ⟨hi,-⟩
        · rw [hi] at hj
          exact hcd (Option.some.inj hj)
        · rw [hi] at hj
          cases hj
      exact ⟨j, by rw [setSlot_other _ _ _ _ hji, hj]⟩

theorem InProgress.no_overflow (h : InProgress chains p slots own)
    (hwf : ∀ c, WellFormed (chains c)) {f : Feed}
    (hi : Interleaves (p++.frag c f::q) chains) {i : Fin idaReasmMaxSessions}
    (ho : own i = some c) :
    ¬ f.frag.payload.length > idaReasmMaxBytes-(slots i).payload.length := by
  have hlen := (hwf c).length_le
  rw [hi.next_frag, length_append, length_cons] at hlen
  have hpay := length_chainPayload_le (fragsOf c p)
  have hf := f.frag.len_le
  rw [(h.grown i c ho).facts.payload]
  unfold idaReasmMaxBytes
  omega

theorem InProgress.reap (h : InProgress chains p slots own) (nowUs : Nat) :
    InProgress chains (p++[.reap nowUs]) slots own := by
  have hsame (c : Fin m) : fragsOf c (p++[.reap nowUs]) = fragsOf c p := by
    rw [fragsOf_append, fragsOf_reap]
    exact append_nil _
  refine ⟨h.idle, ?_, h.inj, ?_⟩
  · intro i c hc
    rw [hsame]
    exact h.grown i c hc
  · intro c hne hpart
    rw [hsame] at hne hpart
    exact h.total c hne hpart

theorem InProgress.standalone (h : InProgress chains p slots own) {f : Feed}
    (hnil : fragsOf c p = []) (hall : [f] = chains c) :
    InProgress chains (p++[.frag c f]) slots own := by
  have hno (i : Fin idaReasmMaxSessions) : own i ≠ some c := fun hi =>
    (h.grown i c hi).facts.ne_nil hnil
  refine ⟨h.idle, ?_, h.inj, ?_⟩
  · intro i d hd
    have hcd : c ≠ d := by
      rintro rfl
      exact hno i hd
    rw [fragsOf_snoc_other c d f hcd]
    exact h.grown i d hd
  · intro d hne hpart
    by_cases hcd : c = d
    · subst hcd
      rw [fragsOf_snoc_same, hnil] at hpart
      exact absurd hall hpart
    · rw [fragsOf_snoc_other c d f hcd] at hne hpart
      exact h.total d hne hpart

theorem InProgress.feed (h : InProgress chains p ctx.sessions own)
    (hm : m ≤ idaReasmMaxSessions) (hwf : ∀ c, WellFormed (chains c)) (hsep : Separated chains)
    (hfit : ∀ c, WindowFits (chains c)) {f : Feed}
    (hi : Interleaves (p++.frag c f::q) chains) :
    (∃ own', InProgress chains (p++[.frag c f]) (idaReassemblerFeedEx ctx f).1.sessions own') ∧
    (idaReassemblerFeedEx ctx f).1.cntOrphan = ctx.cntOrphan ∧
    (f.frag.daCont = 0 → (idaReassemblerFeedEx ctx f).2 = expected (chains c) f) := by
  have hsplit := hi.next_frag
  have hw : WellFormed (fragsOf c p ++ f::fragsOf c q) := hsplit ▸ hwf c
  have hlen := hw.ctr_eq
  have hlast (h0 : f.frag.daCont = 0) : chains c = fragsOf c p ++ [f] := by
    rw [hsplit, hw.last_fragment h0]
  have hstep := feedEx_step ctx f
  generalize (idaReassemblerFeedEx ctx f).1.sessions = slots at hstep ⊢
  generalize (idaReassemblerFeedEx ctx f).1.cntOrphan = orphans at hstep ⊢
  generalize (idaReassemblerFeedEx ctx f).2 = r at hstep ⊢
  cases hstep with
  | standalone hctr hcont =>
    have hnil : fragsOf c p = [] := length_eq_zero_iff.mp (by omega)
    have hall : chains c = [f] := by simpa [hnil] using hlast hcont
    refine ⟨⟨own, h.standalone hnil hall.symm⟩, rfl, fun _ => ?_⟩
    simp [expected, hall, chainPayload, chainDirty]
  | tableFull hctr hcont hfull =>
    obtain ⟨i,hfree⟩ := h.free_slot hm c (length_eq_zero_iff.mp (by omega))
    rw [hfull i] at hfree
    cases hfree
  | opened i hctr hcont hfree =>
    have hnil : fragsOf c p = [] := length_eq_zero_iff.mp (by omega)
    have hown : own i = none := by
      cases ho : own i with
      | none => rfl
      | some d =>
        have := (h.grown i d ho).facts.active
        rw [hfree] at this
        cases this
    have hno (j : Fin idaReasmMaxSessions) : own j ≠ some c := fun hj =>
      (h.grown j c hj).facts.ne_nil hnil
    refine ⟨⟨_, h.step i _ (some c) (Or.inr ⟨hown, hno⟩) (by intro ho; cases ho) ?_⟩, rfl,
      fun h0 => by omega⟩
    intro d hd
    rw [hnil]
    exact ⟨(Option.some.inj hd).symm, .opener f hctr hcont⟩
  | orphan hctr hnone =>
    have hne : fragsOf c p ≠ [] := length_pos_iff.mp (by omega)
    obtain ⟨i,ho⟩ := h.total c hne (by rw [hsplit]; simp)
    have hacc := h.accepts_own hwf hfit hi ho
    rw [hnone i] at hacc
    cases hacc
  | overflow i hctr hacc hlong =>
    exact absurd hlong (h.no_overflow hwf hi (h.accepts_only hsep hi hacc))
  | completed i hctr hcont hacc hlong =>
    have ho := h.accepts_only hsep hi hacc
    have hf := (h.grown i c ho).facts
    refine ⟨⟨_, h.step i _ none (Or.inl ho) (fun _ => ⟨rfl, (hlast hcont).symm⟩)
      (by intro d hd; cases hd)⟩, rfl, fun _ => ?_⟩
    rw [expected, hlast hcont, chainPayload_snoc, chainDirty_snoc _ f hf.ne_nil, ← hf.payload,
      ← hf.dirty]
    rfl
  | extended i hctr hcont hacc hlong =>
    have ho := h.accepts_only hsep hi hacc
    refine ⟨⟨_, h.step i _ (some c) (Or.inl ho) (by intro hn; cases hn) ?_⟩, rfl,
      fun h0 => by omega⟩
    intro d hd
    exact ⟨(Option.some.inj hd).symm, .extend _ _ f (h.grown i c ho) hctr hcont hacc hlong⟩

end

theorem run_snoc (es : List Event) (e : Event) : run (es++[e]) = (run es).next react e :=
  runFrom_snoc react .init es e

theorem inProgress_run {chains : Fin m → List Feed} (hm : m ≤ idaReasmMaxSessions)
    (hwf : ∀ c, WellFormed (chains c)) (hsep : Separated chains)
    (hfit : ∀ c, WindowFits (chains c)) (p q : List (Item m)) (hi : Interleaves (p++q) chains) :
    (∃ own, InProgress chains p (run (p.map Item.event)).ctx.sessions own) ∧
    (run (p.map Item.event)).ctx.cntOrphan = 0 ∧
    ∀ (n : Nat) c f, p[n]? = some (.frag c f) → f.frag.daCont = 0 →
      (run (p.map Item.event)).log[n]? = some (.feed f, .fed (expected (chains c) f)) := by
  induction p using List.reverseRecOn generalizing q with
  | nil =>
    refine ⟨⟨fun _ => none, ?_⟩, rfl, by simp⟩
    exact ⟨fun _ _ => rfl, by simp, by simp, by intro c hne; simp [fragsOf] at hne⟩
  | append_singleton p x ih =>
    rw [append_assoc, singleton_append] at hi
    obtain ⟨⟨own,hp⟩,horphan,hlog⟩ := ih (x::q) hi
    have hlen : (run (p.map Item.event)).log.length = p.length := by
      rw [run, length_runFrom, length_map]
    have hold (y : Event × Outcome) (n : Nat) (c : Fin m) (f : Feed) (hn : n < p.length)
        (hx : p[n]? = some (.frag c f)) (h0 : f.frag.daCont = 0) :
        ((run (p.map Item.event)).log++[y])[n]? =
          some (.feed f, .fed (expected (chains c) f)) := by
      rw [getElem?_append_left (by omega)]
      exact hlog n c f hx h0
    rw [map_append, map_singleton, run_snoc]
    cases x with
    | frag c f =>
      obtain ⟨hnext,hcount,hres⟩ := hp.feed hm hwf hsep hfit hi
      refine ⟨hnext, by rw [← horphan]; exact hcount, ?_⟩
      intro n d g hx h0
      rcases getElem?_snoc_cases p _ _ n hx with ⟨hn,hg⟩ | ⟨rfl,hg⟩
      · exact hold _ n d g hn hg h0
      · cases hg
        change ((run (p.map Item.event)).log ++ [_])[p.length]? = _
        rw [← hlen, getElem?_concat_length, ← hres h0]
        rfl
    | reap nowUs =>
      obtain ⟨hstep,hcount⟩ := reap_step (run (p.map Item.event)).ctx nowUs
      refine ⟨⟨own, ?_⟩, by rw [← horphan]; exact hcount, ?_⟩
      · change InProgress chains _ (idaReassemblerReap _ nowUs).1.sessions own
        generalize (idaReassemblerReap (run (p.map Item.event)).ctx nowUs).1.sessions = slots
          at hstep ⊢
        generalize (idaReassemblerReap (run (p.map Item.event)).ctx nowUs).2 = r at hstep
        cases hstep with
        | notDue hnot => exact hp.reap nowUs
        | reaped i hdue =>
          rw [hp.not_due hwf nowUs hi i] at hdue
          cases hdue
      · intro n d g hx h0
        rcases getElem?_snoc_cases p _ _ n hx with ⟨hn,hg⟩ | ⟨rfl,hg⟩
        · exact hold _ n d g hn hg h0
        · cases hg

theorem fragsOf_alone (gs : List Feed) (c : Fin 1) :
    fragsOf c (gs.map (.frag (0 : Fin 1))) = gs := by
  have hc : c = 0 := Subsingleton.elim _ _
  subst hc
  induction gs with
  | nil => rfl
  | cons g gs ih => rw [map_cons, fragsOf_frag_same, ih]

theorem alone_interleaves (h : WellFormed gs) :
    Interleaves (gs.map (.frag (0 : Fin 1))) fun _ => gs := by
  have hmono : (gs.map (fun g => g.nowUs)).Pairwise (· ≤ ·) := by
    rw [← isChain_iff_pairwise, isChain_map]
    exact h.seq.hops.imp fun _ _ hop => hop.1
  exact ⟨fragsOf_alone gs, by rwa [map_map]⟩

theorem alone_expected (h : WellFormed gs) (hfit : WindowFits gs) {f : Feed}
    (hf : f ∈ gs) (h0 : f.frag.daCont = 0) :
    aloneResult gs = some (.feed f, .fed (expected gs f)) := by
  obtain ⟨fs,rest,rfl⟩ := append_of_mem hf
  have hrest := h.last_fragment h0
  subst hrest
  have hsep : Separated fun _ : Fin 1 => fs++[f] := fun c d hcd =>
    absurd (Subsingleton.elim c d) hcd
  have hi : Interleaves ((fs++[f]).map (.frag (0 : Fin 1)) ++ []) fun _ => fs++[f] := by
    rw [append_nil]
    exact alone_interleaves h
  obtain ⟨-,-,hlog⟩ := inProgress_run (by decide) (fun _ => h) hsep (fun _ => hfit) _ _ hi
  have hev : ((fs++[f]).map (.frag (0 : Fin 1))).map Item.event = (fs++[f]).map .feed := by
    rw [map_map]
    rfl
  rw [hev] at hlog
  rw [aloneResult, getLast?_eq_getElem?, run, length_runFrom]
  exact hlog _ 0 f (by simp) h0

variable {items : List (Item m)}

theorem undisturbed_of_fits {chains : Fin m → List Feed} (hm : m ≤ idaReasmMaxSessions)
    (hwf : ∀ c, WellFormed (chains c)) (hsep : Separated chains)
    (hfit : ∀ c, WindowFits (chains c)) (hi : Interleaves items chains) :
    Undisturbed items chains := by
  obtain ⟨-,horphan,hlog⟩ := inProgress_run hm hwf hsep hfit items [] (by rwa [append_nil])
  refine ⟨?_, horphan⟩
  intro n c f hx h0
  have hmem : f ∈ chains c := by
    rw [← hi.frags c]
    exact mem_filterMap.mpr ⟨_, mem_of_getElem? hx, by simp [Item.fragOf]⟩
  exact ⟨_, hlog n c f hx h0, rfl, alone_expected (hwf c) (hfit c) hmem h0⟩

/-- The keys `reasm_freq_key_hz` makes are far below the wrap of the window. -/
theorem windowFits_of_keys
    (h : ∀ f ∈ gs, ∃ bin, f.freqHz = DecoderTask.reasmFreqKeyHz bin) : WindowFits gs := by
  intro _ o ho
  obtain ⟨bin,hkey⟩ := h o (mem_of_mem_head? ho)
  have hle := DecoderTask.reasmFreqKeyHz_le bin
  rw [hkey]
  omega

theorem admitted_chains_undisturbed {chains : Fin m → List Feed} (hm : m ≤ idaReasmMaxSessions)
    (hwf : ∀ c, WellFormed (chains c)) (hsep : Separated chains)
    (hfed : ∀ c, ∀ f ∈ chains c, ∃ best it, DecoderTask.admitted best it = some f)
    (hi : Interleaves items chains) : Undisturbed items chains := by
  refine undisturbed_of_fits hm hwf hsep (fun c => windowFits_of_keys fun f hf => ?_) hi
  obtain ⟨best,it,hit⟩ := hfed c f hf
  cases hida : it.ida with
  | none => simp [DecoderTask.admitted, hida] at hit
  | some ida =>
    simp only [DecoderTask.admitted, hida] at hit
    split at hit
    · exact ⟨it.peakBin, congrArg Feed.freqHz (Option.some.inj hit).symm⟩
    · cases hit

def OpenedBy (chains : Fin m → List Feed) (slots : Fin idaReasmMaxSessions → Session) : Prop :=
  ∀ i, (slots i).active = true → ∃ d o, (chains d).head? = some o ∧ o.uplink = (slots i).uplink ∧
    o.freqHz = (slots i).freqHz

section
variable {chains : Fin m → List Feed} {slots : Fin idaReasmMaxSessions → Session}

theorem OpenedBy.set (h : OpenedBy chains slots) (i : Fin idaReasmMaxSessions) (s : Session)
    (hs : s.active = true → ∃ d o, (chains d).head? = some o ∧ o.uplink = s.uplink ∧
      o.freqHz = s.freqHz) : OpenedBy chains (setSlot slots i s) := by
  intro j hj
  by_cases hji : j = i
  · subst hji
    rw [setSlot_same] at hj ⊢
    exact hs hj
  · rw [setSlot_other _ _ _ _ hji] at hj ⊢
    exact h j hj

theorem OpenedBy.feed (h : OpenedBy chains ctx.sessions)
    (hwf : ∀ c, WellFormed (chains c)) {f : Feed} {p q : List (Item m)}
    (hi : Interleaves (p++.frag c f::q) chains) :
    OpenedBy chains (idaReassemblerFeedEx ctx f).1.sessions := by
  have hsplit := hi.next_frag
  have hstep := feedEx_step ctx f
  generalize (idaReassemblerFeedEx ctx f).1.sessions = slots at hstep ⊢
  generalize (idaReassemblerFeedEx ctx f).1.cntOrphan = orphans at hstep
  generalize (idaReassemblerFeedEx ctx f).2 = r at hstep
  cases hstep with
  | standalone hctr hcont => exact h
  | tableFull hctr hcont hfull => exact h
  | opened i hctr hcont hfree =>
    refine h.set i _ fun _ => ⟨c, f, ?_, rfl, rfl⟩
    have hlen := (hsplit ▸ hwf c : WellFormed (fragsOf c p ++ f::fragsOf c q)).ctr_eq
    have hnil : fragsOf c p = [] := length_eq_zero_iff.mp (by omega)
    rw [hsplit, hnil]
    rfl
  | orphan hctr hnone => exact h
  | overflow i hctr hacc hlong | completed i hctr hcont hacc hlong =>
    exact h.set i _ fun ha => by cases ha
  | extended i hctr hcont hacc hlong => exact h.set i _ fun ha => h i ha

theorem OpenedBy.reap (h : OpenedBy chains ctx.sessions) (nowUs : Nat) :
    OpenedBy chains (idaReassemblerReap ctx nowUs).1.sessions := by
  have hstep := (reap_step ctx nowUs).1
  generalize (idaReassemblerReap ctx nowUs).1.sessions = slots at hstep ⊢
  generalize (idaReassemblerReap ctx nowUs).2 = r at hstep
  cases hstep with
  | notDue hnot => exact h
  | reaped i hdue => exact h.set i _ fun ha => by cases ha

theorem openedBy_run (hwf : ∀ c, WellFormed (chains c)) (p q : List (Item m))
    (hi : Interleaves (p++q) chains) :
    OpenedBy chains (run (p.map Item.event)).ctx.sessions := by
  induction p using List.reverseRecOn generalizing q with
  | nil =>
    intro i ha
    cases ha
  | append_singleton p x ih =>
    rw [append_assoc, singleton_append] at hi
    have hp := ih (x::q) hi
    rw [map_append, map_singleton, run_snoc]
    cases x with
    | frag c f => exact hp.feed hwf hi
    | reap nowUs => exact hp.reap nowUs

end

theorem orphan_le_next (t : Trace IdaReassembler Event Outcome) (e : Event) :
    t.ctx.cntOrphan ≤ (t.next react e).ctx.cntOrphan := by
  cases e with
  | feed f =>
    have hstep := feedEx_step t.ctx f
    change _ ≤ (idaReassemblerFeedEx t.ctx f).1.cntOrphan
    generalize (idaReassemblerFeedEx t.ctx f).1.sessions = slots at hstep
    generalize (idaReassemblerFeedEx t.ctx f).1.cntOrphan = orphans at hstep ⊢
    generalize (idaReassemblerFeedEx t.ctx f).2 = r at hstep
    cases hstep <;> omega
  | reap nowUs => exact Nat.le_of_eq (reap_step t.ctx nowUs).2.symm

theorem orphan_le_run (es fs : List Event) :
    (run es).ctx.cntOrphan ≤ (run (es++fs)).ctx.cntOrphan := by
  induction fs using List.reverseRecOn with
  | nil => rw [append_nil]
  | append_singleton fs f ih =>
    rw [← append_assoc, run_snoc]
    exact le_trans ih (orphan_le_next _ f)

theorem orphaned_of_wrap {chains : Fin m → List Feed} (hwf : ∀ c, WellFormed (chains c))
    (hsep : Separated chains) (hi : Interleaves items chains)
    {o g : Feed} {rest : List Feed} (hc : chains c = o::g::rest)
    (hwrap : ¬ o.freqHz.toNat+5000 < 2^32) : 0 < (run (items.map Item.event)).ctx.cntOrphan := by
  have hmem : g ∈ chains c := by
    rw [hc]
    simp
  have hw : WellFormed ([o]++g::rest) := by
    rw [singleton_append, ← hc]
    exact hwf c
  have hctr : g.frag.daCtr = 1 := hw.ctr_eq
  obtain ⟨p,q,rfl⟩ := append_of_mem (mem_fragsOf c g (by rw [hi.frags c]; exact hmem))
  have hopen := openedBy_run hwf p _ hi
  have hnone (i : Fin idaReasmMaxSessions) : ((run (p.map Item.event)).ctx.sessions i).accepts
      g.uplink g.freqHz g.frag.daCtr g.nowUs ≠ true := by
    intro hacc
    obtain ⟨d,o',ho,hup,hfreq⟩ := hopen i (accepted_of_accepts _ g hacc).active
    have hdc := hsep.opener_eq hmem ho hup hfreq hacc
    rw [hdc, hc] at ho
    cases ho
    obtain ⟨-,-,-,-,-,hwin⟩ := (accepts_iff _ g).mp hacc
    rw [← hfreq] at hwin
    exact window_empty _ _ hwrap hwin
  have hone : 0 < ((run (p.map Item.event)).next react (.feed g)).ctx.cntOrphan := by
    have hstep := feedEx_step (run (p.map Item.event)).ctx g
    change 0 < (idaReassemblerFeedEx (run (p.map Item.event)).ctx g).1.cntOrphan
    generalize (idaReassemblerFeedEx (run (p.map Item.event)).ctx g).1.sessions = slots at hstep
    generalize (idaReassemblerFeedEx (run (p.map Item.event)).ctx g).1.cntOrphan = orphans
      at hstep ⊢
    generalize (idaReassemblerFeedEx (run (p.map Item.event)).ctx g).2 = r at hstep
    cases hstep with
    | orphan _ _ => omega
    | overflow i _ hacc _ | completed i _ _ hacc _ | extended i _ _ hacc _ =>
      exact absurd hacc (hnone i)
    | _ => omega
  rw [← run_snoc] at hone
  have hle := orphan_le_run (p.map Item.event ++ [.feed g]) (q.map Item.event)
  rw [append_assoc, singleton_append] at hle
  rw [map_append, map_cons]
  exact lt_of_lt_of_le hone hle

/-- Up to four chains pass every interleaving iff no opener's window wraps. -/
theorem ida_chains_undisturbed_iff (chains : Fin m → List Feed) (items : List (Item m))
    (hm : m ≤ idaReasmMaxSessions) (hwf : ∀ c, WellFormed (chains c)) (hsep : Separated chains)
    (hi : Interleaves items chains) :
    Undisturbed items chains ↔ ∀ c, WindowFits (chains c) := by
  constructor
  · intro hu c hlen o ho
    by_contra hwrap
    cases hc : chains c with
    | nil =>
      rw [hc] at ho
      cases ho
    | cons o' rest =>
      rw [hc] at ho hlen
      cases ho
      cases rest with
      | nil => simp at hlen
      | cons g rest =>
        have := orphaned_of_wrap hwf hsep hi hc hwrap
        rw [hu.2] at this
        exact absurd this (lt_irrefl 0)
  · intro hfit
    exact undisturbed_of_fits hm hwf hsep hfit hi

def wovenChains : Fin 2 → List Feed
  | 0 => [⟨fragment true 0 [1,2], true, false, 1621000000, 10, 320⟩,
      ⟨fragment false 1 [3], false, false, 1621000300, 90010, 320⟩]
  | 1 => [⟨fragment true 0 [7], true, true, 1621000000, 20, 320⟩,
      ⟨fragment false 1 [8,9], true, true, 1620999000, 90020, 320⟩]

local instance twoChains : NeZero 2 := ⟨by decide⟩

def wovenItems : List (Item 2) :=
  [.frag 0 ⟨fragment true 0 [1,2], true, false, 1621000000, 10, 320⟩,
   .frag 1 ⟨fragment true 0 [7], true, true, 1621000000, 20, 320⟩,
   .reap 90000,
   .frag 0 ⟨fragment false 1 [3], false, false, 1621000300, 90010, 320⟩,
   .frag 1 ⟨fragment false 1 [8,9], true, true, 1620999000, 90020, 320⟩]

theorem ida_chains_undisturbed_woven :
    (∀ c, WellFormed (wovenChains c)) ∧ Separated wovenChains ∧
      Interleaves wovenItems wovenChains ∧ Undisturbed wovenItems wovenChains := by
  have hwf : ∀ c, WellFormed (wovenChains c) := by decide
  have hsep : Separated wovenChains := by decide
  have hi : Interleaves wovenItems wovenChains := by decide
  have hfit : ∀ c, WindowFits (wovenChains c) := by unfold WindowFits; decide
  exact ⟨hwf, hsep, hi,
    (ida_chains_undisturbed_iff wovenChains wovenItems (by decide) hwf hsep hi).mpr hfit⟩

def topChain : Fin 1 → List Feed := fun _ =>
  [⟨fragment true 0 [1,2], true, false, 4294967295, 10, 320⟩,
   ⟨fragment false 1 [3], true, false, 4294967295, 90010, 320⟩]

theorem ida_top_frequency_orphaned :
    (∀ c, WellFormed (topChain c)) ∧ Separated topChain ∧
      Interleaves ((topChain 0).map (.frag 0)) topChain ∧
      ¬ Undisturbed ((topChain 0).map (.frag 0)) topChain := by
  refine ⟨by decide, by decide, by decide, ?_⟩
  intro hu
  have horphan :
      (run (((topChain 0).map (.frag (0 : Fin 1))).map Item.event)).ctx.cntOrphan = 1 := by rfl
  rw [hu.2] at horphan
  cases horphan

end IridiumAcars.IdaInterleave
