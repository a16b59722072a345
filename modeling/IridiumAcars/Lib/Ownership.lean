import Mathlib.Data.List.Nodup
import Mathlib.Data.List.Range

/-! Every event has one owner: nobody, a slot, or the later event that took its chain. -/
namespace IridiumAcars.Ownership
open List Function

inductive Owner (κ : Type*) where
  | free
  | held (slot : κ)
  | spent (closing : Nat)
deriving DecidableEq

variable {κ α : Type*} [DecidableEq κ]

def Owner.release (p : κ → Bool) : Owner κ → Owner κ
  | .held i => if p i then .free else .held i
  | .free => .free
  | .spent n => .spent n

/-- Owners of the events numbered below `size`; a closing owns earlier events only. -/
structure Ledger (κ : Type*) where
  size : Nat
  owner : Nat → Owner κ
  free_beyond : ∀ k, size ≤ k → owner k = .free
  spent_lt : ∀ k n, owner k = .spent n → k < n ∧ n < size

namespace Ledger

def empty : Ledger κ where
  size := 0
  owner := fun _ => .free
  free_beyond := fun _ _ => rfl
  spent_lt := by intro k n h; cases h

def chain (L : Ledger κ) (o : Owner κ) : List Nat :=
  (List.range L.size).filter fun k => decide (L.owner k = o)

def assign (L : Ledger κ) (o : Owner κ) (ho : ∀ n, o ≠ .spent n) : Ledger κ where
  size := L.size+1
  owner := fun k => if k = L.size then o else L.owner k
  free_beyond := by
    intro k hk
    rw [if_neg (by omega)]
    exact L.free_beyond k (by omega)
  spent_lt := by
    intro k n h
    split_ifs at h with hk
    · exact absurd h (ho n)
    · have := L.spent_lt k n h
      omega

def drop (L : Ledger κ) (p : κ → Bool) : Ledger κ where
  size := L.size
  owner := fun k => (L.owner k).release p
  free_beyond := by
    intro k hk
    rw [L.free_beyond k hk]
    rfl
  spent_lt := by
    intro k n h
    cases ho : L.owner k with
    | free =>
      rw [ho] at h
      cases h
    | held i =>
      rw [ho, Owner.release] at h
      split at h <;> cases h
    | spent m =>
      rw [ho] at h
      cases h
      exact L.spent_lt k n ho

def close (L : Ledger κ) (i : κ) : Ledger κ where
  size := L.size+1
  owner := fun k => if L.owner k = .held i then .spent L.size else L.owner k
  free_beyond := by
    intro k hk
    have hf := L.free_beyond k (by omega)
    rw [if_neg (by rw [hf]; intro hn; cases hn), hf]
  spent_lt := by
    intro k n h
    split_ifs at h with hk
    · cases h
      refine ⟨?_, Nat.lt_succ_self _⟩
      by_contra hge
      rw [L.free_beyond k (by omega)] at hk
      cases hk
    · have := L.spent_lt k n h
      omega

variable (L : Ledger κ)

variable (o : Owner κ)

theorem mem_chain (k : Nat) :
    k ∈ L.chain o ↔ k < L.size ∧ L.owner k = o := by
  simp [chain]

theorem chain_sorted : (L.chain o).Pairwise (· < ·) :=
  pairwise_lt_range.filter _

theorem chain_disjoint (a b : Owner κ) (h : a ≠ b) :
    (L.chain a).Disjoint (L.chain b) := by
  intro k ha hb
  rw [mem_chain] at ha hb
  exact h (ha.2.symm.trans hb.2)

theorem chain_spent_nil (n : Nat) (h : L.size ≤ n) : L.chain (.spent n) = [] := by
  rw [eq_nil_iff_forall_not_mem]
  intro k hk
  rw [mem_chain] at hk
  have := (L.spent_lt k n hk.2).2
  omega

theorem chain_assign_self (ho : ∀ n, o ≠ .spent n) :
    (L.assign o ho).chain o = L.chain o ++ [L.size] := by
  rw [chain, assign, range_succ, filter_append]
  congr 1
  · apply filter_congr
    intro k hk
    have : k ≠ L.size := by
      have := mem_range.mp hk
      omega
    simp [this]
  · simp

theorem chain_assign_other (o o' : Owner κ) (ho : ∀ n, o ≠ .spent n) (h : o ≠ o') :
    (L.assign o ho).chain o' = L.chain o' := by
  have hlast : List.filter (fun k => decide ((if k = L.size then o else L.owner k) = o'))
      [L.size] = [] := by simp [h]
  rw [chain, assign, range_succ, filter_append, hlast, append_nil]
  apply filter_congr
  intro k hk
  have : k ≠ L.size := by
    have := mem_range.mp hk
    omega
  simp [this]

theorem chain_drop_self (p : κ → Bool) (i : κ) (hi : p i = true) :
    (L.drop p).chain (.held i) = [] := by
  rw [eq_nil_iff_forall_not_mem]
  intro k hk
  have ho : (L.owner k).release p = .held i := (((L.drop p).mem_chain _ k).mp hk).2
  cases hown : L.owner k with
  | free | spent n =>
    rw [hown] at ho
    cases ho
  | held j =>
    by_cases hj : p j
    · simp [hown, Owner.release, hj] at ho
    · simp only [hown, Owner.release, hj, Bool.false_eq_true, if_false, Owner.held.injEq] at ho
      subst ho
      exact hj hi

theorem chain_drop_other (p : κ → Bool) (o : Owner κ) (hi : ∀ i, p i = true → o ≠ .held i)
    (hf : o ≠ .free) : (L.drop p).chain o = L.chain o := by
  apply filter_congr
  intro k _
  have hiff : (L.owner k).release p = o ↔ L.owner k = o := by
    cases hown : L.owner k with
    | free => rfl
    | held j =>
      by_cases hj : p j
      · simp [Owner.release, hj, hf.symm, (hi j hj).symm]
      · simp [Owner.release, hj]
    | spent n => rfl
  simp only [drop, hiff]

omit [DecidableEq κ] in
theorem owner_size : L.owner L.size = .free := L.free_beyond _ (le_refl _)

theorem chain_close_new (i : κ) :
    (L.close i).chain (.spent L.size) = L.chain (.held i) := by
  rw [chain, close, range_succ, filter_append]
  have hlast : List.filter (fun k => decide ((if L.owner k = .held i then .spent L.size
      else L.owner k) = .spent L.size)) [L.size] = [] := by simp [owner_size]
  rw [hlast, append_nil]
  apply filter_congr
  intro k _
  by_cases hk : L.owner k = .held i
  · simp [hk]
  · have hne : L.owner k ≠ .spent L.size := fun h => by
      have := L.spent_lt k _ h
      omega
    simp [hk, hne]

theorem chain_close_self (i : κ) : (L.close i).chain (.held i) = [] := by
  rw [eq_nil_iff_forall_not_mem]
  intro k hk
  have ho := ((L.close i).mem_chain _ k).mp hk
  by_cases ha : L.owner k = .held i
  · simp [close, ha] at ho
  · simp [close, ha] at ho

theorem chain_close_other (i : κ) (o : Owner κ) (hi : o ≠ .held i) (hn : o ≠ .spent L.size)
    (hf : o ≠ .free) : (L.close i).chain o = L.chain o := by
  rw [chain, close, range_succ, filter_append]
  have hlast : List.filter (fun k => decide ((if L.owner k = .held i then .spent L.size
      else L.owner k) = o)) [L.size] = [] := by simp [owner_size, hf.symm]
  rw [hlast, append_nil]
  apply filter_congr
  intro k _
  by_cases hk : L.owner k = .held i
  · simp [hk, hi.symm, hn.symm]
  · simp [hk]

theorem chain_spent_lt (n k : Nat) (h : k ∈ L.chain (.spent n)) : k < n :=
  (L.spent_lt k n ((L.mem_chain _ k).mp h).2).1

def entries (L : Ledger κ) (log : List α) (o : Owner κ) : List α :=
  (L.chain o).filterMap fun k => log[k]?

theorem map_chain (log : List α) (o : Owner κ) (hs : L.size = log.length) :
    (L.chain o).map (fun k => log[k]?) = (L.entries log o).map some := by
  have hall : ∀ ids : List Nat, (∀ k ∈ ids, k < log.length) →
      ids.map (fun k => log[k]?) = (ids.filterMap fun k => log[k]?).map some := by
    intro ids
    induction ids with
    | nil => simp
    | cons k ids ih =>
      intro hk
      have hlt := hk k (by simp)
      simp [getElem?_eq_getElem hlt, ih fun j hj => hk j (mem_cons_of_mem k hj)]
  apply hall
  intro k hk
  rw [← hs]
  exact ((L.mem_chain o k).mp hk).1

theorem entries_grow (log : List α) (x : α) (o : Owner κ) (hs : L.size = log.length) :
    L.entries (log++[x]) o = L.entries log o := by
  apply filterMap_congr
  intro k hk
  have hlt := ((L.mem_chain o k).mp hk).1
  exact getElem?_append_left (by omega)

theorem entries_assign_self (log : List α) (x : α) (o : Owner κ) (ho : ∀ n, o ≠ .spent n)
    (hs : L.size = log.length) :
    (L.assign o ho).entries (log++[x]) o = L.entries log o ++ [x] := by
  have hg := L.entries_grow log x o hs
  rw [entries] at hg
  rw [entries, chain_assign_self, filterMap_append, hg]
  simp [hs]

theorem entries_assign_other (log : List α) (x : α) (o o' : Owner κ) (ho : ∀ n, o ≠ .spent n)
    (hs : L.size = log.length) (h : o ≠ o') :
    (L.assign o ho).entries (log++[x]) o' = L.entries log o' := by
  rw [entries, chain_assign_other L o o' ho h]
  exact L.entries_grow log x o' hs

end Ledger

/-- The books of a run: what each slot holds and what each logged event took out. -/
structure Books (log : List α) (L : Ledger κ) (held : κ → List α → Prop)
    (spent : α → List α → Prop) : Prop where
  size : L.size = log.length
  slots : ∀ i, held i (L.entries log (.held i))
  closings : ∀ n x, log[n]? = some x → spent x (L.entries log (.spent n))

section
variable {log : List α} {L : Ledger κ} {held held' : κ → List α → Prop}
  {spent : α → List α → Prop} {x : α}

theorem books_empty (held : κ → List α → Prop) (spent : α → List α → Prop) (h : ∀ i, held i []) :
    Books [] Ledger.empty held spent :=
  ⟨rfl, h, by intro n x hx; simp at hx⟩

/-- One more event, if old closings are left alone and every slot is accounted for. -/
theorem Books.next {L' : Ledger κ} (h : Books log L held spent) (hsize : L'.size = L.size+1)
    (hold : ∀ m < L.size, L'.entries (log++[x]) (.spent m) = L.entries log (.spent m))
    (hnew : spent x (L'.entries (log++[x]) (.spent L.size)))
    (hslots : ∀ i, held' i (L'.entries (log++[x]) (.held i))) :
    Books (log++[x]) L' held' spent := by
  have hlen := h.size
  refine ⟨by simp [hsize, hlen], hslots, ?_⟩
  intro n y hy
  by_cases hn : n < L.size
  · rw [hold n hn]
    apply h.closings n y
    rw [← hy]
    exact (getElem?_append_left (by omega)).symm
  · have hlt : n < (log++[x]).length := (List.getElem?_eq_some_iff.mp hy).1
    have hns : n = log.length := by
      rw [length_append, length_singleton] at hlt
      omega
    subst hns
    have hyx : y = x := by simpa [eq_comm] using hy
    rwa [hyx, ← hlen]

theorem Books.assign (h : Books log L held spent) {o : Owner κ} (ho : ∀ n, o ≠ .spent n)
    (hnew : spent x [])
    (hslots : ∀ i, held' i ((L.assign o ho).entries (log++[x]) (.held i))) :
    ∃ L', Books (log++[x]) L' held' spent := by
  refine ⟨L.assign o ho, h.next rfl (fun m _ => ?_) ?_ hslots⟩
  · exact L.entries_assign_other log x _ _ ho h.size (ho m)
  · rwa [L.entries_assign_other log x _ _ ho h.size (ho L.size), Ledger.entries,
      L.chain_spent_nil L.size (le_refl _)]

theorem Books.pass (h : Books log L held spent) (hnew : spent x []) :
    ∃ L', Books (log++[x]) L' held spent := by
  have hfree : ∀ n, (.free : Owner κ) ≠ .spent n := nofun
  refine h.assign hfree hnew fun i => ?_
  rw [L.entries_assign_other log x _ (.held i) hfree h.size nofun]
  exact h.slots i

section
variable {σ : Type*} {ok : σ → List α → Prop} {t : κ → σ} {s : σ}

theorem Books.put (h : Books log L (fun j => ok (t j)) spent) (i : κ)
    (hi : ∀ xs, ok (t i) xs → ok s (xs++[x])) (hnew : spent x []) :
    ∃ L', Books (log++[x]) L' (fun j => ok (update t i s j)) spent := by
  have hheld : ∀ n, (.held i : Owner κ) ≠ .spent n := nofun
  refine h.assign hheld hnew fun j => ?_
  by_cases hj : j = i
  · subst hj
    rw [L.entries_assign_self log x _ hheld h.size, update_self]
    exact hi _ (h.slots j)
  · rw [L.entries_assign_other log x _ _ hheld h.size (by intro hn; cases hn; exact hj rfl),
      update_of_ne hj]
    exact h.slots j

theorem Books.take (h : Books log L (fun j => ok (t j)) spent) (i : κ) (hi : ok s [])
    (hnew : ∀ xs, ok (t i) xs → spent x xs) :
    ∃ L', Books (log++[x]) L' (fun j => ok (update t i s j)) spent := by
  refine ⟨L.close i, h.next rfl ?_ ?_ ?_⟩
  · intro m hm
    rw [Ledger.entries, L.chain_close_other i _ (by intro hn; cases hn)
      (by intro hn; cases hn; omega) (by intro hn; cases hn)]
    exact L.entries_grow log x _ h.size
  · rw [Ledger.entries, L.chain_close_new i]
    have hg := L.entries_grow log x (.held i) h.size
    rw [Ledger.entries] at hg
    rw [hg]
    exact hnew _ (h.slots i)
  · intro j
    by_cases hj : j = i
    · subst hj
      rwa [Ledger.entries, L.chain_close_self, update_self]
    · have hg := L.entries_grow log x (.held j) h.size
      rw [Ledger.entries] at hg
      rw [Ledger.entries, L.chain_close_other i _ (by intro hn; cases hn; exact hj rfl)
        (by intro hn; cases hn) (by intro hn; cases hn), hg, update_of_ne hj]
      exact h.slots j

end

theorem Books.drop (h : Books log L held spent) (p : κ → Bool) (hi : ∀ i, p i = true → held' i [])
    (hother : ∀ i, p i = false → ∀ xs, held i xs → held' i xs) :
    Books log (L.drop p) held' spent := by
  refine ⟨h.size, ?_, ?_⟩
  · intro j
    cases hj : p j with
    | true =>
      rw [Ledger.entries, L.chain_drop_self p j hj]
      exact hi j hj
    | false =>
      have hne : ∀ i, p i = true → (.held j : Owner κ) ≠ .held i := by
        intro i hpi hn
        cases hn
        rw [hj] at hpi
        cases hpi
      rw [Ledger.entries, L.chain_drop_other p _ hne (by intro hn; cases hn)]
      exact hother j hj _ (h.slots j)
  · intro n y hy
    rw [Ledger.entries, L.chain_drop_other p _ (fun _ _ hn => by cases hn) (by intro hn; cases hn)]
    exact h.closings n y hy

def usedBy (emits : α → Bool) (log : List α) (L : Ledger κ) (n : Nat) : List Nat :=
  if log[n]?.any emits then L.chain (.spent n) ++ [n] else L.chain (.spent n)

theorem mem_usedBy (emits : α → Bool) (n k : Nat) (hk : k ∈ usedBy emits log L n) :
    k ∈ L.chain (.spent n) ∨ k = n ∧ log[n]?.any emits = true := by
  unfold usedBy at hk
  split_ifs at hk with he
  · rcases mem_append.mp hk with hk | hk
    · exact Or.inl hk
    · exact Or.inr ⟨mem_singleton.mp hk, he⟩
  · exact Or.inl hk

theorem Books.spent_mem (h : Books log L held spent) (n k : Nat) (hk : k ∈ L.chain (.spent n)) :
    ∃ x y xs, log[n]? = some x ∧ log[k]? = some y ∧ spent x xs ∧ y ∈ xs := by
  have hsize := h.size
  have hkn := L.chain_spent_lt n k hk
  have hn := (L.spent_lt k n ((L.mem_chain _ k).mp hk).2).2
  have hx : log[n]? = some log[n] := getElem?_eq_getElem (by omega)
  have hy : log[k]? = some log[k] := getElem?_eq_getElem (by omega)
  exact ⟨_, _, _, hx, hy, h.closings n _ hx, mem_filterMap.mpr ⟨k, hk, hy⟩⟩

theorem Books.usedBy_disjoint (h : Books log L held spent) (emits : α → Bool)
    (hquiet : ∀ x xs, spent x xs → ∀ y ∈ xs, emits y = false) (n m : Nat) (hnm : n ≠ m) :
    (usedBy emits log L n).Disjoint (usedBy emits log L m) := by
  have hnot (a k : Nat) (hk : k ∈ L.chain (.spent a)) : log[k]?.any emits = false := by
    obtain ⟨x,y,xs,-,hy,hs,hmem⟩ := h.spent_mem a k hk
    rw [hy]
    exact hquiet x xs hs y hmem
  intro k hn hm
  rcases mem_usedBy emits n k hn with h1 | ⟨rfl,h1⟩ <;>
    rcases mem_usedBy emits m k hm with h2 | ⟨h2,h3⟩
  · exact L.chain_disjoint _ _ (by intro he; cases he; exact hnm rfl) h1 h2
  · subst h2
    rw [hnot n k h1] at h3
    cases h3
  · rw [hnot m k h2] at h1
    cases h1
  · exact hnm h2

theorem usedBy_sorted (emits : α → Bool) (n : Nat) (he : log[n]?.any emits = true) :
    usedBy emits log L n = L.chain (.spent n) ++ [n] ∧
      (L.chain (.spent n) ++ [n]).Pairwise (· < ·) := by
  refine ⟨by rw [usedBy, if_pos he], ?_⟩
  rw [pairwise_append]
  refine ⟨L.chain_sorted _, pairwise_singleton _ _, ?_⟩
  intro k hk m hm
  rw [mem_singleton.mp hm]
  exact L.chain_spent_lt n k hk

end

end IridiumAcars.Ownership
