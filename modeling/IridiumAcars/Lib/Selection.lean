import Mathlib.Data.List.Nodup
import Mathlib.Data.List.Perm.Basic
import Mathlib.Data.List.Range
import Mathlib.Order.Lattice

/-! The smallest keys by counting and by insertion; the first candidate of least cost. -/
namespace IridiumAcars.Selection
open List
variable {κ : Type*} [LinearOrder κ] (key : Nat → κ)

def Before (a b : Nat) : Prop := key a < key b ∨ key a = key b ∧ a < b

instance (a b : Nat) : Decidable (Before key a b) := inferInstanceAs (Decidable (_ ∨ _))

def rank (n k : Nat) : Nat := (List.range n).countP fun a => decide (Before key a k)

/-- The `cap` smallest of the first `n` positions, in their own order. -/
def smallest (n cap : Nat) : List Nat := (List.range n).filter fun k => decide (rank key n k < cap)

def place (k : Nat) : List Nat → List Nat
  | [] => [k]
  | a::l => if key k < key a then k::a::l else a::place k l

def placeAll (n : Nat) : List Nat := (List.range n).foldl (fun l k => place key k l) []

/-- The same with a list that never holds more than `cap` positions. -/
def select (n cap : Nat) : List Nat := (List.range n).foldl (fun l k => (place key k l).take cap) []

variable {key}

theorem Before.asymm {a b : Nat} (h : Before key a b) : ¬ Before key b a := by
  rintro (hlt | ⟨heq,hlt⟩)
  · obtain h' | ⟨he,-⟩ := h
    · exact lt_asymm hlt h'
    · exact absurd he hlt.ne'
  · obtain h' | ⟨-,h'⟩ := h
    · exact absurd heq h'.ne'
    · omega

theorem Before.irrefl (a : Nat) : ¬ Before key a a := fun h => h.asymm h

theorem place_perm (k : Nat) (l : List Nat) : (place key k l).Perm (k::l) := by
  induction l with
  | nil => exact List.Perm.refl _
  | cons a l ih =>
    rw [place]
    split
    · exact List.Perm.refl _
    · exact (ih.cons a).trans (List.Perm.swap k a l)

theorem place_sorted {k : Nat} {l : List Nat} (hl : l.Pairwise (Before key)) (hk : ∀ a ∈ l, a < k) :
    (place key k l).Pairwise (Before key) := by
  induction l with
  | nil => exact pairwise_singleton _ _
  | cons a l ih =>
    obtain ⟨ha,hl'⟩ := pairwise_cons.mp hl
    rw [place]
    split_ifs with hlt
    · refine pairwise_cons.mpr ⟨fun b hb => ?_, hl⟩
      obtain rfl | hb := mem_cons.mp hb
      · exact .inl hlt
      · obtain h | ⟨he,-⟩ := ha b hb
        · exact .inl (hlt.trans h)
        · exact .inl (he ▸ hlt)
    · refine pairwise_cons.mpr ⟨fun b hb => ?_, ih hl' fun b hb => hk b (mem_cons_of_mem a hb)⟩
      obtain rfl | hb := mem_cons.mp ((place_perm k l).mem_iff.mp hb)
      · obtain h | he := lt_or_eq_of_le (not_lt.mp hlt)
        · exact .inl h
        · exact .inr ⟨he, hk a mem_cons_self⟩
      · exact ha b hb

theorem take_place (cap k : Nat) (l : List Nat) :
    (place key k (l.take cap)).take cap = (place key k l).take cap := by
  induction l generalizing cap with
  | nil => rw [take_nil]
  | cons a l ih =>
    cases cap with
    | zero => rfl
    | succ cap =>
      have hfront : (a::l.take cap).take cap = (a::l).take cap := by
        cases cap with
        | zero => rfl
        | succ c =>
          rw [take_succ_cons, take_succ_cons, take_take, Nat.min_eq_left (Nat.le_succ c)]
      rw [take_succ_cons, place, place]
      split
      · rw [take_succ_cons, take_succ_cons, hfront]
      · rw [take_succ_cons, take_succ_cons, ih]

theorem placeAll_succ (n : Nat) : placeAll key (n+1) = place key n (placeAll key n) := by
  rw [placeAll, range_succ, foldl_append]
  rfl

theorem select_succ (n cap : Nat) :
    select key (n+1) cap = (place key n (select key n cap)).take cap := by
  rw [select, range_succ, foldl_append]
  rfl

theorem select_eq_take (n cap : Nat) : select key n cap = (placeAll key n).take cap := by
  induction n with
  | zero => exact (take_nil).symm
  | succ n ih => rw [select_succ, ih, take_place, placeAll_succ]

theorem placeAll_perm (n : Nat) : (placeAll key n).Perm (List.range n) := by
  induction n with
  | zero => exact List.Perm.refl _
  | succ n ih =>
    rw [placeAll_succ, range_succ]
    exact (place_perm n _).trans ((ih.cons n).trans (perm_append_singleton n _).symm)

theorem placeAll_sorted (n : Nat) : (placeAll key n).Pairwise (Before key) := by
  induction n with
  | zero => exact List.Pairwise.nil
  | succ n ih =>
    rw [placeAll_succ]
    exact place_sorted ih fun a ha => mem_range.mp ((placeAll_perm n).mem_iff.mp ha)

theorem countP_before {l r : List Nat} {k : Nat} (h : (l++k::r).Pairwise (Before key)) :
    (l++k::r).countP (fun a => decide (Before key a k)) = l.length := by
  obtain ⟨-,hr,hlr⟩ := pairwise_append.mp h
  have hleft : l.countP (fun a => decide (Before key a k)) = l.length :=
    countP_eq_length.mpr fun a ha => decide_eq_true (hlr a ha k mem_cons_self)
  have hright : (k::r).countP (fun a => decide (Before key a k)) = 0 := by
    refine countP_eq_zero.mpr fun a ha => ?_
    rw [decide_eq_true_eq]
    obtain rfl | ha := mem_cons.mp ha
    · exact Before.irrefl a
    · exact ((pairwise_cons.mp hr).1 a ha).asymm
  rw [countP_append, hleft, hright, Nat.add_zero]

theorem mem_take_placeAll {n cap k : Nat} :
    k ∈ (placeAll key n).take cap ↔ k < n ∧ rank key n k < cap := by
  have hperm : (placeAll key n).Perm (List.range n) := placeAll_perm n
  have hrank (a : Nat) : rank key n a = (placeAll key n).countP fun b => decide (Before key b a) :=
    (hperm.countP_eq _).symm
  have hsorted : (placeAll key n).Pairwise (Before key) := placeAll_sorted n
  constructor
  · intro hk
    have hmem := mem_of_mem_take hk
    obtain ⟨l,r,hsplit⟩ := append_of_mem hk
    have hall : placeAll key n = l++k::(r++(placeAll key n).drop cap) := by
      rw [← cons_append, ← append_assoc, ← hsplit, take_append_drop]
    refine ⟨mem_range.mp (hperm.mem_iff.mp hmem), ?_⟩
    have hlen := congrArg List.length hsplit
    rw [length_append, length_cons, length_take] at hlen
    rw [hrank, hall, countP_before (hall ▸ hsorted)]
    omega
  · rintro ⟨hn,hlt⟩
    obtain ⟨l,r,hsplit⟩ := append_of_mem (hperm.mem_iff.mpr (mem_range.mpr hn))
    rw [hrank, hsplit, countP_before (hsplit ▸ hsorted)] at hlt
    rw [hsplit, take_append, mem_append]
    right
    obtain ⟨m,hm⟩ : ∃ m, cap-l.length = m+1 := ⟨cap-l.length-1, by omega⟩
    rw [hm, take_succ_cons]
    exact mem_cons_self

theorem mem_smallest {n cap k : Nat} : k ∈ smallest key n cap ↔ k < n ∧ rank key n k < cap := by
  rw [smallest, mem_filter, mem_range, decide_eq_true_eq]

theorem select_perm_smallest (n cap : Nat) : (select key n cap).Perm (smallest key n cap) := by
  have hnodup : (select key n cap).Nodup := by
    rw [select_eq_take]
    exact ((placeAll_perm n).nodup_iff.mpr nodup_range).sublist (take_sublist _ _)
  have hsmallest : (smallest key n cap).Nodup := nodup_range.filter _
  refine (perm_ext_iff_of_nodup hnodup hsmallest).mpr fun k => ?_
  rw [select_eq_take, mem_take_placeAll, mem_smallest]

theorem length_select (n cap : Nat) : (select key n cap).length = min cap n := by
  rw [select_eq_take, length_take, (placeAll_perm n).length_eq, length_range]

section
variable {β : Type*} {cand : Nat → Option (κ × β)}

def keepLess (cand : Nat → Option (κ × β)) (best : κ × Option β) (p : Nat) : κ × Option β :=
  match cand p with
  | none => best
  | some (d, b) => if d < best.1 then (d, some b) else best

structure FirstLeast (cand : Nat → Option (κ × β)) (n : Nat) (d : κ) (b : β) (p : Nat) : Prop where
  lt : p < n
  found : cand p = some (d, b)
  least : ∀ q < n, ∀ x, cand q = some x → d ≤ x.1
  first : ∀ q < p, ∀ x, cand q = some x → d < x.1

theorem FirstLeast.keep {n p : Nat} {d : κ} {b : β} (h : FirstLeast cand n d b p)
    (hn : ∀ x, cand n = some x → d ≤ x.1) : FirstLeast cand (n+1) d b p where
  lt := Nat.lt_succ_of_lt h.lt
  found := h.found
  least q hq x hx := by
    obtain hlt | rfl := Nat.lt_succ_iff_lt_or_eq.mp hq
    · exact h.least q hlt x hx
    · exact hn x hx
  first := h.first

theorem FirstLeast.replace {n : Nat} {d : κ} {b : β} (hfound : cand n = some (d, b))
    (hless : ∀ q < n, ∀ x, cand q = some x → d < x.1) : FirstLeast cand (n+1) d b n where
  lt := Nat.lt_succ_self n
  found := hfound
  least q hq x hx := by
    obtain hlt | rfl := Nat.lt_succ_iff_lt_or_eq.mp hq
    · exact (hless q hlt x hx).le
    · rw [hfound] at hx
      cases hx
      exact le_refl d
  first := hless

theorem foldl_keepLess {top : κ} (htop : ∀ p x, cand p = some x → x.1 < top) (n : Nat) :
    ((List.range n).foldl (keepLess cand) (top, none) = (top, none) ∧ ∀ p < n, cand p = none) ∨
    ∃ p d b, (List.range n).foldl (keepLess cand) (top, none) = (d, some b) ∧
      FirstLeast cand n d b p := by
  induction n with
  | zero => exact .inl ⟨rfl, by simp⟩
  | succ n ih =>
    rw [range_succ, foldl_append, foldl_cons, foldl_nil]
    obtain ⟨hbest,hnone⟩ | ⟨p,d,b,hbest,hleast⟩ := ih
    · rw [hbest]
      cases hn : cand n with
      | none =>
        refine .inl ⟨by rw [keepLess, hn], fun q hq => ?_⟩
        obtain hlt | rfl := Nat.lt_succ_iff_lt_or_eq.mp hq
        · exact hnone q hlt
        · exact hn
      | some x =>
        refine .inr ⟨n, x.1, x.2, ?_, .replace hn fun q hq y hy => ?_⟩
        · simp only [keepLess, hn, if_pos (htop n x hn)]
        · rw [hnone q hq] at hy
          cases hy
    · rw [hbest]
      refine .inr ?_
      cases hn : cand n with
      | none =>
        refine ⟨p, d, b, by rw [keepLess, hn], hleast.keep fun x hx => ?_⟩
        rw [hn] at hx
        cases hx
      | some x =>
        by_cases hlt : x.1 < d
        · refine ⟨n, x.1, x.2, ?_, .replace hn fun q hq y hy => ?_⟩
          · simp only [keepLess, hn, if_pos hlt]
          · exact lt_of_lt_of_le hlt (hleast.least q hq y hy)
        · refine ⟨p, d, b, ?_, hleast.keep fun y hy => ?_⟩
          · simp only [keepLess, hn, if_neg hlt]
          · rw [hn] at hy
            cases hy
            exact not_lt.mp hlt

end

section
variable {α β : Type*} (cand : α → Option (κ × β))

def keepLeast (best : Option (κ × β)) (a : α) : Option (κ × β) :=
  match cand a with
  | none => best
  | some x => match best with
    | none => some x
    | some b => if x.1 < b.1 then some x else some b

variable {cand}

theorem keepLeast_none {a : α} (h : cand a = none) (best : Option (κ × β)) :
    keepLeast cand best a = best := by
  simp only [keepLeast, h]

theorem keepLeast_some {a : α} {x : κ × β} (h : cand a = some x) (best : Option (κ × β)) :
    keepLeast cand best a = some x ∧ (∀ b, best = some b → x.1 < b.1) ∨
      ∃ b, best = some b ∧ b.1 ≤ x.1 ∧ keepLeast cand best a = some b := by
  cases best with
  | none => exact .inl ⟨by simp only [keepLeast, h], by simp⟩
  | some b =>
    by_cases hlt : x.1 < b.1
    · refine .inl ⟨by simp only [keepLeast, h, if_pos hlt], fun b' hb => ?_⟩
      cases hb
      exact hlt
    · exact .inr ⟨b, rfl, not_lt.mp hlt, by simp only [keepLeast, h, if_neg hlt]⟩

theorem foldl_keepLeast (cand : α → Option (κ × β)) (l : List α) :
    (l.foldl (keepLeast cand) none = none ∧ ∀ a ∈ l, cand a = none) ∨
    ∃ b, l.foldl (keepLeast cand) none = some b ∧ (∃ a ∈ l, cand a = some b) ∧
      ∀ a ∈ l, ∀ x, cand a = some x → b.1 ≤ x.1 := by
  induction l using List.reverseRecOn with
  | nil => exact .inl ⟨rfl, by simp⟩
  | append_singleton l a ih =>
    rw [foldl_append, foldl_cons, foldl_nil]
    simp only [mem_append, mem_singleton]
    cases ha : cand a with
    | none =>
      rw [keepLeast_none ha]
      obtain ⟨hnone,hall⟩ | ⟨b,hb,⟨c,hc,hcb⟩,hleast⟩ := ih
      · refine .inl ⟨hnone, ?_⟩
        rintro c (hc | rfl)
        · exact hall c hc
        · exact ha
      · refine .inr ⟨b, hb, ⟨c, .inl hc, hcb⟩, ?_⟩
        rintro c' (hc' | rfl) x hx
        · exact hleast c' hc' x hx
        · rw [ha] at hx
          cases hx
    | some x =>
      right
      obtain ⟨hnew,hless⟩ | ⟨b,hb,hle,hold⟩ := keepLeast_some ha (l.foldl (keepLeast cand) none)
      · refine ⟨x, hnew, ⟨a, .inr rfl, ha⟩, ?_⟩
        rintro c (hc | rfl) y hy
        · obtain ⟨-,hall⟩ | ⟨b,hb,-,hleast⟩ := ih
          · rw [hall c hc] at hy
            cases hy
          · exact (hless b hb).le.trans (hleast c hc y hy)
        · rw [ha] at hy
          cases hy
          exact le_rfl
      · obtain ⟨hnone,-⟩ | ⟨b',hb',⟨c,hc,hcb⟩,hleast⟩ := ih
        · rw [hnone] at hb
          cases hb
        · rw [hb'] at hb
          cases hb
          refine ⟨b, hold, ⟨c, .inl hc, hcb⟩, ?_⟩
          rintro c' (hc' | rfl) y hy
          · exact hleast c' hc' y hy
          · rw [ha] at hy
            cases hy
            exact hle

end

section
variable {α β : Type*}

def FirstMax (score : α → κ) (l : List α) (a : α) : Prop :=
  ∃ pre post, l = pre++a::post ∧ (∀ x ∈ pre, score x < score a) ∧ ∀ x ∈ post, score x ≤ score a

def keepGreater (score : α → κ) (best a : α) : α := if score a > score best then a else best

variable {score : α → κ}

theorem foldl_keepGreater (score : α → κ) (a : α) (l : List α) :
    FirstMax score (a::l) (l.foldl (keepGreater score) a) := by
  induction l using List.reverseRecOn with
  | nil => exact ⟨[], [], rfl, by simp, by simp⟩
  | append_singleton l b ih =>
    rw [foldl_append, foldl_cons, foldl_nil]
    generalize l.foldl (keepGreater score) a = best at ih
    obtain ⟨pre,post,hl,hpre,hpost⟩ := ih
    by_cases hb : score b > score best
    · refine ⟨pre++best::post, [], ?_, ?_, by simp⟩
      · rw [keepGreater, if_pos hb, ← hl]
        rfl
      · rw [keepGreater, if_pos hb]
        intro x hx
        simp only [mem_append, mem_cons] at hx
        obtain hx | rfl | hx := hx
        · exact (hpre x hx).trans hb
        · exact hb
        · exact (hpost x hx).trans_lt hb
    · refine ⟨pre, post++[b], ?_, ?_, ?_⟩
      · rw [keepGreater, if_neg hb, ← cons_append, hl]
        simp
      · rwa [keepGreater, if_neg hb]
      · rw [keepGreater, if_neg hb]
        intro x hx
        obtain hx | hx := mem_append.mp hx
        · exact hpost x hx
        · rw [mem_singleton.mp hx]
          exact not_lt.mp hb

theorem FirstMax.mem {l : List α} {a : α} (h : FirstMax score l a) : a ∈ l := by
  obtain ⟨pre,post,rfl,-⟩ := h
  simp

theorem FirstMax.le {l : List α} {a b : α} (h : FirstMax score l a) (hb : b ∈ l) :
    score b ≤ score a := by
  obtain ⟨pre,post,rfl,hpre,hpost⟩ := h
  obtain hb | hb := mem_append.mp hb
  · exact (hpre b hb).le
  · obtain rfl | hb := mem_cons.mp hb
    · exact le_rfl
    · exact hpost b hb

theorem FirstMax.unique {l : List α} {a b : α} (ha : FirstMax score l a)
    (hb : FirstMax score l b) : a = b := by
  have heq := le_antisymm (hb.le ha.mem) (ha.le hb.mem)
  obtain ⟨pre,post,hl,hpre,-⟩ := ha
  obtain ⟨pre',post',hl',hpre',-⟩ := hb
  -- neither comes before the other, since both have the greatest score
  obtain ⟨mid,hmid,hrest⟩ | ⟨mid,hmid,hrest⟩ := append_eq_append_iff.mp (hl.symm.trans hl')
  · cases mid with
    | nil => exact (List.cons.inj hrest).1
    | cons x mid =>
      obtain ⟨rfl,-⟩ := List.cons.inj hrest
      exact absurd heq (hpre' a (by rw [hmid]; simp)).ne
  · cases mid with
    | nil => exact (List.cons.inj hrest).1.symm
    | cons x mid =>
      obtain ⟨rfl,-⟩ := List.cons.inj hrest
      exact absurd heq.symm (hpre b (by rw [hmid]; simp)).ne

theorem FirstMax.of_map {f : β → α} {l : List β} {a : α} (h : FirstMax score (l.map f) a) :
    ∃ b, f b = a ∧ FirstMax (fun b => score (f b)) l b := by
  obtain ⟨pre,post,hl,hpre,hpost⟩ := h
  obtain ⟨pre',rest,rfl,rfl,hrest⟩ := map_eq_append_iff.mp hl
  obtain ⟨b,post',rfl,rfl,rfl⟩ := map_eq_cons_iff.mp hrest
  exact ⟨b, rfl, pre', post', rfl, fun x hx => hpre _ (mem_map_of_mem hx),
    fun x hx => hpost _ (mem_map_of_mem hx)⟩

end

end IridiumAcars.Selection
