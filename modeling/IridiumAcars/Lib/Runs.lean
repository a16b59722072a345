import Mathlib.Data.List.Induction
import Mathlib.Data.List.Nodup

/-! Runs of a machine that answers every event, with the log of all answers. -/
namespace IridiumAcars.Runs
open List
variable {σ ε ω : Type*}

structure Trace (σ ε ω : Type*) where
  ctx : σ
  log : List (ε × ω)

def Trace.next (react : σ → ε → σ × ω) (t : Trace σ ε ω) (e : ε) : Trace σ ε ω :=
  ⟨(react t.ctx e).1, t.log ++ [(e, (react t.ctx e).2)]⟩

def runFrom (react : σ → ε → σ × ω) (init : σ) (es : List ε) : Trace σ ε ω :=
  es.foldl (Trace.next react) ⟨init, []⟩

section
variable (react : σ → ε → σ × ω) (init : σ)

theorem runFrom_snoc (es : List ε) (e : ε) :
    runFrom react init (es++[e]) = (runFrom react init es).next react e := by
  rw [runFrom, foldl_append]
  rfl

/-- What holds at the start and is kept by every step holds after every run. -/
theorem runFrom_invariant (P : Trace σ ε ω → Prop) (es : List ε) (h0 : P ⟨init, []⟩)
    (hstep : ∀ t, ∀ e ∈ es, P t → P (t.next react e)) : P (runFrom react init es) := by
  induction es using List.reverseRecOn with
  | nil => exact h0
  | append_singleton es e ih =>
    rw [runFrom_snoc]
    exact hstep _ e (by simp) (ih fun t x hx => hstep t x (mem_append_left _ hx))

theorem runFrom_events (es : List ε) : (runFrom react init es).log.map Prod.fst = es := by
  induction es using List.reverseRecOn with
  | nil => rfl
  | append_singleton es e ih =>
    rw [runFrom_snoc, Trace.next, map_append, ih]
    rfl

theorem length_runFrom (es : List ε) : (runFrom react init es).log.length = es.length := by
  have h := congrArg List.length (runFrom_events react init es)
  rwa [length_map] at h

end

/-- Every step of the run meets the condition in the state it is taken from. -/
def AllSteps (step : σ → ε → σ) (ok : σ → ε → Prop) : σ → List ε → Prop
  | _, [] => True
  | s, e::es => ok s e ∧ AllSteps step ok (step s e) es

def AllSteps.decide (step : σ → ε → σ) (ok : σ → ε → Prop) [∀ s e, Decidable (ok s e)] :
    (s : σ) → (es : List ε) → Decidable (AllSteps step ok s es)
  | _, [] => .isTrue trivial
  | s, e::es =>
    have := AllSteps.decide step ok (step s e) es
    inferInstanceAs (Decidable (ok s e ∧ AllSteps step ok (step s e) es))

instance (step : σ → ε → σ) (ok : σ → ε → Prop) [∀ s e, Decidable (ok s e)] (s : σ)
    (es : List ε) : Decidable (AllSteps step ok s es) :=
  AllSteps.decide step ok s es

variable {step : σ → ε → σ} {ok : σ → ε → Prop}

theorem AllSteps.invariant (P : σ → Prop)
    (hstep : ∀ s e, ok s e → P s → P (step s e)) {s : σ} {es : List ε}
    (h : AllSteps step ok s es) (h0 : P s) : P (es.foldl step s) := by
  induction es generalizing s with
  | nil => exact h0
  | cons e es ih => exact ih h.2 (hstep s e h.1 h0)

theorem AllSteps.append {s : σ} {es fs : List ε}
    (h : AllSteps step ok s es) (h' : AllSteps step ok (es.foldl step s) fs) :
    AllSteps step ok s (es++fs) := by
  induction es generalizing s with
  | nil => exact h'
  | cons e es ih => exact ⟨h.1, ih h.2 h'⟩

theorem AllSteps.front {s : σ} {es fs : List ε}
    (h : AllSteps step ok s (es++fs)) : AllSteps step ok s es := by
  induction es generalizing s with
  | nil => trivial
  | cons e es ih => exact ⟨h.1, ih h.2⟩

/-- A rank that every own step lowers and no other step raises: enough own steps reach the goal. -/
theorem AllSteps.reaches (own : ε → Bool)
    (P Goal : σ → Prop) (rank : σ → Nat) (hkeep : ∀ s e, ok s e → Goal s → Goal (step s e))
    (hstep : ∀ s e, ok s e → P s → Goal (step s e) ∨
      P (step s e) ∧ rank (step s e)+(if own e then 1 else 0) ≤ rank s)
    {s : σ} {es : List ε} (h : AllSteps step ok s es) (hP : P s) (hcount : rank s < es.countP own) :
    Goal (es.foldl step s) := by
  induction es generalizing s with
  | nil => exact absurd hcount (Nat.not_lt_zero _)
  | cons e es ih =>
    rw [foldl_cons]
    obtain hgoal | ⟨hP',hrank⟩ := hstep s e h.1 hP
    · exact h.2.invariant Goal hkeep hgoal
    · rw [countP_cons] at hcount
      exact ih h.2 hP' (by omega)

theorem allSteps_of_forall {es : List ε}
    (h : ∀ e ∈ es, ∀ s, ok s e) (s : σ) : AllSteps step ok s es := by
  induction es generalizing s with
  | nil => trivial
  | cons e es ih =>
    exact ⟨h e mem_cons_self s, ih (fun x hx => h x (mem_cons_of_mem _ hx)) _⟩

/-- A fold that carries a hidden part acts on the rest like the fold without it. -/
theorem foldl_hidden {α β : Type*} {Valid : σ → Prop} {step : σ × β → α → σ × β}
    {step' : β → α → β}
    (h : ∀ s b a, Valid s → Valid (step (s, b) a).1 ∧ (step (s, b) a).2 = step' b a)
    (l : List α) (s : σ) (b : β) (hs : Valid s) :
    Valid (l.foldl step (s, b)).1 ∧ (l.foldl step (s, b)).2 = l.foldl step' b := by
  induction l generalizing s b with
  | nil => exact ⟨hs, rfl⟩
  | cons a l ih =>
    obtain ⟨hvalid,hval⟩ := h s b a hs
    rw [foldl_cons, foldl_cons, ← hval]
    exact ih _ _ hvalid

section
variable {α κ : Type*} [DecidableEq κ] (key : α → κ)

def entries (l : List α) (k : κ) : List α := l.filter fun a => decide (key a = k)

@[simp] theorem entries_append (l l' : List α) (k : κ) :
    entries key (l++l') k = entries key l k++entries key l' k :=
  filter_append _ _

theorem entries_eq_nil {l : List α} {k : κ} (h : k ∉ l.map key) : entries key l k = [] := by
  rw [entries, filter_eq_nil_iff]
  intro a ha hk
  exact h (mem_map.mpr ⟨a, ha, of_decide_eq_true hk⟩)

theorem entries_of_nodup {l : List α} (hn : (l.map key).Nodup) {a : α} (ha : a ∈ l) :
    entries key l (key a) = [a] := by
  obtain ⟨s,r,rfl⟩ := append_of_mem ha
  rw [map_append, map_cons, nodup_middle, nodup_cons, mem_append,
    not_or] at hn
  rw [entries_append, entries_eq_nil key hn.1.1, nil_append, entries, filter_cons_of_pos
    (by simp), ← entries, entries_eq_nil key hn.1.2]

end

theorem getElem?_snoc_cases {α : Type*} (l : List α) (x y : α) (n : Nat)
    (h : (l++[x])[n]? = some y) : n < l.length ∧ l[n]? = some y ∨ n = l.length ∧ x = y := by
  by_cases hn : n < l.length
  · rw [getElem?_append_left hn] at h
    exact Or.inl ⟨hn, h⟩
  · obtain ⟨hlt,hy⟩ := List.getElem?_eq_some_iff.mp h
    have hnl : n = l.length := by simp at hlt; omega
    subst hnl
    exact Or.inr ⟨rfl, by simpa using hy⟩

end IridiumAcars.Runs
