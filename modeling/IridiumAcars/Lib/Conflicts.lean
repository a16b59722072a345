import IridiumAcars.Lib.Runs

/-! A program of single accesses against another party's stores, field by field: which
interleavings amount to one of the two running after the other. -/
namespace IridiumAcars.Conflicts
open Runs List
variable {ι σ α β : Type}

/-- Each access names the fields it may touch. What follows a load depends on what it read. -/
inductive Prog (ι σ α : Type) where
  | ret (a : α)
  | load (fields : List ι) (k : σ → Prog ι σ α)
  | store (fields : List ι) (f : σ → σ) (rest : Prog ι σ α)

def Prog.exec : Prog ι σ α → σ → σ × α
  | .ret a, s => (s, a)
  | .load _ k, s => (k s).exec s
  | .store _ f p, s => p.exec (f s)

def Prog.bind : Prog ι σ α → (α → Prog ι σ β) → Prog ι σ β
  | .ret a, q => q a
  | .load fields k, q => .load fields fun s => (k s).bind q
  | .store fields f p, q => .store fields f (p.bind q)

instance : Monad (Prog ι σ) where
  pure := .ret
  bind := Prog.bind

def load (fields : List ι) (f : σ → α) : Prog ι σ α := .load fields fun s => .ret (f s)

def store (fields : List ι) (f : σ → σ) : Prog ι σ Unit := .store fields f (.ret ())

@[simp] theorem exec_pure (a : α) (s : σ) : (pure a : Prog ι σ α).exec s = (s, a) := rfl

@[simp] theorem exec_load (fs : List ι) (f : σ → α) (s : σ) : (load fs f).exec s = (s, f s) := rfl

@[simp] theorem exec_store (fs : List ι) (f : σ → σ) (s : σ) : (store fs f).exec s = (f s, ()) :=
  rfl

@[simp] theorem exec_bind (p : Prog ι σ α) (q : α → Prog ι σ β) (s : σ) :
    (p >>= q).exec s = (q (p.exec s).2).exec (p.exec s).1 := by
  change (p.bind q).exec s = _
  induction p generalizing s with
  | ret a => rfl
  | load fields k ih => exact ih s s
  | store fields f p ih => exact ih (f s)

/-- The fields the next access may touch. -/
def Prog.fields : Prog ι σ α → List ι
  | .ret _ => []
  | .load fs _ | .store fs _ _ => fs

def Prog.stores : Prog ι σ α → Bool
  | .store _ _ _ => true
  | .ret _ | .load _ _ => false

/-- A store of the other party, to one field. -/
structure Store (ι σ : Type) where
  field : ι
  set : σ → σ

def applyAll (gs : List (Store ι σ)) (s : σ) : σ := gs.foldl (fun s g => g.set s) s

/-- No access sees or disturbs a store to a field that it does not name. -/
def Prog.Sound (gs : List (Store ι σ)) : Prog ι σ α → Prop
  | .ret _ => True
  | .load fs k => (∀ g ∈ gs, g.field ∉ fs → ∀ s, k (g.set s) = k s) ∧ ∀ s, (k s).Sound gs
  | .store fs f p => (∀ g ∈ gs, g.field ∉ fs → ∀ s, f (g.set s) = g.set (f s)) ∧ p.Sound gs

section
variable {gs : List (Store ι σ)}

theorem Prog.Sound.bind {p : Prog ι σ α} {q : α → Prog ι σ β} (hp : p.Sound gs)
    (hq : ∀ a, (q a).Sound gs) : (p >>= q).Sound gs := by
  change (p.bind q).Sound gs
  induction p with
  | ret a => exact hq a
  | load fs k ih =>
    refine ⟨fun g hg hn s => ?_, fun s => ih s (hp.2 s)⟩
    exact congrArg (fun p => Prog.bind p q) (hp.1 g hg hn s)
  | store fs f p ih => exact ⟨hp.1, ih hp.2⟩

theorem sound_load {fs : List ι} {f : σ → α}
    (h : ∀ g ∈ gs, g.field ∉ fs → ∀ s, f (g.set s) = f s) : (load fs f).Sound gs :=
  ⟨fun g hg hn s => congrArg Prog.ret (h g hg hn s), fun _ => trivial⟩

theorem sound_store {fs : List ι} {f : σ → σ}
    (h : ∀ g ∈ gs, g.field ∉ fs → ∀ s, f (g.set s) = g.set (f s)) : (store fs f).Sound gs :=
  ⟨h, trivial⟩

theorem store_applyAll {f : σ → σ} (h : ∀ g ∈ gs, ∀ s, f (g.set s) = g.set (f s)) (s : σ) :
    f (applyAll gs s) = applyAll gs (f s) := by
  induction gs generalizing s with
  | nil => rfl
  | cons g gs ih =>
    have hrest := ih (fun x hx => h x (.tail _ hx)) (g.set s)
    rwa [h g (.head _) s] at hrest

/-- The stores are to fields of their own. -/
def Commuting (gs : List (Store ι σ)) : Prop :=
  ∀ g ∈ gs, ∀ g' ∈ gs, ∀ s, g.set (g'.set s) = g'.set (g.set s)

/-- Stores that a load does not see, or that change nothing here, leave what it reads. -/
theorem load_applyAll {k : σ → α} {s : σ} (hcomm : Commuting gs)
    (h : ∀ g ∈ gs, (∀ s, k (g.set s) = k s) ∨ g.set s = s) : k (applyAll gs s) = k s := by
  induction gs generalizing s with
  | nil => rfl
  | cons g gs ih =>
    have hrest : k (applyAll gs (g.set s)) = k (g.set s) := by
      refine ih (fun x hx y hy => hcomm x (.tail _ hx) y (.tail _ hy)) fun x hx => ?_
      refine (h x (.tail _ hx)).imp_right fun hsame => ?_
      rw [hcomm x (.tail _ hx) g (.head _), hsame]
    refine hrest.trans ?_
    obtain hblind | hsame := h g (.head _)
    · exact hblind s
    · rw [hsame]

end

structure Duo (ι σ α : Type) where
  shared : σ
  left : Prog ι σ α
  stored : List (Store ι σ)
  rest : List (Store ι σ)

inductive Move
  | left
  | right

def step (d : Duo ι σ α) : Move → Duo ι σ α
  | .left =>
    match d.left with
    | .ret _ => d
    | .load _ k => { d with left := k d.shared }
    | .store _ f p => { d with shared := f d.shared, left := p }
  | .right =>
    match d.rest with
    | [] => d
    | g::gs => ⟨g.set d.shared, d.left, d.stored++[g], gs⟩

def start (p : Prog ι σ α) (gs : List (Store ι σ)) (s : σ) : Duo ι σ α := ⟨s, p, [], gs⟩

def run (p : Prog ι σ α) (gs : List (Store ι σ)) (s : σ) (sched : List Move) : Duo ι σ α :=
  sched.foldl step (start p gs s)

/-- The program touches no field that was stored before. -/
def Late (d : Duo ι σ α) : Move → Prop
  | .left => ∀ g ∈ d.stored, g.field ∉ d.left.fields
  | .right => True

instance [DecidableEq ι] (d : Duo ι σ α) : (m : Move) → Decidable (Late d m)
  | .left => inferInstanceAs (Decidable (∀ g ∈ d.stored, _))
  | .right => .isTrue trivial

/-- The program touches no field that is still to be stored, except by reading one that has the
value to be stored already. -/
def Early (d : Duo ι σ α) : Move → Prop
  | .left => ∀ g ∈ d.rest, g.field ∉ d.left.fields ∨
      d.left.stores = false ∧ g.set d.shared = d.shared
  | .right => True

section
variable {gs : List (Store ι σ)} (hcomm : Commuting gs) {sched : List Move} {a : α}
include hcomm

theorem run_late {d : Duo ι σ α} {v : σ} (hsplit : d.stored++d.rest = gs)
    (hsound : d.left.Sound gs) (hshared : d.shared = applyAll d.stored v)
    (hok : AllSteps step Late d sched) (hleft : (sched.foldl step d).left = .ret a)
    (hrest : (sched.foldl step d).rest = []) :
    ∃ v', d.left.exec v = (v', a) ∧ (sched.foldl step d).shared = applyAll gs v' := by
  induction sched generalizing d v with
  | nil =>
    change d.left = _ at hleft
    change d.rest = _ at hrest
    rw [hrest, append_nil] at hsplit
    rw [hsplit] at hshared
    exact ⟨v, by rw [hleft]; rfl, hshared⟩
  | cons m sched ih =>
    obtain ⟨x,l,done,rest⟩ := d
    change x = applyAll done v at hshared
    have hmem : ∀ g ∈ done, g ∈ gs := fun g hg => hsplit ▸ mem_append_left rest hg
    cases m with
    | left =>
      cases l with
      | ret b => exact ih hsplit hsound hshared hok.2 hleft hrest
      | load fs k =>
        have hk : k x = k v := by
          rw [hshared]
          exact load_applyAll (fun g hg g' hg' => hcomm g (hmem g hg) g' (hmem g' hg'))
            fun g hg => .inl (hsound.1 g (hmem g hg) (hok.1 g hg))
        have hnext := ih (d := ⟨x, k x, done, rest⟩) hsplit (hsound.2 x) hshared hok.2 hleft hrest
        change ∃ v', (k v).exec v = _ ∧ _
        rwa [← hk]
      | store fs f q =>
        refine ih (d := ⟨f x, q, done, rest⟩) hsplit hsound.2 ?_ hok.2 hleft hrest
        change f x = applyAll done (f v)
        rw [hshared]
        exact store_applyAll (fun g hg => hsound.1 g (hmem g hg) (hok.1 g hg)) v
    | right =>
      cases rest with
      | nil => exact ih hsplit hsound hshared hok.2 hleft hrest
      | cons g rest =>
        refine ih (d := ⟨g.set x, l, done++[g], rest⟩) ?_ hsound ?_ hok.2 hleft hrest
        · exact (append_assoc done [g] rest).trans hsplit
        · change g.set x = applyAll (done++[g]) v
          rw [applyAll, foldl_append, hshared]
          rfl

theorem run_early {d : Duo ι σ α} (hmem : ∀ g ∈ d.rest, g ∈ gs) (hsound : d.left.Sound gs)
    (hok : AllSteps step Early d sched) (hleft : (sched.foldl step d).left = .ret a)
    (hrest : (sched.foldl step d).rest = []) :
    d.left.exec (applyAll d.rest d.shared) = ((sched.foldl step d).shared, a) := by
  induction sched generalizing d with
  | nil =>
    change d.left = _ at hleft
    change d.rest = _ at hrest
    rw [hleft, hrest]
    rfl
  | cons m sched ih =>
    obtain ⟨x,l,done,rest⟩ := d
    cases m with
    | left =>
      cases l with
      | ret b => exact ih hmem hsound hok.2 hleft hrest
      | load fs k =>
        have hk : k (applyAll rest x) = k x :=
          load_applyAll (fun g hg g' hg' => hcomm g (hmem g hg) g' (hmem g' hg'))
            fun g hg => (hok.1 g hg).imp (hsound.1 g (hmem g hg)) And.right
        have hnext := ih (d := ⟨x, k x, done, rest⟩) hmem (hsound.2 x) hok.2 hleft hrest
        change (k (applyAll rest x)).exec _ = _
        rwa [hk]
      | store fs f q =>
        have hapart : ∀ g ∈ rest, ∀ s, f (g.set s) = g.set (f s) := fun g hg =>
          hsound.1 g (hmem g hg) ((hok.1 g hg).resolve_right fun h => by cases h.1)
        have hnext := ih (d := ⟨f x, q, done, rest⟩) hmem hsound.2 hok.2 hleft hrest
        change q.exec (f (applyAll rest x)) = _
        rwa [store_applyAll hapart]
    | right =>
      cases rest with
      | nil => exact ih hmem hsound hok.2 hleft hrest
      | cons g rest =>
        exact ih (d := ⟨g.set x, l, done++[g], rest⟩) (fun y hy => hmem y (.tail _ hy)) hsound
          hok.2 hleft hrest

/-- When every access is late the program ran before the stores, when every one is early after. -/
theorem run_serial {p : Prog ι σ α} {s : σ} (hsound : p.Sound gs)
    (hok : AllSteps step Late (start p gs s) sched ∨ AllSteps step Early (start p gs s) sched)
    (hleft : (run p gs s sched).left = .ret a) (hrest : (run p gs s sched).rest = []) :
    p.exec (applyAll gs s) = ((run p gs s sched).shared, a) ∨
      ∃ v, p.exec s = (v, a) ∧ (run p gs s sched).shared = applyAll gs v := by
  obtain hlate | hearly := hok
  · exact .inr (run_late hcomm rfl hsound rfl hlate hleft hrest)
  · exact .inl (run_early hcomm (fun _ h => h) hsound hearly hleft hrest)

end

end IridiumAcars.Conflicts
