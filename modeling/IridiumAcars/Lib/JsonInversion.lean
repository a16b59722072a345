import IridiumAcars.Lib.Json

/-! What follows from a successful parse; an object cut short decodes to nothing. -/
namespace IridiumAcars.Json
open List

variable {ms : List (Bytes × Value)}

section
variable {α β : Type} {x : Bytes} {p q p' q' : Option (α × Bytes)}

/-- Where `p` succeeds, so does `q`, with `x` behind the rest. -/
def Survives (x : Bytes) (p q : Option (α × Bytes)) : Prop :=
  ∀ a r, p = some (a, r) → q = some (a, r++x)

theorem survives_some (a : α) (r : Bytes) : Survives x (some (a, r)) (some (a, r++x)) := by
  intro b s h
  cases h
  rfl

theorem survives_none : Survives x none q := by
  intro a r h
  cases h

theorem Survives.map (h : Survives x p q) (f : α → β) :
    Survives x (p.map fun m => (f m.1, m.2)) (q.map fun m => (f m.1, m.2)) := by
  intro b s hs
  obtain ⟨⟨a,r⟩,hp,heq⟩ := Option.map_eq_some_iff.mp hs
  cases heq
  rw [h a r hp, Option.map_some]

theorem Survives.ite {c : Prop} [Decidable c] (h : Survives x p q) (h' : Survives x p' q') :
    Survives x (if c then p else p') (if c then q else q') := by
  split
  · exact h
  · exact h'

theorem survives_bind_left {o : Option β} {f g : β → Option (α × Bytes)}
    (h : ∀ u, Survives x (f u) (g u)) : Survives x (o.bind f) (o.bind g) := by
  cases o with
  | none => exact survives_none
  | some u => exact h u

theorem survives_bind {f g : α × Bytes → Option (β × Bytes)}
    (h : ∀ a r, p = some (a, r) → f (a, r) ≠ none → q = some (a, r++x))
    (hf : ∀ a r, Survives x (f (a, r)) (g (a, r++x))) : Survives x (p.bind f) (q.bind g) := by
  intro b s hs
  obtain ⟨⟨a,r⟩,hp,hfs⟩ := Option.bind_eq_some_iff.mp hs
  rw [h a r hp (by rw [hfs]; exact Option.some_ne_none _), Option.bind_some]
  exact hf a r b s hfs

theorem survives_next_bind {s : Bytes} {f g : UInt8 × Bytes → Option (β × Bytes)}
    (hf : ∀ c r, Survives x (f (c, r)) (g (c, r++x))) :
    Survives x ((next s).bind f) ((next (s++x)).bind g) :=
  survives_bind (fun _ _ h _ => next_append h x) hf

end

theorem parseString_append (s x : Bytes) : Survives x (parseString s) (parseString (s++x)) := by
  induction hk : s.length using Nat.strong_induction_on generalizing s with
  | _ k ih =>
    subst hk
    have hrec (t p : Bytes) (hlt : t.length < s.length) :
        Survives x ((parseString t).map (addFront p)) ((parseString (t++x)).map (addFront p)) :=
      (ih _ hlt t rfl).map (p++·)
    cases s with
    | nil => exact survives_none
    | cons c s =>
      rw [cons_append, parseString_cons, parseString_cons]
      refine .ite (survives_some _ s) (.ite ?_ (.ite survives_none (hrec s _ (by simp))))
      cases s with
      | nil => exact survives_none
      | cons e s =>
        rw [cons_append, parseEscape, parseEscape]
        have hshort : s.length < (c::e::s).length := by
          simp only [length_cons]
          omega
        refine .ite ?_ (survives_bind_left fun d => hrec s _ hshort)
        rcases s with _ | ⟨h1, _ | ⟨h2, _ | ⟨h3, _ | ⟨h4, s⟩⟩⟩⟩
        iterate 4 exact survives_none
        refine survives_bind_left fun u => hrec s _ ?_
        simp only [length_cons] at hshort ⊢
        omega

theorem parseKey_append (s x : Bytes) : Survives x (parseKey s) (parseKey (s++x)) := by
  refine survives_next_bind fun c t => .ite ?_ survives_none
  refine survives_bind (fun k u h _ => parseString_append t x k u h) fun k u => ?_
  exact survives_next_bind fun d w => .ite (survives_some k w) survives_none

def Value.isNum : Value → Bool
  | .num _ => true
  | _ => false

theorem parseNumber_append {s r : Bytes} {k : Number} (h : parseNumber s = some (k, r))
    (hr : r ≠ []) (x : Bytes) : parseNumber (s++x) = some (k, r++x) := by
  rw [parseNumber] at h ⊢
  split at h
  · next hok =>
    cases h
    have hlen : (s.takeWhile numberByte).length ≠ s.length := by
      have hsplit := congrArg List.length (takeWhile_append_dropWhile (p := numberByte) (l := s))
      have hpos := length_pos_of_ne_nil hr
      rw [length_append] at hsplit
      omega
    have htake : (s++x).takeWhile numberByte = s.takeWhile numberByte := by
      rw [takeWhile_append, if_neg hlen]
    have hdrop : (s++x).dropWhile numberByte = s.dropWhile numberByte++x := by
      rw [dropWhile_append, if_neg (by simpa using hr)]
    rw [dif_pos (by rw [htake]; exact hok)]
    simp only [htake, hdrop]
  · cases h

variable {v : Value}

theorem parseScalar_append {s r : Bytes} (h : parseScalar s = some (v, r))
    (hr : r ≠ [] ∨ v.isNum = false) (x : Bytes) : parseScalar (s++x) = some (v, r++x) := by
  by_cases ht : (ascii "true").isPrefixOf s = true
  · obtain ⟨t,rfl⟩ := isPrefixOf_iff_prefix.mp ht
    cases h
    rfl
  by_cases hf : (ascii "false").isPrefixOf s = true
  · obtain ⟨t,rfl⟩ := isPrefixOf_iff_prefix.mp hf
    cases h
    rfl
  by_cases hz : (ascii "null").isPrefixOf s = true
  · obtain ⟨t,rfl⟩ := isPrefixOf_iff_prefix.mp hz
    cases h
    rfl
  rw [parseScalar, if_neg ht, if_neg hf, if_neg hz] at h
  obtain ⟨⟨k,r'⟩,hk,heq⟩ := Option.map_eq_some_iff.mp h
  cases heq
  have hmore := parseNumber_append hk (hr.resolve_right (by rintro ⟨⟩)) x
  cases s with
  | nil => cases hk
  | cons c s =>
    have hhead : c = 45 ∨ isDigit c = true := by
      have hok : numberOk ((c::s).takeWhile numberByte) = true := by
        by_contra hbad
        rw [parseNumber, dif_neg hbad] at hk
        cases hk
      rw [takeWhile_cons] at hok
      split at hok
      · exact numberOk_head hok
      · cases hok
    obtain ⟨-,-,-,-,ht',hf',hz'⟩ := scalar_head hhead (s++x)
    rw [cons_append] at hmore ⊢
    rw [parseScalar, ht', hf', hz', hmore]
    rfl

theorem parse_append (n : Nat) :
    (∀ s v r, parseValue n s = some (v, r) → (r ≠ [] ∨ v.isNum = false) →
      ∀ m ≥ n, ∀ x, parseValue m (s++x) = some (v, r++x)) ∧
    (∀ s, ∀ m ≥ n, ∀ x, Survives x (parseElements n s) (parseElements m (s++x))) ∧
    (∀ s, ∀ m ≥ n, ∀ x, Survives x (parseMembers n s) (parseMembers m (s++x))) := by
  induction n with
  | zero =>
    refine ⟨?_, fun _ _ _ _ => survives_none, fun _ _ _ _ => survives_none⟩
    intro s v r h
    cases h
  | succ n ih =>
    obtain ⟨ihv,ihe,ihm⟩ := ih
    have hitem {m : Nat} {x s : Bytes} {v : Value} {r : Bytes} (hm : m ≥ n)
        (hv : parseValue n s = some (v, r)) {β : Type} {f : UInt8 × Bytes → Option β}
        (hf : (next r).bind f ≠ none) : parseValue m (s++x) = some (v, r++x) := by
      obtain ⟨y,hy⟩ := Option.ne_none_iff_exists'.mp hf
      obtain ⟨c,hc,-⟩ := Option.bind_eq_some_iff.mp hy
      exact ihv s v r hv (.inl (ne_nil_of_next hc)) m hm x
    refine ⟨?_, ?_, ?_⟩
    · intro s v r h hr m hm x
      obtain ⟨m,rfl⟩ : ∃ k, m = k+1 := ⟨m-1, by omega⟩
      rw [parseValue] at h ⊢
      obtain ⟨⟨c,t⟩,hc,h⟩ := Option.bind_eq_some_iff.mp h
      rw [next_append hc, Option.bind_some]
      dsimp only at h ⊢
      by_cases hbrace : c = openBrace
      · rw [if_pos hbrace] at h ⊢
        exact survives_next_bind (fun d u => .ite (survives_some _ u)
          ((ihm t m (by omega) x).map Value.obj)) v r h
      by_cases hbracket : c = openBracket
      · rw [if_neg hbrace, if_pos hbracket] at h ⊢
        exact survives_next_bind (fun d u => .ite (survives_some _ u)
          ((ihe t m (by omega) x).map Value.arr)) v r h
      rw [if_neg hbrace, if_neg hbracket] at h ⊢
      by_cases hquote : c = quote
      · rw [if_pos hquote] at h ⊢
        exact (parseString_append t x).map Value.str v r h
      · rw [if_neg hquote] at h ⊢
        exact parseScalar_append h hr x
    · intro s m hm x
      obtain ⟨m,rfl⟩ : ∃ k, m = k+1 := ⟨m-1, by omega⟩
      refine survives_bind (fun v r hv hf => hitem (by omega) hv hf) fun v r => ?_
      exact survives_next_bind fun c u => .ite ((ihe u m (by omega) x).map (v::·))
        (.ite (survives_some [v] u) survives_none)
    · intro s m hm x
      obtain ⟨m,rfl⟩ : ∃ k, m = k+1 := ⟨m-1, by omega⟩
      refine survives_bind (fun k t hk _ => parseKey_append s x k t hk) fun k t => ?_
      refine survives_bind (fun v r hv hf => hitem (by omega) hv hf) fun v r => ?_
      exact survives_next_bind fun c u => .ite ((ihm u m (by omega) x).map ((k, v)::·))
        (.ite (survives_some [(k, v)] u) survives_none)

theorem parseValue_brace {n : Nat} {s r : Bytes}
    (h : parseValue n (openBrace::s) = some (v, r)) : v.isNum = false := by
  cases n with
  | zero => cases h
  | succ n =>
    rw [parseValue, next_cons (by decide), Option.bind_some] at h
    dsimp only at h
    rw [if_pos rfl] at h
    obtain ⟨⟨d,u⟩,-,h⟩ := Option.bind_eq_some_iff.mp h
    dsimp only at h
    split at h
    · cases h
      rfl
    · obtain ⟨⟨ms,r'⟩,-,heq⟩ := Option.map_eq_some_iff.mp h
      cases heq
      rfl

/-- What is left of an object's text when its end is cut off decodes to nothing. -/
theorem decode_take_eq_none {s : Bytes} (h : Reads (openBrace::s) (.obj ms)) {k : Nat}
    (hk : k ≤ s.length) :
    decode ((openBrace::s).take k) = none := by
  cases hd : decode ((openBrace::s).take k) with
  | none => rfl
  | some v =>
    rw [decode] at hd
    obtain ⟨⟨v',r⟩,hv,hd⟩ := Option.bind_eq_some_iff.mp hd
    have hnum : v'.isNum = false := by
      cases k with
      | zero => cases hv
      | succ k => exact parseValue_brace hv
    have hwhole := (parse_append _).1 _ _ _ hv (.inr hnum) (s.length+2)
      (by rw [length_take, length_cons]; omega) ((openBrace::s).drop k)
    have hread := h (s.length+2) [] (by rw [length_cons]; omega) ends_nil
    rw [append_nil] at hread
    rw [take_append_drop, hread, Option.some.injEq, Prod.mk.injEq] at hwhole
    have hlen := congrArg List.length hwhole.2
    rw [length_append, length_drop, length_cons] at hlen
    simp only [length_nil] at hlen
    omega

theorem parseMembers_raw {n : Nat} {k b p r : Bytes} (hk : Writes k b)
    (h : parseMembers n (quote::(k++quote::colon::quote::p)) = some (ms, r)) :
    ∃ s r' ms', parseString p = some (s, r') ∧ ms = (b, .str s)::ms' := by
  cases n with
  | zero => cases h
  | succ n =>
    rw [parseMembers, parseKey_of_writes hk, Option.bind_some] at h
    obtain ⟨⟨v,u⟩,hv,h⟩ := Option.bind_eq_some_iff.mp h
    cases n with
    | zero => cases hv
    | succ n =>
      rw [parseValue, next_cons (by decide), Option.bind_some] at hv
      dsimp only at hv
      rw [if_neg (by decide), if_neg (by decide), if_pos rfl] at hv
      obtain ⟨⟨s,r'⟩,hs,heq⟩ := Option.map_eq_some_iff.mp hv
      cases heq
      obtain ⟨⟨c,u⟩,-,h⟩ := Option.bind_eq_some_iff.mp h
      dsimp only at h
      split at h
      · obtain ⟨⟨ms',r''⟩,-,heq⟩ := Option.map_eq_some_iff.mp h
        cases heq
        exact ⟨s, r', ms', hs, rfl⟩
      split at h
      · cases h
        exact ⟨s, r', [], hs, rfl⟩
      · cases h

def listed (ts : List Bytes) : Bytes := ts.flatMap (·++[comma])

theorem parseMembers_listed {ts : List Bytes} {ms all : List (Bytes × Value)}
    (h : List.Forall₂ ReadsMember ts ms) {n : Nat} {s r : Bytes} (hn : (listed ts).length ≤ n)
    (hp : parseMembers n (listed ts++s) = some (all, r)) :
    ∃ n' all', parseMembers n' s = some (all', r) ∧ all = ms++all' := by
  induction h generalizing n all with
  | nil => exact ⟨n, all, hp, rfl⟩
  | @cons t m ts ms hm _ ih =>
    have htext : ∀ u, listed (t::ts)++u = t++comma::(listed ts++u) := by
      intro u
      simp [listed]
    have hlen := congrArg List.length (htext [])
    simp only [length_append, length_cons, length_nil] at hlen
    obtain ⟨n,rfl⟩ : ∃ k, n = k+1 := ⟨n-1, by omega⟩
    rw [htext, parseMembers_step hm (by omega) (by decide) (by decide), if_pos rfl] at hp
    obtain ⟨⟨all',r'⟩,hrest,heq⟩ := Option.map_eq_some_iff.mp hp
    cases heq
    obtain ⟨n',all'',hp',rfl⟩ := ih (by omega) hrest
    exact ⟨n', all'', hp', rfl⟩

theorem decode_raw {ts : List Bytes} (h : List.Forall₂ ReadsMember ts ms) {k b p : Bytes}
    (hk : Writes k b)
    (hd : decode (openBrace::(listed ts++quote::(k++quote::colon::quote::p))) = some v) :
    ∃ s r ms', parseString p = some (s, r) ∧ v = .obj (ms++(b, .str s)::ms') := by
  have hhead : ∃ u, listed ts++quote::(k++quote::colon::quote::p) = quote::u := by
    cases h with
    | nil => exact ⟨_, rfl⟩
    | cons hm _ =>
      obtain ⟨k',v',rfl,-⟩ := hm
      exact ⟨_, rfl⟩
  obtain ⟨u,hu⟩ := hhead
  rw [decode] at hd
  obtain ⟨⟨v',r⟩,hv,hd⟩ := Option.bind_eq_some_iff.mp hd
  rw [parseValue, next_cons (by decide), Option.bind_some] at hv
  dsimp only at hv
  rw [if_pos rfl, hu, next_cons (by decide), Option.bind_some, ← hu] at hv
  dsimp only at hv
  rw [if_neg (by decide)] at hv
  obtain ⟨⟨all,r'⟩,hp,heq⟩ := Option.map_eq_some_iff.mp hv
  cases heq
  obtain ⟨n',all',hp',rfl⟩ := parseMembers_listed h (by simp; omega) hp
  obtain ⟨s,r'',ms',hs,rfl⟩ := parseMembers_raw hk hp'
  dsimp only at hd
  split at hd
  · cases hd
    exact ⟨s, r'', ms', hs, rfl⟩
  · cases hd

def opened (key p : Bytes) : Bytes := quote::(escape key++quote::colon::quote::p)

theorem listed_opened (ms : List (Bytes × Value)) (key b s : Bytes) :
    listed (ms.map memberOf)++opened key (escape b++quote::comma::s) =
      listed ((ms++[(key, Value.str b)]).map memberOf)++s := by
  simp [listed, opened, memberOf, memberText, encode]

theorem decode_opened {key p : Bytes}
    (hd : decode (openBrace::(listed (ms.map memberOf)++opened key p)) = some v) :
    ∃ s r ms', parseString p = some (s, r) ∧ v = .obj (ms++(key, .str s)::ms') := by
  refine decode_raw (forall₂_map_left_iff.mpr (forall₂_same.mpr fun m _ => ?_))
    (writes_escape key) hd
  exact ⟨_, _, rfl, writes_escape m.1, reads_encode m.2⟩

theorem plain_of_not {c : UInt8} (hq : ¬ c = quote) (hb : ¬ c = backslash) (hc : ¬ c < 32) :
    plain c = true := by
  simp [plain, hq, hb, UInt8.not_lt.mp hc]

theorem parseString_quote (s : Bytes) : parseString (quote::s) = some ([], s) := by
  rw [parseString_cons, if_pos rfl]

theorem plain_of_parse_one {c : UInt8} {s r : Bytes}
    (h : parseString (c::quote::comma::quote::s) = some ([c], r)) : plain c = true := by
  rw [parseString_cons] at h
  split at h
  · cases h
  next hq =>
  split at h
  · have hescape : parseEscape (quote::comma::quote::s) = some ([quote, comma], s) := by
      have hcomma := (writes_plain (c := comma) (by decide)).parse s
      rw [singleton_append] at hcomma
      rw [parseEscape, if_neg (by decide), show shortEscape quote = some quote by decide,
        Option.bind_some, hcomma]
      rfl
    rw [hescape] at h
    cases h
  next hb =>
  split at h
  · cases h
  next hc =>
  exact plain_of_not hq hb hc

theorem plain_of_parse_two {c d : UInt8} {s r : Bytes}
    (h : parseString (c::d::quote::comma::quote::s) = some ([c, d], r)) :
    plain c = true ∧ plain d = true := by
  rw [parseString_cons] at h
  split at h
  · cases h
  next hq =>
  split at h
  · rw [parseEscape] at h
    split at h
    · cases s with
      | nil => cases h
      | cons x s => cases h
    · obtain ⟨b,-,h⟩ := Option.bind_eq_some_iff.mp h
      rw [parseString_quote] at h
      cases h
  next hb =>
  split at h
  · cases h
  next hc =>
  obtain ⟨⟨b,r'⟩,hrest,heq⟩ := Option.map_eq_some_iff.mp h
  cases heq
  exact ⟨plain_of_not hq hb hc, plain_of_parse_one hrest⟩

theorem plain_of_parse {raw s r : Bytes} (hlen : raw.length ≤ 2)
    (h : parseString (raw++quote::comma::quote::s) = some (raw, r)) :
    ∀ c ∈ raw, plain c = true := by
  rcases raw with _ | ⟨c, _ | ⟨d, _ | ⟨e, raw⟩⟩⟩
  · simp
  · simpa using plain_of_parse_one h
  · simpa using plain_of_parse_two h
  · simp at hlen

end IridiumAcars.Json
