import Mathlib.Algebra.BigOperators.Group.List.Basic
import Mathlib.Data.List.GetD
import Mathlib.Data.Nat.ModEq

/-! A ring of `n` cells over an unbounded stream: element `k` belongs in cell `k%n`. -/
namespace IridiumAcars.RingBuffer
open List Function
variable {α β : Type*}

/-- Every element of the stream at a position in `[lo, hi)` is in its cell. -/
def Holds (n : Nat) (cells : Nat → α) (stream : List α) (lo hi : Nat) : Prop :=
  ∀ k, lo ≤ k → k < hi → stream[k]? = some (cells (k%n))

def blit (cells : Nat → α) (off : Nat) (xs : List α) (i : Nat) : α :=
  if off ≤ i then xs.getD (i-off) (cells i) else cells i

theorem mod_ne_of_lt {n k m : Nat} (h : k < m) (hm : m < k+n) : k%n ≠ m%n := by
  intro he
  have hdvd : n ∣ m-k := (Nat.modEq_iff_dvd' h.le).mp he
  have := Nat.le_of_dvd (by omega) hdvd
  omega

theorem add_mod_of_fits {n m j : Nat} (h : m%n+j < n) : (m+j)%n = m%n+j := by
  rw [Nat.add_mod, Nat.mod_eq_of_lt (by omega : j < n), Nat.mod_eq_of_lt h]

theorem mod_at_end {n : Nat} (hn : 0 < n) (m : Nat) : (m+(n-m%n))%n = 0 := by
  have hlt := Nat.mod_lt m hn
  have hdiv := Nat.div_add_mod m n
  have hsum : m+(n-m%n) = n*(m/n+1) := by
    rw [Nat.mul_add, Nat.mul_one]
    omega
  rw [hsum, Nat.mul_mod_right]

theorem blit_below (cells : Nat → α) {off i : Nat} (xs : List α) (h : i < off) :
    blit cells off xs i = cells i := by
  rw [blit, if_neg (by omega)]

theorem blit_above (cells : Nat → α) {off i : Nat} (xs : List α) (h : off+xs.length ≤ i) :
    blit cells off xs i = cells i := by
  rw [blit, if_pos (by omega), getD_eq_default _ _ (by omega)]

theorem blit_inside (cells : Nat → α) (off : Nat) (xs : List α) {j : Nat} (h : j < xs.length) :
    xs[j]? = some (blit cells off xs (off+j)) := by
  rw [blit, if_pos (by omega), Nat.add_sub_cancel_left, getD_eq_getElem?_getD,
    getElem?_eq_getElem h, Option.getD_some]

theorem blit_nil (cells : Nat → α) (off : Nat) : blit cells off [] = cells := by
  funext i
  by_cases h : off ≤ i
  · exact blit_above cells [] h
  · exact blit_below cells [] (by omega)

variable {copies : List (Nat × List α)}

section
variable {n lo hi : Nat} {cells : Nat → α} {stream : List α}

theorem Holds.empty (h : hi ≤ lo) : Holds n cells stream lo hi := by
  intro k hlo hhi
  omega

theorem Holds.mono (h : Holds n cells stream lo hi) {lo' hi' : Nat} (hlo : lo ≤ lo')
    (hhi : hi' ≤ hi) : Holds n cells stream lo' hi' :=
  fun k h1 h2 => h k (by omega) (by omega)

theorem Holds.append (h : Holds n cells stream lo hi) (xs : List α) :
    Holds n cells (stream++xs) lo hi := by
  intro k hlo hhi
  have hk := h k hlo hhi
  have hlt := (List.getElem?_eq_some_iff.mp hk).1
  rw [getElem?_append_left hlt, hk]

theorem Holds.of_append {xs : List α} (h : Holds n cells (stream++xs) lo hi)
    (hhi : hi ≤ stream.length) : Holds n cells stream lo hi := by
  intro k hlo hk
  rw [← h k hlo hk, getElem?_append_left (by omega)]

theorem Holds.congr (h : Holds n cells stream lo hi) {cells' : Nat → α}
    (hc : ∀ k, lo ≤ k → k < hi → cells' (k%n) = cells (k%n)) : Holds n cells' stream lo hi := by
  intro k hlo hhi
  rw [hc k hlo hhi]
  exact h k hlo hhi

theorem Holds.update (h : Holds n cells stream lo hi) {m : Nat} (hm : hi ≤ m)
    (hroom : m < lo+n) (x : α) : Holds n (update cells (m%n) x) stream lo hi := by
  apply h.congr
  intro k hlo hhi
  exact update_of_ne (mod_ne_of_lt (by omega) (by omega)) _ _

theorem Holds.snoc (h : Holds n cells stream lo stream.length) :
    Holds n cells (stream++[cells (stream.length%n)]) lo (stream.length+1) := by
  intro k hlo hhi
  by_cases hk : k = stream.length
  · subst hk
    simp
  · exact h.append _ k hlo (by omega)

theorem blit_outside {m k : Nat} (xs : List α) (hk : k < m) (hroom : m+xs.length ≤ k+n)
    (hfit : m%n+xs.length ≤ n) : blit cells (m%n) xs (k%n) = cells (k%n) := by
  by_cases hlow : k%n < m%n
  · exact blit_below cells xs hlow
  by_cases hhigh : m%n+xs.length ≤ k%n
  · exact blit_above cells xs hhigh
  · -- a hit would be a later position of the block in the same cell
    have hj : (m+(k%n-m%n))%n = k%n := by
      rw [add_mod_of_fits (by omega)]
      omega
    exact absurd hj.symm (mod_ne_of_lt (by omega) (by omega))

theorem Holds.blit {m : Nat} (h : Holds n cells stream lo m) (xs : List α)
    (hroom : m+xs.length ≤ lo+n) (hfit : m%n+xs.length ≤ n)
    (hxs : ∀ j, j < xs.length → stream[m+j]? = xs[j]?) :
    Holds n (blit cells (m%n) xs) stream lo (m+xs.length) := by
  intro k hlo hhi
  by_cases hk : k < m
  · rw [blit_outside xs hk (by omega) hfit]
    exact h k hlo hk
  · obtain ⟨j,rfl⟩ := Nat.exists_eq_add_of_le (Nat.le_of_not_lt hk)
    have hj : j < xs.length := by omega
    rw [hxs j hj, add_mod_of_fits (by omega)]
    exact blit_inside cells (m%n) xs hj

theorem Holds.read (h : Holds n cells stream lo hi) {a len : Nat} (hlo : lo ≤ a)
    (hhi : a+len ≤ hi) :
    (List.range len).map (fun i => cells ((a+i)%n)) = (stream.drop a).take len := by
  apply ext_getElem?
  intro i
  by_cases hi' : i < len
  · rw [getElem?_map, getElem?_range hi', Option.map_some, getElem?_take_of_lt hi',
      getElem?_drop, h (a+i) (by omega) (by omega)]
  · rw [getElem?_eq_none (by simpa using Nat.le_of_not_lt hi'),
      getElem?_eq_none (by simp; omega)]

theorem Holds.slide (h : Holds n cells stream (stream.length-n) stream.length) (x : α) :
    Holds n (Function.update cells (stream.length%n) x) (stream++[x]) (stream.length+1-n)
      (stream.length+1) := by
  have hkeep := (h.mono (show stream.length-n ≤ stream.length+1-n by omega) le_rfl).update
    le_rfl (show stream.length < stream.length+1-n+n by omega) x
  have hnew := hkeep.snoc
  rwa [update_self] at hnew

theorem Holds.forall_cells (h : Holds n cells stream (stream.length-n) stream.length)
    (hfull : n ≤ stream.length) (P : α → Prop) :
    (∀ i < n, P (cells i)) ↔ ∀ x ∈ stream.drop (stream.length-n), P x := by
  have hread := h.read le_rfl (show stream.length-n+n ≤ stream.length by omega)
  rw [take_of_length_le (by rw [length_drop]; omega)] at hread
  rw [← hread]
  constructor
  · intro hall x hx
    obtain ⟨i,hi,rfl⟩ := mem_map.mp hx
    exact hall _ (Nat.mod_lt _ (by have := mem_range.mp hi; omega))
  · intro hall i hi
    have hn : 0 < n := by omega
    have hcell : (stream.length-n+((n-(stream.length-n)%n)+i)%n)%n = i := by
      rw [Nat.add_mod_mod, ← Nat.add_assoc, Nat.add_mod, mod_at_end hn, Nat.zero_add, Nat.mod_mod,
        Nat.mod_eq_of_lt hi]
    exact hall _ (mem_map.mpr ⟨_, mem_range.mpr (Nat.mod_lt _ hn), congrArg cells hcell⟩)

section
variable [AddCommGroup α] {x : α}

/-- A running sum over the last `n` elements gives up the element in the next cell. -/
theorem Holds.sum_window (h : Holds n cells stream (stream.length-n) stream.length)
    (hn : 0 < n) (hfull : n ≤ stream.length) :
    ((stream++[x]).drop (stream.length+1-n)).sum =
      (stream.drop (stream.length-n)).sum-cells (stream.length%n)+x := by
  have hcell : stream[stream.length-n]? = some (cells (stream.length%n)) := by
    rw [h _ le_rfl (by omega), Nat.mod_eq_sub_mod hfull]
  obtain ⟨hlt,hget⟩ := List.getElem?_eq_some_iff.mp hcell
  rw [drop_append_of_le_length (by omega), sum_append, sum_singleton,
    drop_eq_getElem_cons hlt, sum_cons, hget, add_sub_cancel_left,
    show stream.length+1-n = stream.length-n+1 by omega]

theorem sum_window_growing (hroom : stream.length < n) :
    ((stream++[x]).drop (stream.length+1-n)).sum = (stream.drop (stream.length-n)).sum+x := by
  rw [show stream.length+1-n = 0 by omega, show stream.length-n = 0 by omega, drop_zero,
    drop_zero, sum_append, sum_singleton]

end

section
variable {m first : Nat} (xs : List α)

theorem Holds.blit_first (h : Holds n cells stream lo m) (hroom : m+xs.length ≤ lo+n)
    (hfirst : first = min xs.length (n-m%n))
    (hxs : ∀ j, j < xs.length → stream[m+j]? = xs[j]?) :
    Holds n (RingBuffer.blit cells (m%n) (xs.take first)) stream lo (m+first) := by
  have hlen : (xs.take first).length = first := by
    rw [length_take]
    omega
  by_cases hfit : m%n ≤ n
  · have hnew := h.blit (xs.take first) (by omega) (by omega) (by
      intro j hj
      rw [hxs j (by omega), getElem?_take_of_lt (by omega)])
    rwa [hlen] at hnew
  · have hzero : first = 0 := by omega
    subst hzero
    intro k hlo hhi
    rw [take_zero, blit_nil]
    exact h k hlo hhi

theorem Holds.blit_rest (h : Holds n cells stream lo (m+first)) (hlo : lo ≤ m)
    (hroom : m+xs.length ≤ lo+n) (hfirst : first = min xs.length (n-m%n))
    (hxs : ∀ j, j < xs.length → stream[m+j]? = xs[j]?) (hrest : first < xs.length) :
    Holds n (RingBuffer.blit cells 0 (xs.drop first)) stream lo (m+xs.length) := by
  have hn : 0 < n := by omega
  have hlt := Nat.mod_lt m hn
  have hzero : (m+first)%n = 0 := by
    rw [show first = n-m%n by omega]
    exact mod_at_end hn m
  have hlen : (xs.drop first).length = xs.length-first := length_drop
  have hnew := h.blit (xs.drop first) (by omega) (by rw [hzero]; omega) (by
    intro j hj
    rw [Nat.add_assoc, hxs (first+j) (by omega), getElem?_drop])
  rwa [hzero, hlen, show m+first+(xs.length-first) = m+xs.length by omega] at hnew

end

section
variable (n)

/-- Blocks of consecutive stretches of the stream from `pos`, each aimed at its cells. -/
def Blocks (stream : List α) : Nat → List (Nat × List α) → Prop
  | _, [] => True
  | pos, (off, xs)::rest =>
    off = pos%n ∧ off+xs.length ≤ n ∧ (∀ j, j < xs.length → stream[pos+j]? = xs[j]?) ∧
      Blocks stream (pos+xs.length) rest

variable {n}

def blocksLength (copies : List (Nat × List α)) : Nat := (copies.map fun c => c.2.length).sum

def writeBlocks (cells : Nat → α) (copies : List (Nat × List α)) : Nat → α :=
  copies.foldl (fun r c => RingBuffer.blit r c.1 c.2) cells

theorem Holds.writeBlocks {m : Nat} (h : Holds n cells stream lo m)
    (hb : Blocks n stream m copies) (hroom : m+blocksLength copies ≤ lo+n) :
    Holds n (writeBlocks cells copies) stream lo (m+blocksLength copies) := by
  induction copies generalizing cells m with
  | nil => exact h
  | cons c copies ih =>
    obtain ⟨off,xs⟩ := c
    obtain ⟨rfl,hfit,hxs,hrest⟩ := hb
    have hlen : blocksLength ((m%n, xs)::copies) = xs.length+blocksLength copies := by
      simp [blocksLength]
    rw [hlen] at hroom ⊢
    rw [← Nat.add_assoc]
    exact ih (h.blit xs (by omega) hfit hxs) hrest (by omega)

theorem Blocks.append {pos : Nat} (h : Blocks n stream pos copies)
    (ys : List α) : Blocks n (stream++ys) pos copies := by
  induction copies generalizing pos with
  | nil => trivial
  | cons c copies ih =>
    obtain ⟨hoff,hfit,hxs,hrest⟩ := h
    refine ⟨hoff, hfit, fun j hj => ?_, ih hrest⟩
    have hj' := hxs j hj
    rw [getElem?_eq_getElem hj] at hj'
    rw [List.getElem?_append_left (List.getElem?_eq_some_iff.mp hj').1, hj',
      getElem?_eq_getElem hj]

def splitBlocks (n off : Nat) (xs : List α) : List (Nat × List α) :=
  if xs.length ≤ n-off then [(off, xs)] else [(off, xs.take (n-off)), (0, xs.drop (n-off))]

theorem blocksLength_split (off : Nat) (xs : List α) :
    blocksLength (splitBlocks n off xs) = xs.length := by
  rw [splitBlocks]
  by_cases hfit : xs.length ≤ n-off
  · simp [if_pos hfit, blocksLength]
  · simp only [if_neg hfit, blocksLength, map_cons, map_nil, sum_cons,
      sum_nil, length_take, length_drop]
    omega

theorem splitBlocks_blocks {m : Nat} {xs : List α} (hn : 0 < n) (hlen : xs.length ≤ n)
    (hxs : ∀ j, j < xs.length → stream[m+j]? = xs[j]?) :
    Blocks n stream m (splitBlocks n (m%n) xs) := by
  have hlt := Nat.mod_lt m hn
  rw [splitBlocks]
  by_cases hfit : xs.length ≤ n-m%n
  · rw [if_pos hfit]
    exact ⟨rfl, by omega, hxs, trivial⟩
  have hfirst : (xs.take (n-m%n)).length = n-m%n := by
    rw [length_take]
    omega
  rw [if_neg hfit]
  refine ⟨rfl, by omega, ?_, ?_, ?_, ?_, trivial⟩
  · intro j hj
    rw [hxs j (by omega), getElem?_take_of_lt (by omega)]
  · rw [hfirst, mod_at_end hn]
  · rw [length_drop]
    omega
  · intro j hj
    rw [length_drop] at hj
    rw [hfirst, Nat.add_assoc, hxs _ (by omega), getElem?_drop]

def landCells (k : Nat) (cells : Nat → α) : List (Nat × List α) → Nat → α
  | [] => cells
  | (off, xs)::_ => RingBuffer.blit cells off (xs.take k)

def landRest (k : Nat) : List (Nat × List α) → List (Nat × List α)
  | [] => []
  | (off, xs)::rest => if xs.length ≤ k then rest else (off+k, xs.drop k)::rest

theorem Holds.land {pos : Nat} (h : Holds n cells stream lo pos)
    (hb : Blocks n stream pos copies) (hroom : pos+blocksLength copies ≤ lo+n) (k : Nat) :
    ∃ pos', pos ≤ pos' ∧ Holds n (landCells k cells copies) stream lo pos' ∧
      Blocks n stream pos' (landRest k copies) ∧
      pos'+blocksLength (landRest k copies) = pos+blocksLength copies := by
  cases copies with
  | nil => exact ⟨pos, le_rfl, h, trivial, rfl⟩
  | cons c rest =>
    obtain ⟨off,xs⟩ := c
    obtain ⟨rfl,hfit,hxs,hrest⟩ := hb
    have hlen (o : Nat) (ys : List α) :
        blocksLength ((o, ys)::rest) = ys.length+blocksLength rest := by simp [blocksLength]
    rw [hlen] at hroom ⊢
    by_cases hall : xs.length ≤ k
    · refine ⟨pos+xs.length, by omega, ?_, ?_, ?_⟩
      · rw [landCells, take_of_length_le hall]
        exact h.blit xs (by omega) hfit hxs
      · rwa [landRest, if_pos hall]
      · rw [landRest, if_pos hall]
        omega
    · have htake : (xs.take k).length = k := by
        rw [length_take]
        omega
      have hnew := h.blit (xs.take k) (by omega) (by omega) (by
        intro j hj
        rw [hxs j (by omega), getElem?_take_of_lt (by omega)])
      rw [htake] at hnew
      refine ⟨pos+k, by omega, hnew, ?_, ?_⟩
      · rw [landRest, if_neg hall]
        refine ⟨(add_mod_of_fits (by omega)).symm, ?_, ?_, ?_⟩
        · rw [length_drop]
          omega
        · intro j hj
          rw [length_drop] at hj
          rw [Nat.add_assoc, hxs _ (by omega), getElem?_drop]
        · rwa [length_drop, show pos+k+(xs.length-k) = pos+xs.length by omega]
      · rw [landRest, if_neg hall, hlen, length_drop]
        omega

end

end

section
variable {n head k m : Nat} {cells : Nat → α}

def readBack (n : Nat) (cells : Nat → α) (head k : Nat) : List α :=
  (List.range k).map fun i => cells ((head+n-i)%n)

theorem length_readBack : (readBack n cells head k).length = k := by simp [readBack]

theorem take_readBack (h : k ≤ m) : (readBack n cells head m).take k = readBack n cells head k := by
  rw [readBack, readBack, ← map_take, take_range, Nat.min_eq_left h]

theorem readBack_push (hk : k < n) (x : α) :
    readBack n (update cells ((head+1)%n) x) ((head+1)%n) (k+1) =
      x::readBack n cells head k := by
  have hnext : (head+1)%n < n := Nat.mod_lt _ (by omega)
  rw [readBack, readBack, range_succ_eq_map, map_cons, map_map, Nat.sub_zero,
    Nat.add_mod_right, Nat.mod_mod, update_self]
  refine congrArg (x::·) (map_congr_left ?_)
  intro i hi
  have hlt := mem_range.mp hi
  have hindex : ((head+1)%n+n-(i+1))%n = (head+n-i)%n := by
    rw [Nat.add_sub_assoc (by omega), Nat.mod_add_mod]
    congr 1
    omega
  have hne : (head+n-i)%n ≠ (head+1)%n := (mod_ne_of_lt (by omega) (by omega)).symm
  simp only [comp_apply, Nat.succ_eq_add_one]
  rw [hindex, update_of_ne hne]

end

end IridiumAcars.RingBuffer
