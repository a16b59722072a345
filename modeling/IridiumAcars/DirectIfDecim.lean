import IridiumAcars.Lib.RingBuffer
import Mathlib.Algebra.BigOperators.Intervals

/-! The decimator of direct_if_decim.c, portable path, and the chunk loop of worker_core1.c. -/
namespace IridiumAcars.DirectIfDecim
open RingBuffer List

def didecimDecim : Nat := 10
def didecimNtaps : Nat := 144
def decimChunkIn : Nat := 4000

structure FirState where
  delay : Nat → Int16
  pos : Nat
  dPos : Nat

def FirState.cleared : FirState := ⟨fun _ => 0, 0, 0⟩

def FirState.push (fs : FirState) (x : Int16) : FirState :=
  let pos := if fs.pos ≥ didecimNtaps then 0 else fs.pos
  { fs with delay := Function.update fs.delay pos x, pos := pos+1 }

def macCells (pos : Nat) : List Nat := List.range' pos (didecimNtaps-pos)++List.range pos

def mac (taps : Nat → Int16) (fs : FirState) : Int :=
  ((macCells fs.pos).foldl
    (fun st n => (st.1+(taps st.2).toInt*(fs.delay n).toInt, st.2-1))
    ((0x7fff : Int), didecimNtaps-1)).1

def store (acc : Int) : Int16 := Int16.ofInt (acc >>> (15 : Nat))

def firLoop (taps : Nat → Int16) : Nat → FirState → List Int16 → FirState × List Int16
  | 0, fs, _ => (fs, [])
  | n+1, fs, xs =>
    let nPush := didecimDecim-fs.dPos
    let fs := { (xs.take nPush).foldl FirState.push fs with dPos := 0 }
    let rest := firLoop taps n fs (xs.drop nPush)
    (rest.1, store (mac taps fs)::rest.2)

def didecimRealFir (fs : FirState) (taps : Nat → Int16) (xs : List Int16) :
    FirState × List Int16 := firLoop taps (xs.length/didecimDecim) fs xs

structure Decim where
  taps : Nat → Int16
  firI : FirState
  firQ : FirState

def directIfDecimResetState (d : Decim) : Decim :=
  { d with firI := .cleared, firQ := .cleared }

/-- A complex sample is a pair; the scratch buffers hold its halves. -/
def directIfDecimProcessSplit (d : Decim) (input : List (Int16 × Int16)) :
    Decim × List (Int16 × Int16) :=
  if input.length < didecimDecim then (d, [])
  else
    let i := didecimRealFir d.firI d.taps (input.map Prod.fst)
    let q := didecimRealFir d.firQ d.taps (input.map Prod.snd)
    ({ d with firI := i.1, firQ := q.1 }, i.2.zip q.2)

def processChunks (d : Decim) : List (List (Int16 × Int16)) → Decim × List (Int16 × Int16)
  | [] => (d, [])
  | c::cs =>
    let r := directIfDecimProcessSplit d c
    let rest := processChunks r.1 cs
    (rest.1, r.2++rest.2)

structure Rotation where
  rotate : Nat → List (Int16 × Int16) → List (Int16 × Int16)
  length_rotate : ∀ off xs, (rotate off xs).length = xs.length

/-- The loop of `wb_extract_decim` from offset `off` on: what it appends to `s_decim_buf`. -/
def wbExtractFrom (r : Rotation) (d : Decim) (off : Nat) (window : List (Int16 × Int16)) :
    List (Int16 × Int16) :=
  if window.length = 0 then []
  else
    let out := directIfDecimProcessSplit d (r.rotate off (window.take decimChunkIn))
    out.2++wbExtractFrom r out.1 (off+decimChunkIn) (window.drop decimChunkIn)
termination_by window.length
decreasing_by
  rw [length_drop, decimChunkIn]
  omega

def wbExtractDecim (d : Decim) (r : Rotation) (window : List (Int16 × Int16)) :
    List (Int16 × Int16) := wbExtractFrom r (directIfDecimResetState d) 0 window

def rotatedChunks (r : Rotation) (off : Nat) (window : List (Int16 × Int16)) :
    List (List (Int16 × Int16)) :=
  if window.length = 0 then []
  else r.rotate off (window.take decimChunkIn)::
    rotatedChunks r (off+decimChunkIn) (window.drop decimChunkIn)
termination_by window.length
decreasing_by
  rw [length_drop, decimChunkIn]
  omega

def rotatedWindow (r : Rotation) (window : List (Int16 × Int16)) : List (Int16 × Int16) :=
  (rotatedChunks r 0 window).flatten

def before (xs : List Int16) (n t : Nat) : Int16 := if t ≤ n then xs.getD (n-t) 0 else 0

/-- The rounded sum over the newest 144 samples, divided by `2^15` and cut to 16 bits. -/
def convolved (taps : Nat → Int16) (xs : List Int16) (k : Nat) : Int16 :=
  Int16.ofInt ((0x7fff+∑ t ∈ Finset.range didecimNtaps,
    (taps t).toInt*(before xs (didecimDecim*k+9) t).toInt)/2^15)

variable {fs : FirState} {xs : List Int16} (taps : Nat → Int16)

theorem cells_eq (delay : Nat → Int16) {pos : Nat} (h : pos ≤ didecimNtaps) :
    (macCells pos).map delay =
      (readBack didecimNtaps delay ((pos+143)%didecimNtaps) didecimNtaps).reverse := by
  simp only [didecimNtaps] at h ⊢
  apply ext_getElem
  · simp only [macCells, didecimNtaps, readBack, length_map, length_append,
      length_range', length_range, length_reverse]
    omega
  · intro m hm hm'
    simp only [length_reverse, length_readBack] at hm'
    simp only [macCells, didecimNtaps, readBack, getElem_map, getElem_reverse,
      length_map, length_range, getElem_range, getElem_append,
      length_range', getElem_range']
    congr 1
    split <;> omega

theorem mac_values (acc : Int) (vs : List Int16) :
    (vs.foldl (fun st v => (st.1+(taps st.2).toInt*v.toInt, st.2-1)) (acc, vs.length-1)).1 =
      acc+∑ t ∈ Finset.range vs.length, (taps t).toInt*(vs.reverse.getD t 0).toInt := by
  induction vs generalizing acc with
  | nil => simp
  | cons v vs ih =>
    rw [foldl_cons, length_cons, Nat.add_sub_cancel]
    rw [ih, Finset.sum_range_succ, reverse_cons, getD_append_right _ _ _ _ (by simp),
      length_reverse, Nat.sub_self, getD_cons_zero, add_assoc]
    congr 1
    rw [add_comm]
    congr 1
    apply Finset.sum_congr rfl
    intro t ht
    rw [getD_append _ _ _ _ (by simpa using Finset.mem_range.mp ht)]

structure Fed (fs : FirState) (xs : List Int16) : Prop where
  aligned : fs.dPos = 0
  pos_le : fs.pos ≤ didecimNtaps
  line : readBack didecimNtaps fs.delay ((fs.pos+143)%didecimNtaps) didecimNtaps =
    (xs.reverse++List.replicate didecimNtaps 0).take didecimNtaps

theorem fed_cleared : Fed .cleared [] where
  aligned := rfl
  pos_le := by decide
  line := by decide +kernel

theorem push_eq (h : fs.pos ≤ didecimNtaps) (x : Int16) :
    fs.push x = { fs with
      delay := Function.update fs.delay (((fs.pos+143)%didecimNtaps+1)%didecimNtaps) x
      pos := ((fs.pos+143)%didecimNtaps+1)%didecimNtaps+1 } := by
  have hcell : (if fs.pos ≥ didecimNtaps then 0 else fs.pos) =
      ((fs.pos+143)%didecimNtaps+1)%didecimNtaps := by
    split_ifs with hend
    · simp only [didecimNtaps] at h hend ⊢
      omega
    · simp only [didecimNtaps] at hend ⊢
      omega
  simp only [FirState.push, hcell]

theorem Fed.push (h : Fed fs xs) (x : Int16) :
    Fed (fs.push x) (xs++[x]) := by
  have hline := h.line
  have hnewest : (((fs.pos+143)%144+1)%144+1+143)%144 = ((fs.pos+143)%144+1)%144 := by omega
  rw [push_eq h.pos_le]
  simp only [didecimNtaps] at hline ⊢
  refine ⟨h.aligned, ?_, ?_⟩
  · simp only [didecimNtaps]
    omega
  · simp only [didecimNtaps, hnewest]
    rw [readBack_push (k := 143) (by omega), reverse_append, reverse_singleton,
      singleton_append, cons_append, take_succ_cons,
      ← take_readBack (show 143 ≤ 144 by omega), hline, take_take]
    rfl

theorem Fed.pushAll (h : Fed fs xs) (ys : List Int16) :
    Fed (ys.foldl FirState.push fs) (xs++ys) := by
  induction ys generalizing fs xs with
  | nil => rwa [append_nil]
  | cons y ys ih =>
    have := ih (h.push y)
    rwa [append_assoc] at this

theorem before_append (xs ys : List Int16) {n : Nat} (hn : n < xs.length) (t : Nat) :
    before (xs++ys) n t = before xs n t := by
  rw [before, before, getD_append _ _ _ _ (by omega)]

theorem convolved_append (xs ys : List Int16) {k : Nat} (hk : didecimDecim*k+9 < xs.length) :
    convolved taps (xs++ys) k = convolved taps xs k := by
  simp only [convolved, before_append xs ys hk]

theorem line_getD (xs : List Int16) {n t : Nat} (hn : xs.length = n+1) (ht : t < didecimNtaps) :
    ((xs.reverse++List.replicate didecimNtaps 0).take didecimNtaps).getD t 0 = before xs n t := by
  rw [getD_eq_getElem?_getD, getElem?_take_of_lt ht, before]
  by_cases htn : t ≤ n
  · rw [if_pos htn, getElem?_append_left (by rw [length_reverse]; omega),
      getElem?_reverse (by omega), getD_eq_getElem?_getD]
    congr 2
    omega
  · rw [if_neg htn, getElem?_append_right (by rw [length_reverse]; omega),
      getElem?_replicate]
    split <;> rfl

theorem Fed.output (h : Fed fs xs) (taps : Nat → Int16) {k : Nat}
    (hk : xs.length = didecimDecim*(k+1)) : store (mac taps fs) = convolved taps xs k := by
  have hcells := cells_eq fs.delay h.pos_le
  have hlen : ((macCells fs.pos).map fs.delay).length = didecimNtaps := by
    rw [hcells, length_reverse, length_readBack]
  have hmac := mac_values taps 0x7fff ((macCells fs.pos).map fs.delay)
  rw [foldl_map, hlen, hcells, reverse_reverse, h.line] at hmac
  rw [convolved, mac, hmac, store, Int.shiftRight_eq_div_pow]
  congr 3
  apply Finset.sum_congr rfl
  intro t ht
  rw [line_getD xs (n := didecimDecim*k+9) (by simp only [didecimDecim] at hk ⊢; omega)
    (Finset.mem_range.mp ht)]

theorem firLoop_spec (n m : Nat) (h : Fed fs xs) (hxs : xs.length = didecimDecim*m)
    (ys : List Int16) (hys : didecimDecim*n ≤ ys.length) :
    (firLoop taps n fs ys).2 = (List.range' m n).map (convolved taps (xs++ys)) ∧
      Fed (firLoop taps n fs ys).1 (xs++ys.take (didecimDecim*n)) := by
  induction n generalizing m fs xs ys with
  | zero => simpa [firLoop] using h
  | succ n ih =>
    have hten : (ys.take didecimDecim).length = didecimDecim := by
      rw [length_take]
      simp only [didecimDecim] at hys ⊢
      omega
    have hfed : Fed { (ys.take didecimDecim).foldl FirState.push fs with dPos := 0 }
        (xs++ys.take didecimDecim) :=
      { h.pushAll (ys.take didecimDecim) with aligned := rfl }
    have hlen : (xs++ys.take didecimDecim).length = didecimDecim*(m+1) := by
      rw [length_append, hten, hxs, Nat.mul_succ]
    have hrest := ih (m+1) hfed hlen (ys.drop didecimDecim) (by
      rw [length_drop]
      simp only [didecimDecim] at hys ⊢
      omega)
    rw [append_assoc, take_append_drop, append_assoc] at hrest
    simp only [firLoop, h.aligned, Nat.sub_zero]
    refine ⟨?_, ?_⟩
    · rw [hrest.1, range'_succ, map_cons, hfed.output taps hlen,
        ← convolved_append taps (xs++ys.take didecimDecim) (ys.drop didecimDecim) (by
          rw [hlen]
          simp only [didecimDecim]
          omega), append_assoc, take_append_drop]
    · rw [Nat.mul_succ, Nat.add_comm, take_add]
      exact hrest.2

def decimated (taps : Nat → Int16) (xs : List (Int16 × Int16)) (k : Nat) : Int16 × Int16 :=
  (convolved taps (xs.map Prod.fst) k, convolved taps (xs.map Prod.snd) k)

structure Tuned (d : Decim) (xs : List (Int16 × Int16)) : Prop where
  i : Fed d.firI (xs.map Prod.fst)
  q : Fed d.firQ (xs.map Prod.snd)

theorem tuned_reset (d : Decim) : Tuned (directIfDecimResetState d) [] := ⟨fed_cleared, fed_cleared⟩

theorem decimated_append (xs ys : List (Int16 × Int16)) {k : Nat}
    (hk : didecimDecim*k+9 < xs.length) : decimated taps (xs++ys) k = decimated taps xs k := by
  rw [decimated, map_append, map_append,
    convolved_append _ _ _ (by rwa [length_map]),
    convolved_append _ _ _ (by rwa [length_map]), decimated]

theorem processSplit_spec {d : Decim} {xs : List (Int16 × Int16)} (h : Tuned d xs) {m : Nat}
    (hxs : xs.length = didecimDecim*m) (c : List (Int16 × Int16)) :
    (directIfDecimProcessSplit d c).2 =
        (List.range' m (c.length/didecimDecim)).map (decimated d.taps (xs++c)) ∧
      Tuned (directIfDecimProcessSplit d c).1
        (xs++c.take (didecimDecim*(c.length/didecimDecim))) ∧
      (directIfDecimProcessSplit d c).1.taps = d.taps := by
  by_cases hshort : c.length < didecimDecim
  · rw [directIfDecimProcessSplit, if_pos hshort, Nat.div_eq_of_lt hshort]
    exact ⟨rfl, by simpa using h, rfl⟩
  have hfits (f : Int16 × Int16 → Int16) :
      didecimDecim*((c.map f).length/didecimDecim) ≤ (c.map f).length := Nat.mul_div_le _ _
  have hi := firLoop_spec d.taps _ m h.i (by rw [length_map, hxs]) _ (hfits Prod.fst)
  have hq := firLoop_spec d.taps _ m h.q (by rw [length_map, hxs]) _ (hfits Prod.snd)
  rw [directIfDecimProcessSplit, if_neg hshort]
  refine ⟨?_, ⟨?_, ?_⟩, rfl⟩
  · simp only [didecimRealFir]
    rw [hi.1, hq.1, length_map, length_map, zip_map']
    refine map_congr_left fun k _ => ?_
    rw [decimated, map_append, map_append]
  · rw [map_append, map_take]
    simpa [didecimRealFir] using hi.2
  · rw [map_append, map_take]
    simpa [didecimRealFir] using hq.2

theorem processChunks_spec {d : Decim} {xs : List (Int16 × Int16)} (h : Tuned d xs) {m : Nat}
    (hxs : xs.length = didecimDecim*m) (cs : List (List (Int16 × Int16)))
    (hcs : ∀ c ∈ cs.dropLast, didecimDecim ∣ c.length) :
    (processChunks d cs).2 =
      (List.range' m (cs.flatten.length/didecimDecim)).map (decimated d.taps (xs++cs.flatten)) := by
  induction cs generalizing d xs m with
  | nil => rfl
  | cons c cs ih =>
    obtain ⟨hout,htuned,htaps⟩ := processSplit_spec h hxs c
    cases cs with
    | nil => simp [processChunks, hout]
    | cons c' cs =>
      obtain ⟨n,hn⟩ := hcs c (by simp)
      have hwhole : c.take (didecimDecim*(c.length/didecimDecim)) = c := by
        rw [hn, Nat.mul_div_cancel_left n (by decide), ← hn, take_length]
      rw [hwhole] at htuned
      have hlen : (xs++c).length = didecimDecim*(m+n) := by
        rw [length_append, hxs, hn, Nat.mul_add]
      have hrest := ih htuned hlen (fun x hx => hcs x (by
        rw [dropLast_cons_cons]
        exact mem_cons_of_mem c hx))
      have hcount : (c::c'::cs).flatten.length/didecimDecim =
          n+(c'::cs).flatten.length/didecimDecim := by
        rw [flatten_cons, length_append, hn, Nat.mul_add_div (by decide)]
      rw [processChunks, hrest, hout, htaps, hcount, flatten_cons, append_assoc,
        ← range'_append_1, map_append, hn, Nat.mul_div_cancel_left n (by decide)]
      refine congrArg (·++_) (map_congr_left ?_)
      intro k hk
      have hlt := (mem_range'_1.mp hk).2
      have hbefore : didecimDecim*k+9 < (xs++c).length := by
        rw [hlen]
        simp only [didecimDecim]
        omega
      rw [flatten_cons, ← append_assoc, decimated_append _ (xs++c) _ hbefore]

theorem wbExtractFrom_eq (r : Rotation) (d : Decim) (off : Nat) (window : List (Int16 × Int16)) :
    wbExtractFrom r d off window = (processChunks d (rotatedChunks r off window)).2 := by
  fun_induction wbExtractFrom r d off window with
  | case1 d off window hnil => rw [rotatedChunks, if_pos hnil, processChunks]
  | case2 d off window hne out ih =>
    rw [rotatedChunks, if_neg hne, processChunks, ← ih]

theorem rotatedChunks_aligned (r : Rotation) (off : Nat) (window : List (Int16 × Int16)) :
    ∀ c ∈ (rotatedChunks r off window).dropLast, didecimDecim ∣ c.length := by
  fun_induction rotatedChunks r off window with
  | case1 off window hnil => simp
  | case2 off window hne ih =>
    intro c hc
    by_cases hlast : rotatedChunks r (off+decimChunkIn) (window.drop decimChunkIn) = []
    · rw [hlast] at hc
      simp at hc
    rw [dropLast_cons_of_ne_nil hlast] at hc
    obtain rfl | hc := mem_cons.mp hc
    · have hmore : decimChunkIn ≤ window.length := by
        by_contra hless
        apply hlast
        rw [rotatedChunks, if_pos (by rw [length_drop]; omega)]
      rw [r.length_rotate, length_take, Nat.min_eq_left hmore]
      decide
    · exact ih c hc

/-- However the samples are cut into calls, the outputs are those of the convolution. -/
theorem decimation_chunk_invariant (d : Decim) (chunks : List (List (Int16 × Int16)))
    (hchunks : ∀ c ∈ chunks, didecimDecim ∣ c.length) (r : Rotation)
    (window : List (Int16 × Int16)) :
    (processChunks (directIfDecimResetState d) chunks).2 =
        (List.range (chunks.flatten.length/didecimDecim)).map (decimated d.taps chunks.flatten) ∧
      wbExtractDecim d r window =
        (directIfDecimProcessSplit (directIfDecimResetState d) (rotatedWindow r window)).2 := by
  have hreset := tuned_reset d
  refine ⟨?_, ?_⟩
  · rw [processChunks_spec (m := 0) hreset rfl chunks
      (fun c hc => hchunks c (mem_of_mem_dropLast hc)), range_eq_range',
      nil_append]
    rfl
  · rw [wbExtractDecim, wbExtractFrom_eq, processChunks_spec (m := 0) hreset rfl _
      (rotatedChunks_aligned r 0 window), (processSplit_spec (m := 0) hreset rfl _).1]
    rfl

theorem decimation_two_chunks :
    (processChunks (directIfDecimResetState ⟨fun t => 16000-100*.ofNat t, .cleared, .cleared⟩)
        [List.replicate 10 (100, -200), List.replicate 20 (300, 400)]).2 =
        [(475, -949), (1868, 1011), (3170, 2848)] ∧
      wbExtractDecim ⟨fun t => 16000-100*.ofNat t, .cleared, .cleared⟩
        ⟨fun _ xs => xs.map Prod.swap, fun _ _ => length_map _⟩
        (List.replicate 25 (30000, -600)) = [(-2847, 11293), (-5511, 13430)] := by
  have hchunks : ∀ c ∈ [List.replicate 10 ((100, -200) : Int16 × Int16),
      List.replicate 20 (300, 400)], didecimDecim ∣ c.length := by
    intro c hc
    simp only [mem_cons, not_mem_nil, or_false] at hc
    obtain rfl | rfl := hc
    · decide
    · decide
  obtain ⟨hchunked,hwindow⟩ := decimation_chunk_invariant
    ⟨fun t => 16000-100*.ofNat t, .cleared, .cleared⟩ _ hchunks
    ⟨fun _ xs => xs.map Prod.swap, fun _ _ => length_map _⟩ (List.replicate 25 (30000, -600))
  have hrotated : rotatedWindow ⟨fun _ xs => xs.map Prod.swap, fun _ _ => length_map _⟩
      (List.replicate 25 (30000, -600)) = List.replicate 25 (-600, 30000) := by
    rw [rotatedWindow, rotatedChunks, if_neg (by decide), rotatedChunks, if_pos (by decide)]
    rfl
  rw [hrotated] at hwindow
  exact ⟨hchunked.trans (by decide +kernel), hwindow.trans (by decide +kernel)⟩

end IridiumAcars.DirectIfDecim
