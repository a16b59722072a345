import IridiumAcars.Vdl2L2

/-! The column order of a transmission's rows, undone by `l2_deinterleave`. -/
namespace IridiumAcars.Vdl2Interleave
open RsVdl2 Vdl2L2 List

section
variable (rows width last : Nat)

def colHeight (c : Nat) : Nat := if c < last then rows else rows-1

def sendOrder : List (Nat × Nat) :=
  (List.range width).flatMap fun c => (List.range (colHeight rows last c)).map fun r => (r, c)

variable {rows width last}

theorem mem_sendOrder {p : Nat × Nat} :
    p ∈ sendOrder rows width last ↔ p.2 < width ∧ p.1 < colHeight rows last p.2 := by
  obtain ⟨r,c⟩ := p
  simp [sendOrder]

theorem nodup_sendOrder : (sendOrder rows width last).Nodup := by
  rw [sendOrder, nodup_flatMap]
  constructor
  · intro c _
    exact nodup_range.map fun r s h => congrArg Prod.fst h
  · refine nodup_range.pairwise_of_forall_ne ?_
    intro c _ d _ hcd
    rw [Function.onFun_apply, disjoint_left]
    intro p hp hq
    obtain ⟨r,_,rfl⟩ := mem_map.mp hp
    obtain ⟨s,_,hs⟩ := mem_map.mp hq
    exact hcd (congrArg Prod.snd hs).symm

theorem length_sendOrder (hrows : 0 < rows) (hlast : last ≤ width) :
    (sendOrder rows width last).length = (rows-1)*width+last := by
  have hprefix (n : Nat) : ((List.range n).flatMap fun c =>
      (List.range (colHeight rows last c)).map fun r => (r, c)).length = (rows-1)*n+min n last := by
    induction n with
    | zero => simp
    | succ n ih =>
      rw [range_succ, flatMap_append, length_append, ih, Nat.mul_succ]
      simp only [flatMap_cons, flatMap_nil, append_nil, length_map,
        length_range, colHeight]
      split_ifs with hn
      · rw [Nat.min_eq_left (by omega), Nat.min_eq_left (by omega)]
        omega
      · rw [Nat.min_eq_right (by omega), Nat.min_eq_right (by omega)]
        omega
  rw [sendOrder, hprefix, Nat.min_eq_right hlast]

theorem map_sendOrder {α : Type*} (T : Nat → Nat → α) :
    (sendOrder rows width last).map (fun p => T p.1 p.2) =
      (List.range width).flatMap fun c =>
        (List.range (colHeight rows last c)).map fun r => T r c := by
  simp [sendOrder, map_flatMap, Function.comp_def]

end

section
variable {α : Type*} (zero : α) {rows last off : Nat} (T : Nat → Nat → α)

def putColumn (off : Nat) (T : Nat → Nat → α) (tab : Nat → Nat → α) (c m : Nat) : Nat → Nat → α :=
  fun r d => if d = off+c ∧ r < m then T r c else tab r d

theorem store_putColumn (tab : Nat → Nat → α) (c m : Nat) :
    store (putColumn off T tab c m) m (off+c) (T m c) = putColumn off T tab c (m+1) := by
  funext r d
  simp only [store, putColumn]
  by_cases hd : d = off+c
  · by_cases hr : r = m
    · simp [hd, hr]
    · have hlt : r < m+1 ↔ r < m := by omega
      simp [hr, hlt]
  · simp [hd]

theorem foldl_column (tab : Nat → Nat → α) (c m : Nat) (hm : m ≤ colHeight rows last c) :
    ((List.range m).map fun r => T r c).foldl (walkStep zero rows (last+off)) ⟨0, off+c, tab⟩ =
      if m = rows ∧ 0 < m then ⟨0, off+c+1, putColumn off T tab c m⟩
      else ⟨m, off+c, putColumn off T tab c m⟩ := by
  induction m with
  | zero =>
    have h0 : putColumn off T tab c 0 = tab := by
      funext r d
      simp [putColumn]
    simp [h0]
  | succ m ih =>
    have hlt : m < colHeight rows last c := hm
    have hrows : m < rows := by
      rw [colHeight] at hlt
      split at hlt <;> omega
    have hskip : ¬(m = rows-1 ∧ off+c ≥ last+off) := by
      rw [colHeight] at hlt
      split at hlt <;> omega
    rw [range_succ, map_append, foldl_append, ih (by omega), if_neg (by omega)]
    simp only [map_cons, map_nil, foldl_cons, foldl_nil, walkStep,
      if_neg hskip, store_putColumn]
    by_cases hend : m+1 = rows
    · rw [if_pos hend, if_pos ⟨hend, by omega⟩]
    · rw [if_neg hend, if_neg (by omega)]

theorem foldl_stale (tab : Nat → Nat → α) (c : Nat) (xs : List α) (hrows : 1 < rows)
    (hc : last+off ≤ c) (hz : tab (rows-1) c = zero) :
    (xs.foldl (walkStep zero rows (last+off)) ⟨rows-1, c, tab⟩).tab =
      (xs.foldl (walkStep zero rows (last+off)) ⟨0, c+1, tab⟩).tab := by
  have hstore : store tab (rows-1) c zero = tab := by
    funext r d
    simp only [store]
    split
    · next h => rw [h.1, h.2, hz]
    · rfl
  cases xs with
  | nil => rfl
  | cons x xs =>
    have hstep : walkStep zero rows (last+off) ⟨rows-1, c, tab⟩ x =
        walkStep zero rows (last+off) ⟨0, c+1, tab⟩ x := by
      have hfresh : ¬(0 = rows-1 ∧ c+1 ≥ last+off) := by omega
      simp [walkStep, ge_iff_le, hc, hstore, if_neg hfresh]
    rw [foldl_cons, foldl_cons, hstep]

def putColumns (rows last off : Nat) (T tab : Nat → Nat → α) (n d : Nat) : Nat → Nat → α :=
  fun r c =>
    if off+n ≤ c ∧ c < off+n+d ∧ r < colHeight rows last (c-off) then T r (c-off) else tab r c

theorem putColumns_putColumn (tab : Nat → Nat → α) (n d : Nat) :
    putColumns rows last off T (putColumn off T tab n (colHeight rows last n)) (n+1) d =
      putColumns rows last off T tab n (d+1) := by
  funext r c
  simp only [putColumns, putColumn]
  by_cases hc : c = off+n
  · simp [hc]
  · have hiff : (off+(n+1) ≤ c ∧ c < off+(n+1)+d) ↔ off+n ≤ c ∧ c < off+n+(d+1) := by omega
    simp [← and_assoc, hiff, hc]

theorem columns_nil (n d : Nat) (hlast : last ≤ n) :
    ((List.range' n d).flatMap fun c => (List.range (colHeight 1 last c)).map fun r => T r c) =
    [] := by
  rw [flatMap_eq_nil_iff]
  intro c hc
  have hle : last ≤ c := le_trans hlast (mem_range'_1.mp hc).1
  simp [colHeight, hle]

theorem foldl_columns (d n : Nat) (tab : Nat → Nat → α) (hrows : 0 < rows)
    (hz : ∀ c, last+off ≤ c → tab (rows-1) c = zero) :
    (((List.range' n d).flatMap fun c =>
        (List.range (colHeight rows last c)).map fun r => T r c).foldl
      (walkStep zero rows (last+off)) ⟨0, off+n, tab⟩).tab =
      putColumns rows last off T tab n d := by
  induction d generalizing n tab with
  | zero =>
    funext r c
    have hnone : ¬(off+n ≤ c ∧ c < off+n+0 ∧ r < colHeight rows last (c-off)) := by omega
    simp only [range'_zero, flatMap_nil, foldl_nil, putColumns, if_neg hnone]
  | succ d ih =>
    by_cases hshort : rows = 1 ∧ last ≤ n
    · obtain ⟨rfl,hlast⟩ := hshort
      rw [columns_nil T n (d+1) hlast, foldl_nil]
      funext r c
      have hnone : ¬(off+n ≤ c ∧ c < off+n+(d+1) ∧ r < colHeight 1 last (c-off)) := by
        rw [colHeight]
        split <;> omega
      simp only [putColumns, if_neg hnone]
    · rw [range'_succ, flatMap_cons, foldl_append,
        foldl_column zero T tab n _ le_rfl, ← putColumns_putColumn]
      by_cases hn : n < last
      · have hfull : colHeight rows last n = rows := if_pos hn
        rw [if_pos ⟨hfull, by omega⟩, Nat.add_assoc]
        apply ih
        intro c hc
        have hne : ¬(c = off+n ∧ rows-1 < colHeight rows last n) := by omega
        simp only [putColumn, if_neg hne, hz c hc]
      · have hpart : colHeight rows last n = rows-1 := if_neg hn
        have hkeep (c : Nat) : putColumn off T tab n (rows-1) (rows-1) c = tab (rows-1) c := by
          simp [putColumn]
        rw [if_neg (by omega), hpart, foldl_stale zero _ _ _ (by omega) (by omega)
          (by rw [hkeep, hz _ (by omega)]), Nat.add_assoc]
        apply ih
        intro c hc
        rw [hkeep, hz c hc]

theorem putColumns_eq {width : Nat} (tab : Nat → Nat → α) (r c : Nat) :
    putColumns rows last off T tab 0 width r c =
      if off ≤ c ∧ (r, c-off) ∈ sendOrder rows width last then T r (c-off) else tab r c := by
  have hiff : (off+0 ≤ c ∧ c < off+0+width ∧ r < colHeight rows last (c-off)) ↔
      off ≤ c ∧ (r, c-off) ∈ sendOrder rows width last := by
    simp only [mem_sendOrder]
    omega
  simp only [putColumns, hiff]

theorem length_tests {rows width last len : Nat} (hpos : 0 < last) (hlast : last ≤ width)
    (hsize : (rows-1)*width < 2^32) (hlen : len = (rows-1)*width+last) :
    (if len%width = 0 then width else len%width) = last ∧
      (len+2^32-last)%2^32 = (rows-1)*width := by
  refine ⟨?_, ?_⟩
  · rw [hlen, Nat.mul_add_mod_self_right]
    by_cases hw : last = width
    · rw [hw, Nat.mod_self, if_pos rfl]
    · rw [Nat.mod_eq_of_lt (by omega), if_neg (by omega)]
  · rw [hlen, Nat.add_right_comm, Nat.add_sub_cancel, Nat.add_mod_right, Nat.mod_eq_of_lt hsize]

theorem l2Deinterleave_eq_walk {width : Nat} (input : List α) (tab : Nat → Nat → α)
    (hrows : 0 < rows) (hpos : 0 < last) (hlast : last ≤ width) (hfit : width+off ≤ rsVdl2N)
    (hsize : (rows-1)*width < 2^32) (hlen : input.length = (rows-1)*width+last) :
    l2Deinterleave zero input rows tab width off =
      some (input.foldl (walkStep zero rows (last+off)) ⟨0, off, tab⟩).tab := by
  have hsplit : rows*width = (rows-1)*width+width := by
    rw [← Nat.succ_mul]
    congr 1
    omega
  obtain ⟨hmod,hsub⟩ := length_tests hpos hlast hsize hlen
  rw [l2Deinterleave]
  simp only [hmod, hsub]
  rw [if_neg (by omega), if_neg (by omega), if_neg (by omega), if_neg (by omega)]

theorem l2Deinterleave_sendOrder {width : Nat} (tab : Nat → Nat → α) (hrows : 0 < rows)
    (hpos : 0 < last) (hlast : last ≤ width) (hfit : width+off ≤ rsVdl2N)
    (hsize : (rows-1)*width < 2^32) (hz : ∀ c, last+off ≤ c → tab (rows-1) c = zero) :
    l2Deinterleave zero ((sendOrder rows width last).map fun p => T p.1 p.2) rows tab width off =
      some (putColumns rows last off T tab 0 width) := by
  have hlen : ((sendOrder rows width last).map fun p => T p.1 p.2).length =
      (rows-1)*width+last := by
    rw [length_map, length_sendOrder hrows hlast]
  rw [l2Deinterleave_eq_walk zero _ tab hrows hpos hlast hfit hsize hlen, map_sendOrder,
    range_eq_range']
  exact congrArg some (foldl_columns zero T width 0 tab hrows hz)

end

section
variable (l : Layout)

def dataLen (r : Nat) : Nat := if r = l.numBlocks-1 then l.last else rsVdl2K

def fecLen (r : Nat) : Nat := if r = l.numBlocks-1 then fecOctetcount l.last else rsVdl2Nroots

def lastFec : Nat := if fecOctetcount l.last = 0 then rsVdl2Nroots else fecOctetcount l.last

def Transmitted (r c : Nat) : Prop := c < dataLen l r ∨ (rsVdl2K ≤ c ∧ c < rsVdl2K+fecLen l r)

instance (r c : Nat) : Decidable (Transmitted l r c) := inferInstanceAs (Decidable (_ ∨ _))

def dataCells : List (Nat × Nat) := sendOrder l.numBlocks rsVdl2K l.last

def fecCells : List (Nat × Nat) :=
  (sendOrder l.fecRows rsVdl2Nroots (lastFec l)).map fun p => (p.1, rsVdl2K+p.2)

def airCells : List (Nat × Nat) := dataCells l++fecCells l

structure Sound (l : Layout) : Prop where
  rows_pos : 0 < l.numBlocks
  rows_le : l.numBlocks ≤ 9
  last_pos : 0 < l.last
  last_le : l.last ≤ rsVdl2K
  data_eq : l.datalenOctets = (l.numBlocks-1)*rsVdl2K+l.last
  fec_eq : l.fecOctets = (l.numBlocks-1)*rsVdl2Nroots+fecOctetcount l.last
  fec_pos : 0 < l.fecOctets

theorem fecOctetcount_le (len : Nat) : fecOctetcount len ≤ rsVdl2Nroots := by
  rw [fecOctetcount, rsVdl2Nroots]
  split
  · omega
  · split
    · omega
    · split <;> omega

theorem bodyFec_eq (len : Nat) :
    (if len = 0 then 0 else if len < 3 then 0 else if len < 31 then 2 else
      if len < 68 then 4 else 6) = fecOctetcount len := by
  rw [fecOctetcount]
  by_cases h0 : len = 0
  · simp [h0]
  · rw [if_neg h0]

theorem layout_sound {d body : Nat} (h : Vdl2Header.vdl2BurstBodyBits d = some body) :
    Sound (layout d) ∧ body = 8*((layout d).datalenOctets+(layout d).fecOctets) := by
  have hk : rsVdl2K = 249 := rfl
  have hroots : rsVdl2Nroots = 6 := rfl
  by_cases hd : d = 0 ∨ d > Vdl2Header.vdl2MaxFrameBits
  · rw [Vdl2Header.vdl2BurstBodyBits, if_pos hd] at h
    cases h
  rw [Vdl2Header.vdl2BurstBodyBits, if_neg hd] at h
  simp only [bodyFec_eq] at h
  have hbound : 0 < (d+7)/8 ∧ (d+7)/8 ≤ 2048 := by
    rw [Vdl2Header.vdl2MaxFrameBits] at hd
    omega
  have hdiv := Nat.div_add_mod ((d+7)/8) 249
  have hmod := Nat.mod_lt ((d+7)/8) (show 0 < 249 by decide)
  simp only [layout, hk, hroots]
  generalize (d+7)/8/249 = q at *
  generalize (d+7)/8%249 = m at *
  by_cases hfec : q*6+fecOctetcount m = 0
  · rw [if_pos hfec] at h
    cases h
  rw [if_neg hfec, Option.some_inj] at h
  refine ⟨?_, h.symm⟩
  by_cases hm : m = 0
  · have hzero : fecOctetcount 0 = 0 := rfl
    have hfull : fecOctetcount 249 = 6 := rfl
    refine ⟨?_, ?_, ?_, ?_, ?_, ?_, ?_⟩ <;> simp only [hm, ne_eq, not_true_eq_false, if_false,
      if_true, hk, hroots, hzero, hfull] at * <;> omega
  · refine ⟨?_, ?_, ?_, ?_, ?_, ?_, ?_⟩ <;> simp only [hm, ne_eq, not_false_eq_true, if_false,
      if_true, hk, hroots] <;> omega

variable {l}

theorem fecRows_spec (hl : Sound l) : 0 < l.fecRows ∧ l.fecRows ≤ 9 ∧
    l.fecOctets = (l.fecRows-1)*rsVdl2Nroots+lastFec l := by
  obtain ⟨hpos,hle,-,-,-,hfec,hfpos⟩ := hl
  rw [Layout.fecRows, lastFec]
  rw [rsVdl2Nroots] at hfec ⊢
  by_cases h0 : fecOctetcount l.last = 0
  · rw [if_pos h0, if_pos h0]
    omega
  · rw [if_neg h0, if_neg h0]
    omega

theorem length_dataCells (hl : Sound l) : (dataCells l).length = l.datalenOctets := by
  rw [dataCells, length_sendOrder hl.rows_pos hl.last_le, hl.data_eq]

theorem lastFec_le : 0 < lastFec l ∧ lastFec l ≤ rsVdl2Nroots := by
  have hle := fecOctetcount_le l.last
  have hroots : rsVdl2Nroots = 6 := rfl
  rw [lastFec]
  split <;> omega

theorem length_fecCells (hl : Sound l) : (fecCells l).length = l.fecOctets := by
  obtain ⟨hpos,-,hfec⟩ := fecRows_spec hl
  rw [fecCells, length_map, length_sendOrder hpos lastFec_le.2, hfec]

theorem mem_dataCells (hl : Sound l) {r c : Nat} :
    (r, c) ∈ dataCells l ↔ r < l.numBlocks ∧ c < dataLen l r := by
  have hle := hl.last_le
  have hpos := hl.rows_pos
  rw [dataCells, mem_sendOrder, colHeight, dataLen]
  by_cases hr : r = l.numBlocks-1
  · rw [if_pos hr]
    split <;> omega
  · rw [if_neg hr]
    split <;> omega

theorem mem_fecCells_shift {r c : Nat} : (r, c) ∈ fecCells l ↔
    rsVdl2K ≤ c ∧ (r, c-rsVdl2K) ∈ sendOrder l.fecRows rsVdl2Nroots (lastFec l) := by
  rw [fecCells, mem_map]
  constructor
  · rintro ⟨p,hp,heq⟩
    obtain ⟨rfl,rfl⟩ := Prod.mk.inj heq
    exact ⟨by omega, by simpa using hp⟩
  · rintro ⟨hc,hp⟩
    exact ⟨_, hp, by simp only [Nat.add_sub_cancel' hc]⟩

theorem mem_fecCells (hl : Sound l) {r c : Nat} :
    (r, c) ∈ fecCells l ↔ r < l.numBlocks ∧ rsVdl2K ≤ c ∧ c < rsVdl2K+fecLen l r := by
  have hpos := hl.rows_pos
  have hle := fecOctetcount_le l.last
  rw [mem_fecCells_shift, mem_sendOrder, colHeight, fecLen, lastFec, Layout.fecRows]
  by_cases h0 : fecOctetcount l.last = 0
  · rw [if_pos h0, if_pos h0]
    split <;> split <;> omega
  · rw [if_neg h0, if_neg h0]
    split <;> split <;> omega

theorem mem_airCells (hl : Sound l) {r c : Nat} :
    (r, c) ∈ airCells l ↔ r < l.numBlocks ∧ Transmitted l r c := by
  rw [airCells, mem_append, mem_dataCells hl, mem_fecCells hl, Transmitted]
  exact and_or_left.symm

theorem nodup_airCells (hl : Sound l) : (airCells l).Nodup := by
  rw [airCells, nodup_append]
  refine ⟨nodup_sendOrder, nodup_sendOrder.map fun p q h => ?_, ?_⟩
  · obtain ⟨hr,hc⟩ := Prod.mk.inj h
    exact Prod.ext hr (by omega)
  · rintro ⟨r,c⟩ hp q hq rfl
    have hd := (mem_dataCells hl).mp hp
    have hf := (mem_fecCells hl).mp hq
    have hle := hl.last_le
    rw [dataLen] at hd
    split at hd <;> omega

theorem deinterleaveBoth_airCells {α : Type*} (zero : α) (hl : Sound l) (T : Nat → Nat → α) :
    ∃ tab, deinterleaveBoth zero l ((dataCells l).map fun p => T p.1 p.2)
        ((fecCells l).map fun p => T p.1 p.2) = some tab ∧
      ∀ r < l.numBlocks, ∀ c, tab r c = if Transmitted l r c then T r c else zero := by
  obtain ⟨hfpos,hfle,-⟩ := fecRows_spec hl
  obtain ⟨hlpos,hlle⟩ := lastFec_le (l := l)
  have hk : rsVdl2K = 249 := rfl
  have hroots : rsVdl2Nroots = 6 := rfl
  have hn : rsVdl2N = 255 := rfl
  have hrows := hl.rows_le
  have hdata : l2Deinterleave zero ((dataCells l).map fun p => T p.1 p.2) l.numBlocks
      (fun _ _ => zero) rsVdl2K 0 =
        some (putColumns l.numBlocks l.last 0 T (fun _ _ => zero) 0 rsVdl2K) :=
    l2Deinterleave_sendOrder zero T _ hl.rows_pos hl.last_pos hl.last_le (by omega)
      (by rw [hk]; omega) fun _ _ => rfl
  have hlow : ∀ r c, rsVdl2K ≤ c →
      putColumns l.numBlocks l.last 0 T (fun _ _ => zero) 0 rsVdl2K r c = zero := by
    intro r c hc
    exact if_neg (by omega)
  have hfec : l2Deinterleave zero ((fecCells l).map fun p => T p.1 p.2) l.fecRows
      (putColumns l.numBlocks l.last 0 T (fun _ _ => zero) 0 rsVdl2K) rsVdl2Nroots rsVdl2K =
        some (putColumns l.fecRows (lastFec l) rsVdl2K (fun r c => T r (rsVdl2K+c))
          (putColumns l.numBlocks l.last 0 T (fun _ _ => zero) 0 rsVdl2K) 0 rsVdl2Nroots) := by
    have h := l2Deinterleave_sendOrder zero (fun r c => T r (rsVdl2K+c))
      (putColumns l.numBlocks l.last 0 T (fun _ _ => zero) 0 rsVdl2K) hfpos hlpos hlle
      (show rsVdl2Nroots+rsVdl2K ≤ rsVdl2N by decide) (by rw [hroots]; omega)
      fun c hc => hlow _ c (by omega)
    rw [← h, fecCells, map_map]
    rfl
  refine ⟨_, by rw [deinterleaveBoth, hdata]; dsimp only; rw [if_neg (by omega), hfec], ?_⟩
  intro r hr c
  have hair := mem_airCells hl (r := r) (c := c)
  rw [airCells, mem_append, and_iff_right hr] at hair
  rw [putColumns_eq, putColumns_eq, Nat.sub_zero, ← dataCells]
  simp only [← mem_fecCells_shift, Nat.zero_le, true_and, ← hair]
  by_cases hf : (r, c) ∈ fecCells l
  · have hc := (mem_fecCells_shift.mp hf).1
    simp [hf, Nat.add_sub_cancel' hc]
  · simp [hf]

end

end IridiumAcars.Vdl2Interleave
