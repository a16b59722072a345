import IridiumAcars.Vdl2RoundTrip

/-! The erasure fallback of vdl2_l2.c only adds, and its array work stays in range. -/
namespace IridiumAcars.Vdl2Fallback
open RsVdl2 Vdl2Header Vdl2L2 Vdl2Interleave Vdl2RoundTrip Avlc List

def vdl2L2Frames (bits : List Bool) (soft : Option (List Int)) : Except L2Error (List AvlcFrame) :=
  (l2Handover bits soft).map fun x => avlcCallbacks x.1 x.2

section
variable {α : Type*}

/-- Entry `i` of a vector of `n`; `none` is a read outside. -/
def readAt (n : Nat) (xs : List α) (dflt : α) (i : Nat) : Option α :=
  if i < n then some (xs.getD i dflt) else none

def packLsbfirstChecked (nBits : Nat) (bits : List Bool) (base nOctets : Nat) :
    Option (List UInt8) :=
  (List.range nOctets).mapM fun i =>
    ((List.range 8).foldlM (fun b j =>
      (readAt nBits bits false (base+8*i+j)).map fun x => b ||| x.toNat <<< j) 0).map UInt8.ofNat

def packConfLsbfirstChecked (nBits : Nat) (soft : List Int) (baseBit nOctets : Nat) :
    Option (List Int) :=
  (List.range nOctets).mapM fun i =>
    (List.range 8).foldlM (fun (m : Int) j =>
      (readAt nBits soft 0 (baseBit+8*i+j)).map fun s =>
        let a : Nat := min s.natAbs 32767
        if (a : Int) < m then (a : Int) else m) 32767

def storeChecked (numBlocks : Nat) (tab : Nat → Nat → α) (row col : Nat) (x : α) :
    Option (Nat → Nat → α) :=
  if row < numBlocks ∧ col < rsVdl2N then some (store tab row col x) else none

def walkStepChecked (numBlocks : Nat) (zero : α) (rows lastRowLen : Nat) (w : Walk α) (x : α) :
    Option (Walk α) :=
  (if w.row = rows-1 ∧ w.col ≥ lastRowLen then
      (storeChecked numBlocks w.tab w.row w.col zero).map fun tab => ⟨0, w.col+1, tab⟩
    else some w).bind fun w =>
      (storeChecked numBlocks w.tab w.row w.col x).map fun tab =>
        if w.row+1 = rows then ⟨0, w.col+1, tab⟩ else ⟨w.row+1, w.col, tab⟩

def l2DeinterleaveChecked (numBlocks : Nat) (zero : α) (input : List α) (rows : Nat)
    (tab : Nat → Nat → α) (fillwidth offset : Nat) : Option (Option (Nat → Nat → α)) :=
  let len := input.length
  let lastRowLen := if len%fillwidth = 0 then fillwidth else len%fillwidth
  if rows = 0 ∨ fillwidth = 0 then some none
  else if fillwidth+offset > rsVdl2N then some none
  else if len > rows*fillwidth then some none
  else if rows > 1 ∧ (len+2^32-lastRowLen)%2^32 < (rows-1)*fillwidth then some none
  else (input.foldlM (walkStepChecked numBlocks zero rows (lastRowLen+offset))
    ⟨0, offset, tab⟩).map fun w => some w.tab

def deinterleaveBothChecked (zero : α) (l : Layout) (data fec : List α) :
    Option (Option (Nat → Nat → α)) :=
  (l2DeinterleaveChecked l.numBlocks zero data l.numBlocks (fun _ _ => zero) rsVdl2K 0).bind
    fun r => match r with
      | none => some none
      | some tab =>
        if l.fecRows = 0 then some (some tab)
        else l2DeinterleaveChecked l.numBlocks zero fec l.fecRows tab rsVdl2Nroots rsVdl2K

def confTableChecked (nBits : Nat) (soft : Option (List Int)) (l : Layout) :
    Option (Option (Nat → Nat → Int)) :=
  match soft with
  | none => some none
  | some soft =>
    (packConfLsbfirstChecked nBits soft vdl2HdrBits l.datalenOctets).bind fun data =>
      (packConfLsbfirstChecked nBits soft (vdl2HdrBits+8*l.datalenOctets) l.fecOctets).bind
        fun fec => deinterleaveBothChecked (0 : Int) l data fec

def l2CorrectedChecked (d : Nat) (bits : List Bool) (soft : Option (List Int)) :
    Option (Except L2Error (List UInt8)) :=
  let l := layout d
  (packLsbfirstChecked bits.length bits vdl2HdrBits l.datalenOctets).bind fun data =>
    (packLsbfirstChecked bits.length bits (vdl2HdrBits+8*l.datalenOctets) l.fecOctets).bind
      fun fec => (deinterleaveBothChecked (0 : UInt8) l data fec).bind fun both =>
        match both with
        | none => some (.error .internal)
        | some tab => (confTableChecked bits.length soft l).map fun conf =>
          match decodeRows l tab conf with
          | none => .error .rs
          | some octets => .ok octets

/-- `l2Handover` with every access to the bit vectors and the tables checked. -/
def l2HandoverChecked (bits : List Bool) (soft : Option (List Int)) :
    Option (Except L2Error (List UInt8 × Nat)) :=
  match l2Header bits with
  | .error e => some (.error e)
  | .ok datalen =>
    (l2CorrectedChecked datalen bits soft).map fun r => r.map fun octets => (octets, datalen)

end

section
variable {α β : Type*}

theorem foldlM_eq_some {f : β → α → Option β} {g : β → α → β} {l : List α}
    (h : ∀ a ∈ l, ∀ b, f b a = some (g b a)) (b : β) : l.foldlM f b = some (l.foldl g b) := by
  induction l generalizing b with
  | nil => rfl
  | cons a l ih =>
    rw [foldlM_cons, h a mem_cons_self, foldl_cons]
    exact ih (fun x hx => h x (mem_cons_of_mem a hx)) _

theorem readAt_of_lt {n i : Nat} (xs : List α) (dflt : α) (h : i < n) :
    readAt n xs dflt i = some (xs.getD i dflt) := if_pos h

theorem getD_drop (xs : List α) (base i : Nat) (dflt : α) :
    (xs.drop base).getD i dflt = xs.getD (base+i) dflt := by
  rw [getD_eq_getElem?_getD, getD_eq_getElem?_getD, getElem?_drop]

theorem packLsbfirstChecked_eq (bits : List Bool) {base nOctets : Nat}
    (h : base+8*nOctets ≤ bits.length) :
    packLsbfirstChecked bits.length bits base nOctets =
      some (packLsbfirst (bits.drop base) nOctets) := by
  rw [packLsbfirstChecked, packLsbfirst]
  apply mapM_eq_some
  intro i hi
  rw [mem_range] at hi
  rw [foldlM_eq_some (g := fun b j => b ||| ((bits.drop base).getD (8*i+j) false).toNat <<< j)]
  · rfl
  · intro j hj b
    rw [mem_range] at hj
    rw [readAt_of_lt bits false (by omega), getD_drop, Nat.add_assoc]
    rfl

theorem packConfLsbfirstChecked_eq (soft : List Int) {nBits base nOctets : Nat}
    (h : base+8*nOctets ≤ nBits) :
    packConfLsbfirstChecked nBits soft base nOctets =
      some (packConfLsbfirst soft base nOctets) := by
  rw [packConfLsbfirstChecked, packConfLsbfirst]
  apply mapM_eq_some
  intro i hi
  rw [mem_range] at hi
  apply foldlM_eq_some
  intro j hj m
  rw [mem_range] at hj
  rw [readAt_of_lt soft 0 (by omega)]
  rfl

end

section
variable {α : Type*} {zero : α} {rows lastEnd endCol : Nat}

structure Fits (rows lastEnd endCol n : Nat) (w : Walk α) : Prop where
  row : w.row < rows
  left : n+w.row = if w.col < lastEnd then (lastEnd-w.col)*rows+(endCol-lastEnd)*(rows-1)
    else (endCol-w.col)*(rows-1)

theorem Fits.cell {n : Nat} {w : Walk α} (h : Fits rows lastEnd endCol (n+1) w)
    (hend : lastEnd ≤ endCol) : w.col < endCol := by
  have hleft := h.left
  split at hleft
  · omega
  · by_contra hc
    rw [Nat.sub_eq_zero_of_le (by omega), Nat.zero_mul] at hleft
    omega

theorem Fits.behind {n : Nat} {w : Walk α} (h : Fits rows lastEnd endCol (n+1) w)
    (hrow : w.row = rows-1) (hcol : lastEnd ≤ w.col) :
    1 < rows ∧ w.col+1 < endCol ∧ n+1 = (endCol-(w.col+1))*(rows-1) := by
  have hleft := h.left
  have hlt := h.row
  rw [if_neg (by omega)] at hleft
  have hcol' : w.col < endCol := by
    by_contra hc
    rw [Nat.sub_eq_zero_of_le (by omega), Nat.zero_mul] at hleft
    omega
  have hsplit : (endCol-w.col)*(rows-1) = (endCol-(w.col+1))*(rows-1)+(rows-1) := by
    rw [← Nat.succ_mul]
    congr 1
    omega
  have hn : n+1 = (endCol-(w.col+1))*(rows-1) := by omega
  refine ⟨?_, ?_, hn⟩
  · by_contra hr
    rw [show rows-1 = 0 by omega, Nat.mul_zero] at hn
    omega
  · by_contra hc
    rw [Nat.sub_eq_zero_of_le (by omega), Nat.zero_mul] at hn
    omega

variable {numBlocks : Nat}

theorem storeChecked_of_lt {row col : Nat} (tab : Nat → Nat → α) (x : α) (hr : row < numBlocks)
    (hc : col < rsVdl2N) : storeChecked numBlocks tab row col x = some (store tab row col x) :=
  if_pos ⟨hr, hc⟩

def put (rows : Nat) (w : Walk α) (x : α) : Walk α :=
  if w.row+1 = rows then ⟨0, w.col+1, store w.tab w.row w.col x⟩
  else ⟨w.row+1, w.col, store w.tab w.row w.col x⟩

theorem Fits.put {n : Nat} {w : Walk α} (h : Fits rows lastEnd endCol (n+1) w)
    (hskip : ¬ (w.row = rows-1 ∧ lastEnd ≤ w.col)) (x : α) :
    Fits rows lastEnd endCol n (put rows w x) := by
  have hrow := h.row
  have hleft := h.left
  rw [Vdl2Fallback.put]
  by_cases hlast : w.row+1 = rows
  · have hcol : w.col < lastEnd := by omega
    rw [if_pos hlast]
    rw [if_pos hcol] at hleft
    have hsplit : (lastEnd-w.col)*rows = (lastEnd-(w.col+1))*rows+rows := by
      rw [← Nat.succ_mul]
      congr 1
      omega
    refine ⟨by dsimp only; omega, ?_⟩
    dsimp only
    split
    · omega
    · rw [Nat.sub_eq_zero_of_le (show lastEnd ≤ w.col+1 by omega), Nat.zero_mul] at hsplit
      rw [show w.col+1 = lastEnd by omega]
      omega
  · rw [if_neg hlast]
    refine ⟨by dsimp only; omega, ?_⟩
    dsimp only
    rw [← hleft]
    omega

theorem walkStep_inside (zero : α) {n : Nat} {w : Walk α}
    (h : Fits rows lastEnd endCol (n+1) w)
    (hend : lastEnd ≤ endCol) (hcols : endCol ≤ rsVdl2N) (hrows : rows ≤ numBlocks) (x : α) :
    walkStepChecked numBlocks zero rows lastEnd w x = some (walkStep zero rows lastEnd w x) ∧
    Fits rows lastEnd endCol n (walkStep zero rows lastEnd w x) := by
  have hrow := h.row
  have hcol := h.cell hend
  rw [walkStepChecked, walkStep]
  by_cases hskip : w.row = rows-1 ∧ w.col ≥ lastEnd
  · obtain ⟨hr,hc,hn⟩ := h.behind hskip.1 hskip.2
    rw [if_pos hskip, if_pos hskip, storeChecked_of_lt _ _ (by omega) (by omega), Option.map_some,
      Option.bind_some]
    dsimp only
    rw [storeChecked_of_lt _ _ (by omega) (by omega), Option.map_some]
    refine ⟨rfl, ?_⟩
    have hnew : Fits rows lastEnd endCol (n+1)
        (⟨0, w.col+1, store w.tab w.row w.col zero⟩ : Walk α) := by
      refine ⟨by dsimp only; omega, ?_⟩
      dsimp only
      rwa [if_neg (by omega)]
    exact hnew.put (by dsimp only; omega) x
  · rw [if_neg hskip, if_neg hskip, Option.bind_some,
      storeChecked_of_lt _ _ (by omega) (by omega), Option.map_some]
    exact ⟨rfl, h.put hskip x⟩

theorem foldlM_walk_inside (hend : lastEnd ≤ endCol) (hcols : endCol ≤ rsVdl2N)
    (hrows : rows ≤ numBlocks) (xs : List α) {w : Walk α}
    (h : Fits rows lastEnd endCol xs.length w) :
    xs.foldlM (walkStepChecked numBlocks zero rows lastEnd) w =
      some (xs.foldl (walkStep zero rows lastEnd) w) := by
  induction xs generalizing w with
  | nil => rfl
  | cons x xs ih =>
    obtain ⟨hstep,hfits⟩ := walkStep_inside zero h hend hcols hrows x
    rw [foldlM_cons, hstep, foldl_cons]
    exact ih hfits

theorem l2Deinterleave_inside (zero : α) (numBlocks : Nat) (input : List α)
    {last width off : Nat} (tab : Nat → Nat → α)
    (hpos : 0 < rows) (hle : rows ≤ numBlocks) (hlast : 0 < last) (hwidth : last ≤ width)
    (hfit : width+off ≤ rsVdl2N) (hsize : (rows-1)*width < 2^32)
    (hlen : input.length = (rows-1)*width+last) :
    ∃ res, l2Deinterleave zero input rows tab width off = some res ∧
      l2DeinterleaveChecked numBlocks zero input rows tab width off = some (some res) := by
  have hsplit : rows*width = (rows-1)*width+width := by
    rw [← Nat.succ_mul]
    congr 1
    omega
  have hfits : Fits rows (last+off) (width+off) input.length (⟨0, off, tab⟩ : Walk α) := by
    have hcols : (rows-1)*width = (rows-1)*last+(rows-1)*(width-last) := by
      rw [← Nat.mul_add]
      congr 1
      omega
    have hcol : last*rows = (rows-1)*last+last := by
      rw [← Nat.succ_mul, Nat.mul_comm]
      congr 1
      omega
    refine ⟨hpos, ?_⟩
    dsimp only
    rw [if_pos (by omega), hlen, Nat.add_sub_cancel, Nat.add_sub_add_right, hcols, hcol,
      Nat.mul_comm (width-last)]
    omega
  obtain ⟨hmod,hsub⟩ := length_tests hlast hwidth hsize hlen
  refine ⟨_, l2Deinterleave_eq_walk zero input tab hpos hlast hwidth hfit hsize hlen, ?_⟩
  rw [l2DeinterleaveChecked]
  simp only [hmod, hsub]
  rw [if_neg (by omega), if_neg (by omega), if_neg (by omega), if_neg (by omega),
    foldlM_walk_inside (by omega) hfit hle input hfits]
  rfl

theorem deinterleaveBoth_inside (zero : α) {l : Layout} (hl : Sound l) {data fec : List α}
    (hdata : data.length = l.datalenOctets) (hfec : fec.length = l.fecOctets) :
    ∃ tab, deinterleaveBoth zero l data fec = some tab ∧
      deinterleaveBothChecked zero l data fec = some (some tab) := by
  obtain ⟨hfpos,hfle,hfeq⟩ := fecRows_spec hl
  obtain ⟨hlpos,hlle⟩ := lastFec_le (l := l)
  have hrows := hl.rows_le
  have hwithin : l.fecRows ≤ l.numBlocks := by
    rw [Layout.fecRows]
    split <;> omega
  obtain ⟨tab,htab,hchecked⟩ := l2Deinterleave_inside zero l.numBlocks
    data (fun _ _ => zero) hl.rows_pos le_rfl hl.last_pos hl.last_le
    (show rsVdl2K+0 ≤ rsVdl2N by decide) (by rw [rsVdl2K]; omega) (hdata.trans hl.data_eq)
  obtain ⟨tab',htab',hchecked'⟩ := l2Deinterleave_inside zero l.numBlocks
    fec tab hfpos hwithin hlpos hlle (show rsVdl2Nroots+rsVdl2K ≤ rsVdl2N by decide)
    (by rw [rsVdl2Nroots]; omega) (hfec.trans hfeq)
  refine ⟨tab', ?_, ?_⟩
  · rw [deinterleaveBoth, htab]
    dsimp only
    rw [if_neg (by omega), htab']
  · rw [deinterleaveBothChecked, hchecked, Option.bind_some]
    dsimp only
    rw [if_neg (by omega), hchecked']

end

section
variable {bits : List Bool} {d : Nat}

theorem l2Header_ok (h : l2Header bits = .ok d) : Sound (layout d) ∧
    vdl2HdrBits+8*((layout d).datalenOctets+(layout d).fecOctets) ≤ bits.length := by
  rw [l2Header] at h
  split at h
  · cases h
  · split at h
    · cases h
    · rename_i r hr
      split at h
      · cases h
      · rename_i body hbody
        split at h
        · cases h
        · rename_i hlen
          cases h
          obtain ⟨hl,heq⟩ := layout_sound hbody
          exact ⟨hl, by omega⟩

theorem length_packConfLsbfirst (soft : List Int) (base n : Nat) :
    (packConfLsbfirst soft base n).length = n := by
  simp [packConfLsbfirst]

theorem passes_succeed (h : l2Header bits = .ok d) (soft : List Int) :
    (∃ tab, deinterleaveBoth (0 : UInt8) (layout d)
      (packLsbfirst (bits.drop vdl2HdrBits) (layout d).datalenOctets)
      (packLsbfirst (bits.drop (vdl2HdrBits+8*(layout d).datalenOctets)) (layout d).fecOctets) =
        some tab) ∧
    ∃ conf, deinterleaveBoth (0 : Int) (layout d)
      (packConfLsbfirst soft vdl2HdrBits (layout d).datalenOctets)
      (packConfLsbfirst soft (vdl2HdrBits+8*(layout d).datalenOctets) (layout d).fecOctets) =
        some conf := by
  have hl := (l2Header_ok h).1
  obtain ⟨tab,htab,-⟩ := deinterleaveBoth_inside (0 : UInt8) hl
    (length_packLsbfirst (bits.drop vdl2HdrBits) _)
    (length_packLsbfirst (bits.drop (vdl2HdrBits+8*(layout d).datalenOctets)) _)
  obtain ⟨conf,hconf,-⟩ := deinterleaveBoth_inside (0 : Int) hl
    (length_packConfLsbfirst soft vdl2HdrBits _)
    (length_packConfLsbfirst soft (vdl2HdrBits+8*(layout d).datalenOctets) _)
  exact ⟨⟨tab, htab⟩, conf, hconf⟩

theorem confTableChecked_eq (h : l2Header bits = .ok d) (soft : Option (List Int)) :
    confTableChecked bits.length soft (layout d) = some (soft.bind fun soft =>
      deinterleaveBoth (0 : Int) (layout d)
        (packConfLsbfirst soft vdl2HdrBits (layout d).datalenOctets)
        (packConfLsbfirst soft (vdl2HdrBits+8*(layout d).datalenOctets) (layout d).fecOctets)) := by
  obtain ⟨hl,hroom⟩ := l2Header_ok h
  cases soft with
  | none => rfl
  | some soft =>
    obtain ⟨conf,hconf,hchecked⟩ := deinterleaveBoth_inside (0 : Int) hl
      (length_packConfLsbfirst soft vdl2HdrBits _)
      (length_packConfLsbfirst soft (vdl2HdrBits+8*(layout d).datalenOctets) _)
    rw [confTableChecked, packConfLsbfirstChecked_eq soft (by omega), Option.bind_some,
      packConfLsbfirstChecked_eq soft (by omega), Option.bind_some, hchecked, Option.bind_some,
      hconf]

theorem l2HandoverChecked_eq (bits : List Bool) (soft : Option (List Int)) :
    l2HandoverChecked bits soft = some (l2Handover bits soft) := by
  rw [l2HandoverChecked, l2Handover]
  cases h : l2Header bits with
  | error e => rfl
  | ok d =>
    obtain ⟨hl,hroom⟩ := l2Header_ok h
    obtain ⟨tab,htab,hchecked⟩ := deinterleaveBoth_inside (0 : UInt8) hl
      (length_packLsbfirst (bits.drop vdl2HdrBits) _)
      (length_packLsbfirst (bits.drop (vdl2HdrBits+8*(layout d).datalenOctets)) _)
    have hcorrected : l2CorrectedChecked d bits soft = some (l2Corrected d bits soft) := by
      rw [l2CorrectedChecked, l2Corrected]
      dsimp only
      rw [packLsbfirstChecked_eq bits (by omega), Option.bind_some,
        packLsbfirstChecked_eq bits (by omega), Option.bind_some, hchecked, Option.bind_some,
        confTableChecked_eq h, htab]
      rfl
    dsimp only
    rw [hcorrected]
    rfl

theorem l2Handover_ne_internal (bits : List Bool) (soft : Option (List Int)) :
    l2Handover bits soft ≠ .error .internal := by
  rw [l2Handover]
  cases h : l2Header bits with
  | error e =>
    rintro ⟨⟩
    rw [l2Header] at h
    split at h
    · cases h
    · split at h
      · cases h
      · split at h
        · cases h
        · split at h <;> cases h
  | ok d =>
    obtain ⟨tab,htab⟩ := (passes_succeed h []).1
    dsimp only
    rw [l2Corrected]
    dsimp only
    rw [htab]
    dsimp only
    cases decodeRows (layout d) tab _ <;> rintro ⟨⟩

/-- A row that hard decisions correct stays as they correct it. -/
theorem decodeRow_extends (l : Layout) (tab : Nat → Nat → UInt8) (conf : Option (Nat → Nat → Int))
    (r : Nat) {b : Block} (h : decodeRow l tab none r = some b) :
    decodeRow l tab conf r = some b := by
  by_cases hok : (hardResult l tab r).ok = true
  · rw [decodeRow_of_ok tab none r hok] at h
    rw [decodeRow_of_ok tab conf r hok, h]
  · rw [hardResult] at hok
    simp only [decodeRow, decide_eq_true_eq, hok] at h
    cases h

theorem mapM_extends {α β : Type*} {f g : α → Option β} (h : ∀ a b, f a = some b → g a = some b)
    {xs : List α} {ys : List β} (hf : xs.mapM f = some ys) : xs.mapM g = some ys := by
  induction xs generalizing ys with
  | nil => exact hf
  | cons x xs ih =>
    rw [mapM_cons] at hf ⊢
    obtain ⟨y,hy,hf⟩ := Option.bind_eq_some_iff.mp hf
    obtain ⟨ys',hys,hf⟩ := Option.bind_eq_some_iff.mp hf
    rwa [h x y hy, ih hys]

theorem l2Handover_extends (bits : List Bool) (soft : Option (List Int))
    (h : l2Handover bits none ≠ .error .rs) : l2Handover bits soft = l2Handover bits none := by
  rw [l2Handover] at h
  rw [l2Handover, l2Handover]
  cases hh : l2Header bits with
  | error e => rfl
  | ok d =>
    rw [hh] at h
    dsimp only at h ⊢
    have hcorr : l2Corrected d bits soft = l2Corrected d bits none := by
      obtain ⟨tab,htab⟩ := (passes_succeed hh []).1
      rw [l2Corrected] at h
      rw [l2Corrected, l2Corrected]
      dsimp only at h ⊢
      rw [htab] at h ⊢
      dsimp only at h ⊢
      cases hrows : decodeRows (layout d) tab none with
      | none =>
        rw [Option.bind_none, hrows] at h
        exact absurd rfl h
      | some octets =>
        rw [decodeRows, Option.map_eq_some_iff] at hrows
        obtain ⟨rows,hrows,hoct⟩ := hrows
        have hsoft : ∀ conf, decodeRows (layout d) tab conf = some octets := by
          intro conf
          rw [decodeRows, mapM_extends (decodeRow_extends (layout d) tab conf) hrows, ← hoct]
          rfl
        rw [hsoft, hsoft]
    rw [hcorr]

/-- Confidence changes nothing where hard decisions succeed, and no access is outside. -/
theorem soft_fallback_conservative (bits : List Bool) (soft : List Int) :
    (vdl2L2Feed bits none ≠ .error .rs →
      vdl2L2Feed bits (some soft) = vdl2L2Feed bits none ∧
      vdl2L2Frames bits (some soft) = vdl2L2Frames bits none) ∧
    (vdl2L2Feed bits none ≠ .error .internal ∧ vdl2L2Feed bits (some soft) ≠ .error .internal) ∧
    (∀ d, l2Header bits = .ok d →
      (deinterleaveBoth (0 : UInt8) (layout d)
        (packLsbfirst (bits.drop vdl2HdrBits) (layout d).datalenOctets)
        (packLsbfirst (bits.drop (vdl2HdrBits+8*(layout d).datalenOctets))
          (layout d).fecOctets)).isSome = true ∧
      (deinterleaveBoth (0 : Int) (layout d)
        (packConfLsbfirst soft vdl2HdrBits (layout d).datalenOctets)
        (packConfLsbfirst soft (vdl2HdrBits+8*(layout d).datalenOctets)
          (layout d).fecOctets)).isSome = true) ∧
    l2HandoverChecked bits none = some (l2Handover bits none) ∧
    l2HandoverChecked bits (some soft) = some (l2Handover bits (some soft)) := by
  have hinternal : ∀ s, vdl2L2Feed bits s ≠ .error .internal := by
    intro s h
    rw [vdl2L2Feed_eq] at h
    have hne := l2Handover_ne_internal bits s
    cases hh : l2Handover bits s with
    | error e =>
      rw [hh] at h hne
      cases h
      exact hne rfl
    | ok x =>
      rw [hh] at h
      cases h
  refine ⟨fun h => ?_, ⟨hinternal none, hinternal (some soft)⟩, fun d hd => ?_,
    l2HandoverChecked_eq bits none, l2HandoverChecked_eq bits (some soft)⟩
  · have hhard : l2Handover bits none ≠ .error .rs := by
      intro he
      apply h
      rw [vdl2L2Feed_eq, he]
      rfl
    have hsame := l2Handover_extends bits (some soft) hhard
    rw [vdl2L2Feed_eq, vdl2L2Feed_eq, vdl2L2Frames, vdl2L2Frames, hsame]
    exact ⟨rfl, rfl⟩
  · obtain ⟨⟨tab,htab⟩,conf,hconf⟩ := passes_succeed hd soft
    rw [htab, hconf]
    exact ⟨rfl, rfl⟩

end

end IridiumAcars.Vdl2Fallback
