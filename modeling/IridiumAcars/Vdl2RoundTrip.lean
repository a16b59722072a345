import IridiumAcars.Avlc
import IridiumAcars.Lib.IndexMap
import IridiumAcars.RsDecode
import IridiumAcars.Vdl2Interleave

/-! `vdl2_l2_feed` recovers the data bits of a burst whose rows are damaged within their parity. -/
namespace IridiumAcars.Vdl2RoundTrip
open BitWord Hdlc IndexMap RsVdl2 RsPoly RsDecode Vdl2Header Vdl2L2 Vdl2Interleave Avlc List

section
variable (l : Layout) (octets : List UInt8)

def rowData (r : Nat) : Block := fun p =>
  if p.val < dataLen l r then octets.getD (rsVdl2K*r+p.val) 0 else 0

def codeword (r : Nat) : Block := rsVdl2Encode (rowData l octets r)

def airOctet (r c : Nat) : UInt8 := if h : c < rsVdl2N then codeword l octets r ⟨c, h⟩ else 0

def sentOctets : List UInt8 := (airCells l).map fun p => airOctet l octets p.1 p.2

end

def sentHeader (d : Nat) : List Bool := toBits vdl2HdrBits (vdl2HdrEncode d)

def l2Burst (d : Nat) (octets : List UInt8) : List Bool :=
  sentHeader d++lsbBits (sentOctets (layout d) octets)

section
variable (d : Nat) (octets : List UInt8) (bits : List Bool)

def headerErrors : Nat := ((bits.take vdl2HdrBits).zip (sentHeader d)).countP fun x => x.1 != x.2

def receivedOctets : List UInt8 :=
  packLsbfirst (bits.drop vdl2HdrBits) ((layout d).datalenOctets+(layout d).fecOctets)

def wrongOctets (r : Nat) : Nat :=
  ((airCells (layout d)).zip (receivedOctets d bits)).countP fun x =>
    decide (x.1.1 = r ∧ x.2 ≠ airOctet (layout d) octets x.1.1 x.1.2)

def l2Corrected (soft : Option (List Int)) : Except L2Error (List UInt8) :=
  let l := layout d
  let data := packLsbfirst (bits.drop vdl2HdrBits) l.datalenOctets
  let fec := packLsbfirst (bits.drop (vdl2HdrBits+8*l.datalenOctets)) l.fecOctets
  match deinterleaveBoth (0 : UInt8) l data fec with
  | none => .error .internal
  | some tab =>
    let conf := soft.bind fun soft => deinterleaveBoth (0 : Int) l
      (packConfLsbfirst soft vdl2HdrBits l.datalenOctets)
      (packConfLsbfirst soft (vdl2HdrBits+8*l.datalenOctets) l.fecOctets)
    match decodeRows l tab conf with
    | none => .error .rs
    | some octets => .ok octets

theorem l2Body_eq (soft : Option (List Int)) : l2Body bits soft d =
    (l2Corrected d bits soft).map fun octets => (avlcDeframeOctets octets d).length := by
  rw [l2Body, l2Corrected]
  dsimp only
  generalize deinterleaveBoth (0 : UInt8) (layout d) _ _ = both
  cases both with
  | none => rfl
  | some tab =>
    dsimp only
    generalize decodeRows (layout d) tab _ = rows
    cases rows <;> rfl

/-- The arguments of the call of `avlc_deframe_octets`. -/
def l2Handover (soft : Option (List Int)) : Except L2Error (List UInt8 × Nat) :=
  match l2Header bits with
  | .error e => .error e
  | .ok datalen => (l2Corrected datalen bits soft).map fun octets => (octets, datalen)

theorem vdl2L2Feed_eq (soft : Option (List Int)) : vdl2L2Feed bits soft =
    (l2Handover bits soft).map fun x => (avlcDeframeOctets x.1 x.2).length := by
  rw [vdl2L2Feed, l2Handover]
  cases l2Header bits with
  | error e => rfl
  | ok datalen =>
    dsimp only
    rw [l2Body_eq]
    cases l2Corrected datalen bits soft <;> rfl

end

theorem eq_or_modify_of_countP {xs ys : List Bool} (hlen : xs.length = ys.length)
    (h : (xs.zip ys).countP (fun x => x.1 != x.2) ≤ 1) :
    xs = ys ∨ ∃ i < ys.length, xs = ys.modify i not := by
  induction xs generalizing ys with
  | nil =>
    cases ys with
    | nil => exact Or.inl rfl
    | cons y ys => simp at hlen
  | cons x xs ih =>
    cases ys with
    | nil => simp at hlen
    | cons y ys =>
      have hlen' : xs.length = ys.length := by simpa using hlen
      rw [zip_cons_cons, countP_cons] at h
      by_cases hxy : x = y
      · subst hxy
        obtain heq | ⟨i,hi,heq⟩ := ih hlen' (by omega)
        · exact Or.inl (by rw [heq])
        · exact Or.inr ⟨i+1, by simpa using hi, by rw [heq, modify_succ_cons]⟩
      · have hnone : (xs.zip ys).countP (fun x => x.1 != x.2) = 0 := by
          simp only [bne_iff_ne, ne_eq, hxy, not_false_eq_true, if_true] at h
          omega
        have heq : xs = ys := by
          refine ext_getElem hlen' fun i hi hi' => ?_
          have hmem : (xs[i], ys[i]) ∈ xs.zip ys := by
            rw [← getElem_zip (h := by simp [hi, hi'])]
            exact getElem_mem _
          simpa using countP_eq_zero.mp hnone _ hmem
        have hx : x = !y := by cases x <;> cases y <;> simp_all
        exact Or.inr ⟨0, by simp, by rw [heq, hx, modify_zero_cons]⟩

theorem decode_sentHeader {d : Nat} {bits : List Bool} (hd : d < 2^17)
    (hlen : vdl2HdrBits ≤ bits.length) (herr : headerErrors d bits ≤ 1) :
    ∃ weight, vdl2HdrDecode (ofBits (bits.take vdl2HdrBits)) =
      some ⟨weight, vdl2HdrEncode d, d⟩ := by
  have hsent : (sentHeader d).length = 25 := length_toBits _ _
  have hlt := (hdrSyndrome_encode d hd).1
  have hword : ofBits (sentHeader d) = vdl2HdrEncode d := ofBits_toBits _ _ (by
    rw [vdl2HdrBits]
    omega)
  have hmask : vdl2HdrEncode d &&& hdrMask = vdl2HdrEncode d := by
    rw [and_hdrMask, Nat.mod_eq_of_lt hlt]
  have htake : (bits.take vdl2HdrBits).length = (sentHeader d).length := by
    rw [length_take, hsent, vdl2HdrBits] at *
    omega
  obtain heq | ⟨i,hi,heq⟩ := eq_or_modify_of_countP htake herr
  · refine vdl2HdrDecode_near (e := 0) hd (Or.inl rfl) ?_
    rw [heq, hword, hmask, Nat.xor_zero]
  · have hflip : ofBits (bits.take vdl2HdrBits) &&& hdrMask =
        vdl2HdrEncode d ^^^ (1 <<< (25-1-i) &&& hdrMask) := by
      rw [heq, ofBits_modify_not _ _ hi, hword, hsent, Nat.and_xor_distrib_right, hmask]
    refine vdl2HdrDecode_near hd ?_ hflip
    -- a flip in the three reserved bits is masked away
    by_cases hb : 25-1-i < 22
    · right
      refine ⟨25-1-i, hb, ?_⟩
      rw [and_hdrMask, Nat.one_shiftLeft,
        Nat.mod_eq_of_lt (Nat.pow_lt_pow_right (by decide) hb)]
    · left
      rw [and_hdrMask, Nat.one_shiftLeft]
      exact Nat.mod_eq_zero_of_dvd (Nat.pow_dvd_pow 2 (by omega))

section
variable {l : Layout} (octets : List UInt8) (T : Nat → Nat → UInt8) (r : Nat)

/-- Row `r` as it sits in the table: what came in, and zero where nothing was sent. -/
def receivedRow (l : Layout) (T : Nat → Nat → UInt8) (r : Nat) : Block := fun p =>
  if Transmitted l r p.val then T r p.val else 0

def rowErrors (l : Layout) (octets : List UInt8) (T : Nat → Nat → UInt8) (r : Nat) :
    Finset (Fin rsVdl2N) :=
  Finset.univ.filter fun p => Transmitted l r p.val ∧ T r p.val ≠ codeword l octets r p

def structural (l : Layout) (r : Nat) : List UInt8 :=
  (List.range (rsVdl2Nroots-fecLen l r)).map fun i => UInt8.ofNat (rsVdl2K+fecLen l r+i)

theorem fecLen_le : fecLen l r ≤ rsVdl2Nroots := by
  rw [fecLen]
  split
  · exact fecOctetcount_le _
  · exact le_rfl

theorem dataLen_le (hl : Sound l) : dataLen l r ≤ rsVdl2K := by
  rw [dataLen]
  split
  · exact hl.last_le
  · exact le_rfl

theorem codeword_data {p : Fin rsVdl2N} (hp : p.val < rsVdl2K) :
    codeword l octets r p = rowData l octets r p := if_pos hp

theorem mem_structural {p : Fin rsVdl2N} (hp : rsVdl2K+fecLen l r ≤ p.val) :
    UInt8.ofNat p.val ∈ structural l r := by
  have hn : p.val < 255 := p.isLt
  have hk : rsVdl2K = 249 := rfl
  have hroots : rsVdl2Nroots = 6 := rfl
  rw [structural, mem_map]
  refine ⟨p.val-(rsVdl2K+fecLen l r), mem_range.mpr (by omega), ?_⟩
  rw [Nat.add_sub_cancel' hp]

theorem structural_lt (p : UInt8) (hp : p ∈ structural l r) : p.toNat < rsVdl2N := by
  have hk : rsVdl2K = 249 := rfl
  have hn : rsVdl2N = 255 := rfl
  have hroots : rsVdl2Nroots = 6 := rfl
  obtain ⟨i,hi,rfl⟩ := mem_map.mp hp
  have hi := mem_range.mp hi
  rw [UInt8.toNat_ofNat']
  omega

theorem nodup_structural : (structural l r).Nodup := by
  have hk : rsVdl2K = 249 := rfl
  have hroots : rsVdl2Nroots = 6 := rfl
  refine List.Nodup.map_on ?_ nodup_range
  intro i hi j hj h
  have hi := mem_range.mp hi
  have hj := mem_range.mp hj
  have h' := congrArg UInt8.toNat h
  rw [UInt8.toNat_ofNat', UInt8.toNat_ofNat'] at h'
  omega

theorem strayErrors_subset : strayErrors (codeword l octets r) (receivedRow l T r) (structural l r)
    ⊆ rowErrors l octets T r := by
  intro p hp
  obtain ⟨-,hout,hne⟩ := Finset.mem_filter.mp hp
  rw [receivedRow] at hne
  by_cases ht : Transmitted l r p.val
  · rw [if_pos ht] at hne
    exact Finset.mem_filter.mpr ⟨Finset.mem_univ p, ht, hne⟩
  exfalso
  rw [if_neg ht] at hne
  by_cases hk : p.val < rsVdl2K
  · have hpad : ¬p.val < dataLen l r := fun h => ht (Or.inl h)
    rw [codeword_data octets r hk, rowData, if_neg hpad] at hne
    exact hne rfl
  · have hlow : rsVdl2K+fecLen l r ≤ p.val := by
      by_contra h
      exact ht (Or.inr ⟨by omega, by omega⟩)
    exact hout (mem_structural r hlow)

theorem decode_receivedRow (herr : (rowErrors l octets T r).card ≤ fecLen l r/2) :
    rsVdl2DecodeErasures (receivedRow l T r) (structural l r) =
      ⟨true, codeword l octets r,
        some (differing (codeword l octets r) (receivedRow l T r)).card⟩ := by
  have hfec := fecLen_le (l := l) r
  have hlen : (structural l r).length = rsVdl2Nroots-fecLen l r := by simp [structural]
  exact rsVdl2DecodeErasures_of_syndromes (syndrome_encode _) (nodup_structural r) (structural_lt r)
    (le_trans (Finset.card_le_card (strayErrors_subset octets T r)) herr) (by omega)

def hardResult (l : Layout) (tab : Nat → Nat → UInt8) (r : Nat) : DecodeResult :=
  if r = l.numBlocks-1 then rsVdl2DecodeShortened (fun p => tab r p.val) l.last
  else rsVdl2Decode fun p => tab r p.val

theorem decodeRow_of_ok (tab : Nat → Nat → UInt8) (conf : Option (Nat → Nat → Int)) (r : Nat)
    (hok : (hardResult l tab r).ok = true) :
    decodeRow l tab conf r = some (hardResult l tab r).block := by
  rw [hardResult] at hok ⊢
  simp only [decodeRow, decide_eq_true_eq, hok, if_true]

theorem decodeRow_corrects (hl : Sound l) {tab : Nat → Nat → UInt8}
    (htab : ∀ c, tab r c = if Transmitted l r c then T r c else 0)
    (herr : (rowErrors l octets T r).card ≤ fecLen l r/2) :
    ∃ blk, decodeRow l tab none r = some blk ∧
      ∀ p : Fin rsVdl2N, p.val < dataLen l r → blk p = rowData l octets r p := by
  have hrow : (fun p : Fin rsVdl2N => tab r p.val) = receivedRow l T r := by
    funext p
    exact htab p.val
  have hdec := decode_receivedRow octets T r herr
  have hdata (p : Fin rsVdl2N) (hp : p.val < dataLen l r) :
      codeword l octets r p = rowData l octets r p :=
    codeword_data octets r (lt_of_lt_of_le hp (dataLen_le r hl))
  have hdone (hres : hardResult l tab r =
      rsVdl2DecodeErasures (receivedRow l T r) (structural l r)) :
      decodeRow l tab none r = some (codeword l octets r) := by
    rw [hdec] at hres
    rw [decodeRow_of_ok tab none r (by rw [hres]), hres]
  by_cases hlast : r = l.numBlocks-1
  · have hfec : fecLen l r = shortFecOctetcount l.last := if_pos hlast
    by_cases h0 : shortFecOctetcount l.last = 0
    · -- no parity: the row passes as received, and no octet of it may be wrong
      have hres : hardResult l tab r = ⟨true, receivedRow l T r, some 0⟩ := by
        rw [hardResult, if_pos hlast, hrow, rsVdl2DecodeShortened, rsVdl2DecodeShortenedErasures,
          if_pos h0, if_neg (by simp)]
      refine ⟨receivedRow l T r, by rw [decodeRow_of_ok tab none r (by rw [hres]), hres], ?_⟩
      intro p hp
      have hnone : p ∉ rowErrors l octets T r := by
        rw [hfec, h0, Nat.zero_div, Nat.le_zero, Finset.card_eq_zero] at herr
        rw [herr]
        exact Finset.notMem_empty p
      have ht : Transmitted l r p.val := Or.inl hp
      rw [← hdata p hp, receivedRow, if_pos ht]
      by_contra hne
      exact hnone (Finset.mem_filter.mpr ⟨Finset.mem_univ p, ht, hne⟩)
    · refine ⟨codeword l octets r, hdone ?_, hdata⟩
      rw [hardResult, if_pos hlast, hrow, rsVdl2DecodeShortened, rsVdl2DecodeShortenedErasures,
        if_neg h0, if_neg (by simp), if_neg (by simp [confAccepted]), append_nil, ← hfec,
        structural]
  · refine ⟨codeword l octets r, hdone ?_, hdata⟩
    rw [hardResult, if_neg hlast, hrow, structural, fecLen, if_neg hlast, Nat.sub_self]
    rfl

end

section
variable {l : Layout}

theorem mapM_eq_some {α β : Type*} {f : α → Option β} {g : α → β} {xs : List α}
    (h : ∀ x ∈ xs, f x = some (g x)) : xs.mapM f = some (xs.map g) := by
  induction xs with
  | nil => rfl
  | cons x xs ih =>
    rw [mapM_cons, h x (by simp), ih fun y hy => h y (by simp [hy])]
    rfl

theorem zipIdx_map_range {α : Type*} (g : Nat → α) (n : Nat) :
    ((List.range n).map g).zipIdx = (List.range n).map fun r => (g r, r) := by
  apply ext_getElem
  · simp
  · intro i hi hi'
    simp

theorem take_row (hl : Sound l) (octets : List UInt8) (hlen : octets.length = l.datalenOctets)
    (r : Nat) (hr : r < l.numBlocks) (blk : Block)
    (hblk : ∀ p : Fin rsVdl2N, p.val < dataLen l r → blk p = rowData l octets r p) :
    (List.ofFn blk).take (dataLen l r) = (octets.drop (rsVdl2K*r)).take rsVdl2K := by
  have hle := dataLen_le r hl
  have hk : rsVdl2K = 249 := rfl
  have hn : rsVdl2N = 255 := rfl
  have hrest : min rsVdl2K (octets.length-rsVdl2K*r) = dataLen l r := by
    have hdata := hl.data_eq
    have hlast := hl.last_le
    rw [hlen, hdata, dataLen, hk] at *
    split_ifs with h
    · rw [h]
      omega
    · omega
  apply ext_getElem
  · simp only [length_take, length_ofFn, length_drop, hrest]
    omega
  · intro i hi hi'
    have hi1 : i < dataLen l r := by
      rw [length_take] at hi
      omega
    have hi2 : rsVdl2K*r+i < octets.length := by
      rw [length_take, length_drop] at hi'
      omega
    rw [List.getElem_take, List.getElem_ofFn, hblk _ hi1, rowData, if_pos hi1, List.getElem_take,
      getElem_drop, getD_eq_getElem _ _ hi2]

theorem decodeRows_eq (hl : Sound l) (octets : List UInt8)
    (hlen : octets.length = l.datalenOctets) (tab : Nat → Nat → UInt8)
    (hrows : ∀ r < l.numBlocks, ∃ blk, decodeRow l tab none r = some blk ∧
      ∀ p : Fin rsVdl2N, p.val < dataLen l r → blk p = rowData l octets r p) :
    decodeRows l tab none = some octets := by
  have hk : rsVdl2K = 249 := rfl
  choose! B hdec hdata using hrows
  rw [decodeRows, mapM_eq_some fun r hr => hdec r (mem_range.mp hr), Option.map_some,
    zipIdx_map_range, flatMap_map]
  congr 1
  calc (List.range l.numBlocks).flatMap _
      = (List.range l.numBlocks).flatMap fun r => (octets.drop (rsVdl2K*r)).take rsVdl2K := by
        apply flatMap_congr
        intro r hr
        have hr := mem_range.mp hr
        exact take_row hl octets hlen r hr (B r) (hdata r hr)
    _ = octets := by
        apply flatMap_windows
        have hdata := hl.data_eq
        have hlast := hl.last_le
        have hpos := hl.rows_pos
        rw [hlen, hdata, hk] at *
        omega

end

section

theorem exists_table {α : Type*} (dflt : α) {cells : List (Nat × Nat)} (hn : cells.Nodup)
    (xs : List α) (hlen : xs.length = cells.length) :
    ∃ T : Nat → Nat → α, (cells.map fun p => T p.1 p.2) = xs := by
  refine ⟨fun r c => xs.getD (cells.idxOf (r, c)) dflt, ?_⟩
  apply ext_getElem
  · rw [length_map, hlen]
  · intro i hi hi'
    have hcell : i < cells.length := by omega
    rw [getElem_map]
    change xs.getD (cells.idxOf cells[i]) dflt = xs[i]
    rw [hn.idxOf_getElem i hcell, getD_eq_getElem _ _ hi']

theorem packLsbfirst_add (bits : List Bool) (m n : Nat) :
    packLsbfirst bits (m+n) = packLsbfirst bits m++packLsbfirst (bits.drop (8*m)) n := by
  rw [packLsbfirst, packLsbfirst, packLsbfirst, range_add, map_append, map_map]
  congr 1
  apply map_congr_left
  intro i _
  have hread (j : Nat) : (bits.drop (8*m)).getD (8*i+j) false = bits.getD (8*(m+i)+j) false := by
    rw [getD_eq_getElem?_getD, getElem?_drop, ← getD_eq_getElem?_getD]
    congr 1
    omega
  simp only [Function.comp_apply, hread]

variable {d : Nat} {octets : List UInt8} {bits : List Bool}

theorem card_rowErrors_le (hl : Sound (layout d)) {T : Nat → Nat → UInt8}
    (hT : ((airCells (layout d)).map fun p => T p.1 p.2) = receivedOctets d bits) (r : Nat)
    (hr : r < (layout d).numBlocks) :
    (rowErrors (layout d) octets T r).card ≤ wrongOctets d octets bits r := by
  rw [wrongOctets, ← hT, ← map_prod_left_eq_zip, countP_map, countP_eq_length_filter]
  refine le_trans (Finset.card_le_card_of_injOn (fun p => (r, p.val)) ?_ ?_)
    (toFinset_card_le _)
  · intro p hp
    obtain ⟨-,ht,hne⟩ := Finset.mem_filter.mp hp
    have hair : airOctet (layout d) octets r p.val = codeword (layout d) octets r p :=
      dif_pos p.isLt
    rw [Finset.mem_coe, mem_toFinset, mem_filter]
    refine ⟨(mem_airCells hl).mpr ⟨hr, ht⟩, ?_⟩
    simp [hair, hne]
  · intro p _ q _ h
    exact Fin.ext (congrArg Prod.snd h)

theorem l2Corrected_eq (hl : Sound (layout d)) (hoct : octets.length = (layout d).datalenOctets)
    (hrow : ∀ r < (layout d).numBlocks,
      wrongOctets d octets bits r ≤ fecLen (layout d) r/2) :
    l2Corrected d bits none = .ok octets := by
  have hair : (receivedOctets d bits).length = (airCells (layout d)).length := by
    rw [receivedOctets, length_packLsbfirst, airCells, length_append, length_dataCells hl,
      length_fecCells hl]
  obtain ⟨T,hT⟩ := exists_table 0 (nodup_airCells hl) (receivedOctets d bits) hair
  obtain ⟨hdata,hfec⟩ : ((dataCells (layout d)).map fun p => T p.1 p.2) =
        packLsbfirst (bits.drop vdl2HdrBits) (layout d).datalenOctets ∧
      ((fecCells (layout d)).map fun p => T p.1 p.2) =
        packLsbfirst (bits.drop (vdl2HdrBits+8*(layout d).datalenOctets)) (layout d).fecOctets := by
    have hsplit := hT
    rw [airCells, map_append, receivedOctets, packLsbfirst_add, drop_drop] at hsplit
    exact append_inj hsplit (by rw [length_map, length_dataCells hl, length_packLsbfirst])
  obtain ⟨tab,hboth,htab⟩ := deinterleaveBoth_airCells (0 : UInt8) hl T
  have hrows := decodeRows_eq hl octets hoct tab fun r hr =>
    decodeRow_corrects octets T r hl (htab r hr)
      (le_trans (card_rowErrors_le hl hT r hr) (hrow r hr))
  rw [l2Corrected]
  dsimp only
  rw [← hdata, ← hfec, hboth]
  dsimp only
  rw [Option.bind_none, hrows]

theorem length_l2Burst (hl : Sound (layout d)) : (l2Burst d octets).length =
    vdl2HdrBits+8*((layout d).datalenOctets+(layout d).fecOctets) := by
  rw [l2Burst, length_append, sentHeader, length_toBits, length_lsbBits, sentOctets,
    length_map, airCells, length_append, length_dataCells hl, length_fecCells hl]

theorem l2Header_eq {body : Nat} (hbody : vdl2BurstBodyBits d = some body)
    (hlen : bits.length = (l2Burst d octets).length) (hhdr : headerErrors d bits ≤ 1) :
    l2Header bits = .ok d := by
  obtain ⟨hl,rfl⟩ := layout_sound hbody
  rw [length_l2Burst hl] at hlen
  have hd : d < 2^17 := by
    by_contra hbig
    rw [vdl2BurstBodyBits, if_pos (by rw [vdl2MaxFrameBits]; omega)] at hbody
    cases hbody
  obtain ⟨weight,hdec⟩ := decode_sentHeader hd (by omega) hhdr
  rw [l2Header, if_neg (by omega), hdec]
  dsimp only
  rw [hbody]
  dsimp only
  rw [if_neg (by omega)]

theorem vdl2_l2_feed_inverts (data : List Bool) (octets : List UInt8) (bits : List Bool)
    (hbody : vdl2BurstBodyBits data.length ≠ none) (hoct : octets.length = (data.length+7)/8)
    (hdata : (lsbBits octets).take data.length = data)
    (hlen : bits.length = (l2Burst data.length octets).length)
    (hhdr : headerErrors data.length bits ≤ 1)
    (hrow : ∀ r < (layout data.length).numBlocks,
      wrongOctets data.length octets bits r ≤ fecLen (layout data.length) r/2) :
    ∃ out, l2Handover bits none = .ok (out, data.length) ∧
      (lsbBits out).take data.length = data ∧
      vdl2L2Feed bits none = .ok (avlcDeframeOctets out data.length).length := by
  obtain ⟨body,hbody⟩ := Option.ne_none_iff_exists'.mp hbody
  have hl := (layout_sound hbody).1
  have hhand : l2Handover bits none = .ok (octets, data.length) := by
    rw [l2Handover, l2Header_eq hbody hlen hhdr]
    dsimp only
    rw [l2Corrected_eq hl hoct hrow]
    rfl
  refine ⟨octets, hhand, hdata, ?_⟩
  rw [vdl2L2Feed_eq, hhand]
  rfl

end

def damagedBurst : List Bool :=
  toBits vdl2HdrBits 0x3A0003++([true, true, true]++List.replicate 37 false)

theorem vdl2_l2_feed_inverts_damaged :
    ∃ out, l2Handover damagedBurst none = .ok (out, 23) ∧
      (lsbBits out).take 23 = List.replicate 23 false ∧
      vdl2L2Feed damagedBurst none = .ok (avlcDeframeOctets out 23).length :=
  vdl2_l2_feed_inverts (List.replicate 23 false) [0, 0, 0] damagedBurst (by decide) rfl (by decide)
    (by decide +kernel) (by decide +kernel) (by decide +kernel)

end IridiumAcars.Vdl2RoundTrip
