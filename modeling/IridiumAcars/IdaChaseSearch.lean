import IridiumAcars.IdaChase
import IridiumAcars.Lib.Runs

/-! What the Chase fallback searches: probed map, least reliable bits, candidates, odometer. -/
namespace IridiumAcars.IdaChase
open BitCount Bch IndexMap Selection IdaDecode List
open IdaCodewords IdaChannel
open BchDecoder (bitsToUint flipPattern flipPattern_cons bitsToUint_eq)

theorem codewordCells_nodup : codewordCells.Nodup :=
  (Syndromes.distinctFrom_spec 0 _ (by decide +kernel)).1

theorem length_oneHot (p : Nat) : (oneHot p).length = 312 := by
  rw [oneHot, length_set, length_replicate]

theorem getD_oneHot {c p : Nat} (hc : c < 312) : (oneHot p).getD c 0 = if c = p then 1 else 0 := by
  rw [oneHot, getD_eq_getElem?_getD]
  split_ifs with h
  · rw [h, getElem?_set_self (by rw [length_replicate]; omega), Option.getD_some]
  · rw [getElem?_set_ne (Ne.symm h), getElem?_replicate_of_lt hc, Option.getD_some]

theorem buildCodewords_oneHot {p : Nat} : idaDecodeBuildCodewords (oneHot p) =
    codewordCells.map fun c => if c = p then 1 else 0 := by
  rw [buildCodewords_eq_gather _ (length_oneHot p), gather, map_map]
  refine map_congr_left fun c hc => ?_
  rw [Function.comp_apply, getD_oneHot (codewordCells_spec.2 c hc)]
  split <;> rfl

theorem probe_eq (map : List Nat) (p : Nat) : probe map p =
    match codewordCells.findIdx? fun c => decide (c = p) with
    | some j => map.set j p
    | none => map := by
  have hpred : ((fun b : UInt8 => decide (b ≠ 0)) ∘ fun c => if c = p then 1 else 0) =
      fun c => decide (c = p) := by
    funext c
    by_cases h : c = p <;> simp [h]
  have hfind : (idaDecodeBuildCodewords (oneHot p)).findIdx? (fun b => decide (b ≠ 0)) =
      codewordCells.findIdx? fun c => decide (c = p) := by
    rw [buildCodewords_oneHot, findIdx?_map, hpred]
  cases hf : codewordCells.findIdx? fun c => decide (c = p) with
  | none | some j => simp only [probe, hfind, hf]

@[simp] theorem length_probe (map : List Nat) (p : Nat) : (probe map p).length = map.length := by
  rw [probe_eq]
  split
  · exact length_set
  · rfl

theorem getElem_probe {map : List Nat} (h : map.length = 310) (p : Nat) {j : Nat} (hj : j < 310) :
    (probe map p)[j]? = if codewordCells[j]? = some p then some p else map[j]? := by
  have hlen : j < codewordCells.length := by rw [length_codewordCells]; exact hj
  rw [probe_eq]
  cases hf : codewordCells.findIdx? (fun c => decide (c = p)) with
  | none =>
    have hne := findIdx?_eq_none_iff.mp hf codewordCells[j] (getElem_mem hlen)
    rw [getElem?_eq_getElem hlen, if_neg]
    intro he
    simp [Option.some.inj he] at hne
  | some k =>
    obtain ⟨hk,hp,-⟩ := findIdx?_eq_some_iff_getElem.mp hf
    have hget : codewordCells[k]? = some p := by
      rw [getElem?_eq_getElem hk, of_decide_eq_true hp]
    by_cases hjk : k = j
    · subst hjk
      rw [if_pos hget]
      exact getElem?_set_self (by omega)
    · rw [if_neg]
      · exact getElem?_set_ne hjk
      · intro he
        exact hjk ((getElem?_inj hk codewordCells_nodup).mp (hget.trans he.symm))

theorem foldl_probe (ps : List Nat) (map : List Nat) (h : map.length = 310) :
    (ps.foldl probe map).length = 310 ∧ ∀ j < 310, ∀ c, codewordCells[j]? = some c → c ∈ ps →
      (ps.foldl probe map)[j]? = some c := by
  have hkeep : ∀ (qs : List Nat) (m : List Nat), m.length = 310 → ∀ j < 310, ∀ c,
      codewordCells[j]? = some c → m[j]? = some c → (qs.foldl probe m)[j]? = some c := by
    intro qs
    induction qs with
    | nil => intro m _ j _ c _ hc; exact hc
    | cons q qs ih =>
      intro m hm j hj c hcell hc
      rw [foldl_cons]
      refine ih _ (by simpa using hm) j hj c hcell ?_
      rw [getElem_probe hm q hj]
      split
      · rename_i hq
        rw [← hq, hcell]
      · exact hc
  induction ps generalizing map with
  | nil => exact ⟨h, fun j hj c _ hin => by cases hin⟩
  | cons p ps ih =>
    obtain ⟨hlen,hget⟩ := ih (probe map p) (by simpa using h)
    rw [foldl_cons]
    refine ⟨hlen, fun j hj c hcell hin => ?_⟩
    obtain rfl | hin := mem_cons.mp hin
    · refine hkeep ps _ (by simpa using h) j hj c hcell ?_
      rw [getElem_probe h c hj, if_pos hcell]
    · exact hget j hj c hcell hin

theorem buildIndexMap_eq {map : List Nat} (h : map.length = 310) :
    buildIndexMap map = codewordCells := by
  obtain ⟨hlen,hget⟩ := foldl_probe (List.range 312) map h
  rw [buildIndexMap]
  refine ext_getElem? fun j => ?_
  by_cases hj : j < 310
  · have hc : j < codewordCells.length := by rw [length_codewordCells]; exact hj
    have hcell := getElem?_eq_getElem hc
    rw [hcell]
    exact hget j hj _ hcell (mem_range.mpr (codewordCells_spec.2 _ (getElem_mem hc)))
  · rw [getElem?_eq_none (by rw [hlen]; omega),
      getElem?_eq_none (by rw [length_codewordCells]; omega)]

section
variable {conf : Nat → Int}

theorem scanLeft_spec {lcb : List Nat} (hs : lcb.Pairwise (conf · ≤ conf ·)) (k pos : Nat)
    (hp : pos ≤ lcb.length) : ∃ n, scanLeft conf k lcb pos = n ∧ n ≤ pos ∧
      (∀ a ∈ lcb.take n, ¬ conf k < conf a) ∧ ∀ a ∈ (lcb.take pos).drop n, conf k < conf a := by
  induction pos with
  | zero => exact ⟨0, rfl, Nat.le_refl 0, by simp, by simp⟩
  | succ pos ih =>
    have hlt : pos < lcb.length := hp
    have htake : lcb.take (pos+1) = lcb.take pos ++ [lcb[pos]] := take_succ_eq_append_getElem hlt
    rw [scanLeft, getD_eq_getElem _ _ hlt]
    split_ifs with hless
    · obtain ⟨n,hn,hle,hfront,hback⟩ := ih (by omega)
      refine ⟨n, hn, by omega, hfront, fun a ha => ?_⟩
      rw [htake, drop_append_of_le_length (by simp; omega)] at ha
      obtain ha | ha := mem_append.mp ha
      · exact hback a ha
      · rwa [mem_singleton.mp ha]
    · refine ⟨pos+1, rfl, Nat.le_refl _, fun a ha => ?_, by simp⟩
      rw [htake] at ha
      obtain ha | ha := mem_append.mp ha
      · have hpair : (lcb.take pos ++ [lcb[pos]]).Pairwise (conf · ≤ conf ·) := by
          rw [← htake]
          exact hs.sublist (take_sublist _ _)
        have hle := (pairwise_append.mp hpair).2.2 a ha lcb[pos] (by simp)
        omega
      · rwa [mem_singleton.mp ha]

theorem place_append {k : Nat} {l r : List Nat} (hl : ∀ a ∈ l, ¬ conf k < conf a)
    (hr : ∀ a ∈ r, conf k < conf a) : place conf k (l++r) = l++k::r := by
  induction l with
  | nil =>
    cases r with
    | nil => rfl
    | cons a r => exact if_pos (hr a mem_cons_self)
  | cons a l ih =>
    rw [cons_append, place, if_neg (hl a mem_cons_self),
      ih fun b hb => hl b (mem_cons_of_mem a hb)]
    rfl

theorem insertLcb_eq_place {lcb : List Nat} (hs : lcb.Pairwise (conf · ≤ conf ·)) (k : Nat)
    {L : Nat} (hL : lcb.length ≤ L) : insertLcb conf k L lcb = (place conf k lcb).take L := by
  obtain ⟨n,hn,hle,hfront,hback⟩ := scanLeft_spec hs k lcb.length (Nat.le_refl _)
  rw [take_length] at hback
  have hplace : place conf k lcb = lcb.take n ++ k::lcb.drop n := by
    rw [← place_append hfront hback, take_append_drop]
  rw [insertLcb, hn, hplace]
  by_cases hlt : n < L
  · exact if_pos hlt
  · have hfull : n = lcb.length := by omega
    rw [if_neg hlt, hfull, take_length, take_append_of_le_length (by omega),
      take_of_length_le hL]

theorem leastReliable_eq_select (L : Nat) : leastReliable conf L = select conf 31 L := by
  have hstep (n : Nat) : (List.range n).foldl (fun lcb k => insertLcb conf k L lcb) [] =
      select conf n L := by
    induction n with
    | zero => rfl
    | succ n ih =>
      have hsorted : (select conf n L).Pairwise (conf · ≤ conf ·) := by
        rw [select_eq_take]
        refine ((placeAll_sorted n).sublist (take_sublist _ _)).imp fun h => ?_
        obtain hlt | ⟨heq,-⟩ := h
        · exact hlt.le
        · exact heq.le
      rw [range_succ, foldl_append, ih, foldl_cons, foldl_nil,
        insertLcb_eq_place hsorted n (by rw [length_select]; omega), select_succ]
  exact hstep 31

end

def hardMessage (cw : List UInt8) : Option Nat :=
  if (iridiumBchRepair2Ref acchBchPoly cw).1 < 0 then none
  else some (bitsToUint (iridiumBchRepair2Ref acchBchPoly cw).2 20)

theorem hardDecodeCw_spec (reg : SynRegistry) (h : RegistryValid reg) (cw : List UInt8) :
    RegistryValid (hardDecodeCw reg cw).1 ∧ (hardDecodeCw reg cw).2 = hardMessage cw := by
  obtain ⟨hvalid,hval⟩ := repair2_valid reg acchBchPoly cw h
  rw [hardMessage, ← hval]
  exact ⟨hvalid, rfl⟩

theorem hardMessage_lt {cw : List UInt8} {m : Nat} (h : hardMessage cw = some m) : m < 2^20 := by
  rw [hardMessage] at h
  split at h
  · cases h
  · cases h
    exact BchDecoder.bitsToUint_lt _ 20

theorem insertUnique_spec {l : List Nat} (hl : l.Pairwise (· < ·)) (v : Nat) :
    (insertUnique l v).Pairwise (· < ·) ∧ ∀ m, m ∈ insertUnique l v ↔ m = v ∨ m ∈ l := by
  induction l with
  | nil => exact ⟨pairwise_singleton _ _, fun m => by simp [insertUnique]⟩
  | cons a l ih =>
    obtain ⟨ha,hl'⟩ := pairwise_cons.mp hl
    obtain ⟨hsorted,hmem⟩ := ih hl'
    rw [insertUnique]
    split_ifs with hlt heq
    · refine ⟨pairwise_cons.mpr ⟨fun b hb => ?_, hsorted⟩, fun m => ?_⟩
      · obtain rfl | hb := (hmem b).mp hb
        · exact hlt
        · exact ha b hb
      · rw [mem_cons, hmem, mem_cons, or_left_comm]
    · exact ⟨hl, fun m => by simp [heq]⟩
    refine ⟨pairwise_cons.mpr ⟨fun b hb => ?_, hl⟩, fun m => mem_cons⟩
    have hva : v < a := by omega
    obtain rfl | hb := mem_cons.mp hb
    · exact hva
    · exact hva.trans (ha b hb)

def addMessage (cw : List UInt8) (lcb : List Nat) (cands : List Nat) (mset : Nat) : List Nat :=
  match hardMessage (flipPattern cw lcb mset) with
  | some m => insertUnique cands m
  | none => cands

variable (cw : List UInt8)

theorem tryPattern_spec (lcb : List Nat) (reg : SynRegistry) (cands : List Nat)
    (mset : Nat) (h : RegistryValid reg) :
    RegistryValid (tryPattern cw lcb (reg, cands) mset).1 ∧
    (tryPattern cw lcb (reg, cands) mset).2 = addMessage cw lcb cands mset := by
  obtain ⟨hvalid,hval⟩ := hardDecodeCw_spec reg h (flipPattern cw lcb mset)
  rw [tryPattern, addMessage, ← hval]
  rcases hd : hardDecodeCw reg (flipPattern cw lcb mset) with ⟨reg',m⟩
  rw [hd] at hvalid
  cases m with
  | none => exact ⟨hvalid, rfl⟩
  | some m => exact ⟨hvalid, rfl⟩

theorem foldl_addMessage (lcb ps : List Nat) {l : List Nat}
    (hl : l.Pairwise (· < ·)) : (ps.foldl (addMessage cw lcb) l).Pairwise (· < ·) ∧
    ∀ m, m ∈ ps.foldl (addMessage cw lcb) l ↔
      m ∈ l ∨ ∃ p ∈ ps, hardMessage (flipPattern cw lcb p) = some m := by
  induction ps generalizing l with
  | nil => exact ⟨hl, fun m => by simp⟩
  | cons p ps ih =>
    have hstep : (addMessage cw lcb l p).Pairwise (· < ·) ∧ ∀ m, m ∈ addMessage cw lcb l p ↔
        m ∈ l ∨ hardMessage (flipPattern cw lcb p) = some m := by
      rw [addMessage]
      cases hm : hardMessage (flipPattern cw lcb p) with
      | none => exact ⟨hl, fun m => by simp⟩
      | some v =>
        obtain ⟨hsorted,hmem⟩ := insertUnique_spec hl v
        refine ⟨hsorted, fun m => ?_⟩
        rw [hmem, Option.some.injEq, or_comm, eq_comm]
    obtain ⟨hsorted,hmem⟩ := ih hstep.1
    refine ⟨hsorted, fun m => ?_⟩
    rw [foldl_cons, hmem, hstep.2, or_assoc]
    simp

theorem flipPattern_eq_flipAll (lcb : List Nat) (p : Nat) :
    flipPattern cw lcb p = flipAll cw (chosen lcb p) := by
  induction lcb generalizing cw p with
  | nil => rfl
  | cons a lcb ih =>
    rw [flipPattern_cons, ih, chosen]
    split <;> rfl

theorem flipAll_perm {t t' : List Nat} (h : t.Perm t') :
    flipAll cw t = flipAll cw t' :=
  h.foldl_eq' (fun i _ j _ bits => flipBit_comm bits i j) cw

theorem exists_pattern_iff (conf : Nat → Int) {L : Nat} (hL : L ≤ 31) (P : List UInt8 → Prop)
    (cw : List UInt8) : (∃ p ∈ List.range (1 <<< L), P (flipPattern cw (select conf 31 L) p)) ↔
      ∃ t ∈ (smallest conf 31 L).sublists, P (flipAll cw t) := by
  have hperm : (select conf 31 L).Perm (smallest conf 31 L) := select_perm_smallest 31 L
  have hlen : (select conf 31 L).length = L := by rw [length_select]; omega
  constructor
  · rintro ⟨p,-,hp⟩
    obtain ⟨t,ht,hsub⟩ := exists_perm_sublist (chosen_sublist (select conf 31 L) p) hperm
    rw [flipPattern_eq_flipAll, ← flipAll_perm cw ht] at hp
    exact ⟨t, mem_sublists.mpr hsub, hp⟩
  · rintro ⟨t,ht,hp⟩
    obtain ⟨u,hu,hsub⟩ := exists_perm_sublist (mem_sublists.mp ht) hperm.symm
    obtain ⟨p,hlt,rfl⟩ := exists_chosen hsub
    rw [hlen] at hlt
    refine ⟨p, mem_range.mpr (by rwa [Nat.one_shiftLeft]), ?_⟩
    rwa [flipPattern_eq_flipAll, flipAll_perm cw hu]

end IridiumAcars.IdaChase
