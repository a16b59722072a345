import IridiumAcars.BchRegistry
import Mathlib.Data.List.Find

/-! The table-driven repairs agree with the brute-force reference in every reachable registry. -/
namespace IridiumAcars.Bch
open WordDivision FirstWrite List

variable (reg : SynRegistry) (poly : UInt32) (bits : List UInt8)

variable (d : Nat)

theorem bitLength_spec (h : u32BitLength poly.toNat = d+1) :
    poly.toNat < 2^(d+1) ∧ poly.toNat.testBit d = true := by
  have hp : poly.toNat < 2^32 := poly.toNat_lt
  obtain ⟨hlt,hle⟩ := bitLengthLoop_spec 32 poly.toNat hp
  change poly.toNat < 2^u32BitLength poly.toNat at hlt
  change 0 < poly.toNat → 2^u32BitLength poly.toNat ≤ 2*poly.toNat at hle
  rw [h] at hlt hle
  have hpos : 0 < poly.toNat := by
    by_contra hn
    have h0 : poly.toNat = 0 := by omega
    rw [h0] at h
    simp [u32BitLength, bitLengthLoop] at h
  have hge : 2^d ≤ poly.toNat := by
    have := hle hpos
    rw [Nat.pow_succ] at this
    omega
  exact ⟨hlt, Nat.testBit_of_two_pow_le_and_two_pow_add_one_gt hge hlt⟩

theorem polyModU32_divide (d num : Nat) (h : u32BitLength poly.toNat = d+1) (hn : num < 2^32) :
    polyModU32 num poly.toNat = divide poly.toNat d 32 num := by
  obtain ⟨hlt,hd⟩ := bitLength_spec poly d h
  exact polyModU32_eq num poly.toNat d 32 hn
    (lt_of_lt_of_le hn (Nat.pow_le_pow_right (by decide) (by omega))) poly.toNat_lt hlt hd

theorem polyModU32_xor (d a b : Nat) (h : u32BitLength poly.toNat = d+1) (ha : a < 2^32)
    (hb : b < 2^32) :
    polyModU32 (a ^^^ b) poly.toNat = polyModU32 a poly.toNat ^^^ polyModU32 b poly.toNat := by
  rw [polyModU32_divide poly d _ h (Nat.xor_lt_two_pow ha hb), polyModU32_divide poly d a h ha,
    polyModU32_divide poly d b h hb, divide_xor]

theorem polyModU32_lt (d num : Nat) (h : u32BitLength poly.toNat = d+1) (hn : num < 2^32) :
    polyModU32 num poly.toNat < 2^d := by
  obtain ⟨hlt,hd⟩ := bitLength_spec poly d h
  rw [polyModU32_divide poly d num h hn]
  exact divide_lt _ _ _ _ hlt hd
    (lt_of_lt_of_le hn (Nat.pow_le_pow_right (by decide) (by omega)))

theorem monomial_lt (n i : Nat) (hn : n ≤ synMaxNBits) : 1 <<< (n-1-i) < 2^32 := by
  rw [Nat.one_shiftLeft]
  exact Nat.pow_lt_pow_right (by decide) (by unfold synMaxNBits at hn; omega)

theorem ndivide_flipBit (bits : List UInt8) (i : Nat) (h : u32BitLength poly.toNat = d+1)
    (hn : bits.length ≤ synMaxNBits) (hi : i < bits.length) :
    iridiumBchNdivide poly (flipBit bits i) =
      iridiumBchNdivide poly bits ^^^ syn1 poly bits.length i := by
  have h0 : bits.length ≠ 0 := by omega
  rw [iridiumBchNdivide, length_flipBit, if_neg h0, iridiumBchNdivide, if_neg h0,
    bitsToU32_flipBit bits i (by unfold synMaxNBits at hn; omega) hi,
    polyModU32_xor poly d _ _ h (bitsToU32_lt bits) (monomial_lt _ i hn)]
  rfl

theorem xor_eq_zero_iff_eq (a b : Nat) : a ^^^ b = 0 ↔ b = a := by
  constructor
  · intro h
    have hb := congrArg (fun v => a ^^^ v) h
    simpa [← Nat.xor_assoc] using hb
  · intro h
    rw [h, Nat.xor_self]

theorem tryFlips_eq (is : List Nat) (bits : List UInt8) :
    tryFlips poly is bits =
      match is.find? (fun i => decide (iridiumBchNdivide poly (flipBit bits i) = 0)) with
      | some i => (true, flipBit bits i)
      | none => (false, bits) := by
  induction is with
  | nil => rfl
  | cons i is ih =>
    by_cases h : iridiumBchNdivide poly (flipBit bits i) = 0
    · simp [tryFlips, h]
    · simp [tryFlips, h, flipBit_flipBit, ih]

theorem tryPairs_eq (n : Nat) (is : List Nat) (bits : List UInt8) :
    tryPairs poly n is bits =
      match (is.flatMap fun i => (List.range' (i+1) (n-(i+1))).map fun j => (i, j)).find?
        (fun ij => decide (iridiumBchNdivide poly (flipBit (flipBit bits ij.1) ij.2) = 0)) with
      | some ij => (true, flipBit (flipBit bits ij.1) ij.2)
      | none => (false, bits) := by
  induction is with
  | nil => rfl
  | cons i is ih =>
    rw [tryPairs, tryFlips_eq, flatMap_cons, find?_append, find?_map]
    cases hf : (List.range' (i+1) (n-(i+1))).find?
        (fun j => decide (iridiumBchNdivide poly (flipBit (flipBit bits i) j) = 0)) with
    | some j => simp [hf]
    | none => simp [hf, flipBit_flipBit, ih]

theorem mem_indexPairs (n : Nat) (ij : Nat × Nat) (h : ij ∈ indexPairs n) :
    ij.1 < ij.2 ∧ ij.2 < n := by
  simp only [indexPairs, mem_flatMap, mem_range, mem_map, mem_range'_1] at h
  obtain ⟨i,hi,j,hj,rfl⟩ := h
  constructor <;> simp only <;> omega

def firstSingle (poly : UInt32) (n s : Nat) : Option Nat :=
  (List.range n).find? fun i => decide (syn1 poly n i = s)
def firstPair (poly : UInt32) (n s : Nat) : Option (Nat × Nat) :=
  (indexPairs n).find? fun ij => decide (syn1 poly n ij.1 ^^^ syn1 poly n ij.2 = s)

theorem find_single (bits : List UInt8) (h : u32BitLength poly.toNat = d+1)
    (hn : bits.length ≤ synMaxNBits) :
    (List.range bits.length).find?
      (fun i => decide (iridiumBchNdivide poly (flipBit bits i) = 0)) =
      firstSingle poly bits.length (iridiumBchNdivide poly bits) := by
  apply find?_congr
  intro i hi
  rw [ndivide_flipBit poly d bits i h hn (mem_range.mp hi)]
  simp only [xor_eq_zero_iff_eq]

theorem find_pair (bits : List UInt8) (h : u32BitLength poly.toNat = d+1)
    (hn : bits.length ≤ synMaxNBits) :
    (indexPairs bits.length).find?
      (fun ij => decide (iridiumBchNdivide poly (flipBit (flipBit bits ij.1) ij.2) = 0)) =
      firstPair poly bits.length (iridiumBchNdivide poly bits) := by
  apply find?_congr
  intro ij hij
  obtain ⟨h1,h2⟩ := mem_indexPairs _ ij hij
  rw [ndivide_flipBit poly d _ ij.2 h (by simpa using hn) (by simpa using h2),
    ndivide_flipBit poly d bits ij.1 h hn (by omega), length_flipBit, Nat.xor_assoc]
  simp only [xor_eq_zero_iff_eq]

theorem repair1Ref_eq (bits : List UInt8) (h : u32BitLength poly.toNat = d+1)
    (hn : bits.length ≤ synMaxNBits) (h0 : bits.length ≠ 0) (hs : iridiumBchNdivide poly bits ≠ 0) :
    iridiumBchRepair1Ref poly bits =
      match firstSingle poly bits.length (iridiumBchNdivide poly bits) with
      | some i => (1, flipBit bits i)
      | none => (-1, bits) := by
  rw [iridiumBchRepair1Ref, if_neg h0, if_neg hs, tryFlips_eq, find_single poly d bits h hn]
  cases firstSingle poly bits.length (iridiumBchNdivide poly bits) <;> rfl

theorem repair2Ref_eq (bits : List UInt8) (h : u32BitLength poly.toNat = d+1)
    (hn : bits.length ≤ synMaxNBits) (h0 : bits.length ≠ 0) (hs : iridiumBchNdivide poly bits ≠ 0) :
    iridiumBchRepair2Ref poly bits =
      match firstSingle poly bits.length (iridiumBchNdivide poly bits),
        firstPair poly bits.length (iridiumBchNdivide poly bits) with
      | some i, _ => (1, flipBit bits i)
      | none, some ij => (2, flipBit (flipBit bits ij.1) ij.2)
      | none, none => (-1, bits) := by
  have ht : tryPairs poly bits.length (List.range bits.length) bits =
      match firstPair poly bits.length (iridiumBchNdivide poly bits) with
      | some ij => (true, flipBit (flipBit bits ij.1) ij.2)
      | none => (false, bits) := by
    rw [tryPairs_eq, ← find_pair poly d bits h hn]
    rfl
  rw [iridiumBchRepair2Ref, if_neg h0, if_neg hs, tryFlips_eq, find_single poly d bits h hn]
  cases firstSingle poly bits.length (iridiumBchNdivide poly bits) with
  | some i => rfl
  | none =>
    simp only [ht]
    cases firstPair poly bits.length (iridiumBchNdivide poly bits) <;> rfl

theorem firstValue_synWrites (n s : Nat) :
    firstValue synEmpty (synWrites poly n) s =
      match firstSingle poly n s, firstPair poly n s with
      | some i, _ => synSingleFlag ||| i
      | none, some ij => ij.1 <<< 5 ||| ij.2
      | none, none => synEmpty := by
  rw [firstValue, synWrites, find?_append, find?_map, find?_map]
  have h1 : (List.range n).find?
      ((fun kv : Nat × Nat => decide (kv.1 = s)) ∘ fun i => (syn1 poly n i, synSingleFlag ||| i)) =
      firstSingle poly n s := rfl
  have h2 : (indexPairs n).find? ((fun kv : Nat × Nat => decide (kv.1 = s)) ∘
      fun ij => (syn1 poly n ij.1 ^^^ syn1 poly n ij.2, ij.1 <<< 5 ||| ij.2)) =
      firstPair poly n s := rfl
  rw [h1, h2]
  cases firstSingle poly n s with
  | some i => rfl
  | none => cases firstPair poly n s <;> rfl

theorem single_entry : ∀ i < 31, synSingleFlag ||| i ≠ synEmpty ∧
    (synSingleFlag ||| i) &&& synSingleFlag ≠ 0 ∧ (synSingleFlag ||| i) &&& 0x1F = i := by
  decide

theorem pair_entry : ∀ i < 31, ∀ j < 31, i <<< 5 ||| j ≠ synEmpty ∧
    (i <<< 5 ||| j) &&& synSingleFlag = 0 ∧ ((i <<< 5 ||| j) >>> 5) &&& 0x1F = i ∧
    (i <<< 5 ||| j) &&& 0x1F = j := by
  decide +kernel

theorem synWrites_ne_empty (n : Nat) (hn : n ≤ synMaxNBits) (kv : Nat × Nat)
    (h : kv ∈ synWrites poly n) : kv.2 ≠ synEmpty := by
  unfold synMaxNBits at hn
  rcases mem_append.mp h with h | h
  · obtain ⟨i,hi,rfl⟩ := mem_map.mp h
    have hi' := mem_range.mp hi
    exact (single_entry i (by omega)).1
  · obtain ⟨ij,hij,rfl⟩ := mem_map.mp h
    obtain ⟨h1,h2⟩ := mem_indexPairs n ij hij
    exact (pair_entry ij.1 (by omega) ij.2 (by omega)).1

theorem init_valid : RegistryValid SynRegistry.init :=
  ⟨by simp [SynRegistry.init], by simp [SynRegistry.init], by simp [SynRegistry.init]⟩

theorem SlotValid.frame {reg reg' : SynRegistry} {s : SynSlot} (h : SlotValid reg s)
    (hused : reg.arenaUsed ≤ reg'.arenaUsed)
    (harena : ∀ p < reg.arenaUsed, reg'.arena[p]? = reg.arena[p]?) : SlotValid reg' s where
  degPos := h.degPos
  polyLen := h.polyLen
  nPos := h.nPos
  nLe := h.nLe
  fits := h.fits.trans hused
  entries := by
    intro k hk
    have hf := h.fits
    rw [harena (s.tbl+k) (by omega)]
    exact h.entries k hk

theorem synGetSlot_valid (n : Nat) (h : RegistryValid reg) :
    RegistryValid (synGetSlot reg poly n).1 ∧
    ∀ s, (synGetSlot reg poly n).2 = some s →
      s.poly = poly ∧ s.nBits = n ∧ SlotValid (synGetSlot reg poly n).1 s := by
  unfold synGetSlot
  cases hf : reg.slots.find? (fun s => decide (s.poly = poly ∧ s.nBits = n)) with
  | some s =>
    refine ⟨h, fun s' hs => ?_⟩
    obtain rfl : s = s' := by simpa using hs
    have hp := find?_some hf
    simp only [decide_eq_true_eq] at hp
    exact ⟨hp.1, hp.2, h.slots s (mem_of_find?_eq_some hf)⟩
  | none =>
    simp only
    split
    · exact ⟨h, by simp⟩
    split
    · exact ⟨h, by simp⟩
    split
    · exact ⟨h, by simp⟩
    rename_i hargs hslots hfit
    obtain ⟨d,hd⟩ : ∃ d, u32BitLength poly.toNat = d+1 := ⟨u32BitLength poly.toNat-1, by omega⟩
    have hn : n ≤ synMaxNBits := by omega
    have hlen : 1 <<< d = 2^d := Nat.one_shiftLeft d
    have hbase : reg.arenaUsed+2^d ≤ synArenaEntries := by
      rw [hd, Nat.add_sub_cancel, hlen] at hfit
      have := h.usedLe
      omega
    simp only [hd, Nat.add_sub_cancel, hlen]
    have hcl := clearTable_length reg.arena reg.arenaUsed (2^d)
    have hget := fun p => clearTable_get reg.arena reg.arenaUsed (2^d) p
      (by rw [h.arenaLength]; exact hbase)
    have hkeep : ∀ p < reg.arenaUsed,
        (writeAll synEmpty reg.arenaUsed (clearTable reg.arena reg.arenaUsed (2^d))
          (synWrites poly n))[p]? = reg.arena[p]? := by
      intro p hp
      rw [writeAll_other _ _ _ _ _ (fun kv _ => by omega), hget p, if_neg (by omega)]
    have hnew : SlotValid ⟨writeAll synEmpty reg.arenaUsed
        (clearTable reg.arena reg.arenaUsed (2^d)) (synWrites poly n),
        reg.slots ++ [⟨poly, n, d, reg.arenaUsed⟩], reg.arenaUsed+2^d⟩
        ⟨poly, n, d, reg.arenaUsed⟩ := by
      refine ⟨by simp only; omega, hd, by simp only; omega, hn, le_refl _, ?_⟩
      intro k hk
      refine writeAll_empty _ _ _ _ _ (fun kv hkv => synWrites_ne_empty poly n hn kv hkv) ?_
      rw [hget, if_pos ⟨by omega, by simp only at hk; omega⟩]
    refine ⟨⟨?_, hbase, ?_⟩, fun s hs => ?_⟩
    · rw [writeAll_length, hcl, h.arenaLength]
    · intro s hs
      rcases mem_append.mp hs with hs | hs
      · exact (h.slots s hs).frame (by simp) hkeep
      · obtain rfl := mem_singleton.mp hs
        exact hnew
    · obtain rfl : _ = s := by simpa using hs
      exact ⟨rfl, rfl, hnew⟩

theorem firstSingle_lt {poly : UInt32} {n s i : Nat} (h : firstSingle poly n s = some i) :
    i < n := mem_range.mp (mem_of_find?_eq_some h)

theorem firstPair_lt {poly : UInt32} {n s : Nat} {ij : Nat × Nat}
    (h : firstPair poly n s = some ij) : ij.1 < ij.2 ∧ ij.2 < n :=
  mem_indexPairs n ij (mem_of_find?_eq_some h)

inductive EntryFor (poly : UInt32) (n s e : Nat) : Prop
  | single (i : Nat) (hs : firstSingle poly n s = some i) (hfull : e ≠ synEmpty)
      (hflag : e &&& synSingleFlag ≠ 0) (hlow : e &&& 0x1F = i)
  | pair (ij : Nat × Nat) (hs : firstSingle poly n s = none) (hp : firstPair poly n s = some ij)
      (hfull : e ≠ synEmpty) (hflag : e &&& synSingleFlag = 0)
      (hhigh : (e >>> 5) &&& 0x1F = ij.1) (hlow : e &&& 0x1F = ij.2)
  | empty (hs : firstSingle poly n s = none) (hp : firstPair poly n s = none) (he : e = synEmpty)

theorem entryFor_firstValue {n : Nat} (hn : n ≤ synMaxNBits) (s : Nat) :
    EntryFor poly n s (firstValue synEmpty (synWrites poly n) s) := by
  unfold synMaxNBits at hn
  rw [firstValue_synWrites]
  cases hs : firstSingle poly n s with
  | some i =>
    have hlt := firstSingle_lt hs
    obtain ⟨hfull,hflag,hlow⟩ := single_entry i (by omega)
    exact .single i hs hfull hflag hlow
  | none =>
    cases hp : firstPair poly n s with
    | some ij =>
      obtain ⟨hlt,hlt'⟩ := firstPair_lt hp
      obtain ⟨hfull,hflag,hhigh,hlow⟩ := pair_entry ij.1 (by omega) ij.2 (by omega)
      exact .pair ij hs hp hfull hflag hhigh hlow
    | none => exact .empty hs hp rfl

theorem SlotValid.lookup {reg : SynRegistry} {s : SynSlot} (h : SlotValid reg s)
    (bits : List UInt8) (hn : bits.length = s.nBits) :
    iridiumBchNdivide s.poly bits >>> s.deg = 0 ∧
    EntryFor s.poly s.nBits (iridiumBchNdivide s.poly bits)
      (reg.arena.getD (s.tbl+iridiumBchNdivide s.poly bits) 0) := by
  have hpos := h.nPos
  have hlt : iridiumBchNdivide s.poly bits < 2^s.deg := by
    rw [iridiumBchNdivide, if_neg (by omega)]
    exact polyModU32_lt s.poly s.deg _ h.polyLen (bitsToU32_lt bits)
  refine ⟨?_, ?_⟩
  · rw [Nat.shiftRight_eq_div_pow, Nat.div_eq_of_lt hlt]
  · rw [getD_eq_getElem?_getD, h.entries _ hlt, Option.getD_some]
    exact entryFor_firstValue s.poly h.nLe _

theorem repair1_valid (h : RegistryValid reg) :
    RegistryValid (iridiumBchRepair1 reg poly bits).1 ∧
    (iridiumBchRepair1 reg poly bits).2 = iridiumBchRepair1Ref poly bits := by
  by_cases h0 : bits.length = 0
  · simp [iridiumBchRepair1, iridiumBchRepair1Ref, h0, h]
  by_cases hs : iridiumBchNdivide poly bits = 0
  · simp [iridiumBchRepair1, iridiumBchRepair1Ref, h0, hs, h]
  obtain ⟨hv,hslot⟩ := synGetSlot_valid reg poly bits.length h
  rw [iridiumBchRepair1, if_neg h0]
  simp only [if_neg hs]
  generalize synGetSlot reg poly bits.length = r at hv hslot
  obtain ⟨reg',o⟩ := r
  cases o with
  | none => exact ⟨hv, rfl⟩
  | some slot =>
    obtain ⟨rfl,hn,hsv⟩ := hslot slot rfl
    obtain ⟨hz,hentry⟩ := hsv.lookup bits hn.symm
    rw [repair1Ref_eq slot.poly slot.deg bits hsv.polyLen (hn ▸ hsv.nLe) h0 hs, ← hn]
    dsimp only at hentry ⊢
    generalize reg'.arena.getD (slot.tbl+iridiumBchNdivide slot.poly bits) 0 = e at hentry ⊢
    cases hentry with
    | single i hs hfull hflag hlow => simp [hz, hs, hfull, hflag, hlow, hv]
    | pair ij hs hp hfull hflag hhigh hlow => simp [hz, hs, hflag, hv]
    | empty hs hp he => simp [hz, hs, he, hv]

theorem repair2_valid (h : RegistryValid reg) :
    RegistryValid (iridiumBchRepair2 reg poly bits).1 ∧
    (iridiumBchRepair2 reg poly bits).2 = iridiumBchRepair2Ref poly bits := by
  by_cases h0 : bits.length = 0
  · simp [iridiumBchRepair2, iridiumBchRepair2Ref, h0, h]
  by_cases hs : iridiumBchNdivide poly bits = 0
  · simp [iridiumBchRepair2, iridiumBchRepair2Ref, h0, hs, h]
  obtain ⟨hv,hslot⟩ := synGetSlot_valid reg poly bits.length h
  rw [iridiumBchRepair2, if_neg h0]
  simp only [if_neg hs]
  generalize synGetSlot reg poly bits.length = r at hv hslot
  obtain ⟨reg',o⟩ := r
  cases o with
  | none => exact ⟨hv, rfl⟩
  | some slot =>
    obtain ⟨rfl,hn,hsv⟩ := hslot slot rfl
    obtain ⟨hz,hentry⟩ := hsv.lookup bits hn.symm
    rw [repair2Ref_eq slot.poly slot.deg bits hsv.polyLen (hn ▸ hsv.nLe) h0 hs, ← hn]
    dsimp only at hentry ⊢
    generalize reg'.arena.getD (slot.tbl+iridiumBchNdivide slot.poly bits) 0 = e at hentry ⊢
    cases hentry with
    | single i hs hfull hflag hlow => simp [hz, hs, hfull, hflag, hlow, hv]
    | pair ij hs hp hfull hflag hhigh hlow => simp [hz, hs, hp, hfull, hflag, hhigh, hlow, hv]
    | empty hs hp he => simp [hz, hs, hp, he, hv]

theorem stepRegistry_valid (c : RepairCall) (h : RegistryValid reg) :
    RegistryValid (stepRegistry reg c) := by
  cases c with
  | repair1 poly bits => exact (repair1_valid reg poly bits h).1
  | repair2 poly bits => exact (repair2_valid reg poly bits h).1

theorem runRegistry_valid (calls : List RepairCall) (reg : SynRegistry) (h : RegistryValid reg) :
    RegistryValid (runRegistry calls reg) := by
  induction calls generalizing reg with
  | nil => exact h
  | cons c cs ih => exact ih _ (stepRegistry_valid reg c h)

/-- The table path and the brute-force search agree after any earlier calls. -/
theorem table_repair_eq_ref (calls : List RepairCall) (poly : UInt32) (bits : List UInt8) :
    (iridiumBchRepair1 (runRegistry calls .init) poly bits).2 = iridiumBchRepair1Ref poly bits ∧
    (iridiumBchRepair2 (runRegistry calls .init) poly bits).2 = iridiumBchRepair2Ref poly bits := by
  have hv := runRegistry_valid calls _ init_valid
  exact ⟨(repair1_valid _ poly bits hv).2, (repair2_valid _ poly bits hv).2⟩

end IridiumAcars.Bch
