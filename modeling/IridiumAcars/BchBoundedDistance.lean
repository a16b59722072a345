import IridiumAcars.BchDecoder
import IridiumAcars.Lib.BitCount

/-! Hard decoding of BCH(31,21): the decoder returns the one codeword within distance two. -/
namespace IridiumAcars.BchDecoder
open BitCount WordDivision IndexMap List

def Codeword (c : Nat) : Prop := ∃ q, q < 2^21 ∧ c = multiple bchPolyRa 21 q

def hammingDistance (a b : Nat) : Nat := weight 31 (a ^^^ b)

def bchDecodeBlockOut (block31 out : List UInt8) : Int × List UInt8 :=
  match bchDecodeBlock block31 with
  | some (errs, data) => (errs, data ++ out.drop 21)
  | none => (-1, out)

theorem Codeword.lt {c : Nat} (h : Codeword c) : c < 2^31 := by
  obtain ⟨q,-,rfl⟩ := h
  exact multiple_lt bchPolyRa 10 21 q (by decide)

theorem codeword_iff {c : Nat} (h : c < 2^31) : Codeword c ↔ gf2Remainder bchPolyRa c = 0 := by
  rw [gf2Remainder_eq, divide_add bchPolyRa 10 21 1 c h]
  exact (divide_eq_zero_iff bchPolyRa 10 21 c (by decide) (by decide)).symm

theorem Codeword.remainder {c : Nat} (h : Codeword c) : gf2Remainder bchPolyRa c = 0 :=
  (codeword_iff h.lt).mp h

theorem Codeword.remainder_xor {c : Nat} (h : Codeword c) (v : Nat) :
    gf2Remainder bchPolyRa (c ^^^ v) = gf2Remainder bchPolyRa v := by
  rw [gf2Remainder_xor, h.remainder, Nat.zero_xor]

def synPatterns : List Nat := synSingles ++ synDoubles

theorem synPatterns_remainders_nodup : (0::synPatterns.map (gf2Remainder bchPolyRa)).Nodup :=
  (Syndromes.distinctFrom_spec 0 _ (by decide +kernel)).1

theorem remainder_inj {a b : Nat} (ha : a ∈ synPatterns) (hb : b ∈ synPatterns)
    (h : gf2Remainder bchPolyRa a = gf2Remainder bchPolyRa b) : a = b :=
  inj_on_of_nodup_map (nodup_cons.mp synPatterns_remainders_nodup).2 ha hb h

theorem remainder_ne_zero {a : Nat} (ha : a ∈ synPatterns) : gf2Remainder bchPolyRa a ≠ 0 := by
  intro h
  have hzero := (nodup_cons.mp synPatterns_remainders_nodup).1
  exact hzero (h ▸ mem_map_of_mem ha)

theorem mem_synPatterns_of_weight {e : Nat} (h : e < 2^31) (hw : weight 31 e ≤ 2) (h0 : e ≠ 0) :
    e ∈ synPatterns := by
  have hpos : weight 31 e ≠ 0 := fun hz => h0 (eq_zero_of_weight h hz)
  by_cases h1 : weight 31 e = 1
  · obtain ⟨a,ha,rfl⟩ := of_weight_one h h1
    exact mem_append_left _ ((mem_synSingles _).mpr ⟨a, ha, rfl⟩)
  · obtain ⟨a,b,hab,hb,rfl⟩ := of_weight_two h (by omega)
    rw [← two_bits a b (by omega)]
    exact mem_append_right _ ((mem_synDoubles _).mpr ⟨a, b, hab, hb, rfl⟩)

theorem weight_synSingles {e : Nat} (h : e ∈ synSingles) : weight 31 e = 1 := by
  obtain ⟨b,hb,rfl⟩ := (mem_synSingles e).mp h
  exact weight_one_shiftLeft hb

theorem weight_synDoubles {e : Nat} (h : e ∈ synDoubles) : weight 31 e = 2 := by
  obtain ⟨a,b,hab,hb,rfl⟩ := (mem_synDoubles e).mp h
  rw [two_bits a b (by omega)]
  exact weight_two_bits (by omega) (by omega) hb

theorem weight_of_mem_synPatterns {e : Nat} (h : e ∈ synPatterns) : weight 31 e ≤ 2 := by
  obtain h | h := mem_append.mp h
  · rw [weight_synSingles h]
    exact Nat.le_succ 1
  · rw [weight_synDoubles h]

theorem lt_of_mem_synPatterns : ∀ e ∈ synPatterns, e < 2^31 := by decide +kernel

theorem light_inj {a b : Nat} (ha : a < 2^31) (hb : b < 2^31) (hwa : weight 31 a ≤ 2)
    (hwb : weight 31 b ≤ 2) (h : gf2Remainder bchPolyRa a = gf2Remainder bchPolyRa b) : a = b := by
  have hzero : gf2Remainder bchPolyRa 0 = 0 := rfl
  by_cases h0 : a = 0
  · by_cases h1 : b = 0
    · rw [h0, h1]
    · rw [h0, hzero] at h
      exact absurd h.symm (remainder_ne_zero (mem_synPatterns_of_weight hb hwb h1))
  · by_cases h1 : b = 0
    · rw [h1, hzero] at h
      exact absurd h (remainder_ne_zero (mem_synPatterns_of_weight ha hwa h0))
    · exact remainder_inj (mem_synPatterns_of_weight ha hwa h0)
        (mem_synPatterns_of_weight hb hwb h1) h

def Fills (write : List SynEntry → Nat → List SynEntry) (entry : Nat → SynEntry) : Prop :=
  ∀ tbl val, val < 2^32 → ¬ Corrects tbl (gf2Remainder bchPolyRa val) →
    write tbl val = tbl.set (gf2Remainder bchPolyRa val) (entry val)

theorem writeSingle_fills : Fills writeSingle fun val => ⟨1, val⟩ :=
  fun _ val hv _ => if_pos (gf2Remainder_lt val hv)

theorem writeDouble_fills : Fills writeDouble fun val => ⟨2, val⟩ :=
  fun _ val hv hfree => if_pos ⟨gf2Remainder_lt val hv, Int.not_le.mp hfree⟩

theorem foldl_write_eq_scatter {write : List SynEntry → Nat → List SynEntry}
    {entry : Nat → SynEntry} (hfill : Fills write entry) (vals : List Nat)
    (hv : ∀ val ∈ vals, val < 2^32) (hn : (vals.map (gf2Remainder bchPolyRa)).Nodup)
    (tbl : List SynEntry) (hfree : ∀ val ∈ vals, ¬ Corrects tbl (gf2Remainder bchPolyRa val)) :
    vals.foldl write tbl =
      scatter (vals.map (gf2Remainder bchPolyRa)) (vals.map entry) tbl := by
  induction vals generalizing tbl with
  | nil => rfl
  | cons val vals ih =>
    obtain ⟨hval,hn'⟩ := nodup_cons.mp hn
    rw [foldl_cons, hfill tbl val (hv val (by simp)) (hfree val (by simp))]
    refine ih (fun v hm => hv v (mem_cons_of_mem val hm)) hn' _ fun v hm => ?_
    have hne : gf2Remainder bchPolyRa val ≠ gf2Remainder bchPolyRa v :=
      fun he => hval (he ▸ mem_map_of_mem hm)
    rw [Corrects, getD_eq_getElem?_getD, getElem?_set_ne hne,
      ← getD_eq_getElem?_getD]
    exact hfree v (mem_cons_of_mem val hm)

theorem getD_scatter_remainder (vals : List Nat) (entry : Nat → SynEntry)
    (hv : ∀ val ∈ vals, val < 2^32) (hn : (vals.map (gf2Remainder bchPolyRa)).Nodup)
    (tbl : List SynEntry) (hl : tbl.length = 1024) (val : Nat) (hm : val ∈ vals) :
    (scatter (vals.map (gf2Remainder bchPolyRa)) (vals.map entry) tbl).getD
      (gf2Remainder bchPolyRa val) synEmpty = entry val := by
  have hbound : ∀ r ∈ vals.map (gf2Remainder bchPolyRa), r < tbl.length := by
    intro r hr
    obtain ⟨v,hin,rfl⟩ := mem_map.mp hr
    rw [hl]
    exact gf2Remainder_lt v (hv v hin)
  have hgather := gather_scatter synEmpty _ (vals.map entry) tbl hn hbound (by simp)
  rw [gather, map_map] at hgather
  exact map_inj_left.mp hgather val hm

theorem bchDecoderInit_entry (val : Nat) (hm : val ∈ synPatterns) :
    bchDecoderInit.getD (gf2Remainder bchPolyRa val) synEmpty = ⟨weight 31 val, val⟩ := by
  have hn := (nodup_cons.mp synPatterns_remainders_nodup).2
  rw [synPatterns, map_append] at hn
  obtain ⟨hn1,hn2,hdisj⟩ := nodup_append.mp hn
  have hv1 := fun v hv => synPatterns_lt v (mem_append_left synDoubles hv)
  have hv2 := fun v hv => synPatterns_lt v (mem_append_right synSingles hv)
  obtain ⟨hlen,hsingles⟩ := foldl_write_spec writeSingle writeSingle_spec synSingles hv1
    (List.replicate 1024 synEmpty) length_replicate
  have hfree : ∀ v ∈ synDoubles, ¬ Corrects (synSingles.foldl writeSingle
      (List.replicate 1024 synEmpty)) (gf2Remainder bchPolyRa v) := by
    intro v hv hc
    obtain hc | ⟨w,hw,he⟩ := (hsingles _).mp hc
    · exact not_corrects_replicate 1024 _ hc
    · exact hdisj _ (mem_map_of_mem hw) _ (mem_map_of_mem hv) he
  rw [bchDecoderInit, foldl_write_eq_scatter writeDouble_fills synDoubles hv2 hn2 _ hfree]
  obtain hm | hm := mem_append.mp hm
  · rw [getD_scatter_of_notMem _ _ _ _ _ fun hin =>
        hdisj _ (mem_map_of_mem hm) _ hin rfl,
      foldl_write_eq_scatter writeSingle_fills synSingles hv1 hn1 _
        fun _ _ => not_corrects_replicate 1024 _,
      getD_scatter_remainder synSingles _ hv1 hn1 _ length_replicate val hm]
    rw [weight_synSingles hm]
    rfl
  · rw [getD_scatter_remainder synDoubles _ hv2 hn2 _ hlen val hm, weight_synDoubles hm]
    rfl

section
variable {block : List UInt8} {c : Nat}

theorem xor_bitsToUint_lt (hc : Codeword c) : c ^^^ bitsToUint block 31 < 2^31 :=
  Nat.xor_lt_two_pow hc.lt (bitsToUint_lt block 31)

theorem bchDecodeBlock_near (hc : Codeword c) (hd : hammingDistance c (bitsToUint block 31) ≤ 2) :
    bchDecodeBlock block =
      some ((hammingDistance c (bitsToUint block 31) : Int), dataCells c) := by
  have hrem := hc.remainder_xor (bitsToUint block 31)
  rw [hammingDistance] at hd ⊢
  by_cases he : c ^^^ bitsToUint block 31 = 0
  · have hzero : gf2Remainder bchPolyRa (bitsToUint block 31) = 0 := by rw [← hrem, he]; rfl
    rw [bchDecodeBlock, if_pos hzero, he, weight_zero, Nat.xor_eq_zero_iff.mp he]
    rfl
  have hmem := mem_synPatterns_of_weight (xor_bitsToUint_lt hc) hd he
  have hentry := bchDecoderInit_entry _ hmem
  have hne := remainder_ne_zero hmem
  have hlt := gf2Remainder_lt (bitsToUint block 31)
    (lt_of_lt_of_le (bitsToUint_lt block 31) (by decide))
  rw [hrem] at hentry hne
  rw [bchDecodeBlock, if_neg hne, hentry, if_pos ⟨hlt, Int.natCast_nonneg _⟩]
  simp only
  rw [Nat.xor_comm c, ← Nat.xor_assoc, Nat.xor_self, Nat.zero_xor]

theorem codeword_unique {c' v : Nat} (hc : Codeword c) (hc' : Codeword c') (hv : v < 2^31)
    (hd : hammingDistance c v ≤ 2) (hd' : hammingDistance c' v ≤ 2) : c' = c := by
  have hsame := light_inj (Nat.xor_lt_two_pow hc'.lt hv) (Nat.xor_lt_two_pow hc.lt hv) hd' hd
    (by rw [hc'.remainder_xor, hc.remainder_xor])
  simpa [Nat.xor_xor_cancel_right] using congrArg (· ^^^ v) hsame

theorem near_of_bchDecodeBlock (h : (bchDecodeBlock block).isSome) :
    ∃ c, Codeword c ∧ hammingDistance c (bitsToUint block 31) ≤ 2 := by
  have hlt := bitsToUint_lt block 31
  by_cases h0 : gf2Remainder bchPolyRa (bitsToUint block 31) = 0
  · refine ⟨bitsToUint block 31, (codeword_iff hlt).mpr h0, ?_⟩
    rw [hammingDistance, Nat.xor_self, weight_zero]
    exact Nat.zero_le 2
  have hcorr : Corrects bchDecoderInit (gf2Remainder bchPolyRa (bitsToUint block 31)) := by
    by_contra hn
    rw [bchDecodeBlock, if_neg h0, if_neg fun he => hn he.2] at h
    cases h
  obtain ⟨e,he,hr⟩ := (bchDecoderInit_spec _).mp hcorr
  have helt := lt_of_mem_synPatterns e he
  refine ⟨bitsToUint block 31 ^^^ e, (codeword_iff (Nat.xor_lt_two_pow hlt helt)).mpr ?_, ?_⟩
  · rw [gf2Remainder_xor_eq_zero, hr]
  · rw [hammingDistance, Nat.xor_comm, Nat.xor_xor_cancel_left]
    exact weight_of_mem_synPatterns he

end

/-- The codeword within distance two, if any, with its distance; otherwise nothing is written. -/
theorem bch_decode_block_bounded_distance (block out : List UInt8) :
    (∀ c, Codeword c → hammingDistance c (bitsToUint block 31) ≤ 2 →
      (∀ c', Codeword c' → hammingDistance c' (bitsToUint block 31) ≤ 2 → c' = c) ∧
      bchDecodeBlockOut block out =
        ((hammingDistance c (bitsToUint block 31) : Int), dataCells c ++ out.drop 21)) ∧
    ((∀ c, Codeword c → 2 < hammingDistance c (bitsToUint block 31)) →
      bchDecodeBlockOut block out = (-1, out)) := by
  constructor
  · intro c hc hd
    refine ⟨fun c' hc' hd' => codeword_unique hc hc' (bitsToUint_lt block 31) hd hd', ?_⟩
    rw [bchDecodeBlockOut, bchDecodeBlock_near hc hd]
  · intro hfar
    have hnone : bchDecodeBlock block = none := by
      rw [← Option.not_isSome_iff_eq_none]
      intro hsome
      obtain ⟨c,hc,hd⟩ := near_of_bchDecodeBlock hsome
      exact absurd hd (Nat.not_le.mpr (hfar c hc))
    rw [bchDecodeBlockOut, hnone]

theorem bch_decode_block_two_errors :
    bchDecodeBlockOut (1::List.replicate 29 0 ++ [1]) (List.replicate 22 7) =
      (2, List.replicate 21 0 ++ [7]) :=
  ((bch_decode_block_bounded_distance _ _).1 0 ⟨0, by decide, by decide⟩ (by decide)).2

end IridiumAcars.BchDecoder
