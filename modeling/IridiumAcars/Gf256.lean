import Mathlib.Algebra.Field.Basic
import Mathlib.Algebra.Group.Nat.Defs
import Mathlib.Data.List.GetD
import Mathlib.Data.Fintype.EquivFin

/-! The field of rs_vdl2.c, modulo x^8+x^7+x^2+x+1, through log and antilog tables. -/
namespace IridiumAcars.Gf256
open List

def gfPolyBits : Nat := 0x187

def gfNext (x : Nat) : Nat :=
  if (x <<< 1) &&& 0x100 ≠ 0 then (x <<< 1) ^^^ gfPolyBits else x <<< 1

structure Tables where
  exp : List UInt8
  log : List UInt8
deriving DecidableEq

def fillStep (st : Nat × Tables) (i : Nat) : Nat × Tables :=
  (gfNext st.1, ⟨st.2.exp.set i (UInt8.ofNat st.1), st.2.log.set st.1 (UInt8.ofNat i)⟩)

def blankTables : Tables := ⟨List.replicate 510 0, List.replicate 256 0⟩

def singleTables (n : Nat) : Nat × Tables := (List.range n).foldl fillStep (1, blankTables)

def doubleExp (e : List UInt8) (n : Nat) : List UInt8 :=
  (List.range' 255 n).foldl (fun e i => e.set i (e.getD (i-255) 0)) e

def gfTables : Tables :=
  ⟨doubleExp (singleTables 255).2.exp 255, (singleTables 255).2.log⟩

def gfExp (i : Nat) : UInt8 := gfTables.exp.getD i 0
def gfLog (a : UInt8) : Nat := (gfTables.log.getD a.toNat 0).toNat

def gfMul (a b : UInt8) : UInt8 :=
  if a = 0 ∨ b = 0 then 0 else gfExp (gfLog a+gfLog b)

def alphaPow : Nat → Nat
  | 0 => 1
  | i+1 => gfNext (alphaPow i)

variable (i : Nat) (a : Gf)

theorem gfNext_spec : ∀ x < 256, gfNext x < 256 ∧ (x ≠ 0 → gfNext x ≠ 0) ∧
    gfNext x = (x <<< 1) ^^^ (if x.testBit 7 then gfPolyBits else 0) := by
  decide +kernel

theorem alphaPow_lt : alphaPow i < 256 := by
  induction i with
  | zero => decide
  | succ i ih => exact (gfNext_spec _ ih).1

theorem alphaPow_ne_zero : alphaPow i ≠ 0 := by
  induction i with
  | zero => decide
  | succ i ih => exact (gfNext_spec _ (alphaPow_lt i)).2.1 ih

def marks (n : Nat) : Nat × Nat :=
  (List.range n).foldl (fun st _ => (gfNext st.1, st.2 ||| 1 <<< st.1)) (1, 0)

theorem marks_succ (n : Nat) :
    marks (n+1) = (gfNext (marks n).1, (marks n).2 ||| 1 <<< (marks n).1) := by
  rw [marks, range_succ, foldl_append]
  rfl

theorem marks_fst (n : Nat) : (marks n).1 = alphaPow n := by
  induction n with
  | zero => rfl
  | succ n ih => rw [marks_succ, ih, alphaPow]

theorem testBit_marks (n b : Nat) (h : (marks n).2.testBit b = true) : ∃ i < n, alphaPow i = b := by
  induction n with
  | zero => simp [marks] at h
  | succ n ih =>
    rw [marks_succ, Nat.testBit_or, Bool.or_eq_true, marks_fst, Nat.one_shiftLeft,
      Nat.testBit_two_pow] at h
    rcases h with h | h
    · obtain ⟨i,hi,he⟩ := ih h
      exact ⟨i, by omega, he⟩
    · exact ⟨n, by omega, of_decide_eq_true h⟩

theorem marks_all : marks 255 = (1, 2^256-2) := by decide +kernel

theorem alphaPow_surj (b : Nat) (hb : b < 256) (h0 : b ≠ 0) : ∃ i < 255, alphaPow i = b := by
  apply testBit_marks 255 b
  rw [marks_all]
  have hall : ∀ b < 256, b ≠ 0 → (2^256-2).testBit b = true := by decide +kernel
  exact hall b hb h0

theorem alphaPow_255 : alphaPow 255 = 1 := by
  rw [← marks_fst, marks_all]

theorem alphaPow_add_255 : alphaPow (i+255) = alphaPow i := by
  induction i with
  | zero => rw [Nat.zero_add, alphaPow_255]; rfl
  | succ i ih =>
    rw [Nat.add_right_comm, alphaPow, ih, alphaPow]

theorem alphaPow_mod : alphaPow (i%255) = alphaPow i := by
  induction i using Nat.strong_induction_on with
  | _ i ih =>
    by_cases h : i < 255
    · rw [Nat.mod_eq_of_lt h]
    · have hs : i = (i-255)+255 := by omega
      rw [hs, Nat.add_mod_right, ih (i-255) (by omega), alphaPow_add_255]

theorem alphaPow_inj (i j : Nat) (hi : i < 255) (hj : j < 255) (h : alphaPow i = alphaPow j) :
    i = j := by
  have hrange (k : Fin 255) : alphaPow k-1 < 255 := by
    have := alphaPow_lt k
    omega
  let f : Fin 255 → Fin 255 := fun k => ⟨alphaPow k-1, hrange k⟩
  have hsurj : Function.Surjective f := by
    intro b
    obtain ⟨k,hk,he⟩ := alphaPow_surj (b.val+1) (by omega) (by omega)
    refine ⟨⟨k, hk⟩, Fin.ext ?_⟩
    change alphaPow k-1 = b.val
    omega
  have hinj := Finite.injective_iff_surjective.mpr hsurj
  have he : f ⟨i, hi⟩ = f ⟨j, hj⟩ := Fin.ext (by change alphaPow i-1 = alphaPow j-1; rw [h])
  exact Fin.mk.inj (hinj he)

structure Filled (st : Nat × Tables) (n : Nat) : Prop where
  x : st.1 = alphaPow n
  exp_length : st.2.exp.length = 510
  log_length : st.2.log.length = 256
  exp : ∀ i < n, st.2.exp.getD i 0 = UInt8.ofNat (alphaPow i)
  log : ∀ i < n, st.2.log.getD (alphaPow i) 0 = UInt8.ofNat i

theorem getD_set {α : Type*} (l : List α) (i j : Nat) (v d : α) (hi : i < l.length) :
    (l.set i v).getD j d = if i = j then v else l.getD j d := by
  simp only [getD_eq_getElem?_getD, getElem?_set]
  by_cases h : i = j
  · simp [h, h ▸ hi]
  · simp [h]

theorem filled_step {st : Nat × Tables} {n : Nat} (h : Filled st n) (hn : n < 255) :
    Filled (fillStep st n) (n+1) := by
  have hx : st.1 < st.2.log.length := by
    rw [h.x, h.log_length]
    exact alphaPow_lt n
  refine ⟨?_, ?_, ?_, ?_, ?_⟩
  · rw [fillStep, h.x, alphaPow]
  · rw [fillStep, length_set, h.exp_length]
  · rw [fillStep, length_set, h.log_length]
  · intro i hi
    rw [fillStep, getD_set _ _ _ _ _ (by rw [h.exp_length]; omega)]
    split_ifs with hin
    · rw [h.x, hin]
    · exact h.exp i (by omega)
  · intro i hi
    rw [fillStep, getD_set _ _ _ _ _ hx]
    by_cases hin : n = i
    · rw [if_pos (by rw [h.x, hin]), hin]
    · have hne : st.1 ≠ alphaPow i := by
        rw [h.x]
        intro he
        exact hin (alphaPow_inj n i hn (by omega) he)
      rw [if_neg hne]
      exact h.log i (by omega)

theorem filled (n : Nat) (hn : n ≤ 255) : Filled (singleTables n) n := by
  induction n with
  | zero => exact ⟨rfl, length_replicate, length_replicate, by simp, by simp⟩
  | succ n ih =>
    rw [singleTables, range_succ, foldl_append]
    exact filled_step (ih (by omega)) (by omega)

theorem doubled (e : List UInt8) (he : e.length = 510)
    (hexp : ∀ i < 255, e.getD i 0 = UInt8.ofNat (alphaPow i)) (n : Nat) (hn : n ≤ 255) :
    (doubleExp e n).length = 510 ∧
    ∀ i < 255+n, (doubleExp e n).getD i 0 = UInt8.ofNat (alphaPow i) := by
  induction n with
  | zero => exact ⟨he, hexp⟩
  | succ n ih =>
    obtain ⟨hlen,hold⟩ := ih (by omega)
    have hstep : doubleExp e (n+1) =
        (doubleExp e n).set (255+n) ((doubleExp e n).getD (255+n-255) 0) := by
      rw [doubleExp, range'_1_concat, foldl_append]
      rfl
    rw [hstep]
    refine ⟨by rw [length_set, hlen], ?_⟩
    intro i hi
    rw [getD_set _ _ _ _ _ (by rw [hlen]; omega)]
    by_cases hin : 255+n = i
    · rw [if_pos hin, hold _ (by omega), ← hin, Nat.add_sub_cancel_left, Nat.add_comm 255 n,
        alphaPow_add_255]
    · rw [if_neg hin]
      exact hold i (by omega)

theorem gfExp_eq (hi : i < 510) : gfExp i = UInt8.ofNat (alphaPow i) := by
  have h := filled 255 (le_refl _)
  have hd := (doubled _ h.exp_length h.exp 255 (le_refl _)).2 i (by omega)
  rw [gfExp, gfTables, hd]

theorem gfLog_alphaPow (hi : i < 255) : gfLog (UInt8.ofNat (alphaPow i)) = i := by
  have h := (filled 255 (le_refl _)).log i hi
  have hlt := alphaPow_lt i
  have hval : (UInt8.ofNat (alphaPow i)).toNat = alphaPow i := by
    rw [UInt8.toNat_ofNat']
    exact Nat.mod_eq_of_lt hlt
  rw [gfLog, hval, gfTables, h, UInt8.toNat_ofNat']
  exact Nat.mod_eq_of_lt (by omega)

attribute [irreducible] gfTables

@[ext] structure Gf where
  val : UInt8
deriving DecidableEq

instance : Zero Gf := ⟨⟨0⟩⟩
instance : One Gf := ⟨⟨1⟩⟩
instance : Add Gf := ⟨fun a b => ⟨a.val ^^^ b.val⟩⟩
instance : Neg Gf := ⟨fun a => a⟩
instance : Mul Gf := ⟨fun a b => ⟨gfMul a.val b.val⟩⟩
instance : Inv Gf := ⟨fun a => if a = 0 then 0 else ⟨gfExp (255-gfLog a.val)⟩⟩

def pw (i : Nat) : Gf := ⟨UInt8.ofNat (alphaPow i)⟩

theorem pw_val : (pw i).val.toNat = alphaPow i := by
  rw [pw, UInt8.toNat_ofNat']
  exact Nat.mod_eq_of_lt (alphaPow_lt i)

theorem pw_mod : pw (i%255) = pw i := by rw [pw, alphaPow_mod, pw]

theorem pw_ne_zero : pw i ≠ 0 := by
  intro h
  have hv := congrArg (fun a => a.val.toNat) h
  exact alphaPow_ne_zero i ((pw_val i).symm.trans hv)

theorem pw_zero : pw 0 = 1 := rfl

theorem eq_pw_gfLog (h : a ≠ 0) : gfLog a.val < 255 ∧ a = pw (gfLog a.val) := by
  have h0 : a.val.toNat ≠ 0 := by
    intro h0
    apply h
    ext1
    exact UInt8.toNat_inj.mp h0
  obtain ⟨i,hi,he⟩ := alphaPow_surj a.val.toNat a.val.toNat_lt h0
  have hval : a.val = UInt8.ofNat (alphaPow i) := by
    rw [he, UInt8.ofNat_toNat]
  have hlog : gfLog a.val = i := by rw [hval, gfLog_alphaPow i hi]
  refine ⟨by omega, ?_⟩
  ext1
  rw [hlog, hval, pw]

theorem gf_cases : a = 0 ∨ ∃ i, a = pw i := by
  by_cases h : a = 0
  · exact Or.inl h
  · exact Or.inr ⟨_, (eq_pw_gfLog a h).2⟩

theorem gfLog_pw : gfLog (pw i).val = i%255 := by
  rw [← pw_mod, pw, gfLog_alphaPow _ (Nat.mod_lt _ (by decide))]

theorem gfExp_eq_pw (hi : i < 510) : (⟨gfExp i⟩ : Gf) = pw i := by
  rw [gfExp_eq i hi, pw]

theorem gf_mul_def (a b : Gf) : a*b = ⟨gfMul a.val b.val⟩ := rfl
theorem gf_add_def (a b : Gf) : a+b = ⟨a.val ^^^ b.val⟩ := rfl

theorem gf_zero_mul : 0*a = 0 := by
  have h0 : (0 : Gf).val = 0 := rfl
  rw [gf_mul_def, gfMul, if_pos (Or.inl h0)]
  rfl

theorem gf_mul_zero : a*0 = 0 := by
  have h0 : (0 : Gf).val = 0 := rfl
  rw [gf_mul_def, gfMul, if_pos (Or.inr h0)]
  rfl

theorem val_ne_zero {a : Gf} (h : a ≠ 0) : a.val ≠ 0 := fun hv => h (by ext1; exact hv)

theorem pw_mul (i j : Nat) : pw i*pw j = pw (i+j) := by
  have hne : ¬ ((pw i).val = 0 ∨ (pw j).val = 0) := by
    rw [not_or]
    exact ⟨val_ne_zero (pw_ne_zero i), val_ne_zero (pw_ne_zero j)⟩
  have hi := Nat.mod_lt i (by decide : 0 < 255)
  have hj := Nat.mod_lt j (by decide : 0 < 255)
  rw [gf_mul_def, gfMul, if_neg hne, gfLog_pw, gfLog_pw, gfExp_eq_pw _ (by omega), ← pw_mod,
    ← Nat.add_mod, pw_mod]

theorem gf_mul_comm (a b : Gf) : a*b = b*a := by
  rw [gf_mul_def, gf_mul_def, gfMul, gfMul]
  by_cases h : a.val = 0 ∨ b.val = 0
  · rw [if_pos h, if_pos h.symm]
  · rw [if_neg h, if_neg (fun hs => h hs.symm), Nat.add_comm]

theorem gf_mul_assoc (a b c : Gf) : a*b*c = a*(b*c) := by
  rcases gf_cases a with rfl | ⟨i,rfl⟩
  · rw [gf_zero_mul, gf_zero_mul, gf_zero_mul]
  rcases gf_cases b with rfl | ⟨j,rfl⟩
  · rw [gf_mul_zero, gf_zero_mul, gf_mul_zero]
  rcases gf_cases c with rfl | ⟨k,rfl⟩
  · rw [gf_mul_zero, gf_mul_zero, gf_mul_zero]
  rw [pw_mul, pw_mul, pw_mul, pw_mul, Nat.add_assoc]

theorem gf_one_mul : 1*a = a := by
  rcases gf_cases a with rfl | ⟨i,rfl⟩
  · rw [gf_mul_zero]
  · rw [← pw_zero, pw_mul, Nat.zero_add]

def gfShift (a : Gf) : Gf := ⟨UInt8.ofNat (gfNext a.val.toNat)⟩

theorem gf_mul_pw_one : a*pw 1 = gfShift a := by
  rcases gf_cases a with rfl | ⟨i,rfl⟩
  · rw [gf_zero_mul]
    rfl
  · rw [pw_mul, gfShift, pw_val, pw, alphaPow]

theorem xor_gfNext (x y : Nat) (hx : x < 256) (hy : y < 256) :
    gfNext (x ^^^ y) = gfNext x ^^^ gfNext y := by
  have hxy : x ^^^ y < 256 := Nat.xor_lt_two_pow (n := 8) hx hy
  rw [(gfNext_spec x hx).2.2, (gfNext_spec y hy).2.2, (gfNext_spec _ hxy).2.2,
    Nat.shiftLeft_xor_distrib, Nat.testBit_xor]
  cases x.testBit 7 with
  | false =>
    cases y.testBit 7 with
    | false => simp
    | true => simp [Nat.xor_assoc]
  | true =>
    cases y.testBit 7 with
    | false =>
      simp only [Bool.xor_false, Bool.false_eq_true, if_false, if_true, Nat.xor_zero]
      rw [Nat.xor_assoc, Nat.xor_assoc, Nat.xor_comm (y <<< 1)]
    | true =>
      simp only [Bool.xor_self, Bool.false_eq_true, if_false, if_true, Nat.xor_zero]
      rw [Nat.xor_assoc (x <<< 1), ← Nat.xor_assoc gfPolyBits, Nat.xor_comm gfPolyBits,
        Nat.xor_assoc (y <<< 1), Nat.xor_self, Nat.xor_zero]

theorem gfShift_add (a b : Gf) : gfShift (a+b) = gfShift a+gfShift b := by
  ext1
  apply UInt8.toNat_inj.mp
  rw [gf_add_def, gf_add_def, gfShift, gfShift, gfShift]
  have ha := (gfNext_spec _ a.val.toNat_lt).1
  have hb := (gfNext_spec _ b.val.toNat_lt).1
  have hab : gfNext a.val.toNat ^^^ gfNext b.val.toNat < 256 := Nat.xor_lt_two_pow (n := 8) ha hb
  rw [UInt8.toNat_xor, UInt8.toNat_xor, UInt8.toNat_ofNat', UInt8.toNat_ofNat', UInt8.toNat_ofNat',
    xor_gfNext _ _ a.val.toNat_lt b.val.toNat_lt, Nat.mod_eq_of_lt ha, Nat.mod_eq_of_lt hb,
    Nat.mod_eq_of_lt hab]

theorem gf_add_mul (a b c : Gf) : (a+b)*c = a*c+b*c := by
  rcases gf_cases c with rfl | ⟨k,rfl⟩
  · rw [gf_mul_zero, gf_mul_zero, gf_mul_zero]
    rfl
  · induction k with
    | zero => rw [pw_zero, gf_mul_comm _ 1, gf_mul_comm _ 1, gf_mul_comm _ 1, gf_one_mul,
        gf_one_mul, gf_one_mul]
    | succ k ih =>
      rw [← pw_mul, ← gf_mul_assoc, ← gf_mul_assoc, ← gf_mul_assoc, ih, gf_mul_pw_one,
        gf_mul_pw_one, gf_mul_pw_one, gfShift_add]

theorem gf_mul_inv (h : a ≠ 0) : a*a⁻¹ = 1 := by
  obtain ⟨hlt,he⟩ := eq_pw_gfLog a h
  have hinv : a⁻¹ = pw (255-gfLog a.val) := by
    change (if a = 0 then 0 else ⟨gfExp (255-gfLog a.val)⟩ : Gf) = _
    rw [if_neg h, gfExp_eq_pw _ (by omega)]
  rw [hinv]
  nth_rewrite 1 [he]
  rw [pw_mul, Nat.add_sub_cancel' (by omega), ← pw_mod]
  rfl

instance : Field Gf where
  add_assoc a b c := by ext1; exact UInt8.xor_assoc _ _ _
  zero_add a := by ext1; exact UInt8.zero_xor
  add_zero a := by ext1; exact UInt8.xor_zero
  add_comm a b := by ext1; exact UInt8.xor_comm _ _
  neg_add_cancel a := by ext1; exact UInt8.xor_self
  nsmul := nsmulRec
  zsmul := zsmulRec
  mul_assoc := gf_mul_assoc
  one_mul := gf_one_mul
  mul_one a := by rw [gf_mul_comm, gf_one_mul]
  zero_mul := gf_zero_mul
  mul_zero := gf_mul_zero
  left_distrib a b c := by rw [gf_mul_comm, gf_add_mul, gf_mul_comm b, gf_mul_comm c]
  right_distrib := gf_add_mul
  mul_comm := gf_mul_comm
  exists_pair_ne := ⟨0, 1, by decide⟩
  mul_inv_cancel := gf_mul_inv
  inv_zero := rfl
  nnqsmul := _
  nnqsmul_def := fun _ _ => rfl
  qsmul := _
  qsmul_def := fun _ _ => rfl

theorem pw_eq_pow : pw i = pw 1^i := by
  induction i with
  | zero => rw [pow_zero, pw_zero]
  | succ i ih => rw [pow_succ, ← ih, pw_mul]

theorem pw_inj (i j : Nat) (hi : i < 255) (hj : j < 255) (h : pw i = pw j) : i = j := by
  have hv := congrArg (fun a => a.val.toNat) h
  exact alphaPow_inj i j hi hj ((pw_val i).symm.trans (hv.trans (pw_val j)))

theorem gf_add_self : a+a = 0 := neg_add_cancel a
theorem gf_neg : -a = a := rfl

theorem gfExp_mod : (⟨gfExp (i%255)⟩ : Gf) = pw i := by
  have hlt := Nat.mod_lt i (by decide : 0 < 255)
  rw [gfExp_eq_pw _ (by omega), pw_mod]

theorem gfExp_shift (k : Nat) (h : a ≠ 0) :
    (⟨gfExp ((gfLog a.val+k)%255)⟩ : Gf) = a*pw 1^k := by
  obtain ⟨-,he⟩ := eq_pw_gfLog a h
  rw [gfExp_mod, ← pw_mul, ← he, pw_eq_pow k]

theorem gfExp_div (d b : Gf) (hd : d ≠ 0) (hb : b ≠ 0) :
    (⟨gfExp (gfLog d.val+255-gfLog b.val)⟩ : Gf)*b = d := by
  obtain ⟨hdlt,hde⟩ := eq_pw_gfLog d hd
  obtain ⟨hblt,hbe⟩ := eq_pw_gfLog b hb
  have hsum : gfLog d.val+255-gfLog b.val+gfLog b.val = gfLog d.val+255 := by omega
  rw [gfExp_eq_pw _ (by omega)]
  nth_rewrite 2 [hbe]
  rw [pw_mul, hsum, ← pw_mod, Nat.add_mod_right, pw_mod, ← hde]

end IridiumAcars.Gf256
