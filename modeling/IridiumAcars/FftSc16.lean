import IridiumAcars.FftBurstTagger
import Mathlib.Analysis.Complex.Norm

/-! The fixed-point spectrum of a block: window, transform of `fft_sc16_2048.c`, squared magnitudes.
-/
namespace IridiumAcars.FftSc16
open Function
open FftBurstTagger (fftSize Magnitudes)

def within (lo hi x : Int) : Option Int := if lo ≤ x ∧ x ≤ hi then some x else none

theorem within_eq_some {lo hi x : Int} (hlo : lo ≤ x) (hhi : x ≤ hi) : within lo hi x = some x :=
  if_pos ⟨hlo, hhi⟩

def int32 : Int → Option Int := within (-2147483648) 2147483647
def int16 : Int → Option Int := within (-32768) 32767

def xtfixedBf (join apply : Int → Int → Int) (a0 a1 a2 a3 a4 : Int) (resultShift : Nat) :
    Option Int := do
  let result ← int32 (a0*32767)
  let first ← int32 (a1*a2)
  let second ← int32 (a3*a4)
  let joined ← int32 (join first second)
  let result ← int32 (apply result joined)
  let result ← int32 (result+32767)
  int16 (result >>> resultShift)

def xtfixedBf1 := xtfixedBf (·+·) (·-·)
def xtfixedBf2 := xtfixedBf (·-·) (·-·)
def xtfixedBf3 := xtfixedBf (·+·) (·+·)
def xtfixedBf4 := xtfixedBf (·-·) (·+·)

abbrev Samples := Nat → Int × Int

def widen (z : Int16 × Int16) : Int × Int := (z.1.toInt, z.2.toInt)

def butterfly (w : Int × Int) (n2 : Nat) (data : Samples) (ia : Nat) : Option Samples := do
  let m := data (ia+n2)
  let a := data ia
  let m1re ← xtfixedBf1 a.1 w.1 m.1 w.2 m.2 16
  let m1im ← xtfixedBf2 a.2 w.1 m.2 w.2 m.1 16
  let m2re ← xtfixedBf3 a.1 w.1 m.1 w.2 m.2 16
  let m2im ← xtfixedBf4 a.2 w.1 m.2 w.2 m.1 16
  pure (update (update data (ia+n2) (m1re, m1im)) ia (m2re, m2im))

def butterflies (w : Int × Int) (n2 : Nat) (s : Nat × Samples) : Option (Nat × Samples) :=
  (List.range n2).foldlM (fun s _ => do
    let data ← butterfly w n2 s.2 s.1
    pure (s.1+1, data)) s

def stage (w : Nat → Int16 × Int16) (n2 ie : Nat) (data : Samples) : Option (Nat × Samples) :=
  (List.range ie).foldlM (fun s j => do
    let s ← butterflies (widen (w j)) n2 s
    pure (s.1+n2, s.2)) (0, data)

def stages (w : Nat → Int16 × Int16) (n2 ie : Nat) (data : Samples) : Option Samples :=
  if 0 < n2 then do
    let s ← stage w n2 ie data
    stages w (n2/2) (2*ie) s.2
  else some data

def carry : Nat → Nat → Nat → Option Nat
  | 0, _, _ => none
  | fuel+1, k, j => if k ≤ j then carry fuel (k/2) (j-k) else some (j+k)

def bitRevData (n : Nat) (data : Samples) : Option (Nat × Samples) :=
  (List.range (n-2)).foldlM (fun s i => do
    let j ← carry n (n/2) s.1
    pure (j, if i+1 < j then
        update (update s.2 j (s.2 (i+1))) (i+1) (s.2 j)
      else s.2)) (0, data)

def fftSc16 (w : Nat → Int16 × Int16) (data : Samples) : Option Samples := do
  let data ← stages w (fftSize/2) 1 data
  let s ← bitRevData fftSize data
  pure s.2

def windowMultiplyQ15 (input : Nat → Int16 × Int16) (window : Nat → Int16) (out : Samples)
    (n : Nat) : Option Samples :=
  (List.range n).foldlM (fun out i => do
    let re ← int32 ((input i).1.toInt*(window i).toInt)
    let im ← int32 ((input i).2.toInt*(window i).toInt)
    let re ← int16 (re >>> (15 : Nat))
    let im ← int16 (im >>> (15 : Nat))
    pure (update out i (re, im))) out

def magSqPass (data : Samples) (src dst n : Nat) (out : Magnitudes) : Option Magnitudes :=
  (List.range n).foldlM (fun out k => do
    let re ← int32 ((data (src+k)).1*(data (src+k)).1)
    let im ← int32 ((data (src+k)).2*(data (src+k)).2)
    let mag ← int32 (re+im)
    pure (update out (dst+k) mag)) out

def computeMagnitudeShifted (data : Samples) (out : Magnitudes) : Option Magnitudes := do
  let out ← magSqPass data (fftSize/2) 0 (fftSize/2) out
  magSqPass data 0 (fftSize/2) (fftSize/2) out

/-- A block from its samples to its magnitudes, over buffers of any content. -/
def spectrum (input : Nat → Int16 × Int16) (window : Nat → Int16) (w : Nat → Int16 × Int16)
    (buf : Samples) (out : Magnitudes) : Option Magnitudes := do
  let data ← windowMultiplyQ15 input window buf fftSize
  let data ← fftSc16 w data
  computeMagnitudeShifted data out

variable {data : Samples} {w : Nat → Int16 × Int16} {z : Int × Int}

/-- A loop whose every step succeeds and moves its invariant on runs to its end. -/
theorem foldlM_range_some {σ : Type*} {f : σ → Nat → Option σ} {P : Nat → σ → Prop} {n : Nat}
    (hstep : ∀ i < n, ∀ s, P i s → ∃ s', f s i = some s' ∧ P (i+1) s') {s : σ} (h : P 0 s) :
    ∃ s', (List.range n).foldlM f s = some s' ∧ P n s' := by
  induction n with
  | zero => exact ⟨s, rfl, h⟩
  | succ n ih =>
    obtain ⟨s', hrun, hs'⟩ := ih fun i hi => hstep i (by omega)
    obtain ⟨s'', hlast, hs''⟩ := hstep n (by omega) s' hs'
    refine ⟨s'', ?_, hs''⟩
    rw [List.range_succ, List.foldlM_append, hrun]
    simp [hlast]

def toComplex (z : Int × Int) : ℂ := ⟨z.1, z.2⟩

noncomputable def size (z : Int × Int) : ℝ := ‖toComplex z‖

theorem abs_fst_le_size (z : Int × Int) : |(z.1 : ℝ)| ≤ size z :=
  Complex.abs_re_le_norm (toComplex z)

theorem abs_snd_le_size (z : Int × Int) : |(z.2 : ℝ)| ≤ size z :=
  Complex.abs_im_le_norm (toComplex z)

theorem size_nonneg (z : Int × Int) : 0 ≤ size z := norm_nonneg _

theorem sq_size (z : Int × Int) : size z^2 = (z.1 : ℝ)^2+(z.2 : ℝ)^2 := by
  rw [size, Complex.sq_norm, Complex.normSq_apply, sq, sq]
  rfl

theorem size_le_of_sq {z : Int × Int} {r : ℝ} (hr : 0 ≤ r)
    (h : (z.1 : ℝ)^2+(z.2 : ℝ)^2 ≤ r^2) : size z ≤ r := by
  rw [← sq_size] at h
  exact (sq_le_sq₀ (norm_nonneg _) hr).mp h

theorem size_add_le (x y : Int × Int) : size (x.1+y.1, x.2+y.2) ≤ size x+size y := by
  have hsum : toComplex (x.1+y.1, x.2+y.2) = toComplex x+toComplex y := by
    apply Complex.ext <;> simp [toComplex]
  rw [size, hsum]
  exact norm_add_le _ _

theorem size_sub_le (x y : Int × Int) : size (x.1-y.1, x.2-y.2) ≤ size x+size y := by
  have hdiff : toComplex (x.1-y.1, x.2-y.2) = toComplex x-toComplex y := by
    apply Complex.ext <;> simp [toComplex]
  rw [size, hdiff]
  exact norm_sub_le _ _

theorem size_scaled (z : Int × Int) (c : Nat) : size (z.1*c, z.2*c) = size z*c := by
  have hscaled : toComplex (z.1*c, z.2*c) = toComplex z*c := by
    apply Complex.ext <;> simp [toComplex]
  rw [size, hscaled, Complex.norm_mul, Complex.norm_natCast, size]

def twiddled (w m : Int × Int) : Int × Int := (w.1*m.1+w.2*m.2, w.1*m.2-w.2*m.1)

theorem size_twiddled (w m : Int × Int) : size (twiddled w m) = size w*size m := by
  have hproduct : toComplex (twiddled w m) = (starRingEnd ℂ) (toComplex w)*toComplex m := by
    apply Complex.ext <;> simp [toComplex, twiddled]
    ring
  rw [size, hproduct, Complex.norm_mul, Complex.norm_conj, size, size]

def halved (z : Int × Int) : Int × Int := ((z.1+32767) >>> (16 : Nat), (z.2+32767) >>> (16 : Nat))

theorem sq_halving_error (x : Int) : ((x+32767) >>> (16 : Nat)*65536-x)^2 ≤ 32768^2 := by
  rw [Int.shiftRight_eq_div_pow]
  exact sq_le_sq' (by omega) (by omega)

theorem size_halved (z : Int × Int) : size (halved z)*65536 ≤ size z+46341 := by
  let error : Int × Int := ((halved z).1*65536-z.1, (halved z).2*65536-z.2)
  have herror : size error ≤ 46341 := by
    apply size_le_of_sq (by norm_num)
    have hre := sq_halving_error z.1
    have him := sq_halving_error z.2
    have hsum : error.1^2+error.2^2 ≤ 46341^2 := by
      simp only [error, halved]
      omega
    exact_mod_cast hsum
  have hadd := size_add_le z error
  simp only [error, add_sub_cancel] at hadd
  have hscaled := size_scaled (halved z) 65536
  rw [Nat.cast_ofNat, Nat.cast_ofNat] at hscaled
  rw [← hscaled]
  exact hadd.trans (by gcongr)

theorem xtfixedBf_eq {join apply : Int → Int → Int} {a0 a1 a2 a3 a4 joined result : Int}
    (hjoin : join (a1*a2) (a3*a4) = joined) (happly : apply (a0*32767) joined = result)
    (h0 : |a0*32767| ≤ 1529235890) (h1 : |a1*a2| ≤ 1529235890) (h2 : |a3*a4| ≤ 1529235890)
    (hjoined : |joined| ≤ 1529235890) (hresult : |result| ≤ 1529235890) :
    xtfixedBf join apply a0 a1 a2 a3 a4 16 = some ((result+32767) >>> (16 : Nat)) := by
  have hfits {x : Int} (hx : |x| ≤ 1529235890) : int32 x = some x :=
    within_eq_some (by rw [abs_le] at hx; omega) (by rw [abs_le] at hx; omega)
  have hbounds := abs_le.mp hresult
  have hround : int32 (result+32767) = some (result+32767) :=
    within_eq_some (by omega) (by omega)
  have hstored : int16 ((result+32767) >>> (16 : Nat)) = some ((result+32767) >>> (16 : Nat)) := by
    apply within_eq_some <;> rw [Int.shiftRight_eq_div_pow] <;> omega
  simp [xtfixedBf, hfits h0, hfits h1, hfits h2, hjoin, hfits hjoined, happly, hfits hresult,
    hround, hstored]

theorem abs_fst_le (h : size z ≤ 1529235890) : |z.1| ≤ 1529235890 := by
  exact_mod_cast (abs_fst_le_size z).trans h

theorem abs_snd_le (h : size z ≤ 1529235890) : |z.2| ≤ 1529235890 := by
  exact_mod_cast (abs_snd_le_size z).trans h

theorem abs_mul_le {x y : Int} {r s : ℝ} (hx : |(x : ℝ)| ≤ r) (hy : |(y : ℝ)| ≤ s)
    (hrs : r*s ≤ 1529235890) : |x*y| ≤ 1529235890 := by
  have hproduct := mul_le_mul hx hy (abs_nonneg _) ((abs_nonneg _).trans hx)
  rw [← abs_mul] at hproduct
  exact_mod_cast hproduct.trans hrs

structure Loaded (w a m : Int × Int) : Prop where
  twiddle : size w ≤ 32767
  pair : size a+size m ≤ 46670

def summed (w a m : Int × Int) : Int × Int :=
  (a.1*32767+(twiddled w m).1, a.2*32767+(twiddled w m).2)

def differed (w a m : Int × Int) : Int × Int :=
  (a.1*32767-(twiddled w m).1, a.2*32767-(twiddled w m).2)

namespace Loaded
variable {w a m : Int × Int} (h : Loaded w a m)
include h

theorem size_scaled_add_twiddled :
    size (a.1*32767, a.2*32767)+size (twiddled w m) ≤ 1529235890 := by
  have hscaled := size_scaled a 32767
  rw [Nat.cast_ofNat, Nat.cast_ofNat] at hscaled
  have htwiddled : size w*size m ≤ 32767*size m :=
    mul_le_mul_of_nonneg_right h.twiddle (size_nonneg m)
  rw [hscaled, size_twiddled]
  linarith [h.pair]

theorem size_summed : size (summed w a m) ≤ 1529235890 :=
  (size_add_le (a.1*32767, a.2*32767) _).trans h.size_scaled_add_twiddled

theorem size_differed : size (differed w a m) ≤ 1529235890 :=
  (size_sub_le (a.1*32767, a.2*32767) _).trans h.size_scaled_add_twiddled

theorem runs {ia n2 : Nat} (ha : data ia = a) (hm : data (ia+n2) = m) :
    butterfly w n2 data ia =
      some (update (update data (ia+n2) (halved (differed w a m))) ia
        (halved (summed w a m))) := by
  have hboth := h.size_scaled_add_twiddled
  have hscaled : size (a.1*32767, a.2*32767) ≤ 1529235890 := by
    linarith [size_nonneg (twiddled w m)]
  have hproduct : size w*size m ≤ 1529235890 := by
    rw [← size_twiddled]
    linarith [size_nonneg (a.1*32767, a.2*32767)]
  have htwiddled : size (twiddled w m) ≤ 1529235890 := (size_twiddled w m).le.trans hproduct
  have hrere := abs_mul_le (abs_fst_le_size w) (abs_fst_le_size m) hproduct
  have himim := abs_mul_le (abs_snd_le_size w) (abs_snd_le_size m) hproduct
  have hreim := abs_mul_le (abs_fst_le_size w) (abs_snd_le_size m) hproduct
  have himre := abs_mul_le (abs_snd_le_size w) (abs_fst_le_size m) hproduct
  have hlowre : xtfixedBf1 a.1 w.1 m.1 w.2 m.2 16 = some (halved (differed w a m)).1 :=
    xtfixedBf_eq rfl rfl (abs_fst_le hscaled) hrere himim (abs_fst_le htwiddled)
      (abs_fst_le h.size_differed)
  have hlowim : xtfixedBf2 a.2 w.1 m.2 w.2 m.1 16 = some (halved (differed w a m)).2 :=
    xtfixedBf_eq rfl rfl (abs_snd_le hscaled) hreim himre (abs_snd_le htwiddled)
      (abs_snd_le h.size_differed)
  have hhighre : xtfixedBf3 a.1 w.1 m.1 w.2 m.2 16 = some (halved (summed w a m)).1 :=
    xtfixedBf_eq rfl rfl (abs_fst_le hscaled) hrere himim (abs_fst_le htwiddled)
      (abs_fst_le h.size_summed)
  have hhighim : xtfixedBf4 a.2 w.1 m.2 w.2 m.1 16 = some (halved (summed w a m)).2 :=
    xtfixedBf_eq rfl rfl (abs_snd_le hscaled) hreim himre (abs_snd_le htwiddled)
      (abs_snd_le h.size_summed)
  simp [butterfly, ha, hm, hlowre, hlowim, hhighre, hhighim]

theorem size_halved_summed : size (halved (summed w a m)) ≤ 23335 := by
  linarith [size_halved (summed w a m), h.size_summed]

theorem size_halved_differed : size (halved (differed w a m)) ≤ 23335 := by
  linarith [size_halved (differed w a m), h.size_differed]

end Loaded

def Inside (data : Samples) : Prop := ∀ n < fftSize, size (data n) ≤ 23335

structure Halfway (done : Nat) (data : Samples) : Prop where
  low : ∀ n < done, size (data n) ≤ 23335
  high : ∀ n < done, size (data (n+1024)) ≤ 23335
  pair : ∀ n, done ≤ n → n < 1024 → size (data n)+size (data (n+1024)) ≤ 46670

theorem Halfway.inside (h : Halfway 1024 data) : Inside data := by
  intro n hn
  rw [fftSize] at hn
  by_cases hlow : n < 1024
  · exact h.low n hlow
  · have hhigh := h.high (n-1024) (by omega)
    rwa [Nat.sub_add_cancel (by omega)] at hhigh

theorem Halfway.butterfly {i : Nat} (hi : i < 1024) (h : Halfway i data) {w : Int × Int}
    (hw : size w ≤ 32767) :
    ∃ data', butterfly w 1024 data i = some data' ∧ Halfway (i+1) data' := by
  have hload : Loaded w (data i) (data (i+1024)) := ⟨hw, h.pair i le_rfl hi⟩
  refine ⟨_, hload.runs rfl rfl, ?_⟩
  constructor
  · intro n hn
    by_cases heq : n = i
    · rw [heq, update_self]
      exact hload.size_halved_summed
    · rw [update_of_ne heq, update_of_ne (by omega)]
      exact h.low n (by omega)
  · intro n hn
    rw [update_of_ne (by omega)]
    by_cases heq : n = i
    · rw [heq, update_self]
      exact hload.size_halved_differed
    · rw [update_of_ne (by omega)]
      exact h.high n (by omega)
  · intro n hn hlt
    rw [update_of_ne (by omega), update_of_ne (by omega),
      update_of_ne (by omega), update_of_ne (by omega)]
    exact h.pair n (by omega) hlt

theorem Inside.update (h : Inside data) (i : Nat) (hz : size z ≤ 23335) :
    Inside (update data i z) := by
  intro n hn
  by_cases heq : n = i
  · rwa [heq, update_self]
  · rw [update_of_ne heq]
    exact h n hn

theorem Inside.butterfly (h : Inside data) {w : Int × Int} (hw : size w ≤ 32767) {ia n2 : Nat}
    (hend : ia+n2 < fftSize) :
    ∃ data', butterfly w n2 data ia = some data' ∧ Inside data' := by
  have hload : Loaded w (data ia) (data (ia+n2)) :=
    ⟨hw, by linarith [h ia (by omega), h (ia+n2) hend]⟩
  exact ⟨_, hload.runs rfl rfl,
    (h.update _ hload.size_halved_differed).update _ hload.size_halved_summed⟩

theorem butterflies_some {w : Int × Int} {n2 ia : Nat} {P : Nat → Samples → Prop}
    (hstep : ∀ i < n2, ∀ data, P i data →
      ∃ data', butterfly w n2 data (ia+i) = some data' ∧ P (i+1) data')
    (h : P 0 data) :
    ∃ data', butterflies w n2 (ia, data) = some (ia+n2, data') ∧ P n2 data' := by
  have hloop : ∃ s, butterflies w n2 (ia, data) = some s ∧ s.1 = ia+n2 ∧ P n2 s.2 := by
    refine foldlM_range_some (P := fun i (s : Nat × Samples) => s.1 = ia+i ∧ P i s.2) ?_
      ⟨rfl, h⟩
    rintro i hi ⟨_, data⟩ ⟨rfl, hdata⟩
    obtain ⟨data', hrun, hdata'⟩ := hstep i hi data hdata
    exact ⟨(ia+i+1, data'), by rw [hrun]; rfl, rfl, hdata'⟩
  obtain ⟨⟨_, data'⟩, hrun, rfl, hdata'⟩ := hloop
  exact ⟨data', hrun, hdata'⟩

theorem stage_some {n2 ie : Nat} {P : Nat → Samples → Prop}
    (hgroup : ∀ j < ie, ∀ data, P j data → ∃ data',
      butterflies (widen (w j)) n2 (2*n2*j, data) = some (2*n2*j+n2, data') ∧ P (j+1) data')
    (h : P 0 data) : ∃ s, stage w n2 ie data = some s ∧ P ie s.2 := by
  have hloop : ∃ s, stage w n2 ie data = some s ∧ s.1 = 2*n2*ie ∧ P ie s.2 := by
    refine foldlM_range_some (P := fun j (s : Nat × Samples) => s.1 = 2*n2*j ∧ P j s.2) ?_
      ⟨rfl, h⟩
    rintro j hj ⟨_, data⟩ ⟨rfl, hdata⟩
    obtain ⟨data', hrun, hdata'⟩ := hgroup j hj data hdata
    refine ⟨(2*n2*j+n2+n2, data'), by rw [hrun]; rfl, ?_, hdata'⟩
    simp only [Nat.mul_succ]
    omega
  obtain ⟨s, hrun, _, hs⟩ := hloop
  exact ⟨s, hrun, hs⟩

theorem first_stage_some (hw : size (widen (w 0)) ≤ 32767) (h : Halfway 0 data) :
    ∃ s, stage w 1024 1 data = some s ∧ Inside s.2 := by
  apply stage_some (P := fun j data => if j = 0 then Halfway 0 data else Inside data) _ h
  intro j hj data hdata
  obtain rfl : j = 0 := by omega
  have hstep (i : Nat) (hi : i < 1024) (data : Samples) (h : Halfway i data) :
      ∃ data', butterfly (widen (w 0)) 1024 data (2*1024*0+i) = some data' ∧
        Halfway (i+1) data' := by
    rw [Nat.mul_zero, Nat.zero_add]
    exact h.butterfly hi hw
  obtain ⟨data', hrun, hdata'⟩ := butterflies_some hstep hdata
  exact ⟨data', hrun, hdata'.inside⟩

theorem stages_some (hw : ∀ j < 1024, size (widen (w j)) ≤ 32767) {n2 ie : Nat}
    (hspan : n2*ie ≤ 1024) (h : Inside data) :
    ∃ data', stages w n2 ie data = some data' ∧ Inside data' := by
  induction n2 using Nat.strong_induction_on generalizing ie data with
  | _ n2 ih =>
    rw [stages]
    by_cases hpos : 0 < n2
    · have hrow (j : Nat) (hj : j < ie) : n2*j+n2 ≤ 1024 :=
        (Nat.mul_le_mul_left n2 hj).trans hspan
      have hstage : ∃ s, stage w n2 ie data = some s ∧ Inside s.2 := by
        apply stage_some (P := fun _ => Inside) _ h
        intro j hj data hdata
        have hlt : j < 1024 := by nlinarith [hrow j hj]
        apply butterflies_some (P := fun _ => Inside) _ hdata
        intro i hi data hdata
        apply hdata.butterfly (hw j hlt)
        have := hrow j hj
        rw [fftSize, Nat.mul_assoc]
        omega
      obtain ⟨s, hrun, hs⟩ := hstage
      have hhalf : n2/2*(2*ie) ≤ 1024 := by
        rw [← Nat.mul_assoc]
        exact (Nat.mul_le_mul_right ie (Nat.div_mul_le_self n2 2)).trans hspan
      obtain ⟨data', hrest, hdata'⟩ := ih (n2/2) (by omega) hhalf hs
      refine ⟨data', ?_, hdata'⟩
      rwa [if_pos hpos, hrun]
    · exact ⟨data, if_neg hpos, h⟩

def bitReversed : Nat → Nat → Nat
  | 0, _ => 0
  | m+1, j => if 2^m ≤ j then 2*bitReversed m (j-2^m)+1 else 2*bitReversed m j

theorem carry_some {m fuel j : Nat} (hfuel : m < fuel) (hj : j < 2^(m+1))
    (hmore : bitReversed (m+1) j+1 < 2^(m+1)) :
    ∃ j', carry fuel (2^m) j = some j' ∧ j' < 2^(m+1) ∧
      bitReversed (m+1) j' = bitReversed (m+1) j+1 := by
  induction fuel generalizing m j with
  | zero => omega
  | succ fuel ih =>
    have hdouble : 2^(m+1) = 2*2^m := Nat.pow_succ'
    rw [carry]
    by_cases hset : 2^m ≤ j
    · cases m with
      | zero => simp [bitReversed, show 1 ≤ j from hset] at hmore
      | succ m =>
        rw [bitReversed, if_pos hset] at hmore
        obtain ⟨j', hrun, hlt, hrev⟩ := ih (show m < fuel by omega)
          (show j-2^(m+1) < 2^(m+1) by omega) (by omega)
        refine ⟨j', ?_, by omega, ?_⟩
        · rw [if_pos hset, Nat.pow_succ, Nat.mul_div_cancel _ (by decide), ← Nat.pow_succ, hrun]
        · conv_rhs => rw [bitReversed, if_pos hset]
          rw [bitReversed, if_neg (by omega), hrev]
          omega
    · refine ⟨j+2^m, if_neg hset, by omega, ?_⟩
      rw [bitReversed, if_pos (by omega), bitReversed, if_neg hset, Nat.add_sub_cancel]

theorem bitRevData_some (h : Inside data) :
    ∃ s, bitRevData fftSize data = some s ∧ Inside s.2 := by
  have hloop : ∃ s, bitRevData fftSize data = some s ∧ s.1 < 2^11 ∧ bitReversed 11 s.1 = 2046 ∧
      Inside s.2 := by
    refine foldlM_range_some (P := fun i (s : Nat × Samples) => s.1 < 2^11 ∧
      bitReversed 11 s.1 = i ∧ Inside s.2) ?_
      ⟨show 0 < 2^11 by decide, show bitReversed 11 0 = 0 by decide, h⟩
    intro i hi s hs
    rw [fftSize] at hi
    obtain ⟨j, hrun, hj, hrev⟩ := carry_some (show 10 < fftSize by decide) hs.1
      (show bitReversed 11 s.1+1 < 2^11 by rw [hs.2.1]; omega)
    have hcarry : carry fftSize (fftSize/2) s.1 = some j := hrun
    refine ⟨_, by rw [hcarry]; rfl, hj, by rw [hrev, hs.2.1], ?_⟩
    split
    · exact (hs.2.2.update _ (hs.2.2 _ (by rw [fftSize]; omega))).update _ (hs.2.2 j hj)
    · exact hs.2.2
  obtain ⟨s, hrun, _, _, hs⟩ := hloop
  exact ⟨s, hrun, hs⟩

theorem fftSc16_some (hw : ∀ j < 1024, size (widen (w j)) ≤ 32767) (h : Halfway 0 data) :
    ∃ data', fftSc16 w data = some data' ∧ Inside data' := by
  obtain ⟨s, hfirst, hs⟩ := first_stage_some (hw 0 (by decide)) h
  obtain ⟨data', hrest, hdata'⟩ := stages_some hw (show 512*2 ≤ 1024 by decide) hs
  obtain ⟨r, hrev, hr⟩ := bitRevData_some hdata'
  have hstages : stages w 1024 1 data = some data' := by
    rw [stages, if_pos (by decide), hfirst]
    exact hrest
  refine ⟨r.2, ?_, hr⟩
  simp [fftSc16, show fftSize/2 = 1024 from rfl, hstages, hrev]

theorem windowed_bounds (x : Int16) {w : Int16} (hw : 0 ≤ w.toInt) :
    int32 (x.toInt*w.toInt) = some (x.toInt*w.toInt) ∧
      int16 ((x.toInt*w.toInt) >>> (15 : Nat)) = some ((x.toInt*w.toInt) >>> (15 : Nat)) ∧
      |(x.toInt*w.toInt) >>> (15 : Nat)| ≤ w.toInt := by
  have hlow := mul_le_mul_of_nonneg_right x.le_toInt hw
  have hhigh := mul_le_mul_of_nonneg_right x.toInt_lt.le hw
  have hmax := w.toInt_lt
  rw [Int.shiftRight_eq_div_pow]
  generalize x.toInt*w.toInt = product at hlow hhigh ⊢
  refine ⟨within_eq_some ?_ ?_, within_eq_some ?_ ?_, abs_le.mpr ⟨?_, ?_⟩⟩ <;> omega

theorem windowMultiplyQ15_some (input : Nat → Int16 × Int16) {window : Nat → Int16} {n : Nat}
    (hwindow : ∀ i < n, 0 ≤ (window i).toInt) (out : Samples) :
    ∃ data, windowMultiplyQ15 input window out n = some data ∧
      ∀ i < n, |(data i).1| ≤ (window i).toInt ∧ |(data i).2| ≤ (window i).toInt := by
  refine foldlM_range_some (P := fun k (data : Samples) => ∀ i < k,
    |(data i).1| ≤ (window i).toInt ∧ |(data i).2| ≤ (window i).toInt) ?_
    fun i hi => absurd hi (Nat.not_lt_zero i)
  intro k hk data hdata
  obtain ⟨hre, hre', hrele⟩ := windowed_bounds (input k).1 (hwindow k hk)
  obtain ⟨him, him', himle⟩ := windowed_bounds (input k).2 (hwindow k hk)
  refine ⟨_, by simp only [hre, him, hre', him', Option.bind_eq_bind, Option.bind_some]; rfl, ?_⟩
  intro i hi
  by_cases heq : i = k
  · rw [heq, update_self]
    exact ⟨hrele, himle⟩
  · rw [update_of_ne heq]
    exact hdata i (by omega)

theorem size_windowed {w : Int} (hre : |z.1| ≤ w) (him : |z.2| ≤ w) :
    size z ≤ 1.41424*w := by
  have hw : 0 ≤ w := (abs_nonneg _).trans hre
  have hsum : z.1^2+z.2^2 ≤ 2*w^2 := by
    linarith [sq_le_sq' (abs_le.mp hre).1 (abs_le.mp hre).2,
      sq_le_sq' (abs_le.mp him).1 (abs_le.mp him).2]
  have hreal : (z.1 : ℝ)^2+(z.2 : ℝ)^2 ≤ 2*(w : ℝ)^2 := by exact_mod_cast hsum
  have hscale : (0 : ℝ) ≤ 1.41424*w := mul_nonneg (by norm_num) (by exact_mod_cast hw)
  apply size_le_of_sq hscale
  nlinarith [sq_nonneg (w : ℝ)]

theorem halfway_windowed {window : Nat → Int16}
    (hdata : ∀ i < fftSize, |(data i).1| ≤ (window i).toInt ∧ |(data i).2| ≤ (window i).toInt)
    (hpair : ∀ n < 1024, (window n).toInt+(window (n+1024)).toInt ≤ 33000) : Halfway 0 data where
  low n hn := absurd hn (Nat.not_lt_zero n)
  high n hn := absurd hn (Nat.not_lt_zero n)
  pair n _ hn := by
    have hlow := hdata n (by rw [fftSize]; omega)
    have hhigh := hdata (n+1024) (by rw [fftSize]; omega)
    have hsum : ((window n).toInt : ℝ)+(window (n+1024)).toInt ≤ 33000 := by
      exact_mod_cast hpair n hn
    linarith [size_windowed hlow.1 hlow.2, size_windowed hhigh.1 hhigh.2]

theorem magnitude_bounds (h : size z ≤ 23335) :
    z.1*z.1+z.2*z.2 ≤ 544522225 := by
  have hsq : size z^2 ≤ 23335^2 := (sq_le_sq₀ (size_nonneg z) (by norm_num)).mpr h
  rw [sq_size] at hsq
  have hint : z.1^2+z.2^2 ≤ 23335^2 := by exact_mod_cast hsq
  linarith [sq z.1, sq z.2]

theorem magSqPass_some {src n : Nat} (dst : Nat) (h : ∀ k < n, size (data (src+k)) ≤ 23335)
    (out : Magnitudes) :
    ∃ mags, magSqPass data src dst n out = some mags ∧
      (∀ k < n, 0 ≤ mags (dst+k) ∧ mags (dst+k) ≤ 2147483647) ∧
      ∀ k < dst, mags k = out k := by
  refine foldlM_range_some (P := fun k (mags : Magnitudes) =>
    (∀ i < k, 0 ≤ mags (dst+i) ∧ mags (dst+i) ≤ 2147483647) ∧ ∀ i < dst, mags i = out i) ?_
    ⟨fun i hi => absurd hi (Nat.not_lt_zero i), fun _ _ => rfl⟩
  intro k hk mags hmags
  have hsum := magnitude_bounds (h k hk)
  have hre := mul_self_nonneg (data (src+k)).1
  have him := mul_self_nonneg (data (src+k)).2
  have hfits {x : Int} (hpos : 0 ≤ x) (hmax : x ≤ 544522225) : int32 x = some x :=
    within_eq_some (by omega) (by omega)
  refine ⟨_, by
    simp only [hfits hre (by omega), hfits him (by omega), hfits (add_nonneg hre him) hsum,
      Option.bind_eq_bind, Option.bind_some]
    rfl, ?_, ?_⟩
  · intro i hi
    by_cases heq : i = k
    · rw [heq, update_self]
      omega
    · rw [update_of_ne (by omega)]
      exact hmags.1 i (by omega)
  · intro i hi
    rw [update_of_ne (by omega)]
    exact hmags.2 i hi

theorem size_widen {z : Int16 × Int16}
    (h : z.1.toInt*z.1.toInt+z.2.toInt*z.2.toInt ≤ 32767*32767) : size (widen z) ≤ 32767 := by
  apply size_le_of_sq (by norm_num)
  rw [sq, sq, sq]
  exact_mod_cast h

/-- No intermediate value of the spectrum leaves its type, whatever the block. -/
theorem spectrum_in_range (input : Nat → Int16 × Int16) (window : Nat → Int16)
    (w : Nat → Int16 × Int16) (buf : Samples) (out : Magnitudes)
    (hwindow : ∀ n < fftSize, 0 ≤ (window n).toInt)
    (hpair : ∀ n < 1024, (window n).toInt+(window (n+1024)).toInt ≤ 33000)
    (htwiddle : ∀ j < 1024,
      (w j).1.toInt*(w j).1.toInt+(w j).2.toInt*(w j).2.toInt ≤ 32767*32767) :
    ∃ mags, spectrum input window w buf out = some mags ∧
      ∀ k < fftSize, 0 ≤ mags k ∧ mags k ≤ 2147483647 := by
  obtain ⟨block, hwindowed, hblock⟩ := windowMultiplyQ15_some input hwindow buf
  obtain ⟨data, hfft, hdata⟩ := fftSc16_some (fun j hj => size_widen (htwiddle j hj))
    (halfway_windowed hblock hpair)
  have hupper (k : Nat) (hk : k < 1024) : size (data (1024+k)) ≤ 23335 :=
    hdata (1024+k) (by rw [fftSize]; omega)
  have hlower (k : Nat) (hk : k < 1024) : size (data (0+k)) ≤ 23335 :=
    hdata (0+k) (by rw [fftSize]; omega)
  obtain ⟨low, hlow, hlowIn, _⟩ := magSqPass_some 0 hupper out
  obtain ⟨mags, hhigh, hhighIn, hkept⟩ := magSqPass_some 1024 hlower low
  refine ⟨mags, ?_, ?_⟩
  · simp [spectrum, computeMagnitudeShifted, show fftSize/2 = 1024 from rfl, hwindowed, hfft, hlow,
      hhigh]
  · intro k hk
    rw [fftSize] at hk
    by_cases hhalf : k < 1024
    · rw [hkept k hhalf, ← Nat.zero_add k]
      exact hlowIn k hhalf
    · have hin := hhighIn (k-1024) (by omega)
      rwa [Nat.add_sub_cancel' (by omega)] at hin

/-- Full-scale samples under a flat window. -/
theorem full_scale_in_range :
    ∃ mags, spectrum (fun _ => (32767, -32768)) (fun _ => 16500) (fun _ => (32767, 0))
        (fun _ => (0, 0)) (fun _ => 0) = some mags ∧
      ∀ k < fftSize, 0 ≤ mags k ∧ mags k ≤ 2147483647 :=
  spectrum_in_range _ _ _ _ _ (fun _ _ => by decide) (fun _ _ => by decide) (fun _ _ => by decide)

end IridiumAcars.FftSc16
