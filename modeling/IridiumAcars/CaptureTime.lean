import Mathlib.Algebra.Order.Group.Abs
import IridiumAcars.IdaIntegrity
import IridiumAcars.WorkerEmit

/-! Capture timestamps along the sample stream and the fragment chains timed by them. -/
namespace IridiumAcars.CaptureTime
open SlotTable IdaReasm WorkerEmit List

def ticks (x : Nat) : Nat := x*1000000%18446744073709551616/2500000

def stamp (epoch x : Nat) : Nat := (epoch+ticks x)%18446744073709551616

theorem toNat_captureUs (epochUs : UInt64) (b : DetectedBurst) :
    (captureUs epochUs b).toNat = stamp epochUs.toNat b.startSampleIdx.toNat := by
  rw [captureUs, UInt64.toNat_add, UInt64.toNat_div, UInt64.toNat_mul]
  rfl

/-- From `a` to `b` neither the product nor the sum passes a multiple of `2^64`. -/
def SamePeriod (epoch a b : Nat) : Prop :=
  a*1000000/18446744073709551616 = b*1000000/18446744073709551616 ∧
    (epoch+ticks a)/18446744073709551616 = (epoch+ticks b)/18446744073709551616

instance (epoch a b : Nat) : Decidable (SamePeriod epoch a b) := inferInstanceAs (Decidable (_ ∧ _))

section
variable {epoch a b c d : Nat}

theorem ticks_mono (h : a*1000000/18446744073709551616 = b*1000000/18446744073709551616)
    (hab : a ≤ b) : ticks a ≤ ticks b := by
  rw [ticks, ticks]
  omega

theorem SamePeriod.sub (h : SamePeriod epoch a b) (hac : a ≤ c) (hcd : c ≤ d) (hdb : d ≤ b) :
    SamePeriod epoch c d := by
  obtain ⟨hprod,hsum⟩ := h
  have hmono : ∀ {x y : Nat}, x ≤ y →
      x*1000000/18446744073709551616 ≤ y*1000000/18446744073709551616 := fun hxy =>
    Nat.div_le_div_right (Nat.mul_le_mul_right _ hxy)
  have hc := (hmono hac).antisymm ((hmono (hcd.trans hdb)).trans hprod.ge)
  have hd := (hmono hcd).antisymm ((hmono hdb).trans (hprod.ge.trans hc.le))
  have htc := ticks_mono hc hac
  have htd := ticks_mono hd hcd
  have htb := ticks_mono (hd.symm.trans (hc.symm.trans hprod)) hdb
  refine ⟨hd, ?_⟩
  omega

theorem SamePeriod.trans (h : SamePeriod epoch a b) (h' : SamePeriod epoch b c) :
    SamePeriod epoch a c :=
  ⟨h.1.trans h'.1, h.2.trans h'.2⟩

theorem SamePeriod.elapsed (h : SamePeriod epoch a b) (hab : a ≤ b) :
    stamp epoch a ≤ stamp epoch b ∧
      (b-a)*1000000 < (stamp epoch b-stamp epoch a+1)*2500000 ∧
      (stamp epoch b-stamp epoch a)*2500000 < (b-a)*1000000+2500000 := by
  rw [SamePeriod, ticks, ticks] at h
  rw [stamp, stamp, ticks, ticks]
  omega

theorem ticks_wrap (h : a*1000000/18446744073709551616 ≠ (a+1)*1000000/18446744073709551616) :
    ticks a = 7378697629483 ∧ ticks (a+1) = 0 := by
  rw [ticks, ticks]
  omega

theorem ticks_step (h : a*1000000/18446744073709551616 = (a+1)*1000000/18446744073709551616) :
    ticks a ≤ ticks (a+1) ∧ ticks (a+1) ≤ ticks a+1 := by
  rw [ticks, ticks]
  omega

theorem samePeriod_succ (hle : stamp epoch a ≤ stamp epoch (a+1))
    (hnear : stamp epoch (a+1) ≤ stamp epoch a+2) : SamePeriod epoch a (a+1) := by
  rw [stamp, stamp] at hle hnear
  by_cases h : a*1000000/18446744073709551616 = (a+1)*1000000/18446744073709551616
  · have hstep := ticks_step h
    refine ⟨h, ?_⟩
    omega
  · obtain ⟨htop,hzero⟩ := ticks_wrap h
    rw [htop, hzero] at hle hnear
    omega

theorem samePeriod_first (h : SamePeriod epoch 0 a)
    (hle : stamp epoch a ≤ stamp epoch (a+1)+1) : SamePeriod epoch a (a+1) := by
  have hzero : ticks 0 = 0 := rfl
  have hsum := h.2
  rw [hzero] at hsum
  rw [stamp, stamp] at hle
  by_cases hprod : a*1000000/18446744073709551616 = (a+1)*1000000/18446744073709551616
  · have hstep := ticks_step hprod
    refine ⟨hprod, ?_⟩
    omega
  · obtain ⟨htop,hbottom⟩ := ticks_wrap hprod
    rw [htop, hbottom] at hle
    rw [htop] at hsum
    omega

theorem samePeriod_of_succ (hab : a ≤ b)
    (h : ∀ x, a ≤ x → x < b → SamePeriod epoch x (x+1)) : SamePeriod epoch a b := by
  induction b, hab using Nat.le_induction with
  | base => exact ⟨rfl, rfl⟩
  | succ b hab ih =>
    exact (ih fun x hx hxb => h x hx (Nat.lt_succ_of_lt hxb)).trans (h b hab (Nat.lt_succ_self b))

end

section

def retime (t : Nat) (s : Session) : Session := { s with lastTimeUs := t }

def Alike (ss ss' : Fin idaReasmMaxSessions → Session) : Prop := ∀ i, ∃ t, ss' i = retime t (ss i)

def Fresh (k t : Nat) (ss : Fin idaReasmMaxSessions → Session) : Prop :=
  ∀ i, (ss i).active = true → (ss i).nextCtr ≤ k ∧ ((ss i).nextCtr = k → (ss i).lastTimeUs = t)

variable {ctx ctx' : IdaReassembler} {f : Feed} {k t t' : Nat}
  {ss ss' : Fin idaReasmMaxSessions → Session}

theorem Fresh.older (h : Fresh k t ss) (t' : Nat) : Fresh (k+1) t' ss := by
  intro i hi
  obtain ⟨hle,-⟩ := h i hi
  exact ⟨Nat.le_succ_of_le hle, fun heq => by omega⟩

theorem Fresh.set (h : Fresh k t ss) (i : Fin idaReasmMaxSessions) {s : Session}
    (hs : s.active = true → s.nextCtr ≤ k ∧ (s.nextCtr = k → s.lastTimeUs = t)) :
    Fresh k t (setSlot ss i s) := by
  intro j hj
  by_cases hji : j = i
  · subst hji
    rw [setSlot_same] at hj ⊢
    exact hs hj
  · rw [setSlot_other _ _ _ _ hji] at hj ⊢
    exact h j hj

theorem feed_fresh (h : Fresh k t ctx.sessions) (hctr : f.frag.daCtr = k) :
    Fresh (k+1) f.nowUs (idaReassemblerFeedEx ctx f).1.sessions := by
  have hstep := feedEx_step ctx f
  have hold := h.older f.nowUs
  generalize (idaReassemblerFeedEx ctx f).1.sessions = ss at hstep ⊢
  generalize (idaReassemblerFeedEx ctx f).1.cntOrphan = n at hstep
  generalize (idaReassemblerFeedEx ctx f).2 = r at hstep
  cases hstep with
  | standalone => exact hold
  | tableFull => exact hold
  | opened i h0 => exact hold.set i fun _ => ⟨Nat.le_add_left 1 k, fun _ => rfl⟩
  | orphan => exact hold
  | overflow i | completed i => exact hold.set i fun hact => absurd hact Bool.false_ne_true
  | extended i =>
    refine hold.set i fun _ => ⟨?_, fun _ => rfl⟩
    rw [hctr]
    exact Nat.mod_le _ _

theorem Alike.set (h : Alike ss ss') (i : Fin idaReasmMaxSessions) (s : Session) :
    Alike (setSlot ss i s) (setSlot ss' i (retime t s)) := by
  intro j
  by_cases hji : j = i
  · subst hji
    exact ⟨t, by rw [setSlot_same, setSlot_same]⟩
  · rw [setSlot_other _ _ _ _ hji, setSlot_other _ _ _ _ hji]
    exact h j

theorem feed_alike (h : Alike ctx.sessions ctx'.sessions)
    (hacc : ∀ i, (ctx'.sessions i).accepts f.uplink f.freqHz f.frag.daCtr t =
      (ctx.sessions i).accepts f.uplink f.freqHz f.frag.daCtr f.nowUs) :
    (idaReassemblerFeedEx ctx' { f with nowUs := t }).2 = (idaReassemblerFeedEx ctx f).2 ∧
      Alike (idaReassemblerFeedEx ctx f).1.sessions
        (idaReassemblerFeedEx ctx' { f with nowUs := t }).1.sessions := by
  have hfree : findFreeSession ctx' = findFreeSession ctx := by
    rw [findFreeSession, findFreeSession, firstSlot, firstSlot]
    congr 1
    funext i
    obtain ⟨x,hx⟩ := h i
    rw [hx]
    rfl
  have hmatch : findMatchingSession ctx' f.uplink f.freqHz f.frag.daCtr t =
      findMatchingSession ctx f.uplink f.freqHz f.frag.daCtr f.nowUs := by
    rw [findMatchingSession, findMatchingSession, lastSlot, lastSlot]
    congr 1
    funext i
    exact hacc i
  unfold idaReassemblerFeedEx
  dsimp only
  by_cases h0 : f.frag.daCtr = 0
  · by_cases hc : f.frag.daCont = 0
    · simp only [if_pos (And.intro h0 hc)]
      exact ⟨trivial, h⟩
    · have hstand : ¬(f.frag.daCtr = 0 ∧ f.frag.daCont = 0) := fun h => hc h.2
      simp only [if_neg hstand, if_pos (And.intro h0 hc), hfree]
      cases findFreeSession ctx with
      | none => exact ⟨rfl, h⟩
      | some i => exact ⟨rfl, h.set i (openSession f)⟩
  · have hstand : ¬(f.frag.daCtr = 0 ∧ f.frag.daCont = 0) := fun h => h0 h.1
    have hopen : ¬(f.frag.daCtr = 0 ∧ f.frag.daCont ≠ 0) := fun h => h0 h.1
    simp only [if_neg hstand, if_neg hopen, hmatch]
    cases findMatchingSession ctx f.uplink f.freqHz f.frag.daCtr f.nowUs with
    | none => exact ⟨rfl, h⟩
    | some i =>
      obtain ⟨x,hx⟩ := h i
      dsimp only
      generalize ctx'.sessions i = s' at hx
      subst hx
      by_cases hlen : f.frag.payload.length > idaReasmMaxBytes-(ctx.sessions i).payload.length
      · have hlen' : f.frag.payload.length >
            idaReasmMaxBytes-(retime x (ctx.sessions i)).payload.length := hlen
        simp only [dif_pos hlen, dif_pos hlen']
        exact ⟨trivial, h.set i (ctx.sessions i).deactivate⟩
      · have hlen' : ¬f.frag.payload.length >
            idaReasmMaxBytes-(retime x (ctx.sessions i)).payload.length := hlen
        simp only [dif_neg hlen, dif_neg hlen']
        by_cases hc : f.frag.daCont = 0
        · simp only [if_pos hc]
          exact ⟨rfl, h.set i ((ctx.sessions i).merge f hlen).deactivate⟩
        · simp only [if_neg hc]
          exact ⟨trivial, h.set i (((ctx.sessions i).merge f hlen).advance f.frag.daCtr)⟩

theorem accepts_in_time {s : Session} {u : Nat} (uplink : Bool) (freqHz : UInt32)
    (h : s.active = true → s.nextCtr = k → s.lastTimeUs ≤ u ∧ u-s.lastTimeUs ≤ idaReasmFragGapUs) :
    s.accepts uplink freqHz k u = (s.active && s.uplink == uplink && k == s.nextCtr &&
      !(decide (freqHz < windowLo s.freqHz) || decide (freqHz > windowHi s.freqHz))) := by
  rw [Session.accepts, Session.acceptsIgnoringFreq]
  cases hact : s.active with
  | false => rfl
  | true =>
    by_cases hctr : s.nextCtr = k
    · obtain ⟨hle,hgap⟩ := h hact hctr
      rw [decide_eq_false (Nat.not_lt.mpr hle), decide_eq_false (Nat.not_lt.mpr hgap)]
      simp
    · rw [beq_false_of_ne (Ne.symm hctr), Bool.and_false, Bool.false_and, Bool.false_and]

theorem Fresh.in_time (h : Fresh k t ss) {u : Nat} (hop : t ≤ u ∧ u-t ≤ idaReasmFragGapUs)
    (i : Fin idaReasmMaxSessions) (hact : (ss i).active = true) (hctr : (ss i).nextCtr = k) :
    (ss i).lastTimeUs ≤ u ∧ u-(ss i).lastTimeUs ≤ idaReasmFragGapUs := by
  rwa [(h i hact).2 hctr]

theorem accepts_alike (h : Alike ss ss') (hf : Fresh k t ss) (hf' : Fresh k t' ss') {u u' : Nat}
    (hop : t ≤ u ∧ u-t ≤ idaReasmFragGapUs) (hop' : t' ≤ u' ∧ u'-t' ≤ idaReasmFragGapUs)
    (i : Fin idaReasmMaxSessions) (uplink : Bool) (freqHz : UInt32) :
    (ss' i).accepts uplink freqHz k u' = (ss i).accepts uplink freqHz k u := by
  rw [accepts_in_time uplink freqHz (hf.in_time hop i),
    accepts_in_time uplink freqHz (hf'.in_time hop' i)]
  obtain ⟨x,hx⟩ := h i
  rw [hx]
  rfl

def outcomes (ctx : IdaReassembler) : List Feed → List FeedResult
  | [] => []
  | f::fs => (idaReassemblerFeedEx ctx f).2::outcomes (idaReassemblerFeedEx ctx f).1 fs

def timed (fs : List (Feed × Nat)) : List Feed := fs.map fun x => { x.1 with nowUs := x.2 }

theorem outcomes_alike {last : Feed × Nat} {fs : List (Feed × Nat)}
    (h : Alike ctx.sessions ctx'.sessions) (hf : Fresh k last.1.nowUs ctx.sessions)
    (hf' : Fresh k last.2 ctx'.sessions)
    (hctr : fs.map (fun x => x.1.frag.daCtr) = List.range' k fs.length)
    (hop : (last::fs).IsChain fun a b => a.1.nowUs ≤ b.1.nowUs ∧
      b.1.nowUs-a.1.nowUs ≤ idaReasmFragGapUs)
    (hop' : (last::fs).IsChain fun a b => a.2 ≤ b.2 ∧ b.2-a.2 ≤ idaReasmFragGapUs) :
    outcomes ctx' (timed fs) = outcomes ctx (fs.map Prod.fst) := by
  induction fs generalizing ctx ctx' k last with
  | nil => rfl
  | cons x fs ih =>
    obtain ⟨f,u⟩ := x
    rw [isChain_cons_cons] at hop hop'
    rw [map_cons, length_cons, range'_succ, List.cons.injEq] at hctr
    obtain ⟨rfl,hrest⟩ := hctr
    obtain ⟨hres,halike⟩ := feed_alike h fun i =>
      accepts_alike h hf hf' hop.1 hop'.1 i f.uplink f.freqHz
    have hnext := ih halike (feed_fresh hf rfl) (feed_fresh (f := { f with nowUs := u }) hf' rfl)
      hrest hop.2 hop'.2
    rw [timed, map_cons, map_cons, outcomes, outcomes]
    exact congrArg₂ List.cons hres hnext

theorem outcomes_fresh (fs : List (Feed × Nat))
    (hctr : fs.map (fun x => x.1.frag.daCtr) = List.range fs.length)
    (hop : fs.IsChain fun a b => a.1.nowUs ≤ b.1.nowUs ∧ b.1.nowUs-a.1.nowUs ≤ idaReasmFragGapUs)
    (hop' : fs.IsChain fun a b => a.2 ≤ b.2 ∧ b.2-a.2 ≤ idaReasmFragGapUs) :
    outcomes .init (timed fs) = outcomes .init (fs.map Prod.fst) := by
  cases fs with
  | nil => rfl
  | cons x fs =>
    have hidle : Fresh 0 0 IdaReassembler.init.sessions := fun _ hact => by cases hact
    have halike : Alike IdaReassembler.init.sessions IdaReassembler.init.sessions :=
      fun _ => ⟨0, rfl⟩
    obtain ⟨f,u⟩ := x
    rw [range_eq_range', map_cons, length_cons, range'_succ, List.cons.injEq]
      at hctr
    obtain ⟨hfirst,hrest⟩ := hctr
    obtain ⟨hres,hnext⟩ := feed_alike (f := f) (t := u) halike fun _ => rfl
    rw [timed, map_cons, map_cons, outcomes, outcomes]
    refine congrArg₂ List.cons hres (outcomes_alike (k := 1) hnext ?_ ?_ hrest hop hop')
    · exact feed_fresh hidle hfirst
    · exact feed_fresh (f := { f with nowUs := u }) hidle hfirst

end

def shift (p : UInt64) (b : DetectedBurst) : DetectedBurst :=
  { b with startSampleIdx := p+b.startSampleIdx }

structure Piece where
  burst : DetectedBurst
  frag : IdaFragment
  fragCrcOk : Bool
  uplink : Bool
  freqHz : UInt32
  outCap : Nat

def Piece.feed (epochUs p : UInt64) (c : Piece) : Feed :=
  ⟨c.frag, c.fragCrcOk, c.uplink, c.freqHz, (captureUs epochUs (shift p c.burst)).toNat, c.outCap⟩

/-- Fragments 0, 1, 2, … in stream order, each within the gap limit less one microsecond. -/
structure FragmentChain (spread : UInt64) (cs : List Piece) : Prop where
  ctr : cs.map (fun c => c.frag.daCtr) = List.range cs.length
  within : ∀ c ∈ cs, c.burst.startSampleIdx ≤ spread
  gaps : cs.IsChain fun a b => a.burst.startSampleIdx ≤ b.burst.startSampleIdx ∧
    (b.burst.startSampleIdx.toNat-a.burst.startSampleIdx.toNat)*1000000 <
      (idaReasmFragGapUs-1)*fsDetectHz.toNat

/-- Bursts up to `spread` behind stream position `p` are timed as they would be behind 0. -/
structure PositionFree (epochUs p spread : UInt64) : Prop where
  order : ∀ b c : DetectedBurst, b.startSampleIdx ≤ c.startSampleIdx →
    c.startSampleIdx ≤ spread → captureUs epochUs (shift p b) ≤ captureUs epochUs (shift p c)
  spacing : ∀ b c : DetectedBurst, b.startSampleIdx ≤ spread → c.startSampleIdx ≤ spread →
    |((captureUs epochUs (shift p c)).toNat-(captureUs epochUs (shift p b)).toNat : Int)-
      ((captureUs epochUs c).toNat-(captureUs epochUs b).toNat)| ≤ 1
  chains : ∀ cs, FragmentChain spread cs →
    outcomes .init (cs.map (Piece.feed epochUs p)) = outcomes .init (cs.map (Piece.feed epochUs 0))

section
variable {epochUs p spread : UInt64} (hfit : p.toNat+spread.toNat < 18446744073709551616)
include hfit

theorem toNat_shift {b : DetectedBurst} (hb : b.startSampleIdx ≤ spread) :
    (shift p b).startSampleIdx.toNat = p.toNat+b.startSampleIdx.toNat := by
  rw [UInt64.le_iff_toNat_le] at hb
  rw [shift, UInt64.toNat_add]
  exact Nat.mod_eq_of_lt (by omega)

theorem stamp_shift {b : DetectedBurst} (hb : b.startSampleIdx ≤ spread) :
    (captureUs epochUs (shift p b)).toNat =
      stamp epochUs.toNat (p.toNat+b.startSampleIdx.toNat) := by
  rw [toNat_captureUs, toNat_shift hfit hb]

theorem elapsed_shift
    (h : SamePeriod epochUs.toNat p.toNat (p.toNat+spread.toNat)) {b c : DetectedBurst}
    (hbc : b.startSampleIdx ≤ c.startSampleIdx) (hc : c.startSampleIdx ≤ spread) :
    (captureUs epochUs (shift p b)).toNat ≤ (captureUs epochUs (shift p c)).toNat ∧
      (c.startSampleIdx.toNat-b.startSampleIdx.toNat)*1000000 <
        ((captureUs epochUs (shift p c)).toNat-(captureUs epochUs (shift p b)).toNat+1)*2500000 ∧
      ((captureUs epochUs (shift p c)).toNat-(captureUs epochUs (shift p b)).toNat)*2500000 <
        (c.startSampleIdx.toNat-b.startSampleIdx.toNat)*1000000+2500000 := by
  have hle := UInt64.le_iff_toNat_le.mp hbc
  have hlast := UInt64.le_iff_toNat_le.mp hc
  rw [stamp_shift hfit hc, stamp_shift hfit (UInt64.le_trans hbc hc)]
  have hsub := (h.sub (Nat.le_add_right _ b.startSampleIdx.toNat)
    (Nat.add_le_add_left hle p.toNat) (Nat.add_le_add_left hlast p.toNat)).elapsed
    (Nat.add_le_add_left hle p.toNat)
  rwa [Nat.add_sub_add_left] at hsub

end

theorem shift_zero (b : DetectedBurst) : shift 0 b = b := by
  rw [shift, UInt64.zero_add]

theorem zero_fits (spread : UInt64) :
    (0 : UInt64).toNat+spread.toNat < 18446744073709551616 := by
  rw [UInt64.toNat_zero, Nat.zero_add]
  exact UInt64.toNat_lt spread

theorem zero_period {epoch : Nat} {spread : UInt64} (h : SamePeriod epoch 0 spread.toNat) :
    SamePeriod epoch (0 : UInt64).toNat ((0 : UInt64).toNat+spread.toNat) := by
  rwa [UInt64.toNat_zero, Nat.zero_add]

section
variable {epochUs p spread : UInt64} (hfit : p.toNat+spread.toNat < 18446744073709551616)
include hfit

theorem spacing_le (h : SamePeriod epochUs.toNat p.toNat (p.toNat+spread.toNat))
    (h0 : SamePeriod epochUs.toNat 0 spread.toNat) {b c : DetectedBurst}
    (hbc : b.startSampleIdx ≤ c.startSampleIdx) (hc : c.startSampleIdx ≤ spread) :
    |((captureUs epochUs (shift p c)).toNat-(captureUs epochUs (shift p b)).toNat : Int)-
      ((captureUs epochUs c).toNat-(captureUs epochUs b).toNat)| ≤ 1 := by
  obtain ⟨hle,hlo,hhi⟩ := elapsed_shift hfit h hbc hc
  have hbase := elapsed_shift (zero_fits spread) (zero_period h0) hbc hc
  rw [shift_zero, shift_zero] at hbase
  obtain ⟨hle0,hlo0,hhi0⟩ := hbase
  rw [abs_le]
  omega

theorem feed_hop (h : SamePeriod epochUs.toNat p.toNat (p.toNat+spread.toNat)) {a b : Piece}
    (hb : b.burst.startSampleIdx ≤ spread)
    (hgap : a.burst.startSampleIdx ≤ b.burst.startSampleIdx ∧
      (b.burst.startSampleIdx.toNat-a.burst.startSampleIdx.toNat)*1000000 <
        (idaReasmFragGapUs-1)*fsDetectHz.toNat) :
    (a.feed epochUs p).nowUs ≤ (b.feed epochUs p).nowUs ∧
      (b.feed epochUs p).nowUs-(a.feed epochUs p).nowUs ≤ idaReasmFragGapUs := by
  obtain ⟨hle,-,hhi⟩ := elapsed_shift hfit h hgap.1 hb
  have hlimit := hgap.2
  rw [show (idaReasmFragGapUs-1)*fsDetectHz.toNat = 699999*2500000 from rfl] at hlimit
  refine ⟨hle, ?_⟩
  rw [show idaReasmFragGapUs = 700000 from rfl]
  simp only [Piece.feed]
  omega

theorem positionFree_of_samePeriod
    (h : SamePeriod epochUs.toNat p.toNat (p.toNat+spread.toNat))
    (h0 : SamePeriod epochUs.toNat 0 spread.toNat) : PositionFree epochUs p spread := by
  refine ⟨fun b c hbc hc => ?_, fun b c hb hc => ?_, fun cs hcs => ?_⟩
  · exact UInt64.le_iff_toNat_le.mpr (elapsed_shift hfit h hbc hc).1
  · cases UInt64.le_total b.startSampleIdx c.startSampleIdx with
    | inl hbc => exact spacing_le hfit h h0 hbc hc
    | inr hcb =>
      have hswap := spacing_le hfit h h0 hcb hb
      rw [abs_le] at hswap ⊢
      omega
  · have hres := outcomes_fresh (cs.map fun c => (c.feed epochUs 0, (c.feed epochUs p).nowUs))
      ?_ ?_ ?_
    · rwa [timed, map_map, map_map] at hres
    · rw [map_map, length_map]
      exact hcs.ctr
    · rw [isChain_map]
      exact hcs.gaps.imp_of_mem_imp fun a b _ hb hgap =>
        feed_hop (zero_fits spread) (zero_period h0) (hcs.within b hb) hgap
    · rw [isChain_map]
      exact hcs.gaps.imp_of_mem_imp fun a b _ hb hgap => feed_hop hfit h (hcs.within b hb) hgap

theorem PositionFree.adjacent (h : PositionFree epochUs p spread) {d : Nat}
    (hd : d < spread.toNat) :
    stamp epochUs.toNat (p.toNat+d) ≤ stamp epochUs.toNat (p.toNat+d+1) ∧
      |(stamp epochUs.toNat (p.toNat+d+1)-stamp epochUs.toNat (p.toNat+d) : Int)-
        (stamp epochUs.toNat (d+1)-stamp epochUs.toNat d)| ≤ 1 := by
  have hlt := UInt64.toNat_lt spread
  obtain ⟨b,hb⟩ : ∃ b : DetectedBurst, b.startSampleIdx.toNat = d :=
    ⟨⟨UInt64.ofNat d, 0, 0, 0⟩, UInt64.toNat_ofNat_of_lt' (hd.trans hlt)⟩
  obtain ⟨c,hc⟩ : ∃ c : DetectedBurst, c.startSampleIdx.toNat = d+1 :=
    ⟨⟨UInt64.ofNat (d+1), 0, 0, 0⟩, UInt64.toNat_ofNat_of_lt' (Nat.lt_of_le_of_lt hd hlt)⟩
  have hbs : b.startSampleIdx ≤ spread := UInt64.le_iff_toNat_le.mpr (by omega)
  have hcs : c.startSampleIdx ≤ spread := UInt64.le_iff_toNat_le.mpr (by omega)
  have horder := h.order b c (UInt64.le_iff_toNat_le.mpr (by omega)) hcs
  have hspacing := h.spacing b c hbs hcs
  rw [UInt64.le_iff_toNat_le, stamp_shift hfit hbs, stamp_shift hfit hcs, hb, hc] at horder
  rw [stamp_shift hfit hbs, stamp_shift hfit hcs, toNat_captureUs, toNat_captureUs, hb, hc]
    at hspacing
  exact ⟨horder, hspacing⟩

theorem samePeriod_of_positionFree (h : PositionFree epochUs p spread) :
    SamePeriod epochUs.toNat p.toNat (p.toNat+spread.toNat) ∧
      SamePeriod epochUs.toNat 0 spread.toNat := by
  have hzero : ∀ d ≤ spread.toNat, SamePeriod epochUs.toNat 0 d := by
    intro d hd
    induction d with
    | zero => exact ⟨rfl, rfl⟩
    | succ d ih =>
      have hper := ih (Nat.le_of_succ_le hd)
      obtain ⟨hle,hnear⟩ := h.adjacent hfit hd
      refine hper.trans (samePeriod_first hper ?_)
      rw [abs_le] at hnear
      omega
  refine ⟨samePeriod_of_succ (Nat.le_add_right _ _) fun x hx hxs => ?_, hzero _ le_rfl⟩
  obtain ⟨d,rfl⟩ := Nat.exists_eq_add_of_le hx
  have hd : d < spread.toNat := by omega
  obtain ⟨hle,hnear⟩ := h.adjacent hfit hd
  obtain ⟨hle0,-,hhi0⟩ := ((hzero (d+1) hd).sub (Nat.zero_le d) (Nat.le_add_right d 1)
    le_rfl).elapsed (Nat.le_add_right d 1)
  refine samePeriod_succ hle ?_
  rw [abs_le] at hnear
  omega

end

/-- No more and no less than the absence of a wrap makes the stream position irrelevant. -/
theorem capture_time_position_free_iff (epochUs p spread : UInt64)
    (hfit : p.toNat+spread.toNat < 2^64) :
    PositionFree epochUs p spread ↔
      SamePeriod epochUs.toNat p.toNat (p.toNat+spread.toNat) ∧
        SamePeriod epochUs.toNat 0 spread.toNat :=
  ⟨samePeriod_of_positionFree hfit, fun h => positionFree_of_samePeriod hfit h.1 h.2⟩

/-- Two seconds behind the first position after a wrap. -/
theorem position_free_after_wrap :
    (18446744073710 : UInt64).toNat+(5000000 : UInt64).toNat < 2^64 ∧
      PositionFree 1000000 18446744073710 5000000 := by
  have hfit : (18446744073710 : UInt64).toNat+(5000000 : UInt64).toNat < 2^64 := by decide
  exact ⟨hfit, (capture_time_position_free_iff 1000000 18446744073710 5000000 hfit).mpr
    ⟨by decide, by decide⟩⟩

def opener : Piece := ⟨⟨0, 0, 0, 0⟩, fragment true 0 [1], true, false, 0, 320⟩

def ending : Piece := ⟨⟨250000, 0, 0, 0⟩, fragment false 1 [2], true, false, 0, 320⟩

/-- After 85 days of samples the product wraps between two fragments 100 ms apart. -/
theorem product_wrap_orphans_fragment :
    FragmentChain 250000 [opener, ending] ∧
    captureUs 1000000 (shift 18446744000000 opener.burst) = 7378698600000 ∧
    captureUs 1000000 (shift 18446744000000 ending.burst) = 1070516 ∧
    outcomes .init ([opener, ending].map (Piece.feed 1000000 18446744000000)) =
      [.consumed, .dropped] ∧
    outcomes .init ([opener, ending].map (Piece.feed 1000000 0)) =
      [.consumed, ⟨1, [1, 2], false⟩] := by
  refine ⟨⟨rfl, ?_, ?_⟩, by decide, by decide, by decide, by decide⟩
  · simp [opener, ending]
  · simp [opener, ending, idaReasmFragGapUs, fsDetectHz]

end IridiumAcars.CaptureTime
