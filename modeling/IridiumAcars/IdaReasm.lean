import IridiumAcars.IdaDecode
import IridiumAcars.Lib.SlotTable

/-! The cross-burst fragment reassembler, ida_reassembler.c: four chain slots. Times are
microseconds. -/
namespace IridiumAcars.IdaReasm
open SlotTable Bch IdaDecode List

def idaReasmMaxSessions : Nat := 4
def idaReasmMaxBytes : Nat := 320
def idaReasmFreqDeadbandHz : UInt32 := 5000
def idaReasmFragGapUs : Nat := 700*1000
def idaReasmSessionTimeoutUs : Nat := 1000*1000
def idaPartsBins : Nat := 8

/-- The fields of `ida_decoded_t` the reassembler reads. -/
structure IdaFragment where
  daCont : Nat
  daCtr : Nat
  payload : List UInt8
  cont_le : daCont ≤ 1
  len_le : payload.length ≤ 24
deriving DecidableEq

def fragment (more : Bool) (ctr : Nat) (payload : List UInt8) : IdaFragment :=
  ⟨more.toNat, ctr, payload.take 24, more.toNat_le, length_take_le 24 payload⟩

structure Feed where
  frag : IdaFragment
  fragCrcOk : Bool
  uplink : Bool
  freqHz : UInt32
  nowUs : Nat
  outCap : Nat
deriving DecidableEq

/-- `ida_reasm_session_t`; the payload buffer never holds more than it can. -/
structure Session where
  active : Bool
  uplink : Bool
  freqHz : UInt32
  nextCtr : Nat
  lastTimeUs : Nat
  payload : List UInt8
  dirty : Bool
  len_le : payload.length ≤ idaReasmMaxBytes
deriving DecidableEq

def Session.zero : Session where
  active := false
  uplink := false
  freqHz := 0
  nextCtr := 0
  lastTimeUs := 0
  payload := []
  dirty := false
  len_le := by decide

structure IdaReassembler where
  sessions : Fin idaReasmMaxSessions → Session
  cntStandalone : Nat
  cntOpened : Nat
  cntMerged : Nat
  cntCompleted : Nat
  cntOrphan : Nat
  cntOrphanFreq : Nat
  cntOverflow : Nat
  cntExpired : Nat
  partsCompleted : Fin idaPartsBins → Nat
  partsExpired : Fin idaPartsBins → Nat

def IdaReassembler.init : IdaReassembler where
  sessions := fun _ => Session.zero
  cntStandalone := 0
  cntOpened := 0
  cntMerged := 0
  cntCompleted := 0
  cntOrphan := 0
  cntOrphanFreq := 0
  cntOverflow := 0
  cntExpired := 0
  partsCompleted := fun _ => 0
  partsExpired := fun _ => 0

def windowLo (freqHz : UInt32) : UInt32 :=
  if freqHz > idaReasmFreqDeadbandHz then freqHz-idaReasmFreqDeadbandHz else 0

/-- Upper end of the window: a 32-bit sum, not clamped. -/
def windowHi (freqHz : UInt32) : UInt32 := freqHz+idaReasmFreqDeadbandHz

def Session.acceptsIgnoringFreq (s : Session) (uplink : Bool) (ctr nowUs : Nat) : Bool :=
  s.active && s.uplink == uplink && ctr == s.nextCtr && !decide (nowUs < s.lastTimeUs) &&
    !decide (nowUs-s.lastTimeUs > idaReasmFragGapUs)

def Session.accepts (s : Session) (uplink : Bool) (freqHz : UInt32) (ctr nowUs : Nat) : Bool :=
  s.acceptsIgnoringFreq uplink ctr nowUs &&
    !(decide (freqHz < windowLo s.freqHz) || decide (freqHz > windowHi s.freqHz))

def findFreeSession (ctx : IdaReassembler) : Option (Fin idaReasmMaxSessions) :=
  firstSlot (fun s => !s.active) ctx.sessions

/-- Highest slot first. -/
def findMatchingSession (ctx : IdaReassembler) (uplink : Bool) (freqHz : UInt32) (ctr nowUs : Nat) :
    Option (Fin idaReasmMaxSessions) :=
  lastSlot (fun s => s.accepts uplink freqHz ctr nowUs) ctx.sessions

def sessionMatchesIgnoringFreq (ctx : IdaReassembler) (uplink : Bool) (ctr nowUs : Nat) : Bool :=
  (lastSlot (fun s => s.acceptsIgnoringFreq uplink ctr nowUs) ctx.sessions).isSome

def bumpBin (bins : Fin idaPartsBins → Nat) (b : Nat) : Fin idaPartsBins → Nat :=
  fun k => if k.val = min b (idaPartsBins-1) then bins k+1 else bins k

structure IdaSalvage where
  payload : List UInt8
  uplink : Bool
  freqHz : UInt32
  lastTimeUs : Nat
  frags : Nat
  dirty : Bool
deriving DecidableEq

def Session.due (s : Session) (nowUs : Nat) : Bool :=
  s.active && decide (nowUs > s.lastTimeUs) &&
    decide (nowUs-s.lastTimeUs > idaReasmSessionTimeoutUs)

def Session.deactivate (s : Session) : Session := { s with active := false }

/-- `ida_reassembler_reap`: hand out the lowest overdue chain; `none` is the 0 return. -/
def idaReassemblerReap (ctx : IdaReassembler) (nowUs : Nat) : IdaReassembler × Option IdaSalvage :=
  match firstSlot (fun s => s.due nowUs) ctx.sessions with
  | none => (ctx, none)
  | some i =>
    let s := ctx.sessions i
    ({ ctx with
        sessions := setSlot ctx.sessions i s.deactivate
        cntExpired := ctx.cntExpired+1
        partsExpired := bumpBin ctx.partsExpired s.nextCtr },
      some ⟨s.payload.take idaReasmMaxBytes, s.uplink, s.freqHz, s.lastTimeUs, s.nextCtr, s.dirty⟩)

structure FeedResult where
  ret : Int
  out : List UInt8
  dirty : Bool
deriving DecidableEq

def FeedResult.dropped : FeedResult := ⟨-1, [], false⟩
def FeedResult.consumed : FeedResult := ⟨0, [], false⟩

def openSession (f : Feed) : Session where
  active := true
  uplink := f.uplink
  freqHz := f.freqHz
  nextCtr := 1
  lastTimeUs := f.nowUs
  payload := f.frag.payload.take idaReasmMaxBytes
  dirty := false
  len_le := by rw [length_take]; omega

def Session.merge (s : Session) (f : Feed)
    (h : ¬ f.frag.payload.length > idaReasmMaxBytes-s.payload.length) : Session :=
  { s with
    payload := s.payload ++ f.frag.payload
    lastTimeUs := f.nowUs
    dirty := s.dirty || !f.fragCrcOk
    len_le := by have := s.len_le; rw [length_append]; omega }

def Session.advance (s : Session) (ctr : Nat) : Session := { s with nextCtr := (ctr+1)%8 }

def idaReassemblerFeedEx (ctx : IdaReassembler) (f : Feed) : IdaReassembler × FeedResult :=
  if f.frag.daCtr = 0 ∧ f.frag.daCont = 0 then
    ({ ctx with cntStandalone := ctx.cntStandalone+1 }, ⟨1, f.frag.payload.take f.outCap, false⟩)
  else if f.frag.daCtr = 0 ∧ f.frag.daCont ≠ 0 then
    match findFreeSession ctx with
    | none => ({ ctx with cntOverflow := ctx.cntOverflow+1 }, .dropped)
    | some i =>
      ({ ctx with
          sessions := setSlot ctx.sessions i (openSession f)
          cntOpened := ctx.cntOpened+1 }, .consumed)
  else match findMatchingSession ctx f.uplink f.freqHz f.frag.daCtr f.nowUs with
    | none =>
      ({ ctx with
          cntOrphan := ctx.cntOrphan+1
          cntOrphanFreq := if sessionMatchesIgnoringFreq ctx f.uplink f.frag.daCtr f.nowUs
            then ctx.cntOrphanFreq+1 else ctx.cntOrphanFreq }, .dropped)
    | some i =>
      let s := ctx.sessions i
      if h : f.frag.payload.length > idaReasmMaxBytes-s.payload.length then
        ({ ctx with
            sessions := setSlot ctx.sessions i s.deactivate
            cntOverflow := ctx.cntOverflow+1 }, .dropped)
      else
        let merged := s.merge f h
        if f.frag.daCont = 0 then
          ({ ctx with
              sessions := setSlot ctx.sessions i merged.deactivate
              cntMerged := ctx.cntMerged+1
              cntCompleted := ctx.cntCompleted+1
              partsCompleted := bumpBin ctx.partsCompleted (f.frag.daCtr+1) },
            ⟨1, merged.payload.take f.outCap, merged.dirty⟩)
        else
          ({ ctx with
              sessions := setSlot ctx.sessions i (merged.advance f.frag.daCtr)
              cntMerged := ctx.cntMerged+1 }, .consumed)

theorem packBitsN_lt (b : List UInt8) (off n : Nat) : packBitsN b off n < 2^n := by
  have hword : packBitsN b off n =
      BitWord.ofBits ((List.range n).map fun k => lsb (b.getD (off+k) 0)) := by
    rw [packBitsN, BitWord.ofBits, foldl_map]
    congr 1
    funext v k
    rw [and_one_eq_lsb]
  have hlt := BitWord.ofBits_lt ((List.range n).map fun k => lsb (b.getD (off+k) 0))
  rw [hword]
  simpa using hlt

theorem decodeBlocks_fields (codewords : List UInt8) (is : List Nat)
    (st : SynRegistry × IdaDecoded) :
    (is.foldl (idaDecodeBlock codewords) st).2.daCont = st.2.daCont ∧
    (is.foldl (idaDecodeBlock codewords) st).2.payload = st.2.payload := by
  induction is generalizing st with
  | nil => exact ⟨rfl, rfl⟩
  | cons i is ih =>
    obtain ⟨hc,hp⟩ := ih (idaDecodeBlock codewords st i)
    rw [foldl_cons, hc, hp, idaDecodeBlock]
    split
    split <;> exact ⟨rfl, rfl⟩

theorem parseFields_bounds (out : IdaDecoded) (hc : out.daCont = 0)
    (hp : out.payload = []) : (idaDecodeParseFields out).daCont ≤ 1 ∧
      (idaDecodeParseFields out).payload.length ≤ 24 := by
  rw [idaDecodeParseFields]
  split
  · rw [hc, hp]
    decide
  · have hlt := packBitsN_lt out.bits 3 1
    refine ⟨Nat.le_of_lt_succ hlt, ?_⟩
    rw [length_map, length_range]
    omega

theorem idaDecode_bounds (reg reg' : SynRegistry) (frame : FrameClassify.IridiumFrame)
    (out : IdaDecoded) (h : idaDecode reg frame = (reg', some out)) :
    out.daCont ≤ 1 ∧ out.payload.length ≤ 24 := by
  rw [idaDecode] at h
  by_cases htype : frame.type ≠ .lw ∨ frame.lwSubtype ≠ .da
  · rw [if_pos htype] at h
    cases h
  by_cases hlen : frame.bits.length < 24+46+312
  · rw [if_neg htype, if_pos hlen] at h
    cases h
  obtain ⟨hc,hp⟩ := decodeBlocks_fields
    (idaDecodeBuildCodewords (frame.bits.drop (24+46))) (List.range 10)
    (reg, IdaDecoded.blank)
  rw [if_neg htype, if_neg hlen] at h
  dsimp only at h
  generalize (List.range 10).foldl (idaDecodeBlock
    (idaDecodeBuildCodewords (frame.bits.drop (24+46))))
    (reg, IdaDecoded.blank) = st at h hc hp
  have hout := Option.some.inj (Prod.mk.inj h).2
  rw [← hout]
  exact parseFields_bounds _ hc hp

def fragmentOf (out : IdaDecoded) (h : out.daCont ≤ 1 ∧ out.payload.length ≤ 24) :
    IdaFragment :=
  ⟨out.daCont, out.daCtr, out.payload, h.1, h.2⟩

inductive FeedStep (ctx : IdaReassembler) (f : Feed) :
    (Fin idaReasmMaxSessions → Session) → Nat → FeedResult → Prop
  | standalone (hctr : f.frag.daCtr = 0) (hcont : f.frag.daCont = 0) :
      FeedStep ctx f ctx.sessions ctx.cntOrphan ⟨1, f.frag.payload.take f.outCap, false⟩
  | tableFull (hctr : f.frag.daCtr = 0) (hcont : f.frag.daCont = 1)
      (hfull : ∀ i, (ctx.sessions i).active = true) :
      FeedStep ctx f ctx.sessions ctx.cntOrphan .dropped
  | opened (i : Fin idaReasmMaxSessions) (hctr : f.frag.daCtr = 0) (hcont : f.frag.daCont = 1)
      (hfree : (ctx.sessions i).active = false) :
      FeedStep ctx f (setSlot ctx.sessions i (openSession f)) ctx.cntOrphan .consumed
  | orphan (hctr : 0 < f.frag.daCtr)
      (hnone : ∀ i, (ctx.sessions i).accepts f.uplink f.freqHz f.frag.daCtr f.nowUs = false) :
      FeedStep ctx f ctx.sessions (ctx.cntOrphan+1) .dropped
  | overflow (i : Fin idaReasmMaxSessions) (hctr : 0 < f.frag.daCtr)
      (hacc : (ctx.sessions i).accepts f.uplink f.freqHz f.frag.daCtr f.nowUs = true)
      (hlen : f.frag.payload.length > idaReasmMaxBytes-(ctx.sessions i).payload.length) :
      FeedStep ctx f (setSlot ctx.sessions i (ctx.sessions i).deactivate) ctx.cntOrphan .dropped
  | completed (i : Fin idaReasmMaxSessions) (hctr : 0 < f.frag.daCtr) (hcont : f.frag.daCont = 0)
      (hacc : (ctx.sessions i).accepts f.uplink f.freqHz f.frag.daCtr f.nowUs = true)
      (hlen : ¬ f.frag.payload.length > idaReasmMaxBytes-(ctx.sessions i).payload.length) :
      FeedStep ctx f (setSlot ctx.sessions i ((ctx.sessions i).merge f hlen).deactivate)
        ctx.cntOrphan ⟨1, ((ctx.sessions i).merge f hlen).payload.take f.outCap,
          ((ctx.sessions i).merge f hlen).dirty⟩
  | extended (i : Fin idaReasmMaxSessions) (hctr : 0 < f.frag.daCtr) (hcont : f.frag.daCont = 1)
      (hacc : (ctx.sessions i).accepts f.uplink f.freqHz f.frag.daCtr f.nowUs = true)
      (hlen : ¬ f.frag.payload.length > idaReasmMaxBytes-(ctx.sessions i).payload.length) :
      FeedStep ctx f
        (setSlot ctx.sessions i (((ctx.sessions i).merge f hlen).advance f.frag.daCtr))
        ctx.cntOrphan .consumed

theorem feedEx_step (ctx : IdaReassembler) (f : Feed) :
    FeedStep ctx f (idaReassemblerFeedEx ctx f).1.sessions
      (idaReassemblerFeedEx ctx f).1.cntOrphan (idaReassemblerFeedEx ctx f).2 := by
  have hle := f.frag.cont_le
  unfold idaReassemblerFeedEx
  by_cases h0 : f.frag.daCtr = 0
  · by_cases hc : f.frag.daCont = 0
    · rw [if_pos ⟨h0, hc⟩]
      exact .standalone h0 hc
    rw [if_neg (fun h => hc h.2), if_pos ⟨h0, hc⟩]
    cases hfree : findFreeSession ctx with
    | none =>
      refine .tableFull h0 (by omega) fun i => ?_
      simpa using firstSlot_none hfree i
    | some i =>
      refine .opened i h0 (by omega) ?_
      simpa using firstSlot_some hfree
  · rw [if_neg (fun h => h0 h.1), if_neg (fun h => h0 h.1)]
    have hpos : 0 < f.frag.daCtr := by omega
    cases hmatch : findMatchingSession ctx f.uplink f.freqHz f.frag.daCtr f.nowUs with
    | none => exact .orphan hpos fun i => lastSlot_none hmatch i
    | some i =>
      have hacc := lastSlot_some hmatch
      by_cases hlen : f.frag.payload.length > idaReasmMaxBytes-(ctx.sessions i).payload.length
      · simp only [dif_pos hlen]
        exact .overflow i hpos hacc hlen
      · simp only [dif_neg hlen]
        split_ifs with hc
        · exact .completed i hpos hc hacc hlen
        · exact .extended i hpos (by omega) hacc hlen

inductive ReapStep (ctx : IdaReassembler) (nowUs : Nat) :
    (Fin idaReasmMaxSessions → Session) → Option IdaSalvage → Prop
  | notDue (h : ∀ i, (ctx.sessions i).due nowUs = false) : ReapStep ctx nowUs ctx.sessions none
  | reaped (i : Fin idaReasmMaxSessions) (h : (ctx.sessions i).due nowUs = true) :
      ReapStep ctx nowUs (setSlot ctx.sessions i (ctx.sessions i).deactivate)
        (some ⟨(ctx.sessions i).payload.take idaReasmMaxBytes, (ctx.sessions i).uplink,
          (ctx.sessions i).freqHz, (ctx.sessions i).lastTimeUs, (ctx.sessions i).nextCtr,
          (ctx.sessions i).dirty⟩)

theorem reap_step (ctx : IdaReassembler) (nowUs : Nat) :
    ReapStep ctx nowUs (idaReassemblerReap ctx nowUs).1.sessions (idaReassemblerReap ctx nowUs).2 ∧
    (idaReassemblerReap ctx nowUs).1.cntOrphan = ctx.cntOrphan := by
  unfold idaReassemblerReap
  cases hdue : firstSlot (fun s => s.due nowUs) ctx.sessions with
  | none => exact ⟨.notDue fun i => firstSlot_none hdue i, rfl⟩
  | some i => exact ⟨.reaped i (firstSlot_some hdue), rfl⟩

end IridiumAcars.IdaReasm
