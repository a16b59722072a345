import IridiumAcars.Lib.SlotTable

/-! The SBD reassembler of sbd_reassembler.c: envelope parser, session table, dispatch. -/
namespace IridiumAcars.SbdReasm
open SlotTable

def sbdMaxSessions : Nat := 8
def sbdMaxPayload : Nat := 320
def sbdTimeoutUs : Nat := 5*1000000
def sbdMsgCntMax : Nat := 32

inductive SbdType where
  | unknown
  | hello0600
  | dataDl7608
  | dataDl7609
  | dataDl760A
  | dataDl760B
  | dataUl760C
  | dataUl760D
  | dataUl760E
deriving DecidableEq, Repr

/-- By the first two bytes; the data types belong to one direction each. -/
def classify (p : List UInt8) (uplink : Bool) : SbdType :=
  if p.length < 2 then .unknown
  else if p.getD 0 0 = 0x06 ∧ p.getD 1 0 = 0x00 then .hello0600
  else if p.getD 0 0 = 0x76 then
    if uplink then
      if p.getD 1 0 = 0x0c then .dataUl760C
      else if p.getD 1 0 = 0x0d then .dataUl760D
      else if p.getD 1 0 = 0x0e then .dataUl760E
      else .unknown
    else
      if p.getD 1 0 = 0x08 then .dataDl7608
      else if p.getD 1 0 = 0x09 then .dataDl7609
      else if p.getD 1 0 = 0x0a then .dataDl760A
      else if p.getD 1 0 = 0x0b then .dataDl760B
      else .unknown
  else .unknown

/-- What the parser hands to the dispatch; a `msgCnt` of -1 is unknown. -/
structure Parsed where
  typ : SbdType
  msgCnt : Int
  msgNo : Nat
  body : List UInt8
deriving DecidableEq

/-- The 0x06 0x00 path; the prehdr may be cut short, but not before the message count. -/
def parseHello (p : List UInt8) : Option Parsed :=
  if p.length < 1 ∨ p.getD 0 0 ≠ 0x20 then none
  else if p.length < 16 then none
  else
    let msgCnt := (p.getD 15 0).toNat
    some ⟨.hello0600, msgCnt, if msgCnt = 0 then 0 else 1, p.drop (min p.length 29)⟩

def prehdrLen (p : List UInt8) : Nat :=
  if p.length ≥ 1 ∧ p.getD 0 0 = 0x26 then 7
  else if p.length ≥ 1 ∧ p.getD 0 0 = 0x20 then 5
  else 7

/-- Message count and rest; only 0x76 0x08 has a prehdr. -/
def parsePrehdr (typ : SbdType) (p : List UInt8) : Option (Int × List UInt8) :=
  if typ = .dataDl7608 then
    if p.length < prehdrLen p then none
    else some ((p.getD 3 0).toNat, p.drop (prehdrLen p))
  else some (-1, p)

def skipAck (uplink : Bool) (p : List UInt8) : List UInt8 :=
  if uplink ∧ p.length ≥ 3 ∧ (p.getD 0 0 = 0x50 ∨ p.getD 0 0 = 0x51) then p.drop 3 else p

/-- Message number and body behind the optional 0x10 sub-header. -/
def parseSubHeader (p : List UInt8) : Option (Nat × List UInt8) :=
  if p.length = 0 then some (0, p)
  else if p.length > 3 ∧ p.getD 0 0 = 0x10 then
    let hdrPayloadLen := (p.getD 1 0).toNat
    if (p.drop 3).length < hdrPayloadLen then none
    else some ((p.getD 2 0).toNat, (p.drop 3).take hdrPayloadLen)
  else some (0, p)

def parseData (typ : SbdType) (uplink : Bool) (p : List UInt8) : Option Parsed := do
  let (msgCnt, q) ← parsePrehdr typ p
  let (msgNo, body) ← parseSubHeader (skipAck uplink q)
  return ⟨typ, msgCnt, msgNo, body⟩

/-- What `sbd_reassembler_feed` does before it looks at a session; `none` is "filtered". -/
def parseEnvelope (payload : List UInt8) (uplink : Bool) : Option Parsed :=
  if payload.length < 5 then none
  else match classify payload uplink with
    | .unknown => none
    | .hello0600 => parseHello (payload.drop 2)
    | typ => parseData typ uplink (payload.drop 2)

structure SbdMessage where
  typ : SbdType
  uplink : Bool
  timestampUs : Nat
  payload : List UInt8
  msgCount : Nat
  msgNo : Nat
deriving DecidableEq

structure Session where
  active : Bool
  typ : SbdType
  uplink : Bool
  msgNoNext : Nat
  msgCnt : Nat
  lastUpdateUs : Nat
  msg : SbdMessage
deriving DecidableEq

def Session.zero : Session := ⟨false, .unknown, false, 0, 0, 0, ⟨.unknown, false, 0, [], 0, 0⟩⟩

structure SbdReassembler where
  sessions : Fin sbdMaxSessions → Session
  cntShort : Nat
  cntSingle : Nat
  cntAssembled : Nat
  cntMulti : Nat
  cntBroken : Nat
  cntFiltered : Nat

def SbdReassembler.init : SbdReassembler := ⟨fun _ => .zero, 0, 0, 0, 0, 0, 0⟩

def findFreeSession (ctx : SbdReassembler) : Option (Fin sbdMaxSessions) :=
  firstSlot (fun s => !s.active) ctx.sessions

def Session.awaits (s : Session) (msgNo : Nat) (uplink : Bool) (typ : SbdType) : Bool :=
  s.active && s.msgNoNext == msgNo && s.uplink == uplink && s.typ == typ

def findMatchingSession (ctx : SbdReassembler) (msgNo : Nat) (uplink : Bool) (typ : SbdType) :
    Option (Fin sbdMaxSessions) :=
  lastSlot (fun s => s.awaits msgNo uplink typ) ctx.sessions

def Session.stale (s : Session) (nowUs : Nat) : Bool :=
  s.active && decide (nowUs > s.lastUpdateUs) && decide (nowUs-s.lastUpdateUs > sbdTimeoutUs)

def Session.expire (s : Session) (nowUs : Nat) : Session :=
  if s.stale nowUs then { s with active := false } else s

def sbdReassemblerTick (ctx : SbdReassembler) (nowUs : Nat) : SbdReassembler :=
  { ctx with
    sessions := fun i => (ctx.sessions i).expire nowUs
    cntBroken := ctx.cntBroken +
      ((List.finRange sbdMaxSessions).filter fun i => (ctx.sessions i).stale nowUs).length }

structure Feed where
  payload : List UInt8
  uplink : Bool
  nowUs : Nat
deriving DecidableEq

structure FeedResult where
  ret : Int
  out : Option SbdMessage
deriving DecidableEq

def openSession (f : Feed) (e : Parsed) : Session :=
  ⟨true, e.typ, f.uplink, 2, e.msgCnt.toNat%256, f.nowUs,
    ⟨e.typ, f.uplink, f.nowUs, e.body.take sbdMaxPayload, e.msgCnt.toNat%256, 1⟩⟩

def Session.extend (s : Session) (f : Feed) (e : Parsed) : Session :=
  { s with
    msgNoNext := (e.msgNo+1)%256
    lastUpdateUs := f.nowUs
    msg := { s.msg with
      payload := s.msg.payload ++
        (e.body.take sbdMaxPayload).take (sbdMaxPayload-s.msg.payload.length)
      msgNo := e.msgNo } }

def dispatch (ctx : SbdReassembler) (f : Feed) (e : Parsed) : SbdReassembler × FeedResult :=
  if e.msgNo = 0 then
    ({ ctx with cntShort := ctx.cntShort+1 },
      ⟨1, some ⟨e.typ, f.uplink, f.nowUs, e.body.take sbdMaxPayload,
        if e.msgCnt > 0 then e.msgCnt.toNat%256 else 1, 0⟩⟩)
  else if e.msgCnt = 1 ∧ e.msgNo = 1 then
    ({ ctx with cntSingle := ctx.cntSingle+1 },
      ⟨1, some ⟨e.typ, f.uplink, f.nowUs, e.body.take sbdMaxPayload, 1, 1⟩⟩)
  else if e.msgCnt > 1 ∧ e.msgCnt ≤ sbdMsgCntMax ∧ e.msgNo = 1 then
    match findFreeSession ctx with
    | none => ({ ctx with cntBroken := ctx.cntBroken+1 }, ⟨0, none⟩)
    | some i =>
      ({ ctx with
          sessions := setSlot ctx.sessions i (openSession f e)
          cntAssembled := ctx.cntAssembled+1 }, ⟨0, none⟩)
  else if e.msgNo > 1 then
    match findMatchingSession ctx e.msgNo f.uplink e.typ with
    | none => ({ ctx with cntBroken := ctx.cntBroken+1 }, ⟨0, none⟩)
    | some i =>
      let s := (ctx.sessions i).extend f e
      if e.msgNo = s.msgCnt then
        ({ ctx with
            sessions := setSlot ctx.sessions i { s with active := false }
            cntAssembled := ctx.cntAssembled+1
            cntMulti := ctx.cntMulti+1 }, ⟨1, some s.msg⟩)
      else
        ({ ctx with
            sessions := setSlot ctx.sessions i s
            cntAssembled := ctx.cntAssembled+1 }, ⟨0, none⟩)
  else ({ ctx with cntFiltered := ctx.cntFiltered+1 }, ⟨-1, none⟩)

def sbdReassemblerFeed (ctx : SbdReassembler) (f : Feed) : SbdReassembler × FeedResult :=
  match parseEnvelope f.payload f.uplink with
  | none => ({ ctx with cntFiltered := ctx.cntFiltered+1 }, ⟨-1, none⟩)
  | some e => dispatch (sbdReassemblerTick ctx f.nowUs) f e

def sweep (slots : Fin sbdMaxSessions → Session) (nowUs : Nat) : Fin sbdMaxSessions → Session :=
  fun i => (slots i).expire nowUs

inductive FeedStep (slots : Fin sbdMaxSessions → Session) (f : Feed) :
    (Fin sbdMaxSessions → Session) → FeedResult → Prop
  | filtered (hparse : parseEnvelope f.payload f.uplink = none) : FeedStep slots f slots ⟨-1, none⟩
  | short (e : Parsed) (hparse : parseEnvelope f.payload f.uplink = some e) (hno : e.msgNo = 0)
      (count : Nat) :
      FeedStep slots f (sweep slots f.nowUs)
        ⟨1, some ⟨e.typ, f.uplink, f.nowUs, e.body.take sbdMaxPayload, count, 0⟩⟩
  | single (e : Parsed) (hparse : parseEnvelope f.payload f.uplink = some e) (hno : e.msgNo = 1)
      (hcnt : e.msgCnt = 1) :
      FeedStep slots f (sweep slots f.nowUs)
        ⟨1, some ⟨e.typ, f.uplink, f.nowUs, e.body.take sbdMaxPayload, 1, 1⟩⟩
  | tableFull (e : Parsed) (hparse : parseEnvelope f.payload f.uplink = some e)
      (hno : e.msgNo = 1) (hfull : ∀ i, (sweep slots f.nowUs i).active = true) :
      FeedStep slots f (sweep slots f.nowUs) ⟨0, none⟩
  | opened (e : Parsed) (i : Fin sbdMaxSessions)
      (hparse : parseEnvelope f.payload f.uplink = some e) (hno : e.msgNo = 1)
      (hcnt : 1 < e.msgCnt ∧ e.msgCnt ≤ sbdMsgCntMax)
      (hfree : (sweep slots f.nowUs i).active = false) :
      FeedStep slots f (setSlot (sweep slots f.nowUs) i (openSession f e)) ⟨0, none⟩
  | unmatched (e : Parsed) (hparse : parseEnvelope f.payload f.uplink = some e)
      (hno : 1 < e.msgNo)
      (hnone : ∀ i, (sweep slots f.nowUs i).awaits e.msgNo f.uplink e.typ = false) :
      FeedStep slots f (sweep slots f.nowUs) ⟨0, none⟩
  | completed (e : Parsed) (i : Fin sbdMaxSessions)
      (hparse : parseEnvelope f.payload f.uplink = some e) (hno : 1 < e.msgNo)
      (hawait : (sweep slots f.nowUs i).awaits e.msgNo f.uplink e.typ = true)
      (hlast : e.msgNo = (sweep slots f.nowUs i).msgCnt) :
      FeedStep slots f (setSlot (sweep slots f.nowUs) i
          { (sweep slots f.nowUs i).extend f e with active := false })
        ⟨1, some ((sweep slots f.nowUs i).extend f e).msg⟩
  | extended (e : Parsed) (i : Fin sbdMaxSessions)
      (hparse : parseEnvelope f.payload f.uplink = some e) (hno : 1 < e.msgNo)
      (hawait : (sweep slots f.nowUs i).awaits e.msgNo f.uplink e.typ = true)
      (hmore : e.msgNo ≠ (sweep slots f.nowUs i).msgCnt) :
      FeedStep slots f (setSlot (sweep slots f.nowUs) i ((sweep slots f.nowUs i).extend f e))
        ⟨0, none⟩
  | stray (e : Parsed) (hparse : parseEnvelope f.payload f.uplink = some e) (hno : e.msgNo = 1)
      (hcnt : e.msgCnt ≤ 0 ∨ sbdMsgCntMax < e.msgCnt) :
      FeedStep slots f (sweep slots f.nowUs) ⟨-1, none⟩

theorem feed_step (ctx : SbdReassembler) (f : Feed) :
    FeedStep ctx.sessions f (sbdReassemblerFeed ctx f).1.sessions (sbdReassemblerFeed ctx f).2 := by
  unfold sbdReassemblerFeed
  cases hparse : parseEnvelope f.payload f.uplink with
  | none => exact .filtered hparse
  | some e =>
    dsimp only [dispatch]
    by_cases h0 : e.msgNo = 0
    · rw [if_pos h0]
      exact .short e hparse h0 _
    rw [if_neg h0]
    by_cases h1 : e.msgCnt = 1 ∧ e.msgNo = 1
    · rw [if_pos h1]
      exact .single e hparse h1.2 h1.1
    rw [if_neg h1]
    by_cases h2 : e.msgCnt > 1 ∧ e.msgCnt ≤ sbdMsgCntMax ∧ e.msgNo = 1
    · rw [if_pos h2]
      cases hfree : findFreeSession (sbdReassemblerTick ctx f.nowUs) with
      | none =>
        refine .tableFull e hparse h2.2.2 fun i => ?_
        have hi := firstSlot_none hfree i
        rwa [Bool.not_eq_false'] at hi
      | some i =>
        refine .opened e i hparse h2.2.2 ⟨h2.1, h2.2.1⟩ ?_
        have hi := firstSlot_some hfree
        rwa [Bool.not_eq_true'] at hi
    rw [if_neg h2]
    by_cases h3 : e.msgNo > 1
    · rw [if_pos h3]
      cases hmatch :
          findMatchingSession (sbdReassemblerTick ctx f.nowUs) e.msgNo f.uplink e.typ with
      | none => exact .unmatched e hparse h3 fun i => lastSlot_none hmatch i
      | some i =>
        have hawait := lastSlot_some hmatch
        dsimp only
        split_ifs with hlast
        · exact .completed e i hparse h3 hawait hlast
        · exact .extended e i hparse h3 hawait hlast
    · rw [if_neg h3]
      exact .stray e hparse (by omega) (by omega)

end IridiumAcars.SbdReasm
