import IridiumAcars.SbdReasm

/-! `sbd_salvage_parse` of sbd_reassembler.c takes the same branches as the parser of the feed. -/
namespace IridiumAcars.SbdSalvage
open SbdReasm List

/-- `sbd_salvage_info_t`; the body is an offset into the payload, or NULL. -/
structure SalvageInfo where
  typ : SbdType
  truncated : Bool
  msgNo : Nat
  msgCnt : Int
  body : Option Nat
  bodyLen : Nat
deriving DecidableEq

def SalvageInfo.blank : SalvageInfo := ⟨.unknown, false, 0, -1, none, 0⟩

def SalvageInfo.bytes (info : SalvageInfo) (payload : List UInt8) : List UInt8 :=
  match info.body with
  | none => []
  | some p => (payload.drop p).take info.bodyLen

structure Walk where
  p : Nat
  n : Nat
  msgCnt : Int
  msgNo : Nat
  truncated : Bool

namespace Walk
variable (payload : List UInt8)

def start : Walk := ⟨2, payload.length-2, -1, 0, false⟩

def byte (w : Walk) (k : Nat) : UInt8 := payload.getD (w.p+k) 0

def skip (w : Walk) (k : Nat) : Walk := { w with p := w.p+k, n := w.n-k }

def cut (w : Walk) : Walk := { w with n := 0, truncated := true }

def hello (w : Walk) : Option Walk :=
  if w.n < 1 then some w.cut
  else if w.byte payload 0 ≠ 0x20 then none
  else if w.n < 16 then some w.cut
  else
    let msgCnt := (w.byte payload 15).toNat
    some ({ w with msgCnt := msgCnt, msgNo := if msgCnt = 0 then 0 else 1 }.skip (min w.n 29))

def prehdrLen (w : Walk) : Nat :=
  if w.n ≥ 1 ∧ w.byte payload 0 = 0x26 then 7
  else if w.n ≥ 1 ∧ w.byte payload 0 = 0x20 then 5
  else 7

def prehdr (w : Walk) : Walk :=
  if w.n ≥ w.prehdrLen payload then
    { w with msgCnt := (w.byte payload 3).toNat }.skip (w.prehdrLen payload)
  else w.cut

def ack (w : Walk) (uplink : Bool) : Walk :=
  if uplink ∧ w.n ≥ 3 ∧ (w.byte payload 0 = 0x50 ∨ w.byte payload 0 = 0x51) then w.skip 3 else w

def bound (w : Walk) (hdrPayloadLen : Nat) : Walk :=
  if w.n < hdrPayloadLen then { w with truncated := true }
  else if w.n > hdrPayloadLen then { w with n := hdrPayloadLen }
  else w

def subHeader (w : Walk) : Walk :=
  if w.n = 0 then { w with msgNo := 0 }
  else if w.n > 3 ∧ w.byte payload 0 = 0x10 then
    ({ w with msgNo := (w.byte payload 2).toNat }.skip 3).bound (w.byte payload 1).toNat
  else { w with msgNo := 0 }

def data (w : Walk) (typ : SbdType) (uplink : Bool) : Walk :=
  let w := if typ = .dataDl7608 then w.prehdr payload else w
  if w.truncated then w else (w.ack payload uplink).subHeader payload

def finish (w : Walk) (typ : SbdType) : SalvageInfo :=
  let n := min w.n sbdMaxPayload
  ⟨typ, w.truncated, w.msgNo, w.msgCnt, if n > 0 then some w.p else none, n⟩

end Walk

/-- The return code and what is written through `out`. -/
def sbdSalvageParse (payload : List UInt8) (uplink : Bool) : Nat × SalvageInfo :=
  let typ := classify payload uplink
  if typ = .unknown then (0, .blank)
  else if typ = .hello0600 then
    match (Walk.start payload).hello payload with
    | none => (0, .blank)
    | some w => (1, w.finish typ)
  else (1, ((Walk.start payload).data payload typ uplink).finish typ)

inductive Reject where
  | length
  | unknownType
  | helloMarker
  | helloPrehdr
  | prehdr
  | body
deriving DecidableEq

def shortfalls : List Reject := [.helloPrehdr, .prehdr, .body]

def mismatches : List Reject := [.unknownType, .helloMarker]

def rejectHello (p : List UInt8) : Option Reject :=
  if p.length < 1 ∨ p.getD 0 0 ≠ 0x20 then some .helloMarker
  else if p.length < 16 then some .helloPrehdr
  else none

def rejectSubHeader (p : List UInt8) : Option Reject :=
  if p.length > 3 ∧ p.getD 0 0 = 0x10 ∧ (p.drop 3).length < (p.getD 1 0).toNat then some .body
  else none

def rejectData (typ : SbdType) (uplink : Bool) (p : List UInt8) : Option Reject :=
  match parsePrehdr typ p with
  | none => some .prehdr
  | some (_, q) => rejectSubHeader (skipAck uplink q)

/-- Where `sbd_reassembler_feed` filters an envelope, if it does before the dispatch. -/
def rejection (payload : List UInt8) (uplink : Bool) : Option Reject :=
  let typ := classify payload uplink
  if payload.length < 5 then some .length
  else if typ = .unknown then some .unknownType
  else if typ = .hello0600 then rejectHello (payload.drop 2)
  else rejectData typ uplink (payload.drop 2)

structure Views (payload : List UInt8) (w : Walk) (q : List UInt8) : Prop where
  rest : payload.drop w.p = q
  count : w.n = q.length
  whole : w.truncated = false

section
variable {payload : List UInt8} {w : Walk} {q : List UInt8}

theorem views_start (payload : List UInt8) : Views payload (Walk.start payload) (payload.drop 2) :=
  ⟨rfl, length_drop.symm, rfl⟩

theorem Views.byte (h : Views payload w q) (k : Nat) : w.byte payload k = q.getD k 0 := by
  rw [← h.rest, getD_eq_getElem?_getD, getElem?_drop, Walk.byte, getD_eq_getElem?_getD]

theorem Views.skip (h : Views payload w q) (k : Nat) : Views payload (w.skip k) (q.drop k) where
  rest := by
    rw [← h.rest, drop_drop]
    rfl
  count := by
    rw [length_drop, ← h.count]
    rfl
  whole := h.whole

theorem Views.counters (h : Views payload w q) (msgCnt : Int) (msgNo : Nat) :
    Views payload { w with msgCnt := msgCnt, msgNo := msgNo } q := ⟨h.rest, h.count, h.whole⟩

theorem Views.prehdrLen (h : Views payload w q) : w.prehdrLen payload = SbdReasm.prehdrLen q := by
  rw [Walk.prehdrLen, SbdReasm.prehdrLen, h.byte, h.count]

theorem Views.ack (h : Views payload w q) (uplink : Bool) :
    Views payload (w.ack payload uplink) (skipAck uplink q) := by
  rw [Walk.ack, skipAck, h.byte, h.count]
  split
  · exact h.skip 3
  · exact h

theorem msgCnt_ack (w : Walk) (uplink : Bool) : (w.ack payload uplink).msgCnt = w.msgCnt := by
  rw [Walk.ack]
  split <;> rfl

end

inductive Agrees (payload : List UInt8) : Option Parsed → Option Reject → Nat × SalvageInfo → Prop
  | parsed (e : Parsed) (w : Walk) (hcnt : w.msgCnt = e.msgCnt) (hno : w.msgNo = e.msgNo)
      (hwhole : w.truncated = false) (hbody : e.body = (payload.drop w.p).take w.n) :
      Agrees payload (some e) none (1, w.finish e.typ)
  | short (r : Reject) (hr : r ∈ shortfalls) (typ : SbdType) (w : Walk)
      (hcut : w.truncated = true) : Agrees payload none (some r) (1, w.finish typ)
  | rejected (r : Reject) (hr : r ∈ mismatches) : Agrees payload none (some r) (0, .blank)

section
variable {payload : List UInt8} {w : Walk} {q : List UInt8}

theorem Views.body (h : Views payload w q) : q = (payload.drop w.p).take w.n := by
  rw [h.rest, h.count, take_length]

theorem agrees_hello (h : Views payload w q) (hn : 1 ≤ w.n) :
    Agrees payload (parseHello q) (rejectHello q)
      (match w.hello payload with
        | none => (0, .blank)
        | some w => (1, w.finish .hello0600)) := by
  have hcount := h.count
  have hwalk : ¬ w.n < 1 := by omega
  by_cases hmark : q.getD 0 0 = 0x20
  · have hpass : ¬ (q.length < 1 ∨ q.getD 0 0 ≠ 0x20) := by
      rintro (hlt | hne)
      · omega
      · exact hne hmark
    have hbyte : ¬ w.byte payload 0 ≠ 0x20 := not_not_intro ((h.byte 0).trans hmark)
    by_cases hlen : w.n < 16
    · rw [parseHello, if_neg hpass, if_pos (by omega), rejectHello, if_neg hpass, if_pos (by omega),
        Walk.hello, if_neg hwalk, if_neg hbyte, if_pos hlen]
      exact .short _ (by decide) _ _ rfl
    · rw [parseHello, if_neg hpass, if_neg (by omega), rejectHello, if_neg hpass, if_neg (by omega),
        Walk.hello, if_neg hwalk, if_neg hbyte, if_neg hlen, h.byte, hcount]
      refine .parsed _ _ rfl rfl h.whole ?_
      have hbody := (h.skip (min q.length 29)).body
      rwa [Walk.skip, hcount] at hbody
  · have hfail : q.length < 1 ∨ q.getD 0 0 ≠ 0x20 := .inr hmark
    have hbyte : w.byte payload 0 ≠ 0x20 := fun hb => hmark ((h.byte 0).symm.trans hb)
    rw [parseHello, if_pos hfail, rejectHello, if_pos hfail, Walk.hello, if_neg hwalk, if_pos hbyte]
    exact .rejected _ (by decide)

theorem agrees_bound (h : Views payload w q) (typ : SbdType) (len : Nat) :
    Agrees payload (if q.length < len then none else some ⟨typ, w.msgCnt, w.msgNo, q.take len⟩)
      (if q.length < len then some .body else none) (1, (w.bound len).finish typ) := by
  have hcount := h.count
  rw [Walk.bound, hcount]
  by_cases hlen : q.length < len
  · rw [if_pos hlen, if_pos hlen, if_pos hlen]
    exact .short _ (by decide) _ _ rfl
  · rw [if_neg hlen, if_neg hlen, if_neg hlen]
    split_ifs with hmore
    · rw [← h.rest]
      exact .parsed ⟨typ, w.msgCnt, w.msgNo, _⟩ { w with n := len } rfl rfl h.whole rfl
    · rw [take_of_length_le (by omega)]
      exact .parsed ⟨typ, w.msgCnt, w.msgNo, q⟩ w rfl rfl h.whole h.body

theorem agrees_subHeader (h : Views payload w q) (typ : SbdType) :
    Agrees payload ((parseSubHeader q).map fun r => ⟨typ, w.msgCnt, r.1, r.2⟩) (rejectSubHeader q)
      (1, (w.subHeader payload).finish typ) := by
  have hcount := h.count
  have hplain : Agrees payload (some ⟨typ, w.msgCnt, 0, q⟩) none
      (1, { w with msgNo := 0 }.finish typ) :=
    .parsed ⟨typ, w.msgCnt, 0, q⟩ { w with msgNo := 0 } rfl rfl h.whole h.body
  by_cases hzero : w.n = 0
  · rwa [parseSubHeader, if_pos (by omega), rejectSubHeader, if_neg (by omega), Walk.subHeader,
      if_pos hzero]
  by_cases hsub : q.length > 3 ∧ q.getD 0 0 = 0x10
  · have hsub' : w.n > 3 ∧ w.byte payload 0 = 0x10 := ⟨by omega, (h.byte 0).trans hsub.2⟩
    have hbound :=
      agrees_bound ((h.counters w.msgCnt (q.getD 2 0).toNat).skip 3) typ (q.getD 1 0).toNat
    have hreject : rejectSubHeader q =
        if (q.drop 3).length < (q.getD 1 0).toNat then some .body else none := by
      simp only [rejectSubHeader, hsub.1, hsub.2, true_and]
    have hparse : ((parseSubHeader q).map fun r => Parsed.mk typ w.msgCnt r.1 r.2) =
        if (q.drop 3).length < (q.getD 1 0).toNat then none
        else some ⟨typ, w.msgCnt, (q.getD 2 0).toNat, (q.drop 3).take (q.getD 1 0).toNat⟩ := by
      rw [parseSubHeader, if_neg (by omega), if_pos hsub]
      dsimp only
      split <;> rfl
    rwa [hparse, hreject, Walk.subHeader, if_neg hzero, if_pos hsub', h.byte, h.byte]
  · have hsub' : ¬ (w.n > 3 ∧ w.byte payload 0 = 0x10) := fun hc =>
      hsub ⟨by omega, (h.byte 0).symm.trans hc.2⟩
    rwa [parseSubHeader, if_neg (by omega), if_neg hsub, rejectSubHeader,
      if_neg fun hc => hsub ⟨hc.1, hc.2.1⟩, Walk.subHeader, if_neg hzero, if_neg hsub']

theorem agrees_rest (h : Views payload w q) (typ : SbdType) (uplink : Bool) :
    Agrees payload ((parseSubHeader (skipAck uplink q)).map fun r => ⟨typ, w.msgCnt, r.1, r.2⟩)
      (rejectSubHeader (skipAck uplink q))
      (1, ((w.ack payload uplink).subHeader payload).finish typ) := by
  have hrest := agrees_subHeader (h.ack uplink) typ
  rwa [msgCnt_ack] at hrest

theorem parseData_of_prehdr {typ : SbdType} {uplink : Bool} {msgCnt : Int} {p : List UInt8}
    (h : parsePrehdr typ p = some (msgCnt, q)) :
    parseData typ uplink p =
      (parseSubHeader (skipAck uplink q)).map fun r => ⟨typ, msgCnt, r.1, r.2⟩ := by
  simp only [parseData, h, Option.bind_eq_bind, Option.bind_some]
  cases parseSubHeader (skipAck uplink q) <;> rfl

theorem agrees_data (h : Views payload w q) (hcnt : w.msgCnt = -1) (typ : SbdType) (uplink : Bool) :
    Agrees payload (parseData typ uplink q) (rejectData typ uplink q)
      (1, (w.data payload typ uplink).finish typ) := by
  have hcount := h.count
  have hprehdr := h.prehdrLen
  by_cases htyp : typ = .dataDl7608
  · by_cases hlen : q.length < prehdrLen q
    · have hshort : ¬ w.n ≥ w.prehdrLen payload := by omega
      have hcut : w.data payload typ uplink = w.cut := by
        rw [Walk.data, if_pos htyp, Walk.prehdr, if_neg hshort]
        rfl
      have hnone : parsePrehdr typ q = none := by
        rw [parsePrehdr, if_pos htyp, if_pos hlen]
      rw [hcut, parseData, rejectData, hnone]
      exact .short _ (by decide) _ _ rfl
    · have hfull : w.n ≥ w.prehdrLen payload := by omega
      have hsome : parsePrehdr typ q = some (((q.getD 3 0).toNat : Int), q.drop (prehdrLen q)) := by
        rw [parsePrehdr, if_pos htyp, if_neg hlen]
      have hview : Views payload (w.prehdr payload) (q.drop (prehdrLen q)) := by
        rw [Walk.prehdr, if_pos hfull, hprehdr]
        exact (h.counters _ w.msgNo).skip _
      have hcnt' : (w.prehdr payload).msgCnt = (q.getD 3 0).toNat := by
        rw [Walk.prehdr, if_pos hfull, h.byte]
        rfl
      have hdata : w.data payload typ uplink =
          ((w.prehdr payload).ack payload uplink).subHeader payload := by
        rw [Walk.data, if_pos htyp]
        exact if_neg (by rw [hview.whole]; decide)
      rw [parseData_of_prehdr hsome, rejectData, hsome, hdata, ← hcnt']
      exact agrees_rest hview typ uplink
  · have hsome : parsePrehdr typ q = some (-1, q) := by
      rw [parsePrehdr, if_neg htyp]
    have hdata : w.data payload typ uplink = (w.ack payload uplink).subHeader payload := by
      rw [Walk.data, if_neg htyp]
      exact if_neg (by rw [h.whole]; decide)
    rw [parseData_of_prehdr hsome, rejectData, hsome, hdata, ← hcnt]
    exact agrees_rest h typ uplink

theorem agrees (uplink : Bool) (hlen : 5 ≤ payload.length) :
    Agrees payload (parseEnvelope payload uplink) (rejection payload uplink)
      (sbdSalvageParse payload uplink) := by
  have hview := views_start payload
  have hn : 1 ≤ (Walk.start payload).n := Nat.le_trans (by decide) (Nat.sub_le_sub_right hlen 2)
  have hdata (typ : SbdType) := agrees_data hview rfl typ uplink
  rw [parseEnvelope, if_neg (by omega), rejection, if_neg (by omega), sbdSalvageParse]
  cases classify payload uplink with
  | unknown => exact .rejected _ (by decide)
  | hello0600 => exact agrees_hello hview hn
  | _ =>
    exact hdata _

end

section
variable {payload : List UInt8} {w : Walk}

def Inside (payload : List UInt8) (w : Walk) : Prop := w.p+w.n ≤ payload.length

theorem Inside.skip (h : Inside payload w) {k : Nat} (hk : k ≤ w.n) :
    Inside payload (w.skip k) := by
  unfold Inside Walk.skip at *
  dsimp only
  omega

theorem Inside.cut (h : Inside payload w) : Inside payload w.cut :=
  Nat.le_trans (Nat.add_le_add_left (Nat.zero_le _) _) h

theorem Inside.hello (h : Inside payload w) {w' : Walk} (hw : w.hello payload = some w') :
    Inside payload w' := by
  rw [Walk.hello] at hw
  split at hw
  · cases hw
    exact h.cut
  · split at hw
    · cases hw
    · split at hw
      · cases hw
        exact h.cut
      · cases hw
        exact Inside.skip h (Nat.min_le_left _ _)

theorem Inside.prehdr (h : Inside payload w) : Inside payload (w.prehdr payload) := by
  rw [Walk.prehdr]
  split
  case isTrue hle => exact Inside.skip h hle
  case isFalse => exact h.cut

theorem Inside.ack (h : Inside payload w) (uplink : Bool) :
    Inside payload (w.ack payload uplink) := by
  rw [Walk.ack]
  split
  case isTrue hc => exact h.skip hc.2.1
  case isFalse => exact h

theorem Inside.bound (h : Inside payload w) (len : Nat) : Inside payload (w.bound len) := by
  rw [Walk.bound]
  split
  · exact h
  · split
    case isTrue hgt => exact Nat.le_trans (Nat.add_le_add_left (Nat.le_of_lt hgt) _) h
    case isFalse => exact h

theorem Inside.subHeader (h : Inside payload w) : Inside payload (w.subHeader payload) := by
  rw [Walk.subHeader]
  split
  · exact h
  · split
    case isTrue hc =>
      exact (Inside.skip (w := { w with msgNo := (w.byte payload 2).toNat }) h
        (Nat.le_of_lt hc.1)).bound _
    case isFalse => exact h

theorem Inside.data (h : Inside payload w) (typ : SbdType) (uplink : Bool) :
    Inside payload (w.data payload typ uplink) := by
  have hpre : Inside payload (if typ = .dataDl7608 then w.prehdr payload else w) := by
    split
    · exact h.prehdr
    · exact h
  generalize hv : (if typ = .dataDl7608 then w.prehdr payload else w) = v at hpre
  have hdata : w.data payload typ uplink =
      if v.truncated then v else (v.ack payload uplink).subHeader payload := by
    rw [← hv]
    rfl
  rw [hdata]
  split
  · exact hpre
  · exact (hpre.ack uplink).subHeader

def SalvageInfo.InRange (info : SalvageInfo) (payload : List UInt8) : Prop :=
  (∀ p ∈ info.body, p+info.bodyLen ≤ payload.length) ∧ info.bodyLen ≤ sbdMaxPayload ∧
    (info.body = none → info.bodyLen = 0)

theorem Inside.finish (h : Inside payload w) (typ : SbdType) : (w.finish typ).InRange payload := by
  have hmin := Nat.min_le_left w.n sbdMaxPayload
  refine ⟨fun p hp => ?_, Nat.min_le_right _ _, fun hnone => ?_⟩
  · simp only [Walk.finish, Option.mem_def] at hp ⊢
    split at hp
    · cases hp
      exact Nat.le_trans (Nat.add_le_add_left hmin _) h
    · cases hp
  · simp only [Walk.finish] at hnone ⊢
    split at hnone
    case isTrue => cases hnone
    case isFalse hz => exact Nat.eq_zero_of_not_pos hz

theorem inRange_blank (payload : List UInt8) : SalvageInfo.blank.InRange payload :=
  ⟨nofun, by decide, fun _ => rfl⟩

theorem two_le_of_classify {uplink : Bool} (h : classify payload uplink ≠ .unknown) :
    2 ≤ payload.length := by
  by_contra hlt
  exact h (by rw [classify, if_pos (by omega)])

theorem inRange_salvage (payload : List UInt8) (uplink : Bool) :
    (sbdSalvageParse payload uplink).2.InRange payload := by
  rw [sbdSalvageParse]
  by_cases hu : classify payload uplink = .unknown
  · rw [if_pos hu]
    exact inRange_blank payload
  have hlen := two_le_of_classify hu
  have hstart : Inside payload (Walk.start payload) := by
    unfold Inside Walk.start
    dsimp only
    omega
  rw [if_neg hu]
  split
  · cases hw : (Walk.start payload).hello payload with
    | none => exact inRange_blank payload
    | some w => exact (hstart.hello hw).finish _
  · exact (hstart.data _ _).finish _

end

theorem bytes_finish (payload : List UInt8) (w : Walk) (typ : SbdType) :
    (w.finish typ).bytes payload = ((payload.drop w.p).take w.n).take sbdMaxPayload := by
  rw [take_take, Nat.min_comm, SalvageInfo.bytes, Walk.finish]
  dsimp only
  split
  case h_1 hnone =>
    split at hnone
    case isTrue => cases hnone
    case isFalse hz => rw [Nat.eq_zero_of_not_pos hz, take_zero]
  case h_2 hsome =>
    split at hsome
    · cases hsome
      rfl
    · cases hsome

/-- The walk finds what the feed's parser finds; its body lies in the bytes given. -/
theorem salvage_agrees_with_feed (payload : List UInt8) (uplink : Bool) :
    (5 ≤ payload.length →
      (∀ typ msgNo msgCnt b, (∃ info, sbdSalvageParse payload uplink = (1, info) ∧
          info.truncated = false ∧ info.typ = typ ∧ info.msgNo = msgNo ∧ info.msgCnt = msgCnt ∧
          info.bytes payload = b) ↔
        ∃ e, parseEnvelope payload uplink = some e ∧ e.typ = typ ∧ e.msgNo = msgNo ∧
          e.msgCnt = msgCnt ∧ e.body.take sbdMaxPayload = b) ∧
      ((∃ info, sbdSalvageParse payload uplink = (1, info) ∧ info.truncated = true) ↔
        parseEnvelope payload uplink = none ∧ ∃ r ∈ shortfalls, rejection payload uplink = some r) ∧
      ((sbdSalvageParse payload uplink).1 = 0 ↔
        parseEnvelope payload uplink = none ∧
          ∃ r ∈ mismatches, rejection payload uplink = some r)) ∧
    (sbdSalvageParse payload uplink).2.InRange payload := by
  refine ⟨fun hlen => ?_, inRange_salvage payload uplink⟩
  have hagree := agrees uplink hlen
  generalize parseEnvelope payload uplink = parsed at hagree ⊢
  generalize rejection payload uplink = reject at hagree ⊢
  generalize sbdSalvageParse payload uplink = result at hagree ⊢
  cases hagree with
  | parsed e w hcnt hno hwhole hbody =>
    have hbytes := bytes_finish payload w e.typ
    rw [← hbody] at hbytes
    refine ⟨fun typ msgNo msgCnt b => ⟨?_, ?_⟩, ⟨?_, nofun⟩, ⟨nofun, nofun⟩⟩
    · rintro ⟨info,hinfo,-,rfl,rfl,rfl,rfl⟩
      cases hinfo
      exact ⟨e, rfl, rfl, hno.symm, hcnt.symm, hbytes.symm⟩
    · rintro ⟨e',he,rfl,rfl,rfl,rfl⟩
      cases he
      exact ⟨_, rfl, hwhole, rfl, hno, hcnt, hbytes⟩
    · rintro ⟨info,hinfo,hcut⟩
      cases hinfo
      cases hwhole.symm.trans hcut
  | short r hr typ w hcut =>
    refine ⟨fun typ msgNo msgCnt b => ⟨?_, nofun⟩,
      ⟨fun _ => ⟨rfl, r, hr, rfl⟩, fun _ => ⟨_, rfl, hcut⟩⟩, ⟨nofun, ?_⟩⟩
    · rintro ⟨info,hinfo,hwhole,-⟩
      cases hinfo
      cases hcut.symm.trans hwhole
    · rintro ⟨-,r',hr',heq⟩
      cases heq
      exact absurd hr' (by revert hr; cases r <;> decide)
  | rejected r hr =>
    refine ⟨fun typ msgNo msgCnt b => ⟨nofun, nofun⟩, ⟨nofun, ?_⟩,
      ⟨fun _ => ⟨rfl, r, hr, rfl⟩, fun _ => rfl⟩⟩
    rintro ⟨-,r',hr',heq⟩
    cases heq
    exact absurd hr' (by revert hr; cases r <;> decide)

/-- A 0x76 0x08 envelope whose sub-header declares six bytes, whole and one byte short. -/
theorem salvage_agrees_on_7608 :
    let whole : List UInt8 :=
      [0x76, 0x08, 0x26, 0, 0, 3, 0, 0, 0, 0x10, 6, 2, 0x11, 0x22, 0x33, 0x44, 0x55, 0x66]
    (∃ e, parseEnvelope whole false = some e ∧ e.typ = .dataDl7608 ∧ e.msgNo = 2 ∧ e.msgCnt = 3 ∧
      e.body.take sbdMaxPayload = [0x11, 0x22, 0x33, 0x44, 0x55, 0x66]) ∧
    ∃ info, sbdSalvageParse (whole.take 17) false = (1, info) ∧ info.truncated = true :=
  ⟨(((salvage_agrees_with_feed _ _).1 (by decide)).1 _ _ _ _).mp
      ⟨⟨.dataDl7608, false, 2, 3, some 12, 6⟩, by decide +kernel⟩,
    ((salvage_agrees_with_feed _ _).1 (by decide)).2.1.mpr (by decide +kernel)⟩

end IridiumAcars.SbdSalvage
