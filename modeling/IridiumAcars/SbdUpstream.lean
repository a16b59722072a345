import IridiumAcars.SbdCompletion

/-! The reference state machine, `ReassembleIDASBD.process_l2` of sbd.py. -/
namespace IridiumAcars.SbdUpstream
open SlotTable SbdReasm SbdIntegrity SbdCompletion List

inductive PyError where
  | indexError
  | shouldntHappen
deriving DecidableEq

/-- `typ` is the pair of type bytes, one more pair for each merged packet. -/
structure SBDObject where
  typ : List (UInt8 × UInt8)
  time : Nat
  ul : Bool
  prehdr : List UInt8
  data : List UInt8
deriving DecidableEq

structure Multi where
  msgno : Nat
  msgcnt : Int
  pkt : SBDObject
  time : Nat
deriving DecidableEq

structure ReassembleIDASBD where
  multi : List Multi
  sbdShort : Nat
  sbdSingle : Nat
  sbdCnt : Nat
  sbdMulti : Nat
  sbdAssembled : Nat
  sbdBroken : Nat

def isSbd (data : List UInt8) (ul : Bool) : Bool :=
  if data.length < 5 then false
  else if data.getD 0 0 = 0x76 ∧ data.getD 1 0 ≠ 5 then
    if ul then 0x0c ≤ data.getD 1 0 ∧ data.getD 1 0 ≤ 0x0e
    else 0x08 ≤ data.getD 1 0 ∧ data.getD 1 0 ≤ 0x0b
  else if data.getD 0 0 = 0x06 ∧ data.getD 1 0 = 0 then
    data.getD 2 0 ∈ [0x00, 0x10, 0x20, 0x40, 0x50, 0x70]
  else false

structure Packet where
  typ : UInt8 × UInt8
  prehdr : List UInt8
  msgcnt : Int
  msgno : Nat
  data : List UInt8
deriving DecidableEq

def splitHello (data : List UInt8) : Except PyError (Option Packet) :=
  if data.getD 0 0 ≠ 0x20 then .ok none
  else match (data.take 29)[15]? with
    | none => .error .indexError
    | some msgcnt => .ok (some ⟨(0x06, 0x00), data.take 29, msgcnt.toNat,
        if msgcnt.toNat = 0 then 0 else 1, data.drop 29⟩)

def splitPrehdr (typ : UInt8 × UInt8) (data : List UInt8) :
    Except PyError (List UInt8 × Int × List UInt8) :=
  if typ = (0x76, 0x08) then
    let k := if data.getD 0 0 = 0x26 then 7 else if data.getD 0 0 = 0x20 then 5 else 7
    match (data.take k)[3]? with
    | none => .error .indexError
    | some msgcnt => .ok (data.take k, msgcnt.toNat, data.drop k)
  else .ok ([], -1, data)

def splitAck (ul : Bool) (prehdr data : List UInt8) : List UInt8 × List UInt8 :=
  if ul ∧ data.length ≥ 3 ∧ data.getD 0 0 ∈ [0x50, 0x51] then (data.take 3, data.drop 3)
  else (prehdr, data)

/-- Message number and data behind the sub-header; `none` is "Pkt too short". -/
def splitHdr (data : List UInt8) : Option (Nat × List UInt8) :=
  if data.length = 0 then some (0, data)
  else if data.length > 3 ∧ data.getD 0 0 = 0x10 then
    let hdr := data.take 3
    let rest := data.drop 3
    if rest.length < (hdr.getD 1 0).toNat then none
    else if rest.length > (hdr.getD 1 0).toNat then
      some ((hdr.getD 2 0).toNat, rest.take (hdr.getD 1 0).toNat)
    else some ((hdr.getD 2 0).toNat, rest)
  else some (0, data)

def splitData (typ : UInt8 × UInt8) (ul : Bool) (data : List UInt8) :
    Except PyError (Option Packet) :=
  match splitPrehdr typ data with
  | .error e => .error e
  | .ok (prehdr, msgcnt, data) =>
    let (prehdr, data) := splitAck ul prehdr data
    .ok ((splitHdr data).map fun x => ⟨typ, prehdr, msgcnt, x.1, x.2⟩)

def splitPacket (data : List UInt8) (ul : Bool) : Except PyError (Option Packet) :=
  let typ := (data.getD 0 0, data.getD 1 0)
  if typ = (0x06, 0x00) then splitHello (data.drop 2)
  else splitData typ ul (data.drop 2)

def findMulti (multi : List Multi) (msgno : Nat) (ul : Bool) : Option Nat :=
  (List.range multi.length).reverse.find? fun idx =>
    multi[idx]?.any fun m =>
      msgno == m.msgno+1 && decide ((msgno : Int) ≤ m.msgcnt) && m.pkt.ul == ul

def Multi.merge (m : Multi) (p : Packet) : Multi :=
  { m with
    msgno := m.msgno+1
    pkt := { m.pkt with data := m.pkt.data ++ p.data, typ := m.pkt.typ ++ [p.typ] } }

def attach (st : ReassembleIDASBD) (q : Feed) (p : Packet) :
    Except PyError (ReassembleIDASBD × Option SBDObject) :=
  let pkt : SBDObject := ⟨[p.typ], q.nowUs, q.uplink, p.prehdr, p.data⟩
  if p.msgno = 0 then .ok ({ st with sbdShort := st.sbdShort+1 }, some pkt)
  else if p.msgcnt = 1 ∧ p.msgno = 1 then
    .ok ({ st with sbdSingle := st.sbdSingle+1 }, some pkt)
  else if p.msgcnt > 1 then
    .ok ({ st with
      multi := st.multi ++ [⟨p.msgno, p.msgcnt, pkt, q.nowUs⟩]
      sbdAssembled := st.sbdAssembled+1 }, none)
  else if p.msgno > 1 then
    match findMulti st.multi p.msgno q.uplink with
    | none => .ok ({ st with sbdBroken := st.sbdBroken+1 }, none)
    | some idx => match st.multi[idx]? with
      | none => .error .indexError
      | some m =>
        if (p.msgno : Int) < m.msgcnt then
          .ok ({ st with
            multi := st.multi.set idx (m.merge p)
            sbdAssembled := st.sbdAssembled+1 }, none)
        else
          .ok ({ st with
            multi := st.multi.eraseIdx idx
            sbdAssembled := st.sbdAssembled+1
            sbdMulti := st.sbdMulti+1 }, some (m.merge p).pkt)
  else .error .shouldntHappen

/-- Entries more than five seconds old go, counted from their first packet. -/
def expireMulti (st : ReassembleIDASBD) (time : Nat) : ReassembleIDASBD :=
  { st with
    multi := st.multi.filter fun m => !decide (m.time+5*1000000 < time)
    sbdBroken := st.sbdBroken +
      (st.multi.filter fun m => decide (m.time+5*1000000 < time)).length }

def processL2 (st : ReassembleIDASBD) (q : Feed) :
    Except PyError (ReassembleIDASBD × Option SBDObject) :=
  if isSbd q.payload q.uplink then
    match splitPacket q.payload q.uplink with
    | .error e => .error e
    | .ok none => .ok ({ st with sbdCnt := st.sbdCnt+1 }, none)
    | .ok (some p) => attach (expireMulti { st with sbdCnt := st.sbdCnt+1 } q.nowUs) q p
  else .ok (st, none)

def wireBytes : SbdType → UInt8 × UInt8
  | .unknown => (0, 0)
  | .hello0600 => (0x06, 0x00)
  | .dataDl7608 => (0x76, 0x08)
  | .dataDl7609 => (0x76, 0x09)
  | .dataDl760A => (0x76, 0x0a)
  | .dataDl760B => (0x76, 0x0b)
  | .dataUl760C => (0x76, 0x0c)
  | .dataUl760D => (0x76, 0x0d)
  | .dataUl760E => (0x76, 0x0e)

variable {data : List UInt8} {st st' : ReassembleIDASBD}

theorem wireBytes_inj (t t' : SbdType) (h : wireBytes t = wireBytes t') : t = t' := by
  cases t <;> cases t' <;> first | rfl | cases h

structure Agree (e : Parsed) (p : Packet) : Prop where
  typ : wireBytes e.typ = p.typ
  msgCnt : e.msgCnt = p.msgcnt
  msgNo : e.msgNo = p.msgno
  body : e.body = p.data

theorem splitHdr_eq (data : List UInt8) : splitHdr data = parseSubHeader data := by
  unfold splitHdr parseSubHeader
  by_cases h0 : data.length = 0
  · rw [if_pos h0, if_pos h0]
  rw [if_neg h0, if_neg h0]
  by_cases h1 : data.length > 3 ∧ data.getD 0 0 = 0x10
  · rw [if_pos h1, if_pos h1]
    have hlen : ∀ k, k < 3 → (data.take 3).getD k 0 = data.getD k 0 := by
      intro k hk
      rw [getD_eq_getElem?_getD, getElem?_take_of_lt hk, getD_eq_getElem?_getD]
    simp only [hlen 1 (by omega), hlen 2 (by omega)]
    split
    · rfl
    split
    · rfl
    · rw [take_of_length_le (by omega)]
  · rw [if_neg h1, if_neg h1]

theorem uplink_type (b : UInt8) (h : 0x0c ≤ b ∧ b ≤ 0x0e) : b = 0x0c ∨ b = 0x0d ∨ b = 0x0e := by
  simp only [UInt8.le_iff_toNat_le, ← UInt8.toNat_inj] at h ⊢
  simp only [UInt8.reduceToNat] at h ⊢
  omega

theorem downlink_type (b : UInt8) (h : 0x08 ≤ b ∧ b ≤ 0x0b) :
    b = 0x08 ∨ b = 0x09 ∨ b = 0x0a ∨ b = 0x0b := by
  simp only [UInt8.le_iff_toNat_le, ← UInt8.toNat_inj] at h ⊢
  simp only [UInt8.reduceToNat] at h ⊢
  omega

theorem classify_wire (data : List UInt8) (ul : Bool) (h : isSbd data ul = true) :
    wireBytes (classify data ul) = (data.getD 0 0, data.getD 1 0) ∧
      classify data ul ≠ .unknown ∧ 5 ≤ data.length := by
  unfold isSbd at h
  by_cases hlen : data.length < 5
  · rw [if_pos hlen] at h
    cases h
  rw [if_neg hlen] at h
  rw [← and_assoc]
  refine ⟨?_, by omega⟩
  unfold classify
  rw [if_neg (by omega)]
  generalize data.getD 0 0 = b0 at h ⊢
  generalize data.getD 1 0 = b1 at h ⊢
  by_cases h76 : b0 = 0x76 ∧ b1 ≠ 5
  · rw [if_pos h76] at h
    obtain ⟨rfl,-⟩ := h76
    cases ul with
    | true =>
      rcases uplink_type b1 (by simpa using h) with rfl | rfl | rfl <;>
        exact ⟨rfl, by decide⟩
    | false =>
      rcases downlink_type b1 (by simpa using h) with rfl | rfl | rfl | rfl <;>
        exact ⟨rfl, by decide⟩
  · rw [if_neg h76] at h
    by_cases h06 : b0 = 0x06 ∧ b1 = 0
    · obtain ⟨rfl,rfl⟩ := h06
      exact ⟨rfl, by simp⟩
    · rw [if_neg h06] at h
      cases h

theorem splitPrehdr_agree {t : SbdType} {data prehdr rest : List UInt8} {cnt : Int}
    (h : splitPrehdr (wireBytes t) data = .ok (prehdr, cnt, rest)) (hrest : rest ≠ []) :
    parsePrehdr t data = some (cnt, rest) := by
  unfold splitPrehdr at h
  unfold parsePrehdr
  by_cases ht : t = .dataDl7608
  · subst ht
    have hk : (if data.getD 0 0 = 0x26 then 7 else if data.getD 0 0 = 0x20 then 5 else 7) =
        prehdrLen data := by
      cases data with
      | nil => rfl
      | cons b data => simp [prehdrLen]
    simp only [wireBytes, if_true, hk] at h ⊢
    cases hc : (data.take (prehdrLen data))[3]? with
    | none =>
      rw [hc] at h
      cases h
    | some c =>
      rw [hc] at h
      cases h
      have hlen : prehdrLen data < data.length := by
        rwa [ne_eq, drop_eq_nil_iff, not_le] at hrest
      have h3 : 3 < prehdrLen data := by
        unfold prehdrLen
        split
        · omega
        split <;> omega
      rw [if_neg (by omega)]
      rw [getElem?_take_of_lt h3] at hc
      rw [getD_eq_getElem?_getD, hc]
      rfl
  · have hne : wireBytes t ≠ (0x76, 0x08) := fun hw => ht (wireBytes_inj t _ hw)
    rw [if_neg hne] at h
    cases h
    rw [if_neg ht]

variable {p : Packet}

theorem splitHello_agree (h : splitHello data = .ok (some p)) :
    ∃ e, parseHello data = some e ∧ Agree e p := by
  unfold splitHello at h
  unfold parseHello
  split_ifs at h with h20
  · cases h
  cases hc : (data.take 29)[15]? with
  | none =>
    rw [hc] at h
    cases h
  | some c =>
    rw [hc] at h
    cases h
    rw [getElem?_take_of_lt (by omega)] at hc
    obtain ⟨hlt,hget⟩ := List.getElem?_eq_some_iff.mp hc
    have hne : ¬ (data.length < 1 ∨ data.getD 0 0 ≠ 0x20) := by
      rw [not_or]
      exact ⟨by omega, h20⟩
    have hval : data.getD 15 0 = c := by rw [getD_eq_getElem?_getD, hc]; rfl
    rw [if_neg hne, if_neg (by omega), hval]
    refine ⟨_, rfl, rfl, rfl, rfl, ?_⟩
    rcases Nat.le_total data.length 29 with hle | hle
    · rw [Nat.min_eq_left hle, drop_eq_nil_of_le (le_refl _), drop_eq_nil_of_le hle]
    · rw [Nat.min_eq_right hle]

theorem splitAck_snd (ul : Bool) (prehdr data : List UInt8) :
    (splitAck ul prehdr data).2 = skipAck ul data := by
  unfold splitAck skipAck
  by_cases h : ul ∧ data.length ≥ 3 ∧ (data.getD 0 0 = 0x50 ∨ data.getD 0 0 = 0x51)
  · rw [if_pos (by simpa using h), if_pos h]
  · rw [if_neg (by simpa using h), if_neg h]

variable {ul : Bool}

theorem skipAck_ne_nil (h : skipAck ul data ≠ []) : data ≠ [] := by
  rintro rfl
  exact h (by simp [skipAck])

theorem splitHdr_ne_nil {data body : List UInt8} {msgno : Nat}
    (h : splitHdr data = some (msgno, body)) (hno : msgno ≠ 0) : data ≠ [] := by
  rintro rfl
  cases h
  exact hno rfl

theorem splitData_agree {t : SbdType}
    (h : splitData (wireBytes t) ul data = .ok (some p)) (hno : p.msgno ≠ 0) :
    ∃ e, parseData t ul data = some e ∧ Agree e p := by
  unfold splitData at h
  cases hp : splitPrehdr (wireBytes t) data with
  | error e =>
    rw [hp] at h
    cases h
  | ok x =>
    obtain ⟨prehdr,cnt,rest⟩ := x
    simp only [hp, splitAck_snd] at h
    cases hs : splitHdr (skipAck ul rest) with
    | none =>
      rw [hs] at h
      cases h
    | some y =>
      obtain ⟨msgno,body⟩ := y
      rw [hs] at h
      cases h
      have hpre := splitPrehdr_agree hp (skipAck_ne_nil (splitHdr_ne_nil hs hno))
      rw [splitHdr_eq] at hs
      exact ⟨⟨t, cnt, msgno, body⟩, by simp [parseData, hpre, hs], rfl, rfl, rfl, rfl⟩

theorem splitPacket_agree (hsbd : isSbd data ul = true)
    (h : splitPacket data ul = .ok (some p)) (hno : p.msgno ≠ 0) :
    ∃ e, parseEnvelope data ul = some e ∧ Agree e p := by
  obtain ⟨hwire,hknown,hlen⟩ := classify_wire data ul hsbd
  unfold parseEnvelope
  rw [if_neg (by omega)]
  unfold splitPacket at h
  rw [← hwire] at h
  cases hc : classify data ul with
  | unknown => exact absurd hc hknown
  | hello0600 =>
    rw [hc] at h
    exact splitHello_agree h
  | _ =>
    rw [hc] at h
    exact splitData_agree h hno

structure OneOpen (slots : Fin sbdMaxSessions → Session) (ps : List Part)
    (j : Fin sbdMaxSessions) : Prop where
  facts : SlotFacts ps (slots j)
  alone : ∀ i, i ≠ j → (slots i).active = false

structure Moved (s s' : Session) (p : Part) : Prop where
  time : s'.lastUpdateUs = p.feed.nowUs
  typ : s'.typ = s.typ
  uplink : s'.uplink = s.uplink
  cnt : s'.msgCnt = s.msgCnt

theorem idle_sweep (slots : Fin sbdMaxSessions → Session) (nowUs : Nat) (i : Fin sbdMaxSessions)
    (h : (slots i).active = false) : (sweep slots nowUs i).active = false := by
  unfold sweep Session.expire
  split
  · rfl
  · exact h

theorem env_eq (p : Part) {e : Parsed}
    (he : parseEnvelope p.feed.payload p.feed.uplink = some e) : e = p.env :=
  Option.some.inj (he.symm.trans p.parsed)

theorem OneOpen.feed {slots slots' : Fin sbdMaxSessions → Session} {ps : List Part}
    {j : Fin sbdMaxSessions} {r : FeedResult} (h : OneOpen slots ps j) (p : Part)
    (hno : p.env.msgNo = ps.length+1) (htyp : p.env.typ = (slots j).typ)
    (hup : p.feed.uplink = (slots j).uplink)
    (htime : p.feed.nowUs < (slots j).lastUpdateUs+sbdTimeoutUs)
    (hstep : FeedStep slots p.feed slots' r) :
    (ps.length+1 < (slots j).msgCnt → OneOpen slots' (ps++[p]) j ∧ Moved (slots j) (slots' j) p ∧
      r = ⟨0, none⟩) ∧
    (ps.length+1 = (slots j).msgCnt → ∃ out, r = ⟨1, some out⟩ ∧
      out.payload = (bodies (ps++[p])).take sbdMaxPayload) := by
  obtain ⟨q,hq,-⟩ := h.facts.msg.first
  have hpos : 0 < ps.length := length_pos_iff.mpr (by rintro rfl; cases hq)
  have hsweep : sweep slots p.feed.nowUs j = slots j := sweep_fresh slots j _ (by omega)
  have hmine : (slots j).awaits p.env.msgNo p.feed.uplink p.env.typ = true := by
    rw [awaits_iff, hno, h.facts.next]
    exact ⟨h.facts.active, rfl, hup.symm, htyp.symm⟩
  have honly (i : Fin sbdMaxSessions)
      (hi : (sweep slots p.feed.nowUs i).awaits p.env.msgNo p.feed.uplink p.env.typ = true) :
      i = j := by
    by_contra hij
    have := ((awaits_iff _ _ _ _).mp hi).1
    rw [idle_sweep slots _ i (h.alone i hij)] at this
    cases this
  cases hstep with
  | filtered hp => exact absurd (hp.symm.trans p.parsed) (by simp)
  | short e hp hn _ | single e hp hn _ | tableFull e hp hn _ | opened e i hp hn _ _
  | stray e hp hn _ =>
    rw [env_eq p hp] at hn
    omega
  | unmatched e hp hn hnone =>
    have := hnone j
    rw [env_eq p hp, hsweep, hmine] at this
    cases this
  | completed e i hp hn hawait hlast =>
    obtain rfl := env_eq p hp
    obtain rfl := honly i hawait
    rw [hsweep] at hlast ⊢
    refine ⟨fun hlt => by omega, fun _ => ⟨_, rfl, ?_⟩⟩
    exact (h.facts.assembled_snoc p hmine).payload
  | extended e i hp hn hawait hmore =>
    obtain rfl := env_eq p hp
    obtain rfl := honly i hawait
    rw [hsweep] at hmore ⊢
    refine ⟨fun _ => ⟨⟨?_, ?_⟩, ?_, rfl⟩, fun heq => by omega⟩
    · rw [setSlot_same]
      exact h.facts.extend p hmine hmore
    · intro k hk
      rw [setSlot_other _ _ _ _ hk]
      exact idle_sweep slots _ k (h.alone k hk)
    · rw [setSlot_same]
      exact ⟨rfl, rfl, rfl, rfl⟩

structure Framed where
  feed : Feed
  pkt : Packet
  sbd : isSbd feed.payload feed.uplink = true
  split : splitPacket feed.payload feed.uplink = .ok (some pkt)

theorem Framed.part (g : Framed) (hno : g.pkt.msgno ≠ 0) :
    ∃ p : Part, p.feed = g.feed ∧ Agree p.env g.pkt := by
  obtain ⟨e,he,ha⟩ := splitPacket_agree g.sbd g.split hno
  exact ⟨⟨g.feed, e, he⟩, rfl, ha⟩

def feedAll (ctx : SbdReassembler) : List Feed → SbdReassembler × List FeedResult
  | [] => (ctx, [])
  | f::fs =>
    let rest := feedAll (sbdReassemblerFeed ctx f).1 fs
    (rest.1, (sbdReassemblerFeed ctx f).2::rest.2)

def processAll (st : ReassembleIDASBD) :
    List Feed → Except PyError (ReassembleIDASBD × List (Option SBDObject))
  | [] => .ok (st, [])
  | q::qs => match processL2 st q with
    | .error e => .error e
    | .ok (st, r) => match processAll st qs with
      | .error e => .error e
      | .ok (st, rs) => .ok (st, r::rs)

def dataOf (gs : List Framed) : List UInt8 := gs.flatMap fun g => g.pkt.data

def HopOk (a b : Feed) : Prop := b.nowUs < a.nowUs+5*1000000

theorem feedAll_completes (gs : List Framed) (ctx : SbdReassembler) (ps : List Part)
    (j : Fin sbdMaxSessions) (l : Feed) (hgs : gs ≠ []) (h : OneOpen ctx.sessions ps j)
    (hl : l.nowUs = (ctx.sessions j).lastUpdateUs)
    (hnum : gs.map (fun g => g.pkt.msgno) = (List.range gs.length).map (· + (ps.length+1)))
    (hcnt : ps.length+gs.length = (ctx.sessions j).msgCnt)
    (htyp : ∀ g ∈ gs, g.pkt.typ = wireBytes (ctx.sessions j).typ)
    (hup : ∀ g ∈ gs, g.feed.uplink = (ctx.sessions j).uplink)
    (hops : (l::gs.map (fun g => g.feed)).IsChain HopOk) :
    ∃ out, (feedAll ctx (gs.map fun g => g.feed)).2 =
        List.replicate (gs.length-1) ⟨0, none⟩ ++ [⟨1, some out⟩] ∧
      out.payload = (bodies ps ++ dataOf gs).take sbdMaxPayload := by
  induction gs generalizing ctx ps l with
  | nil => exact absurd rfl hgs
  | cons g gs ih =>
    rw [map_cons, length_cons, range_succ_eq_map, map_cons, List.cons.injEq,
      Nat.zero_add] at hnum
    obtain ⟨hno,hnum⟩ := hnum
    obtain ⟨p,hpf,ha⟩ := g.part (by omega)
    rw [map_cons, isChain_cons_cons] at hops
    obtain ⟨hhop,hops⟩ := hops
    have htp : p.env.typ = (ctx.sessions j).typ :=
      wireBytes_inj _ _ (ha.typ.trans (htyp g (by simp)))
    have hupp : p.feed.uplink = (ctx.sessions j).uplink := by
      rw [hpf]
      exact hup g (by simp)
    have htime : p.feed.nowUs < (ctx.sessions j).lastUpdateUs+sbdTimeoutUs := by
      rwa [hpf, ← hl]
    obtain ⟨hmore,hlast⟩ := h.feed p (by rw [ha.msgNo, hno]) htp hupp htime (feed_step ctx p.feed)
    have hbody : bodies (ps++[p]) = bodies ps ++ g.pkt.data := by
      rw [← ha.body]
      simp [bodies]
    rw [hpf] at hmore hlast
    rw [length_cons] at hcnt
    cases gs with
    | nil =>
      obtain ⟨out,hr,hout⟩ := hlast hcnt
      refine ⟨out, ?_, ?_⟩
      · simp [feedAll, hr]
      · rw [hout, hbody]
        simp [dataOf]
    | cons g' gs' =>
      rw [length_cons] at hcnt
      obtain ⟨hopen,hmoved,hr⟩ := hmore (by omega)
      have hnum' : (g'::gs').map (fun g => g.pkt.msgno) =
          (List.range (g'::gs').length).map (· + ((ps++[p]).length+1)) := by
        rw [hnum, map_map]
        apply map_congr_left
        intro k _
        simp only [Function.comp, length_append, length_singleton]
        omega
      have hcnt' : (ps++[p]).length+(g'::gs').length =
          ((sbdReassemblerFeed ctx g.feed).1.sessions j).msgCnt := by
        rw [hmoved.cnt, length_append, length_singleton, length_cons]
        omega
      obtain ⟨out,hres,hout⟩ := ih (sbdReassemblerFeed ctx g.feed).1 (ps++[p]) g.feed (by simp)
        hopen (by rw [hmoved.time, hpf]) hnum' hcnt'
        (fun x hx => by rw [hmoved.typ]; exact htyp x (mem_cons_of_mem g hx))
        (fun x hx => by rw [hmoved.uplink]; exact hup x (mem_cons_of_mem g hx)) hops
      refine ⟨out, ?_, ?_⟩
      · rw [map_cons, feedAll]
        simp only [hr, hres, length_cons, Nat.add_sub_cancel]
        rfl
      · rw [hout, hbody]
        simp [dataOf]

def UpOpen (multi : List Multi) (k n : Nat) (ul : Bool) (data : List UInt8) : Prop :=
  multi = [] ∨ ∃ m, multi = [m] ∧ m.msgno = k ∧ m.msgcnt = n ∧ m.pkt.ul = ul ∧ m.pkt.data = data

theorem UpOpen.filter {multi : List Multi} {k n : Nat} (h : UpOpen multi k n ul data)
    (keep : Multi → Bool) :
    UpOpen (multi.filter keep) k n ul data := by
  rcases h with rfl | ⟨m,rfl,hm⟩
  · exact Or.inl rfl
  · cases hk : keep m with
    | true => exact Or.inr ⟨m, by simp [hk], hm⟩
    | false => exact Or.inl (by simp [hk])

variable {r : Option SBDObject}

theorem attach_next {q : Feed} {k n : Nat}
    (h : UpOpen st.multi k n q.uplink data) (hk : 0 < k) (hcnt : p.msgcnt ≤ 1) (hno : p.msgno = k+1)
    (hr : attach st q p = .ok (st', r)) :
    (k+1 < n → UpOpen st'.multi (k+1) n q.uplink (data++p.data) ∧ r = none) ∧
    (k+1 = n → ∀ pkt, r = some pkt → pkt.data = data++p.data) := by
  unfold attach at hr
  rw [if_neg (by omega), if_neg (by omega), if_neg (by omega), if_pos (by omega)] at hr
  rcases h with hnil | ⟨m,hm,hmno,hmcnt,hul,hdata⟩
  · simp only [hnil, findMulti, length_nil, range_zero, reverse_nil,
      find?_nil] at hr
    cases hr
    refine ⟨fun _ => ⟨Or.inl rfl, rfl⟩, fun _ pkt hp => ?_⟩
    cases hp
  · by_cases hle : k+1 ≤ n
    · have hfind : findMulti [m] p.msgno q.uplink = some 0 := by
        simp [findMulti, hmno, hmcnt, hul, hno]
        omega
      simp only [hm, hfind, getElem?_cons_zero] at hr
      by_cases hlt : k+1 < n
      · rw [if_pos (by omega)] at hr
        cases hr
        refine ⟨fun _ => ⟨Or.inr ⟨m.merge p, rfl, ?_⟩, rfl⟩, fun _ => by omega⟩
        exact ⟨by simp [Multi.merge, hmno], hmcnt, hul, by simp [Multi.merge, hdata]⟩
      · rw [if_neg (by omega)] at hr
        cases hr
        refine ⟨fun _ => by omega, fun _ pkt hp => ?_⟩
        cases hp
        simp [Multi.merge, hdata]
    · exact ⟨fun _ => by omega, fun _ => by omega⟩

theorem processL2_framed (st : ReassembleIDASBD) (g : Framed) :
    processL2 st g.feed =
      attach (expireMulti { st with sbdCnt := st.sbdCnt+1 } g.feed.nowUs) g.feed g.pkt := by
  unfold processL2
  rw [if_pos g.sbd, g.split]

theorem processL2_next {g : Framed} {k n : Nat}
    (h : UpOpen st.multi k n g.feed.uplink data) (hk : 0 < k) (hcnt : g.pkt.msgcnt ≤ 1)
    (hno : g.pkt.msgno = k+1) (hr : processL2 st g.feed = .ok (st', r)) :
    (k+1 < n → UpOpen st'.multi (k+1) n g.feed.uplink (data++g.pkt.data) ∧ r = none) ∧
    (k+1 = n → ∀ pkt, r = some pkt → pkt.data = data++g.pkt.data) := by
  rw [processL2_framed] at hr
  exact attach_next (h.filter _) hk hcnt hno hr

theorem processAll_cons {q : Feed} {qs : List Feed} {rs : List (Option SBDObject)}
    (h : processAll st (q::qs) = .ok (st', rs)) :
    ∃ st1 r rs', processL2 st q = .ok (st1, r) ∧ processAll st1 qs = .ok (st', rs') ∧
      rs = r::rs' := by
  rw [processAll] at h
  cases hr : processL2 st q with
  | error e =>
    rw [hr] at h
    cases h
  | ok x =>
    simp only [hr] at h
    cases hrest : processAll x.1 qs with
    | error e =>
      rw [hrest] at h
      cases h
    | ok y =>
      simp only [hrest] at h
      cases h
      exact ⟨x.1, x.2, y.2, rfl, hrest, rfl⟩

theorem length_processAll (qs : List Feed) (st st' : ReassembleIDASBD)
    (rs : List (Option SBDObject)) (h : processAll st qs = .ok (st', rs)) :
    rs.length = qs.length := by
  induction qs generalizing st rs with
  | nil =>
    cases h
    rfl
  | cons q qs ih =>
    obtain ⟨st1,r,rs',-,hrest,rfl⟩ := processAll_cons h
    rw [length_cons, length_cons, ih st1 rs' hrest]

theorem getLast?_rest {qs : List Feed} {r x : Option SBDObject} {rs : List (Option SBDObject)}
    (hlen : rs.length = qs.length) (hqs : qs ≠ []) (h : (r::rs).getLast? = some x) :
    rs.getLast? = some x := by
  cases rs with
  | nil => exact absurd (length_eq_zero_iff.mp hlen.symm) hqs
  | cons a rs => rwa [getLast?_cons_cons] at h

theorem processAll_data (gs : List Framed) (st st' : ReassembleIDASBD) (k n : Nat) (ul : Bool)
    (data : List UInt8) (rs : List (Option SBDObject)) (pkt : SBDObject)
    (h : UpOpen st.multi k n ul data) (hk : 0 < k) (hn : k+gs.length = n)
    (hnum : gs.map (fun g => g.pkt.msgno) = (List.range gs.length).map (· + (k+1)))
    (hcnt : ∀ g ∈ gs, g.pkt.msgcnt ≤ 1) (hup : ∀ g ∈ gs, g.feed.uplink = ul)
    (hall : processAll st (gs.map fun g => g.feed) = .ok (st', rs))
    (hlast : rs.getLast? = some (some pkt)) : pkt.data = data ++ dataOf gs := by
  induction gs generalizing st k data rs with
  | nil =>
    cases hall
    cases hlast
  | cons g gs ih =>
    rw [map_cons, length_cons, range_succ_eq_map, map_cons, List.cons.injEq,
      Nat.zero_add] at hnum
    obtain ⟨hno,hnum⟩ := hnum
    rw [length_cons] at hn
    obtain ⟨st1,r,rs',hr,hrest,rfl⟩ := processAll_cons hall
    rw [← hup g (by simp)] at h
    obtain ⟨hmore,hend⟩ := processL2_next h hk (hcnt g (by simp)) hno hr
    cases gs with
    | nil =>
      cases hrest
      have hr' : r = some pkt := by simpa using hlast
      rw [hend hn pkt hr']
      simp [dataOf]
    | cons g' gs' =>
      rw [length_cons] at hn
      obtain ⟨hopen,-⟩ := hmore (by omega)
      rw [hup g (by simp)] at hopen
      have hnum' : (g'::gs').map (fun g => g.pkt.msgno) =
          (List.range (g'::gs').length).map (· + (k+1+1)) := by
        rw [hnum, map_map]
        apply map_congr_left
        intro a _
        simp only [Function.comp]
        omega
      have hlast' := getLast?_rest (length_processAll _ _ _ _ hrest) (by simp) hlast
      rw [ih st1 (k+1) (data++g.pkt.data) rs' hopen (by omega)
        (by rw [length_cons]; omega) hnum' (fun x hx => hcnt x (mem_cons_of_mem g hx))
        (fun x hx => hup x (mem_cons_of_mem g hx)) hrest hlast']
      simp [dataOf]

/-- A message of `n` packets: the first announces the count, the others are numbered from 2. -/
structure CleanMessage (n : Nat) (first : Framed) (rest : List Framed) : Prop where
  count : 2 ≤ n ∧ n ≤ 32
  announced : first.pkt.msgcnt = n
  number : first.pkt.msgno = 1
  length : rest.length = n-1
  numbers : rest.map (fun g => g.pkt.msgno) = (List.range rest.length).map (· + 2)
  quiet : ∀ g ∈ rest, g.pkt.msgcnt ≤ 1
  direction : ∀ g ∈ rest, g.feed.uplink = first.feed.uplink
  hops : (first.feed::rest.map fun g => g.feed).IsChain HopOk
  total : (dataOf (first::rest)).length ≤ sbdMaxPayload

/-- The results of the whole message: nothing until the last packet. -/
def FinishesWith (st : ReassembleIDASBD) (qs : List Feed) (pkt : SBDObject) : Prop :=
  ∃ st', processAll st qs = .ok (st', List.replicate (qs.length-1) none ++ [some pkt])

def EmitsAtEnd (ctx : SbdReassembler) (fs : List Feed) (data : List UInt8) : Prop :=
  ∃ out, (feedAll ctx fs).2 = List.replicate (fs.length-1) ⟨0, none⟩ ++ [⟨1, some out⟩] ∧
    out.payload = data

theorem opened_first {slots slots' : Fin sbdMaxSessions → Session} {r : FeedResult} {n : Nat}
    (hidle : ∀ i, (slots i).active = false) (p : Part) (hn : 2 ≤ n ∧ n ≤ 32)
    (hcnt : p.env.msgCnt = n) (hno : p.env.msgNo = 1) (hstep : FeedStep slots p.feed slots' r) :
    r = ⟨0, none⟩ ∧ ∃ j, OneOpen slots' [p] j ∧ slots' j = openSession p.feed p.env := by
  cases hstep with
  | filtered hp => exact absurd (hp.symm.trans p.parsed) (by simp)
  | short e hp h0 _ =>
    rw [env_eq p hp] at h0
    omega
  | single e hp _ h1 =>
    rw [env_eq p hp] at h1
    omega
  | tableFull e hp _ hfull =>
    have := hfull ⟨0, by decide⟩
    rw [idle_sweep slots _ _ (hidle _)] at this
    cases this
  | opened e i hp _ hc _ =>
    obtain rfl := env_eq p hp
    refine ⟨rfl, i, ⟨?_, ?_⟩, by rw [setSlot_same]⟩
    · rw [setSlot_same]
      exact facts_open p hno hc
    · intro k hk
      rw [setSlot_other _ _ _ _ hk]
      exact idle_sweep slots _ k (hidle k)
  | stray e hp _ hc =>
    rw [env_eq p hp] at hc
    unfold sbdMsgCntMax at hc
    omega
  | unmatched e hp h2 _ | completed e i hp h2 _ _ | extended e i hp h2 _ _ =>
    rw [env_eq p hp] at h2
    omega

theorem upOpen_first {g : Framed} {n : Nat} (hst : st.multi = [])
    (hn : 2 ≤ n) (hcnt : g.pkt.msgcnt = n) (hno : g.pkt.msgno = 1)
    (hr : processL2 st g.feed = .ok (st', r)) :
    UpOpen st'.multi 1 n g.feed.uplink g.pkt.data := by
  rw [processL2_framed] at hr
  unfold attach at hr
  rw [if_neg (by omega), if_neg (by omega), if_pos (by omega)] at hr
  cases hr
  refine Or.inr ⟨⟨g.pkt.msgno, g.pkt.msgcnt, ⟨[g.pkt.typ], g.feed.nowUs, g.feed.uplink,
    g.pkt.prehdr, g.pkt.data⟩, g.feed.nowUs⟩, ?_, hno, hcnt, rfl, rfl⟩
  simp [expireMulti, hst]

/-- Every message of one type that the reference completes leaves at the same packet. -/
theorem sbd_same_type_messages_preserved (ctx : SbdReassembler) (st : ReassembleIDASBD) (n : Nat)
    (first : Framed) (rest : List Framed) (pkt : SBDObject)
    (hctx : ∀ i, (ctx.sessions i).active = false) (hst : st.multi = [])
    (hclean : CleanMessage n first rest) (htyp : ∀ g ∈ rest, g.pkt.typ = first.pkt.typ)
    (hfin : FinishesWith st (first.feed::rest.map fun g => g.feed) pkt) :
    EmitsAtEnd ctx (first.feed::rest.map fun g => g.feed) pkt.data := by
  obtain ⟨hn,hann,hno,hlen,hnum,hquiet,hdir,hops,htotal⟩ := hclean
  obtain ⟨p,hpf,ha⟩ := first.part (by omega)
  obtain ⟨hr,j,hopen,hslot⟩ := opened_first hctx p hn (by rw [ha.msgCnt, hann])
    (by rw [ha.msgNo, hno]) (feed_step ctx p.feed)
  rw [hpf] at hr hopen hslot
  have hne : rest ≠ [] := by
    rintro rfl
    rw [length_nil] at hlen
    omega
  have hcnt : [p].length+rest.length =
      ((sbdReassemblerFeed ctx first.feed).1.sessions j).msgCnt := by
    have hc : p.env.msgCnt.toNat%256 = n := by
      rw [ha.msgCnt, hann, Int.toNat_natCast]
      omega
    rw [hslot]
    change 1+rest.length = p.env.msgCnt.toNat%256
    omega
  obtain ⟨out,hres,hout⟩ := feedAll_completes rest (sbdReassemblerFeed ctx first.feed).1 [p] j
    first.feed hne hopen (by rw [hslot]; rfl) hnum hcnt
    (fun g hg => by rw [hslot, htyp g hg]; exact ha.typ.symm)
    (fun g hg => by rw [hslot]; exact hdir g hg) hops
  refine ⟨out, ?_, ?_⟩
  · rw [feedAll, length_cons, length_map]
    simp only [hr, hres]
    have : rest.length+1-1 = (rest.length-1)+1 := by omega
    rw [this, replicate_succ]
    rfl
  · obtain ⟨st',hall⟩ := hfin
    obtain ⟨st1,r,rs',hfirst,hrest,hrs⟩ := processAll_cons hall
    have hlast : (r::rs').getLast? = some (some pkt) := by
      rw [← hrs]
      simp
    have hdata := processAll_data rest st1 st' 1 n first.feed.uplink first.pkt.data rs' pkt
      (upOpen_first hst hn.1 hann hno hfirst) (by omega) (by omega) hnum hquiet hdir hrest
      (getLast?_rest (length_processAll _ _ _ _ hrest) (by simpa using hne) hlast)
    have hbody : bodies [p] ++ dataOf rest = dataOf (first::rest) := by
      simp [bodies, dataOf, ha.body]
    rw [hout, hbody, take_of_length_le htotal, hdata]
    rfl

def partOne : Framed where
  feed := ⟨[0x76, 0x08, 0x26, 0, 0, 2, 0, 0, 0, 0x10, 2, 1, 0xab, 0xcd], false, 1000⟩
  pkt := ⟨(0x76, 0x08), [0x26, 0, 0, 2, 0, 0, 0], 2, 1, [0xab, 0xcd]⟩
  sbd := by decide
  split := by rfl

def partTwo7608 : Framed where
  feed := ⟨[0x76, 0x08, 0x26, 0, 0, 0, 0, 0, 0, 0x10, 1, 2, 0xef], false, 91000⟩
  pkt := ⟨(0x76, 0x08), [0x26, 0, 0, 0, 0, 0, 0], 0, 2, [0xef]⟩
  sbd := by decide
  split := by rfl

def partTwo7609 : Framed where
  feed := ⟨[0x76, 0x09, 0x10, 1, 2, 0xef], false, 91000⟩
  pkt := ⟨(0x76, 0x09), [], -1, 2, [0xef]⟩
  sbd := by decide
  split := by rfl

def emptyReference : ReassembleIDASBD := ⟨[], 0, 0, 0, 0, 0, 0⟩

theorem clean_two (g : Framed) (hno : g.pkt.msgno = 2) (hcnt : g.pkt.msgcnt ≤ 1)
    (hdata : g.pkt.data = [0xef]) (hfeed : g.feed.nowUs = 91000 ∧ g.feed.uplink = false) :
    CleanMessage 2 partOne [g] := by
  refine ⟨by decide, rfl, rfl, rfl, by simp [hno], ?_, ?_, ?_, ?_⟩
  · intro x hx
    rwa [mem_singleton.mp hx]
  · intro x hx
    rw [mem_singleton.mp hx, hfeed.2]
    rfl
  · rw [map_singleton, isChain_cons_cons]
    refine ⟨?_, isChain_singleton _⟩
    rw [HopOk, hfeed.1]
    decide
  · simp [dataOf, hdata, partOne, sbdMaxPayload]

theorem sbd_preserves_two_7608 :
    EmitsAtEnd .init [partOne.feed, partTwo7608.feed] [0xab, 0xcd, 0xef] := by
  have h := sbd_same_type_messages_preserved .init emptyReference 2 partOne [partTwo7608]
    ⟨[(0x76, 0x08), (0x76, 0x08)], 1000, false, [0x26, 0, 0, 2, 0, 0, 0], [0xab, 0xcd, 0xef]⟩
    (fun _ => rfl) rfl (clean_two partTwo7608 rfl (by decide) rfl ⟨rfl, rfl⟩)
    (fun g hg => by rw [mem_singleton.mp hg]; rfl) ⟨_, rfl⟩
  exact h

/-- Continued as 0x7609 the message is completed by the reference only. -/
theorem sbd_mixed_types_lost :
    ∃ pkt, CleanMessage 2 partOne [partTwo7609] ∧
      FinishesWith emptyReference [partOne.feed, partTwo7609.feed] pkt ∧
      ¬ EmitsAtEnd .init [partOne.feed, partTwo7609.feed] pkt.data := by
  refine ⟨⟨[(0x76, 0x08), (0x76, 0x09)], 1000, false, [0x26, 0, 0, 2, 0, 0, 0], [0xab, 0xcd, 0xef]⟩,
    clean_two partTwo7609 rfl (by decide) rfl ⟨rfl, rfl⟩, ⟨_, rfl⟩, ?_⟩
  rintro ⟨out,hres,-⟩
  have hlost : (feedAll .init [partOne.feed, partTwo7609.feed]).2 = [⟨0, none⟩, ⟨0, none⟩] := by rfl
  rw [hlost] at hres
  simp at hres

end IridiumAcars.SbdUpstream
