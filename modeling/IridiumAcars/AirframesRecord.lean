import IridiumAcars.AirframesFmt

/-! The formatter writes all of a message's record, or nothing that counts. -/
namespace IridiumAcars.Airframes
open Json Decimal List

def integer (z : Int) : Value := .num (ofInt z)

def text (s : String) : Value := .str (ascii s)

def vdl2Acars (m : AfMsg) : List (Bytes × Value) :=
  [(ascii "err", .bool m.err)]++[(ascii "crc_ok", .bool m.crcOk)]++[(ascii "more", .bool m.more)]++
  optional (m.reg.bytes ≠ []) "reg" (.str m.reg.bytes)++
  optional (m.mode ≠ 0) "mode" (.str [m.mode])++
  optional (m.label.bytes ≠ []) "label" (.str m.label.bytes)++
  optional (m.blockId ≠ 0) "blk_id" (.str [m.blockId])++
  optional (m.ack ≠ 0) "ack" (.str [afAckChar m.ack])++
  optional (m.flightId.bytes ≠ []) "flight" (.str m.flightId.bytes)++
  optional (m.msgNum.bytes ≠ []) "msg_num" (.str m.msgNum.bytes)++
  optional (m.msgNumSeq ≠ 0) "msg_num_seq" (.str [m.msgNumSeq])++
  optional (deref m.txt ≠ []) "msg_text" (.str (deref m.txt))

def vdl2Src (m : AfMsg) : List (Bytes × Value) :=
  [(ascii "addr", .str m.srcAddr.bytes)]++
  optional (deref m.srcType ≠ []) "type" (.str (deref m.srcType))++
  optional (deref m.srcStatus ≠ []) "status" (.str (deref m.srcStatus))

def vdl2Dst (m : AfMsg) : List (Bytes × Value) :=
  [(ascii "addr", .str m.dstAddr.bytes)]++
  optional (deref m.dstType ≠ []) "type" (.str (deref m.dstType))

def vdl2Addr (m : AfMsg) : List (Bytes × Value) :=
  optional (m.srcAddr.bytes ≠ []) "src" (.obj (vdl2Src m))++
  optional (m.dstAddr.bytes ≠ []) "dst" (.obj (vdl2Dst m))

def vdl2Avlc (m : AfMsg) : List (Bytes × Value) :=
  vdl2Addr m++[(ascii "cr", text "Command")]++[(ascii "frame_type", text "I")]++
  [(ascii "acars", .obj (vdl2Acars m))]

def vdl2App : Value := .obj [(ascii "name", text "dumpvdl2"), (ascii "ver", text "2.6.0")]

def vdl2Time (m : AfMsg) : Value :=
  .obj [(ascii "sec", integer m.sec), (ascii "usec", integer m.usec)]

def vdl2Top (m : AfMsg) : List (Bytes × Value) :=
  optional (deref m.stationId ≠ []) "station" (.str (deref m.stationId))++
  optional (m.timeValid = true) "t" (vdl2Time m)++
  optional (m.freqHz ≠ 0) "freq" (integer m.freqHz.toNat)++
  optional (m.sigLevelValid = true) "sig_level" (.num m.sigLevel)

def vdl2Record (m : AfMsg) : Value :=
  .obj [(ascii "vdl2", .obj ([(ascii "app", vdl2App)]++vdl2Top m++
    [(ascii "avlc", .obj (vdl2Avlc m))]))]

def iridiumAcars (utc : Int → CString) (m : AfMsg) : List (Bytes × Value) :=
  optional (m.timeValid = true) "timestamp" (.str ((utc m.sec).bytes++ascii "+0000"))++
  [(ascii "errors", integer (if m.err then 1 else 0))]++
  [(ascii "link_direction", text (if m.uplink then "uplink" else "downlink"))]++
  [(ascii "block_end", .bool (!m.more))]++
  optional (m.mode ≠ 0) "mode" (.str [m.mode])++
  optional (m.tail ≠ []) "tail" (.str m.tail)++
  optional (m.flightId.bytes ≠ []) "flight" (.str m.flightId.bytes)++
  optional (m.label.bytes ≠ []) "label" (.str (iridiumLabel m.label.bytes))++
  optional (m.blockId ≠ 0) "block_id" (.str [m.blockId])++
  optional (m.msgNum.bytes ≠ []) "message_number" (.str m.msgNum.bytes)++
  optional (m.ack ≠ 0) "ack" (.str [afAckChar m.ack])++
  optional (deref m.txt ≠ []) "text" (.str (deref m.txt))

def iridiumApp : Value :=
  .obj [(ascii "name", text "iridium-toolkit"), (ascii "version", text "0.0.1")]

def iridiumRecord (utc : Int → CString) (m : AfMsg) : Value :=
  .obj [(ascii "app", iridiumApp),
    (ascii "source", .obj ([(ascii "transport", text "iridium"), (ascii "protocol", text "acars")]++
      optional (deref m.stationId ≠ []) "station_id" (.str (deref m.stationId)))),
    (ascii "acars", .obj (iridiumAcars utc m))]

/-- What the band's schema says of a message: every optional member with its condition. -/
def record (utc : Int → CString) (m : AfMsg) : Value :=
  match m.band with
  | .vdl2 => vdl2Record m
  | .iridium => iridiumRecord utc m

/-- All bytes of the text fields and of the date are in `P`; a character 0 is an absent one. -/
structure Within (P : UInt8 → Prop) (utc : Int → CString) (m : AfMsg) : Prop where
  mode : m.mode ≠ 0 → P m.mode
  label : ∀ b ∈ m.label.bytes, P b
  blockId : m.blockId ≠ 0 → P m.blockId
  msgNum : ∀ b ∈ m.msgNum.bytes, P b
  msgNumSeq : m.msgNumSeq ≠ 0 → P m.msgNumSeq
  flightId : ∀ b ∈ m.flightId.bytes, P b
  reg : ∀ b ∈ m.reg.bytes, P b
  ack : m.ack ≠ 0 → P m.ack
  txt : ∀ b ∈ deref m.txt, P b
  srcAddr : ∀ b ∈ m.srcAddr.bytes, P b
  dstAddr : ∀ b ∈ m.dstAddr.bytes, P b
  srcType : ∀ b ∈ deref m.srcType, P b
  dstType : ∀ b ∈ deref m.dstType, P b
  srcStatus : ∀ b ∈ deref m.srcStatus, P b
  stationId : ∀ b ∈ deref m.stationId, P b
  date : ∀ b ∈ (utc m.sec).bytes, P b

variable {ms : List (Bytes × Value)}

section
variable {P : UInt8 → Prop} {m : AfMsg} {utc : Int → CString}

theorem tail_subset {b : UInt8} (h : b ∈ m.tail) : b ∈ m.reg.bytes :=
  (dropWhile_suffix _).subset h

theorem within_append {s t : Bytes} (hs : ∀ b ∈ s, P b) (ht : ∀ b ∈ t, P b) : ∀ b ∈ s++t, P b :=
  fun b hb => (mem_append.mp hb).elim (hs b) (ht b)

theorem length_time (m : AfMsg) :
    (decimalInt m.sec).length ≤ 14 ∧ (decimalInt m.usec).length ≤ 7 := by
  have hlo := m.epochUs.le_toInt
  have hhi := m.epochUs.toInt_lt
  constructor
  · refine length_decimalInt_le (k := 12) ?_
    rw [AfMsg.sec, Int.natAbs_tdiv]
    refine (Nat.div_lt_iff_lt_mul (by decide)).mpr ?_
    change _ < 10^13*1000000
    omega
  · refine length_decimalInt_le (k := 5) ?_
    rw [AfMsg.usec, Int.natAbs_tmod]
    exact Nat.mod_lt _ (by decide)

theorem encode_vdl2Time (m : AfMsg) : encode (vdl2Time m) = ascii "\x7b\"sec\":"++
    decimalInt m.sec++ascii ",\"usec\":"++decimalInt m.usec++ascii "\x7d" := by
  simp only [vdl2Time, integer, encode, map_cons, map_nil, joined, memberText, ofInt]
  simp only [if_true, nil_append, append_nil, append_assoc, cons_append]
  rfl

theorem encode_vdl2App : encode vdl2App =
    ascii "\x7b\"name\":\"dumpvdl2\",\"ver\":\"2.6.0\"\x7d" := by
  simp only [vdl2App, text, encode, map_cons, map_nil]
  decide

theorem encode_vdl2 (top addr ac : List (Bytes × Value)) :
    encode (.obj [(ascii "vdl2", .obj ([(ascii "app", vdl2App)]++top++
      [(ascii "avlc", .obj (addr++[(ascii "acars", .obj ac)]))]))]) =
    ascii "\x7b\"vdl2\":\x7b\"app\":\x7b\"name\":\"dumpvdl2\",\"ver\":\"2.6.0\"\x7d"++
      keyed false top "avlc"++ascii "\x7b"++keyed true addr "acars"++ascii "\x7b"++
      joined true (ac.map memberOf)++ascii "\x7d\x7d\x7d\x7d" := by
  have hhead : ascii "\x7b\"vdl2\":\x7b\"app\":\x7b\"name\":\"dumpvdl2\",\"ver\":\"2.6.0\"\x7d" =
      openBrace::(quote::(escape (ascii "vdl2")++quote::colon::openBrace::quote::
        (escape (ascii "app")++quote::colon::encode vdl2App))) := by
    rw [encode_vdl2App]
    decide
  have hopen : ascii "\x7b" = [openBrace] := rfl
  have hclose : ascii "\x7d\x7d\x7d\x7d" = [closeBrace, closeBrace, closeBrace, closeBrace] := rfl
  rw [hhead, hopen, hclose]
  simp [encode_obj, joined_append, joined, memberOf, memberText, keyed, append_assoc]

theorem encode_iridium (source ac : List (Bytes × Value)) :
    encode (.obj [(ascii "app", iridiumApp), (ascii "source",
      .obj ([(ascii "transport", text "iridium"), (ascii "protocol", text "acars")]++source)),
      (ascii "acars", .obj ac)]) =
    ascii ("\x7b\"app\":\x7b\"name\":\"iridium-toolkit\",\"version\":\"0.0.1\"\x7d,"++
      "\"source\":\x7b\"transport\":\"iridium\",\"protocol\":\"acars\"")++
      joined false (source.map memberOf)++ascii "\x7d,\"acars\":\x7b"++
      joined true (ac.map memberOf)++ascii "\x7d\x7d" := by
  have hhead : ascii ("\x7b\"app\":\x7b\"name\":\"iridium-toolkit\",\"version\":\"0.0.1\"\x7d,"++
      "\"source\":\x7b\"transport\":\"iridium\",\"protocol\":\"acars\"") =
      openBrace::quote::(escape (ascii "app")++quote::colon::encode iridiumApp)++
        comma::quote::(escape (ascii "source")++quote::colon::openBrace::
          joined true ([(ascii "transport", text "iridium"),
            (ascii "protocol", text "acars")].map memberOf)) := by
    simp only [iridiumApp, text, encode, map_cons, map_nil, memberOf]
    decide +kernel
  have hmid : ascii "\x7d,\"acars\":\x7b" =
      closeBrace::comma::quote::(escape (ascii "acars")++quote::colon::[openBrace]) := by
    decide
  have hclose : ascii "\x7d\x7d" = [closeBrace, closeBrace] := rfl
  rw [hhead, hmid, hclose]
  simp [encode_obj, joined, memberOf, memberText, append_assoc]

variable (hP : AllowsAscii P)
include hP

theorem extends_memberChar (o : Cursor) {key : String} (hk : Key key) {c : UInt8} (hc : P c) :
    ExtendsMembers P o [(ascii key, .str [c])] (jwMemberChar o key c) :=
  extends_memberStr hP o hk fun _ hb => mem_singleton.mp hb ▸ hc

theorem ackChar_within {ack : UInt8} (h : P ack) : P (afAckChar ack) := by
  rw [afAckChar]
  split
  · exact hP 33 (by decide) (by decide)
  · exact h

theorem ExtendsMembers.optionalStr {o o' : Cursor}
    (h : ExtendsMembers P o ms o') {c : Prop} [Decidable c] {key : String} (hk : Key key)
    {s : Bytes} (hs : ∀ b ∈ s, P b) :
    ExtendsMembers P o (ms++optional c key (.str s)) (if c then jwMemberStr o' key s else o') :=
  h.trans (extends_optional fun _ => extends_memberStr hP _ hk hs)

theorem ExtendsMembers.optionalChar {o o' : Cursor}
    (h : ExtendsMembers P o ms o') {c : Prop} [Decidable c] {key : String} (hk : Key key)
    {b : UInt8} (hb : c → P b) :
    ExtendsMembers P o (ms++optional c key (.str [b])) (if c then jwMemberChar o' key b else o') :=
  h.trans (extends_optional fun hc => extends_memberChar hP _ hk (hb hc))

theorem extends_vdl2Acars (h : Within P utc m) (ac : Cursor) :
    ExtendsMembers P ac (vdl2Acars m) (emitVdl2Acars ac m) := by
  refine .optionalStr hP ?_ (by decide) h.txt
  refine .optionalChar hP ?_ (by decide) h.msgNumSeq
  refine .optionalStr hP ?_ (by decide) h.msgNum
  refine .optionalStr hP ?_ (by decide) h.flightId
  refine .optionalChar hP ?_ (by decide) fun h0 => ackChar_within hP (h.ack h0)
  refine .optionalChar hP ?_ (by decide) h.blockId
  refine .optionalStr hP ?_ (by decide) h.label
  refine .optionalChar hP ?_ (by decide) h.mode
  refine .optionalStr hP ?_ (by decide) h.reg
  refine .trans ?_ (extends_memberBool hP _ (by decide) m.more)
  refine .trans ?_ (extends_memberBool hP _ (by decide) m.crcOk)
  exact extends_memberBool hP ac (by decide) m.err

theorem literal_within {s : String} (h : Literal s) : ∀ b ∈ ascii s, P b :=
  fun b hb => hP b (h.2 b hb).1 (h.2 b hb).2

theorem iridiumLabel_within {s : Bytes} (h : ∀ b ∈ s, P b) :
    ∀ b ∈ iridiumLabel s, P b := by
  rw [iridiumLabel]
  split
  · exact literal_within hP (by decide)
  · exact h

theorem numberByte_within {c : UInt8} (h : numberByte c) : P c := by
  have hrange : c ≠ 0 ∧ c < 128 := by
    simp only [numberByte, isDigit, Bool.or_eq_true, Bool.and_eq_true, decide_eq_true_eq,
      beq_iff_eq, UInt8.le_iff_toNat_le] at h
    obtain ((((⟨hl,hd⟩ | rfl) | rfl) | rfl) | rfl) | rfl := h
    · refine ⟨?_, UInt8.lt_iff_toNat_lt.mpr (Nat.lt_of_le_of_lt hd (by decide))⟩
      rintro rfl
      exact absurd hl (by decide)
    all_goals decide
  exact hP c hrange.1 hrange.2

theorem decimal_within (z : Int) : ∀ b ∈ decimalInt z, P b :=
  fun _ hb => numberByte_within hP (numberByte_of_mem_decimalInt hb)

theorem extends_number (w : Jw) {n : Number} (hlen : n.text.length < 64) :
    Extends P w (encode (.num n)) (jwFmt w n.text) := by
  rw [encode]
  refine extends_fmt w hlen ?_ fun b hb => ?_
  · intro hnil
    exact absurd n.ok (by rw [hnil]; decide)
  · exact numberByte_within hP (all_eq_true.mp n.bytes b hb)

theorem extends_iridiumAcars (h : Within P utc m) (ac : Cursor) :
    ExtendsMembers P ac (iridiumAcars utc m) (emitIridiumAcars utc ac m) := by
  have hdate := within_append h.date (literal_within hP (s := "+0000") (by decide))
  have herrors : (ofInt (if m.err then 1 else 0)).text.length < 64 := by
    cases m.err <;> decide
  have hdir : ∀ b ∈ ascii (if m.uplink then "uplink" else "downlink"), P b :=
    literal_within hP (by cases m.uplink <;> decide)
  refine .optionalStr hP ?_ (by decide) h.txt
  refine .optionalChar hP ?_ (by decide) fun h0 => ackChar_within hP (h.ack h0)
  refine .optionalStr hP ?_ (by decide) h.msgNum
  refine .optionalChar hP ?_ (by decide) h.blockId
  refine .trans ?_ (extends_optional fun _ =>
    extends_value hP _ (by decide) (extends_qstr hP _ (iridiumLabel_within hP h.label)))
  refine .optionalStr hP ?_ (by decide) h.flightId
  refine .optionalStr hP ?_ (by decide) fun b hb => h.reg b (tail_subset hb)
  refine .optionalChar hP ?_ (by decide) h.mode
  refine .trans ?_ (extends_memberBool hP _ (by decide) _)
  refine .trans ?_ (extends_memberStr hP _ (by decide) hdir)
  refine .trans ?_ (extends_value hP _ (by decide) (extends_number hP _ herrors))
  exact extends_optional fun _ => extends_memberStr hP _ (by decide) hdate

theorem extends_vdl2Top (h : Within P utc m) (top : Cursor) :
    ExtendsMembers P top (vdl2Top m) (emitVdl2Top top m) := by
  obtain ⟨hsec,husec⟩ := length_time m
  have htime : ∀ w, Extends P w (encode (vdl2Time m)) (jwFmt w (ascii "\x7b\"sec\":"++
      decimalInt m.sec++ascii ",\"usec\":"++decimalInt m.usec++ascii "\x7d")) := by
    intro w
    have hsecKey : (ascii "\x7b\"sec\":").length = 7 := by decide
    have husecKey : (ascii ",\"usec\":").length = 8 := by decide
    have hclose : (ascii "\x7d").length = 1 := by decide
    rw [encode_vdl2Time]
    refine extends_fmt w ?_ (ne_nil_of_length_pos ?_) (within_append (within_append
      (within_append (within_append (literal_within hP (by decide)) (decimal_within hP _))
        (literal_within hP (by decide))) (decimal_within hP _)) (literal_within hP (by decide)))
    · simp only [length_append, hsecKey, husecKey, hclose]
      omega
    · simp only [length_append, hsecKey]
      omega
  have hfreq : (ofInt m.freqHz.toNat).text.length < 64 := by
    have hlt := m.freqHz.toNat_lt
    have hlen := length_decimalInt_le (z := m.freqHz.toNat) (k := 9) (by omega)
    exact Nat.lt_of_le_of_lt hlen (by decide)
  refine .trans ?_ (extends_optional fun _ =>
    extends_value hP _ (by decide) (extends_number hP _ m.sig_fits))
  refine .trans ?_ (extends_optional fun _ =>
    extends_value hP _ (by decide) (extends_number hP _ hfreq))
  refine .trans ?_ (extends_optional fun _ =>
    extends_value hP _ (by decide) (htime _))
  exact extends_optional fun _ => extends_memberStr hP _ (by decide) h.stationId

theorem extends_addr (w : Jw) {s : Bytes} (hs : ∀ b ∈ s, P b) :
    Extends P w (openBrace::joined true ([(ascii "addr", Value.str s)].map memberOf))
      (jwQstr (jwPuts w "\x7b\"addr\":") s) := by
  have hall := (extends_puts hP w (s := "\x7b\"addr\":") (by decide)).trans (extends_qstr hP _ hs)
  have hkey : ascii "\x7b\"addr\":" =
      openBrace::quote::(escape (ascii "addr")++[quote, colon]) := by
    decide
  rw [hkey] at hall
  simpa [joined, memberOf, memberText, append_assoc] using hall

theorem extends_close {w w' : Jw} {o : Cursor} {v : Bytes × Value}
    (h : Extends P w (openBrace::joined true ([v].map memberOf)) w')
    (h' : ExtendsMembers P (w', false) ms o) :
    Extends P w (encode (.obj ([v]++ms))) (jwPuts o.1 "\x7d") := by
  have hall := (h.trans h'.text).trans (extends_puts hP _ (s := "\x7d") (by decide))
  rwa [encode_obj, map_append, joined_append]

theorem extends_vdl2Addr (h : Within P utc m) (avlc : Cursor) :
    ExtendsMembers P avlc (vdl2Addr m) (emitVdl2Addr avlc m) := by
  refine ExtendsMembers.trans (extends_optional fun _ => extends_value hP _ (by decide) ?_)
    (extends_optional fun _ => extends_value hP _ (by decide) ?_)
  · rw [vdl2Src, append_assoc]
    exact extends_close hP (extends_addr hP _ h.srcAddr) (ExtendsMembers.trans
      (extends_spelled hP _ h.srcType (by decide) (by decide))
      (extends_spelled hP _ h.srcStatus (by decide) (by decide)))
  · exact extends_close hP (extends_addr hP _ h.dstAddr)
      (extends_spelled hP _ h.dstType (by decide) (by decide))

theorem extends_vdl2 (h : Within P utc m) (w : Jw) :
    Extends P w (encode (vdl2Record m)) (emitVdl2 w m) := by
  have hcommand := literal_within hP (s := "Command") (by decide)
  have hinfo := literal_within hP (s := "I") (by decide)
  have havlc : ∀ o, ExtendsMembers P o (vdl2Addr m++[(ascii "cr", text "Command")]++
      [(ascii "frame_type", text "I")]) (jwMemberStr (jwMemberStr (emitVdl2Addr o m) "cr"
        (ascii "Command")) "frame_type" (ascii "I")) := fun o =>
    ((extends_vdl2Addr hP h o).trans (extends_memberStr hP _ (by decide) hcommand)).trans
      (extends_memberStr hP _ (by decide) hinfo)
  rw [vdl2Record, vdl2Avlc, encode_vdl2, emitVdl2]
  refine .trans ?_ (extends_puts hP _ (by decide))
  refine .trans ?_ (extends_vdl2Acars hP h (_, true)).text
  refine .trans ?_ (extends_puts hP _ (by decide))
  refine .trans ?_ ((havlc (_, true)).keyed hP (by decide))
  refine .trans ?_ (extends_puts hP _ (by decide))
  refine .trans ?_ ((extends_vdl2Top hP h (_, false)).keyed hP (by decide))
  exact extends_puts hP w (by decide)

theorem extends_iridium (h : Within P utc m) (w : Jw) :
    Extends P w (encode (iridiumRecord utc m)) (emitIridium utc w m) := by
  rw [iridiumRecord, encode_iridium, emitIridium]
  refine .trans ?_ (extends_puts hP _ (by decide))
  refine .trans ?_ (extends_iridiumAcars hP h (_, true)).text
  refine .trans ?_ (extends_puts hP _ (by decide))
  refine .trans ?_ (extends_spelled hP _ h.stationId (by decide) (by decide)).text
  exact extends_puts hP w (by decide)

theorem airframesFormat_spec (h : Within P utc m) (out : Nat → UInt8) (cap : Nat) :
    ∃ w, Extends P ⟨out, cap, 0, false⟩ (encode (record utc m)) w ∧
      airframesFormat utc out cap m =
        if w.overflow then (w.out, 0) else (store w.out w.len [0], w.len) := by
  rw [record, airframesFormat]
  cases m.band with
  | iridium => exact ⟨_, extends_iridium hP h _, rfl⟩
  | vdl2 => exact ⟨_, extends_vdl2 hP h _, rfl⟩

end

section
variable {P : UInt8 → Prop} {w : Jw} {out : Nat → UInt8} {cap : Nat} {t : Bytes}

theorem store_read (out : Nat → UInt8) (t : Bytes) :
    (List.range t.length).map (store out 0 t) = t := by
  refine ext_getElem (by simp) fun i hi hi' => ?_
  rw [getElem_map, getElem_range, store, if_pos ⟨Nat.zero_le i, by omega⟩,
    Nat.sub_zero, getD_eq_getElem _ _ hi']

structure AllOrNothing (out : Nat → UInt8) (cap : Nat) (t : Bytes) (r : (Nat → UInt8) × Nat) :
    Prop where
  zero_iff : r.2 = 0 ↔ cap ≤ t.length
  length : t.length < cap → r.2 = t.length
  text : t.length < cap → (List.range t.length).map r.1 = t
  terminated : t.length < cap → r.1 t.length = 0
  kept : ∀ i, cap ≤ i → r.1 i = out i

theorem Extends.allOrNothing (h : Extends P ⟨out, cap, 0, false⟩ t w) (hne : t ≠ []) :
    AllOrNothing out cap t (if w.overflow then (w.out, 0) else (store w.out w.len [0], w.len)) := by
  have hpos := length_pos_of_ne_nil hne
  have hfails : w.overflow ↔ cap ≤ t.length := by
    simpa [hne] using h.fails
  cases hov : w.overflow with
  | true =>
    have hle := hfails.mp hov
    rw [if_pos rfl]
    exact ⟨⟨fun _ => hle, fun _ => rfl⟩, fun hlt => by omega, fun hlt => by omega,
      fun hlt => by omega, h.kept⟩
  | false =>
    have hlt : ¬ cap ≤ t.length := fun hc => by
      rw [hfails.mpr hc] at hov
      cases hov
    obtain ⟨hlen,hout⟩ := h.written hov
    rw [Nat.zero_add] at hlen
    rw [if_neg (by decide), hlen, hout]
    refine ⟨⟨fun h0 => absurd h0 (by simpa using hne), fun hc => absurd hc hlt⟩, fun _ => rfl,
      fun _ => ?_, fun _ => ?_, fun i hi => ?_⟩
    · have hread := store_read out t
      refine Eq.trans (map_congr_left fun i hi => ?_) hread
      have := mem_range.mp hi
      exact if_neg (by omega)
    · change store (store out 0 t) t.length [0] t.length = 0
      rw [store, if_pos ⟨Nat.le_refl _, by simp⟩, Nat.sub_self]
      rfl
    · change store (store out 0 t) t.length [0] i = out i
      rw [store, if_neg (by simp only [length_singleton]; omega), ← hout]
      exact h.kept i hi

def document (utc : Int → CString) (m : AfMsg) : Bytes := encode (record utc m)

theorem document_ne_nil (utc : Int → CString) (m : AfMsg) : document utc m ≠ [] := by
  rw [document, record]
  cases m.band with
  | iridium => simp [iridiumRecord, encode_obj]
  | vdl2 => simp [vdl2Record, encode_obj]

theorem decode_document (utc : Int → CString) (m : AfMsg) :
    decode (document utc m) = some (record utc m) := by
  have h := decode_of_reads (reads_encode (record utc m)) (w := []) rfl
  rwa [append_nil] at h

theorem document_within (utc : Int → CString) (m : AfMsg) (hP : AllowsAscii P)
    (h : Within P utc m) : ∀ b ∈ document utc m, P b := by
  obtain ⟨w,hw,_⟩ := airframesFormat_spec hP h (fun _ => 0) 0
  exact hw.within

theorem within_nonzero (utc : Int → CString) (m : AfMsg) : Within (· ≠ 0) utc m where
  mode h := h
  label := m.label.nonzero
  blockId h := h
  msgNum := m.msgNum.nonzero
  msgNumSeq h := h
  flightId := m.flightId.nonzero
  reg := m.reg.nonzero
  ack h := h
  txt := (m.txt.getD .empty).nonzero
  srcAddr := m.srcAddr.nonzero
  dstAddr := m.dstAddr.nonzero
  srcType := (m.srcType.getD .empty).nonzero
  dstType := (m.dstType.getD .empty).nonzero
  srcStatus := (m.srcStatus.getD .empty).nonzero
  stationId := (m.stationId.getD .empty).nonzero
  date := (utc m.sec).nonzero

theorem airframesFormat_allOrNothing (utc : Int → CString) (out : Nat → UInt8) (cap : Nat)
    (m : AfMsg) : AllOrNothing out cap (document utc m) (airframesFormat utc out cap m) := by
  obtain ⟨w,hw,hr⟩ := airframesFormat_spec (fun _ h _ => h) (within_nonzero utc m) out cap
  rw [hr]
  exact hw.allOrNothing (document_ne_nil utc m)

/-- The formatter writes the whole document or returns 0; it decodes to the message's record. -/
theorem airframes_format_faithful (utc : Int → CString) (m : AfMsg) (out : Nat → UInt8)
    (cap : Nat) :
    AllOrNothing out cap (document utc m) (airframesFormat utc out cap m) ∧
      decode (document utc m) = some (record utc m) ∧
      (∀ b ∈ document utc m, b ≠ 0) ∧
      (Within (· < 128) utc m → ∀ b ∈ document utc m, b < 128) :=
  ⟨airframesFormat_allOrNothing utc out cap m, decode_document utc m,
    document_within utc m (fun _ h _ => h) (within_nonzero utc m),
    document_within utc m fun _ _ h => h⟩

def blankMsg (band : AfBand) : AfMsg where
  band := band
  epochUs := 0
  timeValid := false
  uplink := false
  crcOk := true
  err := false
  more := false
  mode := 0
  label := .empty
  blockId := 0
  msgNum := .empty
  msgNumSeq := 0
  flightId := .empty
  reg := .empty
  ack := 0
  txt := none
  freqHz := 0
  sigLevel := ofInt 0
  sigLevelValid := false
  srcAddr := .empty
  dstAddr := .empty
  srcType := none
  dstType := none
  srcStatus := none
  stationId := none
  sig_fits := by decide

def dotMsg : AfMsg := { blankMsg .iridium with reg := ⟨ascii ".", by decide +kernel⟩ }

def typeMsg : AfMsg :=
  { blankMsg .vdl2 with srcType := some ⟨ascii "Aircraft", by decide +kernel⟩ }

def lacksMember (m : AfMsg) (path : List String) (key : String) : Option Bool :=
  let r := airframesFormat (fun _ => .empty) (fun _ => 0) 4096 m
  (decode ((List.range r.2).map r.1)).bind fun v =>
    (path.foldlM (fun v key => Value.find v (ascii key)) v).map fun v => (v.find (ascii key)).isNone

/-- A registration of dots alone gives no tail, and a type without its address no type. -/
theorem nonempty_fields_omitted :
    (dotMsg.reg.bytes ≠ [] ∧ lacksMember dotMsg ["acars"] "tail" = some true) ∧
      deref typeMsg.srcType ≠ [] ∧ lacksMember typeMsg ["vdl2", "avlc"] "src" = some true := by
  decide +kernel

end

end IridiumAcars.Airframes
