import IridiumAcars.Lib.Decimal
import Mathlib.Data.List.GetD

/-! The feed formatter of airframes_fmt.c: a bounded JSON writer with a sticky overflow, and its two
schemas. -/
namespace IridiumAcars.Airframes
open Json Decimal List

/-- `jw_t`; `out` is the memory from the output pointer on, also behind the buffer. -/
structure Jw where
  out : Nat → UInt8
  cap : Nat
  len : Nat
  overflow : Bool

def store (out : Nat → UInt8) (pos : Nat) (s : Bytes) : Nat → UInt8 :=
  fun i => if pos ≤ i ∧ i < pos+s.length then s.getD (i-pos) 0 else out i

def jwWrite (w : Jw) (s : Bytes) : Jw :=
  if w.overflow then w
  else if w.cap = 0 ∨ s.length > w.cap-1-w.len then { w with overflow := true }
  else { w with out := store w.out w.len s, len := w.len+s.length }

def jwPuts (w : Jw) (s : String) : Jw := jwWrite w (ascii s)

/-- `jw_fmt`, given what `vsnprintf` formats; its temporary holds 64 bytes. -/
def jwFmt (w : Jw) (text : Bytes) : Jw :=
  if text.length ≥ 64 then { w with overflow := true } else jwWrite w text

def jwQchar (w : Jw) (c : UInt8) : Jw :=
  if c = 34 then jwPuts w "\\\""
  else if c = 92 then jwPuts w "\\\\"
  else if c = 10 then jwPuts w "\\n"
  else if c = 13 then jwPuts w "\\r"
  else if c = 9 then jwPuts w "\\t"
  else if c < 0x20 then jwFmt w (ascii "\\u00"++[hexByte (c >>> 4), hexByte (c &&& 0xf)])
  else jwWrite w [c]

def jwQstr (w : Jw) (s : Bytes) : Jw := jwPuts (s.foldl jwQchar (jwPuts w "\"")) "\""

abbrev Cursor := Jw × Bool

def jwMember (o : Cursor) (key : String) : Cursor :=
  let w := if !o.2 then jwPuts o.1 "," else o.1
  (jwPuts (jwPuts (jwPuts w "\"") key) "\":", false)

def jwMemberStr (o : Cursor) (key : String) (val : Bytes) : Cursor :=
  ((jwQstr (jwMember o key).1 val), false)

def jwMemberChar (o : Cursor) (key : String) (c : UInt8) : Cursor := jwMemberStr o key [c]

def jwMemberBool (o : Cursor) (key : String) (v : Bool) : Cursor :=
  (jwPuts (jwMember o key).1 (if v then "true" else "false"), false)

inductive AfBand
  | iridium
  | vdl2

/-- A NUL-terminated string, by the bytes in front of its NUL. -/
structure CString where
  bytes : Bytes
  nonzero : ∀ b ∈ bytes, b ≠ 0

/-- `af_msg_t`; the signal level is its `%.2f` text, and a pointer may be NULL. -/
structure AfMsg where
  band : AfBand
  epochUs : Int64
  timeValid : Bool
  uplink : Bool
  crcOk : Bool
  err : Bool
  more : Bool
  mode : UInt8
  label : CString
  blockId : UInt8
  msgNum : CString
  msgNumSeq : UInt8
  flightId : CString
  reg : CString
  ack : UInt8
  txt : Option CString
  freqHz : UInt32
  sigLevel : Number
  sigLevelValid : Bool
  srcAddr : CString
  dstAddr : CString
  srcType : Option CString
  dstType : Option CString
  srcStatus : Option CString
  stationId : Option CString
  sig_fits : sigLevel.text.length < 64

def CString.empty : CString := ⟨[], fun _ h => nomatch h⟩

def deref (p : Option CString) : Bytes := (p.getD .empty).bytes

def afAckChar (ack : UInt8) : UInt8 := if ack = 0x15 then 33 else ack

def AfMsg.sec (m : AfMsg) : Int := m.epochUs.toInt.tdiv 1000000
def AfMsg.usec (m : AfMsg) : Int := m.epochUs.toInt.tmod 1000000

def emitVdl2Top (top : Cursor) (m : AfMsg) : Cursor :=
  let top := if deref m.stationId ≠ [] then jwMemberStr top "station" (deref m.stationId) else top
  let top : Cursor := if m.timeValid then
    (jwFmt (jwMember top "t").1 (ascii "\x7b\"sec\":"++decimalInt m.sec++ascii ",\"usec\":"++
      decimalInt m.usec++ascii "\x7d"), false) else top
  let top : Cursor := if m.freqHz ≠ 0 then
    (jwFmt (jwMember top "freq").1 (decimalInt m.freqHz.toNat), false) else top
  if m.sigLevelValid then (jwFmt (jwMember top "sig_level").1 m.sigLevel.text, false) else top

def emitVdl2Addr (avlc : Cursor) (m : AfMsg) : Cursor :=
  let avlc : Cursor := if m.srcAddr.bytes ≠ [] then
    let w := jwPuts (jwMember avlc "src").1 "\x7b\"addr\":"
    let w := jwQstr w m.srcAddr.bytes
    let w := if deref m.srcType ≠ [] then jwQstr (jwPuts w ",\"type\":") (deref m.srcType) else w
    let w := if deref m.srcStatus ≠ [] then jwQstr (jwPuts w ",\"status\":") (deref m.srcStatus)
      else w
    (jwPuts w "\x7d", false) else avlc
  if m.dstAddr.bytes ≠ [] then
    let w := jwPuts (jwMember avlc "dst").1 "\x7b\"addr\":"
    let w := jwQstr w m.dstAddr.bytes
    let w := if deref m.dstType ≠ [] then jwQstr (jwPuts w ",\"type\":") (deref m.dstType) else w
    (jwPuts w "\x7d", false) else avlc

def emitVdl2Acars (ac : Cursor) (m : AfMsg) : Cursor :=
  let ac := jwMemberBool ac "err" m.err
  let ac := jwMemberBool ac "crc_ok" m.crcOk
  let ac := jwMemberBool ac "more" m.more
  let ac := if m.reg.bytes ≠ [] then jwMemberStr ac "reg" m.reg.bytes else ac
  let ac := if m.mode ≠ 0 then jwMemberChar ac "mode" m.mode else ac
  let ac := if m.label.bytes ≠ [] then jwMemberStr ac "label" m.label.bytes else ac
  let ac := if m.blockId ≠ 0 then jwMemberChar ac "blk_id" m.blockId else ac
  let ac := if m.ack ≠ 0 then jwMemberChar ac "ack" (afAckChar m.ack) else ac
  let ac := if m.flightId.bytes ≠ [] then jwMemberStr ac "flight" m.flightId.bytes else ac
  let ac := if m.msgNum.bytes ≠ [] then jwMemberStr ac "msg_num" m.msgNum.bytes else ac
  let ac := if m.msgNumSeq ≠ 0 then jwMemberChar ac "msg_num_seq" m.msgNumSeq else ac
  if deref m.txt ≠ [] then jwMemberStr ac "msg_text" (deref m.txt) else ac

def emitVdl2 (w : Jw) (m : AfMsg) : Jw :=
  let w := jwPuts w "\x7b\"vdl2\":\x7b\"app\":\x7b\"name\":\"dumpvdl2\",\"ver\":\"2.6.0\"\x7d"
  let top := jwMember (emitVdl2Top (w, false) m) "avlc"
  let avlc := emitVdl2Addr (jwPuts top.1 "\x7b", true) m
  let avlc := jwMemberStr avlc "cr" (ascii "Command")
  let avlc := jwMemberStr avlc "frame_type" (ascii "I")
  let avlc := jwMember avlc "acars"
  let ac := emitVdl2Acars (jwPuts avlc.1 "\x7b", true) m
  jwPuts ac.1 "\x7d\x7d\x7d\x7d"

def AfMsg.tail (m : AfMsg) : Bytes := m.reg.bytes.dropWhile (· == 46)

def iridiumLabel (label : Bytes) : Bytes :=
  if label.getD 0 0 = 95 ∧ label.getD 1 0 = 0x7f then ascii "_d" else label

/-- The `acars` object of `emit_iridium`; `utc` is the date and time text of the seconds. -/
def emitIridiumAcars (utc : Int → CString) (ac : Cursor) (m : AfMsg) : Cursor :=
  let ac := if m.timeValid then
    jwMemberStr ac "timestamp" ((utc m.sec).bytes++ascii "+0000") else ac
  let ac : Cursor := (jwFmt (jwMember ac "errors").1 (decimalInt (if m.err then 1 else 0)), false)
  let ac := jwMemberStr ac "link_direction" (ascii (if m.uplink then "uplink" else "downlink"))
  let ac := jwMemberBool ac "block_end" (!m.more)
  let ac := if m.mode ≠ 0 then jwMemberChar ac "mode" m.mode else ac
  let ac := if m.tail ≠ [] then jwMemberStr ac "tail" m.tail else ac
  let ac := if m.flightId.bytes ≠ [] then jwMemberStr ac "flight" m.flightId.bytes else ac
  let ac : Cursor := if m.label.bytes ≠ [] then
    (jwQstr (jwMember ac "label").1 (iridiumLabel m.label.bytes), false) else ac
  let ac := if m.blockId ≠ 0 then jwMemberChar ac "block_id" m.blockId else ac
  let ac := if m.msgNum.bytes ≠ [] then jwMemberStr ac "message_number" m.msgNum.bytes else ac
  let ac := if m.ack ≠ 0 then jwMemberChar ac "ack" (afAckChar m.ack) else ac
  if deref m.txt ≠ [] then jwMemberStr ac "text" (deref m.txt) else ac

def emitIridium (utc : Int → CString) (w : Jw) (m : AfMsg) : Jw :=
  let w := jwPuts w ("\x7b\"app\":\x7b\"name\":\"iridium-toolkit\",\"version\":\"0.0.1\"\x7d,"++
    "\"source\":\x7b\"transport\":\"iridium\",\"protocol\":\"acars\"")
  let w := if deref m.stationId ≠ [] then
    jwQstr (jwPuts w ",\"station_id\":") (deref m.stationId) else w
  let w := jwPuts w "\x7d,\"acars\":\x7b"
  let ac := emitIridiumAcars utc (w, true) m
  jwPuts ac.1 "\x7d\x7d"

def airframesFormat (utc : Int → CString) (out : Nat → UInt8) (cap : Nat) (m : AfMsg) :
    (Nat → UInt8) × Nat :=
  let w : Jw := ⟨out, cap, 0, false⟩
  let w := match m.band with
    | .vdl2 => emitVdl2 w m
    | .iridium => emitIridium utc w m
  if w.overflow then (w.out, 0) else (store w.out w.len [0], w.len)

variable {s : Bytes}

section
variable {P : UInt8 → Prop} {w w' w'' : Jw} {t t' : Bytes}

structure Extends (P : UInt8 → Prop) (w : Jw) (t : Bytes) (w' : Jw) : Prop where
  cap : w'.cap = w.cap
  kept : ∀ i, w.cap ≤ i → w'.out i = w.out i
  within : ∀ b ∈ t, P b
  fails : w'.overflow = true ↔ w.overflow = true ∨ t ≠ [] ∧ w.cap ≤ w.len+t.length
  written : w'.overflow = false → w'.len = w.len+t.length ∧ w'.out = store w.out w.len t

theorem store_nil (out : Nat → UInt8) (pos : Nat) : store out pos [] = out := by
  funext i
  rw [store, if_neg (by simp)]

theorem store_append (out : Nat → UInt8) (pos : Nat) (s t : Bytes) :
    store (store out pos s) (pos+s.length) t = store out pos (s++t) := by
  funext i
  simp only [store, length_append]
  by_cases h1 : pos ≤ i ∧ i < pos+s.length
  · rw [if_neg (by omega), if_pos h1, if_pos (by omega), getD_append _ _ _ _ (by omega)]
  · by_cases h2 : pos+s.length ≤ i ∧ i < pos+s.length+t.length
    · rw [if_pos h2, if_pos (by omega), getD_append_right _ _ _ _ (by omega)]
      congr 1
      omega
    · rw [if_neg h2, if_neg h1, if_neg (by omega)]

theorem extends_refl (P : UInt8 → Prop) (w : Jw) : Extends P w [] w where
  cap := rfl
  kept _ _ := rfl
  within _ h := nomatch h
  fails := by simp
  written _ := ⟨rfl, (store_nil _ _).symm⟩

theorem Extends.trans (h : Extends P w t w') (h' : Extends P w' t' w'') :
    Extends P w (t++t') w'' where
  cap := h'.cap.trans h.cap
  kept i hi := (h'.kept i (h.cap ▸ hi)).trans (h.kept i hi)
  within b hb := (mem_append.mp hb).elim (h.within b) (h'.within b)
  fails := by
    rw [h'.fails, h.cap, length_append]
    cases hov : w'.overflow with
    | true =>
      obtain hw | ⟨hne,hle⟩ := h.fails.mp hov
      · exact ⟨fun _ => .inl hw, fun _ => .inl rfl⟩
      · exact ⟨fun _ => .inr ⟨by simp [hne], by omega⟩, fun _ => .inl rfl⟩
    | false =>
      have hnot : ¬ (w.overflow ∨ t ≠ [] ∧ w.cap ≤ w.len+t.length) := fun hc => by
        rw [h.fails.mpr hc] at hov
        cases hov
      rw [(h.written hov).1]
      push Not at hnot
      constructor
      · rintro (hc | ⟨hne,hle⟩)
        · cases hc
        · exact .inr ⟨by simp [hne], by omega⟩
      · rintro (hc | ⟨hne,hle⟩)
        · exact absurd hc hnot.1
        · refine .inr ⟨?_, by omega⟩
          rintro rfl
          rw [append_nil] at hne
          have := hnot.2 hne
          simp only [length_nil] at hle
          omega
  written hov := by
    have hov' : w'.overflow = false := by
      cases hw : w'.overflow with
      | false => rfl
      | true =>
        rw [h'.fails.mpr (.inl hw)] at hov
        cases hov
    obtain ⟨hlen,hout⟩ := h.written hov'
    obtain ⟨hlen',hout'⟩ := h'.written hov
    refine ⟨by rw [hlen', hlen, length_append, Nat.add_assoc], ?_⟩
    rw [hout', hout, hlen, store_append]

theorem extends_write (w : Jw) (hne : t ≠ []) (ht : ∀ b ∈ t, P b) :
    Extends P w t (jwWrite w t) := by
  have hpos := length_pos_of_ne_nil hne
  rw [jwWrite]
  cases hov : w.overflow with
  | true =>
    rw [if_pos rfl]
    exact ⟨rfl, fun _ _ => rfl, ht, by simp [hov], fun h => by rw [hov] at h; cases h⟩
  | false =>
    rw [if_neg (by decide)]
    split_ifs with hfit
    · exact ⟨rfl, fun _ _ => rfl, ht, by simp [hne]; omega, fun h => nomatch h⟩
    · refine ⟨rfl, fun i hi => ?_, ht, ?_, fun _ => ⟨rfl, rfl⟩⟩
      · exact if_neg (by omega)
      · simp [hov, hne]
        omega

def AllowsAscii (P : UInt8 → Prop) : Prop := ∀ b, b ≠ 0 → b < 128 → P b

def Literal (s : String) : Prop := ascii s ≠ [] ∧ ∀ b ∈ ascii s, b ≠ 0 ∧ b < 128

def Key (s : String) : Prop := Literal s ∧ escape (ascii s) = ascii s

instance (s : String) : Decidable (Literal s) :=
  decidable_of_iff ((!(ascii s).isEmpty && (ascii s).all fun b => b != 0 && b < 128) = true)
    (by simp [Literal])

instance (s : String) : Decidable (Key s) := inferInstanceAs (Decidable (_ ∧ _))

theorem extends_puts (hP : AllowsAscii P) (w : Jw) {s : String} (h : Literal s) :
    Extends P w (ascii s) (jwPuts w s) :=
  extends_write w h.1 fun b hb => hP b (h.2 b hb).1 (h.2 b hb).2

theorem extends_fmt (w : Jw) (hlen : t.length < 64) (hne : t ≠ []) (ht : ∀ b ∈ t, P b) :
    Extends P w t (jwFmt w t) := by
  rw [jwFmt, if_neg (by omega)]
  exact extends_write w hne ht

theorem extends_qchar (hP : AllowsAscii P) (w : Jw) {c : UInt8} (hc : P c) :
    Extends P w (escapeByte c) (jwQchar w c) := by
  rw [escapeByte, jwQchar]
  split
  · exact extends_puts hP w (by decide)
  split
  · exact extends_puts hP w (by decide)
  split
  · exact extends_puts hP w (by decide)
  split
  · exact extends_puts hP w (by decide)
  split
  · exact extends_puts hP w (by decide)
  split
  · next hctrl =>
    have hall : ∀ n : Fin 32, ∀ b ∈ ascii "\\u00"++[hexByte (UInt8.ofNat n >>> 4),
        hexByte (UInt8.ofNat n &&& 0xf)], b ≠ 0 ∧ b < 128 := by decide +kernel
    have hb := hall ⟨c.toNat, UInt8.lt_iff_toNat_lt.mp hctrl⟩
    rw [UInt8.ofNat_toNat] at hb
    refine extends_fmt w ?_ (by simp) fun b h => hP b (hb b h).1 (hb b h).2
    rw [length_append]
    exact (show 4+2 < 64 by decide)
  · refine extends_write w (by simp) fun b hb => ?_
    rwa [mem_singleton.mp hb]

theorem extends_chars (hP : AllowsAscii P) (w : Jw) (hs : ∀ b ∈ s, P b) :
    Extends P w (escape s) (s.foldl jwQchar w) := by
  induction s generalizing w with
  | nil => exact extends_refl P w
  | cons c s ih =>
    rw [escape, flatMap_cons]
    exact (extends_qchar hP w (hs c mem_cons_self)).trans
      (ih _ fun b hb => hs b (mem_cons_of_mem c hb))

theorem extends_qstr (hP : AllowsAscii P) (w : Jw) (hs : ∀ b ∈ s, P b) :
    Extends P w (encode (.str s)) (jwQstr w s) := by
  have hall := ((extends_puts hP w (s := "\"") (by decide)).trans (extends_chars hP _ hs)).trans
    (extends_puts hP _ (s := "\"") (by decide))
  have htext : encode (.str s) = ascii "\""++escape s++ascii "\"" := by
    rw [encode]
    rfl
  rwa [htext]

end

variable {key : String}

section
variable {P : UInt8 → Prop} {o o' o'' : Cursor}

structure ExtendsMembers (P : UInt8 → Prop) (o : Cursor) (ms : List (Bytes × Value))
    (o' : Cursor) : Prop where
  text : Extends P o.1 (joined o.2 (ms.map memberOf)) o'.1
  flag : o'.2 = (o.2 && ms.isEmpty)

theorem members_refl (P : UInt8 → Prop) (o : Cursor) : ExtendsMembers P o [] o where
  text := extends_refl P o.1
  flag := by simp

theorem ExtendsMembers.trans {ms ms' : List (Bytes × Value)} (h : ExtendsMembers P o ms o')
    (h' : ExtendsMembers P o' ms' o'') : ExtendsMembers P o (ms++ms') o'' where
  text := by
    have ht := h.text.trans h'.text
    rw [h.flag] at ht
    rwa [map_append, joined_append, isEmpty_map]
  flag := by
    rw [h'.flag, h.flag]
    cases ms <;> simp

theorem extends_member (hP : AllowsAscii P) (o : Cursor) (hk : Key key) :
    Extends P o.1 ((if o.2 then [] else [comma])++quote::(escape (ascii key)++[quote, colon]))
      (jwMember o key).1 := by
  have hsep : Extends P o.1 (if o.2 then [] else [comma])
      (if !o.2 then jwPuts o.1 "," else o.1) := by
    cases o.2 with
    | false => exact extends_puts hP o.1 (s := ",") (by decide)
    | true => exact extends_refl P o.1
  have hall := ((hsep.trans (extends_puts hP _ (s := "\"") (by decide))).trans
    (extends_puts hP _ hk.1)).trans (extends_puts hP _ (s := "\":") (by decide))
  rw [hk.2, show quote::(ascii key++[quote, colon]) = ascii "\""++(ascii key++ascii "\":") from rfl,
    ← append_assoc, ← append_assoc]
  exact hall

def keyed (first : Bool) (ms : List (Bytes × Value)) (key : String) : Bytes :=
  joined first (ms.map memberOf)++((if first && ms.isEmpty then [] else [comma])++
    quote::(escape (ascii key)++[quote, colon]))

theorem ExtendsMembers.keyed (hP : AllowsAscii P) {ms : List (Bytes × Value)}
    (h : ExtendsMembers P o ms o') (hk : Key key) :
    Extends P o.1 (keyed o.2 ms key) (jwMember o' key).1 := by
  have hall := h.text.trans (extends_member hP o' hk)
  rwa [h.flag] at hall

theorem extends_value (hP : AllowsAscii P) (o : Cursor) (hk : Key key) {v : Value}
    {w : Jw} (hv : Extends P (jwMember o key).1 (encode v) w) :
    ExtendsMembers P o [(ascii key, v)] (w, false) where
  text := by
    have hall := (extends_member hP o hk).trans hv
    simpa [joined, memberOf, memberText, append_assoc] using hall
  flag := by simp

theorem extends_memberStr (hP : AllowsAscii P) (o : Cursor) (hk : Key key) (hs : ∀ b ∈ s, P b) :
    ExtendsMembers P o [(ascii key, .str s)] (jwMemberStr o key s) :=
  extends_value hP o hk (extends_qstr hP _ hs)

theorem extends_memberBool (hP : AllowsAscii P) (o : Cursor) (hk : Key key)
    (b : Bool) : ExtendsMembers P o [(ascii key, .bool b)] (jwMemberBool o key b) := by
  refine extends_value hP o hk ?_
  rw [encode]
  cases b with
  | false => exact extends_puts hP _ (s := "false") (by decide)
  | true => exact extends_puts hP _ (s := "true") (by decide)

def optional (c : Prop) [Decidable c] (key : String) (v : Value) : List (Bytes × Value) :=
  if c then [(ascii key, v)] else []

theorem extends_optional {c : Prop} [Decidable c] {v : Value}
    (h : c → ExtendsMembers P o [(ascii key, v)] o') :
    ExtendsMembers P o (optional c key v) (if c then o' else o) := by
  rw [optional]
  split
  · next hc => exact h hc
  · exact members_refl P o

theorem extends_spelled (hP : AllowsAscii P) (w : Jw) (hs : ∀ b ∈ s, P b)
    {lit key : String} (hlit : Literal lit)
    (hk : ascii lit = comma::quote::(escape (ascii key)++[quote, colon])) :
    ExtendsMembers P (w, false) (optional (s ≠ []) key (.str s))
      (if s ≠ [] then jwQstr (jwPuts w lit) s else w, false) := by
  rw [optional]
  by_cases hc : s ≠ []
  · rw [if_pos hc, if_pos hc]
    have hall := (extends_puts hP w hlit).trans (extends_qstr hP _ hs)
    rw [hk] at hall
    refine ⟨?_, by simp⟩
    simpa [joined, memberOf, memberText, append_assoc] using hall
  · rw [if_neg hc, if_neg hc]
    exact members_refl P _

end

end IridiumAcars.Airframes
