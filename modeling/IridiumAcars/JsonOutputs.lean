import IridiumAcars.Lib.Decimal
import IridiumAcars.Lib.JsonInversion
import IridiumAcars.MsgRing

/-! The JSON outputs of a message: sd_log.c, acars_push.c and `GET /messages`. -/
namespace IridiumAcars.JsonOutputs
open Json Decimal Messages
open List hiding Vector

def cstr (s : List UInt8) : Bytes := s.takeWhile (· != 0)

def escapeLoop (outsz : Nat) (w : Bytes) : List UInt8 → Bytes
  | [] => w
  | c::s => if c ≠ 0 ∧ w.length+7 < outsz then escapeLoop outsz (w++escapeByte c) s else w

/-- `json_escape`, of which all three files have the same copy: the string it leaves. -/
def jsonEscape (outsz : Nat) (s : List UInt8) : Bytes :=
  if outsz = 0 then [] else escapeLoop outsz [] s

/-- What `snprintf` leaves in front of the NUL, and the caller sends. -/
def snprintf (cap : Nat) (text : Bytes) : Bytes := text.take (cap-1)

/-- `%.1f` of a `float`: some decimal, of at most 39 digits, a sign and a decimal place. -/
structure Rendering where
  number : UInt32 → Number
  length_le : ∀ x, (number x).text.length ≤ 42

@[ext] structure Texts where
  mode : Bytes
  label : Bytes
  block : Bytes
  msgNum : Bytes
  flight : Bytes
  txt : Bytes

/-- The format string, which the three files share up to the member `part`. -/
def messageText (snr : Rendering) (m : AcarsMsg) (t : Texts) (part : Bytes) : Bytes :=
  ascii "\x7b\"id\":"++decimalInt (m.id%2^64 : Nat)++
  ascii ",\"t_us\":"++decimalInt m.timestampUs.toNat++
  ascii ",\"dir\":\""++ascii (if m.uplink then "UL" else "DL")++
  ascii "\",\"mode\":\""++t.mode++
  ascii "\",\"label\":\""++t.label++
  ascii "\",\"block\":\""++t.block++
  ascii "\",\"msg_num\":\""++t.msgNum++
  ascii "\",\"flight\":\""++t.flight++
  ascii "\",\"crc\":"++(if m.crcOk then ascii "true" else ascii "false")++part++
  ascii ",\"peak_bin\":"++decimalInt m.peakBin.toInt++
  ascii ",\"snr_db\":"++(snr.number m.snrDb).text++
  ascii ",\"txt\":\""++t.txt++ascii "\"\x7d"

def lineFields (m : AcarsMsg) : Texts where
  mode := [m.mode]
  label := (cstr m.label.toList).take 2
  block := [m.blockId]
  msgNum := jsonEscape (6*5+1) m.msgNum.toList
  flight := jsonEscape (6*7+1) m.flightId.toList
  txt := jsonEscape (6*msgRingTxtMax+1) m.txt.toList

def formatMsgLine (snr : Rendering) (cap : Nat) (m : AcarsMsg) : Bytes :=
  snprintf cap (messageText snr m (lineFields m) []++ascii "\n")

def escapeFields (label msgNum flight txt : Nat) (m : AcarsMsg) : Texts where
  mode := jsonEscape 8 [m.mode, 0]
  label := jsonEscape label [m.label[0], m.label[1], 0]
  block := jsonEscape 8 [m.blockId, 0]
  msgNum := jsonEscape msgNum m.msgNum.toList
  flight := jsonEscape flight m.flightId.toList
  txt := jsonEscape txt m.txt.toList

def formatMsg (snr : Rendering) (cap : Nat) (m : AcarsMsg) : Bytes :=
  snprintf cap (messageText snr m
    (escapeFields 16 (2*5+1) (2*7+1) (2*msgRingTxtMax+8) m) []++ascii "\n")

def separator (i : Nat) : Bytes := if i = 0 then [] else [comma]

def messageChunk (snr : Rendering) (i : Nat) (m : AcarsMsg) : Bytes :=
  snprintf 600 (separator i++messageText snr m
    (escapeFields 8 16 16 (2*msgRingTxtMax+8) m)
    (ascii ",\"partial\":"++if m.isPartial then ascii "true" else ascii "false"))

def messageObject (snr : Rendering) (i : Nat) (m : AcarsMsg) : Bytes :=
  (messageChunk snr i m).drop (separator i).length

def charText (c : UInt8) : Bytes := if c = 0 then [] else [c]

def fields (m : AcarsMsg) : Texts where
  mode := charText m.mode
  label := cstr m.label.toList
  block := charText m.blockId
  msgNum := cstr m.msgNum.toList
  flight := cstr m.flightId.toList
  txt := cstr m.txt.toList

def textMembers (m : AcarsMsg) : List (Bytes × Bytes) :=
  [(ascii "dir", ascii (if m.uplink then "UL" else "DL")), (ascii "mode", (fields m).mode),
    (ascii "label", (fields m).label), (ascii "block", (fields m).block),
    (ascii "msg_num", (fields m).msgNum), (ascii "flight", (fields m).flight),
    (ascii "txt", (fields m).txt)]

/-- The text is JSON and every text member decodes to the field. -/
def Faithful (text : Bytes) (m : AcarsMsg) : Prop :=
  ∃ v, decode text = some v ∧ ∀ p ∈ textMembers m, v.find p.1 = some (.str p.2)

structure Terminated (m : AcarsMsg) : Prop where
  label : 0 ∈ m.label.toList
  msgNum : 0 ∈ m.msgNum.toList
  flightId : 0 ∈ m.flightId.toList
  txt : 0 ∈ m.txt.toList

/-- The loop of `json_escape` still has its seven bytes of room at the last byte of `s`. -/
def Fits (outsz : Nat) (s : Bytes) : Prop := (escape s.dropLast).length+7 < outsz

instance (outsz : Nat) (s : Bytes) : Decidable (Fits outsz s) :=
  inferInstanceAs (Decidable (_ < _))

variable (snr : Rendering) (m : AcarsMsg)

theorem cstr_cons {c : UInt8} (h : c ≠ 0) (s : List UInt8) : cstr (c::s) = c::cstr s := by
  simp [cstr, h]

theorem escapeLoop_spec (outsz : Nat) (w : Bytes) (s : List UInt8) :
    ∃ k, escapeLoop outsz w s = w++escape ((cstr s).take k) ∧
      ((cstr s).take k = cstr s ↔
        cstr s = [] ∨ w.length+(escape (cstr s).dropLast).length+7 < outsz) := by
  induction s generalizing w with
  | nil => exact ⟨0, by simp [escapeLoop, cstr, escape], by simp [cstr]⟩
  | cons c s ih =>
    by_cases hc : c = 0
    · exact ⟨0, by simp [escapeLoop, cstr, escape, hc], by simp [cstr, hc]⟩
    rw [escapeLoop, cstr_cons hc]
    by_cases hroom : w.length+7 < outsz
    · obtain ⟨k,hk,hall⟩ := ih (w++escapeByte c)
      refine ⟨k+1, ?_, ?_⟩
      · rw [if_pos ⟨hc, hroom⟩, hk, take_succ_cons, escape, escape, flatMap_cons,
          append_assoc]
      · rw [take_succ_cons, cons_inj_right, hall, length_append]
        cases hs : cstr s with
        | nil => simp [escape, hroom]
        | cons d t =>
          have hdrop : (c::d::t).dropLast = c::(d::t).dropLast := rfl
          rw [hdrop, escape, escape, flatMap_cons, length_append]
          simp only [reduceCtorEq, false_or]
          omega
    · refine ⟨0, ?_, ?_⟩
      · rw [if_neg fun h => hroom h.2]
        simp [escape]
      · refine iff_of_false (by simp) ?_
        simp only [reduceCtorEq, false_or]
        omega

theorem jsonEscape_spec {outsz : Nat} (h : 7 < outsz) (s : List UInt8) :
    ∃ k, jsonEscape outsz s = escape ((cstr s).take k) ∧
      ((cstr s).take k = cstr s ↔ Fits outsz (cstr s)) := by
  obtain ⟨k,hk,hall⟩ := escapeLoop_spec outsz [] s
  refine ⟨k, by rw [jsonEscape, if_neg (by omega), hk, nil_append], hall.trans ?_⟩
  rw [Fits, length_nil, Nat.zero_add]
  constructor
  · rintro (hnil | hlt)
    · rwa [hnil]
    · exact hlt
  · exact .inr

section
variable {m : AcarsMsg}

theorem length_cstr_lt {s : List UInt8} (h : 0 ∈ s) : (cstr s).length < s.length := by
  induction s with
  | nil => cases h
  | cons c s ih =>
    by_cases hc : c = 0
    · simp [cstr, hc]
    · have hs := ih ((mem_cons.mp h).resolve_left fun h0 => hc h0.symm)
      rw [cstr_cons hc, length_cons, length_cons]
      omega

theorem jsonEscape_complete {n : Nat} {v : Vector UInt8 (n+2)} (h : 0 ∈ v.toList) :
    jsonEscape (6*(n+2)+1) v.toList = escape (cstr v.toList) := by
  have hlt := length_cstr_lt h
  rw [Vector.length_toList] at hlt
  obtain ⟨k,hk,hall⟩ := jsonEscape_spec (show 7 < 6*(n+2)+1 by omega) v.toList
  have hfits : Fits (6*(n+2)+1) (cstr v.toList) := by
    have hdrop := length_escape_le (cstr v.toList).dropLast
    rw [length_dropLast] at hdrop
    rw [Fits]
    omega
  rw [hk, hall.mpr hfits]

theorem jsonEscape_char (c : UInt8) : jsonEscape 8 [c, 0] = escape (charText c) := by
  by_cases hc : c = 0
  · simp [jsonEscape, escapeLoop, charText, escape, hc]
  · simp [jsonEscape, escapeLoop, charText, escape, hc]

theorem toList_three (v : Vector UInt8 3) : v.toList = [v[0], v[1], v[2]] := by
  obtain ⟨⟨l⟩,hl⟩ := v
  match l, hl with
  | [a, b, c], _ => rfl

theorem cstr_label (h : 0 ∈ m.label.toList) :
    cstr [m.label[0], m.label[1], 0] = cstr m.label.toList := by
  rw [toList_three] at h ⊢
  by_cases h0 : m.label[0] = 0
  · simp [cstr, h0]
  by_cases h1 : m.label[1] = 0
  · simp [cstr, h0, h1]
  have h2 : m.label[2] = 0 := by
    simp only [mem_cons, not_mem_nil, or_false] at h
    obtain h | h | h := h
    · exact absurd h.symm h0
    · exact absurd h.symm h1
    · exact h.symm
  rw [h2]

theorem length_charText (c : UInt8) : (charText c).length ≤ 1 := by
  rw [charText]
  split
  · exact Nat.zero_le 1
  · exact Nat.le_refl 1

structure Texts.Bounded (t : Texts) : Prop where
  mode : t.mode.length ≤ 1
  label : t.label.length ≤ 2
  block : t.block.length ≤ 1
  msgNum : t.msgNum.length ≤ 4
  flight : t.flight.length ≤ 6
  txt : t.txt.length ≤ 255

theorem length_cstr_le {n : Nat} {v : Vector UInt8 (n+1)} (h : 0 ∈ v.toList) :
    (cstr v.toList).length ≤ n := by
  have hlt := length_cstr_lt h
  rw [Vector.length_toList] at hlt
  omega

theorem fields_bounded (h : Terminated m) : (fields m).Bounded where
  mode := length_charText _
  label := length_cstr_le h.label
  block := length_charText _
  msgNum := length_cstr_le h.msgNum
  flight := length_cstr_le h.flightId
  txt := length_cstr_le (n := 255) h.txt

def Texts.escaped (t : Texts) : Texts where
  mode := escape t.mode
  label := escape t.label
  block := escape t.block
  msgNum := escape t.msgNum
  flight := escape t.flight
  txt := escape t.txt

theorem escapeFields_spec (h : Terminated m) (label msgNum flight txt : Nat) (hl : 7 < label)
    (hn : 7 < msgNum) (hf : 7 < flight) (ht : 7 < txt) :
    ∃ t : Texts, escapeFields label msgNum flight txt m = t.escaped ∧ t.Bounded ∧
      (t = fields m ↔ Fits label (fields m).label ∧ Fits msgNum (fields m).msgNum ∧
        Fits flight (fields m).flight ∧ Fits txt (fields m).txt) := by
  obtain ⟨kl,hkl,hl⟩ := jsonEscape_spec hl [m.label[0], m.label[1], 0]
  obtain ⟨kn,hkn,hn⟩ := jsonEscape_spec hn m.msgNum.toList
  obtain ⟨kf,hkf,hf⟩ := jsonEscape_spec hf m.flightId.toList
  obtain ⟨kt,hkt,ht⟩ := jsonEscape_spec ht m.txt.toList
  rw [cstr_label h.label] at hkl hl
  have hb := fields_bounded h
  have htake : ∀ {s : Bytes} {n : Nat} (k : Nat), s.length ≤ n → (s.take k).length ≤ n :=
    fun k hs => Nat.le_trans (length_take_le' k _) hs
  refine ⟨⟨charText m.mode, (cstr m.label.toList).take kl, charText m.blockId,
    (cstr m.msgNum.toList).take kn, (cstr m.flightId.toList).take kf,
    (cstr m.txt.toList).take kt⟩, ?_, ?_, ?_⟩
  · rw [escapeFields, jsonEscape_char, jsonEscape_char, hkl, hkn, hkf, hkt]
    rfl
  · exact ⟨hb.mode, htake kl hb.label, hb.block, htake kn hb.msgNum, htake kf hb.flight,
      htake kt hb.txt⟩
  · rw [Texts.ext_iff]
    simp only [fields, hl, hn, hf, ht, true_and]

end

def leading (m : AcarsMsg) : List (Bytes × Value) :=
  [(ascii "id", .num (ofInt (m.id%2^64 : Nat))), (ascii "t_us", .num (ofInt m.timestampUs.toNat)),
    (ascii "dir", .str (ascii (if m.uplink then "UL" else "DL")))]

def members (snr : Rendering) (m : AcarsMsg) (t : Texts) (part : List (Bytes × Value)) :
    List (Bytes × Value) :=
  leading m++[(ascii "mode", .str t.mode), (ascii "label", .str t.label),
    (ascii "block", .str t.block), (ascii "msg_num", .str t.msgNum),
    (ascii "flight", .str t.flight), (ascii "crc", .bool m.crcOk)]++part++
    [(ascii "peak_bin", .num (ofInt m.peakBin.toInt)), (ascii "snr_db", .num (snr.number m.snrDb)),
    (ascii "txt", .str t.txt)]

theorem escape_dir : escape (ascii (if m.uplink then "UL" else "DL")) =
    ascii (if m.uplink then "UL" else "DL") := by
  cases m.uplink <;> decide

variable (t : Texts)

theorem messageText_escaped (part : List (Bytes × Value)) :
    messageText snr m t.escaped (joined false (part.map memberOf)) =
      encode (.obj (members snr m t part)) := by
  rw [encode_obj, members, leading, map_append, map_append, map_append,
    joined_append, joined_append, joined_append]
  unfold messageText
  simp only [map_cons, map_nil, joined, memberOf, memberText, encode, ofInt, escape_dir,
    Texts.escaped]
  simp only [append_assoc, cons_append, nil_append, if_true]
  rfl

def partMember (b : Bool) : List (Bytes × Value) := [(ascii "partial", .bool b)]

theorem forall_textMembers {m : AcarsMsg} {P : Bytes × Bytes → Prop} :
    (∀ p ∈ textMembers m, P p) ↔ P (ascii "dir", ascii (if m.uplink then "UL" else "DL")) ∧
      P (ascii "mode", (fields m).mode) ∧ P (ascii "label", (fields m).label) ∧
      P (ascii "block", (fields m).block) ∧ P (ascii "msg_num", (fields m).msgNum) ∧
      P (ascii "flight", (fields m).flight) ∧ P (ascii "txt", (fields m).txt) := by
  simp [textMembers]

structure Names (ms : List (Bytes × Value)) (m : AcarsMsg) (t : Texts) : Prop where
  dir : ms.lookup (ascii "dir") = some (.str (ascii (if m.uplink then "UL" else "DL")))
  mode : ms.lookup (ascii "mode") = some (.str t.mode)
  label : ms.lookup (ascii "label") = some (.str t.label)
  block : ms.lookup (ascii "block") = some (.str t.block)
  msgNum : ms.lookup (ascii "msg_num") = some (.str t.msgNum)
  flight : ms.lookup (ascii "flight") = some (.str t.flight)
  txt : ms.lookup (ascii "txt") = some (.str t.txt)

theorem members_names :
    Names (members snr m t []) m t := by
  constructor <;> rfl

theorem partMembers_names (b : Bool) :
    Names (members snr m t (partMember b)) m t := by
  constructor <;> rfl

theorem faithful_iff_fields {text : Bytes} {ms : List (Bytes × Value)} {m : AcarsMsg} {t : Texts}
    (hd : decode text = some (.obj ms)) (h : Names ms m t) : Faithful text m ↔ t = fields m := by
  constructor
  · rintro ⟨v,hv,hall⟩
    rw [hd] at hv
    cases hv
    obtain ⟨_,hmode,hlabel,hblock,hnum,hflight,htxt⟩ := forall_textMembers.mp hall
    have hstr : ∀ {key s s'}, ms.lookup key = some (.str s) →
        (Value.obj ms).find key = some (.str s') → s = s' := by
      intro key s s' hs hs'
      exact Value.str.inj (Option.some.inj (hs.symm.trans hs'))
    exact Texts.ext (hstr h.mode hmode) (hstr h.label hlabel) (hstr h.block hblock)
      (hstr h.msgNum hnum) (hstr h.flight hflight) (hstr h.txt htxt)
  · rintro rfl
    exact ⟨_, hd, forall_textMembers.mpr
      ⟨h.dir, h.mode, h.label, h.block, h.msgNum, h.flight, h.txt⟩⟩

theorem length_messageText (part : Bytes) :
    (messageText snr m t part).length = 121+(decimalInt (m.id%2^64 : Nat)).length+
      (decimalInt m.timestampUs.toNat).length+t.mode.length+t.label.length+t.block.length+
      t.msgNum.length+t.flight.length+(if m.crcOk then 4 else 5)+part.length+
      (decimalInt m.peakBin.toInt).length+(snr.number m.snrDb).text.length+t.txt.length := by
  have hdir : (ascii (if m.uplink then "UL" else "DL")).length = 2 := by
    cases m.uplink <;> rfl
  have hcrc : (if m.crcOk then ascii "true" else ascii "false").length =
      if m.crcOk then 4 else 5 := by
    cases m.crcOk <;> rfl
  have hfixed : (ascii "\x7b\"id\":").length+(ascii ",\"t_us\":").length+
      (ascii ",\"dir\":\"").length+(ascii "\",\"mode\":\"").length+
      (ascii "\",\"label\":\"").length+(ascii "\",\"block\":\"").length+
      (ascii "\",\"msg_num\":\"").length+(ascii "\",\"flight\":\"").length+
      (ascii "\",\"crc\":").length+(ascii ",\"peak_bin\":").length+
      (ascii ",\"snr_db\":").length+(ascii ",\"txt\":\"").length+
      (ascii "\"\x7d").length = 119 := by
    decide +kernel
  unfold messageText
  simp only [length_append, hdir, hcrc]
  omega

theorem length_escape_of_le {s : Bytes} {n : Nat} (h : s.length ≤ n) : (escape s).length ≤ 6*n :=
  Nat.le_trans (length_escape_le s) (Nat.mul_le_mul_left 6 h)

theorem length_messageText_lt {t : Texts} (hmode : t.mode.length ≤ 6) (hlabel : t.label.length ≤ 12)
    (hblock : t.block.length ≤ 6) (hnum : t.msgNum.length ≤ 24) (hflight : t.flight.length ≤ 36)
    (htxt : t.txt.length ≤ 1530) :
    (messageText snr m t []++ascii "\n").length < 2048 := by
  have hid := length_decimalInt_le (z := (m.id%2^64 : Nat)) (k := 19) (by
    have := Nat.mod_lt m.id (show 0 < 2^64 by decide)
    omega)
  have htime := length_decimalInt_le (z := m.timestampUs.toNat) (k := 19) (by
    have := m.timestampUs.toNat_lt
    omega)
  have hpeak := length_decimalInt_le (z := m.peakBin.toInt) (k := 9) (by
    have := m.peakBin.le_toInt
    have := m.peakBin.toInt_lt
    omega)
  have hsnr := snr.length_le m.snrDb
  have hcrc : (if m.crcOk then 4 else 5) ≤ 5 := by
    cases m.crcOk <;> decide
  rw [length_append, length_messageText, length_nil,
    show (ascii "\n").length = 1 from rfl]
  omega

theorem decode_line :
    decode (messageText snr m t.escaped []++ascii "\n") = some (.obj (members snr m t [])) := by
  have htext := messageText_escaped snr m t []
  rw [show joined false (([] : List (Bytes × Value)).map memberOf) = [] from rfl] at htext
  rw [htext]
  exact decode_of_reads (reads_encode _) (by decide)

theorem length_escaped_lt {t : Texts} (h : t.Bounded) :
    (messageText snr m t.escaped []++ascii "\n").length < 2048 := by
  exact length_messageText_lt snr m (length_escape_of_le h.mode) (length_escape_of_le h.label)
    (length_escape_of_le h.block) (length_escape_of_le h.msgNum) (length_escape_of_le h.flight)
    (length_escape_of_le h.txt)

theorem snprintf_eq {cap : Nat} {text : Bytes} (h : text.length < cap) :
    snprintf cap text = text :=
  take_of_length_le (by omega)

theorem label_fits {m : AcarsMsg} (h : Terminated m) : Fits 16 (fields m).label := by
  have hdrop := length_escape_le (fields m).label.dropLast
  have hlen := (fields_bounded h).label
  rw [length_dropLast] at hdrop
  rw [Fits]
  omega

structure DatagramFits (m : AcarsMsg) : Prop where
  msgNum : Fits (2*5+1) (fields m).msgNum
  flight : Fits (2*7+1) (fields m).flight
  txt : Fits (2*msgRingTxtMax+8) (fields m).txt

theorem formatMsg_faithful_iff {m : AcarsMsg} (h : Terminated m) :
    Faithful (formatMsg snr 2048 m) m ↔ DatagramFits m := by
  obtain ⟨t,ht,hb,hall⟩ := escapeFields_spec h 16 (2*5+1) (2*7+1) (2*msgRingTxtMax+8) (by decide)
    (by decide) (by decide) (by decide)
  rw [formatMsg, ht, snprintf_eq (length_escaped_lt snr m hb),
    faithful_iff_fields (decode_line snr m t) (members_names snr m t), hall]
  exact ⟨fun ⟨_,hn,hf,ht⟩ => ⟨hn, hf, ht⟩,
    fun hd => ⟨label_fits h, hd.msgNum, hd.flight, hd.txt⟩⟩

section
variable {m : AcarsMsg}

structure LinePlain (m : AcarsMsg) : Prop where
  mode : plain m.mode = true
  label : ∀ c ∈ (fields m).label, plain c = true
  block : plain m.blockId = true

theorem messageText_opened (m : AcarsMsg) (t : Texts) (part w : Bytes) :
    ∃ rest, messageText snr m t part++w = openBrace::(listed ((leading m).map memberOf)++
      opened (ascii "mode") (t.mode++quote::comma::opened (ascii "label") (t.label++quote::comma::
        opened (ascii "block") (t.block++quote::comma::quote::rest)))) := by
  apply Exists.intro
  unfold messageText
  simp only [leading, map_cons, map_nil, listed, flatMap_cons, flatMap_nil,
    memberOf, memberText, encode, ofInt, escape_dir, opened]
  simp only [append_assoc, cons_append, nil_append]
  rfl

theorem charText_of_plain {c : UInt8} (h : plain c = true) : charText c = [c] := by
  refine if_neg ?_
  rintro rfl
  exact absurd h (by decide)

theorem plain_of_charText {c : UInt8} {s r : Bytes}
    (h : parseString (c::quote::comma::quote::s) = some (charText c, r)) : plain c = true := by
  by_cases hc : c = 0
  · rw [hc, parseString_cons, if_neg (by decide), if_neg (by decide), if_pos (by decide)] at h
    cases h
  · rw [charText, if_neg hc] at h
    exact plain_of_parse_one h

theorem take_label (h : Terminated m) : (cstr m.label.toList).take 2 = (fields m).label :=
  take_of_length_le (length_cstr_le h.label)

theorem lineFields_of_plain (h : Terminated m) (hp : LinePlain m) :
    lineFields m = (fields m).escaped := by
  have hchar : ∀ {c : UInt8}, plain c = true → [c] = escape (charText c) := by
    intro c hc
    rw [charText_of_plain hc]
    exact (escape_of_plain (by simpa using hc)).symm
  exact Texts.ext (hchar hp.mode) ((take_label h).trans (escape_of_plain hp.label).symm)
    (hchar hp.block) (jsonEscape_complete h.msgNum) (jsonEscape_complete h.flightId)
    (jsonEscape_complete (n := 254) h.txt)

theorem length_line_lt (h : Terminated m) :
    (messageText snr m (lineFields m) []++ascii "\n").length < 2048 := by
  have hb := fields_bounded h
  refine length_messageText_lt snr m (by simp [lineFields]) ?_ (by simp [lineFields]) ?_ ?_ ?_
  · exact Nat.le_trans (length_take_le 2 _) (by decide)
  · exact (congrArg List.length (jsonEscape_complete h.msgNum)).trans_le
      (length_escape_of_le hb.msgNum)
  · exact (congrArg List.length (jsonEscape_complete h.flightId)).trans_le
      (length_escape_of_le hb.flight)
  · exact (congrArg List.length (jsonEscape_complete (n := 254) h.txt)).trans_le
      (length_escape_of_le hb.txt)

theorem parseString_of_find {ms : List (Bytes × Value)} {key p b : Bytes} {v : Value}
    (hd : decode (openBrace::(listed (ms.map memberOf)++opened key p)) = some v)
    (hnew : ∀ s ms', (Value.obj (ms++(key, .str s)::ms')).find key = some (.str s))
    (hfind : v.find key = some (.str b)) : ∃ r, parseString p = some (b, r) := by
  obtain ⟨s,r,ms',hs,rfl⟩ := decode_opened hd
  rw [hnew] at hfind
  cases hfind
  exact ⟨r, hs⟩

theorem linePlain_of_faithful (h : Terminated m)
    (hf : Faithful (messageText snr m (lineFields m) []++ascii "\n") m) : LinePlain m := by
  obtain ⟨v,hv,hall⟩ := hf
  obtain ⟨-,hmode,hlabel,hblock,-⟩ := forall_textMembers.mp hall
  obtain ⟨rest,htext⟩ := messageText_opened snr m (lineFields m) [] (ascii "\n")
  rw [htext] at hv
  obtain ⟨r,hm⟩ := parseString_of_find hv (fun _ _ => rfl) hmode
  have hpm : plain m.mode = true := plain_of_charText hm
  have hplain : ∀ c ∈ [m.mode], plain c = true := by simpa using hpm
  have hem : (lineFields m).mode = escape [m.mode] := (escape_of_plain hplain).symm
  rw [hem, listed_opened] at hv
  obtain ⟨r,hl⟩ := parseString_of_find hv (fun _ _ => rfl) hlabel
  have hel : (lineFields m).label = (fields m).label := take_label h
  rw [hel] at hl hv
  have hpl : ∀ c ∈ (fields m).label, plain c = true :=
    plain_of_parse (fields_bounded h).label hl
  rw [← escape_of_plain hpl, listed_opened] at hv
  obtain ⟨r,hb⟩ := parseString_of_find hv (fun _ _ => rfl) hblock
  exact ⟨hpm, hpl, plain_of_charText hb⟩

theorem formatMsgLine_faithful_iff (h : Terminated m) :
    Faithful (formatMsgLine snr 2048 m) m ↔ LinePlain m := by
  rw [formatMsgLine, snprintf_eq (length_line_lt snr h)]
  refine ⟨linePlain_of_faithful snr h, fun hp => ?_⟩
  rw [lineFields_of_plain h hp, faithful_iff_fields (decode_line snr m _) (members_names snr m _)]

end

def objectLength (snr : Rendering) (m : AcarsMsg) : Nat :=
  132+(decimalInt (m.id%2^64 : Nat)).length+(decimalInt m.timestampUs.toNat).length+
    (escape (fields m).mode).length+(escape (fields m).label).length+
    (escape (fields m).block).length+(escape (fields m).msgNum).length+
    (escape (fields m).flight).length+(if m.crcOk then 4 else 5)+(if m.isPartial then 4 else 5)+
    (decimalInt m.peakBin.toInt).length+(snr.number m.snrDb).text.length+
    (escape (fields m).txt).length

structure ObjectFits (snr : Rendering) (i : Nat) (m : AcarsMsg) : Prop where
  label : Fits 8 (fields m).label
  msgNum : Fits 16 (fields m).msgNum
  flight : Fits 16 (fields m).flight
  txt : Fits (2*msgRingTxtMax+8) (fields m).txt
  chunk : (separator i).length+objectLength snr m < 600

theorem joined_partMember (b : Bool) : joined false ((partMember b).map memberOf) =
    ascii ",\"partial\":"++if b then ascii "true" else ascii "false" := by
  simp only [partMember, map_cons, map_nil, memberOf, encode]
  cases b <;> decide

theorem length_object :
    (encode (.obj (members snr m (fields m) (partMember m.isPartial)))).length =
      objectLength snr m := by
  have hpart : (ascii ",\"partial\":"++if m.isPartial then ascii "true" else ascii "false").length =
      11+if m.isPartial then 4 else 5 := by
    cases m.isPartial <;> rfl
  rw [← messageText_escaped, joined_partMember, length_messageText, hpart, objectLength]
  simp only [Texts.escaped]
  omega

theorem length_separator (i : Nat) : (separator i).length ≤ 1 := by
  rw [separator]
  split
  · exact Nat.zero_le 1
  · exact Nat.le_refl 1

theorem drop_snprintf (p text : Bytes) (cap : Nat) :
    (snprintf cap (p++text)).drop p.length = text.take (cap-1-p.length) := by
  rw [snprintf, drop_take, drop_left]

theorem messageObject_faithful_iff (i : Nat) {m : AcarsMsg} (h : Terminated m) :
    Faithful (messageObject snr i m) m ↔ ObjectFits snr i m := by
  obtain ⟨t,ht,-,hall⟩ := escapeFields_spec h 8 16 16 (2*msgRingTxtMax+8) (by decide)
    (by decide) (by decide) (by decide)
  have hsep := length_separator i
  have hobject : messageObject snr i m = (encode (.obj (members snr m t
      (partMember m.isPartial)))).take (599-(separator i).length) := by
    rw [messageObject, messageChunk, ht, ← joined_partMember, messageText_escaped, drop_snprintf]
  have hlength : t = fields m →
      (encode (.obj (members snr m t (partMember m.isPartial)))).length = objectLength snr m := by
    rintro rfl
    exact length_object snr m
  have hfits : ObjectFits snr i m ↔
      t = fields m ∧ (separator i).length+objectLength snr m < 600 := by
    rw [hall]
    exact ⟨fun hf => ⟨⟨hf.label, hf.msgNum, hf.flight, hf.txt⟩, hf.chunk⟩,
      fun ⟨⟨hl,hn,hf,ht⟩,hc⟩ => ⟨hl, hn, hf, ht, hc⟩⟩
  have hreads := reads_encode (.obj (members snr m t (partMember m.isPartial)))
  rw [hobject, hfits]
  by_cases hlen : (encode (.obj (members snr m t (partMember m.isPartial)))).length ≤
      599-(separator i).length
  · rw [take_of_length_le hlen]
    have hdecode := decode_of_reads hreads (w := []) rfl
    rw [append_nil] at hdecode
    rw [faithful_iff_fields hdecode (partMembers_names snr m t m.isPartial)]
    refine ⟨fun heq => ⟨heq, ?_⟩, And.left⟩
    have := hlength heq
    omega
  · refine iff_of_false ?_ fun ⟨heq,hc⟩ => ?_
    · rintro ⟨v,hv,-⟩
      rw [encode_obj] at hreads hlen hv
      rw [decode_take_eq_none hreads (by simp only [length_cons] at hlen; omega)] at hv
      cases hv
    · have := hlength heq
      omega

/-- Which messages all three outputs carry as valid JSON with every text member intact. -/
theorem json_outputs_faithful_iff (snr : Rendering) (i : Nat) (m : AcarsMsg) (h : Terminated m) :
    (Faithful (formatMsgLine snr 2048 m) m ∧ Faithful (formatMsg snr 2048 m) m ∧
      Faithful (messageObject snr i m) m) ↔ LinePlain m ∧ DatagramFits m ∧ ObjectFits snr i m := by
  rw [formatMsgLine_faithful_iff snr h, formatMsg_faithful_iff snr h,
    messageObject_faithful_iff snr i h]

def padded (n : Nat) (s : String) : Vector UInt8 n := Vector.ofFn fun i => (ascii s).getD i 0

def zeroRendering : Rendering where
  number _ := ofInt 0
  length_le _ := by decide

def shortMsg : AcarsMsg :=
  { AcarsMsg.blank with
    mode := 50
    label := padded _ "Q"
    blockId := 51
    msgNum := padded _ "M01A"
    flightId := padded _ "XX0001"
    txt := padded _ "POS" }

theorem shortMsg_terminated : Terminated shortMsg := by
  constructor <;> decide +kernel

theorem shortMsg_faithful : Terminated shortMsg ∧
    (Faithful (formatMsgLine zeroRendering 2048 shortMsg) shortMsg ∧
      Faithful (formatMsg zeroRendering 2048 shortMsg) shortMsg ∧
      Faithful (messageObject zeroRendering 0 shortMsg) shortMsg) := by
  refine ⟨shortMsg_terminated, (json_outputs_faithful_iff zeroRendering 0 shortMsg
    shortMsg_terminated).mpr ⟨?_, ?_, ?_⟩⟩
  · constructor <;> decide +kernel
  · constructor <;> decide +kernel
  · constructor <;> decide +kernel

def labelMsg : AcarsMsg := { shortMsg with label := padded _ "H1" }

def quoteMsg : AcarsMsg := { shortMsg with label := padded _ "\"1" }

def controlMsg : AcarsMsg := { shortMsg with msgNum := padded _ "\n\n\nA" }

/-- Each output has a message of seven-bit strings that it damages. -/
theorem outputs_damage_messages :
    (Terminated labelMsg ∧ ¬ Faithful (messageObject zeroRendering 0 labelMsg) labelMsg) ∧
    (Terminated quoteMsg ∧ ¬ Faithful (formatMsgLine zeroRendering 2048 quoteMsg) quoteMsg) ∧
    (Terminated controlMsg ∧ ¬ Faithful (formatMsg zeroRendering 2048 controlMsg) controlMsg) := by
  have hlabel : Terminated labelMsg := by constructor <;> decide +kernel
  have hquote : Terminated quoteMsg := by constructor <;> decide +kernel
  have hcontrol : Terminated controlMsg := by constructor <;> decide +kernel
  refine ⟨⟨hlabel, fun hf => ?_⟩, ⟨hquote, fun hf => ?_⟩, ⟨hcontrol, fun hf => ?_⟩⟩
  · exact absurd ((messageObject_faithful_iff _ 0 hlabel).mp hf).label (by decide +kernel)
  · exact absurd ((formatMsgLine_faithful_iff _ hquote).mp hf).label (by decide +kernel)
  · exact absurd ((formatMsg_faithful_iff _ hcontrol).mp hf).msgNum (by decide +kernel)

end IridiumAcars.JsonOutputs
