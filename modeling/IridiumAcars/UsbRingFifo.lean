import IridiumAcars.UsbRing
import Mathlib.Data.List.Infix

/-! Under every interleaving the byte ring is a lossless first-in first-out queue. -/
namespace IridiumAcars.UsbRing
open RingBuffer List

def padded (start : UInt32) (bytes : List UInt8) : List UInt8 :=
  List.replicate start.toNat 0++bytes

section
variable {k h t : Nat}

theorem toNat_capacity (hk : k < 32) : (UInt32.ofNat (2^k)).toNat = 2^k :=
  UInt32.toNat_ofNat_of_lt' (Nat.pow_lt_pow_right (by decide) hk)

theorem toNat_used (hle : t ≤ h) (hlt : h-t < 2^32) :
    (usbringUsed (UInt32.ofNat h) (UInt32.ofNat t)).toNat = h-t := by
  rw [usbringUsed, UInt32.toNat_sub, UInt32.toNat_ofNat', UInt32.toNat_ofNat']
  omega

theorem toNat_physOffset (hk : k < 32) (h : Nat) :
    (usbringPhysOffset (UInt32.ofNat h) (UInt32.ofNat (2^k))).toNat = h%2^k := by
  have hone : (1 : UInt32) ≤ UInt32.ofNat (2^k) := by
    rw [UInt32.le_iff_toNat_le, toNat_capacity hk]
    exact Nat.one_le_two_pow
  rw [usbringPhysOffset, UInt32.toNat_and, UInt32.toNat_sub_of_le _ _ hone, toNat_capacity hk,
    UInt32.toNat_one, Nat.and_two_pow_sub_one_eq_mod, UInt32.toNat_ofNat',
    Nat.mod_mod_of_dvd _ (Nat.pow_dvd_pow 2 hk.le)]

theorem toNat_toWrap (hk : k < 32) (h : Nat) :
    (UInt32.ofNat (2^k)-usbringPhysOffset (UInt32.ofNat h) (UInt32.ofNat (2^k))).toNat =
      2^k-h%2^k := by
  have hlt := Nat.mod_lt h (Nat.two_pow_pos k)
  rw [UInt32.toNat_sub_of_le, toNat_physOffset hk, toNat_capacity hk]
  rw [UInt32.le_iff_toNat_le, toNat_physOffset hk, toNat_capacity hk]
  exact hlt.le

theorem toNat_freeSpace (hk : k < 32) (hle : t ≤ h) (hroom : h ≤ t+2^k) :
    (usbringFreeSpace (UInt32.ofNat h) (UInt32.ofNat t) (UInt32.ofNat (2^k))).toNat =
      t+2^k-h := by
  have hpow : 2^k < 2^32 := Nat.pow_lt_pow_right (by decide) hk
  have hused := toNat_used hle (by omega)
  rw [usbringFreeSpace, UInt32.toNat_sub_of_le, hused, toNat_capacity hk]
  · omega
  · rw [UInt32.le_iff_toNat_le, hused, toNat_capacity hk]
    omega

theorem toNat_if_lt (x y : UInt32) : (if x < y then x else y).toNat = min x.toNat y.toNat := by
  by_cases hxy : x < y
  · have := UInt32.lt_iff_toNat_lt.mp hxy
    rw [if_pos hxy]
    omega
  · have := mt UInt32.lt_iff_toNat_lt.mpr hxy
    rw [if_neg hxy]
    omega

theorem toNat_writeContig (hk : k < 32) (hle : t ≤ h) (hroom : h ≤ t+2^k) :
    (usbringWriteContig (UInt32.ofNat h) (UInt32.ofNat t) (UInt32.ofNat (2^k))).toNat =
      min (t+2^k-h) (2^k-h%2^k) := by
  rw [usbringWriteContig, toNat_if_lt, toNat_freeSpace hk hle hroom, toNat_toWrap hk]

theorem peekContig_eq (hk : k < 32) (hle : t ≤ h) (hroom : h ≤ t+2^k) :
    let span := usbringPeekContig (UInt32.ofNat h) (UInt32.ofNat t) (UInt32.ofNat (2^k))
    span.1.toNat = t%2^k ∧ span.2.toNat = min (h-t) (2^k-t%2^k) := by
  have hpow : 2^k < 2^32 := Nat.pow_lt_pow_right (by decide) hk
  refine ⟨toNat_physOffset hk t, ?_⟩
  rw [usbringPeekContig]
  simp only
  rw [toNat_if_lt, toNat_used hle (by omega), toNat_toWrap hk]

end

theorem Block.toNat_n (b : Block) : b.n.toNat = b.data.length :=
  UInt32.toNat_ofNat_of_lt' b.fits

theorem getElem?_padded (start : UInt32) (bytes : List UInt8) (i : Nat) :
    (padded start bytes)[start.toNat+i]? = bytes[i]? := by
  rw [padded, getElem?_append_right (by simp), length_replicate,
    Nat.add_sub_cancel_left]

theorem padded_append (start : UInt32) (a b : List UInt8) :
    padded start (a++b) = padded start a++b := by
  rw [padded, padded, append_assoc]

section
variable (start : UInt32) (k : Nat)

def headPos (a : List UInt8) : Nat := start.toNat+a.length

/-- With `a` accepted and `d` consumed, every outstanding byte is at its masked offset. -/
structure RingOk (r : Ring) (a d : List UInt8) : Prop where
  head_eq : r.head = UInt32.ofNat (headPos start a)
  tail_eq : r.tail = UInt32.ofNat (headPos start d)
  room : headPos start a ≤ headPos start d+2^k
  holds : Holds (2^k) r.buf (padded start a) (headPos start d) (headPos start a)
  order : d <+: a

def Fits (a d : List UInt8) (b : Block) (head : UInt32) : Prop :=
  head = UInt32.ofNat (headPos start a) ∧ headPos start (a++b.data) ≤ headPos start d+2^k

def firstPart (a : List UInt8) (b : Block) : Nat :=
  min b.data.length (2^k-headPos start a%2^k)

def WriterOk (buf : Nat → UInt8) (a d : List UInt8) : Writer → Prop
  | .idle | .loadHead _ | .returning _ _ => True
  | .loadTail _ head => head = UInt32.ofNat (headPos start a)
  | .copy b head first => Fits start k a d b head ∧ first.toNat = firstPart start k a b
  | .copyRest b head first =>
    Fits start k a d b head ∧ first.toNat = firstPart start k a b ∧
      Holds (2^k) buf (padded start (a++b.data)) (headPos start d) (headPos start a+first.toNat)
  | .storeHead b head =>
    Fits start k a d b head ∧
      Holds (2^k) buf (padded start (a++b.data)) (headPos start d) (headPos start (a++b.data))

def SpanOk (a d : List UInt8) (off n : UInt32) : Prop :=
  headPos start d+n.toNat ≤ headPos start a ∧ headPos start d%2^k+n.toNat ≤ 2^k ∧
    (n ≠ 0 → off.toNat = headPos start d%2^k)

def TakeOk (a d : List UInt8) (n m : UInt32) (bytes : List UInt8) : Prop :=
  m ≤ n ∧ m ≠ 0 ∧ bytes = (a.drop d.length).take m.toNat

def ReaderOk (a d : List UInt8) : Reader → Prop
  | .idle | .peekHead => True
  | .peekTail head =>
    ∃ h, head = UInt32.ofNat h ∧ headPos start d ≤ h ∧ h ≤ headPos start a
  | .holding off n => SpanOk start k a d off n
  | .consumeLoad off n m bytes => SpanOk start k a d off n ∧ TakeOk a d n m bytes
  | .consumeStore off n m tail bytes =>
    SpanOk start k a d off n ∧ TakeOk a d n m bytes ∧ tail = UInt32.ofNat (headPos start d)

structure Inv (r : Ring) : Prop where
  ring : RingOk start k r r.accepted r.consumed
  writer : WriterOk start k r.buf r.accepted r.consumed r.writer
  reader : ReaderOk start k r.accepted r.consumed r.reader

end

section
variable {start : UInt32} {k : Nat} {r : Ring} {a d : List UInt8}

theorem headPos_append (b : List UInt8) : headPos start (a++b) = headPos start a+b.length := by
  rw [headPos, headPos, length_append, Nat.add_assoc]

theorem RingOk.le (h : RingOk start k r a d) : headPos start d ≤ headPos start a :=
  Nat.add_le_add_left h.order.length_le _

theorem getElem?_padded_block (b : List UInt8) (j : Nat) :
    (padded start (a++b))[headPos start a+j]? = b[j]? := by
  rw [headPos, Nat.add_assoc, getElem?_padded, getElem?_append_right (by omega),
    Nat.add_sub_cancel_left]

theorem copy_holds (hk : k < 32) (h : RingOk start k r a d) {b : Block} {head first : UInt32}
    (hfits : Fits start k a d b head) (hfirst : first.toNat = firstPart start k a b) :
    Holds (2^k) (blit r.buf (usbringPhysOffset head (UInt32.ofNat (2^k))).toNat
      (b.data.take first.toNat)) (padded start (a++b.data)) (headPos start d)
      (headPos start a+first.toNat) := by
  have hroom := hfits.2
  have hold := h.holds.append b.data
  rw [headPos_append] at hroom
  rw [← padded_append] at hold
  rw [hfits.1, toNat_physOffset hk]
  exact hold.blit_first b.data hroom hfirst fun j _ => getElem?_padded_block b.data j

theorem copyRest_holds (hr : RingOk start k r a d) {b : Block} {head first : UInt32}
    (hfits : Fits start k a d b head) (hfirst : first.toNat = firstPart start k a b)
    (h : Holds (2^k) r.buf (padded start (a++b.data)) (headPos start d)
      (headPos start a+first.toNat)) :
    Holds (2^k) (if first < b.n then blit r.buf 0 (b.data.drop first.toNat) else r.buf)
      (padded start (a++b.data)) (headPos start d) (headPos start (a++b.data)) := by
  have hroom := hfits.2
  rw [headPos_append] at hroom ⊢
  by_cases hrest : first < b.n
  · have hlast := UInt32.lt_iff_toNat_lt.mp hrest
    rw [b.toNat_n] at hlast
    rw [if_pos hrest]
    exact h.blit_rest b.data hr.le hroom hfirst (fun j _ => getElem?_padded_block b.data j) hlast
  · have hlast := mt UInt32.lt_iff_toNat_lt.mpr hrest
    rw [b.toNat_n] at hlast
    rw [if_neg hrest]
    exact h.mono le_rfl (by omega)

theorem SpanOk.readSpan (h : RingOk start k r a d) {off n m : UInt32}
    (hs : SpanOk start k a d off n) (hmn : m ≤ n) (hm : m ≠ 0) :
    readSpan r.buf off.toNat m.toNat = (a.drop d.length).take m.toNat := by
  obtain ⟨hspan,hfit,hoff⟩ := hs
  have hle := UInt32.le_iff_toNat_le.mp hmn
  have hpos : n ≠ 0 := by
    rintro rfl
    exact hm (UInt32.toNat_inj.mp (Nat.le_zero.mp hle))
  have hread := h.holds.read le_rfl (by omega : headPos start d+m.toNat ≤ headPos start a)
  rw [padded, headPos, ← drop_drop, drop_left' (by simp)] at hread
  rw [← hread, UsbRing.readSpan, hoff hpos]
  apply map_congr_left
  intro j hj
  have hjm := mem_range.mp hj
  rw [← headPos, add_mod_of_fits (by omega)]

end

variable (capacity : UInt32)

section
variable {start : UInt32} {k : Nat} {r : Ring}

theorem ReaderOk.grow {a d : List UInt8} {p : Reader} (h : ReaderOk start k a d p)
    (xs : List UInt8) : ReaderOk start k (a++xs) d p := by
  have hspan {off n : UInt32} (hs : SpanOk start k a d off n) :
      SpanOk start k (a++xs) d off n := by
    refine ⟨?_, hs.2⟩
    rw [headPos_append]
    exact Nat.le_add_right_of_le hs.1
  have htake {off n m : UInt32} {bytes : List UInt8} (hs : SpanOk start k a d off n)
      (ht : TakeOk a d n m bytes) : TakeOk (a++xs) d n m bytes := by
    have hmn := UInt32.le_iff_toNat_le.mp ht.1
    have hlen := hs.1
    rw [headPos, headPos] at hlen
    refine ⟨ht.1, ht.2.1, ?_⟩
    rw [ht.2.2, drop_append_of_le_length (by omega), take_append_of_le_length]
    rw [length_drop]
    omega
  cases p with
  | idle => trivial
  | peekHead => trivial
  | peekTail head =>
    obtain ⟨h0,heq,hlo,hhi⟩ := h
    refine ⟨h0, heq, hlo, ?_⟩
    rw [headPos_append]
    exact Nat.le_add_right_of_le hhi
  | holding off n => exact hspan h
  | consumeLoad off n m bytes => exact ⟨hspan h.1, htake h.1 h.2⟩
  | consumeStore off n m tail bytes => exact ⟨hspan h.1, htake h.1 h.2.1, h.2.2⟩

theorem length_padded (a : List UInt8) : (padded start a).length = headPos start a := by
  rw [padded, length_append, length_replicate, headPos]

theorem Inv.put (h : Inv start k r) {buf : Nat → UInt8} {w : Writer} {hi : Nat} {xs : List UInt8}
    (hacc : ({ r with buf := buf, writer := w } : Ring).accepted = r.accepted)
    (hbuf : Holds (2^k) buf (padded start (r.accepted++xs)) (headPos start r.consumed) hi)
    (hhi : headPos start r.accepted ≤ hi)
    (hw : WriterOk start k buf r.accepted r.consumed w) :
    Inv start k { r with buf := buf, writer := w } := by
  obtain ⟨hring,_,hread⟩ := h
  refine ⟨?_, ?_, ?_⟩
  · rw [padded_append] at hbuf
    rw [hacc]
    exact ⟨hring.head_eq, hring.tail_eq, hring.room,
      (hbuf.mono le_rfl hhi).of_append (length_padded r.accepted).ge, hring.order⟩
  · rwa [hacc]
  · rwa [hacc]

theorem Inv.goto (h : Inv start k r) {w : Writer}
    (hacc : ({ r with writer := w } : Ring).accepted = r.accepted)
    (hw : WriterOk start k r.buf r.accepted r.consumed w) :
    Inv start k { r with writer := w } := by
  have hbuf := h.ring.holds.append []
  rw [← padded_append] at hbuf
  exact h.put hacc hbuf le_rfl hw

theorem writeStep_inv (hk : k < 32) (h : Inv start k r) :
    Inv start k (usbringWriteStep (UInt32.ofNat (2^k)) r) := by
  have hwr := h.writer
  have hring := h.ring
  cases hw : r.writer with
  | idle => simpa only [usbringWriteStep, hw] using h
  | loadHead b =>
    simp only [usbringWriteStep, hw]
    by_cases hz : b.n = 0
    · have hnil : b.data = [] := by
        rw [← length_eq_zero_iff, ← b.toNat_n, hz]
        rfl
      rw [if_pos hz]
      exact h.goto (by simp [Ring.accepted, hw, hnil]) trivial
    · rw [if_neg hz]
      exact h.goto (by simp [Ring.accepted, hw]) hring.head_eq
  | loadTail b head =>
    rw [hw] at hwr
    have hhead : head = UInt32.ofNat (headPos start r.accepted) := hwr
    simp only [usbringWriteStep, hw]
    have hfree := toNat_freeSpace hk hring.le hring.room
    have hcontig := toNat_writeContig hk hring.le hring.room
    rw [← hhead, ← hring.tail_eq] at hfree hcontig
    by_cases hfull : usbringFreeSpace head r.tail (UInt32.ofNat (2^k)) < b.n
    · rw [if_pos hfull]
      exact h.goto (by simp [Ring.accepted, hw]) trivial
    rw [if_neg hfull]
    have hn := mt UInt32.lt_iff_toNat_lt.mpr hfull
    have hroom := hring.room
    rw [hfree, b.toNat_n] at hn
    refine h.goto (by simp [Ring.accepted, hw]) ⟨⟨hhead, ?_⟩, ?_⟩
    · rw [headPos_append]
      omega
    · rw [toNat_if_lt, hcontig, b.toNat_n, firstPart]
      omega
  | copy b head first =>
    rw [hw] at hwr
    obtain ⟨hfits,hfirst⟩ := hwr
    have hnew := copy_holds hk hring hfits hfirst
    simp only [usbringWriteStep, hw]
    exact h.put (by simp [Ring.accepted, hw]) hnew (Nat.le_add_right _ _) ⟨hfits, hfirst, hnew⟩
  | copyRest b head first =>
    rw [hw] at hwr
    obtain ⟨hfits,hfirst,hheld⟩ := hwr
    have hnew := copyRest_holds hring hfits hfirst hheld
    have hle : headPos start (r.accepted++b.data) = headPos start r.accepted+b.data.length :=
      headPos_append b.data
    simp only [usbringWriteStep, hw]
    exact h.put (by simp [Ring.accepted, hw]) hnew (by omega) ⟨hfits, hnew⟩
  | storeHead b head =>
    rw [hw] at hwr
    obtain ⟨⟨hhead,hroom⟩,hheld⟩ := hwr
    have hacc : (usbringWriteStep (UInt32.ofNat (2^k)) r).accepted = r.accepted++b.data := by
      simp [Ring.accepted, usbringWriteStep, hw]
    refine ⟨?_, ?_, ?_⟩
    · rw [hacc]
      simp only [usbringWriteStep, hw]
      refine ⟨?_, hring.tail_eq, hroom, hheld, hring.order.trans (prefix_append _ _)⟩
      rw [hhead, headPos_append, usbringNextHead, UInt32.ofNat_add, Block.n]
    · simp only [usbringWriteStep, hw]
      trivial
    · rw [hacc]
      simpa only [usbringWriteStep, hw] using h.reader.grow b.data
  | returning b ok =>
    have hacc : (usbringWriteStep (UInt32.ofNat (2^k)) r).accepted = r.accepted := by
      cases ok <;> simp [Ring.accepted, usbringWriteStep, hw, filter_append]
    refine ⟨?_, ?_, ?_⟩
    · rw [hacc]
      simp only [usbringWriteStep, hw]
      exact ⟨hring.head_eq, hring.tail_eq, hring.room, hring.holds, hring.order⟩
    · simp only [usbringWriteStep, hw]
      trivial
    · rw [hacc]
      simpa only [usbringWriteStep, hw] using h.reader

theorem WriterOk.consume {buf : Nat → UInt8} {a d : List UInt8} {w : Writer}
    (h : WriterOk start k buf a d w) (xs : List UInt8) : WriterOk start k buf a (d++xs) w := by
  have hpos : headPos start d ≤ headPos start (d++xs) := by
    rw [headPos_append]
    exact Nat.le_add_right _ _
  have hfits {b : Block} {head : UInt32} (hf : Fits start k a d b head) :
      Fits start k a (d++xs) b head :=
    ⟨hf.1, hf.2.trans (Nat.add_le_add_right hpos _)⟩
  cases w with
  | copy b head first => exact ⟨hfits h.1, h.2⟩
  | copyRest b head first => exact ⟨hfits h.1, h.2.1, h.2.2.mono hpos le_rfl⟩
  | storeHead b head => exact ⟨hfits h.1, h.2.mono hpos le_rfl⟩
  | _ => exact h

theorem SpanOk.shrink {a d : List UInt8} (hk : k < 32) {off n m : UInt32}
    (h : SpanOk start k a d off n) (hmn : m ≤ n) {xs : List UInt8}
    (hxs : xs.length = m.toNat) : SpanOk start k a (d++xs) (off+m) (n-m) := by
  obtain ⟨hspan,hfit,hoff⟩ := h
  have hle := UInt32.le_iff_toNat_le.mp hmn
  have hsub : (n-m).toNat = n.toNat-m.toNat := UInt32.toNat_sub_of_le _ _ hmn
  have hlt := Nat.mod_lt (headPos start d+m.toNat) (Nat.two_pow_pos k)
  rw [SpanOk, headPos_append, hxs, hsub]
  refine ⟨by omega, ?_, ?_⟩
  · by_cases hrest : m.toNat < n.toNat
    · rw [add_mod_of_fits (by omega)]
      omega
    · omega
  · intro hne
    have hrest : m.toNat < n.toNat := by
      by_contra hnot
      exact hne (UInt32.toNat_inj.mp (by rw [hsub, UInt32.toNat_zero]; omega))
    have hpow : 2^k < 2^32 := Nat.pow_lt_pow_right (by decide) hk
    have hn : n ≠ 0 := by
      rintro rfl
      exact absurd hrest (Nat.not_lt_zero _)
    rw [UInt32.toNat_add, hoff hn, Nat.mod_eq_of_lt (by omega), add_mod_of_fits (by omega)]

theorem readStep_inv (hk : k < 32) (h : Inv start k r) :
    Inv start k (usbringReadStep (UInt32.ofNat (2^k)) r) := by
  have hrd := h.reader
  have hring := h.ring
  have keep {p : Reader} (hp : ReaderOk start k r.accepted r.consumed p) :
      Inv start k { r with reader := p } :=
    ⟨⟨hring.head_eq, hring.tail_eq, hring.room, hring.holds, hring.order⟩,
      h.writer, hp⟩
  cases hp : r.reader with
  | idle | holding off n => simpa only [usbringReadStep, hp] using h
  | peekHead =>
    simp only [usbringReadStep, hp]
    exact keep ⟨_, hring.head_eq, hring.le, le_rfl⟩
  | peekTail head =>
    rw [hp] at hrd
    obtain ⟨h0,rfl,hlo,hhi⟩ := hrd
    have hroom := hring.room
    obtain ⟨hoff,hn⟩ := peekContig_eq hk hlo (by omega)
    have hlt := Nat.mod_lt (headPos start r.consumed) (Nat.two_pow_pos k)
    simp only [usbringReadStep, hp, hring.tail_eq]
    split_ifs with hz
    · rw [← hring.tail_eq]
      exact keep trivial
    · rw [← hring.tail_eq]
      rw [← hring.tail_eq] at hn hoff
      exact keep ⟨by omega, by omega, fun _ => hoff⟩
  | consumeLoad off n m bytes =>
    rw [hp] at hrd
    simp only [usbringReadStep, hp]
    exact keep ⟨hrd.1, hrd.2, hring.tail_eq⟩
  | consumeStore off n m tail bytes =>
    rw [hp] at hrd
    obtain ⟨hspan,⟨hmn,_,hbytes⟩,htail⟩ := hrd
    have hle := UInt32.le_iff_toNat_le.mp hmn
    have hlen : bytes.length = m.toNat := by
      have := hspan.1
      rw [headPos, headPos] at this
      rw [hbytes, length_take, length_drop]
      omega
    simp only [usbringReadStep, hp]
    refine ⟨⟨hring.head_eq, ?_, ?_, ?_, ?_⟩, ?_, hspan.shrink hk hmn hlen⟩
    · rw [htail, headPos_append, usbringNextTail, hlen, UInt32.ofNat_add, UInt32.ofNat_toNat]
    · have := hring.room
      rw [headPos_append]
      exact this.trans (by omega)
    · exact hring.holds.mono (by rw [headPos_append]; omega) le_rfl
    · obtain ⟨rest,hrest⟩ := hring.order
      refine ⟨rest.drop m.toNat, ?_⟩
      have hbytes' : bytes = rest.take m.toNat := by rw [hbytes, ← hrest, drop_left]
      rwa [hbytes', append_assoc, take_append_drop]
    · exact h.writer.consume bytes

theorem step_inv (hk : k < 32) (h : Inv start k r) (a : Action) :
    Inv start k (step (UInt32.ofNat (2^k)) r a) := by
  obtain ⟨hring,hwr,hrd⟩ := h
  have keep {p : Reader} (hp : ReaderOk start k r.accepted r.consumed p) :
      Inv start k { r with reader := p } :=
    ⟨⟨hring.head_eq, hring.tail_eq, hring.room, hring.holds, hring.order⟩, hwr, hp⟩
  have hinv : Inv start k r := ⟨hring, hwr, hrd⟩
  cases a with
  | write b =>
    cases hw : r.writer with
    | idle =>
      simp only [step, hw]
      exact hinv.goto (by simp [Ring.accepted, hw]) trivial
    | _ => simpa only [step, hw] using hinv
  | writer => exact writeStep_inv hk hinv
  | peek =>
    cases hp : r.reader with
    | idle | holding off n => simp only [step, hp]; exact keep trivial
    | _ => simpa only [step, hp] using hinv
  | consume m =>
    cases hp : r.reader with
    | holding off n =>
      rw [hp] at hrd
      simp only [step, hp]
      split_ifs with hm
      · exact hinv
      · obtain ⟨hm0,hmn⟩ := not_or.mp hm
        have hle := UInt32.not_lt.mp hmn
        exact keep ⟨hrd, hle, hm0, SpanOk.readSpan hring hrd hle hm0⟩
    | _ => simpa only [step, hp] using hinv
  | reader => exact readStep_inv hk hinv

theorem writeStep_consumed (r : Ring) :
    (usbringWriteStep capacity r).consumed = r.consumed := by
  cases hw : r.writer with
  | loadHead b | loadTail b head => simp only [usbringWriteStep, hw]; split <;> rfl
  | _ => simp only [usbringWriteStep, hw]

theorem writeStep_reader (r : Ring) :
    (usbringWriteStep capacity r).reader = r.reader := by
  cases hw : r.writer with
  | loadHead b | loadTail b head => simp only [usbringWriteStep, hw]; split <;> rfl
  | _ => simp only [usbringWriteStep, hw]

theorem writeStep_accepted (r : Ring) :
    r.accepted <+: (usbringWriteStep capacity r).accepted := by
  cases hw : r.writer with
  | loadHead b | loadTail b head =>
    simp only [usbringWriteStep, hw]; split <;> simp [Ring.accepted, hw]
  | returning b ok =>
    cases ok <;> simp [usbringWriteStep, Ring.accepted, hw, filter_append]
  | _ => simp [usbringWriteStep, Ring.accepted, hw]

theorem Inv.byte (h : Inv start k r) {i : Nat} (hlo : r.consumed.length ≤ i)
    (hhi : i < r.accepted.length) :
    r.accepted[i]? = some (r.buf ((start.toNat+i)%2^k)) := by
  rw [← getElem?_padded start]
  exact h.ring.holds (start.toNat+i) (Nat.add_le_add_left hlo _) (Nat.add_lt_add_left hhi _)

end

def usbringRun (capacity : UInt32) (buf : Nat → UInt8) (counter : UInt32) (acts : List Action) :
    Ring :=
  acts.foldl (step capacity) (usbringStart buf counter)

theorem usbringStart_inv {k : Nat} (buf : Nat → UInt8) (counter : UInt32) :
    Inv counter k (usbringStart buf counter) := by
  have hpos : headPos counter [] = counter.toNat := Nat.add_zero _
  have hcount : counter = UInt32.ofNat (headPos counter []) := by
    rw [hpos, UInt32.ofNat_toNat]
  exact ⟨⟨hcount, hcount, Nat.le_add_right _ _, Holds.empty le_rfl, prefix_refl _⟩, trivial,
    trivial⟩

theorem usbringRun_inv {k : Nat} (hk : k < 32) (buf : Nat → UInt8) (counter : UInt32)
    (acts : List Action) : Inv counter k (usbringRun (UInt32.ofNat (2^k)) buf counter acts) :=
  List.foldlRecOn acts (step (UInt32.ofNat (2^k))) (usbringStart_inv buf counter)
    fun _ hs a _ => step_inv hk hs a

theorem Inv.used {start : UInt32} {k : Nat} {r : Ring} (h : Inv start k r) (hk : k < 32) :
    (usbringUsed r.head r.tail).toNat = r.accepted.length-r.consumed.length ∧
      usbringUsed r.head r.tail ≤ UInt32.ofNat (2^k) := by
  have hpow : 2^k < 2^32 := Nat.pow_lt_pow_right (by decide) hk
  have hpos := Nat.two_pow_pos k
  have hroom := h.ring.room
  have hused : (usbringUsed r.head r.tail).toNat = r.accepted.length-r.consumed.length := by
    rw [h.ring.head_eq, h.ring.tail_eq, toNat_used h.ring.le (by omega), headPos, headPos]
    omega
  refine ⟨hused, ?_⟩
  rw [UInt32.le_iff_toNat_le, hused, toNat_capacity hk]
  rw [headPos, headPos] at hroom
  omega

theorem Inv.exposed {start : UInt32} {k : Nat} {r : Ring} (h : Inv start k r) {off n m : UInt32}
    (hheld : r.reader = .holding off n) (hmn : m ≤ n) :
    readSpan r.buf off.toNat m.toNat = (r.accepted.drop r.consumed.length).take m.toNat := by
  have hspan := h.reader
  rw [hheld] at hspan
  by_cases hm : m = 0
  · subst hm
    rfl
  · exact SpanOk.readSpan h.ring hspan hmn hm

end IridiumAcars.UsbRing
