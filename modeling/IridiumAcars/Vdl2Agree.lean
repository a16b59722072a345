import IridiumAcars.Vdl2Demod
import IridiumAcars.Vdl2L2

/-! Two readings of one header: the demodulator's, with a soft fallback, and the hard one above. -/
namespace IridiumAcars.Vdl2Agree
open Vdl2Header Vdl2Demod Vdl2L2

theorem l2Header_of_decode_none {bits : List Bool} {w : Nat}
    (hw : BitWord.ofBits (bits.take vdl2HdrBits) = w) (h : vdl2HdrDecode w = none) :
    l2Header bits = .error .header := by
  rw [l2Header, hw, h]
  split_ifs with hlen
  · rfl
  · rfl

theorem l2Header_of_decode_some {bits : List Bool} {w body : Nat} {r : HdrDecoded}
    (hw : BitWord.ofBits (bits.take vdl2HdrBits) = w) (h : vdl2HdrDecode w = some r)
    (hbody : vdl2BurstBodyBits r.datalen = some body) (hlen : bits.length = vdl2HdrBits+body) :
    l2Header bits = .ok r.datalen := by
  rw [l2Header, hw, h, if_neg (by omega)]
  simp only [hbody]
  rw [if_neg (by omega)]

/-- A complete burst agrees with the layer above exactly when the soft fallback was not needed. -/
theorem header_agreement_iff (syms : List Symbol) (res : DemodResult) (soft : Option (List Int))
    (h : demodLock syms = some res) (hcomplete : res.complete = true) :
    (vdl2L2Feed res.bits soft ≠ .error .header ∧ l2Header res.bits = .ok res.datalen) ↔
      NearHeader (headerWord syms) := by
  obtain ⟨h9,r,body,hdec,hbody,rfl⟩ := demodLock_some h
  have hw := ofBits_take_emit syms body r h9
  have hlen : (emit syms body r).bits.length = vdl2HdrBits+body := of_decide_eq_true hcomplete
  rw [← decode_isSome_iff]
  cases hd : vdl2HdrDecode (headerWord syms) with
  | none =>
    have herr := l2Header_of_decode_none hw hd
    constructor
    · intro hok
      exact absurd (vdl2L2Feed_of_header_error soft herr) hok.1
    · intro hsome
      cases hsome
  | some r' =>
    -- the hard decision is the one the demodulator took
    rw [headerDecision, hd, Option.some.injEq] at hdec
    have hok := l2Header_of_decode_some hw (hdec ▸ hd) hbody hlen
    constructor
    · intro _
      rfl
    · intro _
      exact ⟨vdl2L2Feed_ne_header soft hok, hok⟩

def sure (i : Fin 8) : Symbol := ⟨i, 24576, 24576, 24576⟩

def cleanBurst : List Symbol :=
  [0, 7, 0, 1, 6, 5, 0, 7, 6, 1, 3, 0, 5, 4, 1, 7, 0, 6, 2, 4, 5, 4].map sure

def cleanResult : DemodResult := emit cleanBurst 40 ⟨0, 0x60001, 24⟩

theorem demodLock_cleanBurst :
    demodLock cleanBurst = some cleanResult ∧ cleanResult.complete = true ∧
    headerWord cleanBurst &&& hdrMask = vdl2HdrEncode 24 := by
  decide +kernel

theorem header_agreement_clean :
    vdl2L2Feed cleanResult.bits (some cleanResult.softBits) ≠ .error .header ∧
    l2Header cleanResult.bits = .ok cleanResult.datalen :=
  (header_agreement_iff cleanBurst cleanResult (some cleanResult.softBits)
    demodLock_cleanBurst.1 demodLock_cleanBurst.2.1).mpr
    ⟨24, by decide, 0, Or.inl rfl, demodLock_cleanBurst.2.2⟩

def rescuedBurst : List Symbol :=
  [0, 7, 0, 1, 6, 5, 0].map sure++[⟨6, 24576, 24576, 0⟩, ⟨1, 0, 24576, 24576⟩]++
    [1, 3, 0, 5, 4, 1, 7, 0, 6, 2, 4, 5, 4].map sure

def rescuedResult : DemodResult := emit rescuedBurst 40 ⟨1, 0x60001, 24⟩

theorem soft_rescued_header_rejected :
    demodLock rescuedBurst = some rescuedResult ∧ rescuedResult.complete = true ∧
    rescuedResult.datalen = 24 ∧
    vdl2L2Feed rescuedResult.bits (some rescuedResult.softBits) = .error .header := by
  have hdemod : demodLock rescuedBurst = some rescuedResult ∧ rescuedResult.complete = true ∧
      BitWord.ofBits (rescuedResult.bits.take vdl2HdrBits) = 0x60002 ∧
      vdl2HdrDecode 0x60002 = none := by
    decide +kernel
  obtain ⟨hlock,hcomplete,hw,hnone⟩ := hdemod
  exact ⟨hlock, hcomplete, rfl,
    vdl2L2Feed_of_header_error _ (l2Header_of_decode_none hw hnone)⟩

end IridiumAcars.Vdl2Agree
