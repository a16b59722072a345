import IridiumAcars.Bch
import IridiumAcars.Lib.FirstWrite

/-! The lazily built syndrome tables of iridium_bch.c: eight slots over one shared arena. -/
namespace IridiumAcars.Bch
open FirstWrite List

def synEmpty : Nat := 0xFFFF
def synSingleFlag : Nat := 0x8000
def synMaxSlots : Nat := 8
def synArenaEntries : Nat := 4608
def synMaxNBits : Nat := 31

/-- `tbl` is the offset of the slot's table in the arena. -/
structure SynSlot where
  poly : UInt32
  nBits : Nat
  deg : Nat
  tbl : Nat

/-- `slots` holds the published slots, so `s_syn_nslots` is its length. -/
structure SynRegistry where
  arena : List Nat
  slots : List SynSlot
  arenaUsed : Nat

def SynRegistry.init : SynRegistry := ⟨List.replicate synArenaEntries 0, [], 0⟩

def syn1 (poly : UInt32) (n i : Nat) : Nat := polyModU32 (1 <<< (n-1-i)) poly.toNat

def indexPairs (n : Nat) : List (Nat × Nat) :=
  (List.range n).flatMap fun i => (List.range' (i+1) (n-(i+1))).map fun j => (i, j)

def synWrites (poly : UInt32) (n : Nat) : List (Nat × Nat) :=
  ((List.range n).map fun i => (syn1 poly n i, synSingleFlag ||| i)) ++
  ((indexPairs n).map fun ij => (syn1 poly n ij.1 ^^^ syn1 poly n ij.2, ij.1 <<< 5 ||| ij.2))

def clearTable (arena : List Nat) (base len : Nat) : List Nat :=
  (List.range len).foldl (fun a s => a.set (base+s) synEmpty) arena

/-- Find or build the table for `(poly, nBits)`; `none` sends the caller to the reference. -/
def synGetSlot (reg : SynRegistry) (poly : UInt32) (nBits : Nat) : SynRegistry × Option SynSlot :=
  match reg.slots.find? (fun s => decide (s.poly = poly ∧ s.nBits = nBits)) with
  | some s => (reg, some s)
  | none =>
    let deg := u32BitLength poly.toNat-1
    if deg < 1 ∨ nBits < 1 ∨ nBits > synMaxNBits then (reg, none)
    else if reg.slots.length ≥ synMaxSlots then (reg, none)
    else
      let tblLen := 1 <<< deg
      if tblLen > synArenaEntries-reg.arenaUsed then (reg, none)
      else
        let slot : SynSlot := ⟨poly, nBits, deg, reg.arenaUsed⟩
        let cleared := clearTable reg.arena reg.arenaUsed tblLen
        (⟨writeAll synEmpty reg.arenaUsed cleared (synWrites poly nBits),
          reg.slots ++ [slot], reg.arenaUsed+tblLen⟩, some slot)

def iridiumBchRepair1 (reg : SynRegistry) (poly : UInt32) (bits : List UInt8) :
    SynRegistry × Int × List UInt8 :=
  if bits.length = 0 then (reg, -1, bits)
  else
    let syn := iridiumBchNdivide poly bits
    if syn = 0 then (reg, 0, bits)
    else match synGetSlot reg poly bits.length with
      | (reg', none) => (reg', iridiumBchRepair1Ref poly bits)
      | (reg', some slot) =>
        if syn >>> slot.deg ≠ 0 then (reg', iridiumBchRepair1Ref poly bits)
        else
          let e := reg'.arena.getD (slot.tbl+syn) 0
          if e ≠ synEmpty ∧ e &&& synSingleFlag ≠ 0 then (reg', 1, flipBit bits (e &&& 0x1F))
          else (reg', -1, bits)

def iridiumBchRepair2 (reg : SynRegistry) (poly : UInt32) (bits : List UInt8) :
    SynRegistry × Int × List UInt8 :=
  if bits.length = 0 then (reg, -1, bits)
  else
    let syn := iridiumBchNdivide poly bits
    if syn = 0 then (reg, 0, bits)
    else match synGetSlot reg poly bits.length with
      | (reg', none) => (reg', iridiumBchRepair2Ref poly bits)
      | (reg', some slot) =>
        if syn >>> slot.deg ≠ 0 then (reg', iridiumBchRepair2Ref poly bits)
        else
          let e := reg'.arena.getD (slot.tbl+syn) 0
          if e = synEmpty then (reg', -1, bits)
          else if e &&& synSingleFlag ≠ 0 then (reg', 1, flipBit bits (e &&& 0x1F))
          else (reg', 2, flipBit (flipBit bits ((e >>> 5) &&& 0x1F)) (e &&& 0x1F))

inductive RepairCall where
  | repair1 (poly : UInt32) (bits : List UInt8)
  | repair2 (poly : UInt32) (bits : List UInt8)

def stepRegistry (reg : SynRegistry) : RepairCall → SynRegistry
  | .repair1 poly bits => (iridiumBchRepair1 reg poly bits).1
  | .repair2 poly bits => (iridiumBchRepair2 reg poly bits).1

def runRegistry : List RepairCall → SynRegistry → SynRegistry
  | [], reg => reg
  | c::cs, reg => runRegistry cs (stepRegistry reg c)

structure SlotValid (reg : SynRegistry) (s : SynSlot) : Prop where
  degPos : 1 ≤ s.deg
  polyLen : u32BitLength s.poly.toNat = s.deg+1
  nPos : 1 ≤ s.nBits
  nLe : s.nBits ≤ synMaxNBits
  fits : s.tbl+2^s.deg ≤ reg.arenaUsed
  entries : ∀ k < 2^s.deg,
    reg.arena[s.tbl+k]? = some (firstValue synEmpty (synWrites s.poly s.nBits) k)

structure RegistryValid (reg : SynRegistry) : Prop where
  arenaLength : reg.arena.length = synArenaEntries
  usedLe : reg.arenaUsed ≤ synArenaEntries
  slots : ∀ s ∈ reg.slots, SlotValid reg s

theorem clearTable_length (arena : List Nat) (base len : Nat) :
    (clearTable arena base len).length = arena.length := by
  induction len with
  | zero => rfl
  | succ len ih => simpa [clearTable, range_succ, foldl_append] using ih

theorem clearTable_get (arena : List Nat) (base len p : Nat) (hb : base+len ≤ arena.length) :
    (clearTable arena base len)[p]? =
      if base ≤ p ∧ p < base+len then some synEmpty else arena[p]? := by
  induction len with
  | zero =>
    have : ¬ (base ≤ p ∧ p < base+0) := by omega
    simp [clearTable]
  | succ len ih =>
    have hstep : clearTable arena base (len+1) =
        (clearTable arena base len).set (base+len) synEmpty := by
      simp [clearTable, range_succ, foldl_append]
    rw [hstep, getElem?_set, clearTable_length, ih (by omega)]
    by_cases hp : base+len = p
    · subst hp
      have h1 : base+len < arena.length := by omega
      simp [h1]
    · by_cases hr : base ≤ p ∧ p < base+len
      · have h2 : base ≤ p ∧ p < base+(len+1) := by omega
        rw [if_neg hp, if_pos hr, if_pos h2]
      · have h2 : ¬ (base ≤ p ∧ p < base+(len+1)) := by omega
        rw [if_neg hp, if_neg hr, if_neg h2]

end IridiumAcars.Bch
