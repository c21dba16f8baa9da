import Mathlib.Data.List.Basic

/-!
# Ageing of multicast entries

The timer `hnat_mcast_check_timestamp` of `mtk_hnat/hnat_mcast.c`, which deletes the static
entries of all engines that have not been used for a while.
-/

namespace OpenWrt.Hnat

/-- `struct foe_entry`: the two fields that are looked at, and the other bits. -/
structure FoeEntry where
  sta : Bool
  mTimestamp : BitVec 16
  rest : Nat
  deriving DecidableEq, Repr

def FoeEntry.zero : FoeEntry := ⟨false, 0, 0⟩

/-- The test of one entry.  Both stamps are promoted to `int`. -/
def stampExpired (foeTs eTs : BitVec 16) : Bool :=
  let foeTs := if (foeTs.toNat : Int) - eTs.toNat > 0x3000 then ~~~foeTs else foeTs
  decide (((foeTs.toNat : Int) - eTs.toNat).natAbs > 20)

def checkEntry (foeTs : BitVec 16) (entry : FoeEntry) : FoeEntry :=
  if entry.sta = true ∧ stampExpired foeTs entry.mTimestamp = true then .zero else entry

def checkTimestamp (foeTs : BitVec 16) (tables : List (List FoeEntry)) : List (List FoeEntry) :=
  tables.map fun table => table.map (checkEntry foeTs)

/-! ## Ages -/

def Aged (foeTs : BitVec 16) (entry : FoeEntry) : Prop :=
  entry.sta = true ∧ 20 < (foeTs - entry.mTimestamp).toNat

instance (foeTs : BitVec 16) (entry : FoeEntry) : Decidable (Aged foeTs entry) :=
  inferInstanceAs (Decidable (_ ∧ _))

def aged (foeTs : BitVec 16) (tables : List (List FoeEntry)) : List (List FoeEntry) :=
  tables.map fun table => table.map fun entry => if Aged foeTs entry then .zero else entry

/-- The entry is not a little ahead, has not wrapped around just now, and is not as far below
the middle of the range as the current stamp is above it. -/
structure Comparable (foeTs eTs : Nat) : Prop where
  not_ahead : ¬(foeTs < eTs ∧ eTs ≤ foeTs + 20)
  not_wrapped : ¬foeTs + 65516 ≤ eTs
  not_mirrored : ¬(eTs + 0x3000 < foeTs ∧ 65515 ≤ foeTs + eTs ∧ foeTs + eTs ≤ 65555)

theorem stampExpired_iff (foeTs eTs : BitVec 16) :
    (stampExpired foeTs eTs = true ↔ 20 < (foeTs - eTs).toNat) ↔
      Comparable foeTs.toNat eTs.toNat := by
  have hnot : (~~~foeTs).toNat = 65535 - foeTs.toNat := BitVec.toNat_not
  have hage : (foeTs - eTs).toNat = (65536 - eTs.toNat + foeTs.toNat) % 65536 :=
    BitVec.toNat_sub foeTs eTs
  have hcomparable : Comparable foeTs.toNat eTs.toNat ↔
      ¬(foeTs.toNat < eTs.toNat ∧ eTs.toNat ≤ foeTs.toNat + 20) ∧
        ¬foeTs.toNat + 65516 ≤ eTs.toNat ∧
        ¬(eTs.toNat + 0x3000 < foeTs.toNat ∧ 65515 ≤ foeTs.toNat + eTs.toNat ∧
          foeTs.toNat + eTs.toNat ≤ 65555) :=
    ⟨fun h => ⟨h.1, h.2, h.3⟩, fun h => ⟨h.1, h.2.1, h.2.2⟩⟩
  rw [hcomparable, stampExpired, decide_eq_true_iff]
  split
  · omega
  · omega

theorem checkEntry_eq_iff (foeTs : BitVec 16) (entry : FoeEntry) :
    checkEntry foeTs entry = (if Aged foeTs entry then .zero else entry) ↔
      (entry.sta = true → Comparable foeTs.toNat entry.mTimestamp.toNat) := by
  rw [← stampExpired_iff, checkEntry]
  by_cases hsta : entry.sta = true
  · have hne : entry ≠ .zero := fun h => by rw [h] at hsta; cases hsta
    by_cases hexpired : stampExpired foeTs entry.mTimestamp = true <;>
      simp [Aged, hsta, hexpired, hne, hne.symm]
  · simp [Aged, hsta]

/-- A run deletes the entries of more than 20 exactly if all stamps can be compared. -/
theorem checkTimestamp_right_iff (foeTs : BitVec 16) (tables : List (List FoeEntry)) :
    checkTimestamp foeTs tables = aged foeTs tables ↔
      ∀ table ∈ tables, ∀ entry ∈ table, entry.sta = true →
        Comparable foeTs.toNat entry.mTimestamp.toNat := by
  simp only [checkTimestamp, aged, List.map_inj_left, checkEntry_eq_iff]

/-- The stamp has wrapped around to 3 since the entry was used at 65530. -/
theorem checkTimestamp_wrapped :
    checkTimestamp 3 [[⟨true, 65530, 7⟩]] = [[.zero]] ∧
      aged 3 [[⟨true, 65530, 7⟩]] = [[⟨true, 65530, 7⟩]] := by
  decide +kernel

end OpenWrt.Hnat
