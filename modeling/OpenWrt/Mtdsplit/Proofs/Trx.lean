import OpenWrt.Mtdsplit.Trx
import OpenWrt.Mtdsplit.Proofs.Search

/-!
# Splits of trx images

The offsets of a header are used without a check, in the byte order of the CPU, and their
differences wrap around.  A header that was rejected in the last block is used with the offset
behind it.
-/

namespace OpenWrt.Mtdsplit.Trx

open Lib

variable {c : Machine} {m : Mtd} {memory : Bool} {offset z u hdr k r size : Nat} {s : Split}

/-! ## Differences -/

theorem sub_eq_zero_iff (hr : r < c.w.values) : c.w.sub size r = 0 ↔ r = size % c.w.values := by
  rcases lt_or_ge size r with hlt | hge
  · rw [sub_of_lt hlt hr, Nat.mod_eq_of_lt (hlt.trans hr)]
    omega
  · rw [sub_of_le hge, ← Nat.dvd_iff_mod_eq_zero, ← Nat.modEq_iff_dvd' hge, Nat.ModEq,
      Nat.mod_eq_of_lt hr]

theorem layout_iff (hk : k < c.w.values) (hr : r < c.w.values) :
    (0 < c.w.sub r k ∧ k + c.w.sub r k ≤ size ∧ r + c.w.sub size r ≤ size ∧
        (k + c.w.sub r k ≤ r ∨ r + c.w.sub size r ≤ k)) ↔
      k < r ∧ r ≤ size ∨
        r < k ∧ c.w.values + r ≤ size ∧ r + (size - r) % c.w.values ≤ k := by
  have hrest := Nat.mod_le (size - r) c.w.values
  -- the root file system is inside exactly if its offset is
  rcases lt_or_ge size r with hlt | hge
  · omega
  rw [sub_of_le hge]
  rcases lt_trichotomy k r with hkr | rfl | hkr
  · rw [sub_of_le hkr.le, Nat.mod_eq_of_lt (show r - k < c.w.values by omega)]
    omega
  · rw [sub_of_le (le_refl k), Nat.sub_self, Nat.zero_mod]
    omega
  · rw [sub_of_lt hkr hk]
    omega

/-! ## The result -/

theorem lookTrx_found {a : Nat × Nat} : lookTrx c.w m offset = .found a ↔
    IsTrx m offset ∧ Fits c.w m offset ∧ a = (trxLen m offset, offset) := by
  by_cases htrx : IsTrx m offset
  · by_cases hfits : Fits c.w m offset
    · simp [lookTrx, htrx, hfits, eq_comm]
    · simp [lookTrx, htrx, hfits]
  · simp [lookTrx, htrx]

theorem lookTrx_skip (hu : u ≠ 0) : lookTrx c.w m offset = .skip (u, hdr) ↔
    IsTrx m offset ∧ ¬Fits c.w m offset ∧ u = trxLen m offset ∧ hdr = offset := by
  by_cases htrx : IsTrx m offset
  · by_cases hfits : Fits c.w m offset
    · simp [lookTrx, htrx, hfits]
    · simp [lookTrx, htrx, hfits, eq_comm]
  · simp [lookTrx, htrx, hu.symm]

theorem trxLen_ne_zero (hoffset : offset < c.w.values) (hend : offset < m.size)
    (h : ¬Fits c.w m offset) : trxLen m offset ≠ 0 := by
  intro hzero
  apply h
  rw [Fits, hzero, add_zero, Nat.mod_eq_of_lt hoffset]
  exact hend.le

theorem searchEnds_iff :
    SearchEnds c.w m m.inside (lookTrx c.w m) (0, 0) z (u, hdr) ∧ u ≠ 0 ↔
      Found c m hdr ∧ z = hdr ∧ u = trxLen m hdr ∨
        LeftOver c m hdr ∧ z = (hdr + m.erasesize) % c.w.values ∧ u = trxLen m hdr := by
  constructor
  · rintro ⟨⟨hvisits, hend, hfound⟩ | ⟨hend, hstart | ⟨y, hvisits, hy, hskip, rfl⟩⟩, hu⟩
    · obtain ⟨htrx, hfits, heq⟩ := lookTrx_found.mp hfound
      cases heq
      exact .inl ⟨⟨hvisits, inside_iff.mp hend, htrx, hfits, hu⟩, rfl, rfl⟩
    · cases hstart
      exact absurd rfl hu
    · obtain ⟨htrx, hfits, rfl, rfl⟩ := (lookTrx_skip hu).mp hskip
      exact .inr ⟨⟨hvisits, inside_iff.mp hy, not_inside_iff.mp hend, htrx, hfits⟩, rfl, rfl⟩
  · rintro (⟨⟨hvisits, hend, htrx, hfits, hu⟩, rfl, rfl⟩ |
      ⟨⟨hvisits, hend, hlast, htrx, hfits⟩, rfl, rfl⟩)
    · exact ⟨.inl ⟨hvisits, inside_iff.mpr hend, lookTrx_found.mpr ⟨htrx, hfits, rfl⟩⟩, hu⟩
    · have hu := trxLen_ne_zero hvisits.lt_values hend hfits
      exact ⟨.inr ⟨not_inside_iff.mpr hlast, .inr ⟨hdr, hvisits, inside_iff.mpr hend,
        (lookTrx_skip hu).mpr ⟨htrx, hfits, rfl, rfl⟩, rfl⟩⟩, hu⟩

theorem splitTrx_ok : splitTrx c m (z, u, hdr) = some (.ok s) ↔
    u ≠ 0 ∧ c.w.sub m.size (place c m hdr z 1) ≠ 0 ∧ s = splitParts c m hdr z := by
  rw [splitTrx]
  by_cases hu : u = 0
  · simp [hu]
  · by_cases hrootfs : c.w.sub m.size (place c m hdr z 1) = 0
    · simp [hrootfs]
    · simp [hu, hrootfs, eq_comm]

theorem parses_iff :
    Parses c m memory s ↔ memory ∧
      ∃ hdr z, (Found c m hdr ∧ z = hdr ∨
          LeftOver c m hdr ∧ z = (hdr + m.erasesize) % c.w.values) ∧
        c.w.sub m.size (place c m hdr z 1) ≠ 0 ∧ s = splitParts c m hdr z := by
  change Yields (fun n => parseTrx c m memory n) (.ok s) ↔ _
  cases memory with
  | false => simp [parseTrx, yields_const]
  | true =>
    simp only [parseTrx, not_true_eq_false, if_false]
    rw [yields_andThen_ok (searchLoop_grows c.w m m.inside (lookTrx c.w m) (0, 0))
      fun _ => grows_const _]
    simp only [yields_const]
    constructor
    · rintro ⟨⟨z, u, hdr⟩, hloop, hsplit⟩
      obtain ⟨hu, hrootfs, rfl⟩ := splitTrx_ok.mp hsplit
      refine ⟨trivial, hdr, z, ?_, hrootfs, rfl⟩
      exact (searchEnds_iff.mp ⟨yields_searchLoop.mp hloop, hu⟩).imp
        (fun h => ⟨h.1, h.2.1⟩) fun h => ⟨h.1, h.2.1⟩
    · rintro ⟨-, hdr, z, hends, hrootfs, rfl⟩
      obtain ⟨hends, hu⟩ := searchEnds_iff.mpr
        (hends.imp (fun h => ⟨h.1, h.2, rfl⟩) fun h => ⟨h.1, h.2, rfl⟩)
      exact ⟨_, yields_searchLoop.mpr hends, splitTrx_ok.mpr ⟨hu, hrootfs, rfl⟩⟩

/-! ## Soundness -/

theorem place_lt (c : Machine) (m : Mtd) (hdr z i : Nat) : place c m hdr z i < c.w.values :=
  Nat.mod_lt _ (values_pos c.w)

theorem sound_iff_of_found (hfound : Found c m z)
    (hrootfs : c.w.sub m.size (place c m z z 1) ≠ 0) :
    Sound m (splitParts c m z z) ↔ GoodHeader c m z := by
  obtain ⟨-, -, htrx, hfits, -⟩ := hfound
  have hlayout (hk : place c m z z 0 = z + leOffset m z 0)
      (hr : place c m z z 1 = z + leOffset m z 1) :
      (0 < c.w.sub (place c m z z 1) (place c m z z 0) ∧
        place c m z z 0 + c.w.sub (place c m z z 1) (place c m z z 0) ≤ m.size ∧
        place c m z z 1 + c.w.sub m.size (place c m z z 1) ≤ m.size ∧
        (place c m z z 0 + c.w.sub (place c m z z 1) (place c m z z 0) ≤ place c m z z 1 ∨
          place c m z z 1 + c.w.sub m.size (place c m z z 1) ≤ place c m z z 0)) ↔
        Ordered c m z := by
    rw [layout_iff (place_lt c m z z 0) (place_lt c m z z 1), hk, hr, Ordered,
      Nat.add_lt_add_iff_left, Nat.add_lt_add_iff_left]
  constructor
  · intro h
    refine ⟨.inr h.length, h.kernelStart, h.rootfsStart, ?_⟩
    exact (hlayout h.kernelStart h.rootfsStart).mp
      ⟨h.kernelPos, h.kernelInside, h.rootfsInside, h.apart⟩
  · intro h
    obtain ⟨hpos, hkernel, hroot, happart⟩ := (hlayout h.kernel h.rootfs).mpr h.ordered
    refine ⟨htrx, ?_, hpos, Nat.pos_of_ne_zero hrootfs, happart, hkernel, hroot, h.kernel, h.rootfs⟩
    rcases h.length with hlen | hlen
    · rw [Fits, Nat.mod_eq_of_lt hlen] at hfits
      exact hfits
    · exact hlen

theorem not_sound_of_leftOver (hleft : LeftOver c m hdr) : ¬Sound m (splitParts c m hdr z) := by
  intro hsound
  have hlen : hdr + trxLen m hdr ≤ m.size := hsound.length
  have hmod := Nat.mod_le (hdr + trxLen m hdr) c.w.values
  exact hleft.2.2.2.2 (hmod.trans hlen)

/-- The split is sound exactly if the header of the image is good, and no header is left over. -/
theorem trx_sound_iff (c : Machine) (m : Mtd) (memory : Bool) :
    (∀ s, Parses c m memory s → Sound m s) ↔ (memory = true → Fine c m) := by
  constructor
  · intro hsound hmemory
    refine ⟨?_, ?_⟩
    · intro z hfound
      by_cases hrootfs : c.w.sub m.size (place c m z z 1) = 0
      · exact .inl ((sub_eq_zero_iff (place_lt c m z z 1)).mp hrootfs)
      · refine .inr ((sound_iff_of_found hfound hrootfs).mp (hsound _ (parses_iff.mpr ?_)))
        exact ⟨hmemory, z, z, .inl ⟨hfound, rfl⟩, hrootfs, rfl⟩
    · intro y hleft
      by_contra hrootfs
      have hparse : Parses c m memory (splitParts c m y ((y + m.erasesize) % c.w.values)) := by
        refine parses_iff.mpr ⟨hmemory, y, _, .inr ⟨hleft, rfl⟩, fun hzero => hrootfs ?_, rfl⟩
        exact (sub_eq_zero_iff (place_lt c m y _ 1)).mp hzero
      exact not_sound_of_leftOver hleft (hsound _ hparse)
  · intro hfine s hparse
    obtain ⟨hmemory, hdr, z, hends, hrootfs, rfl⟩ := parses_iff.mp hparse
    have hfine := hfine hmemory
    have hend : place c m hdr z 1 ≠ m.size % c.w.values := fun heq =>
      hrootfs ((sub_eq_zero_iff (place_lt c m hdr z 1)).mpr heq)
    rcases hends with ⟨hfound, rfl⟩ | ⟨hleft, rfl⟩
    · refine (sound_iff_of_found hfound hrootfs).mpr ?_
      exact (hfine.found z hfound).resolve_left hend
    · exact absurd (hfine.leftOver hdr hleft) hend

def kernelOnly : Mtd where
  size := 128
  erasesize := 64
  flash := storeBytes (fun _ => 0) 0
    (wordBytes false TRX_MAGIC ++ wordBytes false 64 ++ List.replicate 8 0 ++ wordBytes false 32)
  fails := fun _ _ => none
  fails_neg := readable_fails_neg

theorem not_sound_kernelOnly :
    ¬∀ s, Parses ⟨.bits32, false⟩ kernelOnly true s → Sound kernelOnly s := by
  intro hsound
  have hs := hsound ⟨0, ⟨32, 4294967264⟩, ⟨0, 128⟩⟩ ⟨1, by decide +kernel⟩
  exact absurd hs.kernelInside (show ¬32 + 4294967264 ≤ 128 by decide)

end OpenWrt.Mtdsplit.Trx
