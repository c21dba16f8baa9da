import OpenWrt.Mtdsplit.Proofs.Search
import OpenWrt.Mtdsplit.Uimage

/-!
# Splits of uImage firmware

The loop over blocks ends at an image that fits, or behind the device with the size of an image
that does not.  In the second case the parser goes on as if it had found the image.
-/

namespace OpenWrt.Mtdsplit.Uimage

open Lib

variable {c : Machine} {m : Mtd} {dt : Dt} {memory : Bool} {offset z u r : Nat} {s : Split}
  {type : PartType}

/-! ## One block -/

theorem lookUimage_found :
    lookUimage c m dt offset = .found u ↔
      IsHeader m dt offset ∧ Fits c m dt offset ∧ u = uimageSize c m dt offset := by
  by_cases hheader : IsHeader m dt offset <;> by_cases hfits : Fits c m dt offset <;>
    simp [lookUimage, hheader, hfits, eq_comm]

theorem lookUimage_skip (hu : u ≠ 0) :
    lookUimage c m dt offset = .skip u ↔
      IsHeader m dt offset ∧ ¬Fits c m dt offset ∧ u = uimageSize c m dt offset := by
  by_cases hheader : IsHeader m dt offset <;> by_cases hfits : Fits c m dt offset <;>
    simp [lookUimage, hheader, hfits, hu, eq_comm]

theorem uimageSize_lt (c : Machine) (m : Mtd) (dt : Dt) (offset : Nat) :
    uimageSize c m dt offset < c.w.values := by
  have hpos := values_pos c.w
  have hmod := Int.emod_lt_of_pos (imageSize m dt offset) (Int.natCast_pos.mpr hpos)
  rw [uimageSize]
  omega

theorem imageSize_le_iff :
    imageSize m dt offset ≤ uimageSize c m dt offset ↔ imageSize m dt offset < c.w.values := by
  have hlt := uimageSize_lt c m dt offset
  constructor
  · intro h
    omega
  intro h
  rw [uimageSize]
  rcases Int.lt_or_le (imageSize m dt offset) 0 with hneg | hnonneg
  · omega
  · rw [Int.emod_eq_of_lt hnonneg h]
    omega

theorem uimageSize_ne_zero (hoffset : offset < c.w.values) (hend : offset < m.size)
    (h : ¬Fits c m dt offset) : uimageSize c m dt offset ≠ 0 := by
  intro hzero
  apply h
  rw [Fits, hzero, add_zero, Nat.mod_eq_of_lt hoffset]
  exact hend.le

/-! ## The result -/

theorem searchEnds_of_found (h : Found c m dt z) :
    SearchEnds c.w m m.inside (lookUimage c m dt) 0 z (uimageSize c m dt z) := by
  obtain ⟨hvisits, hend, hheader, hfits, -⟩ := h
  exact .inl ⟨hvisits, inside_iff.mpr hend, lookUimage_found.mpr ⟨hheader, hfits, rfl⟩⟩

theorem searchEnds_of_leftOver (h : LeftOver c m dt z) :
    SearchEnds c.w m m.inside (lookUimage c m dt) 0 ((z + m.erasesize) % c.w.values)
      (uimageSize c m dt z) := by
  obtain ⟨hvisits, hend, hlast, hheader, hfits⟩ := h
  have hu := uimageSize_ne_zero hvisits.lt_values hend hfits
  exact .inr ⟨not_inside_iff.mpr hlast, .inr ⟨z, hvisits, inside_iff.mpr hend,
    (lookUimage_skip hu).mpr ⟨hheader, hfits, rfl⟩, rfl⟩⟩

theorem searchEnds_cases (h : SearchEnds c.w m m.inside (lookUimage c m dt) 0 z u) (hu : u ≠ 0) :
    Found c m dt z ∧ u = uimageSize c m dt z ∨
      ∃ y, LeftOver c m dt y ∧ z = (y + m.erasesize) % c.w.values ∧ u = uimageSize c m dt y := by
  rcases h with ⟨hvisits, hend, hfound⟩ | ⟨hend, hstart | ⟨y, hvisits, hy, hskip, rfl⟩⟩
  · obtain ⟨hheader, hfits, rfl⟩ := lookUimage_found.mp hfound
    exact .inl ⟨⟨hvisits, inside_iff.mp hend, hheader, hfits, hu⟩, rfl⟩
  · exact absurd (Prod.mk.inj hstart).2 hu
  · obtain ⟨hheader, hfits, rfl⟩ := (lookUimage_skip hu).mp hskip
    exact .inr ⟨y, ⟨hvisits, inside_iff.mp hy, not_inside_iff.mp hend, hheader, hfits⟩, rfl, rfl⟩

def Splits (c : Machine) (m : Mtd) (z u : Nat) (s : Split) : Prop :=
  z = 0 ∧ (∃ r type, FirstRootfs c m (m.size % c.w.values) u r ∧
      checkRootfsMagic c.big m r = .ok type ∧ (m.size - r) % c.w.values ≠ 0 ∧
      s = ⟨⟨0, r⟩, ⟨r, (m.size - r) % c.w.values⟩, type⟩) ∨
    z ≠ 0 ∧ ∃ type, checkRootfsMagic c.big m 0 = .ok type ∧ s = ⟨⟨z, u⟩, ⟨0, z⟩, type⟩

theorem splitBehind_ok {s : Split} : splitBehind c m (r, type) = some (.ok s) ↔
    (m.size - r) % c.w.values ≠ 0 ∧ s = ⟨⟨0, r⟩, ⟨r, (m.size - r) % c.w.values⟩, type⟩ := by
  by_cases hsize : (m.size - r) % c.w.values = 0
  · simp [splitBehind, hsize]
  · simp [splitBehind, hsize, eq_comm]

theorem splitUimage_grows (c : Machine) (m : Mtd) (a : Nat × Nat) :
    Grows fun n => splitUimage c m n a := by
  obtain ⟨z, u⟩ := a
  by_cases hu : u = 0
  · simp only [splitUimage, if_pos hu]
    exact grows_const _
  by_cases hz : z = 0
  · simp only [splitUimage, if_neg hu, if_pos hz]
    exact (findRootfsFrom_grows c m _ u).andThen fun _ => grows_const _
  · simp only [splitUimage, if_neg hz]
    exact grows_const _

theorem yields_splitUimage :
    Yields (fun n => splitUimage c m n (z, u)) (.ok s) ↔ u ≠ 0 ∧ Splits c m z u s := by
  by_cases hu : u = 0
  · simp [splitUimage, hu, yields_const]
  rw [Splits]
  by_cases hz : z = 0
  · simp only [splitUimage, if_neg hu, if_pos hz]
    rw [yields_andThen_ok (findRootfsFrom_grows c m _ u) fun _ => grows_const _]
    simp only [yields_const]
    constructor
    · rintro ⟨⟨r, type⟩, hfound, hsplit⟩
      obtain ⟨hfirst, hcheck⟩ := yields_findRootfsFrom.mp hfound
      obtain ⟨hsize, rfl⟩ := splitBehind_ok.mp hsplit
      exact ⟨hu, .inl ⟨hz, r, type, hfirst, hcheck, hsize, rfl⟩⟩
    · rintro ⟨-, ⟨-, r, type, hfirst, hcheck, hsize, rfl⟩ | ⟨hz', -⟩⟩
      · exact ⟨(r, type), yields_findRootfsFrom.mpr ⟨hfirst, hcheck⟩,
          splitBehind_ok.mpr ⟨hsize, rfl⟩⟩
      · exact absurd hz hz'
  · simp only [splitUimage, if_neg hu, if_neg hz, yields_const]
    cases hcheck : checkRootfsMagic c.big m 0 with
    | error err => simp [splitBefore, hz]
    | ok type => simp [splitBefore, hz, hu, eq_comm]

theorem parses_iff :
    Parses c m dt memory s ↔ memory ∧ headerLen + dt.headerOffset < c.w.values ∧
      ∃ z u, SearchEnds c.w m m.inside (lookUimage c m dt) 0 z u ∧ u ≠ 0 ∧ Splits c m z u s := by
  change Yields (fun n => parseUimage c m dt memory n) (.ok s) ↔ _
  cases memory with
  | false => simp [parseUimage, yields_const]
  | true =>
    by_cases hbuffer : c.w.values ≤ headerLen + dt.headerOffset
    · simp [parseUimage, hbuffer, yields_const]
    · simp only [parseUimage, not_true_eq_false, if_false, if_neg hbuffer]
      rw [yields_andThen_ok (searchLoop_grows c.w m m.inside (lookUimage c m dt) 0)
        (splitUimage_grows c m)]
      simp only [Prod.exists, yields_searchLoop, yields_splitUimage, not_le.mp hbuffer, true_and]

/-! ## Soundness -/

theorem sound_behind (h : Found c m dt 0)
    (hfirst : FirstRootfs c m (m.size % c.w.values) (uimageSize c m dt 0) r)
    (hcovers : imageSize m dt 0 ≤ r) :
    Sound c m dt ⟨⟨0, r⟩, ⟨r, (m.size - r) % c.w.values⟩, type⟩ := by
  obtain ⟨-, hend, hroot⟩ := hfirst
  have hlimit := Nat.mod_le m.size c.w.values
  have hrest := Nat.mod_le (m.size - r) c.w.values
  refine ⟨.inl ?_, ?_, ?_, dvd_zero _, h.2.2.1, hcovers, hroot⟩
  · exact le_of_eq (zero_add r)
  · show 0 + r ≤ m.size
    omega
  · show r + (m.size - r) % c.w.values ≤ m.size
    omega

theorem sound_before (h : Found c m dt z) (hroot : IsRootfs c.big m 0)
    (hsize : imageSize m dt z < c.w.values)
    (hend : z + uimageSize c m dt z < c.w.values ∨ z + uimageSize c m dt z ≤ m.size)
    (hblock : m.erasesize ∣ z) :
    Sound c m dt ⟨⟨z, uimageSize c m dt z⟩, ⟨0, z⟩, type⟩ := by
  obtain ⟨-, hz, hheader, hfits, -⟩ := h
  have hinside : z + uimageSize c m dt z ≤ m.size := by
    rcases hend with hend | hend
    · rw [Fits, Nat.mod_eq_of_lt hend] at hfits
      exact hfits
    · exact hend
  refine ⟨.inr ?_, hinside, ?_, hblock, hheader, imageSize_le_iff.mpr hsize, hroot⟩
  · exact le_of_eq (zero_add z)
  · show 0 + z ≤ m.size
    omega

/-- The split is sound exactly if no size overflows a `size_t` and no size is left over from
an image that exceeds the device. -/
theorem uimage_sound_iff (c : Machine) (m : Mtd) (dt : Dt) (memory : Bool) :
    (∀ s, Parses c m dt memory s → Sound c m dt s) ↔
      (memory = true → headerLen + dt.headerOffset < c.w.values → InRange c m dt) := by
  constructor
  · intro hsound hmemory hbuffer
    have hparses {z u : Nat} {s : Split}
      (hends : SearchEnds c.w m m.inside (lookUimage c m dt) 0 z u)
        (hu : u ≠ 0) (hsplits : Splits c m z u s) : Sound c m dt s :=
      hsound s (parses_iff.mpr ⟨hmemory, hbuffer, z, u, hends, hu, hsplits⟩)
    refine ⟨?_, ?_, ?_⟩
    · intro hfound r hfirst hsize
      obtain ⟨type, hcheck⟩ := isRootfs_iff.mp hfirst.2.2
      exact (hparses (searchEnds_of_found hfound) hfound.2.2.2.2
        (.inl ⟨rfl, r, type, hfirst, hcheck, hsize, rfl⟩)).covers
    · intro z hfound hz hroot
      obtain ⟨type, hcheck⟩ := isRootfs_iff.mp hroot
      have hs := hparses (searchEnds_of_found hfound) hfound.2.2.2.2 (.inr ⟨hz, type, hcheck, rfl⟩)
      exact ⟨imageSize_le_iff.mp hs.covers, .inr hs.kernelInside, hs.eraseBlock⟩
    · intro y hleft hroot
      obtain ⟨type, hcheck⟩ := isRootfs_iff.mp hroot
      have hu := uimageSize_ne_zero hleft.1.lt_values hleft.2.1 hleft.2.2.2.2
      have hlast := hleft.2.2.1
      have hy := hleft.2.1
      have hs := hparses (searchEnds_of_leftOver hleft) hu (.inr ⟨by omega, type, hcheck, rfl⟩)
      have hinside : (y + m.erasesize) % c.w.values + uimageSize c m dt y ≤ m.size :=
        hs.kernelInside
      omega
  · intro hrange s hparse
    obtain ⟨hmemory, hbuffer, z, u, hends, hu, hsplits⟩ := parses_iff.mp hparse
    have hrange := hrange hmemory hbuffer
    rcases searchEnds_cases hends hu with ⟨hfound, rfl⟩ | ⟨y, hleft, rfl, rfl⟩
    · rcases hsplits with ⟨rfl, r, type, hfirst, -, hsize, rfl⟩ | ⟨hz, type, hcheck, rfl⟩
      · exact sound_behind hfound hfirst (hrange.behind hfound r hfirst hsize)
      · have hroot := isRootfs_iff.mpr ⟨type, hcheck⟩
        obtain ⟨hsize, hend, hblock⟩ := hrange.before z hfound hz hroot
        exact sound_before hfound hroot hsize hend hblock
    · rcases hsplits with ⟨hz, -⟩ | ⟨-, type, hcheck, -⟩
      · have hlast := hleft.2.2.1
        have hy := hleft.2.1
        omega
      · exact absurd (isRootfs_iff.mpr ⟨type, hcheck⟩) (hrange.leftOver y hleft)

def largeImage : Mtd where
  size := 128
  erasesize := 64
  flash := storeBytes (storeBytes (fun _ => 0) 0 (wordBytes false SQUASHFS_MAGIC)) 64
    (wordBytes true IH_MAGIC ++ List.replicate 8 0 ++ wordBytes true 256 ++
      List.replicate 12 0 ++ [5, 0, 2])
  fails := fun _ _ => none
  fails_neg := readable_fails_neg

theorem not_sound_largeImage :
    ¬∀ s, Parses ⟨.bits32, false⟩ largeImage {} true s →
      Sound ⟨.bits32, false⟩ largeImage {} s := by
  intro hsound
  have hs := hsound ⟨⟨128, 320⟩, ⟨0, 128⟩, .squashfs⟩ ⟨3, by decide +kernel⟩
  exact absurd hs.kernelInside (by decide)

end OpenWrt.Mtdsplit.Uimage
