import OpenWrt.SNand.Proofs.Geometry

/-!
# The page format that the SPI-NAND driver selects

`mtk_snand_pagefmt_setup` and `mtk_ecc_setup` each walk a table from its end and take the
first entry that is small enough.  That entry is the largest one only where the table is
sorted, and the first search has no way to report that there is none.
-/

namespace OpenWrt.SNand

open Lib List

/-- The controller doubles the spare size of 1 KiB sectors. -/
def Soc.mul (soc : Soc) : Nat := if soc.data.sectorSize = 1024 then 2 else 1

/-- Parity bits of the code that `mtk_ecc_setup` sets up for each bit it corrects. -/
def Soc.parityBits (soc : Soc) : Nat := fls (1 + 8 * (soc.data.sectorSize + soc.data.fdmEccSize))

def Soc.parityBytes (soc : Soc) (strength : Nat) : Nat := (strength * soc.parityBits + 7) / 8

def Soc.sparePerStep (soc : Soc) (pagesize sparesize : Nat) : Nat :=
  sparesize / (pagesize / soc.data.sectorSize) / soc.mul

/-- The two returns of `-ENOTSUPP`. -/
def Soc.Refuses (soc : Soc) (pagesize : Nat) : Prop :=
  soc.data.maxSectors < pagesize / soc.data.sectorSize ∨ pagesize ∉ supportedPageSizes

/-- The largest spare size that fits on the page, and the strongest code whose parity fits
behind the FDM bytes. -/
structure FormatOk (soc : Soc) (sparesize : Nat) (snf : Snf) : Prop where
  spare : IsGreatest
    {s | ∃ size ∈ soc.data.spareSizes, s = size * soc.mul ∧ s * snf.eccSteps ≤ sparesize}
    snf.sparePerSector
  strength : IsGreatest
    {c | c ∈ soc.eccCaps ∧ soc.parityBytes c ≤ snf.sparePerSector - soc.data.fdmSize}
    snf.eccStrength

/-- The selection is refused, or ends inside the tables with the format that it should
have. -/
def FormatSound (soc : Soc) (pagesize sparesize : Nat) : Prop :=
  soc.Refuses pagesize ∧ setup soc pagesize sparesize = none ∨
    ∃ snf, setup soc pagesize sparesize = some snf ∧ FormatOk soc sparesize snf

/-! ## Searching a table from its end -/

section Tables

variable {l : List Nat} {n c : Nat}

theorem isGreatest_of_find? (hsorted : l.Pairwise (· < ·))
    (h : l.reverse.find? (fun x => x ≤ n) = some c) : IsGreatest {x | x ∈ l ∧ x ≤ n} c := by
  obtain ⟨hc, as, bs, hsplit, has⟩ := find?_eq_some_iff_append.mp h
  have hrev : (as ++ c :: bs).Pairwise (fun x y => y < x) := by
    rw [← hsplit, pairwise_reverse]
    exact hsorted
  have hmem : ∀ x, x ∈ l ↔ x ∈ as ++ c :: bs := by
    intro x
    rw [← hsplit, mem_reverse]
  refine ⟨⟨(hmem c).mpr (by simp), by simpa using hc⟩, ?_⟩
  rintro x ⟨hx, hxn⟩
  rcases mem_append.mp ((hmem x).mp hx) with hx | hx
  · exact absurd hxn (by simpa using has x hx)
  · rcases mem_cons.mp hx with rfl | hx
    · exact le_refl _
    · have hbs := (pairwise_append.mp hrev).2.1
      exact ((pairwise_cons.mp hbs).1 x hx).le

end Tables

def Soc.spareFor (soc : Soc) (p : Nat) : Option Nat :=
  (soc.data.spareSizes.zipIdx.reverse.find? (fun x => x.1 ≤ p)).map Prod.fst

theorem spareFor_min (soc : Soc) (p : Nat) : soc.spareFor p = soc.spareFor (min p 74) := by
  have hle : ∀ x ∈ soc.data.spareSizes.zipIdx.reverse, x.1 ≤ 74 := by
    cases soc <;> decide
  unfold Soc.spareFor
  rw [← head?_filter, ← head?_filter]
  have hfilter : soc.data.spareSizes.zipIdx.reverse.filter (fun x => x.1 ≤ p) =
      soc.data.spareSizes.zipIdx.reverse.filter (fun x => x.1 ≤ min p 74) := by
    apply filter_congr
    intro x hx
    have := hle x hx
    rw [decide_eq_decide]
    omega
  rw [hfilter]

/-- The tables with 1 KiB sectors have 62 in front of 61, and 61 is found first. -/
theorem spareFor_greatest_of_le (soc : Soc) : ∀ p ≤ 74,
    (∃ size ∈ soc.data.spareSizes, soc.spareFor p = some size ∧ size ≤ p ∧
      ∀ x ∈ soc.data.spareSizes, x ≤ p → x ≤ size) ↔
      16 ≤ p ∧ (soc.data.sectorSize = 1024 → p ≠ 62) := by
  cases soc <;> decide

theorem spareFor_greatest_iff (soc : Soc) (p : Nat) :
    (∃ size, soc.spareFor p = some size ∧ IsGreatest {x | x ∈ soc.data.spareSizes ∧ x ≤ p} size) ↔
      16 ≤ p ∧ (soc.data.sectorSize = 1024 → p ≠ 62) := by
  have hsizes : ∀ x ∈ soc.data.spareSizes, x ≤ 74 := fun x hx =>
    ((socData_bounds soc).2.2.2.1 x hx).2
  have hmin : ∀ x ∈ soc.data.spareSizes, x ≤ p ↔ x ≤ min p 74 := by
    intro x hx
    have := hsizes x hx
    omega
  have hcond : (16 ≤ p ∧ (soc.data.sectorSize = 1024 → p ≠ 62)) ↔
      16 ≤ min p 74 ∧ (soc.data.sectorSize = 1024 → min p 74 ≠ 62) := by
    omega
  rw [hcond, ← spareFor_greatest_of_le soc (min p 74) (min_le_right _ _), spareFor_min]
  constructor
  · rintro ⟨size, hfound, ⟨hmem, hle⟩, hmax⟩
    exact ⟨size, hmem, hfound, (hmin size hmem).mp hle,
      fun x hx hxp => hmax ⟨hx, (hmin x hx).mpr hxp⟩⟩
  · rintro ⟨size, hmem, hfound, hle, hmax⟩
    exact ⟨size, hfound, ⟨hmem, (hmin size hmem).mpr hle⟩,
      fun x ⟨hx, hxp⟩ => hmax x hx ((hmin x hx).mp hxp)⟩

/-! ## The format -/

section Format

variable {soc : Soc} {pagesize sparesize : Nat}

def Soc.format (soc : Soc) (pagesize sparesize spare : Nat) : Snf where
  soc := soc.data
  writesize := pagesize
  oobsize := sparesize
  eccSteps := pagesize / soc.data.sectorSize
  sparePerSector := spare
  rawSectorSize := soc.data.sectorSize + spare
  eccStrength := 0

theorem setup_of_refuses (h : soc.Refuses pagesize) : setup soc pagesize sparesize = none := by
  simp only [setup]
  split
  · rfl
  · rename_i hsteps
    have hsize := h.resolve_left hsteps
    rw [pagefmtSetup, if_neg hsize]
    rfl

/-- The spare size that is set up; a selection that finds nothing leaves it at 0. -/
def Soc.spareSet (soc : Soc) (pagesize sparesize : Nat) : Nat :=
  ((soc.spareFor (soc.sparePerStep pagesize sparesize)).map (· * soc.mul)).getD 0

theorem pagefmtSetup_eq {snf : Snf} (h : snf.writesize ∈ supportedPageSizes) :
    pagefmtSetup snf =
      some { snf with
        sparePerSector := ((selectSparePerSector snf).map Prod.snd).getD snf.sparePerSector
        rawSectorSize := snf.soc.sectorSize +
          ((selectSparePerSector snf).map Prod.snd).getD snf.sparePerSector } := by
  rw [pagefmtSetup, if_pos h]
  cases selectSparePerSector snf <;> rfl

theorem selectSparePerSector_snd (soc : Soc) (pagesize sparesize spare : Nat) :
    (selectSparePerSector (soc.format pagesize sparesize spare)).map Prod.snd =
      (soc.spareFor (soc.sparePerStep pagesize sparesize)).map (· * soc.mul) := by
  simp only [selectSparePerSector]
  split
  · rename_i size i heq
    have hsize : soc.spareFor (soc.sparePerStep pagesize sparesize) = some size :=
      congrArg (Option.map Prod.fst) heq
    rw [hsize]
    rfl
  · rename_i heq
    have hnone : soc.spareFor (soc.sparePerStep pagesize sparesize) = none :=
      congrArg (Option.map Prod.fst) heq
    rw [hnone]
    rfl

theorem setup_of_not_refuses (sparesize : Nat) (h : ¬soc.Refuses pagesize) :
    setup soc pagesize sparesize =
      eccSetup soc (soc.format pagesize sparesize (soc.spareSet pagesize sparesize))
        (soc.format pagesize sparesize (soc.spareSet pagesize sparesize)).eccBytes
        (soc.data.sectorSize + soc.data.fdmEccSize) := by
  obtain ⟨hsteps, hsize⟩ := not_or.mp h
  simp only [setup]
  rw [if_neg hsteps, pagefmtSetup_eq (not_not.mp hsize)]
  have hspare := selectSparePerSector_snd soc pagesize sparesize 0
  unfold Soc.spareSet
  rw [← hspare]
  rfl

theorem parityBytes_le_iff (soc : Soc) (c bytes : Nat) :
    soc.parityBytes c ≤ bytes ↔ c ≤ bytes * 8 / soc.parityBits := by
  have hpos : 0 < soc.parityBits := by cases soc <;> decide
  rw [Nat.le_div_iff_mul_le hpos, Soc.parityBytes]
  omega

theorem eccSetup_greatest (pagesize sparesize : Nat) {size : Nat}
    (hsize : size ∈ soc.data.spareSizes) :
    ∃ c, eccSetup soc (soc.format pagesize sparesize (size * soc.mul))
        (soc.format pagesize sparesize (size * soc.mul)).eccBytes
        (soc.data.sectorSize + soc.data.fdmEccSize) =
          some { soc.format pagesize sparesize (size * soc.mul) with eccStrength := c } ∧
      IsGreatest {c | c ∈ soc.eccCaps ∧
        soc.parityBytes c ≤ size * soc.mul - soc.data.fdmSize} c := by
  have hfacts : soc.data.fdmSize ≤ size * soc.mul ∧ size * soc.mul < 4294967296 / 8 ∧
      4 ∈ soc.eccCaps ∧ 4 ≤ (size * soc.mul - soc.data.fdmSize) * 8 / soc.parityBits := by
    revert size
    cases soc <;> decide
  obtain ⟨hfdm, hsmall, hcap, hstrength⟩ := hfacts
  have hbytes : (soc.format pagesize sparesize (size * soc.mul)).eccBytes =
      size * soc.mul - soc.data.fdmSize := if_pos hfdm
  have hmod : (size * soc.mul - soc.data.fdmSize) * 8 % 2 ^ 32 =
      (size * soc.mul - soc.data.fdmSize) * 8 := Nat.mod_eq_of_lt (by omega)
  have hsome : (soc.eccCaps.reverse.find? fun cap => decide (cap ≤
      (size * soc.mul - soc.data.fdmSize) * 8 / soc.parityBits)).isSome := by
    rw [find?_isSome]
    exact ⟨4, mem_reverse.mpr hcap, by simpa using hstrength⟩
  obtain ⟨c, hc⟩ := Option.isSome_iff_exists.mp hsome
  refine ⟨c, ?_, ?_⟩
  · simp only [eccSetup]
    rw [hbytes, hmod]
    split
    · rename_i cap heq
      obtain rfl : cap = c := Option.some.inj (heq.symm.trans hc)
      rfl
    · rename_i heq
      cases heq.symm.trans hc
  · simp only [parityBytes_le_iff]
    exact isGreatest_of_find? (by cases soc <;> decide) hc

theorem isGreatest_spare_iff {size : Nat} (hsteps : 0 < pagesize / soc.data.sectorSize) :
    IsGreatest {s | ∃ size ∈ soc.data.spareSizes, s = size * soc.mul ∧
        s * (pagesize / soc.data.sectorSize) ≤ sparesize} (size * soc.mul) ↔
      IsGreatest {x | x ∈ soc.data.spareSizes ∧ x ≤ soc.sparePerStep pagesize sparesize} size := by
  have hmul : 0 < soc.mul := by cases soc <;> decide
  have hfits : ∀ x, x * soc.mul * (pagesize / soc.data.sectorSize) ≤ sparesize ↔
      x ≤ soc.sparePerStep pagesize sparesize := by
    intro x
    rw [Soc.sparePerStep, Nat.le_div_iff_mul_le hmul, Nat.le_div_iff_mul_le hsteps]
  constructor
  · rintro ⟨⟨y, hy, heq, hle⟩, hmax⟩
    obtain rfl : size = y := Nat.eq_of_mul_eq_mul_right hmul heq
    refine ⟨⟨hy, (hfits size).mp hle⟩, ?_⟩
    rintro x ⟨hx, hxp⟩
    exact Nat.le_of_mul_le_mul_right (hmax ⟨x, hx, rfl, (hfits x).mpr hxp⟩) hmul
  · rintro ⟨⟨hmem, hle⟩, hmax⟩
    refine ⟨⟨size, hmem, rfl, (hfits size).mpr hle⟩, ?_⟩
    rintro s ⟨x, hx, rfl, hxp⟩
    exact Nat.mul_le_mul_right _ (hmax ⟨hx, (hfits x).mp hxp⟩)

theorem eccSetup_eq {snf snf' : Snf} {maxEccBytes msgSize : Nat}
    (h : eccSetup soc snf maxEccBytes msgSize = some snf') :
    ∃ c, snf' = { snf with eccStrength := c } := by
  simp only [eccSetup] at h
  split at h
  · cases h
    exact ⟨_, rfl⟩
  · cases h

theorem spareFor_mem {p size : Nat} (h : soc.spareFor p = some size) :
    size ∈ soc.data.spareSizes := by
  obtain ⟨⟨s, i⟩, hfind, rfl⟩ := Option.map_eq_some_iff.mp h
  have hmem := mem_reverse.mp (mem_of_find?_eq_some hfind)
  exact (mem_zipIdx hmem).2.2 ▸ getElem_mem _

theorem spare_pos {size : Nat} (h : size ∈ soc.data.spareSizes) : 0 < size * soc.mul := by
  have hmul : 0 < soc.mul := by cases soc <;> decide
  have hsize := ((socData_bounds soc).2.2.2.1 size h).1
  exact mul_pos (by omega) hmul

theorem steps_pos_of_spareFor {size : Nat}
    (h : soc.spareFor (soc.sparePerStep pagesize sparesize) = some size) :
    0 < pagesize / soc.data.sectorSize := by
  apply Nat.pos_of_ne_zero
  intro hzero
  have hnone : soc.spareFor 0 = none := by cases soc <;> rfl
  rw [Soc.sparePerStep, hzero, Nat.div_zero, Nat.zero_div, hnone] at h
  cases h

/-- The selection is sound exactly if the page is refused, or the smallest spare size fits
and it is not the one size for which the order of the table matters. -/
theorem formatSound_iff (soc : Soc) (pagesize sparesize : Nat) :
    FormatSound soc pagesize sparesize ↔
      soc.Refuses pagesize ∨ 16 ≤ soc.sparePerStep pagesize sparesize ∧
        (soc.data.sectorSize = 1024 → soc.sparePerStep pagesize sparesize ≠ 62) := by
  by_cases href : soc.Refuses pagesize
  · exact iff_of_true (.inl ⟨href, setup_of_refuses href⟩) (.inl href)
  rw [or_iff_right href, ← spareFor_greatest_iff]
  have hsetup := setup_of_not_refuses sparesize href
  constructor
  · rintro (⟨h, -⟩ | ⟨snf, hsnf, hok⟩)
    · exact absurd h href
    obtain ⟨c, rfl⟩ := eccSetup_eq (hsetup.symm.trans hsnf)
    have hgreatest := hok.spare
    change IsGreatest _ (soc.spareSet pagesize sparesize) at hgreatest
    cases hspare : soc.spareFor (soc.sparePerStep pagesize sparesize) with
    | none =>
      -- No entry of the table is 0, the value that is left when none fits.
      have hzero : soc.spareSet pagesize sparesize = 0 := by rw [Soc.spareSet, hspare]; rfl
      obtain ⟨x, hx, heq, -⟩ := hgreatest.1
      have hpos := spare_pos hx
      omega
    | some size =>
      have hset : soc.spareSet pagesize sparesize = size * soc.mul := by
        rw [Soc.spareSet, hspare]
        rfl
      rw [hset] at hgreatest
      exact ⟨size, rfl, (isGreatest_spare_iff (steps_pos_of_spareFor hspare)).mp hgreatest⟩
  · rintro ⟨size, hspare, hgreatest⟩
    have hset : soc.spareSet pagesize sparesize = size * soc.mul := by
      rw [Soc.spareSet, hspare]
      rfl
    rw [hset] at hsetup
    obtain ⟨c, hecc, hc⟩ := eccSetup_greatest pagesize sparesize (spareFor_mem hspare)
    exact .inr ⟨_, hsetup.trans hecc,
      (isGreatest_spare_iff (steps_pos_of_spareFor hspare)).mpr hgreatest, hc⟩

end Format

/-- With 32 spare bytes for four sectors nothing is selected and nothing is refused; with 248
spare bytes for two sectors 61 is selected, although 62 fits. -/
theorem format_unsound :
    (setup .mt7622 2048 32 = some ⟨Soc.mt7622.data, 2048, 32, 4, 0, 512, 12⟩ ∧
      ¬FormatSound .mt7622 2048 32) ∧
    (setup .mt7981 2048 248 = some ⟨Soc.mt7981.data, 2048, 248, 2, 122, 1146, 24⟩ ∧
      ¬FormatSound .mt7981 2048 248) := by
  have hsmall : setup .mt7622 2048 32 = some ⟨Soc.mt7622.data, 2048, 32, 4, 0, 512, 12⟩ := by rfl
  have hlarge : setup .mt7981 2048 248 = some ⟨Soc.mt7981.data, 2048, 248, 2, 122, 1146, 24⟩ := by
    rfl
  refine ⟨⟨hsmall, ?_⟩, ⟨hlarge, ?_⟩⟩
  · rintro (⟨-, hnone⟩ | ⟨snf, hsnf, hok⟩)
    · cases hnone
    · cases hsnf
      obtain ⟨size, hsize, heq, -⟩ := hok.spare.1
      have hpos := spare_pos hsize
      change 0 = size * Soc.mt7622.mul at heq
      omega
  · rintro (⟨-, hnone⟩ | ⟨snf, hsnf, hok⟩)
    · cases hnone
    · cases hsnf
      have hle : 124 ≤ 122 := hok.spare.2 ⟨62, by decide, rfl, by decide⟩
      exact absurd hle (by decide)

end OpenWrt.SNand
