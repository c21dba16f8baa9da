import OpenWrt.SNand.Proofs.RoundTrip

/-!
# The geometries the SPI-NAND driver accepts

`mtk_snand_setup` accepts every page size of its table, whatever the spare size.
The page format it sets up is right when a spare size was found and the spare
bytes of all sectors but the last fit into one sector.
-/

namespace OpenWrt.SNand

open Lib List

variable {snf : Snf} {soc : Soc} {pagesize sparesize : Nat}

structure Accepted (soc : Soc) (pagesize sparesize : Nat) (snf : Snf) : Prop where
  soc_eq : snf.soc = soc.data
  pagesize_mem : pagesize ∈ supportedPageSizes
  writesize_eq : snf.writesize = pagesize
  steps_eq : snf.eccSteps = snf.writesize / snf.soc.sectorSize
  raw_eq : snf.rawSectorSize = snf.soc.sectorSize + snf.sparePerSector
  spare_eq : snf.sparePerSector = ((selectSparePerSector snf).map Prod.snd).getD 0
  strength_le : snf.eccStrength ≤
    snf.eccBytes * 8 % 2 ^ 32 / fls (1 + 8 * (snf.soc.sectorSize + snf.soc.fdmEccSize))

theorem accepted_of_setup (h : setup soc pagesize sparesize = some snf) :
    Accepted soc pagesize sparesize snf := by
  simp only [setup] at h
  split at h
  · cases h
  rw [Option.bind_eq_some_iff] at h
  rcases h with ⟨fmt, hfmt, hecc⟩
  simp only [pagefmtSetup] at hfmt
  split at hfmt
  · rename_i hsize
    rw [Option.some.injEq] at hfmt
    subst hfmt
    simp only [eccSetup] at hecc
    split at hecc
    · rename_i cap hcap
      rw [Option.some.injEq] at hecc
      subst hecc
      refine ⟨rfl, hsize, rfl, rfl, rfl, ?_, ?_⟩
      · simp only [selectSparePerSector]
        split <;> simp_all
      · have := find?_some hcap
        simpa [Snf.eccBytes] using this
    · cases hecc
  · cases hfmt

theorem selectSparePerSector_mem {i spare : Nat}
    (h : selectSparePerSector snf = some (i, spare)) :
    ∃ size ∈ snf.soc.spareSizes,
      spare = size * (if snf.soc.sectorSize = 1024 then 2 else 1) ∧
        size ≤ snf.oobsize / snf.eccSteps / (if snf.soc.sectorSize = 1024 then 2 else 1) := by
  simp only [selectSparePerSector] at h
  split at h
  · rename_i size j hfind
    rw [Option.some.injEq, Prod.mk.injEq] at h
    have hmem := mem_of_find?_eq_some hfind
    have hle := find?_some hfind
    rw [mem_reverse] at hmem
    refine ⟨size, (mem_zipIdx hmem).2.2 ▸ getElem_mem _, h.2.symm, ?_⟩
    simpa using hle
  · cases h

theorem socData_bounds (soc : Soc) :
    0 < soc.data.sectorSize ∧ soc.data.fdmSize = 8 ∧ soc.data.fdmEccSize = 1 ∧
      (∀ size ∈ soc.data.spareSizes, 16 ≤ size ∧ size ≤ 74) ∧
      (soc.data.sectorSize = 512 ∨ soc.data.sectorSize = 1024) ∧
      fls (1 + 8 * (soc.data.sectorSize + soc.data.fdmEccSize)) =
        fls (soc.data.sectorSize * 8) := by
  cases soc <;> decide

theorem Accepted.wf (h : Accepted soc pagesize sparesize snf) (hswap : snf.soc.bbmSwap)
    (hspare : (selectSparePerSector snf).isSome) : snf.Wf := by
  rcases Option.isSome_iff_exists.mp hspare with ⟨⟨i, spare⟩, hsel⟩
  rcases selectSparePerSector_mem hsel with ⟨size, hmem, hspare_eq, hsize⟩
  have hsp : snf.sparePerSector = spare := by rw [h.spare_eq, hsel]; rfl
  have hbounds := socData_bounds soc
  rw [← h.soc_eq] at hbounds
  rcases hbounds with ⟨hsector, hfdm, hfdmEcc, hsizes, hcases, hfls⟩
  have hsz := hsizes size hmem
  have hsteps : 0 < snf.eccSteps := by
    rcases Nat.eq_zero_or_pos snf.eccSteps with h0 | hpos
    · rw [h0, Nat.div_zero, Nat.zero_div] at hsize
      omega
    · exact hpos
  have hspare_bounds : 16 ≤ snf.sparePerSector ∧ snf.sparePerSector ≤ snf.soc.sectorSize ∧
      snf.sparePerSector ≤ 148 := by
    rw [hsp, hspare_eq]
    rcases hcases with hs | hs <;> simp only [hs] <;> norm_num <;> omega
  have hpage : snf.writesize = snf.eccSteps * snf.soc.sectorSize := by
    have hmem := h.pagesize_mem
    rw [h.steps_eq] at hsteps ⊢
    rw [← h.writesize_eq] at hmem
    simp only [supportedPageSizes, mem_cons, not_mem_nil, or_false] at hmem
    rcases hcases with hs | hs <;> rw [hs] at hsteps ⊢ <;> omega
  have hbytes : snf.eccBytes = snf.sparePerSector - snf.soc.fdmSize := if_pos (by omega)
  have hparity : snf.eccStrength * fls (snf.soc.sectorSize * 8) ≤ 8 * snf.eccBytes := by
    have hle := h.strength_le
    rw [hfls] at hle
    have hmul := Nat.mul_le_of_le_div _ _ _ hle
    omega
  exact
    { steps_pos := hsteps
      sector_pos := hsector
      fdm_pos := by omega
      fdm_le_eight := by omega
      fdmEcc_le := by omega
      fdmEcc_pos := by omega
      fdm_le_spare := by omega
      spare_le_sector := hspare_bounds.2.1
      writesize_eq := hpage
      raw_eq := h.raw_eq
      eccBytes_eq := hbytes
      parity_le := hparity
      gpram := by
        rw [SNF_GPRAM_SIZE]
        omega
      bbmSwap := hswap }

theorem Accepted.writesize_pos (h : Accepted soc pagesize sparesize snf) : 0 < snf.writesize := by
  have hmem := h.pagesize_mem
  rw [← h.writesize_eq] at hmem
  simp only [supportedPageSizes, mem_cons, not_mem_nil, or_false] at hmem
  omega

/-- The page format of an accepted geometry is right exactly when a spare size was
found and the bad mark lies in the data of the last sector. -/
theorem pageFormatOk_iff (h : setup soc pagesize sparesize = some snf)
    (hswap : soc.data.bbmSwap = true) :
    snf.PageFormatOk ↔
      (selectSparePerSector snf).isSome ∧
        (snf.eccSteps - 1) * snf.sparePerSector ≤ snf.soc.sectorSize := by
  have hacc := accepted_of_setup h
  rw [← hacc.soc_eq] at hswap
  constructor
  · intro hok
    by_cases hspare : (selectSparePerSector snf).isSome
    · refine ⟨hspare, ?_⟩
      by_contra hmark
      exact not_pageFormatOk_of_not_mark (hacc.wf hswap hspare) hmark hok
    · have hnone : selectSparePerSector snf = none := by simpa using hspare
      have hzero : snf.sparePerSector = 0 := by rw [hacc.spare_eq, hnone]; rfl
      have hraw : snf.eccSteps ≤ snf.writesize / snf.rawSectorSize := by
        rw [hacc.raw_eq, hzero, add_zero, hacc.steps_eq]
      exact absurd hok (not_pageFormatOk_of_no_spare hacc.writesize_pos hraw)
  · rintro ⟨hspare, hmark⟩
    exact pageFormatOk_of_mark (hacc.wf hswap hspare) hmark

/-- A 2 KiB page with 64 spare bytes on an MT7986: two sectors of 32 spare bytes. -/
theorem pageFormatOk_2k :
    ∃ snf, setup .mt7986 2048 64 = some snf ∧ snf.eccSteps = 2 ∧ snf.sparePerSector = 32 ∧
      snf.PageFormatOk := by
  have hset : setup .mt7986 2048 64 = some ⟨Soc.mt7986.data, 2048, 64, 2, 32, 1056, 12⟩ := by rfl
  exact ⟨_, hset, rfl, rfl, (pageFormatOk_iff hset rfl).mpr (by decide)⟩

/-- A 16 KiB page with 1280 spare bytes is accepted with 16 sectors of 80 spare
bytes.  Byte 16384 of the page then lies in the data of sector 14, and the first
spare byte is not there. -/
theorem not_pageFormatOk_16k :
    ∃ snf, setup .mt7986 16384 1280 = some snf ∧ snf.eccSteps = 16 ∧ snf.sparePerSector = 80 ∧
      (∀ ctl, doWritePage ctl snf (some fun _ => 0) (some fun x => if x = 0 then 1 else 0)
        false false snf.writesize = 0) ∧
      ¬ snf.PageFormatOk := by
  have hset : setup .mt7986 16384 1280 =
      some ⟨Soc.mt7986.data, 16384, 1280, 16, 80, 1104, 24⟩ := by rfl
  refine ⟨_, hset, rfl, rfl, ?_, ?_⟩
  · intro ctl
    rw [doWritePage_of_data (by decide) _ _ (by decide)]
    have hr : 16384 % 1104 < 1024 := by decide
    simp only [programAutoFormat, Soc.data, hr, if_true]
    decide
  · exact not_pageFormatOk_of_not_mark ((accepted_of_setup hset).wf rfl (by decide))
      (by unfold Snf.MarkInLastSector; decide)

end OpenWrt.SNand
