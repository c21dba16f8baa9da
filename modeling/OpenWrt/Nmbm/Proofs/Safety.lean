import OpenWrt.Nmbm.Proofs.Attached

/-!
# Runs of an attached device

What holds of the mapping, of the blocks that table management touches and of the borders
of the management area after any calls on an attached device.  `nmbm_map_block` takes the
next good block at or below `mapping_blocks_top_ba` but lowers that border by one only, so
all of this needs that no bad block was skipped: a block taken below the border stays
among the spare blocks, to be mapped again or to be erased for a table.
-/

namespace OpenWrt.Nmbm

open Lib

section Runs

variable {D : Type} {nld checked : Lower D} {fuel : Nat} {dev : D} {ret : Int} {w₀ w : World D}

/-- The borders of the management area of a writable device that is not protected. -/
structure Borders (w : World D) : Prop where
  start_le_main : w.ni.mgmtStartBa ≤ w.ni.mainTableBa
  main_le_backup : w.ni.backupTableBa ≠ 0 → w.mainTableEnd ≤ w.ni.backupTableBa
  last_le_mapping :
    (if w.ni.backupTableBa ≠ 0 then w.backupTableEnd else w.mainTableEnd) ≤ w.ni.mappingBlocksBa
  mapping_le_top : w.ni.mappingBlocksBa ≤ w.ni.mappingBlocksTopBa
  top_lt_remapped : ∀ lb < w.ni.dataBlockCount, 0 ≤ (w.ni.blockMapping lb).toInt →
    w.ni.mgmtStartBa ≤ (w.ni.blockMapping lb).toNat →
    w.ni.mappingBlocksTopBa < (w.ni.blockMapping lb).toNat
  top_lt_signature : w.ni.mappingBlocksTopBa < w.ni.signatureBa

/-- The images of the logic blocks are distinct after any calls, if the block at the top of the
spare blocks was good whenever one was mapped. -/
theorem mapping_injective (hattach : attach nld fuel dev = some (checked, 0, w₀))
    (hchip : ChipOk checked w₀) (hruns : Runs checked w₀ w) (hremap : RemapsAtTop w) :
    InjectiveOn (· < w.ni.dataBlockCount) w.ni.blockMapping := by
  rcases attach_spec hattach hchip with ⟨hes, hattempt⟩
  have hinv := runs_inv hes (hattempt.inv rfl) hruns
  exact (hinv.mapped hremap).injective

/-- Table management touches neither images nor the signature, under the same condition.
Calls are made on a device that could be attached. -/
theorem touches_unused (hattach : attach nld fuel dev = some (checked, ret, w₀))
    (hchip : ChipOk checked w₀) (hruns : Runs checked w₀ w) (hcalls : ret = 0 ∨ w = w₀)
    (hremap : RemapsAtTop w) : TouchesUnused w := by
  rcases attach_spec hattach hchip with ⟨hes, hattempt⟩
  rcases hcalls with rfl | rfl
  · have hinv := runs_inv hes (hattempt.inv rfl) hruns
    exact (hinv.mapped hremap).touches
  · exact hattempt.touches hremap

theorem borders_ordered (hattach : attach nld fuel dev = some (checked, 0, w₀))
    (hchip : ChipOk checked w₀) (hruns : Runs checked w₀ w) (hremap : RemapsAtTop w)
    (hrw : checked.readOnly = false) (hprot : w.ni.isProtected = false) : Borders w := by
  rcases attach_spec hattach hchip with ⟨hes, hattempt⟩
  have hinv := runs_inv hes (hattempt.inv rfl) hruns
  have hlayout := hinv.layout hrw
  have hplaced := hlayout.placed hprot
  refine ⟨hplaced.start_le, fun hne => (hplaced.backup hne).1, ?_, hlayout.le_top, ?_,
    hlayout.top_lt⟩
  · split
    · rename_i hne
      exact (hplaced.backup hne).2.2
    · exact hplaced.main_le
  · intro lb hlb himage hle
    rcases (hinv.mapped hremap).outside hrw lb hlb himage with hlt | hlt
    · omega
    · exact hlt

end Runs

/-! ## A small chip -/

/-- A chip with its bad blocks, on which each block can be erased `endurance` times. -/
structure Flash where
  mem : Buffer
  bad : Nat → Bool
  erases : Nat → Nat
  endurance : Nat

def Flash.new (bad : List Nat) (endurance : Nat) : Flash :=
  ⟨fun _ => 0xff, fun b => bad.contains b, fun _ => 0, endurance⟩

/-- Sixteen blocks of four pages, ten of them for the management area. -/
def smallChip : Lower Flash where
  maxRatio := 10
  maxReservedBlocks := 0
  create := true
  emptyPageEccOk := false
  readOnly := false
  size := 4096
  erasesize := 256
  writesize := 64
  oobsize := 4
  bigEndian := false
  resetChip := id
  readPage addr _ _ _ d := (⟨0, fun i => d.mem (addr + i), fun _ => 0xff⟩, d)
  writePage addr buf _ _ d :=
    (0, { d with mem := memcpy d.mem addr (buf.getD fun _ => 0xff) 0 64 })
  eraseBlock addr d :=
    if d.erases (addr / 256) < d.endurance then
      (0, { d with
        mem := memset d.mem addr 0xff 256
        erases := Function.update d.erases (addr / 256) (d.erases (addr / 256) + 1) })
    else (-5, d)
  isBadBlock := some fun addr d => (d.bad (addr / 256), d)
  markBadBlock := some fun addr d =>
    (0, { d with bad := Function.update d.bad (addr / 256) true })
  page_dvd := by decide
  block_le := by decide
  small := by decide

/-- Blocks 0, 1, 2 and 13 are bad: logic blocks 4 and 5 are both mapped to block 12. -/
theorem attach_maps_block_twice :
    ∃ checked w, attach smallChip 30 (Flash.new [0, 1, 2, 13] 5) = some (checked, 0, w) ∧
      ¬InjectiveOn (· < w.ni.dataBlockCount) w.ni.blockMapping := by
  have hrun : ∃ r ∈ attach smallChip 30 (Flash.new [0, 1, 2, 13] 5), r.2.1 = 0 ∧
      r.2.2.ni.dataBlockCount = 6 ∧ r.2.2.ni.blockMapping 4 = 12#32 ∧
      r.2.2.ni.blockMapping 5 = 12#32 := by decide +kernel
  rcases hrun with ⟨⟨checked, _, w⟩, hattach, rfl, hcount, hmap4, hmap5⟩
  refine ⟨checked, w, hattach, fun hinj => ?_⟩
  have h45 := hinj 4 5 (by rw [hcount]; decide) (by rw [hcount]; decide) (by rw [hmap4]; decide)
    (hmap4.trans hmap5.symm)
  exact absurd h45 (by decide)

/-- Blocks 0, 1, 12 and 13 are bad and each block can be erased once: an update of the
tables erases block 11, to which logic block 5 is mapped. -/
theorem attach_erases_image :
    ∃ checked w, attach smallChip 30 (Flash.new [0, 1, 12, 13] 1) = some (checked, 0, w) ∧
      ¬TouchesUnused w := by
  have hrun : ∃ r ∈ attach smallChip 30 (Flash.new [0, 1, 12, 13] 1), r.2.1 = 0 ∧
      (r.2.2.log.any fun e => match e with
        | .touch ba ni => ba == 11 && ni.dataBlockCount == 6 && ni.blockMapping 5 == 11#32
        | _ => false) = true := by decide +kernel
  rcases hrun with ⟨⟨checked, _, w⟩, hattach, rfl, hlog⟩
  refine ⟨checked, w, hattach, fun hunused => ?_⟩
  rcases List.any_eq_true.mp hlog with ⟨e, he, htouch⟩
  split at htouch
  · rename_i ba ni
    simp only [Bool.and_eq_true, beq_iff_eq] at htouch
    rcases htouch with ⟨⟨rfl, hcount⟩, hmap⟩
    exact (hunused 11 ni he).1 5 (by rw [hcount]; decide) (by rw [hmap]; decide) (by rw [hmap]; rfl)
  · cases htouch

/-- The same chip without erase failures: the border stays above block 11. -/
theorem attach_border_above_image :
    ∃ checked w, attach smallChip 30 (Flash.new [0, 1, 12, 13] 5) = some (checked, 0, w) ∧
      checked.readOnly = false ∧ w.ni.isProtected = false ∧ ¬Borders w := by
  have hrun : ∃ r ∈ attach smallChip 30 (Flash.new [0, 1, 12, 13] 5), r.2.1 = 0 ∧
      r.1.readOnly = false ∧ r.2.2.ni.isProtected = false ∧ r.2.2.ni.dataBlockCount = 6 ∧
      r.2.2.ni.blockMapping 5 = 11#32 ∧ r.2.2.ni.mgmtStartBa = 6 ∧
      r.2.2.ni.mappingBlocksTopBa = 12 := by decide +kernel
  rcases hrun with ⟨⟨checked, _, w⟩, hattach, rfl, hrw, hprot, hcount, hmap, hstart, htop⟩
  refine ⟨checked, w, hattach, hrw, hprot, fun hborders => ?_⟩
  have hlt := hborders.top_lt_remapped 5 (by rw [hcount]; decide) (by rw [hmap]; decide)
    (by rw [hmap, hstart]; decide)
  rw [hmap, htop] at hlt
  exact absurd hlt (by decide)

/-- An event of a chip without tables whose top of the spare blocks was good. -/
def Event.plain : Event → Bool
  | .touch _ _ => true
  | .remap _ ni => ni.getBlockState ni.mappingBlocksTopBa == BLOCK_ST_GOOD
  | .adopt _ => false
  | .load _ => false

theorem attach_plain :
    ∃ checked w, attach smallChip 30 (Flash.new [3] 5) = some (checked, 0, w) ∧
      ChipOk checked w ∧ RemapsAtTop w ∧ checked.readOnly = false ∧ w.ni.isProtected = false ∧
      w.ni.blockMapping 5 = 14#32 := by
  have hrun : ∃ r ∈ attach smallChip 30 (Flash.new [3] 5), r.2.1 = 0 ∧ r.1.readOnly = false ∧
      r.2.2.ni.isProtected = false ∧ r.2.2.ni.blockMapping 5 = 14#32 ∧
      ∀ e ∈ r.2.2.log, e.plain = true := by decide +kernel
  rcases hrun with ⟨⟨checked, _, w⟩, hattach, rfl, hrw, hprot, hmap, hlog⟩
  refine ⟨checked, w, hattach, ⟨fun ba he => ?_, fun ni he => ?_⟩, fun pb ni he => ?_, hrw, hprot,
    hmap⟩
  · exact absurd (hlog _ he) (by simp [Event.plain])
  · exact absurd (hlog _ he) (by simp [Event.plain])
  · simpa [Event.plain] using hlog _ he

theorem mapping_injective_smallChip :
    ∃ checked w, attach smallChip 30 (Flash.new [3] 5) = some (checked, 0, w) ∧
      InjectiveOn (· < w.ni.dataBlockCount) w.ni.blockMapping := by
  rcases attach_plain with ⟨checked, w, hattach, hchip, hremap, -⟩
  exact ⟨checked, w, hattach, mapping_injective hattach hchip .refl hremap⟩

theorem touches_unused_smallChip :
    ∃ checked w, attach smallChip 30 (Flash.new [3] 5) = some (checked, 0, w) ∧
      TouchesUnused w := by
  rcases attach_plain with ⟨checked, w, hattach, hchip, hremap, -⟩
  exact ⟨checked, w, hattach, touches_unused hattach hchip .refl (Or.inl rfl) hremap⟩

theorem borders_ordered_smallChip :
    ∃ checked w, attach smallChip 30 (Flash.new [3] 5) = some (checked, 0, w) ∧ Borders w := by
  rcases attach_plain with ⟨checked, w, hattach, hchip, hremap, hrw, hprot, -⟩
  exact ⟨checked, w, hattach, borders_ordered hattach hchip .refl hremap hrw hprot⟩

end OpenWrt.Nmbm
