import OpenWrt.SNand.Proofs.EmptySector
import OpenWrt.SNand.Proofs.PageFormat

/-!
# What a page written with ECC reads back as

Both read paths give back the buffers that `mtk_snand_do_write_page` was given,
and the chip maker's bad-mark position holds the first FDM byte, exactly for the
page formats whose bad mark lies in the data of the last sector.
-/

namespace OpenWrt.SNand

open Lib List

variable {snf : Snf} {ctl : Controller}

/-! ## Sectors that decode as stored -/

def Clean (ctl : Controller) (snf : Snf) (attempt : Nat) (page : Buffer) (i : Nat) : Prop :=
  decodeSector ctl snf attempt page i =
    some (0, slice page (i * snf.rawSectorSize) snf.soc.sectorSize,
      slice page (i * snf.rawSectorSize + snf.soc.sectorSize) snf.soc.fdmEccSize)

/-- Every byte of sector `i` that the ECC covers, and its parity, is `0xff`. -/
def Erased (snf : Snf) (page : Buffer) (i : Nat) : Prop :=
  (∀ r < snf.soc.sectorSize, page (i * snf.rawSectorSize + r) = 0xff) ∧
    (∀ j < snf.soc.fdmEccSize, page (i * snf.rawSectorSize + snf.soc.sectorSize + j) = 0xff) ∧
      ∀ j < snf.eccBytes,
        page (i * snf.rawSectorSize + snf.soc.sectorSize + snf.soc.fdmSize + j) = 0xff

/-- Sector `i` is clean, or erased and not recognised as such by the decoder. -/
def Readable (ctl : Controller) (snf : Snf) (attempt : Nat) (page : Buffer) (i : Nat) : Prop :=
  Clean ctl snf attempt page i ∨
    Erased snf page i ∧ decodeSector ctl snf attempt page i = none

theorem readable_of_erased (ctl : Controller) (attempt : Nat) {page : Buffer} {i : Nat}
    (h : Erased snf page i) : Readable ctl snf attempt page i := by
  have hall : ∀ x ∈ slice page (i * snf.rawSectorSize) snf.soc.sectorSize ++
      slice page (i * snf.rawSectorSize + snf.soc.sectorSize) snf.soc.fdmEccSize ++
      slice page (i * snf.rawSectorSize + snf.soc.sectorSize + snf.soc.fdmSize) snf.eccBytes,
      x = 0xff := by
    intro x hx
    simp only [mem_append, mem_slice] at hx
    rcases hx with (⟨r, hr, rfl⟩ | ⟨j, hj, rfl⟩) | ⟨j, hj, rfl⟩
    · exact h.1 r hr
    · exact h.2.1 j hj
    · exact h.2.2 j hj
  rcases ctl.decode_erased attempt _ _ _ hall with hclean | hnone
  · exact .inl hclean
  · exact .inr ⟨h, hnone⟩

theorem clean_programAutoFormat (hwf : snf.Wf) (attempt : Nat) (cache : Buffer) {i : Nat}
    (hi : i < snf.eccSteps) : Clean ctl snf attempt (programAutoFormat ctl snf cache) i := by
  have hraw := hwf.raw_eq
  have hfdm := hwf.fdm_le_spare
  have hecc := hwf.fdmEcc_le
  have hbytes := hwf.eccBytes_eq
  have hpage : ∀ r < snf.rawSectorSize,
      programAutoFormat ctl snf cache (i * snf.rawSectorSize + r) =
        if r < snf.soc.sectorSize then cache (i * snf.soc.sectorSize + r)
        else if r < snf.soc.sectorSize + snf.soc.fdmSize then
          unpackFdm (writeFdm snf cache i) (r - snf.soc.sectorSize)
        else ctl.parity (slice cache (i * snf.soc.sectorSize) snf.soc.sectorSize)
          ((range snf.soc.fdmEccSize).map (unpackFdm (writeFdm snf cache i)))
          (r - snf.soc.sectorSize - snf.soc.fdmSize) := by
    intro r hr
    simp only [programAutoFormat]
    rw [block_div hr, block_mod hr, if_pos hi]
  have hdata : slice (programAutoFormat ctl snf cache) (i * snf.rawSectorSize)
      snf.soc.sectorSize = slice cache (i * snf.soc.sectorSize) snf.soc.sectorSize := by
    apply slice_congr
    intro r hr
    rw [hpage r (by omega), if_pos hr]
  have hfdms : slice (programAutoFormat ctl snf cache)
      (i * snf.rawSectorSize + snf.soc.sectorSize) snf.soc.fdmEccSize =
        (range snf.soc.fdmEccSize).map (unpackFdm (writeFdm snf cache i)) := by
    apply map_congr_left
    intro j hj
    have hj := mem_range.mp hj
    rw [add_assoc, hpage _ (by omega), if_neg (by omega), if_pos (by omega),
      Nat.add_sub_cancel_left]
  have hparity : slice (programAutoFormat ctl snf cache)
      (i * snf.rawSectorSize + snf.soc.sectorSize + snf.soc.fdmSize) snf.eccBytes =
        (range snf.eccBytes).map
          (ctl.parity (slice cache (i * snf.soc.sectorSize) snf.soc.sectorSize)
            ((range snf.soc.fdmEccSize).map (unpackFdm (writeFdm snf cache i)))) := by
    apply map_congr_left
    intro j hj
    have hj := mem_range.mp hj
    rw [add_assoc, add_assoc, hpage _ (by omega), if_neg (by omega), if_neg (by omega)]
    congr 1
    omega
  simp only [Clean, decodeSector]
  rw [hdata, hfdms, hparity]
  exact ctl.decode_parity ..

/-! ## Reading with ECC -/

theorem readAutoFormat_pos (hwf : snf.Wf) (attempt : Nat) (page cache : Buffer)
    (h : ∀ i < snf.eccSteps, Readable ctl snf attempt page i) :
    snf.Agree (readAutoFormat ctl snf attempt page cache) (page ∘ snf.pos) := by
  intro x hx
  rcases stored_cases hwf hx with ⟨i, r, hi, hr, rfl⟩ | ⟨i, j, hi, hj, rfl⟩
  · have hlt : i * snf.soc.sectorSize + r < snf.writesize := by
      rw [hwf.writesize_eq]; exact block_lt hi hr
    rw [Function.comp_apply, pos_data hwf hi hr]
    simp only [readAutoFormat, if_pos hlt, block_div hr, block_mod hr]
    rcases h i hi with hclean | ⟨-, hnone⟩
    · rw [hclean]
      exact getD_slice hr
    · rw [hnone]
  · have hlt : i * snf.soc.fdmSize + j < snf.eccSteps * snf.soc.fdmSize := block_lt hi hj
    rw [Function.comp_apply, pos_fdm hj]
    simp only [readAutoFormat]
    rw [if_neg (by omega), if_pos (by omega), Nat.add_sub_cancel_left, block_div hj, block_mod hj,
      unpackFdm_packFdm _ hwf.fdm_le_eight hj, ← add_assoc]
    split
    · rename_i hecc
      rcases h i hi with hclean | ⟨-, hnone⟩
      · rw [hclean]
        exact getD_slice hecc
      · rw [hnone]
    · rfl

theorem eccFixupEmptySector_erased (hwf : snf.Wf) (addr : Nat) {page cache : Buffer} {i : Nat}
    (hi : i < snf.eccSteps) (hagree : snf.Agree cache (page ∘ snf.pos))
    (herased : Erased snf page i)
    (hparity : ∀ j < snf.eccBytes, cache (snf.eccPtr i + j) = 0xff) :
    eccFixupEmptySector snf addr cache i = (some 0, cache) := by
  have hle := hwf.parity_le
  have hnone : zeroBits cache (snf.sectorBits i) = 0 := by
    apply zeroBits_of_ff
    intro p hp
    simp only [Snf.sectorBits, mem_append, mem_bitsFrom] at hp
    rcases hp with ⟨hlo, hbit, hhi⟩ | ⟨hlo, hbit, hhi⟩ | ⟨hlo, hbit, hhi⟩
    · obtain ⟨r, hr⟩ := Nat.exists_eq_add_of_le hlo
      have hlt : r < snf.soc.sectorSize := by omega
      rw [hr, hagree _ (stored_data hwf hi hlt), Function.comp_apply, pos_data hwf hi hlt]
      exact ⟨hbit, herased.1 r hlt⟩
    · obtain ⟨j, hj⟩ := Nat.exists_eq_add_of_le hlo
      have hlt : j < snf.soc.fdmEccSize := by omega
      have hlt' : j < snf.soc.fdmSize := hlt.trans_le hwf.fdmEcc_le
      rw [hj, add_assoc, hagree _ (stored_fdm hi hlt'), Function.comp_apply, pos_fdm hlt',
        ← add_assoc]
      exact ⟨hbit, herased.2.1 j hlt⟩
    · obtain ⟨j, hj⟩ := Nat.exists_eq_add_of_le hlo
      rw [hj]
      exact ⟨hbit, hparity j (by omega)⟩
  rw [eccFixupEmptySector_eq, hnone]
  rfl

theorem checkEccResult_readable (hwf : snf.Wf) (addr attempt : Nat) (page : Buffer)
    {sects : List Nat} (hsects : ∀ i ∈ sects, i < snf.eccSteps)
    (h : ∀ i < snf.eccSteps, Readable ctl snf attempt page i) {cache : Buffer}
    (hagree : snf.Agree cache (page ∘ snf.pos)) :
    ∃ cache', checkEccResult ctl snf addr attempt page sects cache 0 0 = (0, cache') ∧
      snf.Agree cache' (page ∘ snf.pos) := by
  induction sects generalizing cache with
  | nil => exact ⟨cache, rfl, hagree⟩
  | cons i sects ih =>
    have hi : i < snf.eccSteps := hsects i mem_cons_self
    have htail : ∀ j ∈ sects, j < snf.eccSteps := fun j hj =>
      hsects j (mem_cons_of_mem _ hj)
    rcases h i hi with hclean | ⟨herased, hnone⟩
    · unfold Clean at hclean
      simp only [checkEccResult, hclean]
      exact ih htail hagree
    · -- The parity bytes are copied behind the stored bytes.
      have hread : readEccParity snf page cache i = some (memcpy cache (snf.eccPtr i) page
          (i * snf.rawSectorSize + snf.soc.sectorSize + snf.soc.fdmSize) snf.eccBytes) :=
        if_neg (not_lt.mpr hwf.gpram)
      have hagree' : snf.Agree (memcpy cache (snf.eccPtr i) page
          (i * snf.rawSectorSize + snf.soc.sectorSize + snf.soc.fdmSize) snf.eccBytes)
          (page ∘ snf.pos) := by
        intro x hx
        have hbehind : x < snf.eccPtr i := hx.trans_le (Nat.le_add_right _ _)
        rw [memcpy_outside (.inl hbehind), hagree x hx]
      have hfix := eccFixupEmptySector_erased hwf addr hi hagree' herased (by
        intro j hj
        rw [memcpy_inside (by omega), Nat.add_sub_cancel_left]
        exact herased.2.2 j hj)
      simp only [checkEccResult, hnone, hread, hfix]
      exact ih htail hagree'

theorem readCacheRetry_readable (hwf : snf.Wf) (addr : Nat) (page cache : Buffer)
    (h : ∀ i < snf.eccSteps, Readable ctl snf 0 page i) :
    ∃ cache', readCacheRetry ctl snf addr page 16 0 cache = (0, cache') ∧
      snf.Agree cache' (page ∘ snf.pos) := by
  rcases checkEccResult_readable hwf addr 0 page (fun i hi => mem_range.mp hi) h
    (readAutoFormat_pos hwf 0 page cache h) with ⟨cache', hcheck, hagree⟩
  refine ⟨cache', ?_, hagree⟩
  have hne : (0 : Int) ≠ EBADMSG := by decide
  simp only [readCacheRetry, readCacheEcc, hcheck, if_neg hne]

/-! ## A page written with ECC -/

section Written

variable (ctl) (data oob : Buffer)

def pageBuf (snf : Snf) : Buffer :=
  fillCache snf (some data) (some oob) (snf.eccSteps * snf.soc.fdmSize)

theorem pageBuf_data {x : Nat} (hx : x < snf.writesize) : pageBuf data oob snf x = data x := by
  simp only [pageBuf, fillCache]
  rw [memcpy_outside (.inl hx), memcpy_inside (by omega)]
  simp

theorem pageBuf_oob {x : Nat} (hx : x < snf.eccSteps * snf.soc.fdmSize) :
    pageBuf data oob snf (snf.writesize + x) = oob x := by
  simp only [pageBuf, fillCache]
  rw [memcpy_inside (by omega), Nat.add_sub_cancel_left, zero_add]

theorem isEmptyPage_iff :
    isEmptyPage snf (some data) (some oob) ↔
      (∀ x < snf.writesize, data x = 0xff) ∧
        ∀ i < snf.eccSteps, ∀ j < snf.soc.fdmEccSize, oob (i * snf.soc.fdmSize + j) = 0xff := by
  simp [isEmptyPage]

theorem doWritePage_ecc (format : Bool) :
    doWritePage ctl snf (some data) (some oob) false format =
      if isEmptyPage snf (some data) (some oob) then
        programRaw snf (bmSwapRaw snf (fdmBmSwapRaw snf
          (toRawPage snf (some data) (some oob) true)))
      else programAutoFormat ctl snf (markedBuf snf (pageBuf data oob snf)) := by
  unfold doWritePage
  by_cases h : isEmptyPage snf (some data) (some oob) = true
  · simp [h]
  · simp [h, markedBuf, pageBuf]

variable (hwf : snf.Wf) (hmark : snf.MarkInLastSector)

include hwf hmark

theorem emptyPage_pos (emptyEcc : Bool) :
    snf.Agree (programRaw snf (bmSwapRaw snf (fdmBmSwapRaw snf
      (toRawPage snf (some data) (some oob) emptyEcc))) ∘ snf.pos)
      (markedBuf snf (pageBuf data oob snf)) := by
  intro x hx
  have hraw : snf.Agree (fdmBmSwapRaw snf (toRawPage snf (some data) (some oob) emptyEcc) ∘
      snf.pos) (fdmBmSwap snf (pageBuf data oob snf)) := by
    intro y hy
    rw [fdmBmSwapRaw_pos hwf _ y hy]
    apply fdmBmSwap_agree hwf _ y hy
    intro z hz
    exact toRawPage_pos hwf data oob emptyEcc hz
  rw [Function.comp_apply, programRaw, if_pos (pos_lt hwf hx)]
  exact (bmSwapRaw_pos hwf hmark _ x hx).trans (bmSwap_agree hwf hraw x hx)

theorem doWritePage_pos (format : Bool) :
    snf.Agree (doWritePage ctl snf (some data) (some oob) false format ∘ snf.pos)
      (markedBuf snf (pageBuf data oob snf)) := by
  intro x hx
  rw [doWritePage_ecc]
  split
  · exact emptyPage_pos data oob hwf hmark true x hx
  · exact programAutoFormat_pos hwf _ hx

theorem doWritePage_mark (format : Bool) :
    doWritePage ctl snf (some data) (some oob) false format snf.writesize = oob 0 := by
  have hfirst : 0 < snf.eccSteps * snf.soc.fdmSize := mul_pos hwf.steps_pos hwf.fdm_pos
  have hpage := doWritePage_pos ctl data oob hwf hmark format
  have hbuf : pageBuf data oob snf snf.writesize = oob 0 := pageBuf_oob data oob hfirst
  by_cases hk : snf.eccSteps = 1
  · have hpos : snf.pos snf.writesize = snf.writesize := by
      rw [pos_firstFdm hwf, hwf.writesize_eq, hk, one_mul]
    have h := hpage _ (stored_firstFdm hwf)
    rw [Function.comp_apply, hpos] at h
    rw [h, ← hbuf]
    simp [markedBuf, bmSwap, fdmBmSwap, noSwap_eq hwf, hk]
  · have h := hpage _ (stored_markPos hwf hk)
    rw [Function.comp_apply, pos_markPos hwf hk hmark] at h
    rw [h, markedBuf_mark hwf hk, hbuf]

omit hmark in
theorem toRawPage_erased {i : Nat} (hi : i < snf.eccSteps)
    (hempty : isEmptyPage snf (some data) (some oob)) :
    Erased snf (toRawPage snf (some data) (some oob) true) i := by
  have hraw := hwf.raw_eq
  have hfdm := hwf.fdm_le_spare
  have hecc := hwf.fdmEcc_le
  have hbytes := hwf.eccBytes_eq
  rw [isEmptyPage_iff] at hempty
  refine ⟨?_, ?_, ?_⟩
  · intro r hr
    have hlt : i * snf.soc.sectorSize + r < snf.writesize := by
      rw [hwf.writesize_eq]; exact block_lt hi hr
    simp only [toRawPage]
    rw [block_div (by omega), block_mod (by omega), if_pos hi, if_pos hr]
    exact hempty.1 _ hlt
  · intro j hj
    simp only [toRawPage]
    rw [add_assoc, block_div (by omega), block_mod (by omega), if_pos hi, if_neg (by omega),
      if_pos (by omega), Nat.add_sub_cancel_left]
    exact hempty.2 i hi j hj
  · intro j hj
    simp only [toRawPage]
    rw [add_assoc, add_assoc, block_div (by omega), block_mod (by omega), if_pos hi,
      if_neg (by omega), if_neg (by omega)]
    rfl

theorem emptyPage_swaps (hempty : isEmptyPage snf (some data) (some oob)) :
    bmSwapRaw snf (fdmBmSwapRaw snf (toRawPage snf (some data) (some oob) true)) =
      toRawPage snf (some data) (some oob) true := by
  by_cases hk : snf.eccSteps = 1
  · simp [bmSwapRaw, fdmBmSwapRaw, noSwap_eq hwf, hk]
  have hlt : snf.eccSteps - 1 < snf.eccSteps := Nat.sub_one_lt_of_lt hwf.steps_pos
  have hspare := spare_total_pos hwf hk
  have hle : (snf.eccSteps - 1) * snf.sparePerSector ≤ snf.soc.sectorSize := hmark
  have hfirst := (toRawPage_erased data oob hwf hwf.steps_pos hempty).2.1 0 hwf.fdmEcc_pos
  have hlast := (toRawPage_erased data oob hwf hlt hempty).2.1 0 hwf.fdmEcc_pos
  have hmarked := (toRawPage_erased data oob hwf hlt hempty).1
    (snf.soc.sectorSize - (snf.eccSteps - 1) * snf.sparePerSector) (by omega)
  rw [zero_mul, zero_add] at hfirst
  rw [← pos_data hwf hlt (by omega), ← markPos_data hwf hmark, pos_markPos hwf hk hmark]
    at hmarked
  have hfdm : fdmBmSwapRaw snf (toRawPage snf (some data) (some oob) true) =
      toRawPage snf (some data) (some oob) true := by
    simp only [fdmBmSwapRaw, noSwap_eq hwf, beq_iff_eq, hk]
    exact swapBytes_of_eq (hfirst.trans hlast.symm)
  rw [hfdm]
  simp only [bmSwapRaw, noSwap_eq hwf, beq_iff_eq, hk]
  exact swapBytes_of_eq (hlast.trans hmarked.symm)

theorem doWritePage_readable (format : Bool) (attempt : Nat) {i : Nat} (hi : i < snf.eccSteps) :
    Readable ctl snf attempt (doWritePage ctl snf (some data) (some oob) false format) i := by
  rw [doWritePage_ecc]
  split
  · rename_i hempty
    have hraw := hwf.raw_eq
    have hfdm := hwf.fdm_le_spare
    have hecc := hwf.fdmEcc_le
    have hbytes := hwf.eccBytes_eq
    have hin : ∀ r < snf.rawSectorSize,
        programRaw snf (toRawPage snf (some data) (some oob) true) (i * snf.rawSectorSize + r) =
          toRawPage snf (some data) (some oob) true (i * snf.rawSectorSize + r) :=
      fun r hr => if_pos (block_lt hi hr)
    rcases toRawPage_erased data oob hwf hi hempty with ⟨hd, hf, hp⟩
    rw [emptyPage_swaps data oob hwf hmark hempty]
    apply readable_of_erased
    refine ⟨?_, ?_, ?_⟩
    · intro r hr
      rw [hin r (by omega)]
      exact hd r hr
    · intro j hj
      rw [add_assoc, hin _ (by omega), ← add_assoc]
      exact hf j hj
    · intro j hj
      rw [add_assoc, add_assoc, hin _ (by omega), ← add_assoc, ← add_assoc]
      exact hp j hj
  · exact .inl (clean_programAutoFormat hwf attempt _ hi)

end Written

/-! ## The page format is right -/

def Snf.SamePage (snf : Snf) (data oob : Buffer) (read : PageBuf) : Prop :=
  (∀ x < snf.writesize, read.data x = data x) ∧
    ∀ x < snf.eccSteps * snf.soc.fdmSize, read.oob x = oob x

/-- A page written by the ECC path has the first spare byte at the chip maker's
bad-mark position, both read paths give it back without an error, and the block
is seen as bad exactly when that byte is not `0xff`. -/
def Snf.PageFormatOk (snf : Snf) : Prop :=
  ∀ (ctl : Controller) (addr : Nat) (data oob cache : Buffer) (format : Bool),
    let page := doWritePage ctl snf (some data) (some oob) false format
    page snf.writesize = oob 0 ∧
      (doReadPage ctl snf addr page cache false format).1 = 0 ∧
      snf.SamePage data oob (doReadPage ctl snf addr page cache false format).2 ∧
      (doReadPage ctl snf addr page cache true true).1 = 0 ∧
      snf.SamePage data oob (doReadPage ctl snf addr page cache true true).2 ∧
      (blockIsbad ctl snf addr page cache = true ↔ oob 0 ≠ 0xff)

theorem samePage_ecc {data oob b : Buffer}
    (h : snf.Agree b (pageBuf data oob snf)) :
    snf.SamePage data oob
      { data := b
        oob := memcpy (fun _ => 0xff) 0 b snf.writesize (snf.eccSteps * snf.soc.fdmSize) } := by
  constructor
  · intro x hx
    change b x = data x
    rw [h x (Nat.lt_add_right _ hx), pageBuf_data data oob hx]
  · intro x hx
    change memcpy (fun _ => 0xff) 0 b snf.writesize (snf.eccSteps * snf.soc.fdmSize) x = oob x
    rw [memcpy_inside (by omega), Nat.sub_zero, h _ (Nat.add_lt_add_left hx _),
      pageBuf_oob data oob hx]

theorem samePage_raw {data oob b : Buffer}
    (h : snf.Agree (b ∘ snf.pos) (pageBuf data oob snf)) :
    snf.SamePage data oob (fromRawPage snf b) := by
  constructor
  · intro x hx
    have hpos := h x (Nat.lt_add_right _ hx)
    rw [Function.comp_apply, Snf.pos, if_pos hx, pageBuf_data data oob hx] at hpos
    exact hpos
  · intro x hx
    have hpos := h (snf.writesize + x) (Nat.add_lt_add_left hx _)
    rw [Function.comp_apply, Snf.pos, if_neg (by omega), Nat.add_sub_cancel_left,
      pageBuf_oob data oob hx, ← add_assoc] at hpos
    simp only [fromRawPage, if_pos hx]
    exact hpos

theorem doReadPage_ecc (ctl : Controller) (hwf : snf.Wf) (hmark : snf.MarkInLastSector) (addr : Nat)
    (data oob cache : Buffer) (format : Bool) :
    ∃ read, doReadPage ctl snf addr (doWritePage ctl snf (some data) (some oob) false format)
        cache false format = (0, read) ∧ snf.SamePage data oob read := by
  have hpos := doWritePage_pos ctl data oob hwf hmark format
  rcases readCacheRetry_readable hwf addr _ cache
    (fun i hi => doWritePage_readable ctl data oob hwf hmark format 0 hi) with
    ⟨cache', hread, hagree⟩
  refine ⟨_, by simp only [doReadPage, hread]; rfl, samePage_ecc ?_⟩
  have hmarked : snf.Agree cache' (markedBuf snf (pageBuf data oob snf)) := fun x hx =>
    (hagree x hx).trans (hpos x hx)
  intro x hx
  rw [← unmark_marked snf (pageBuf data oob snf)]
  exact fdmBmSwap_agree hwf (bmSwap_agree hwf hmarked) x hx

theorem doReadPage_raw (ctl : Controller) (hwf : snf.Wf) (hmark : snf.MarkInLastSector) (addr : Nat)
    (data oob cache : Buffer) (format : Bool) :
    ∃ read, doReadPage ctl snf addr (doWritePage ctl snf (some data) (some oob) false format)
        cache true true = (0, read) ∧ snf.SamePage data oob read := by
  have hpos := doWritePage_pos ctl data oob hwf hmark format
  refine ⟨_, by rfl, samePage_raw ?_⟩
  have hcache : snf.Agree (readCacheRaw snf
      (doWritePage ctl snf (some data) (some oob) false format) cache ∘ snf.pos)
      (markedBuf snf (pageBuf data oob snf)) := by
    intro x hx
    rw [Function.comp_apply, readCacheRaw, if_pos (pos_lt hwf hx)]
    exact hpos x hx
  have hbm : snf.Agree (bmSwapRaw snf (readCacheRaw snf
      (doWritePage ctl snf (some data) (some oob) false format) cache) ∘ snf.pos)
      (bmSwap snf (markedBuf snf (pageBuf data oob snf))) := fun x hx =>
    (bmSwapRaw_pos hwf hmark _ x hx).trans (bmSwap_agree hwf hcache x hx)
  intro x hx
  rw [← unmark_marked snf (pageBuf data oob snf), fdmBmSwapRaw_pos hwf _ x hx]
  exact fdmBmSwap_agree hwf hbm x hx

theorem writesize_lt_raw (hwf : snf.Wf) : snf.writesize < snf.eccSteps * snf.rawSectorSize := by
  have hraw := hwf.raw_eq
  have hpos := hwf.fdm_pos
  have hfdm := hwf.fdm_le_spare
  rw [hwf.writesize_eq]
  exact Nat.mul_lt_mul_of_pos_left (by omega) hwf.steps_pos

theorem blockIsbad_eq (hwf : snf.Wf) (addr : Nat) (page cache : Buffer) :
    blockIsbad ctl snf addr page cache = (page snf.writesize != 0xff) := by
  have hraw := writesize_lt_raw hwf
  have hpos : 0 < snf.eccSteps * snf.sparePerSector :=
    mul_pos hwf.steps_pos (lt_of_lt_of_le hwf.fdm_pos hwf.fdm_le_spare)
  simp only [blockIsbad, doReadPage, hwf.bbmSwap, if_true]
  rw [if_neg (by decide)]
  simp only
  rw [memcpy_inside (by omega), readCacheRaw, Nat.sub_zero, add_zero, if_pos hraw]

theorem pageFormatOk_of_mark (hwf : snf.Wf) (hmark : snf.MarkInLastSector) : snf.PageFormatOk := by
  intro ctl addr data oob cache format page
  have hbyte := doWritePage_mark ctl data oob hwf hmark format
  rcases doReadPage_ecc ctl hwf hmark addr data oob cache format with
    ⟨ecc, hecc, hsame⟩
  rcases doReadPage_raw ctl hwf hmark addr data oob cache format with
    ⟨raw, hraw, hsame'⟩
  refine ⟨hbyte, ?_, ?_, ?_, ?_, ?_⟩
  · simp only [page, hecc]
  · simp only [page, hecc, hsame]
  · simp only [page, hraw]
  · simp only [page, hraw, hsame']
  · simp only [page, blockIsbad_eq hwf, hbyte, bne_iff_ne]

/-! ## Page formats that misplace the bad mark -/

/-- A controller whose parity bytes are all zero and whose decoder finds no error. -/
def zeroParity : Controller where
  parity := fun _ _ _ => 0
  decode := fun _ data fdm _ => some (0, data, fdm)
  decode_parity := fun _ _ _ _ => rfl
  decode_erased := fun _ _ _ _ _ => Or.inl rfl

theorem doWritePage_of_data (hw : 0 < snf.writesize) (data oob : Buffer) (hdata : data 0 ≠ 0xff)
    (format : Bool) :
    doWritePage ctl snf (some data) (some oob) false format =
      programAutoFormat ctl snf (markedBuf snf (pageBuf data oob snf)) := by
  rw [doWritePage_ecc, if_neg]
  rw [isEmptyPage_iff]
  exact fun h => hdata (h.1 0 hw)

theorem not_pageFormatOk_of_no_spare (hw : 0 < snf.writesize)
    (hraw : snf.eccSteps ≤ snf.writesize / snf.rawSectorSize) : ¬ snf.PageFormatOk := by
  intro h
  have hmark := (h zeroParity 0 (fun _ => 0) (fun _ => 0) (fun _ => 0) false).1
  rw [doWritePage_of_data hw _ _ (by decide)] at hmark
  simp only [programAutoFormat] at hmark
  rw [if_neg (by omega)] at hmark
  exact absurd hmark (by decide)

theorem stored_of_ne_zero (hwf : snf.Wf) {cache : Buffer} {a : Nat}
    (ha : a < snf.eccSteps * snf.rawSectorSize)
    (hne : programAutoFormat zeroParity snf cache a ≠ 0) :
    ∃ x, snf.Stored x ∧ snf.pos x = a ∧ cache x ≠ 0 := by
  have hi : a / snf.rawSectorSize < snf.eccSteps := div_lt_of_lt_blocks ha
  have hsplit := block_split a snf.rawSectorSize
  by_cases hr : a % snf.rawSectorSize < snf.soc.sectorSize
  · have hx : snf.pos (a / snf.rawSectorSize * snf.soc.sectorSize + a % snf.rawSectorSize) = a := by
      rw [pos_data hwf hi hr, hsplit]
    refine ⟨_, stored_data hwf hi hr, hx, ?_⟩
    rw [← programAutoFormat_pos hwf cache (stored_data hwf hi hr), hx]
    exact hne
  · by_cases hj : a % snf.rawSectorSize < snf.soc.sectorSize + snf.soc.fdmSize
    · have hj' : a % snf.rawSectorSize - snf.soc.sectorSize < snf.soc.fdmSize := by omega
      have hx : snf.pos (snf.writesize + (a / snf.rawSectorSize * snf.soc.fdmSize +
          (a % snf.rawSectorSize - snf.soc.sectorSize))) = a := by
        rw [pos_fdm hj']
        omega
      refine ⟨_, stored_fdm hi hj', hx, ?_⟩
      rw [← programAutoFormat_pos hwf cache (stored_fdm hi hj'), hx]
      exact hne
    · simp only [programAutoFormat, if_pos hi, if_neg hr, if_neg hj] at hne
      exact absurd rfl hne

theorem eccSteps_ne_one (hmark : ¬ snf.MarkInLastSector) : snf.eccSteps ≠ 1 :=
  fun hk => hmark (by simp [Snf.MarkInLastSector, hk])

theorem pos_markPos_lt (hwf : snf.Wf) (hmark : ¬ snf.MarkInLastSector) :
    snf.pos snf.markPos < snf.writesize := by
  have hk := eccSteps_ne_one hmark
  have hlt := markPos_lt hwf hk
  have hw := writesize_split hwf
  have hgt : snf.soc.sectorSize < (snf.eccSteps - 1) * snf.sparePerSector := not_le.mp hmark
  have hle : (snf.eccSteps - 1) * snf.sparePerSector ≤ snf.writesize := by
    rw [hw]
    exact Nat.le_add_right_of_le (Nat.mul_le_mul_left _ hwf.spare_le_sector)
  have hq : snf.markPos + (snf.eccSteps - 1) * snf.sparePerSector = snf.writesize :=
    Nat.sub_add_cancel hle
  -- The mark comes from a sector before the last: fewer spare areas precede it.
  have hdiv : snf.markPos / snf.soc.sectorSize < snf.eccSteps - 1 := by
    apply div_lt_of_lt_blocks
    omega
  have hspare : snf.markPos / snf.soc.sectorSize * snf.sparePerSector <
      (snf.eccSteps - 1) * snf.sparePerSector :=
    Nat.mul_lt_mul_of_pos_right hdiv (lt_of_lt_of_le hwf.fdm_pos hwf.fdm_le_spare)
  have hsplit := block_split snf.markPos snf.soc.sectorSize
  rw [Snf.pos, if_pos hlt, hwf.raw_eq, mul_add]
  omega

/-- A page of zeros whose first spare byte is 1 has a zero at the bad mark. -/
theorem not_pageFormatOk_of_not_mark (hwf : snf.Wf) (hmark : ¬ snf.MarkInLastSector) :
    ¬ snf.PageFormatOk := by
  intro h
  have hk := eccSteps_ne_one hmark
  have hw : 0 < snf.writesize := Nat.lt_of_le_of_lt (Nat.zero_le _) (pos_markPos_lt hwf hmark)
  have hbyte := (h zeroParity 0 (fun _ => 0) (fun x => if x = 0 then 1 else 0) (fun _ => 0) false).1
  rw [doWritePage_of_data hw _ _ (by decide)] at hbyte
  rcases stored_of_ne_zero hwf (writesize_lt_raw hwf) (by rw [hbyte]; decide) with
    ⟨x, hx, hpos, hne⟩
  have hbuf : ∀ y, snf.Stored y → y ≠ snf.writesize →
      pageBuf (fun _ => 0) (fun x => if x = 0 then 1 else 0) snf y = 0 := by
    intro y hy hyw
    by_cases hlt : y < snf.writesize
    · rw [pageBuf_data _ _ hlt]
    · have hy' : y < snf.writesize + snf.eccSteps * snf.soc.fdmSize := hy
      have hsub : snf.writesize + (y - snf.writesize) = y := by omega
      rw [← hsub, pageBuf_oob _ _ (by omega), if_neg (by omega)]
  have hlast : snf.lastFdm ≠ snf.writesize := by
    have hprod : 0 < (snf.eccSteps - 1) * snf.soc.fdmSize :=
      mul_pos (by have := hwf.steps_pos; omega) hwf.fdm_pos
    unfold Snf.lastFdm
    omega
  have hmarkPos := markPos_lt hwf hk
  have hxmark : x ≠ snf.markPos := by
    rintro rfl
    exact absurd hpos (ne_of_lt (pos_markPos_lt hwf hmark))
  apply hne
  simp only [markedBuf, bmSwap, fdmBmSwap, noSwap_eq hwf, beq_iff_eq, hk]
  change swapBytes (swapBytes _ snf.writesize snf.lastFdm) snf.lastFdm snf.markPos x = 0
  have hmark0 := hbuf snf.markPos (stored_markPos hwf hk) (ne_of_lt hmarkPos)
  by_cases hxl : x = snf.lastFdm
  · rw [hxl, swapBytes_left, swapBytes_of_ne (ne_of_lt hmarkPos) ?_, hmark0]
    omega
  rw [swapBytes_of_ne hxl hxmark]
  by_cases hxw : x = snf.writesize
  · rw [hxw, swapBytes_left]
    exact hbuf _ (stored_lastFdm hwf) hlast
  · rw [swapBytes_of_ne hxw hxl]
    exact hbuf x hx hxw

end OpenWrt.SNand
