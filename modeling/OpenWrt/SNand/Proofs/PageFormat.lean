import OpenWrt.Lib.Blocks
import OpenWrt.SNand.Driver

/-!
# Both page paths of the SPI-NAND driver agree

The ECC path swaps the bad mark in the buffer layout (data, then FDM bytes), the
raw path in the interleaved layout of the flash.  `Snf.pos` maps the one layout
to the other; the two pairs of swaps are the same exchange of bytes when the
standard bad-mark position `writesize` falls into the data of the last sector.
-/

namespace OpenWrt.SNand

open Lib

variable {snf : Snf} {ctl : Controller}

structure Snf.Wf (snf : Snf) : Prop where
  steps_pos : 0 < snf.eccSteps
  sector_pos : 0 < snf.soc.sectorSize
  fdm_pos : 0 < snf.soc.fdmSize
  fdm_le_eight : snf.soc.fdmSize ≤ 8
  fdmEcc_le : snf.soc.fdmEccSize ≤ snf.soc.fdmSize
  fdmEcc_pos : 0 < snf.soc.fdmEccSize
  fdm_le_spare : snf.soc.fdmSize ≤ snf.sparePerSector
  spare_le_sector : snf.sparePerSector ≤ snf.soc.sectorSize
  writesize_eq : snf.writesize = snf.eccSteps * snf.soc.sectorSize
  raw_eq : snf.rawSectorSize = snf.soc.sectorSize + snf.sparePerSector
  eccBytes_eq : snf.eccBytes = snf.sparePerSector - snf.soc.fdmSize
  parity_le : snf.eccStrength * fls (snf.soc.sectorSize * 8) ≤ 8 * snf.eccBytes
  gpram : 4 + snf.eccBytes ≤ SNF_GPRAM_SIZE
  bbmSwap : snf.soc.bbmSwap = true

def Snf.Stored (snf : Snf) (x : Nat) : Prop :=
  x < snf.writesize + snf.eccSteps * snf.soc.fdmSize

def Snf.pos (snf : Snf) (x : Nat) : Nat :=
  if x < snf.writesize then
    x / snf.soc.sectorSize * snf.rawSectorSize + x % snf.soc.sectorSize
  else
    (x - snf.writesize) / snf.soc.fdmSize * snf.rawSectorSize +
      (snf.soc.sectorSize + (x - snf.writesize) % snf.soc.fdmSize)

/-! ## FDM registers -/

theorem shift_or {a b n : Nat} (ha : a < 2 ^ n) : a ||| b <<< n = a + b * 2 ^ n := by
  rw [Nat.or_comm, ← Nat.shiftLeft_add_eq_or_of_lt ha]
  omega

theorem pack_bytes {a b c d : Nat} (ha : a < 256) (hb : b < 256) (hc : c < 256) :
    a ||| b <<< 8 ||| c <<< 16 ||| d <<< 24 = a + b * 256 + c * 65536 + d * 16777216 := by
  rw [shift_or (n := 8) (by omega), shift_or (n := 16) (by omega), shift_or (n := 24) (by omega)]
  norm_num

theorem unpackFdm_packFdm {n j : Nat} (b : Nat → UInt8) (hn : n ≤ 8) (hj : j < n) :
    unpackFdm (packFdm n b) j = b j := by
  have hlt : ∀ i, (if i < n then (b i).toNat else 0xff) < 256 := by
    intro i
    split
    · exact (b i).toNat_lt
    · omega
  have hbyte : (if j < n then (b j).toNat else 0xff) = (b j).toNat := if_pos hj
  apply UInt8.toNat.inj
  simp only [unpackFdm, packFdm]
  rw [pack_bytes (hlt 0) (hlt 1) (hlt 2), pack_bytes (hlt 4) (hlt 5) (hlt 6)]
  have h0 := hlt 0; have h1 := hlt 1; have h2 := hlt 2; have h3 := hlt 3
  have h4 := hlt 4; have h5 := hlt 5; have h6 := hlt 6; have h7 := hlt 7
  generalize hB : (fun i => if i < n then (b i).toNat else 0xff) = B at *
  have hB' : ∀ i, (if i < n then (b i).toNat else 0xff) = B i := fun i => congrFun hB i
  simp only [hB'] at *
  have hj8 : j < 8 := by omega
  interval_cases j <;> simp [Nat.shiftRight_eq_div_pow] <;> omega

/-! ## The two layouts -/

section

variable (hwf : snf.Wf)

include hwf

theorem pos_data {i r : Nat} (hi : i < snf.eccSteps) (hr : r < snf.soc.sectorSize) :
    snf.pos (i * snf.soc.sectorSize + r) = i * snf.rawSectorSize + r := by
  have hlt : i * snf.soc.sectorSize + r < snf.writesize := by
    rw [hwf.writesize_eq]; exact block_lt hi hr
  rw [Snf.pos, if_pos hlt, block_div hr, block_mod hr]

omit hwf in
theorem pos_fdm {i j : Nat} (hj : j < snf.soc.fdmSize) :
    snf.pos (snf.writesize + (i * snf.soc.fdmSize + j)) =
      i * snf.rawSectorSize + (snf.soc.sectorSize + j) := by
  rw [Snf.pos, if_neg (by omega), Nat.add_sub_cancel_left, block_div hj, block_mod hj]

theorem stored_cases {x : Nat} (hx : snf.Stored x) :
    (∃ i r, i < snf.eccSteps ∧ r < snf.soc.sectorSize ∧ x = i * snf.soc.sectorSize + r) ∨
      ∃ i j, i < snf.eccSteps ∧ j < snf.soc.fdmSize ∧
        x = snf.writesize + (i * snf.soc.fdmSize + j) := by
  by_cases hlt : x < snf.writesize
  · left
    rw [hwf.writesize_eq] at hlt
    exact ⟨x / snf.soc.sectorSize, x % snf.soc.sectorSize, div_lt_of_lt_blocks hlt,
      Nat.mod_lt _ hwf.sector_pos, (block_split _ _).symm⟩
  · right
    have hx' : x - snf.writesize < snf.eccSteps * snf.soc.fdmSize := by
      have : x < snf.writesize + snf.eccSteps * snf.soc.fdmSize := hx
      omega
    refine ⟨(x - snf.writesize) / snf.soc.fdmSize, (x - snf.writesize) % snf.soc.fdmSize,
      div_lt_of_lt_blocks hx', Nat.mod_lt _ hwf.fdm_pos, ?_⟩
    rw [block_split]
    omega

theorem stored_data {i r : Nat} (hi : i < snf.eccSteps)
    (hr : r < snf.soc.sectorSize) : snf.Stored (i * snf.soc.sectorSize + r) := by
  have : i * snf.soc.sectorSize + r < snf.writesize := by
    rw [hwf.writesize_eq]; exact block_lt hi hr
  exact Nat.lt_add_right _ this

omit hwf in
theorem stored_fdm {i j : Nat} (hi : i < snf.eccSteps) (hj : j < snf.soc.fdmSize) :
    snf.Stored (snf.writesize + (i * snf.soc.fdmSize + j)) :=
  Nat.add_lt_add_left (block_lt hi hj) _

theorem pos_injective {x y : Nat} (hx : snf.Stored x) (hy : snf.Stored y)
    (h : snf.pos x = snf.pos y) : x = y := by
  have hfdm := hwf.fdm_le_spare
  have hraw := hwf.raw_eq
  rcases stored_cases hwf hx with ⟨i, r, hi, hr, rfl⟩ | ⟨i, r, hi, hr, rfl⟩ <;>
    rcases stored_cases hwf hy with ⟨i', r', hi', hr', rfl⟩ | ⟨i', r', hi', hr', rfl⟩
  · rw [pos_data hwf hi hr, pos_data hwf hi' hr'] at h
    obtain ⟨rfl, rfl⟩ := block_inj (by omega) (by omega) h
    rfl
  · rw [pos_data hwf hi hr, pos_fdm hr'] at h
    obtain ⟨-, hr⟩ := block_inj (by omega) (by omega) h
    omega
  · rw [pos_fdm hr, pos_data hwf hi' hr'] at h
    obtain ⟨-, hr⟩ := block_inj (by omega) (by omega) h
    omega
  · rw [pos_fdm hr, pos_fdm hr'] at h
    obtain ⟨rfl, hr⟩ := block_inj (by omega) (by omega) h
    rw [add_left_cancel hr]

theorem pos_lt {x : Nat} (hx : snf.Stored x) : snf.pos x < snf.eccSteps * snf.rawSectorSize := by
  have hfdm := hwf.fdm_le_spare
  have hraw := hwf.raw_eq
  rcases stored_cases hwf hx with ⟨i, r, hi, hr, rfl⟩ | ⟨i, r, hi, hr, rfl⟩
  · rw [pos_data hwf hi hr]
    exact block_lt hi (by omega)
  · rw [pos_fdm hr]
    exact block_lt hi (by omega)

theorem programAutoFormat_pos (cache : Buffer) {x : Nat} (hx : snf.Stored x) :
    programAutoFormat ctl snf cache (snf.pos x) = cache x := by
  have hfdm := hwf.fdm_le_spare
  have hraw := hwf.raw_eq
  rcases stored_cases hwf hx with ⟨i, r, hi, hr, rfl⟩ | ⟨i, j, hi, hj, rfl⟩
  · rw [pos_data hwf hi hr]
    simp only [programAutoFormat]
    rw [block_div (by omega), block_mod (by omega), if_pos hi, if_pos hr]
  · rw [pos_fdm hj]
    simp only [programAutoFormat]
    rw [block_div (by omega), block_mod (by omega), if_pos hi, if_neg (by omega),
      if_pos (by omega), Nat.add_sub_cancel_left, writeFdm,
      unpackFdm_packFdm _ hwf.fdm_le_eight hj, add_assoc]

theorem toRawPage_pos (data oob : Buffer) (emptyEcc : Bool) {x : Nat} (hx : snf.Stored x) :
    toRawPage snf (some data) (some oob) emptyEcc (snf.pos x) =
      fillCache snf (some data) (some oob) (snf.eccSteps * snf.soc.fdmSize) x := by
  have hfdm := hwf.fdm_le_spare
  have hraw := hwf.raw_eq
  rcases stored_cases hwf hx with ⟨i, r, hi, hr, rfl⟩ | ⟨i, j, hi, hj, rfl⟩
  · have hlt : i * snf.soc.sectorSize + r < snf.writesize := by
      rw [hwf.writesize_eq]; exact block_lt hi hr
    rw [pos_data hwf hi hr]
    simp only [toRawPage, fillCache]
    rw [block_div (by omega), block_mod (by omega), if_pos hi, if_pos hr,
      memcpy_outside (.inl hlt), memcpy_inside (by omega)]
    simp
  · have hlt : i * snf.soc.fdmSize + j < snf.eccSteps * snf.soc.fdmSize := block_lt hi hj
    rw [pos_fdm hj]
    simp only [toRawPage, fillCache]
    rw [block_div (by omega), block_mod (by omega), if_pos hi, if_neg (by omega),
      if_pos (by omega), memcpy_inside (by omega), Nat.add_sub_cancel_left,
      Nat.add_sub_cancel_left, zero_add]

/-! ## The swaps in the two layouts -/

/-- Position in the page buffer of the byte that ends up at the bad mark. -/
def Snf.markPos (snf : Snf) : Nat :=
  snf.writesize - (snf.eccSteps - 1) * snf.sparePerSector

def Snf.lastFdm (snf : Snf) : Nat :=
  snf.writesize + (snf.eccSteps - 1) * snf.soc.fdmSize

/-- The standard bad-mark position lies in the data of the last sector. -/
def Snf.MarkInLastSector (snf : Snf) : Prop :=
  (snf.eccSteps - 1) * snf.sparePerSector ≤ snf.soc.sectorSize

theorem noSwap_eq : snf.noSwap = (snf.eccSteps == 1) := by
  simp [Snf.noSwap, hwf.bbmSwap]

theorem writesize_split :
    snf.writesize = (snf.eccSteps - 1) * snf.soc.sectorSize + snf.soc.sectorSize := by
  rw [hwf.writesize_eq]
  conv_lhs => rw [show snf.eccSteps = snf.eccSteps - 1 + 1 by have := hwf.steps_pos; omega]
  rw [add_mul, one_mul]

theorem raw_split :
    (snf.eccSteps - 1) * snf.rawSectorSize =
      (snf.eccSteps - 1) * snf.soc.sectorSize + (snf.eccSteps - 1) * snf.sparePerSector := by
  rw [hwf.raw_eq, mul_add]

theorem spare_total_pos (hk : snf.eccSteps ≠ 1) : 0 < (snf.eccSteps - 1) * snf.sparePerSector := by
  have := hwf.steps_pos
  have := hwf.fdm_pos
  have := hwf.fdm_le_spare
  exact mul_pos (by omega) (by omega)

theorem markPos_data (hmark : snf.MarkInLastSector) :
    snf.markPos = (snf.eccSteps - 1) * snf.soc.sectorSize +
      (snf.soc.sectorSize - (snf.eccSteps - 1) * snf.sparePerSector) := by
  have hw := writesize_split hwf
  have : (snf.eccSteps - 1) * snf.sparePerSector ≤ snf.soc.sectorSize := hmark
  unfold Snf.markPos
  omega

theorem pos_markPos (hk : snf.eccSteps ≠ 1) (hmark : snf.MarkInLastSector) :
    snf.pos snf.markPos = snf.writesize := by
  have hpos := spare_total_pos hwf hk
  have hraw := raw_split hwf
  have hw := writesize_split hwf
  have hle : (snf.eccSteps - 1) * snf.sparePerSector ≤ snf.soc.sectorSize := hmark
  have hsteps := hwf.steps_pos
  rw [markPos_data hwf hmark, pos_data hwf (by omega) (by omega)]
  omega

theorem pos_lastFdm :
    snf.pos snf.lastFdm =
      (snf.eccSteps - 1) * snf.rawSectorSize + snf.soc.sectorSize := by
  have h : snf.pos (snf.writesize + ((snf.eccSteps - 1) * snf.soc.fdmSize + 0)) = _ :=
    pos_fdm hwf.fdm_pos
  simpa [Snf.lastFdm] using h

theorem pos_firstFdm : snf.pos snf.writesize = snf.soc.sectorSize := by
  have h : snf.pos (snf.writesize + (0 * snf.soc.fdmSize + 0)) = _ := pos_fdm hwf.fdm_pos
  simpa using h

theorem stored_lastFdm : snf.Stored snf.lastFdm := by
  have hlast : snf.eccSteps - 1 < snf.eccSteps := Nat.sub_one_lt_of_lt hwf.steps_pos
  have h := stored_fdm hlast hwf.fdm_pos
  simpa [Snf.lastFdm] using h

theorem stored_firstFdm : snf.Stored snf.writesize := by
  have h := stored_fdm hwf.steps_pos hwf.fdm_pos
  simpa using h

theorem markPos_lt (hk : snf.eccSteps ≠ 1) : snf.markPos < snf.writesize := by
  have hpos := spare_total_pos hwf hk
  have hw : 0 < snf.writesize := by
    rw [hwf.writesize_eq]; exact mul_pos hwf.steps_pos hwf.sector_pos
  unfold Snf.markPos
  omega

theorem stored_markPos (hk : snf.eccSteps ≠ 1) : snf.Stored snf.markPos :=
  Nat.lt_add_right _ (markPos_lt hwf hk)

def Snf.Agree (snf : Snf) (b b' : Buffer) : Prop := ∀ x, snf.Stored x → b x = b' x

theorem bmSwap_agree {b b' : Buffer} (h : snf.Agree b b') :
    snf.Agree (bmSwap snf b) (bmSwap snf b') := by
  intro x hx
  simp only [bmSwap, noSwap_eq hwf]
  by_cases hk : snf.eccSteps = 1
  · simpa [hk] using h x hx
  · have hlast := h _ (stored_lastFdm hwf)
    have hmark := h _ (stored_markPos hwf hk)
    simp only [beq_iff_eq, hk, if_false, swapBytes]
    simp only [Snf.lastFdm, Snf.markPos] at hlast hmark
    rw [hlast, hmark, h x hx]

theorem fdmBmSwap_agree {b b' : Buffer} (h : snf.Agree b b') :
    snf.Agree (fdmBmSwap snf b) (fdmBmSwap snf b') := by
  intro x hx
  have hlast := h _ (stored_lastFdm hwf)
  simp only [Snf.lastFdm] at hlast
  unfold fdmBmSwap
  split
  · exact h x hx
  · simp only [swapBytes]
    rw [hlast, h _ (stored_firstFdm hwf), h x hx]

theorem bmSwapRaw_pos (hmark : snf.MarkInLastSector) (b : Buffer) :
    snf.Agree (bmSwapRaw snf b ∘ snf.pos) (bmSwap snf (b ∘ snf.pos)) := by
  intro x hx
  simp only [bmSwapRaw, bmSwap, noSwap_eq hwf]
  by_cases hk : snf.eccSteps = 1
  · simp [hk]
  · simp only [beq_iff_eq, hk]
    rw [← pos_lastFdm hwf]
    conv_lhs => rw [← pos_markPos hwf hk hmark]
    exact swapBytes_comp (fun _ _ => pos_injective hwf) (stored_lastFdm hwf)
      (stored_markPos hwf hk) hx

theorem fdmBmSwapRaw_pos (b : Buffer) :
    snf.Agree (fdmBmSwapRaw snf b ∘ snf.pos) (fdmBmSwap snf (b ∘ snf.pos)) := by
  intro x hx
  simp only [fdmBmSwapRaw, fdmBmSwap]
  split
  · rfl
  · rw [← pos_lastFdm hwf]
    conv_lhs => rw [← pos_firstFdm hwf]
    exact swapBytes_comp (fun _ _ => pos_injective hwf) (stored_firstFdm hwf)
      (stored_lastFdm hwf) hx

def markedBuf (snf : Snf) (b : Buffer) : Buffer := bmSwap snf (fdmBmSwap snf b)

omit hwf in
theorem unmark_marked (snf : Snf) (b : Buffer) :
    fdmBmSwap snf (bmSwap snf (markedBuf snf b)) = b := by
  unfold markedBuf bmSwap fdmBmSwap
  by_cases h : snf.noSwap = true
  · simp [h]
  · simp [h]

theorem markedBuf_mark (hk : snf.eccSteps ≠ 1) (b : Buffer) :
    markedBuf snf b snf.markPos = b snf.writesize := by
  simp only [markedBuf, bmSwap, fdmBmSwap, noSwap_eq hwf, beq_iff_eq, hk, if_false, Snf.markPos,
    swapBytes_right]

end

end OpenWrt.SNand
