import Mathlib
import OpenWrt.Lib.History
import OpenWrt.Tffs.Nand

/-!
# The scan stays in its arrays

The arrays keep their lengths.  Each sector is marked or looked up, so a step is safe exactly if
the sector has a bit and the bad sectors of a header have one.
-/

namespace OpenWrt.Tffs

open Lib List Option

variable {r : Reader} {d : Device} {sectors sectors' : List UInt8} {num : Int}
  {pos sector : Nat} {st st' : Scan} {buf : Buffer}

/-! ## The bitmap -/

theorem tdiv_nonneg_iff : 0 ≤ num.tdiv 8 ↔ -8 < num := by
  rcases Int.lt_or_le num 0 with hneg | hpos
  · have hdiv : num.tdiv 8 = -(-num / 8) := by
      rw [← Int.tdiv_eq_ediv_of_nonneg (by omega), Int.neg_tdiv, Int.neg_neg]
    omega
  · rw [Int.tdiv_eq_ediv_of_nonneg hpos]
    omega

theorem bitmapIndex_map_isSome {len : Nat} {α : Type} {f : Nat → α} :
    (∃ x, (bitmapIndex len num).map f = some x) ↔ -8 < num ∧ num.tdiv 8 < len := by
  rw [← tdiv_nonneg_iff, bitmapIndex]
  split
  · rename_i h
    exact ⟨fun _ => h, fun _ => ⟨_, rfl⟩⟩
  · rename_i h
    exact iff_of_false (by rintro ⟨x, hx⟩; cases hx) h

theorem sectorMarkBad_isSome :
    (∃ sectors', sectorMarkBad sectors num = some sectors') ↔
      -8 < num ∧ num.tdiv 8 < sectors.length :=
  bitmapIndex_map_isSome

theorem sectorMarkBad_length (h : sectorMarkBad sectors num = some sectors') :
    sectors'.length = sectors.length := by
  obtain ⟨i, -, rfl⟩ := map_eq_some_iff.mp h
  exact length_set

theorem sectorGetGood_isSome :
    (∃ good, sectorGetGood sectors num = some good) ↔
      -8 < num ∧ num.tdiv 8 < sectors.length :=
  bitmapIndex_map_isSome

/-! ## Steps -/

structure Sized (d : Device) (st : Scan) : Prop where
  sectors : st.sectors.length = (d.numSectors + 7) / 8
  ids : st.ids.length = d.numSectors
  runs : st.crashed = false

theorem sized_start : Sized d d.start :=
  ⟨length_replicate, length_replicate, rfl⟩

section

variable (h : Sized d st)

include h

theorem inBitmap_iff : InBitmap d num ↔ -8 < num ∧ num.tdiv 8 < st.sectors.length := by
  rw [h.sectors]
  rfl

theorem foldlM_markBad_isSome (buf : Buffer) (sector n : Nat) :
    (∃ sectors', (range n).foldlM
        (fun sectors i => sectorMarkBad sectors (badSector r buf sector i)) st.sectors =
          some sectors') ↔
      ∀ i < n, InBitmap d (badSector r buf sector i) := by
  rw [foldlM_isSome_iff_forall (fun sectors' : List UInt8 => sectors'.length = st.sectors.length)
    (fun i => InBitmap d (badSector r buf sector i))
    (fun _ _ _ hs h => (sectorMarkBad_length h).trans hs) ?_ rfl]
  · simp only [mem_range]
  · intro sectors i hs
    rw [inBitmap_iff h, ← hs]
    exact sectorMarkBad_isSome

omit h in
theorem foldlM_markBad_length {n : Nat}
    (h : (range n).foldlM
      (fun sectors i => sectorMarkBad sectors (badSector r buf sector i)) sectors =
        some sectors') : sectors'.length = sectors.length :=
  foldlM_keeps (fun _ (s : List UInt8) => s.length = sectors.length) []
    (fun _ _ _ _ hs h => (sectorMarkBad_length h).trans hs) rfl h

theorem noteId_sector (hsector : d.sector pos = some buf) (id : Nat) :
    ∃ ids, noteId st.ids (pos / TFFS_SECTOR_SIZE) id = some ids ∧ ids.length = d.numSectors := by
  have hpos : pos + TFFS_SECTOR_SIZE ≤ d.size := by
    rw [Device.sector] at hsector
    split at hsector
    · rename_i hread
      exact hread.1
    · cases hsector
  have hlt : pos / TFFS_SECTOR_SIZE < d.numSectors := by
    rw [Device.numSectors, TFFS_SECTOR_SIZE] at *
    omega
  refine ⟨_, if_pos (h.ids ▸ hlt), ?_⟩
  rw [length_set, h.ids]

omit h in
theorem checkBlock_header (hcheck : checkSector r d pos) (hsector : d.sector pos = some buf)
    (hheader : IsHeader r buf) {ids : List Nat}
    (hids : noteId st.ids (pos / TFFS_SECTOR_SIZE) (word r.big buf 0) = some ids) :
    checkBlock r d pos sector st =
      ((range 2).foldlM (fun sectors i => sectorMarkBad sectors (badSector r buf sector i))
        st.sectors).bind fun sectors => some (true, { st with ids, sectors }) := by
  have hcount : word r.big buf 0x0c = 2 := hheader.2
  rw [checkBlock, if_neg (not_not.mpr hcheck), hsector]
  dsimp only
  rw [hids, bind_eq_bind, bind_some, if_neg (not_not.mpr hheader), hcount]
  rfl

theorem checkBlock_invalid (sector : Nat)
    (hinvalid : ¬(checkSector r d pos ∧ ∃ buf, d.sector pos = some buf ∧ IsHeader r buf)) :
    ∃ st', checkBlock r d pos sector st = some (false, st') := by
  rw [checkBlock]
  by_cases hcheck : checkSector r d pos = true
  · rw [if_neg (not_not.mpr hcheck)]
    cases hsector : d.sector pos with
    | none => exact ⟨st, rfl⟩
    | some buf =>
      have hheader : ¬IsHeader r buf :=
        fun hheader => hinvalid ⟨hcheck, buf, hsector, hheader⟩
      obtain ⟨ids, hids, -⟩ := noteId_sector h hsector (word r.big buf 0)
      dsimp only
      rw [hids, bind_eq_bind, bind_some, if_pos hheader]
      exact ⟨_, rfl⟩
  · rw [if_pos hcheck]
    exact ⟨st, rfl⟩

theorem checkBlock_isSome :
    (∃ res, checkBlock r d pos sector st = some res) ↔
      ∀ buf, checkSector r d pos → d.sector pos = some buf → IsHeader r buf →
        ∀ i < 2, InBitmap d (badSector r buf sector i) := by
  by_cases hvalid : checkSector r d pos = true ∧ ∃ buf, d.sector pos = some buf ∧ IsHeader r buf
  · obtain ⟨hcheck, buf, hsector, hheader⟩ := hvalid
    obtain ⟨ids, hids, -⟩ := noteId_sector h hsector (word r.big buf 0)
    rw [checkBlock_header hcheck hsector hheader hids]
    have hmark := foldlM_markBad_isSome (r := r) h buf sector 2
    constructor
    · rintro ⟨res, hres⟩ buf' - hbuf -
      obtain ⟨sectors, hsectors, -⟩ := bind_eq_some_iff.mp hres
      obtain rfl : buf = buf' := some.inj (hsector.symm.trans hbuf)
      exact hmark.mp ⟨sectors, hsectors⟩
    · intro hbad
      obtain ⟨sectors, hsectors⟩ := hmark.mpr (hbad buf hcheck hsector hheader)
      exact ⟨_, bind_eq_some_iff.mpr ⟨sectors, hsectors, rfl⟩⟩
  · obtain ⟨st', hst⟩ := checkBlock_invalid h sector hvalid
    refine ⟨fun _ buf hcheck hsector hheader => ?_, fun _ => ⟨_, hst⟩⟩
    exact absurd ⟨hcheck, buf, hsector, hheader⟩ hvalid

theorem checkBlock_sized {ok : Bool} (hcheck : checkBlock r d pos sector st = some (ok, st')) :
    Sized d st' := by
  rw [checkBlock] at hcheck
  split at hcheck
  · cases hcheck
    exact h
  cases hsector : d.sector pos with
  | none =>
    rw [hsector] at hcheck
    cases hcheck
    exact h
  | some buf =>
    rw [hsector] at hcheck
    obtain ⟨ids, hids, hrest⟩ := bind_eq_some_iff.mp hcheck
    obtain ⟨ids', hids', hlen⟩ := noteId_sector h hsector (word r.big buf 0)
    rw [hids] at hids'
    cases hids'
    split at hrest
    · cases hrest
      exact ⟨h.sectors, hlen, h.runs⟩
    · obtain ⟨sectors, hsectors, hres⟩ := bind_eq_some_iff.mp hrest
      cases hres
      exact ⟨(foldlM_markBad_length hsectors).trans h.sectors, hlen, h.runs⟩

theorem markBad_isSome : (∃ st', markBad sector st = some st') ↔ InBitmap d sector := by
  rw [inBitmap_iff h, ← sectorMarkBad_isSome]
  constructor
  · rintro ⟨st', hst⟩
    obtain ⟨sectors, hsectors, -⟩ := map_eq_some_iff.mp hst
    exact ⟨sectors, hsectors⟩
  · rintro ⟨sectors, hsectors⟩
    exact ⟨_, map_eq_some_iff.mpr ⟨sectors, hsectors, rfl⟩⟩

theorem markBad_sized (hmark : markBad sector st = some st') : Sized d st' := by
  obtain ⟨sectors, hsectors, rfl⟩ := map_eq_some_iff.mp hmark
  exact ⟨(sectorMarkBad_length hsectors).trans h.sectors, h.ids, h.runs⟩

theorem scanOther_isSome : (∃ st', scanOther r d sector st = some st') ↔ InBitmap d sector := by
  rw [scanOther]
  split
  · exact markBad_isSome h
  cases hgood : sectorGetGood st.sectors sector with
  | none =>
    rw [inBitmap_iff h, ← sectorGetGood_isSome, hgood]
    simp
  | some good =>
    have hin : InBitmap d sector := (inBitmap_iff h).mpr (sectorGetGood_isSome.mp ⟨good, hgood⟩)
    dsimp only
    split
    · exact markBad_isSome h
    · exact ⟨fun _ => hin, fun _ => ⟨st, rfl⟩⟩

theorem scanOther_sized (hscan : scanOther r d sector st = some st') : Sized d st' := by
  rw [scanOther] at hscan
  split at hscan
  · exact markBad_sized h hscan
  cases hgood : sectorGetGood st.sectors sector with
  | none =>
    rw [hgood] at hscan
    cases hscan
  | some good =>
    rw [hgood] at hscan
    dsimp only at hscan
    split at hscan
    · exact markBad_sized h hscan
    · cases hscan
      exact h

theorem scanBlock_isSome :
    (∃ st', scanBlock r d sector st = some st') ↔
      (∀ buf, checkSector r d (sector * TFFS_SECTOR_SIZE) →
        d.sector (sector * TFFS_SECTOR_SIZE) = some buf → IsHeader r buf →
        ∀ i < 2, InBitmap d (badSector r buf sector i)) ∧ InBitmap d sector := by
  rw [← checkBlock_isSome h]
  constructor
  · rintro ⟨st', hst⟩
    obtain ⟨⟨ok, st1⟩, hcheck, hrest⟩ := bind_eq_some_iff.mp hst
    obtain ⟨sectors, hsectors, -⟩ := bind_eq_some_iff.mp hrest
    exact ⟨⟨_, hcheck⟩, (inBitmap_iff (checkBlock_sized h hcheck)).mpr
      (sectorMarkBad_isSome.mp ⟨sectors, hsectors⟩)⟩
  · rintro ⟨⟨⟨ok, st1⟩, hcheck⟩, hin⟩
    obtain ⟨sectors, hsectors⟩ :=
      sectorMarkBad_isSome.mpr ((inBitmap_iff (checkBlock_sized h hcheck)).mp hin)
    exact ⟨_, bind_eq_some_iff.mpr ⟨_, hcheck,
      bind_eq_some_iff.mpr ⟨sectors, hsectors, rfl⟩⟩⟩

theorem scanBlock_sized (hscan : scanBlock r d sector st = some st') : Sized d st' := by
  obtain ⟨⟨ok, st1⟩, hcheck, hrest⟩ := bind_eq_some_iff.mp hscan
  obtain ⟨sectors, hsectors, hres⟩ := bind_eq_some_iff.mp hrest
  cases hres
  have hst1 := checkBlock_sized h hcheck
  exact ⟨(sectorMarkBad_length hsectors).trans hst1.sectors, hst1.ids, hst1.runs⟩

end

/-! ## The scan -/

def StepOk (r : Reader) (d : Device) (sector : Nat) : Prop :=
  InBitmap d sector ∧ ∀ buf, ValidBlock r d (sector * TFFS_SECTOR_SIZE) buf →
    ∀ i < 2, InBitmap d (badSector r buf sector i)

theorem scanSector_isSome (hes : d.erasesize ≠ 0) (h : Sized d st) :
    (∃ st', scanSector r d st sector = some st') ↔ StepOk r d sector := by
  rw [scanSector, h.runs, if_neg Bool.false_ne_true, if_neg hes]
  split
  · rename_i hblock
    rw [scanBlock_isSome h, and_comm]
    refine and_congr Iff.rfl ⟨fun hbad buf hvalid => ?_, fun hbad buf hcheck hsector hheader => ?_⟩
    · exact hbad buf hvalid.2.1 hvalid.2.2.1 hvalid.2.2.2
    · exact hbad buf ⟨hblock, hcheck, hsector, hheader⟩
  · rename_i hblock
    rw [scanOther_isSome h]
    exact ⟨fun hin => ⟨hin, fun buf hvalid => absurd hvalid.1 hblock⟩, fun hok => hok.1⟩

theorem scanSector_sized (hes : d.erasesize ≠ 0) (h : Sized d st)
    (hscan : scanSector r d st sector = some st') : Sized d st' := by
  rw [scanSector, h.runs, if_neg Bool.false_ne_true, if_neg hes] at hscan
  split at hscan
  · exact scanBlock_sized h hscan
  · exact scanOther_sized h hscan

theorem inBitmap_natCast (sector : Nat) :
    InBitmap d sector ↔ sector / 8 < (d.numSectors + 7) / 8 := by
  rw [InBitmap, Int.tdiv_eq_ediv_of_nonneg (Int.natCast_nonneg sector)]
  omega

theorem positions_inBitmap_iff :
    (∀ sector < d.positions, InBitmap d sector) ↔
      d.size % TFFS_SECTOR_SIZE = 0 ∨ d.numSectors % 8 ≠ 0 := by
  simp only [inBitmap_natCast, Device.positions, Device.numSectors, TFFS_SECTOR_SIZE]
  constructor
  · intro h
    by_contra hno
    have hlast := h (d.size / 0x0800) (by omega)
    omega
  · intro h sector hsector
    omega

theorem scanMtd_isSome (hes : d.erasesize ≠ 0) : ScanSafe r d ↔ HeadersOk r d := by
  have hiff : ScanSafe r d ↔ ∀ sector ∈ range d.positions, StepOk r d sector :=
    foldlM_isSome_iff_forall (Sized d) (StepOk r d)
      (fun _ _ _ h hscan => scanSector_sized hes h hscan)
      (fun _ _ h => scanSector_isSome hes h) sized_start
  rw [hiff]
  constructor
  · intro h
    refine ⟨positions_inBitmap_iff.mp fun sector hsector => ?_, fun sector buf hsector => ?_⟩
    · exact (h sector (mem_range.mpr hsector)).1
    · exact (h sector (mem_range.mpr hsector)).2 buf
  · intro h sector hsector
    have hlt := mem_range.mp hsector
    exact ⟨positions_inBitmap_iff.mpr h.size sector hlt, fun buf => h.bad sector buf hlt⟩

theorem scanSafe_of_erasesize (hes : d.erasesize = 0) : ScanSafe r d := by
  have hkeep : ∀ sectors : List Nat, ∃ st, sectors.foldlM (scanSector r d) d.start = some st := by
    intro sectors
    refine (foldlM_isSome_iff_forall (fun _ => True) (fun _ => True) (fun _ _ _ _ _ => trivial)
      (fun st sector _ => ⟨fun _ => trivial, fun _ => ?_⟩) trivial).mpr fun _ _ => trivial
    rw [scanSector]
    split <;> exact ⟨_, rfl⟩
  exact hkeep _

/-- The scan stays in its arrays exactly if the device is one that it does not divide by 0 for,
or its size and its headers are fine. -/
theorem scanSafe_iff : ScanSafe r d ↔ d.erasesize = 0 ∨ HeadersOk r d := by
  rcases eq_or_ne d.erasesize 0 with hes | hes
  · exact ⟨fun _ => .inl hes, fun _ => scanSafe_of_erasesize hes⟩
  · rw [scanMtd_isSome hes]
    exact ⟨.inr, fun h => h.resolve_left hes⟩

def badHeader : Device where
  size := 0x4000
  erasesize := 0x4000
  size_lt := by decide
  flash := storeBytes (storeBytes (fun _ => 0) 0 [0x41, 0x56, 0x4d, 0x5f, 0x54, 0x46, 0x46, 0x53])
    0x0c
    [0, 0, 0, 2, 0, 0, 0, 0, 0, 0, 0, 0, 0, 0, 0, 0, 0, 0, 0, 0, 0, 0, 0, 8]
  readable := fun _ => true
  oob := fun _ => none

theorem not_scanSafe_badHeader : ¬ScanSafe ⟨true, false⟩ badHeader := by
  intro hsafe
  have hok := (scanMtd_isSome (by decide)).mp hsafe
  have hvalid : ValidBlock ⟨true, false⟩ badHeader (0 * TFFS_SECTOR_SIZE)
      (fun i => badHeader.flash (0 * TFFS_SECTOR_SIZE + i)) := by
    refine ⟨rfl, rfl, if_pos (by decide), ?_⟩
    decide +kernel
  have hbad := hok.bad 0 _ (by decide) hvalid 0 (by decide)
  have hnum : badSector ⟨true, false⟩ (fun i => badHeader.flash (0 * TFFS_SECTOR_SIZE + i)) 0 0 =
      (8 : Nat) := by
    decide +kernel
  rw [hnum, inBitmap_natCast] at hbad
  exact absurd hbad (by decide)

end OpenWrt.Tffs
