import OpenWrt.Mtd.Bootcount

/-!
# Resetting the boot count

The scan of a log ends behind its last record with that record's count.  A record with
count 0 appended to a log, or written to the erased partition, makes a log again, on which
the next call has nothing to do.  What is left is the size of `page`: the record takes
`writesize` bytes of it.
-/

namespace OpenWrt.Mtd.Bootcount

open Lib

variable {d : Device} {flash page : Buffer} {k i n : Nat} {s : State}
variable {off writesize : Nat}

theorem bcOffsetIncrement_ge (d : Device) : 16 ≤ d.bcOffsetIncrement := by
  unfold Device.bcOffsetIncrement bcOffsetIncrementMin
  split <;> omega

theorem slot_le (h : i < d.numBc) :
    i * d.bcOffsetIncrement + d.bcOffsetIncrement ≤ d.numBc * d.bcOffsetIncrement := by
  rw [← Nat.succ_mul]
  exact Nat.mul_le_mul_right _ h

/-! ## The scan -/

theorem magic_pread (off : Nat) (s : State) : d.magic (pread off s).page 0 = d.magic s.flash off :=
  word_memcpy (i := 0) (by decide)

theorem count_pread (off : Nat) (s : State) : d.count (pread off s).page 0 = d.count s.flash off :=
  word_memcpy (i := 4) (by decide)

theorem word_erased {big : Bool} (h : ∀ i < 4, flash (off + i) = 0xff) :
    word big flash off = 0xffffffff := by
  have hbytes : ∀ big, ∀ i < 4, (wordBytes big 0xffffffff).getD i 0 = 0xff := by decide
  apply word_eq_of_bytes (by decide)
  intro i hi
  rw [h i hi, hbytes big i hi]

theorem IsLog.magic_behind (hlog : IsLog d flash k) (hk : k < d.numBc) :
    d.magic flash (k * d.bcOffsetIncrement) = 0xffffffff := by
  have hslot := slot_le hk
  have hge := bcOffsetIncrement_ge d
  apply word_erased
  intro i hi
  exact hlog.erased _ (by omega) (by omega)

theorem scan_frame (d : Device) (n i last : Nat) (s : State) :
    (scan d n i last s).2.flash = s.flash ∧ (scan d n i last s).2.ops = s.ops ∧
      (scan d n i last s).2.reach ≤ max s.reach bootcounterSize := by
  induction n generalizing i last s with
  | zero => exact ⟨rfl, rfl, le_max_left _ _⟩
  | succ n ih =>
    have hread : (pread (i * d.bcOffsetIncrement) s).reach = max s.reach bootcounterSize := rfl
    rw [scan]
    split
    · exact ⟨rfl, rfl, le_of_eq hread⟩
    split
    · exact ⟨rfl, rfl, le_of_eq hread⟩
    · obtain ⟨hflash, hops, hreach⟩ := ih (i + 1)
        (d.count (pread (i * d.bcOffsetIncrement) s).page 0)
        (pread (i * d.bcOffsetIncrement) s)
      refine ⟨hflash, hops, ?_⟩
      omega

theorem IsLog.scan_from (hlog : IsLog d s.flash k) (hn : i + n = d.numBc) (hi : i ≤ k) :
    (scan d n i (lastCount d s.flash i) s).1 = some (k, lastCount d s.flash k) := by
  induction n generalizing i s with
  | zero =>
    have hfits := hlog.fits
    obtain rfl : i = k := by omega
    rfl
  | succ n ih =>
    rw [scan, magic_pread, count_pread]
    rcases Nat.lt_or_eq_of_le hi with hlt | rfl
    · have hmagic := hlog.records i hlt
      rw [hmagic]
      have hnext := ih (s := pread (i * d.bcOffsetIncrement) s) hlog (i := i + 1) (by omega) hlt
      exact hnext
    · rw [hlog.magic_behind (by omega), if_neg (by decide), if_pos rfl]

theorem IsLog.scan_eq (hlog : IsLog d s.flash k) :
    (scan d d.numBc 0 0 s).1 = some (k, lastCount d s.flash k) :=
  hlog.scan_from (Nat.zero_add _) (Nat.zero_le k)

/-! ## One record more -/

def appended (d : Device) (i : Nat) (s : State) : State := pwrite d i (buildRecord d s)

theorem appended_outside {a : Nat} (h : a < i * d.bcOffsetIncrement ∨
    i * d.bcOffsetIncrement + d.bcOffsetIncrement ≤ a) : (appended d i s).flash a = s.flash a := by
  simp only [appended, pwrite, programRange, length_slice]
  exact if_neg (by omega)

theorem appended_inside {j : Nat} (hj : j < d.bcOffsetIncrement)
    (herased : s.flash (i * d.bcOffsetIncrement + j) = 0xff) :
    (appended d i s).flash (i * d.bcOffsetIncrement + j) = (buildRecord d s).page j := by
  have hflash : (buildRecord d s).flash = s.flash := rfl
  simp only [appended, pwrite, programRange, length_slice]
  rw [if_pos (by omega), Nat.add_sub_cancel_left, getD_slice hj, hflash, herased, zero_add,
    UInt8.and_comm]
  exact UInt8.and_neg_one

theorem length_words (d : Device) :
    ([bootcountMagic, 0, bootcountMagic].flatMap (wordBytes d.big)).length = 12 := by
  simp

structure NewRecord (d : Device) (flash : Buffer) (off : Nat) : Prop where
  words : ∀ w < 3, word d.big flash (off + 4 * w) = [bootcountMagic, 0, bootcountMagic].getD w 0
  rest : ∀ j, bootcounterSize ≤ j → j < d.bcOffsetIncrement → flash (off + j) = 0xff

theorem appended_newRecord
    (herased : ∀ j < d.bcOffsetIncrement, s.flash (i * d.bcOffsetIncrement + j) = 0xff) :
    NewRecord d (appended d i s).flash (i * d.bcOffsetIncrement) := by
  have hge := bcOffsetIncrement_ge d
  constructor
  · intro w hw
    have hbytes : ∀ j < 4 * [bootcountMagic, 0, bootcountMagic].length,
        (appended d i s).flash (i * d.bcOffsetIncrement + j) =
        ([bootcountMagic, 0, bootcountMagic].flatMap (wordBytes d.big) ++ []).getD j 0 := by
      intro j hj
      have hlt : j < 12 := hj
      rw [appended_inside (by omega) (herased j (by omega)), List.append_nil,
        ← storeBytes_inside (by rwa [length_words]), zero_add]
      rfl
    exact word_flatMap hbytes (by decide) hw
  · intro j hj hlt
    rw [appended_inside hlt (herased j hlt)]
    simp only [buildRecord]
    rw [storeBytes_outside (.inr (by rw [length_words]; exact hj)), memset_inside (by omega)]

theorem NewRecord.magic_eq (h : NewRecord d flash off) :
    d.magic flash off = bootcountMagic := h.words 0 (by decide)

theorem NewRecord.count_eq (h : NewRecord d flash off) : d.count flash off = 0 :=
  h.words 1 (by decide)

theorem IsLog.append (hlog : IsLog d s.flash k) (hk : k < d.numBc) :
    IsLog d (appended d k s).flash (k + 1) ∧ lastCount d (appended d k s).flash (k + 1) = 0 ∧
      NewRecord d (appended d k s).flash (k * d.bcOffsetIncrement) := by
  have hge := bcOffsetIncrement_ge d
  have hslot := slot_le hk
  have hnew : NewRecord d (appended d k s).flash (k * d.bcOffsetIncrement) := by
    apply appended_newRecord
    intro j hj
    exact hlog.erased _ (by omega) (by omega)
  refine ⟨⟨hk, ?_, ?_⟩, ?_, hnew⟩
  · intro i hi
    rcases Nat.lt_or_eq_of_le (Nat.le_of_lt_succ hi) with hlt | rfl
    · have hbelow : i * d.bcOffsetIncrement + d.bcOffsetIncrement ≤ k * d.bcOffsetIncrement := by
        rw [← Nat.succ_mul]
        exact Nat.mul_le_mul_right _ hlt
      rw [← hlog.records i hlt]
      apply word_congr
      intro j hj
      exact appended_outside (.inl (by omega))
    · exact hnew.magic_eq
  · intro a hle hlt
    rw [Nat.succ_mul] at hle
    rw [appended_outside (.inr hle)]
    exact hlog.erased a (by omega) hlt
  · exact hnew.count_eq

theorem isLog_memerase (d : Device) (s : State) : IsLog d (memerase d s).flash 0 := by
  have hsize : d.numBc * d.bcOffsetIncrement ≤ d.size := Nat.div_mul_le_self _ _
  refine ⟨Nat.zero_le _, fun i hi => absurd hi (Nat.not_lt_zero i), ?_⟩
  intro a _ hlt
  exact if_pos (by omega)

/-! ## The call -/

def scanned (d : Device) (s : State) : State := (scan d d.numBc 0 0 s).2

theorem IsLog.mtdResetbc_eq (hlog : IsLog d s.flash k) (hopens : d.opens) :
    mtdResetbc d s =
      if lastCount d s.flash k = 0 then (0, scanned d s)
      else if k = d.numBc then
        if d.erases then appendRecord d 0 (memerase d (scanned d s)) else (-3, scanned d s)
      else appendRecord d k (scanned d s) := by
  have hscan : scan d d.numBc 0 0 s = (some (k, lastCount d s.flash k), scanned d s) := by
    rw [← hlog.scan_eq]
    rfl
  rw [mtdResetbc, if_pos hopens, hscan]

theorem IsLog.idle (hlog : IsLog d s.flash k) (hopens : d.opens)
    (hzero : lastCount d s.flash k = 0) :
    (mtdResetbc d s).1 = 0 ∧ (mtdResetbc d s).2.ops = s.ops ∧
      (mtdResetbc d s).2.flash = s.flash := by
  rw [hlog.mtdResetbc_eq hopens, if_pos hzero]
  have hframe := scan_frame d d.numBc 0 0 s
  exact ⟨rfl, hframe.2.1, hframe.1⟩

theorem logReset_of_isLog {s' : State} {k' : Nat} (hlog : IsLog d s'.flash k')
    (hopens : d.opens) (hzero : lastCount d s'.flash k' = 0)
    (hkept : k < d.numBc ∨ lastCount d s.flash k = 0 →
      ∀ a < k * d.bcOffsetIncrement, s'.flash a = s.flash a)
    (hfull : k = d.numBc → lastCount d s.flash k ≠ 0 → OnlyNew d s'.flash) :
    LogReset d k s s' ↔ s'.reach ≤ pageSize := by
  constructor
  · intro hreset
    exact hreset.inPage
  · intro hpage
    exact ⟨hpage, ⟨k', by rw [hlog.scan_eq, hzero]⟩, hkept, hfull, hlog.idle hopens hzero⟩

theorem IsLog.reset_idle (hlog : IsLog d s.flash k) (hopens : d.opens)
    (hzero : lastCount d s.flash k = 0) :
    LogReset d k s (scanned d s) ↔ (scanned d s).reach ≤ pageSize := by
  have hflash : (scanned d s).flash = s.flash := (scan_frame d d.numBc 0 0 s).1
  have hsame : IsLog d (scanned d s).flash k := by rwa [hflash]
  apply logReset_of_isLog hsame hopens (by rwa [hflash])
  · intro _ a _
    rw [hflash]
  · intro _ hne
    exact absurd hzero hne

theorem IsLog.reset_append (hlog : IsLog d s.flash k) (hopens : d.opens)
    (hk : k < d.numBc) :
    LogReset d k s (appended d k (scanned d s)) ↔
      (appended d k (scanned d s)).reach ≤ pageSize := by
  have hflash : (scanned d s).flash = s.flash := (scan_frame d d.numBc 0 0 s).1
  rw [← hflash] at hlog
  obtain ⟨hnext, hzero, -⟩ := hlog.append hk
  apply logReset_of_isLog hnext hopens hzero
  · intro _ a ha
    rw [appended_outside (.inl ha), hflash]
  · intro heq
    exact absurd heq (ne_of_lt hk)

theorem onlyNew_appended (hnum : 0 < d.numBc) : OnlyNew d (appended d 0 (memerase d s)).flash := by
  have hnew := ((isLog_memerase d s).append hnum).2.2
  rw [Nat.zero_mul] at hnew
  refine ⟨hnew.magic_eq, hnew.count_eq, hnew.words 2 (by decide), ?_⟩
  intro a hge hlt
  by_cases hslot : a < d.bcOffsetIncrement
  · have hrest := hnew.rest a hge hslot
    rwa [Nat.zero_add] at hrest
  · rw [appended_outside (.inr (by omega))]
    exact if_pos (by omega)

theorem reset_full (hopens : d.opens) (hk : k = d.numBc)
    (hne : lastCount d s.flash k ≠ 0) :
    LogReset d k s (appended d 0 (memerase d (scanned d s))) ↔
      (appended d 0 (memerase d (scanned d s))).reach ≤ pageSize := by
  have hnum : 0 < d.numBc := by
    rcases Nat.eq_zero_or_pos k with hzero | hpos
    · exact absurd (if_pos hzero) hne
    · omega
  obtain ⟨hlog, hzero, -⟩ := (isLog_memerase d (scanned d s)).append hnum
  apply logReset_of_isLog hlog hopens hzero
  · intro hor
    exact absurd hor (by omega)
  · intro _ _
    exact onlyNew_appended hnum

theorem appendRecord_eq (hret : (appendRecord d i s).1 = 0) :
    (appendRecord d i s).2 = appended d i s := by
  unfold appendRecord at hret ⊢
  cases hwrites : d.writes with
  | true => rfl
  | false => simp [hwrites] at hret

theorem reach_appended_le_iff (hreach : s.reach ≤ 16) :
    (appended d i s).reach ≤ pageSize ↔ d.writesize ≤ 2048 := by
  have hge := bcOffsetIncrement_ge d
  have hmax : (appended d i s).reach = d.bcOffsetIncrement := by
    change max s.reach d.bcOffsetIncrement = _
    omega
  rw [hmax]
  unfold Device.bcOffsetIncrement bcOffsetIncrementMin pageSize
  split <;> omega

/-- A call that returns 0 resets the log inside of `page` exactly if the device writes no more
than `page` at once, or the count is 0 already. -/
theorem logReset_iff (hlog : IsLog d s.flash k) (hfresh : s.reach = 0)
    (hret : (mtdResetbc d s).1 = 0) :
    LogReset d k s (mtdResetbc d s).2 ↔ d.writesize ≤ 2048 ∨ lastCount d s.flash k = 0 := by
  have hopens : d.opens = true := by
    by_contra hnot
    simp [mtdResetbc, hnot] at hret
  have hreach : (scanned d s).reach ≤ 12 := by
    have hframe := (scan_frame d d.numBc 0 0 s).2.2
    rwa [hfresh] at hframe
  rw [hlog.mtdResetbc_eq hopens] at hret ⊢
  by_cases hzero : lastCount d s.flash k = 0
  · rw [if_pos hzero, hlog.reset_idle hopens hzero]
    unfold pageSize
    omega
  · rw [if_neg hzero] at hret ⊢
    rw [or_iff_left hzero]
    by_cases hfull : k = d.numBc
    · rw [if_pos hfull] at hret ⊢
      cases herases : d.erases with
      | false => simp [herases] at hret
      | true =>
        simp only [herases, if_true] at hret ⊢
        have herased : (memerase d (scanned d s)).reach ≤ 16 := hreach.trans (by decide)
        rw [appendRecord_eq hret, reset_full hopens hfull hzero, reach_appended_le_iff herased]
    · rw [if_neg hfull] at hret ⊢
      rw [appendRecord_eq hret, hlog.reset_append hopens (lt_of_le_of_ne hlog.fits hfull),
        reach_appended_le_iff (hreach.trans (by decide))]

/-! ## Two partitions with one record -/

/-- A partition of two slots of `writesize` bytes on a little-endian host. -/
def twoSlots (writesize : Nat) : Device where
  size := 2 * writesize
  writesize := writesize
  big := false
  opens := true
  erases := true
  writes := true

def oneBoot : Buffer :=
  storeBytes (fun _ => 0xff) 0 ([bootcountMagic, 1, bootcountMagic + 1].flatMap (wordBytes false))

theorem bcOffsetIncrement_twoSlots (h : 16 ≤ writesize) :
    (twoSlots writesize).bcOffsetIncrement = writesize :=
  if_neg (not_lt.mpr h)

theorem numBc_twoSlots (h : 16 ≤ writesize) : (twoSlots writesize).numBc = 2 := by
  rw [Device.numBc, bcOffsetIncrement_twoSlots h]
  exact Nat.mul_div_cancel 2 (by omega)

theorem word_oneBoot : word false oneBoot 0 = bootcountMagic ∧ word false oneBoot 4 = 1 := by
  decide +kernel

theorem isLog_oneBoot (h : 16 ≤ writesize) : IsLog (twoSlots writesize) oneBoot 1 := by
  refine ⟨?_, ?_, ?_⟩
  · rw [numBc_twoSlots h]
    decide
  · intro i hi
    obtain rfl : i = 0 := by omega
    rw [Nat.zero_mul]
    exact word_oneBoot.1
  · intro a hge _
    rw [bcOffsetIncrement_twoSlots h] at hge
    exact storeBytes_outside (.inr (by simp; omega))

theorem mtdResetbc_oneBoot (h : 16 ≤ writesize) :
    mtdResetbc (twoSlots writesize) (.start oneBoot fun _ => 0) =
      (0, appended (twoSlots writesize) 1
        (scanned (twoSlots writesize) (.start oneBoot fun _ => 0))) := by
  have hlog : IsLog (twoSlots writesize) (State.start oneBoot fun _ => 0).flash 1 :=
    isLog_oneBoot h
  have hcount : lastCount (twoSlots writesize) (State.start oneBoot fun _ => 0).flash 1 = 1 := by
    rw [lastCount, Nat.zero_mul]
    exact word_oneBoot.2
  rw [hlog.mtdResetbc_eq rfl, hcount, numBc_twoSlots h]
  rfl

theorem logReset_small_page :
    IsLog (twoSlots 2048) oneBoot 1 ∧ LogReset (twoSlots 2048) 1 (.start oneBoot fun _ => 0)
      (mtdResetbc (twoSlots 2048) (.start oneBoot fun _ => 0)).2 := by
  have hlog : IsLog (twoSlots 2048) oneBoot 1 := isLog_oneBoot (by decide)
  have hret : (mtdResetbc (twoSlots 2048) (.start oneBoot fun _ => 0)).1 = 0 := by
    rw [mtdResetbc_oneBoot (by decide)]
  exact ⟨hlog, (logReset_iff hlog rfl hret).mpr (.inl (le_refl 2048))⟩

/-- NAND with pages of 4096 bytes: the call returns 0 and has set the memory behind `page`. -/
theorem not_logReset_large_page :
    IsLog (twoSlots 4096) oneBoot 1 ∧
      (mtdResetbc (twoSlots 4096) (.start oneBoot fun _ => 0)).1 = 0 ∧
      (mtdResetbc (twoSlots 4096) (.start oneBoot fun _ => 0)).2.page 2048 = 0xff ∧
      ¬LogReset (twoSlots 4096) 1 (.start oneBoot fun _ => 0)
        (mtdResetbc (twoSlots 4096) (.start oneBoot fun _ => 0)).2 := by
  have hinc : (twoSlots 4096).bcOffsetIncrement = 4096 := bcOffsetIncrement_twoSlots (by decide)
  refine ⟨isLog_oneBoot (by decide), ?_⟩
  rw [mtdResetbc_oneBoot (by decide)]
  refine ⟨rfl, ?_, ?_⟩
  · simp only [appended, pwrite, buildRecord]
    rw [storeBytes_outside (.inr (by decide)), memset_inside (by decide)]
  · intro hreset
    have hpage := hreset.inPage
    simp only [appended, pwrite, buildRecord, pageSize] at hpage
    omega

end OpenWrt.Mtd.Bootcount
