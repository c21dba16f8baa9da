import OpenWrt.SoftConfig.Driver

/-!
# What a commit leaves on flash

The CRC is computed over the buffer as it is, so a commit is valid if it enters its locked
part with a CRC field of zero and nobody clears the field until the buffer is written.  The
test was made before the lock was taken again, so a second commit may get there first.
-/

namespace OpenWrt.SoftConfig

open Lib

variable {c : Config} {s : State} {buf buf' : Buffer}

/-! ## The CRC field -/

theorem getCrc_setCrc {crc : Nat} (h : crc < 4294967296) : getCrc c (setCrc c crc buf) = crc :=
  word_storeBytes c.big buf RB_SC_CRC32_OFFSET h

theorem getCrc_clrCrc : getCrc c (clrCrc c buf) = 0 := getCrc_setCrc (by decide)

theorem clrCrc_setCrc (crc : Nat) : clrCrc c (setCrc c crc buf) = clrCrc c buf := by
  funext a
  simp only [clrCrc, setCrc, storeBytes, length_wordBytes]
  split <;> rfl

theorem bytes_of_word_eq_zero {big : Bool} {off : Nat} (h : word big buf off = 0) :
    ∀ i < 4, buf (off + i) = 0 := by
  have hzero : ∀ x : UInt8, x.toNat = 0 → x = 0 := fun x hx => UInt8.toNat_inj.mp hx
  intro i hi
  cases big
  · simp only [word, Bool.false_eq_true, if_false] at h
    have : i = 0 ∨ i = 1 ∨ i = 2 ∨ i = 3 := by omega
    rcases this with rfl | rfl | rfl | rfl
    all_goals
      apply hzero
      omega
  · simp only [word, if_true] at h
    have : i = 3 - 0 ∨ i = 3 - 1 ∨ i = 3 - 2 ∨ i = 3 - 3 := by omega
    rcases this with rfl | rfl | rfl | rfl
    all_goals
      apply hzero
      omega

theorem clrCrc_of_zero (h : getCrc c buf = 0) : clrCrc c buf = buf := by
  have hbytes := bytes_of_word_eq_zero h
  funext a
  simp only [clrCrc, setCrc, storeBytes, length_wordBytes]
  split
  · rename_i hin
    have hget : (wordBytes c.big 0).getD (a - RB_SC_CRC32_OFFSET) 0 = 0 := by
      have hlt : a - RB_SC_CRC32_OFFSET < 4 := by omega
      generalize a - RB_SC_CRC32_OFFSET = i at hlt
      cases c.big
      all_goals
        have : i = 0 ∨ i = 1 ∨ i = 2 ∨ i = 3 := by omega
        rcases this with rfl | rfl | rfl | rfl <;> rfl
    have hbyte := hbytes (a - RB_SC_CRC32_OFFSET) (by omega)
    rw [Nat.add_sub_cancel' hin.1] at hbyte
    rw [hget, hbyte]
  · rfl

theorem bufferCrc_lt : bufferCrc c buf < 4294967296 := BitVec.isLt _

theorem crcValid_setCrc (h : getCrc c buf = 0) : CrcValid c (setCrc c (bufferCrc c buf) buf) := by
  rw [CrcValid, getCrc_setCrc bufferCrc_lt, clrCrc_setCrc, clrCrc_of_zero h]

theorem CrcValid.congr (h : CrcValid c buf)
    (heq : slice buf 0 c.buflen = slice buf' 0 c.buflen) : CrcValid c buf' := by
  have hbyte : ∀ a < c.buflen, buf a = buf' a := by
    intro a ha
    simpa using eq_of_slice_eq heq ha
  have hcrc : getCrc c buf = getCrc c buf' := by
    apply word_congr
    intro i hi
    have := c.header_le
    exact hbyte _ (by simp only [RB_SC_CRC32_OFFSET]; omega)
  have hslice : slice (clrCrc c buf) 0 c.buflen = slice (clrCrc c buf') 0 c.buflen := by
    apply slice_congr
    intro a ha
    simp only [clrCrc, setCrc, storeBytes, Nat.zero_add]
    split
    · rfl
    · exact hbyte a ha
  unfold CrcValid at h ⊢
  rw [← hcrc, h]
  unfold bufferCrc
  rw [hslice]

theorem slice_memcpy (b src : Buffer) (n : Nat) :
    slice (memcpy b 0 src 0 n) 0 n = slice src 0 n := by
  apply slice_congr
  intro i hi
  rw [memcpy_inside (by omega)]
  simp

/-! ## The invariant -/

/-- The locked part of a commit starts with a CRC field of zero, and a failed commit clears
the field while nobody holds the lock. -/
def FlushesZero (c : Config) (s : State) : Op → Prop
  | .erase _ _ => getCrc c s.buf = 0
  | .fail _ => s.lock = none
  | _ => True

structure Inv (c : Config) (s : State) : Prop where
  flushing : s.lock ≠ none → CrcValid c s.buf
  written : s.written = true → CrcValid c s.flash
  clean : s.lock = none → (∀ t, s.pc t ≠ .failed) → getCrc c s.buf ≠ 0 →
    slice s.buf 0 c.buflen = slice s.flash 0 c.buflen

theorem Inv.start (hs : Start c s) : Inv c s where
  flushing := fun hlock => absurd hs.lock hlock
  written := fun hf => absurd (hs.written.symm.trans hf) (by decide)
  clean := fun _ _ _ => hs.buf

theorem not_failed_of_update {pc : Nat → Pc} {t : Nat} {p : Pc} (ht : pc t ≠ .failed)
    (h : ∀ t', Function.update pc t p t' ≠ .failed) (t' : Nat) : pc t' ≠ .failed := by
  by_cases heq : t' = t
  · rw [heq]
    exact ht
  · have := h t'
    rwa [Function.update_of_ne heq] at this

theorem failed_update (pc : Nat → Pc) (t : Nat) :
    ¬∀ t', Function.update pc t .failed t' ≠ .failed :=
  fun h => h t (Function.update_self t Pc.failed pc)

theorem Inv.step (h : Inv c s) (op : Op) (hlegal : op.Legal c s) (hok : FlushesZero c s op) :
    Inv c (op.run c s) := by
  cases op with
  | store ofs val =>
    refine ⟨fun hlock => absurd hlegal.1 hlock, h.written, fun _ _ hcrc => ?_⟩
    exact absurd getCrc_clrCrc hcrc
  | test t flush =>
    simp only [Op.run]
    split
    · exact h
    · refine ⟨h.flushing, h.written, fun hlock hfailed hcrc => ?_⟩
      refine h.clean hlock (not_failed_of_update ?_ hfailed) hcrc
      rw [hlegal.2]
      exact fun hf => by cases hf
  | reread t err =>
    cases err with
    | none =>
      refine ⟨fun hlock => absurd hlegal.1 hlock, h.written, fun _ _ _ => ?_⟩
      exact slice_memcpy _ _ _
    | some err =>
      exact ⟨fun hlock => absurd hlegal.1 hlock, h.written, fun _ hfailed =>
        absurd hfailed (failed_update s.pc t)⟩
  | erase t err =>
    cases err with
    | none =>
      exact ⟨fun _ => crcValid_setCrc hok, fun hf => (by cases hf), fun hf => (by cases hf)⟩
    | some err =>
      exact ⟨fun hlock => absurd hlegal.1 hlock, fun hf => (by cases hf), fun _ hfailed =>
        absurd hfailed (failed_update s.pc t)⟩
  | write t err =>
    have hbuf : CrcValid c s.buf := h.flushing (by rw [hlegal.1]; exact fun hf => by cases hf)
    cases err with
    | none =>
      have heq : slice s.buf 0 c.buflen = slice (program c s) 0 c.buflen :=
        (slice_memcpy _ _ _).symm
      exact ⟨fun hlock => absurd rfl hlock, fun _ => hbuf.congr heq, fun _ _ _ => heq⟩
    | some err =>
      exact ⟨fun hlock => absurd rfl hlock, fun hf => (by cases hf), fun _ hfailed =>
        absurd hfailed (failed_update s.pc t)⟩
  | fail t =>
    refine ⟨fun hlock => absurd hok hlock, h.written, fun _ _ hcrc => ?_⟩
    exact absurd getCrc_clrCrc hcrc

/-- With the condition, what was written without error is valid, and while no failed commit
is on its way to clear the field, a clean buffer equals the flash. -/
theorem commits_valid (hs : Reached c (FlushesZero c) s) :
    (s.written = true → CrcValid c s.flash) ∧
      (s.lock = none → (∀ t, s.pc t ≠ .failed) → commitShow c s = "clean\n" →
        slice s.buf 0 c.buflen = slice s.flash 0 c.buflen) := by
  have hinv : Inv c s := by
    induction hs with
    | start hs => exact .start hs
    | step op _ hlegal hok ih => exact ih.step op hlegal hok
  refine ⟨hinv.written, fun hlock hfailed hshow => hinv.clean hlock hfailed fun hcrc => ?_⟩
  rw [commitShow, if_neg (not_not.mpr hcrc)] at hshow
  exact absurd hshow (by decide)

/-! ## Two commits -/

def oneTag : Config := ⟨false, 12, by decide⟩

def oneTagStart : State :=
  ⟨fun a => if a = 4 then 1 else 0, fun a => if a = 4 then 1 else 0, fun _ => .idle, none, false⟩

theorem oneTagStart_start : Start oneTag oneTagStart :=
  ⟨rfl, fun _ => rfl, rfl, rfl⟩

theorem stored_reached (ok : State → Op → Prop) (hstore : ∀ s ofs val, ok s (.store ofs val))
    (htest : ∀ s t flush, ok s (.test t flush)) :
    Reached oneTag ok ((Op.test 0 true).run oneTag ((Op.store 8 1).run oneTag oneTagStart)) := by
  have h0 : Reached oneTag ok oneTagStart := .start oneTagStart_start
  have h1 := h0.step (.store 8 1) ⟨rfl, by decide, by decide⟩ (hstore _ _ _)
  exact h1.step (.test 0 true) ⟨rfl, rfl⟩ (htest _ _ _)

theorem commits_valid_oneTag :
    ∃ s, Reached oneTag (FlushesZero oneTag) s ∧ s.written = true ∧ CrcValid oneTag s.flash := by
  have h2 := stored_reached (FlushesZero oneTag) (fun _ _ _ => trivial) fun _ _ _ => trivial
  have h3 := h2.step (.erase 0 none) ⟨by decide, by decide⟩ (show getCrc oneTag _ = 0 by decide)
  have h4 := h3.step (.write 0 none) ⟨by decide, by decide⟩ trivial
  exact ⟨_, h4, rfl, (commits_valid h4).1 rfl⟩

/-- A second client tests the field before the first one has set it, and then takes the
CRC over a buffer that holds the first one's CRC. -/
theorem second_commit_invalid :
    ∃ s, Reached oneTag (fun _ _ => True) s ∧ s.written = true ∧ ¬CrcValid oneTag s.flash := by
  have h2 := stored_reached (fun _ _ => True) (fun _ _ _ => trivial) fun _ _ _ => trivial
  have h3 := h2.step (.test 1 true) ⟨by decide, by decide⟩ trivial
  have h4 := h3.step (.erase 0 none) ⟨by decide, by decide⟩ trivial
  have h5 := h4.step (.write 0 none) ⟨by decide, by decide⟩ trivial
  have h6 := h5.step (.erase 1 none) ⟨by decide, by decide⟩ trivial
  have h7 := h6.step (.write 1 none) ⟨by decide, by decide⟩ trivial
  refine ⟨_, h7, rfl, ?_⟩
  unfold CrcValid
  decide +kernel

end OpenWrt.SoftConfig
