import OpenWrt.Mtd.Imagetag
import OpenWrt.Mtd.Proofs.Repair

/-!
# An image tag is repaired if it is in the block that is read

The stores to the tag leave everything that names kernel and image, so its checksums are
right afterwards exactly if the kernel's was right before.
-/

namespace OpenWrt.Mtd.Imagetag

open Lib OpenWrt.Mtd.Repair List

variable {c : Call} {flash b b' : Buffer} {big : Bool} {off : Nat} {s : FlashState}
  {erases writes : Bool}
variable {n start es j : Nat} {str : List UInt8}

/-! ## The stores to the tag -/

theorem tag_offsets : totalLength = 62 ∧ cfeLength = 84 ∧ rootLength = 106 ∧ kernelLength = 128 ∧
    fskernelCrc = 196 ∧ imageCrc = 216 ∧ rootfsCrc = 220 ∧ kernelCrc = 224 ∧ headerCrc = 236 ∧
    imageLen = 10 ∧ tagSize = 256 := by decide

theorem length_padded (h : str.length ≤ n) : (padded n str).length = n := by
  rw [padded, length_append, length_replicate]
  omega

theorem length_takeWhile_slice (b : Buffer) (off n : Nat) :
    ((slice b off n).takeWhile (· ≠ 0)).length ≤ n := by
  have hle := (takeWhile_sublist (fun x : UInt8 => decide (x ≠ 0)) (l := slice b off n)).length_le
  rwa [length_slice] at hle

theorem length_totalLength (b : Buffer) (off : Nat) :
    (padded imageLen ((slice b (off + kernelLength) imageLen).takeWhile (· ≠ 0))).length = 10 :=
  length_padded (length_takeWhile_slice _ _ _)

def fixFields (big : Bool) (b : Buffer) (off : Nat) : Buffer :=
  let b := storeBytes b (off + rootLength) [48, 0]
  let b := storeBytes b (off + totalLength)
    (padded imageLen ((slice b (off + kernelLength) imageLen).takeWhile (· ≠ 0)))
  let b := storeBytes b (off + imageCrc) (slice b (off + kernelCrc) 4)
  let b := storeBytes b (off + fskernelCrc) (slice b (off + kernelCrc) 4)
  storeBytes b (off + rootfsCrc) (wordBytes big 0xffffffff)

theorem fixFields_outside {a : Nat}
    (h : a < off + 62 ∨ (off + 72 ≤ a ∧ a < off + 106) ∨ (off + 108 ≤ a ∧ a < off + 196) ∨
      (off + 200 ≤ a ∧ a < off + 216) ∨ off + 224 ≤ a) : fixFields big b off a = b a := by
  simp only [fixFields]
  have hconst := tag_offsets
  rw [storeBytes_outside (by rw [length_wordBytes]; omega),
    storeBytes_outside (by rw [length_slice]; omega),
    storeBytes_outside (by rw [length_slice]; omega),
    storeBytes_outside (by rw [length_totalLength]; omega),
    storeBytes_outside (by simp only [length_cons, length_nil]; omega)]

theorem fixTag_outside {a : Nat}
    (h : a < off + 62 ∨ (off + 72 ≤ a ∧ a < off + 106) ∨ (off + 108 ≤ a ∧ a < off + 196) ∨
      (off + 200 ≤ a ∧ a < off + 216) ∨ (off + 224 ≤ a ∧ a < off + 236) ∨ off + 240 ≤ a) :
    fixTag big b off a = b a := by
  refine (storeBytes_outside (by rw [length_wordBytes]; unfold headerCrc; omega)).trans ?_
  exact fixFields_outside (by omega)

theorem slice_fixTag (h : (72 ≤ start ∧ start + n ≤ 106) ∨ (108 ≤ start ∧ start + n ≤ 196) ∨
      (224 ≤ start ∧ start + n ≤ 236)) :
    slice (fixTag big b off) (off + start) n = slice b (off + start) n := by
  apply slice_congr
  intro i hi
  exact fixTag_outside (by omega)

theorem headerCrc_fixTag (big : Bool) (b : Buffer) (off : Nat) :
    word big (fixTag big b off) (off + headerCrc) =
      crc32buf (slice (fixTag big b off) off headerCrc) := by
  have hslice : slice (fixTag big b off) off headerCrc =
      slice (fixFields big b off) off headerCrc := by
    exact slice_storeBytes_outside (.inl le_rfl)
  rw [hslice]
  exact word_storeBytes big _ _ (BitVec.isLt _)

theorem slice_fixTag_totalLength (big : Bool) (b : Buffer) (off : Nat) :
    slice (fixTag big b off) (off + totalLength) imageLen =
      padded imageLen ((slice b (off + kernelLength) imageLen).takeWhile (· ≠ 0)) := by
  have hkernel : slice (storeBytes b (off + rootLength) [48, 0]) (off + kernelLength) imageLen =
      slice b (off + kernelLength) imageLen := by
    apply slice_storeBytes_outside
    simp only [length_cons, length_nil, rootLength, kernelLength]
    omega
  have hstore := slice_storeBytes (storeBytes b (off + rootLength) [48, 0]) (off + totalLength)
    (padded imageLen ((slice b (off + kernelLength) imageLen).takeWhile (· ≠ 0)))
  rw [length_totalLength] at hstore
  simp only [fixTag, hkernel]
  have hconst := tag_offsets
  rw [slice_storeBytes_outside (.inl (by omega)), slice_storeBytes_outside (.inl (by omega)),
    slice_storeBytes_outside (.inl (by omega)), slice_storeBytes_outside (.inl (by omega))]
  exact hstore

theorem slice_fixTag_rootLength (big : Bool) (b : Buffer) (off : Nat) :
    slice (fixTag big b off) (off + rootLength) 2 = [48, 0] := by
  have hconst := tag_offsets
  simp only [fixTag]
  rw [slice_storeBytes_outside (.inl (by omega)), slice_storeBytes_outside (.inl (by omega)),
    slice_storeBytes_outside (.inl (by omega)), slice_storeBytes_outside (.inl (by omega)),
    slice_storeBytes_outside (.inr (by rw [length_totalLength]; omega))]
  exact slice_storeBytes b (off + rootLength) [48, 0]

theorem imageCrc_fixTag (big : Bool) (b : Buffer) (off : Nat) :
    word big (fixTag big b off) (off + imageCrc) = word big b (off + kernelCrc) := by
  have hconst := tag_offsets
  apply word_congr
  intro i hi
  simp only [fixTag]
  rw [storeBytes_outside (.inl (by omega)), storeBytes_outside (.inl (by omega)),
    storeBytes_outside (.inr (by rw [length_slice]; omega)),
      storeBytes_inside (by rwa [length_slice]),
    getD_slice hi, storeBytes_outside (.inr (by rw [length_totalLength]; omega)),
    storeBytes_outside (.inr (by simp only [length_cons, length_nil]; omega))]

/-! ## Strings -/

theorem takeWhile_padded (h : ∀ x ∈ str, x ≠ 0) : (padded n str).takeWhile (· ≠ 0) = str := by
  rw [padded, takeWhile_append_of_pos (by simpa using h)]
  cases n - str.length with
  | zero => simp
  | succ m => simp [replicate_succ]

theorem readString_eq (h : off + n ≤ es) :
    readString es b off n = .ok ((slice b off n).takeWhile (· ≠ 0)) := by
  induction n generalizing off with
  | zero => rfl
  | succ n ih =>
    rw [readString, if_neg (by omega), slice_succ]
    by_cases hzero : b off = 0
    · rw [if_pos hzero, takeWhile_cons_of_neg (by simp [hzero])]
    · rw [if_neg hzero, ih (by omega), takeWhile_cons_of_pos (by simp [hzero])]
      rfl

theorem number_totalLength (c : Call) (flash : Buffer) :
    c.number (fixTag c.big flash c.offset) totalLength imageLen =
      c.number flash kernelLength imageLen := by
  rw [Call.number, slice_fixTag_totalLength,
    takeWhile_padded fun x hx => by simpa using mem_takeWhile_imp hx]
  rfl

theorem number_rootLength (c : Call) (flash : Buffer) :
    c.number (fixTag c.big flash c.offset) rootLength imageLen = 0 := by
  have hstr : (slice (fixTag c.big flash c.offset) (c.offset + rootLength) (2 + 8)).takeWhile
    (· ≠ 0)
      = [48] := by
    rw [slice_append, slice_fixTag_rootLength]
    rfl
  have hzero : strtoul c.w [48] = 0 := by
    have hpos : ¬2 ^ c.w ≤ 0 := not_le.mpr (Nat.two_pow_pos _)
    exact if_neg hpos
  rw [Call.number, imageLen, hstr, strntoul, hzero]

theorem number_fixTag (c : Call) (flash : Buffer) {field : Nat}
    (h : (72 ≤ field ∧ field + n ≤ 106) ∨ (108 ≤ field ∧ field + n ≤ 196)) :
    c.number (fixTag c.big flash c.offset) field n = c.number flash field n := by
  rw [Call.number, slice_fixTag (by omega)]
  rfl

theorem kernelCrc_fixTag (c : Call) (flash : Buffer) :
    c.crc (fixTag c.big flash c.offset) kernelCrc = c.crc flash kernelCrc := by
  apply word_congr
  intro i hi
  exact fixTag_outside (by unfold kernelCrc; omega)

theorem dataMatches_fixTag (position : Nat → Nat) :
    c.DataMatches position (fixTag c.big flash c.offset) ↔
      c.crc flash kernelCrc =
        crc32buf (slice (fixTag c.big flash c.offset)
          (position (c.number flash kernelAddress addressLen))
          (c.number flash kernelLength imageLen)) ∧
      c.crc flash kernelCrc =
        crc32buf (slice (fixTag c.big flash c.offset)
          (position (c.number flash flashImageStart addressLen))
          (c.number flash kernelLength imageLen)) := by
  have haddress : c.number (fixTag c.big flash c.offset) kernelAddress addressLen =
      c.number flash kernelAddress addressLen := number_fixTag c flash (by decide)
  have hlength : c.number (fixTag c.big flash c.offset) kernelLength imageLen =
      c.number flash kernelLength imageLen := number_fixTag c flash (by decide)
  have hstart : c.number (fixTag c.big flash c.offset) flashImageStart addressLen =
      c.number flash flashImageStart addressLen := number_fixTag c flash (by decide)
  have himage : c.crc (fixTag c.big flash c.offset) imageCrc = c.crc flash kernelCrc :=
    imageCrc_fixTag c.big flash c.offset
  constructor
  · rintro ⟨hkernel, himage', -⟩
    rw [kernelCrc_fixTag, Call.dataCrc, haddress, hlength] at hkernel
    rw [himage, Call.dataCrc, hstart, number_totalLength] at himage'
    exact ⟨hkernel, himage'⟩
  · rintro ⟨hkernel, himage'⟩
    refine ⟨?_, ?_, ?_⟩
    · rw [kernelCrc_fixTag, Call.dataCrc, haddress, hlength]
      exact hkernel
    · rw [himage, Call.dataCrc, hstart, number_totalLength]
      exact himage'
    · rw [number_totalLength, number_rootLength, hlength, add_zero]

/-! ## The block in memory -/

def Window (b b' : Buffer) (j es : Nat) : Prop := ∀ i < es, b i = b' (j + i)

theorem Window.store (h : Window b b' j es) (pos : Nat) (bs : List UInt8) :
    Window (storeBytes b pos bs) (storeBytes b' (j + pos) bs) j es :=
  fun i hi => storeBytes_window (h i hi)

theorem Window.slice_eq {pos : Nat} (h : Window b b' j es) (hn : pos + n ≤ es) :
    slice b pos n = slice b' (j + pos) n := by
  apply slice_congr
  intro i hi
  rw [h (pos + i) (by omega), add_assoc]

theorem Window.word_eq {pos : Nat} (h : Window b b' j es) (hn : pos + 4 ≤ es) :
    word big b pos = word big b' (j + pos) := by
  apply word_congr
  intro i hi
  rw [h (pos + i) (by omega), add_assoc]

theorem Window.copy (h : Window b b' j es) (pos : Nat)
    (f : List UInt8 → List UInt8) (hn : start + n ≤ es) :
    Window (storeBytes b pos (f (slice b start n)))
      (storeBytes b' (j + pos) (f (slice b' (j + start) n))) j es := by
  rw [← h.slice_eq hn]
  exact h.store pos _

theorem Window.fixTag (h : Window b b' j es) (hfits : off + 240 ≤ es) :
    Window (fixTag big b off) (Imagetag.fixTag big b' (j + off)) j es := by
  have hconst := tag_offsets
  simp only [Imagetag.fixTag, add_assoc j off]
  have hroot := h.store (off + rootLength) [48, 0]
  have htotal := hroot.copy (off + totalLength) (n := imageLen)
    (fun str => padded imageLen (str.takeWhile (· ≠ 0))) (by omega : off + kernelLength + _ ≤ es)
  have himage := htotal.copy (off + imageCrc) (n := 4) id (by omega : off + kernelCrc + _ ≤ es)
  have hfskernel := himage.copy (off + fskernelCrc) (n := 4) id
    (by omega : off + kernelCrc + _ ≤ es)
  have hrootfs := hfskernel.store (off + rootfsCrc) (wordBytes big 0xffffffff)
  exact hrootfs.copy (off + headerCrc) (fun header => wordBytes big (crc32buf header))
    (by omega : off + headerCrc ≤ es)

/-! ## The call -/

theorem Call.off_eq (c : Call) (h : c.offset < 2 ^ 31) :
    c.offset - blockOf c.w c.erasesizeBefore c.offset = c.off ∧
      blockOf c.w c.erasesizeBefore c.offset + c.off = c.offset := by
  have hw : 2 ^ 32 ≤ 2 ^ c.w := Nat.pow_le_pow_right (by decide) c.wide
  have hlt : c.offset < 2 ^ c.w := by omega
  rcases c.before with hzero | ⟨k, hk, hpow⟩
  · have hblock : blockOf c.w c.erasesizeBefore c.offset = 0 := by
      rw [hzero, blockOf, Nat.sub_zero, Nat.and_two_pow, Nat.testBit_lt_two_pow hlt]
      exact zero_mul _
    rw [Call.off, if_pos hzero]
    omega
  · have hwide := c.wide
    have hpos : c.erasesizeBefore ≠ 0 := by
      rw [hpow]
      exact ne_of_gt (Nat.two_pow_pos k)
    have hblock : blockOf c.w c.erasesizeBefore c.offset =
        c.offset / c.erasesizeBefore * c.erasesizeBefore := by
      rw [hpow]
      exact blockOf_eq (by omega) hlt
    have hdiv := Nat.div_add_mod c.offset c.erasesizeBefore
    rw [mul_comm] at hdiv
    rw [Call.off, if_neg hpos]
    omega

theorem Call.off_fits (c : Call) (hinside : c.offset % c.dev.erasesize + tagSize ≤ c.dev.erasesize)
    (hoff : c.off < c.dev.erasesize) : c.off + tagSize ≤ c.dev.erasesize := by
  have hle : c.off ≤ c.offset % c.dev.erasesize := by
    unfold Call.off at hoff ⊢
    split at hoff
    · rename_i hzero
      rw [if_pos hzero, Nat.mod_eq_of_lt hoff]
    rename_i hpos
    rw [if_neg hpos]
    rcases c.before with hzero | ⟨k, -, hpow⟩
    · exact absurd hzero hpos
    rcases Nat.le_total k c.eraseBits with hk | hk
    · have hdvd : c.erasesizeBefore ∣ c.dev.erasesize := by
        rw [hpow, c.erasesize_eq]
        exact Nat.pow_dvd_pow 2 hk
      rw [← Nat.mod_mod_of_dvd c.offset hdvd]
      exact Nat.mod_le _ _
    · have hdvd : c.dev.erasesize ∣ c.erasesizeBefore := by
        rw [hpow, c.erasesize_eq]
        exact Nat.pow_dvd_pow 2 hk
      rw [← Nat.mod_mod_of_dvd c.offset hdvd, Nat.mod_eq_of_lt hoff]
  omega

def Call.buf (c : Call) (flash : Buffer) : Buffer :=
  fun i => (slice flash c.blockOffset c.dev.erasesize).getD i 0

theorem Call.exit_of_not_starts (h : ¬c.Starts) : mtdFixtrx c erases writes s = .error .exit := by
  by_cases hopens : c.opens = false
  · exact if_pos hopens
  · by_cases hblock : c.dev.mtdsize < c.blockOffset + c.dev.erasesize
    · exact (if_neg hopens).trans (if_pos hblock)
    · by_cases hmallocs : c.mallocs = false
      · exact (if_neg hopens).trans ((if_neg hblock).trans (if_pos hmallocs))
      · exact absurd ⟨by simpa using hopens, by simpa using hmallocs, not_lt.mp hblock⟩ h

theorem Call.Starts.mtdFixtrx_eq (h : c.Starts) (hoff : c.offset < 2 ^ 31) :
    mtdFixtrx c erases writes s =
      fixBlock c erases writes c.blockOffset c.off (c.buf s.flash) s := by
  obtain ⟨hopens, hmallocs, hblock⟩ := h
  have hread : pread c.dev s.flash c.dev.erasesize c.blockOffset =
      .ok (slice s.flash c.blockOffset c.dev.erasesize) := if_pos hblock
  have heq : c.offset - c.blockOffset = c.off := (c.off_eq hoff).1
  change (if c.opens = false then _ else if c.dev.mtdsize < c.blockOffset + c.dev.erasesize then _
    else if c.mallocs = false then _ else (pread c.dev s.flash c.dev.erasesize c.blockOffset).bind
      fun data => fixBlock c erases writes c.blockOffset (c.offset - c.blockOffset)
        (fun i => data.getD i 0) s) = _
  rw [hopens, hmallocs, if_neg (not_lt.mpr hblock), hread, heq]
  rfl

theorem fixBlock_overrun {blockOffset : Nat} (h : c.dev.erasesize ≤ off) :
    fixBlock c erases writes blockOffset off b s = .error .overrun := by
  have hread : readString c.dev.erasesize b (off + cfeLength) imageLen = .error .overrun :=
    if_pos (h.trans (Nat.le_add_right _ _))
  rw [fixBlock, hread]
  rfl

theorem Call.fixBlock_eq (hoff : c.offset < 2 ^ 31) (hfits : c.off + tagSize ≤ c.dev.erasesize)
    (hblock : c.blockOffset + c.dev.erasesize ≤ c.dev.mtdsize) :
    fixBlock c erases writes c.blockOffset c.off (c.buf s.flash) s =
      if c.number s.flash cfeLength imageLen ≠ 0 then .error .exit
      else if crc32buf (slice s.flash c.off headerCrc) ≠ c.crc s.flash headerCrc then .error .exit
      else if c.number s.flash rootLength imageLen = 0 then .ok s
      else if erases = false then .error .exit
      else if writes = false then .error .exit
      else .ok ⟨fixTag c.big s.flash c.offset,
        s.ops ++ [.erase c.blockOffset, .program c.blockOffset c.dev.erasesize]⟩ := by
  have hoffset : c.blockOffset + c.off = c.offset := (c.off_eq hoff).2
  have hconst := tag_offsets
  have hwindow : Window (c.buf s.flash) s.flash c.blockOffset c.dev.erasesize :=
    fun _ hi => getD_slice hi
  have hstring (field : Nat) (hfield : field ≤ 106) :
      readString c.dev.erasesize (c.buf s.flash) (c.off + field) imageLen =
        .ok ((slice s.flash (c.offset + field) imageLen).takeWhile (· ≠ 0)) := by
    rw [readString_eq (by omega), hwindow.slice_eq (by omega), ← add_assoc, hoffset]
  have hcrc : computeCrc32 c.dev s.flash (headerCrc + 1) 0xffffffff c.off headerCrc =
      some (crc32 0xffffffff (slice s.flash c.off headerCrc)) := by
    rw [computeCrc32, if_neg (by decide), min_eq_left (by omega)]
  have hfield : field c.dev.erasesize c.big (c.buf s.flash) (c.off + headerCrc) =
      .ok (c.crc s.flash headerCrc) := by
    rw [field_ok (by omega), hwindow.word_eq (by omega), ← add_assoc, hoffset]
    rfl
  have htag : Window (fixTag c.big (c.buf s.flash) c.off) (fixTag c.big s.flash c.offset)
      c.blockOffset c.dev.erasesize := by
    rw [← hoffset]
    exact hwindow.fixTag (by omega)
  have hrewrite : programRange (eraseRange s.flash c.blockOffset c.dev.erasesize) c.blockOffset
      (slice (fixTag c.big (c.buf s.flash) c.off) 0 c.dev.erasesize) =
      fixTag c.big s.flash c.offset := by
    apply program_erased htag
    intro a ha
    exact fixTag_outside (by omega)
  have hnumber : ∀ field, strntoul c.w
      ((slice s.flash (c.offset + field) imageLen).takeWhile (· ≠ 0)) =
      c.number s.flash field imageLen := fun _ => rfl
  have hbuf : ∀ bytes, (crc32 0xffffffff bytes).toNat = crc32buf bytes := fun _ => rfl
  simp only [fixBlock, hstring cfeLength (by decide), hstring rootLength le_rfl, hcrc, hfield,
    rewrite, hrewrite, hnumber, hbuf, bind, Except.bind, pure, Except.pure]

/-! ## The repair -/

theorem Call.exit_of_givesUp (h : c.Starts) (hoff : c.offset < 2 ^ 31)
    (hfits : c.off + tagSize ≤ c.dev.erasesize) (hup : c.GivesUp erases writes s.flash) :
    mtdFixtrx c erases writes s = .error .exit := by
  rw [h.mtdFixtrx_eq hoff, c.fixBlock_eq hoff hfits h.block]
  by_cases hcfe : c.number s.flash cfeLength imageLen ≠ 0
  · exact if_pos hcfe
  by_cases hcrc : crc32buf (slice s.flash c.off headerCrc) ≠ c.crc s.flash headerCrc
  · exact (if_neg hcfe).trans (if_pos hcrc)
  obtain hup | hup | ⟨hroot, hdevice⟩ := hup
  · exact absurd hup hcfe
  · exact absurd hup hcrc
  · rw [if_neg hcfe, if_neg hcrc, if_neg hroot]
    cases erases with
    | false => rfl
    | true =>
      cases writes with
      | false => rfl
      | true => simp at hdevice

theorem Call.ok_of_not_givesUp (h : c.Starts) (hoff : c.offset < 2 ^ 31)
    (hfits : c.off + tagSize ≤ c.dev.erasesize) (hup : ¬c.GivesUp erases writes s.flash) :
    ∃ ops, mtdFixtrx c erases writes s =
      .ok ⟨if c.number s.flash rootLength imageLen = 0 then s.flash
        else fixTag c.big s.flash c.offset, ops⟩ := by
  obtain ⟨hcfe, hup⟩ := not_or.mp hup
  obtain ⟨hcrc, hdevice⟩ := not_or.mp hup
  rw [h.mtdFixtrx_eq hoff, c.fixBlock_eq hoff hfits h.block, if_neg hcfe, if_neg hcrc]
  by_cases hroot : c.number s.flash rootLength imageLen = 0
  · rw [if_pos hroot, if_pos hroot]
    exact ⟨s.ops, rfl⟩
  · rw [if_neg hroot, if_neg hroot]
    obtain ⟨herases, hwrites⟩ := not_or.mp (not_and.mp hdevice hroot)
    rw [if_neg herases, if_neg hwrites]
    exact ⟨_, rfl⟩

theorem dataMatches_iff (position : Nat → Nat) :
    c.DataMatches position (if c.number flash rootLength imageLen = 0 then flash
        else fixTag c.big flash c.offset) ↔ c.DataRight position flash := by
  by_cases hroot : c.number flash rootLength imageLen = 0
  · rw [if_pos hroot]
    exact ⟨fun h => ⟨fun _ => h, fun hne => absurd hroot hne, fun hne => absurd hroot hne⟩,
      fun h => h.repaired hroot⟩
  · rw [if_neg hroot, dataMatches_fixTag]
    exact ⟨fun h => ⟨fun hzero => absurd hzero hroot, fun _ => h.1, fun _ => h.2⟩,
      fun h => ⟨h.kernel hroot, h.image hroot⟩⟩

theorem Call.HasTag.offset_lt (htag : c.HasTag flash) : c.offset < 2 ^ 31 := by
  have := htag.onDevice
  have := c.isInt
  omega

theorem Call.repairs_iff_of_fits (htag : c.HasTag s.flash) (h : c.Starts)
    (hfits : c.off + tagSize ≤ c.dev.erasesize) (hup : ¬c.GivesUp erases writes s.flash)
    (position : Nat → Nat) :
    c.Repairs position erases writes s ↔ c.DataRight position s.flash := by
  obtain ⟨ops, hok⟩ := c.ok_of_not_givesUp h htag.offset_lt hfits hup
  rw [← dataMatches_iff, Call.Repairs, hok]
  constructor
  · rintro (hexit | ⟨s', hs', -, hdata, -⟩)
    · cases hexit
    · cases hs'
      exact hdata
  · intro hdata
    refine .inr ⟨_, rfl, ?_, hdata, ?_⟩
    · split
      · exact htag.header
      · exact headerCrc_fixTag c.big s.flash c.offset
    · intro a ha
      split
      · rfl
      · exact fixTag_outside (by unfold tagSize at ha; omega)

/-- A tag inside one erase block is repaired exactly if it is not given up, or is in the block
that is read and has the checksum of the kernel that is on the flash. -/
theorem tag_repairs_iff (htag : c.HasTag s.flash) (position : Nat → Nat) :
    c.Repairs position erases writes s ↔
      ¬c.Starts ∨ c.off < c.dev.erasesize ∧
        (c.GivesUp erases writes s.flash ∨ c.DataRight position s.flash) := by
  have hoff := htag.offset_lt
  by_cases hstarts : c.Starts
  · by_cases hblock : c.off < c.dev.erasesize
    · have hfits := c.off_fits htag.inside hblock
      by_cases hup : c.GivesUp erases writes s.flash
      · exact ⟨fun _ => .inr ⟨hblock, .inl hup⟩,
          fun _ => .inl (c.exit_of_givesUp hstarts hoff hfits hup)⟩
      · rw [c.repairs_iff_of_fits htag hstarts hfits hup]
        exact ⟨fun h => .inr ⟨hblock, .inr h⟩,
          fun h => ((h.resolve_left (not_not_intro hstarts)).2.resolve_left hup)⟩
    · have hoverrun : mtdFixtrx c erases writes s = .error .overrun := by
        rw [hstarts.mtdFixtrx_eq hoff]
        exact fixBlock_overrun (not_lt.mp hblock)
      rw [Call.Repairs, hoverrun]
      refine iff_of_false (by simp) ?_
      rintro (hnot | ⟨hlt, -⟩)
      · exact hnot hstarts
      · exact hblock hlt
  · exact ⟨fun _ => .inl hstarts, fun _ => .inl (c.exit_of_not_starts hstarts)⟩

/-! ## Two tags -/

/-- A tag at `offset` on a device of two blocks, each of the size of a tag. -/
def tagIn (offset : Nat) : Call where
  dev := ⟨512, 256, false, fun _ => false⟩
  eraseBits := 8
  erasesize_eq := rfl
  isInt := by decide
  erasesizeBefore := 0
  before := Or.inl rfl
  w := 32
  wide := le_refl 32
  big := true
  offset := offset

/-- A tag with an empty kernel and a root file system of one byte, all but its checksum. -/
def unsignedTag (offset : Nat) : Buffer :=
  storeBytes (storeBytes (fun _ => 0) (offset + rootLength) [49]) (offset + kernelCrc)
    (wordBytes true 0xffffffff)

def signedTag (offset : Nat) : Buffer :=
  storeBytes (unsignedTag offset) (offset + headerCrc)
    (wordBytes true (crc32buf (slice (unsignedTag offset) offset headerCrc)))

theorem hasTag_signedTag {offset : Nat} (h : offset % 256 = 0) (hdev : offset + 256 ≤ 512) :
    (tagIn offset).HasTag (signedTag offset) := by
  have hslice : slice (signedTag offset) offset headerCrc =
      slice (unsignedTag offset) offset headerCrc :=
    slice_storeBytes_outside (.inl le_rfl)
  refine ⟨?_, hdev, ?_⟩
  · change offset % 256 + 256 ≤ 256
    omega
  · change word true (signedTag offset) (offset + headerCrc) =
      crc32buf (slice (signedTag offset) offset headerCrc)
    rw [hslice]
    exact word_storeBytes true _ _ (BitVec.isLt _)

theorem repairs_signedTag_zero : (tagIn 0).HasTag (signedTag 0) ∧
    (tagIn 0).Repairs id true true ⟨signedTag 0, []⟩ := by
  have htag : (tagIn 0).HasTag (signedTag 0) := hasTag_signedTag rfl (by decide)
  refine ⟨htag, (tag_repairs_iff htag id).mpr (.inr ⟨by decide, .inr ⟨?_, ?_, ?_⟩⟩)⟩
  · intro hzero
    cases hzero
  · intro _
    rfl
  · intro _
    rfl

/-- The tag in the second block is looked for behind the memory with the first one. -/
theorem not_repairs_signedTag_block : (tagIn 256).HasTag (signedTag 256) ∧
    mtdFixtrx (tagIn 256) true true ⟨signedTag 256, []⟩ = .error .overrun ∧
    ¬(tagIn 256).Repairs id true true ⟨signedTag 256, []⟩ := by
  have hstarts : (tagIn 256).Starts := ⟨rfl, rfl, by decide⟩
  have hoverrun : mtdFixtrx (tagIn 256) true true ⟨signedTag 256, []⟩ = .error .overrun := by
    rw [hstarts.mtdFixtrx_eq (by decide)]
    exact fixBlock_overrun (by decide)
  exact ⟨hasTag_signedTag rfl (by decide), hoverrun, by simp [Call.Repairs, hoverrun]⟩

end OpenWrt.Mtd.Imagetag
