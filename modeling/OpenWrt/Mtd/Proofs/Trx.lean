import OpenWrt.Mtd.Proofs.Repair
import OpenWrt.Mtd.Trx

/-!
# The header is repaired if it does not cross a block

The loop collects the bytes of the good blocks, piece by piece.  Length and checksum are in
front of what they cover, so writing them does not change what they have to be; all that
can go wrong is that they lie behind the one block that is read and rewritten.
-/

namespace OpenWrt.Mtd.Trx

open Lib OpenWrt.Mtd.Repair List

variable {d : Device} {w k x : Nat} {flash : Buffer}
variable {off n i es : Nat} {block : Buffer}

/-! ## The loop -/

theorem goodBytes_add (d : Device) (flash : Buffer) (off m n : Nat) :
    goodBytes d flash off (m + n) = goodBytes d flash off m ++ goodBytes d flash (off + m) n := by
  simp only [goodBytes, range_add, filter_append, map_append, filter_map,
    map_map]
  simp only [Function.comp_def, add_assoc]

theorem goodBytes_of_bad (hnand : d.nandflash)
    (hbad : ∀ i < n, d.bad ((off + i) / d.erasesize)) : goodBytes d flash off n = [] := by
  rw [goodBytes, map_eq_nil_iff, filter_eq_nil_iff]
  intro i hi
  simp [hnand, hbad i (mem_range.mp hi)]

theorem goodBytes_of_good
    (hgood : ∀ i < n, (d.nandflash && d.bad ((off + i) / d.erasesize)) = false) :
    goodBytes d flash off n = slice flash off n := by
  rw [goodBytes, slice, filter_eq_self.mpr]
  intro i hi
  rw [hgood i (mem_range.mp hi)]
  rfl

theorem goodBytes_congr {flash' : Buffer} (h : ∀ i < n, flash (off + i) = flash' (off + i)) :
    goodBytes d flash off n = goodBytes d flash' off n := by
  apply map_congr_left
  intro i hi
  exact h i (mem_range.mp (mem_filter.mp hi).1)

theorem mtdBlockIsBad_eq (hes : 0 < d.erasesize) (hoff : off < d.mtdsize) :
    mtdBlockIsBad d (off / d.erasesize * d.erasesize) =
      some (d.nandflash && d.bad (off / d.erasesize)) := by
  have hle := Nat.div_mul_le_self off d.erasesize
  unfold mtdBlockIsBad
  cases d.nandflash with
  | false => rfl
  | true =>
    rw [if_pos rfl, if_pos (by omega), Nat.mul_div_cancel _ hes]
    rfl

theorem div_chunk (hn : n ≤ es - off % es) (hi : i < n) : (off + i) / es = off / es := by
  have hmod := Nat.mod_add_div off es
  apply Nat.div_eq_of_lt_le
  · have := Nat.div_mul_le_self off es
    omega
  · rw [Nat.succ_mul, mul_comm]
    omega

theorem readLoop_eq (hk : k ≤ w) (hes : d.erasesize = 2 ^ k) (hw : d.mtdsize ≤ 2 ^ w)
    {fuel : Nat} (hn : n ≤ fuel) (hoff : off + n ≤ d.mtdsize) (buf : List UInt8) :
    readLoop d w flash fuel off n buf = .ok (buf ++ goodBytes d flash off n) := by
  induction fuel generalizing off n buf with
  | zero =>
    obtain rfl : n = 0 := by omega
    rw [readLoop, goodBytes, range_zero, filter_nil, map_nil, append_nil]
  | succ fuel ih =>
    by_cases hzero : n = 0
    · rw [readLoop, if_pos hzero, hzero, goodBytes, range_zero, filter_nil,
        map_nil, append_nil]
    have hpos : 0 < d.erasesize := by
      rw [hes]
      exact Nat.two_pow_pos k
    have hlt := Nat.mod_lt off hpos
    have hblock : blockOf w d.erasesize off = off / d.erasesize * d.erasesize := by
      rw [hes]
      exact blockOf_eq hk (by omega)
    have hin : inBlock d.erasesize off = off % d.erasesize := by
      rw [hes]
      exact inBlock_eq k off
    obtain ⟨chunk, hchunk⟩ : ∃ chunk, chunk = min (d.erasesize - off % d.erasesize) n :=
      ⟨_, rfl⟩
    have hsplit : goodBytes d flash off n =
        goodBytes d flash off chunk ++ goodBytes d flash (off + chunk) (n - chunk) := by
      rw [← goodBytes_add]
      congr 1
      omega
    have hsame : ∀ i < chunk, (off + i) / d.erasesize = off / d.erasesize :=
      fun i hi => div_chunk (by omega) hi
    have hrest : ∀ buf, readLoop d w flash fuel (off + chunk) (n - chunk) buf =
        .ok (buf ++ goodBytes d flash (off + chunk) (n - chunk)) :=
      fun buf => ih (by omega) (by omega) buf
    rw [readLoop, if_neg hzero, hin, ← hchunk, hblock, mtdBlockIsBad_eq hpos (by omega)]
    cases hbad : d.nandflash && d.bad (off / d.erasesize) with
    | true =>
      rw [Bool.and_eq_true] at hbad
      have hnone : goodBytes d flash off chunk = [] := by
        apply goodBytes_of_bad hbad.1
        intro i hi
        rw [hsame i hi, hbad.2]
      rw [hsplit, hnone]
      exact hrest buf
    | false =>
      have hall : goodBytes d flash off chunk = slice flash off chunk := by
        apply goodBytes_of_good
        intro i hi
        rw [hsame i hi, hbad]
      have hread : pread d flash chunk off = .ok (slice flash off chunk) :=
        if_pos (by omega)
      rw [hsplit, hall, ← append_assoc, ← hrest]
      simp only [hread]
      rfl

/-! ## The header -/

variable {c : Call} {s : FlashState} {erases writes : Bool}

def Call.blockOffset (c : Call) : Nat := c.offset / c.dev.erasesize * c.dev.erasesize

def Call.inBlock (c : Call) : Nat := c.offset % c.dev.erasesize

def Call.firstBlock (c : Call) (flash : Buffer) : Buffer :=
  fun i => (slice flash c.blockOffset c.dev.erasesize).getD i 0

theorem Call.erasesize_pos (c : Call) : 0 < c.dev.erasesize := by
  rw [c.erasesize_eq]
  exact Nat.two_pow_pos _

theorem Call.offset_eq (c : Call) : c.blockOffset + c.inBlock = c.offset := by
  rw [Call.blockOffset, mul_comm]
  exact Nat.div_add_mod c.offset c.dev.erasesize

theorem Call.block_le (c : Call) (h : c.offset < c.dev.mtdsize) :
    c.blockOffset + c.dev.erasesize ≤ c.dev.mtdsize := by
  obtain ⟨n, hn⟩ := c.blocks
  have hdiv : c.offset / c.dev.erasesize < n := by
    rw [Nat.div_lt_iff_lt_mul c.erasesize_pos, mul_comm, ← hn]
    exact h
  rw [Call.blockOffset, ← Nat.succ_mul, hn, mul_comm c.dev.erasesize]
  exact Nat.mul_le_mul_right _ hdiv

theorem Call.firstBlock_eq (hi : i < c.dev.erasesize) :
    c.firstBlock flash i = flash (c.blockOffset + i) := getD_slice hi

theorem Call.word_firstBlock {big : Bool} (hi : c.inBlock + i + 4 ≤ c.dev.erasesize) :
    word big (c.firstBlock flash) (c.inBlock + i) = word big flash (c.offset + i) := by
  have hoffset := c.offset_eq
  apply word_congr
  intro j hj
  rw [c.firstBlock_eq (by omega)]
  congr 1
  omega

theorem Call.magic_firstBlock (h : c.inBlock + 4 ≤ c.dev.erasesize) :
    word true (c.firstBlock flash) c.inBlock = word true flash c.offset := by
  have hword : word true (c.firstBlock flash) (c.inBlock + 0) = word true flash (c.offset + 0) :=
    c.word_firstBlock h
  rwa [] at hword

theorem Call.Accepted.mtdFixtrx_eq (h : c.Accepted s.flash) :
    mtdFixtrx c erases writes s = (field c.dev.erasesize true (c.firstBlock s.flash) c.inBlock).bind
      fun magic => if magic ≠ c.trxmagic then .error .exit else
        fixHeader c.dev erases writes c.blockOffset c.inBlock (c.firstBlock s.flash)
          (c.covered s.flash) s := by
  obtain ⟨hopens, hmalloc, -, hrange⟩ := h
  have hsmall := c.isInt
  have hw : 2 ^ 32 ≤ 2 ^ c.w := Nat.pow_le_pow_right (by decide) c.wide
  have hle : c.dev.mtdsize ≤ 2 ^ c.w := by omega
  unfold trxCrc32DataOffset at hrange
  have hbits : c.eraseBits ≤ c.w := by
    have hblock := c.block_le (by omega)
    rw [c.erasesize_eq] at hblock
    have hpow : 2 ^ c.eraseBits ≤ 2 ^ c.w := by omega
    exact (Nat.pow_le_pow_iff_right (by decide)).mp hpow
  have hblock : blockOf c.w c.dev.erasesize c.offset = c.blockOffset := by
    rw [Call.blockOffset, c.erasesize_eq]
    exact blockOf_eq hbits (by omega)
  have hin : c.offset - c.blockOffset = c.inBlock := by
    have := c.offset_eq
    omega
  have hdata : sizeT c.w (c.offset + 12 : Nat) = c.offset + 12 := sizeT_eq (by omega)
  have hsum : sizeT c.w (c.offset + 12 + c.size : Nat) = c.offset + 12 + c.size :=
    sizeT_eq (by omega)
  have hread : pread c.dev s.flash c.dev.erasesize c.blockOffset =
      .ok (slice s.flash c.blockOffset c.dev.erasesize) := if_pos (c.block_le (by omega))
  have hloop : readLoop c.dev c.w s.flash c.size (c.offset + 12) c.size [] =
      .ok (c.covered s.flash) := readLoop_eq hbits c.erasesize_eq hle (le_refl c.size) hrange []
  simp only [mtdFixtrx, trxCrc32DataOffset, hdata, hblock, hin, hopens, hmalloc, hread, hloop]
  rw [if_neg (by decide), if_neg (by omega)]
  rfl

theorem setField_ok {value : Nat} (h : off + 4 ≤ es) :
    setField es block off value = .ok (storeBytes block off (wordBytes false value)) := if_pos h

theorem setField_overrun {value : Nat} (h : es < off + 4) :
    setField es block off value = .error .overrun := if_neg (not_le.mpr h)

theorem fixHeader_overrun {blockOffset : Nat} {buf : List UInt8} (h : d.erasesize < off + 12) :
    fixHeader d erases writes blockOffset off block buf s = .error .overrun := by
  by_cases hlen : off + 8 ≤ d.erasesize
  · have hcrc : d.erasesize < off + 8 + 4 := by omega
    by_cases heq : word false block (off + 4) = buf.length + trxCrc32DataOffset
    · simp only [fixHeader, alreadyFixed, field_ok hlen, field_overrun hcrc, bind, Except.bind, heq,
        if_true]
    · simp only [fixHeader, alreadyFixed, field_ok hlen, setField_ok hlen, setField_overrun hcrc,
        bind, Except.bind, pure, Except.pure, if_neg heq, Bool.false_eq_true, if_false]
  · have hlen' : d.erasesize < off + 4 + 4 := by omega
    simp only [fixHeader, alreadyFixed, field_overrun hlen', bind, Except.bind]

theorem Call.Accepted.overrun (h : c.Accepted s.flash) (hcross : c.dev.erasesize < c.inBlock + 12) :
    mtdFixtrx c erases writes s = .error .overrun := by
  rw [h.mtdFixtrx_eq]
  by_cases hmagic : c.inBlock + 4 ≤ c.dev.erasesize
  · have hword : word true (c.firstBlock s.flash) c.inBlock = c.trxmagic := by
      rw [← h.magic]
      exact c.magic_firstBlock hmagic
    rw [field_ok hmagic, hword]
    exact (if_neg (not_not_intro rfl)).trans (fixHeader_overrun hcross)
  · rw [field_overrun (not_le.mp hmagic)]
    rfl

/-! ## The repair -/

def Call.Right (c : Call) (flash : Buffer) : Prop :=
  word false flash (c.offset + 4) = (c.covered flash).length + 12 ∧
    word false flash (c.offset + 8) = crc32buf (c.covered flash)

instance (c : Call) (flash : Buffer) : Decidable (c.Right flash) :=
  inferInstanceAs (Decidable (_ ∧ _))

def Call.corrected (c : Call) (flash : Buffer) : Buffer :=
  storeBytes (storeBytes flash (c.offset + 4) (wordBytes false ((c.covered flash).length + 12)))
    (c.offset + 8) (wordBytes false (crc32buf (c.covered flash)))

theorem Call.corrected_outside {a : Nat} (ha : a < c.offset + 4 ∨ c.offset + 12 ≤ a) :
    c.corrected flash a = flash a := by
  rw [Call.corrected, storeBytes_outside (by rw [length_wordBytes]; omega),
    storeBytes_outside (by rw [length_wordBytes]; omega)]

theorem Call.covered_corrected (c : Call) (flash : Buffer) :
    c.covered (c.corrected flash) = c.covered flash := by
  apply goodBytes_congr
  intro i _
  exact c.corrected_outside (.inr (by unfold trxCrc32DataOffset; omega))

theorem length_goodBytes_le (d : Device) (flash : Buffer) (off n : Nat) :
    (goodBytes d flash off n).length ≤ n := by
  rw [goodBytes, length_map]
  exact (length_filter_le _ _).trans_eq (length_range)

theorem Call.Accepted.right_corrected (h : c.Accepted flash) : c.Right (c.corrected flash) := by
  have hlen := length_goodBytes_le c.dev flash (c.offset + trxCrc32DataOffset) c.size
  have hrange := h.range
  have hsmall := c.isInt
  constructor
  · rw [c.covered_corrected, Call.corrected, word_storeBytes_outside (.inl (by omega))]
    exact word_storeBytes false _ _ (by unfold Call.covered; omega)
  · rw [c.covered_corrected]
    exact word_storeBytes false _ _ (BitVec.isLt _)

theorem Call.Accepted.corrected (h : c.Accepted flash) : c.Accepted (c.corrected flash) := by
  refine ⟨h.opens, h.malloc, ?_, h.range⟩
  rw [← h.magic]
  apply word_congr
  intro i hi
  exact c.corrected_outside (.inl (by omega))

theorem Call.rewrite_eq (hfits : c.inBlock + 12 ≤ c.dev.erasesize) {len crc : List UInt8}
    (hlen : len.length = 4) (hcrc : crc.length = 4) :
    programRange (eraseRange flash c.blockOffset c.dev.erasesize) c.blockOffset
      (slice (storeBytes (storeBytes (c.firstBlock flash) (c.inBlock + 4) len) (c.inBlock + 8) crc)
        0
        c.dev.erasesize) =
      storeBytes (storeBytes flash (c.offset + 4) len) (c.offset + 8) crc := by
  have hoffset := c.offset_eq
  apply program_erased
  · intro i hi
    rw [← hoffset]
    exact storeBytes_window (storeBytes_window (c.firstBlock_eq hi))
  · intro a ha
    rw [storeBytes_outside (by omega), storeBytes_outside (by omega)]

theorem Call.Accepted.eq_of_fits (h : c.Accepted s.flash)
    (hfits : c.inBlock + 12 ≤ c.dev.erasesize) :
    mtdFixtrx c erases writes s =
      if c.Right s.flash then .ok s
      else if erases = false then .error .exit
      else if writes = false then .error .exit
      else .ok ⟨c.corrected s.flash,
        s.ops ++ [.erase c.blockOffset, .program c.blockOffset c.dev.erasesize]⟩ := by
  have hmagic : word true (c.firstBlock s.flash) c.inBlock = c.trxmagic := by
    rw [← h.magic]
    exact c.magic_firstBlock (by omega)
  have hlen : c.inBlock + 4 + 4 ≤ c.dev.erasesize := by omega
  have hcrc : c.inBlock + 8 + 4 ≤ c.dev.erasesize := by omega
  have hrewrite : programRange (eraseRange s.flash c.blockOffset c.dev.erasesize) c.blockOffset
      (slice (storeBytes (storeBytes (c.firstBlock s.flash) (c.inBlock + 4)
          (wordBytes false ((c.covered s.flash).length + 12))) (c.inBlock + 8)
        (wordBytes false (crc32buf (c.covered s.flash)))) 0 c.dev.erasesize) =
      c.corrected s.flash :=
    c.rewrite_eq hfits (length_wordBytes _ _) (length_wordBytes _ _)
  rw [h.mtdFixtrx_eq, field_ok (by omega), hmagic]
  refine (if_neg (not_not_intro rfl)).trans ?_
  simp only [fixHeader, alreadyFixed, field_ok hlen, field_ok hcrc, c.word_firstBlock hlen,
    c.word_firstBlock hcrc, setField_ok hlen, setField_ok hcrc, rewrite, hrewrite, bind,
    Except.bind, pure, Except.pure, trxCrc32DataOffset, Call.Right]
  by_cases hl : word false s.flash (c.offset + 4) = (c.covered s.flash).length + 12
  · by_cases hc : word false s.flash (c.offset + 8) = crc32buf (c.covered s.flash)
    · simp [hl]
    · simp [hl]
  · simp [hl]

theorem Call.Accepted.fixed_of_right (h : c.Accepted s.flash)
    (hfits : c.inBlock + 12 ≤ c.dev.erasesize) {flash₀ : Buffer} {ops : List DevOp}
    (hright : c.Right s.flash)
    (hframe : ∀ a, a < c.offset + 4 ∨ c.offset + 12 ≤ a → s.flash a = flash₀ a) :
    c.Fixed ⟨flash₀, ops⟩ s := by
  refine ⟨hright.1, hright.2, hframe, ?_⟩
  intro erases writes
  rw [h.eq_of_fits hfits, if_pos hright]

/-- A header is repaired exactly if its length and checksum are in the block it starts in. -/
theorem repairs_iff (h : c.Accepted s.flash) :
    c.Repairs erases writes s ↔ c.offset % c.dev.erasesize + 12 ≤ c.dev.erasesize := by
  constructor
  · intro hrepairs
    by_contra hcross
    have hoverrun : mtdFixtrx c erases writes s = .error .overrun :=
      h.overrun (not_le.mp hcross)
    rcases hrepairs with hexit | ⟨s', hok, -⟩
    · rw [hoverrun] at hexit
      cases hexit
    · rw [hoverrun] at hok
      cases hok
  · intro hfits
    rw [Call.Repairs, h.eq_of_fits hfits]
    by_cases hright : c.Right s.flash
    · rw [if_pos hright]
      exact .inr ⟨s, rfl, h.fixed_of_right hfits hright fun a _ => rfl⟩
    rw [if_neg hright]
    cases erases with
    | false => exact Or.inl rfl
    | true =>
      cases writes with
      | false => exact Or.inl rfl
      | true =>
        refine .inr ⟨_, rfl, ?_⟩
        exact h.corrected.fixed_of_right hfits h.right_corrected
          fun a ha => c.corrected_outside ha

/-! ## Two headers -/

def twoBlocks : Device := ⟨128, 64, false, fun _ => false⟩

def headerAt (offset : Nat) : Call where
  dev := twoBlocks
  eraseBits := 6
  erasesize_eq := rfl
  blocks := by decide
  isInt := by decide
  w := 32
  wide := Nat.le_refl 32
  trxmagic := 0x48445230
  offset := offset
  dataSize := 0

def magicAt (offset : Nat) : Buffer := storeBytes (fun _ => 0xff) offset (wordBytes true 0x48445230)

theorem accepted_headerAt {offset : Nat} (h : offset + 64 ≤ 128) :
    (headerAt offset).Accepted (magicAt offset) := by
  refine ⟨rfl, fun _ => rfl, word_storeBytes true _ _ (by decide), ?_⟩
  exact h

theorem repairs_headerAt_zero : (headerAt 0).Accepted (magicAt 0) ∧
    (headerAt 0).Repairs true true ⟨magicAt 0, []⟩ := by
  have haccepted : (headerAt 0).Accepted (magicAt 0) := accepted_headerAt (by decide)
  exact ⟨haccepted, (repairs_iff haccepted).mpr (by decide)⟩

/-- The header's checksum is the first word of the second block. -/
theorem not_repairs_headerAt_end : (headerAt 56).Accepted (magicAt 56) ∧
    mtdFixtrx (headerAt 56) true true ⟨magicAt 56, []⟩ = .error .overrun ∧
    ¬(headerAt 56).Repairs true true ⟨magicAt 56, []⟩ := by
  have haccepted : (headerAt 56).Accepted (magicAt 56) := accepted_headerAt (by decide)
  have hoverrun : mtdFixtrx (headerAt 56) true true ⟨magicAt 56, []⟩ = .error .overrun :=
    haccepted.overrun (by decide)
  refine ⟨haccepted, hoverrun, ?_⟩
  rintro (hexit | ⟨s', hok, -⟩)
  · rw [hoverrun] at hexit
    cases hexit
  · rw [hoverrun] at hok
    cases hok

end OpenWrt.Mtd.Trx
