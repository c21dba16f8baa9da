import OpenWrt.Bcm4908img.Bootfs
import OpenWrt.Bcm4908img.Proofs.Image

/-!
# A rename and the parser

The parser looks for its marks at fixed places of the file.  A renamed file is accepted with
the same offsets if the new name leaves these marks as they were, and if the tail that
`bootfs mv` writes to the end of the file is the one that the parser reads.
-/

namespace OpenWrt.Bcm4908img

open Lib List Nat

variable {f g : Bytes} {info : Info}
variable {off n b q r p i a tail : Nat}

theorem fread_congr (h : SameOn f g off (off + n)) : fread f off n = fread g off n :=
  h.window

theorem nodeSizes : nodeSize = 12 ∧ direntSize = 40 ∧ nameCrcOffset = 36 := ⟨rfl, rfl, rfl⟩

/-! ## The searches in two files -/

theorem findBootfs_step : findBootfs f tail (n + 1) off = .ok b ↔
    off = b ∧ (off < tail → (fread f off 2).length = 2 ∧ JffsStart f off) ∨
      (off < tail ∧ (fread f off 2).length = 2 ∧ ¬JffsStart f off) ∧
        findBootfs f tail n (off + blockSize) = .ok b := by
  rw [findBootfs, JffsStart]
  split_ifs <;> simp_all

theorem findBootfs_le (h : findBootfs f tail n off = .ok b) : off ≤ b := by
  induction n generalizing off with
  | zero => exact (Except.ok.inj h).le
  | succ n ih =>
    obtain ⟨hb, -⟩ | ⟨-, hrest⟩ := findBootfs_step.mp h
    · exact hb.le
    · exact (le_add_right ..).trans (ih hrest)

theorem findBootfs_start (h : findBootfs f tail n off = .ok b)
    (hn : tail ≤ off + n) (hlt : b < tail) : JffsStart f b := by
  induction n generalizing off with
  | zero =>
    cases h
    omega
  | succ n ih =>
    obtain ⟨rfl, hmagic⟩ | ⟨-, hrest⟩ := findBootfs_step.mp h
    · exact (hmagic hlt).2
    · have : 0 < blockSize := by decide
      exact ih hrest (by omega)

theorem findBootfs_congr (h : findBootfs f tail n off = .ok b)
    (hsame : ∀ y ≤ b, fread g y 2 = fread f y 2) : findBootfs g tail n off = .ok b := by
  induction n generalizing off with
  | zero => exact h
  | succ n ih =>
    have hread := hsame off (findBootfs_le h)
    rw [findBootfs_step, JffsStart] at h ⊢
    rw [hread]
    exact h.imp_right fun hrest => ⟨hrest.1, ih hrest.2⟩

theorem findRootfs_padding (hlen : tail + tailSize ≤ f.length)
    (h : findRootfs f tail n off q = .ok (r, p)) : p = q ∨ q = 0 ∧ off ≤ p := by
  induction n generalizing off q with
  | zero =>
    cases h
    exact .inl rfl
  | succ n ih =>
    by_cases hlt : off < tail
    · obtain ⟨-, ⟨-, -, hp⟩ | ⟨-, hrest⟩⟩ := findRootfs_cases hlt hlen h
      · exact .inl hp
      have hp := ih hrest
      by_cases hq : q = 0
      · subst hq
        by_cases hpad : PaddingStart f off
        · rw [notePadding_zero_pos hpad] at hp
          omega
        · rw [notePadding_zero_neg hpad] at hp
          omega
      · rw [notePadding_of_ne hq] at hp
        exact .inl (hp.resolve_right fun hcond => hq hcond.1)
    · rw [findRootfs, if_neg hlt] at h
      cases h
      exact .inl rfl

/-- The blocks from `off` on have the marks of `f` in `g`, as far as the search for the rootfs
at `r` looks at them; `p` is the padding. -/
structure SameMarks (f g : Bytes) (off r p : Nat) : Prop where
  blocks : ∀ k, off + k * blockSize < r → ¬UbiStart g (off + k * blockSize)
  rootfs : UbiStart g r
  padding : ∀ k, off + k * blockSize < r → p = 0 ∨ off + k * blockSize ≤ p →
    (PaddingStart g (off + k * blockSize) ↔ PaddingStart f (off + k * blockSize))

theorem sameMarks_next (hle : off + blockSize ≤ r) :
    SameMarks f g off r p ↔ ¬UbiStart g off ∧
      (p = 0 ∨ off ≤ p → (PaddingStart g off ↔ PaddingStart f off)) ∧
      SameMarks f g (off + blockSize) r p := by
  have := sizes
  have hshift : ∀ k, off + blockSize + k * blockSize = off + (k + 1) * blockSize := by
    intro k
    rw [succ_mul]
    omega
  constructor
  · intro h
    have hubi := h.blocks 0
    have hpad := h.padding 0
    refine ⟨hubi (by omega), hpad (by omega), ⟨fun k => ?_, h.rootfs, fun k => ?_⟩⟩
    · rw [hshift]
      exact h.blocks (k + 1)
    · rw [hshift]
      exact h.padding (k + 1)
  · rintro ⟨hubi, hpad, h⟩
    refine ⟨fun k hk => ?_, h.rootfs, fun k hk => ?_⟩
    · cases k with
      | zero =>
        exact hubi
      | succ k =>
        have hrest := h.blocks k
        rw [hshift] at hrest
        exact hrest hk
    · cases k with
      | zero =>
        exact hpad
      | succ k =>
        have hrest := h.padding k
        rw [hshift] at hrest
        exact hrest hk

theorem notePadding_eq_iff (hf : tail + tailSize ≤ f.length)
    (hg : tail + tailSize ≤ g.length) (hzero : off = 0 → (PaddingStart g off ↔ PaddingStart f off))
    (hfindf : findRootfs f tail n (off + blockSize) (notePadding f off 0) = .ok (r, p))
    (hfindg : findRootfs g tail n (off + blockSize) (notePadding g off 0) = .ok (r, p)) :
    PaddingStart g off ↔ PaddingStart f off := by
  have := sizes
  by_cases hoff : off = 0
  · exact hzero hoff
  have hpf := findRootfs_padding hf hfindf
  have hpg := findRootfs_padding hg hfindg
  by_cases hpadf : PaddingStart f off <;> by_cases hpadg : PaddingStart g off
  · exact iff_of_true hpadg hpadf
  · rw [notePadding_zero_pos hpadf] at hpf
    rw [notePadding_zero_neg hpadg] at hpg
    omega
  · rw [notePadding_zero_neg hpadf] at hpf
    rw [notePadding_zero_pos hpadg] at hpg
    omega
  · exact iff_of_false hpadg hpadf

theorem notePadding_congr (h : q = 0 → (PaddingStart g off ↔ PaddingStart f off)) :
    notePadding g off q = notePadding f off q := by
  by_cases hq : q = 0
  · subst hq
    by_cases hpad : PaddingStart f off
    · rw [notePadding_zero_pos hpad, notePadding_zero_pos ((h rfl).mpr hpad)]
    · rw [notePadding_zero_neg hpad, notePadding_zero_neg fun hg => hpad ((h rfl).mp hg)]
  · rw [notePadding_of_ne hq, notePadding_of_ne hq]

theorem findRootfs_same_iff (hf : tail + tailSize ≤ f.length)
    (hg : g.length = f.length) (hn : tail ≤ off + n) (hlt : r < tail) (hq : q = 0 ∨ q < off)
    (hzero : off = 0 → (PaddingStart g off ↔ PaddingStart f off))
    (h : findRootfs f tail n off q = .ok (r, p)) :
    findRootfs g tail n off q = .ok (r, p) ↔ SameMarks f g off r p := by
  have hg' : tail + tailSize ≤ g.length := hg ▸ hf
  have := sizes
  induction n generalizing off q with
  | zero =>
    cases h
    omega
  | succ n ih =>
    have hle := (findRootfs_first hf hn hlt h).2.1
    have hoff : off < tail := by omega
    obtain ⟨hread, ⟨hubi, rfl, rfl⟩ | ⟨hubi, hrest⟩⟩ := findRootfs_cases hoff hf h
    · constructor
      · intro hgfind
        obtain ⟨-, ⟨hubig, -, -⟩ | ⟨-, hrestg⟩⟩ := findRootfs_cases hoff hg' hgfind
        · exact ⟨fun k hk => by omega, hubig, fun k hk => by omega⟩
        · have := (findRootfs_first hg' (by omega) hlt hrestg).2.1
          omega
      · intro hmarks
        exact findRootfs_here hoff hg' (by omega) hmarks.rootfs
    · have hnext : off + blockSize ≤ r := (findRootfs_first hf (by omega) hlt hrest).2.1
      have hnote : notePadding f off q = 0 ∨ notePadding f off q < off + blockSize := by
        rw [notePadding]
        split <;> omega
      have hp := findRootfs_padding hf h
      have hih : findRootfs g tail n (off + blockSize) (notePadding f off q) = .ok (r, p) ↔
          SameMarks f g (off + blockSize) r p :=
        ih (by omega) hnote (by omega) hrest
      rw [sameMarks_next hnext, ← hih]
      constructor
      · intro hgfind
        obtain ⟨-, ⟨-, rfl, -⟩ | ⟨hubig, hrestg⟩⟩ := findRootfs_cases hoff hg' hgfind
        · omega
        · have hpad : q = 0 → (PaddingStart g off ↔ PaddingStart f off) := by
            rintro rfl
            exact notePadding_eq_iff hf hg' hzero hrest hrestg
          rw [notePadding_congr hpad] at hrestg
          exact ⟨hubig, fun hcond => hpad (by omega), hrestg⟩
      · rintro ⟨hubig, hpad, hrestg⟩
        have hpad' : q = 0 → (PaddingStart g off ↔ PaddingStart f off) :=
          fun hq0 => hpad (by omega)
        rw [findRootfs_next hoff hg' (by omega) hubig, notePadding_congr hpad']
        exact hrestg

structure Marks (f : Bytes) (info : Info) (g : Bytes) : Prop where
  vendor : fread g (g.length - linksysSize) 9 = linksysMagic ↔
    fread f (f.length - linksysSize) 9 = linksysMagic
  blocks : SameMarks f g info.bootfsOffset info.rootfsOffset info.paddingOffset

theorem parseTailOffset_eq_iff (hsize : bufSize ≤ f.length) (hlen : g.length = f.length) :
    parseTailOffset g = parseTailOffset f ↔
      (fread g (g.length - linksysSize) 9 = linksysMagic ↔
        fread f (f.length - linksysSize) 9 = linksysMagic) := by
  have := sizes
  rw [parseTailOffset, parseTailOffset, hlen]
  split_ifs with hg hf hf
  · exact iff_of_true rfl (iff_of_true hg hf)
  · exact iff_of_false (by omega) fun hiff => hf (hiff.mp hg)
  · exact iff_of_false (by omega) fun hiff => hg (hiff.mpr hf)
  · exact iff_of_true rfl (iff_of_false hg hf)

section

variable (h : Accepted f info)

include h

theorem Accepted.jffs : JffsStart f info.bootfsOffset :=
  findBootfs_start h.bootfs (by omega) h.bootfs_lt

theorem Accepted.block_le {k : Nat} (hk : info.bootfsOffset + k * blockSize < info.rootfsOffset) :
    info.bootfsOffset + k * blockSize + blockSize ≤ info.rootfsOffset := by
  obtain ⟨-, hle, hdvd⟩ := findRootfs_first h.tail_le (by omega) h.rootfs_lt h.rootfs
  have := next_block (dvd_mul_left blockSize k) hdvd (by omega)
  omega

theorem Accepted.bootfs_block_le : info.bootfsOffset + blockSize ≤ info.rootfsOffset := by
  obtain ⟨hubi, hle, -⟩ := findRootfs_first h.tail_le (by omega) h.rootfs_lt h.rootfs
  have hne : info.bootfsOffset ≠ info.rootfsOffset := by
    intro heq
    have := h.tail_le
    have := h.bootfs_lt
    have := sizes
    rw [← heq] at hubi
    exact not_ubiStart_of_jffs (by omega) h.jffs hubi
  have := h.block_le (k := 0) (by omega)
  omega

theorem Accepted.tail_cases :
    info.tailOffset + tailSize = f.length ∨
      info.tailOffset + tailSize + linksysSize = f.length := by
  have hsize := h.size
  have hoffset := h.tailOffset
  have := sizes
  rw [parseTailOffset] at hoffset
  split at hoffset <;> omega

theorem Accepted.order : info.cferomOffset ≤ info.bootfsOffset ∧
    info.bootfsOffset + blockSize ≤ info.rootfsOffset ∧ info.rootfsOffset < info.tailOffset ∧
    info.tailOffset + tailSize ≤ f.length :=
  ⟨findBootfs_le h.bootfs, h.bootfs_block_le, h.rootfs_lt, h.tail_le⟩

def contentCrc (info : Info) (g : Bytes) : BitVec 32 :=
  crc32 0xffffffff (fread g info.cferomOffset (info.tailOffset - info.cferomOffset))

theorem Accepted.calcCrc32 (hlen : g.length = f.length) :
    calcCrc32 g info.cferomOffset info.tailOffset = (contentCrc info g, 0) := by
  have := h.order
  exact calcCrc32_eq (by omega) (by omega)

omit h in
theorem ofBytes_crc32 (g : Bytes) (off : Nat) :
    (Tail.ofBytes (fread g off tailSize)).crc32 = le32 (fread g off 4) := by
  rw [Tail.ofBytes]
  rw [fread, drop_zero, take_fread g off (by decide)]

theorem Accepted.same_iff (hlen : g.length = f.length)
    (hstart : SameOn g f 0 (info.bootfsOffset + nodeSize)) :
    (∃ crc tail, Bcm4908img.parse g = .ok { info with crc32 := crc, tail := tail }) ↔
      Marks f info g ∧ contentCrc info g = le32 (fread g info.tailOffset 4) := by
  have := nodeSizes
  have hcferom : parseCferom g = info.cferomOffset := by
    rw [← h.cferom, parseCferom, parseCferom, fread_congr (hstart.mono (by omega) (by omega)),
      fread_congr (hstart.mono (by omega) (by omega))]
  have hbootfs : findBootfs g info.tailOffset info.tailOffset info.cferomOffset =
      .ok info.bootfsOffset :=
    findBootfs_congr h.bootfs fun y hy => fread_congr (hstart.mono (by omega) (by omega))
  have hjffs : JffsStart g info.bootfsOffset := by
    rw [JffsStart, fread_congr (hstart.mono (by omega) (by omega))]
    exact h.jffs
  have hrootfs : findRootfs g info.tailOffset info.tailOffset info.bootfsOffset 0 =
      .ok (info.rootfsOffset, info.paddingOffset) ↔
        SameMarks f g info.bootfsOffset info.rootfsOffset info.paddingOffset :=
    findRootfs_same_iff h.tail_le hlen (by omega) h.rootfs_lt (.inl rfl)
      (fun _ => ⟨fun hpad => absurd hpad (not_paddingStart_of_jffs hjffs),
        fun hpad => absurd hpad (not_paddingStart_of_jffs h.jffs)⟩) h.rootfs
  have hvendor := parseTailOffset_eq_iff h.size hlen
  rw [h.tailOffset] at hvendor
  constructor
  · rintro ⟨crc, tail, hparse⟩
    have hg := accepted_of_parse hparse
    have hcrc : (contentCrc info g, 0) = (crc, 0) := (h.calcCrc32 hlen).symm.trans hg.checksum
    have htail : Tail.ofBytes (fread g info.tailOffset tailSize) = tail := hg.tail
    have hvalid : crc = tail.crc32 := hg.valid
    refine ⟨⟨hvendor.mp hg.tailOffset, hrootfs.mp hg.rootfs⟩, ?_⟩
    rw [← ofBytes_crc32, htail, ← hvalid]
    exact congrArg Prod.fst hcrc
  · rintro ⟨hmarks, hcrc⟩
    refine ⟨contentCrc info g, Tail.ofBytes (fread g info.tailOffset tailSize), Accepted.parse ?_⟩
    exact ⟨hlen ▸ h.size, hcferom, hvendor.mpr hmarks.vendor, hbootfs, h.bootfs_lt,
      hrootfs.mpr hmarks.blocks, h.rootfs_lt, h.calcCrc32 hlen, rfl,
      hcrc.trans (ofBytes_crc32 g info.tailOffset).symm⟩

theorem Marks.congr {g' : Bytes} (hlen : g.length = f.length)
    (hlen' : g'.length = f.length) (hfront : SameOn g' g 0 (info.tailOffset + 4))
    (hvendor : SameOn g' g (f.length - linksysSize) (f.length - linksysSize + 9))
    (hmarks : Marks f info g) : Marks f info g' := by
  have := sizes
  have hrlt := h.rootfs_lt
  have hubi : ∀ off < info.tailOffset, UbiStart g' off ↔ UbiStart g off := by
    intro off hlt
    rw [UbiStart, UbiStart, fread_congr (hfront.mono (zero_le _) (by omega))]
  have hpad : ∀ off, off + 256 ≤ info.tailOffset → (PaddingStart g' off ↔ PaddingStart g off) := by
    intro off hle
    rw [PaddingStart, PaddingStart, fread_congr (hfront.mono (zero_le _) (by omega))]
  refine ⟨?_, ?_, (hubi _ hrlt).mpr hmarks.blocks.rootfs, ?_⟩
  · rw [hlen', fread_congr hvendor, ← hlen, hlen, ← hmarks.vendor, hlen]
  · intro k hk
    rw [hubi _ (by omega)]
    exact hmarks.blocks.blocks k hk
  · intro k hk hp
    have := h.block_le hk
    rw [hpad _ (by omega)]
    exact hmarks.blocks.padding k hk hp

end

/-! ## The walk to an entry -/

section Walk

variable {big : Bool} {oldname : Bytes} {room offset : Nat} {e : Entry}

theorem readNode_length {node : Node} (h : readNode big room f offset = .ok node) :
    offset + nodeSize ≤ f.length := by
  rw [readNode] at h
  split at h
  · cases h
  · rename_i hlen
    have hread := not_not.mp hlen
    have := nodeSizes
    rw [length_fread] at hread
    omega

theorem readNode_entry {name : Bytes} (h : readNode big room f offset = .ok (.entry name)) :
    offset + direntSize + name.length ≤ f.length ∧ name.length = nsize f offset := by
  rw [readNode] at h
  split_ifs at h with _ _ _ hdirent _ hname <;> cases h
  have hlen := not_not.mp hname
  have hrest := not_not.mp hdirent
  have := nodeSizes
  refine ⟨?_, hlen⟩
  rw [length_fread] at hlen hrest ⊢
  omega

theorem look_length {found : Option Nat} (h : look big f oldname offset = .ok found) :
    offset + nodeSize ≤ f.length := by
  rw [look] at h
  split at h
  · cases h
  · cases h
  all_goals
    rename_i hnode
    exact readNode_length hnode

theorem look_some (h : look big f oldname offset = .ok (some n)) :
    offset + direntSize + n ≤ f.length := by
  rw [look] at h
  split at h
  any_goals cases h
  rename_i name hnode
  have hlen := (readNode_entry hnode).1
  split at h
  · cases h
    exact hlen
  · cases h

section

variable (h : FirstEntry big f oldname offset e)

include h

theorem FirstEntry.le : offset ≤ e.offset := by
  induction h with
  | here h => exact le_refl _
  | later h hrest ih => omega

theorem FirstEntry.inside : e.offset + direntSize + e.nsize ≤ f.length := by
  induction h with
  | here h => exact look_some h
  | later h hrest ih => exact ih

theorem FirstEntry.advances
    (hlook : look big f oldname offset = .ok none) : nodeStep big f offset ≠ 0 := by
  induction h with
  | here h =>
    rw [h] at hlook
    cases hlook
  | later h hrest ih =>
    intro hzero
    rw [hzero] at ih
    exact ih hlook hzero

theorem FirstEntry.findEntry
    (hn : f.length ≤ offset + n) : findEntry big f oldname n offset = .ok e := by
  have := nodeSizes
  induction h generalizing n with
  | here h =>
    have := look_length h
    obtain ⟨n, rfl⟩ : ∃ m, n = m + 1 := ⟨n - 1, by omega⟩
    rw [Bcm4908img.findEntry, h]
  | later h hrest ih =>
    have := look_length h
    have := (FirstEntry.later h hrest).advances h
    obtain ⟨n, rfl⟩ : ∃ m, n = m + 1 := ⟨n - 1, by omega⟩
    rw [Bcm4908img.findEntry, h]
    exact ih (by omega)

omit h in
theorem firstEntry_of_findEntry (h : findEntry big f oldname n offset = .ok e) :
    FirstEntry big f oldname offset e := by
  induction n generalizing offset with
  | zero => cases h
  | succ n ih =>
    rw [findEntry] at h
    split at h
    · cases h
    · rename_i hlook
      cases h
      exact .here hlook
    · rename_i hlook
      exact .later hlook (ih h)

theorem FirstEntry.unique {e' : Entry} (h' : FirstEntry big f oldname offset e') : e = e' := by
  have heq := (h.findEntry (n := f.length) (by omega)).symm.trans (h'.findEntry (by omega))
  exact Except.ok.inj heq

end

end Walk

/-! ## The tail as bytes -/

theorem le32Bytes_le32 {bs : Bytes} (h : bs.length = 4) : le32Bytes (le32 bs) = bs := by
  obtain ⟨a, as, rfl⟩ := exists_cons_of_length_eq_add_one h
  obtain ⟨b, bs, rfl⟩ := exists_cons_of_length_eq_add_one (succ.inj h)
  obtain ⟨c, cs, rfl⟩ := exists_cons_of_length_eq_add_one (succ.inj (succ.inj h))
  obtain ⟨d, rfl⟩ := length_eq_one_iff.mp (succ.inj (succ.inj (succ.inj h)))
  have ha := a.toNat_lt
  have hb := b.toNat_lt
  have hc := c.toNat_lt
  have hd := d.toNat_lt
  simp only [le32, le32Bytes, be, reverse_cons, reverse_nil, nil_append,
    cons_append, foldl_cons, foldl_nil, BitVec.toNat_ofNat, cons.injEq,
    and_true]
  refine ⟨?_, ?_, ?_, ?_⟩ <;>
    · apply UInt8.toNat_inj.mp
      rw [UInt8.toNat_ofNat']
      omega

theorem length_le32Bytes (x : BitVec 32) : (le32Bytes x).length = 4 := rfl

theorem Tail.bytes_ofBytes {bs : Bytes} (h : bs.length = tailSize) :
    (Tail.ofBytes bs).bytes = bs := by
  have := sizes
  have hpiece : ∀ off, off + 4 ≤ 20 → le32Bytes (le32 (fread bs off 4)) = fread bs off 4 := by
    intro off hoff
    apply le32Bytes_le32
    rw [length_fread]
    omega
  rw [Tail.bytes, Tail.ofBytes]
  rw [hpiece 0 (by omega), hpiece 4 (by omega), hpiece 8 (by omega), hpiece 12 (by omega),
    hpiece 16 (by omega), fread_split bs 12 4 4, fread_split bs 8 4 8, fread_split bs 4 4 12,
    fread_split bs 0 4 16, fread, drop_zero, take_of_length_le (by omega)]

theorem Tail.getElem?_bytes {t : Tail} (crc : BitVec 32) (hi : 4 ≤ i) :
    ({ t with crc32 := crc } : Tail).bytes[i]? = t.bytes[i]? := by
  have hlen : ∀ x, (le32Bytes x).length ≤ i := fun x => hi
  rw [Tail.bytes, Tail.bytes, getElem?_append_right (hlen crc),
    getElem?_append_right (hlen t.crc32), length_le32Bytes, length_le32Bytes]

theorem Accepted.getElem?_tail (h : Accepted f info) (hi : i < tailSize) :
    f[info.tailOffset + i]? = info.tail.bytes[i]? := by
  have := h.tail_le
  have hlen : (fread f info.tailOffset tailSize).length = tailSize := by
    rw [length_fread]
    omega
  rw [← h.tail, Tail.bytes_ofBytes hlen, fread, getElem?_take_of_lt hi, getElem?_drop]

/-! ## What a rename writes -/

section Rename

variable (big : Bool) (newname : CString) (f : Bytes) (info : Info) (e : Entry)

def newCrc : BitVec 32 := contentCrc info (writeName big newname f e)

def newTail : Tail := { info.tail with crc32 := newCrc big newname f info e }

def renamed : Bytes :=
  patch (writeName big newname f e) info.tailOffset (le32Bytes (newCrc big newname f info e))

/-- The checksum is already in the tail, and the file ends with a copy of that tail, apart
from what the name covers. -/
structure Copied : Prop where
  crc32 : fread (writeName big newname f e) info.tailOffset 4 =
    le32Bytes (newCrc big newname f info e)
  copy : ∀ i < tailSize,
    f.length - tailSize + i < e.offset + nameCrcOffset ∨
      e.offset + direntSize + e.nsize ≤ f.length - tailSize + i →
    f[f.length - tailSize + i]? = (newTail big newname f info e).bytes[i]?

/-- There is no vendor's tail, or nothing changes in the tails, and the marks of the parser
are left alone. -/
structure Fits : Prop where
  tail : info.tailOffset + tailSize = f.length ∨ Copied big newname f info e
  marks : Marks f info (renamed big newname f info e)

end Rename

section Written

variable {big : Bool} {oldname newname : CString} {e : Entry}

theorem length_hostBytes (x : BitVec 32) : (hostBytes big x).length = 4 := by
  rw [hostBytes]
  split
  · rw [length_reverse, length_le32Bytes]
  · rfl

theorem length_writeCrc (big : Bool) (x : BitVec 32)
    (hin : e.offset + direntSize + e.nsize ≤ f.length) :
    (patch f (e.offset + nameCrcOffset) (hostBytes big x)).length = f.length := by
  have := nodeSizes
  exact length_patch (by rw [length_hostBytes]; omega)

theorem length_writeName (hin : e.offset + direntSize + e.nsize ≤ f.length) :
    (writeName big newname f e).length = f.length := by
  have hcrc := length_writeCrc big (imgCrc32 0 (slice newname.mem 0 e.nsize)) hin
  rw [writeName, length_patch (by rw [hcrc, length_slice]; exact hin), hcrc]

theorem sameOn_writeName (hin : e.offset + direntSize + e.nsize ≤ f.length)
    (hab : b ≤ e.offset + nameCrcOffset ∨ e.offset + direntSize + e.nsize ≤ a) :
    SameOn (writeName big newname f e) f a b := by
  have := nodeSizes
  have hcrc := length_writeCrc big (imgCrc32 0 (slice newname.mem 0 e.nsize)) hin
  apply SameOn.trans (sameOn_patch (by omega) (by rw [length_slice]; omega))
  exact sameOn_patch (by omega) (by rw [length_hostBytes]; omega)

def written (big : Bool) (newname : CString) (f : Bytes) (info : Info) (e : Entry) : Bytes :=
  writeTail (writeName big newname f e) (newTail big newname f info e)

section

variable (h : Accepted f info) (hin : e.offset + direntSize + e.nsize ≤ f.length)

include h hin

theorem length_written : (written big newname f info e).length = f.length := by
  have := h.tail_le
  rw [written, writeTail, length_patch (by rw [Tail.length_bytes, length_writeName hin]; omega),
    length_writeName hin]

omit h in
theorem sameOn_written (hb : b ≤ f.length - tailSize) :
    SameOn (written big newname f info e) (writeName big newname f e) a b := by
  rw [written, writeTail, length_writeName hin]
  exact sameOn_patch (by rw [length_writeName hin]; omega) (.inl hb)

omit h in
theorem getElem?_written (hi : i < tailSize) :
    (written big newname f info e)[f.length - tailSize + i]? =
      (newTail big newname f info e).bytes[i]? := by
  rw [written, writeTail, length_writeName hin]
  exact getElem?_patch_inside (by rw [length_writeName hin]; omega) hi

theorem sameOn_renamed (hab : b ≤ info.tailOffset ∨ info.tailOffset + 4 ≤ a) :
    SameOn (renamed big newname f info e) (writeName big newname f e) a b := by
  have := h.tail_le
  exact sameOn_patch (by rw [length_writeName hin]; omega) hab

theorem length_renamed : (renamed big newname f info e).length = f.length := by
  have := h.tail_le
  have := sizes
  rw [renamed, length_patch (by rw [length_le32Bytes, length_writeName hin]; omega),
    length_writeName hin]

theorem fread_renamed :
    fread (renamed big newname f info e) info.tailOffset 4 =
      le32Bytes (newCrc big newname f info e) := by
  have hle : info.tailOffset ≤ (writeName big newname f e).length := by
    have := h.tail_le
    rw [length_writeName hin]
    omega
  exact window_patch hle (le32Bytes (newCrc big newname f info e))

theorem contentCrc_written :
    contentCrc info (written big newname f info e) = newCrc big newname f info e := by
  have := h.order
  rw [newCrc, contentCrc, contentCrc, fread_congr (sameOn_written hin (by omega))]

theorem sameOn_written_renamed (htail : info.tailOffset + tailSize = f.length ∨
      fread (writeName big newname f e) info.tailOffset 4 =
        le32Bytes (newCrc big newname f info e)) :
    SameOn (written big newname f info e) (renamed big newname f info e) 0
      (info.tailOffset + 4) := by
  have hle := h.tail_le
  have := sizes
  intro i _ hlt
  by_cases hi : i < info.tailOffset
  · exact ((sameOn_written hin (by omega)).trans (sameOn_renamed h hin (.inl (by omega))).symm)
      i (le_refl i) (lt_succ_self i)
  obtain ⟨j, rfl⟩ := Nat.exists_eq_add_of_le (not_lt.mp hi)
  have hj : j < 4 := by omega
  have hrenamed : (renamed big newname f info e)[info.tailOffset + j]? =
      (le32Bytes (newCrc big newname f info e))[j]? :=
    getElem?_patch_inside (by rw [length_writeName hin]; omega) hj
  rw [hrenamed]
  rcases h.tail_cases with hend | hvendor
  · have hbytes : (newTail big newname f info e).bytes[j]? =
        (le32Bytes (newCrc big newname f info e))[j]? := getElem?_append_left hj
    rw [← hbytes, ← getElem?_written hin (by omega)]
    congr 1
    omega
  · have hcopy := htail.resolve_left (by omega)
    rw [← hcopy, fread, getElem?_take_of_lt hj, getElem?_drop]
    exact sameOn_written hin (b := info.tailOffset + 4) (by omega) _ (zero_le _) hlt

theorem marks_written_iff (htail : info.tailOffset + tailSize = f.length ∨
      fread (writeName big newname f e) info.tailOffset 4 =
        le32Bytes (newCrc big newname f info e)) :
    Marks f info (written big newname f info e) ↔ Marks f info (renamed big newname f info e) := by
  have hfront := sameOn_written_renamed h hin htail
  have hsize := h.size
  have hcases := h.tail_cases
  have := sizes
  -- the place of a vendor's tail lies in neither tail
  have hvendor : SameOn (written big newname f info e) (renamed big newname f info e)
      (f.length - linksysSize) (f.length - linksysSize + 9) :=
    (sameOn_written hin (by omega)).trans (sameOn_renamed h hin (by omega)).symm
  exact ⟨Marks.congr h (length_written h hin) (length_renamed h hin) hfront.symm hvendor.symm,
    Marks.congr h (length_renamed h hin) (length_written h hin) hfront hvendor⟩

theorem accepted_written_iff (hle : info.bootfsOffset ≤ e.offset) :
    (∃ crc tail, parse (written big newname f info e) =
        .ok { info with crc32 := crc, tail := tail }) ↔
      Marks f info (written big newname f info e) ∧ newCrc big newname f info e =
        le32 (fread (written big newname f info e) info.tailOffset 4) := by
  have := sizes
  have := nodeSizes
  rw [h.same_iff (length_written h hin)
    ((sameOn_written hin (by omega)).trans (sameOn_writeName hin (.inl (by omega)))),
    contentCrc_written h hin]

theorem Renames.fits (hle : info.bootfsOffset ≤ e.offset)
    (hren : Renames f info e (written big newname f info e)) : Fits big newname f info e := by
  have := sizes
  have := nodeSizes
  obtain ⟨hmarks, hcrc⟩ := (accepted_written_iff h hin hle).mp hren.accepted
  rcases h.tail_cases with hend | hvendor
  · exact ⟨.inl hend, (marks_written_iff h hin (.inl hend)).mp hmarks⟩
  have hcopy : fread (writeName big newname f e) info.tailOffset 4 =
      le32Bytes (newCrc big newname f info e) := by
    rw [hcrc, le32Bytes_le32, fread_congr (sameOn_written hin (by omega))]
    rw [length_fread, length_written h hin]
    omega
  refine ⟨.inr ⟨hcopy, fun i hi hout => ?_⟩, (marks_written_iff h hin (.inr hcopy)).mp hmarks⟩
  by_contra hne
  rw [← getElem?_written hin hi] at hne
  have := hren.only _ (Ne.symm hne)
  omega

theorem Fits.renames (hle : info.bootfsOffset ≤ e.offset) (hfits : Fits big newname f info e) :
    Renames f info e (written big newname f info e) := by
  have htail : info.tailOffset + tailSize = f.length ∨
      fread (writeName big newname f e) info.tailOffset 4 =
        le32Bytes (newCrc big newname f info e) := hfits.tail.imp_right Copied.crc32
  have hcrc : fread (written big newname f info e) info.tailOffset 4 =
      le32Bytes (newCrc big newname f info e) := by
    rw [← fread_renamed h hin]
    exact fread_congr ((sameOn_written_renamed h hin htail).mono (zero_le _) le_rfl)
  refine ⟨(accepted_written_iff h hin hle).mpr ⟨(marks_written_iff h hin htail).mpr hfits.marks,
    by rw [hcrc, le32_le32Bytes]⟩, length_written h hin, fun i hne => ?_⟩
  by_contra hout
  apply hne
  have hname : i < e.offset + nameCrcOffset ∨ e.offset + direntSize + e.nsize ≤ i := by omega
  have hwrite : (writeName big newname f e)[i]? = f[i]? :=
    sameOn_writeName (a := i) (b := i + 1) hin (by omega) i (le_refl i) (lt_succ_self i)
  by_cases hi : i < f.length - tailSize
  · rw [← hwrite]
    exact sameOn_written (a := i) (b := i + 1) hin hi i (le_refl i) (lt_succ_self i)
  by_cases hlen : f.length ≤ i
  · rw [getElem?_eq_none hlen, getElem?_eq_none (by rw [length_written h hin]; exact hlen)]
  obtain ⟨j, rfl⟩ := Nat.exists_eq_add_of_le (not_lt.mp hi)
  rw [getElem?_written hin (by omega)]
  rcases hfits.tail with hend | hcopy
  · have hj : f.length - tailSize + j = info.tailOffset + j := by omega
    rw [hj, h.getElem?_tail (by omega), newTail, Tail.getElem?_bytes _ (by omega)]
  · exact (hcopy.copy j (by omega) hname).symm

theorem rename_eq : rename big newname f info e = .ok (written big newname f info e) := by
  rw [rename, h.calcCrc32 (length_writeName hin)]
  rfl

end

theorem bootfs_ok_iff (h : Accepted f info) (hlen : newname.len = oldname.len)
    (rest : List CString) (f' : Bytes) :
    bootfs big (oldname :: newname :: rest) f = .ok f' ↔
      ∃ e, FirstEntry big f oldname.bytes info.bootfsOffset e ∧
        f' = written big newname f info e := by
  rw [bootfs, h.parse]
  dsimp only
  rw [bootfsMv, if_neg (not_not.mpr hlen)]
  constructor
  · intro hok
    split at hok
    · cases hok
    · rename_i e hfind
      have hentry := firstEntry_of_findEntry hfind
      rw [rename_eq h hentry.inside] at hok
      exact ⟨e, hentry, (Except.ok.inj hok).symm⟩
  · rintro ⟨e, hentry, rfl⟩
    rw [hentry.findEntry (by omega)]
    exact rename_eq h hentry.inside

/-- A successful rename keeps the image valid exactly if the file ends with the tail that the
parser reads, or with a copy that needs no change, and the name hits none of the marks. -/
theorem mv_keeps_iff (hparse : parse f = .ok info) (hlen : newname.len = oldname.len)
    (rest : List CString) :
    Keeps big f info oldname newname rest ↔
      ∀ e, FirstEntry big f oldname.bytes info.bootfsOffset e → Fits big newname f info e := by
  have h := accepted_of_parse hparse
  constructor
  · intro hkeeps e hentry
    obtain ⟨e', hentry', hren⟩ := hkeeps _ ((bootfs_ok_iff h hlen rest _).mpr ⟨e, hentry, rfl⟩)
    obtain rfl := hentry.unique hentry'
    exact hren.fits h hentry.inside hentry.le
  · intro hfits f' hok
    obtain ⟨e, hentry, rfl⟩ := (bootfs_ok_iff h hlen rest f').mp hok
    exact ⟨e, hentry, (hfits e hentry).renames h hentry.inside hentry.le⟩

theorem Accepted.sameMarks (h : Accepted f info) :
    SameMarks f f info.bootfsOffset info.rootfsOffset info.paddingOffset :=
  (findRootfs_same_iff h.tail_le rfl (by omega) h.rootfs_lt (.inl rfl) (fun _ => Iff.rfl)
    h.rootfs).mp h.rootfs

theorem fits_of_first_block (h : Accepted f info)
    (hend : info.tailOffset + tailSize = f.length) (hle : info.bootfsOffset ≤ e.offset)
    (hblock : e.offset + direntSize + e.nsize ≤ info.bootfsOffset + blockSize)
    (hroom : info.rootfsOffset + linksysSize ≤ f.length) : Fits big newname f info e := by
  have := sizes
  have := nodeSizes
  have := h.order
  have hin : e.offset + direntSize + e.nsize ≤ f.length := by omega
  have hfront : SameOn (renamed big newname f info e) f 0 (info.bootfsOffset + 4) :=
    (sameOn_renamed h hin (.inl (by omega))).trans (sameOn_writeName hin (.inl (by omega)))
  have hback : SameOn (renamed big newname f info e) f (info.bootfsOffset + blockSize)
      info.tailOffset :=
    (sameOn_renamed h hin (.inl (by omega))).trans (sameOn_writeName hin (.inr (by omega)))
  have hjffs : JffsStart (renamed big newname f info e) info.bootfsOffset := by
    rw [JffsStart, fread_congr (hfront.mono (zero_le _) (by omega))]
    exact h.jffs
  have hrlen : (renamed big newname f info e).length = f.length := length_renamed h hin
  -- a later block starts behind the name
  have hlater : ∀ k, info.bootfsOffset + blockSize ≤ info.bootfsOffset + (k + 1) * blockSize := by
    intro k
    rw [succ_mul]
    omega
  refine ⟨.inl hend, ⟨?_, fun k hk => ?_, ?_, fun k hk hp => ?_⟩⟩
  · rw [hrlen, fread_congr (hback.mono (by omega) (by omega))]
  · cases k with
    | zero =>
      exact not_ubiStart_of_jffs (by omega) hjffs
    | succ k =>
      have := hlater k
      rw [UbiStart, fread_congr (hback.mono (by omega) (by omega))]
      exact h.sameMarks.blocks (k + 1) hk
  · rw [UbiStart, fread_congr (hback.mono (by omega) (by omega))]
    exact h.sameMarks.rootfs
  · cases k with
    | zero =>
      exact ⟨fun hpad => absurd hpad (not_paddingStart_of_jffs hjffs),
        fun hpad => absurd hpad (not_paddingStart_of_jffs h.jffs)⟩
    | succ k =>
      have := hlater k
      have := h.block_le hk
      rw [PaddingStart, fread_congr (hback.mono (by omega) (by omega)), PaddingStart]

end Written

/-! ## An image with one file -/

def entryNode (totlen : UInt8) : Bytes :=
  [0x85, 0x19, 0x01, 0xe0, totlen, 0, 0, 0, 0, 0, 0, 0, 0, 0, 0, 0, 0, 0, 0, 0, 0, 0, 0, 0, 0, 0, 0,
    0, 1, 8, 0, 0, 0, 0, 0, 0, 0, 0, 0, 0, 0x61]

def entryBlock (totlen : UInt8) : Bytes := entryNode totlen ++ replicate (blockSize - 41) 0

def ubiBlock : Bytes := [0x55, 0x42, 0x49, 0x23] ++ replicate 252 0

def entryImage (totlen : UInt8) (tail : Tail) (vendor : Bytes) : Bytes :=
  entryBlock totlen ++ (ubiBlock ++ (tail.bytes ++ vendor))

def linksysTail : Bytes := linksysMagic ++ replicate 247 0xff

def entryInfo (tail : Tail) : Info := ⟨0, 0, 0, blockSize, blockSize + 256, tail.crc32, tail⟩

section EntryImage

variable (totlen : UInt8) (tail : Tail) (vendor : Bytes)

theorem length_entryNode : (entryNode totlen).length = 41 := rfl

theorem length_entryBlock : (entryBlock totlen).length = blockSize := by
  have := sizes
  rw [entryBlock, length_append, length_replicate, length_entryNode]
  omega

theorem length_ubiBlock : ubiBlock.length = 256 := by
  rw [ubiBlock, length_append, length_replicate]
  rfl

theorem length_linksysTail : linksysTail.length = 256 := by
  rw [linksysTail, length_append, length_replicate]
  rfl

theorem length_entryImage :
    (entryImage totlen tail vendor).length = blockSize + 276 + vendor.length := by
  rw [entryImage, length_append, length_append, length_append,
    length_entryBlock, length_ubiBlock, Tail.length_bytes, tailSize]
  omega

theorem fread_behind (f g : Bytes) (off n : Nat) :
    fread (f ++ g) (f.length + off) n = fread g off n := by
  rw [fread, fread, ← drop_drop, drop_left]

theorem fread_entryNode (h : off + n ≤ 41) :
    fread (entryImage totlen tail vendor) off n = fread (entryNode totlen) off n := by
  rw [entryImage, entryBlock, append_assoc]
  exact fread_append _ _ h

theorem fread_entryImage (off n : Nat) :
    fread (entryImage totlen tail vendor) (blockSize + off) n =
      fread (ubiBlock ++ (tail.bytes ++ vendor)) off n := by
  rw [← length_entryBlock totlen]
  exact fread_behind _ _ off n

theorem fread_entryTail (off n : Nat) :
    fread (entryImage totlen tail vendor) (blockSize + (256 + off)) n =
      fread (tail.bytes ++ vendor) off n := by
  rw [fread_entryImage, ← length_ubiBlock]
  exact fread_behind _ _ off n

theorem jffsStart_entryImage : JffsStart (entryImage totlen tail vendor) 0 := by
  rfl

theorem ubiStart_entryImage : UbiStart (entryImage totlen tail vendor) blockSize := by
  rw [UbiStart, ← add_zero blockSize, fread_entryImage,
    fread_append _ _ (by rw [length_ubiBlock]; decide)]
  decide

theorem not_ubiStart_entryImage : ¬UbiStart (entryImage totlen tail vendor) 0 := by
  have hlen := length_entryImage totlen tail vendor
  exact not_ubiStart_of_jffs (by omega) (jffsStart_entryImage totlen tail vendor)

theorem parseTailOffset_entryImage (hvendor : vendor = [] ∨ vendor = linksysTail) :
    parseTailOffset (entryImage totlen tail vendor) = blockSize + 256 := by
  have hlen := length_entryImage totlen tail vendor
  have := sizes
  have hbytes := tail.length_bytes
  rcases hvendor with rfl | rfl
  · have hnil : ([] : Bytes).length = 0 := rfl
    have hplace : (entryImage totlen tail []).length - linksysSize = blockSize + 20 := by omega
    rw [parseTailOffset, hplace, fread_entryImage,
      fread_append _ _ (by rw [length_ubiBlock]; decide), if_neg (by decide)]
    omega
  · have hvlen := length_linksysTail
    have hplace : (entryImage totlen tail linksysTail).length - linksysSize =
        blockSize + (256 + (tail.bytes.length + 0)) := by omega
    rw [parseTailOffset, hplace, fread_entryTail, fread_behind, if_pos (by decide)]
    omega

theorem findBootfs_entryImage (hn : 0 < n) :
    findBootfs (entryImage totlen tail vendor) (blockSize + 256) n 0 = .ok 0 := by
  have hlen := length_entryImage totlen tail vendor
  have hread : (fread (entryImage totlen tail vendor) 0 2).length = 2 := by
    rw [length_fread]
    omega
  obtain ⟨m, rfl⟩ : ∃ m, n = m + 1 := ⟨n - 1, by omega⟩
  rw [findBootfs, if_pos (by omega), if_neg (not_not.mpr hread)]
  exact if_pos (jffsStart_entryImage totlen tail vendor)

theorem findRootfs_entryImage (hn : 1 < n) :
    findRootfs (entryImage totlen tail vendor) (blockSize + 256) n 0 0 = .ok (blockSize, 0) := by
  have hlen := length_entryImage totlen tail vendor
  have := sizes
  obtain ⟨m, rfl⟩ : ∃ m, n = m + 1 + 1 := ⟨n - 2, by omega⟩
  rw [findRootfs_next (by omega) (by omega) (by omega) (not_ubiStart_entryImage totlen tail vendor)]
  exact findRootfs_here (by omega) (by omega) (by omega) (ubiStart_entryImage totlen tail vendor)

theorem fread_tail_entryImage :
    fread (entryImage totlen tail vendor) (blockSize + 256) tailSize = tail.bytes := by
  rw [← add_zero 256, fread_entryTail, fread_append _ _ le_rfl, fread,
    drop_zero, ← Tail.length_bytes tail, take_length]

theorem accepted_entryImage (hvendor : vendor = [] ∨ vendor = linksysTail)
    (hcrc : tail.crc32 = crc32 0xffffffff (entryBlock totlen ++ ubiBlock)) :
    Accepted (entryImage totlen tail vendor) (entryInfo tail) := by
  have hlen := length_entryImage totlen tail vendor
  have := sizes
  have hread := fread_tail_entryImage totlen tail vendor
  have hcontent : fread (entryImage totlen tail vendor) 0 (blockSize + 256) =
      entryBlock totlen ++ ubiBlock := by
    have hboth : (entryBlock totlen ++ ubiBlock).length = blockSize + 256 := by
      rw [length_append, length_entryBlock, length_ubiBlock]
    rw [entryImage, ← append_assoc, fread_append _ _ (by omega), fread,
      drop_zero, ← hboth, take_length]
  have hcalc : calcCrc32 (entryImage totlen tail vendor) 0 (blockSize + 256) = (tail.crc32, 0) := by
    rw [calcCrc32_eq (by omega) (by omega), Nat.sub_zero, hcontent, hcrc]
  have hcferom : parseCferom (entryImage totlen tail vendor) = 0 := by
    exact if_neg (show ¬be [0x85, 0x19, 0x01, 0xe0] = CHK_MAGIC by decide)
  exact ⟨by omega, hcferom, parseTailOffset_entryImage totlen tail vendor hvendor,
    findBootfs_entryImage totlen tail vendor (show 0 < blockSize + 256 by omega),
    show 0 < blockSize + 256 by omega,
    findRootfs_entryImage totlen tail vendor (show 1 < blockSize + 256 by omega),
    show blockSize < blockSize + 256 by omega, hcalc, by
      rw [entryInfo, hread, Tail.ofBytes_bytes], rfl⟩

theorem readNode_entryImage {room : Nat} (hroom : 2 ≤ room) :
    readNode false room (entryImage totlen tail vendor) 0 = .ok (.entry [0x61]) := by
  have hnsize : nsize (entryImage totlen tail vendor) 0 = 1 := by
    rfl
  have hnode := fread_entryNode totlen tail vendor (show 0 + nodeSize ≤ 41 by decide)
  have hmagic := fread_entryNode totlen tail vendor (show 0 + 2 ≤ 41 by decide)
  have htype := fread_entryNode totlen tail vendor (show 0 + 2 + 2 ≤ 41 by decide)
  have hrest := fread_entryNode totlen tail vendor
    (show 0 + nodeSize + (direntSize - nodeSize) ≤ 41 by decide)
  have hnodeLen : (fread (entryNode totlen) 0 nodeSize).length = nodeSize := rfl
  have hmagicIs : host false (fread (entryNode totlen) 0 2) = JFFS2_MAGIC_BITMASK := rfl
  have htypeIs : host false (fread (entryNode totlen) (0 + 2) 2) = JFFS2_NODETYPE_DIRENT := rfl
  have hrestLen : (fread (entryNode totlen) (0 + nodeSize) (direntSize - nodeSize)).length =
      direntSize - nodeSize := rfl
  rw [readNode, hnode, hmagic, htype, hrest, if_neg (not_not.mpr hnodeLen),
    if_neg (not_not.mpr hmagicIs), if_neg (not_not.mpr htypeIs), if_neg (not_not.mpr hrestLen),
    if_neg (by omega)]
  rfl

end EntryImage

def shortName (c : UInt8) (hc : c ≠ 0) : CString where
  mem := fun i => if i = 0 then c else 0
  len := 1
  nonzero := fun i hi => by
    rw [if_pos (lt_one_iff.mp hi)]
    exact hc
  ends := rfl

def nameA : CString := shortName 0x61 (by decide)
def nameB : CString := shortName 0x62 (by decide)

theorem firstEntry_entryImage (totlen : UInt8) (tail : Tail) (vendor : Bytes) :
    FirstEntry false (entryImage totlen tail vendor) nameA.bytes 0 ⟨0, 1⟩ := by
  apply FirstEntry.here
  rw [look, readNode_entryImage totlen tail vendor (by decide)]
  rfl

def plainTail : Tail :=
  ⟨crc32 0xffffffff (entryBlock 41 ++ ubiBlock), WFI_VERSION, 0x4908, WFI_NAND128_FLASH,
    WFI_FLAG_SUPPORTS_BTRM⟩

theorem accepted_plainTail {vendor : Bytes} (hvendor : vendor = [] ∨ vendor = linksysTail) :
    Accepted (entryImage 41 plainTail vendor) (entryInfo plainTail) :=
  accepted_entryImage 41 plainTail vendor hvendor (by rw [plainTail])

theorem mv_keeps_entryImage :
    parse (entryImage 41 plainTail []) = .ok (entryInfo plainTail) ∧ nameB.len = nameA.len ∧
      Keeps false (entryImage 41 plainTail []) (entryInfo plainTail) nameA nameB [] := by
  have hparse : parse (entryImage 41 plainTail []) = .ok (entryInfo plainTail) :=
    (accepted_plainTail (.inl rfl)).parse
  refine ⟨hparse, rfl, (mv_keeps_iff hparse (show nameB.len = nameA.len from rfl) []).mpr
    fun e hentry => ?_⟩
  have hlen := length_entryImage 41 plainTail []
  obtain rfl := hentry.unique (firstEntry_entryImage 41 plainTail [])
  refine fits_of_first_block (accepted_plainTail (.inl rfl)) ?_ (zero_le 0) ?_ ?_
  · rw [hlen]
    exact add_assoc blockSize 256 20
  · decide
  · rw [hlen]
    exact add_le_add_left (show 256 ≤ 276 by decide) blockSize

theorem vendor_places {len block : Nat} (h : len = block + 276 + 256) :
    block + 531 = len - tailSize + 19 ∧ block + 256 + tailSize ≤ len - tailSize := by
  have := sizes
  omega

/-- The vendor's tail is overwritten, and the tail in front of it keeps the old checksum. -/
theorem not_keeps_linksys :
    parse (entryImage 41 plainTail linksysTail) = .ok (entryInfo plainTail) ∧
      nameB.len = nameA.len ∧
      (∃ f', bootfs false [nameA, nameB] (entryImage 41 plainTail linksysTail) = .ok f' ∧
        fread f' (blockSize + 256) tailSize = plainTail.bytes ∧
        f'[blockSize + 531]? = some 0 ∧
        (entryImage 41 plainTail linksysTail)[blockSize + 531]? = some 0xff) ∧
      ¬Keeps false (entryImage 41 plainTail linksysTail) (entryInfo plainTail) nameA nameB [] := by
  have h : Accepted (entryImage 41 plainTail linksysTail) (entryInfo plainTail) :=
    accepted_plainTail (.inr rfl)
  have hentry : FirstEntry false (entryImage 41 plainTail linksysTail) nameA.bytes
      (entryInfo plainTail).bootfsOffset ⟨0, 1⟩ := firstEntry_entryImage 41 plainTail linksysTail
  have hlen := length_entryImage 41 plainTail linksysTail
  rw [length_linksysTail] at hlen
  obtain ⟨hplace, hbound⟩ := vendor_places hlen
  have hok : bootfs false [nameA, nameB] (entryImage 41 plainTail linksysTail) =
      .ok (written false nameB (entryImage 41 plainTail linksysTail) (entryInfo plainTail)
        ⟨0, 1⟩) :=
    (bootfs_ok_iff h (show nameB.len = nameA.len from rfl) [] _).mpr
      ⟨_, hentry, rfl⟩
  have hnew : (written false nameB (entryImage 41 plainTail linksysTail) (entryInfo plainTail)
      ⟨0, 1⟩)[blockSize + 531]? = some 0 := by
    rw [hplace, getElem?_written hentry.inside (by decide)]
    rfl
  have hold : (entryImage 41 plainTail linksysTail)[blockSize + 531]? = some 0xff := by
    have hread : fread (entryImage 41 plainTail linksysTail)
        (blockSize + (256 + (plainTail.bytes.length + 255))) 1 = [0xff] := by
      rw [fread_entryTail]
      decide
    have hget := congrArg (fun bs : Bytes => bs[0]?) hread
    rw [fread, getElem?_take_of_lt one_pos, getElem?_drop] at hget
    exact hget
  have hstays : fread (written false nameB (entryImage 41 plainTail linksysTail)
      (entryInfo plainTail) ⟨0, 1⟩) (blockSize + 256) tailSize = plainTail.bytes := by
    rw [fread_congr ((sameOn_written hentry.inside hbound).trans
      (sameOn_writeName hentry.inside (.inr (show 0 + 40 + 1 ≤ blockSize + 256 by decide))))]
    exact fread_tail_entryImage 41 plainTail linksysTail
  refine ⟨h.parse, rfl, ⟨_, hok, hstays, hnew, hold⟩, fun hkeeps => ?_⟩
  obtain ⟨e, hentry', hren⟩ := hkeeps _ hok
  obtain rfl := hentry.unique hentry'
  have hwhere := hren.only (blockSize + 531) (by rw [hnew, hold]; decide)
  rcases hwhere with ⟨-, hlt⟩ | ⟨-, hlt⟩ | ⟨-, hlt⟩
  all_goals exact absurd hlt (by decide)

end OpenWrt.Bcm4908img
