import Mathlib
import OpenWrt.Lib.Crc
import OpenWrt.Bcm4908img.Image

/-!
# Create, parse and extract agree

`create` takes the CRC over the appended files and the parser over all of the content, so
the image is accepted when the zeros do not change the CRC and the searches come to an end
at the bootfs and at a rootfs behind it.
-/

namespace OpenWrt.Bcm4908img

open Lib List

variable {f : Bytes} {s : Created} {info : Info}
variable {off n x tail b q r p : Nat} {P : Nat → Prop}

/-! ## Reading -/

theorem length_fread (f : Bytes) (off n : Nat) :
    (fread f off n).length = min n (f.length - off) := by
  rw [fread, length_take, length_drop]

theorem fread_append (f g : Bytes) (h : off + n ≤ f.length) :
    fread (f ++ g) off n = fread f off n := by
  rw [fread, fread, drop_append_of_le_length (by omega),
    take_append_of_le_length (by rw [length_drop]; omega)]

theorem take_fread (f : Bytes) (off : Nat) {m : Nat} (h : m ≤ n) :
    (fread f off n).take m = fread f off m := by
  rw [fread, fread, take_take, min_eq_left h]

theorem fread_split (f : Bytes) (off m n : Nat) :
    fread f off m ++ fread f (off + m) n = fread f off (m + n) := by
  rw [fread, fread, fread, ← drop_drop, take_add]

theorem sizes : bufSize = 1024 ∧ blockSize = 0x20000 ∧ tailSize = 20 ∧ linksysSize = 256 :=
  ⟨rfl, rfl, rfl, rfl⟩

theorem readLoop_spec {σ : Type} {body : σ → Bytes → σ} (hnil : ∀ st, body st [] = st)
    (hbody : ∀ st a b, body (body st a) b = body st (a ++ b)) {length : Nat}
    (hn : length ≤ n) (hlen : off + length ≤ f.length) (st : σ) :
    readLoop body f n off length st = (body st (fread f off length), 0) := by
  induction n generalizing off length st with
  | zero =>
    obtain rfl : length = 0 := Nat.le_zero.mp hn
    rw [readLoop, fread, take_zero, hnil]
  | succ n ih =>
    rw [readLoop]
    split
    · rename_i hzero
      rw [hzero, fread, take_zero, hnil]
    rename_i hpos
    have := sizes
    have hpiece : (fread f off (min bufSize length)).length = min bufSize length := by
      rw [length_fread]
      omega
    rw [if_neg (by omega), hpiece, ih (by omega) (by omega), hbody, fread_split,
      Nat.add_sub_cancel' (min_le_right ..)]

/-! ## The checksum -/

theorem crc32Tbl_word : ∀ i < 256, crc32Tbl.getD i 0 = crc32Word (BitVec.ofNat 32 i) := by
  decide +kernel

theorem imgCrc32_eq (crc : BitVec 32) (buf : Bytes) : imgCrc32 crc buf = crc32 crc buf := by
  have hstep : (fun (crc : BitVec 32) (b : UInt8) =>
      crc32Tbl.getD ((crc ^^^ BitVec.ofNat 32 b.toNat) &&& 0xff#32).toNat 0 ^^^ crc >>> 8) =
      crc32Byte := by
    funext crc b
    have hlt : ((crc ^^^ BitVec.ofNat 32 b.toNat) &&& 0xff#32).toNat < 256 := by
      exact lt_of_le_of_lt Nat.and_le_right (by decide)
    rw [crc32Tbl_word _ hlt, BitVec.ofNat_toNat, BitVec.setWidth_eq, crc32Byte_word]
  rw [imgCrc32, hstep, crc32]

def fileBytes (args : List Arg) : Bytes :=
  args.flatMap fun
    | .file content => content
    | _ => []

theorem appendFile_eq {content : Bytes} (hn : content.length ≤ n) (s : Created) :
    appendFile n content s =
      ⟨s.out ++ content, crc32 s.crc32 content, s.curOffset + content.length⟩ := by
  induction n generalizing content s with
  | zero =>
    obtain rfl := eq_nil_of_length_eq_zero (Nat.le_zero.mp hn)
    simp [appendFile, crc32]
  | succ n ih =>
    have := sizes
    rw [appendFile]
    split
    · rename_i hzero
      have hnil : content = [] := by
        apply eq_nil_of_length_eq_zero
        rw [length_take] at hzero
        omega
      simp [hnil, crc32]
    · rw [ih (by rw [length_drop]; omega)]
      rw [imgCrc32_eq, ← crc32_append, append_assoc, add_assoc,
        ← length_append, take_append_drop]

theorem run_crc32 {args : List Arg} {s s' : Created} (h : args.foldlM Arg.run s = some s') :
    s'.crc32 = crc32 s.crc32 (fileBytes args) := by
  induction args generalizing s with
  | nil =>
    cases h
    rfl
  | cons arg args ih =>
    obtain ⟨t, ht, h⟩ := Option.bind_eq_some_iff.mp h
    rw [ih h]
    cases arg with
    | file content =>
      cases ht
      rw [appendFile_eq le_rfl]
      exact (crc32_append ..).symm
    | align alignment =>
      have hcrc : t.crc32 = s.crc32 := by
        rw [Arg.run] at ht
        split at ht
        · split at ht
          · cases ht
            rfl
          · cases ht
        · split at ht <;> cases ht <;> rfl
      rw [hcrc]
      rfl
    | pad size =>
      have hcrc : t.crc32 = s.crc32 := by
        rw [Arg.run] at ht
        split at ht
        · cases ht
        · cases ht
          rfl
      rw [hcrc]
      rfl

/-! ## The tail -/

theorem le32_le32Bytes (x : BitVec 32) : le32 (le32Bytes x) = x := by
  apply BitVec.eq_of_toNat_eq
  simp only [le32, le32Bytes, be, reverse_cons, reverse_nil, nil_append,
    cons_append, foldl_cons, foldl_nil, UInt8.toNat_ofNat', BitVec.toNat_ofNat]
  omega

theorem Tail.length_bytes (t : Tail) : t.bytes.length = tailSize := rfl

theorem Tail.ofBytes_bytes (t : Tail) : Tail.ofBytes t.bytes = t := by
  have hof : Tail.ofBytes t.bytes =
      ⟨le32 (le32Bytes t.crc32), le32 (le32Bytes t.version), le32 (le32Bytes t.chipId),
        le32 (le32Bytes t.flashType), le32 (le32Bytes t.flags)⟩ := rfl
  rw [hof]
  simp only [le32_le32Bytes]

/-! ## The searches -/

def JffsStart (f : Bytes) (off : Nat) : Prop := be (fread f off 2) = JFFS2_MAGIC

def UbiStart (f : Bytes) (off : Nat) : Prop := be (fread f off 4) = UBI_EC_HDR_MAGIC

def PaddingStart (f : Bytes) (off : Nat) : Prop := isAllFf (fread f off 256) = true

/-- The first block from offset `a` on that has `P`. -/
structure FirstBlock (P : Nat → Prop) (a x : Nat) : Prop where
  dvd : blockSize ∣ x
  le : a ≤ x
  holds : P x
  first : ∀ y, blockSize ∣ y → a ≤ y → y < x → ¬P y

theorem next_block {y : Nat} (hx : blockSize ∣ x) (hy : blockSize ∣ y) (hlt : x < y) :
    x + blockSize ≤ y := by
  have := Nat.le_of_dvd (Nat.sub_pos_of_lt hlt) (Nat.dvd_sub hy hx)
  omega

theorem FirstBlock.eq_or_next {a : Nat} (h : FirstBlock P a x)
    (ha : blockSize ∣ a) : a = x ∨ a + blockSize ≤ x ∧ ¬P a ∧ FirstBlock P (a + blockSize) x := by
  rcases Nat.eq_or_lt_of_le h.le with heq | hlt
  · exact .inl heq
  · refine .inr ⟨next_block ha h.dvd hlt, h.first a ha (le_refl a) hlt, h.dvd,
      next_block ha h.dvd hlt, h.holds, fun y hy hle => ?_⟩
    exact h.first y hy (by omega)

theorem FirstBlock.unique {a y : Nat} (hx : FirstBlock P a x) (hy : FirstBlock P a y) : x = y := by
  rcases lt_trichotomy x y with hlt | heq | hlt
  · exact absurd hx.holds (hy.first x hx.dvd hx.le hlt)
  · exact heq
  · exact absurd hy.holds (hx.first y hy.dvd hy.le hlt)

theorem exists_firstBlock (hx : blockSize ∣ x) (hP : P x) : ∃ b ≤ x, FirstBlock P 0 b := by
  classical
  have hex : ∃ b, blockSize ∣ b ∧ P b := ⟨x, hx, hP⟩
  refine ⟨Nat.find hex, Nat.find_min' hex ⟨hx, hP⟩, (Nat.find_spec hex).1, Nat.zero_le _,
    (Nat.find_spec hex).2, fun y hy _ hlt hPy => Nat.find_min hex hlt ⟨hy, hPy⟩⟩

theorem findBootfs_found (hoff : blockSize ∣ off) (hn : tail ≤ off + n)
    (hlen : tail + tailSize = f.length) (hb : FirstBlock (JffsStart f) off b) (hlt : b < tail) :
    findBootfs f tail n off = .ok b := by
  induction n generalizing off with
  | zero =>
    have := hb.le
    omega
  | succ n ih =>
    have hle := hb.le
    have hread : (fread f off 2).length = 2 := by
      rw [length_fread]
      have := sizes
      omega
    rw [findBootfs, if_pos (by omega), if_neg (not_not.mpr hread)]
    rcases hb.eq_or_next hoff with rfl | ⟨hnext, hnot, hb'⟩
    · exact if_pos hb.holds
    · have := sizes
      rw [if_neg (show ¬be (fread f off 2) = JFFS2_MAGIC from hnot)]
      exact ih (dvd_add hoff (dvd_refl _)) (by omega) hb'

theorem PaddingStart.take (h : PaddingStart f off) (hn : n ≤ 256) : isAllFf (fread f off n) := by
  rw [PaddingStart, isAllFf, all_eq_true] at h
  rw [isAllFf, all_eq_true]
  intro b hb
  apply h b
  rw [← take_fread f off hn] at hb
  exact mem_of_mem_take hb

theorem isAllFf_eq {bs : Bytes} (h : isAllFf bs) : bs = replicate bs.length 0xff := by
  rw [eq_replicate_iff]
  refine ⟨rfl, fun b hb => ?_⟩
  rw [isAllFf, all_eq_true] at h
  exact of_decide_eq_true (h b hb)

theorem not_paddingStart_of_be {n v : Nat} (hn : n ≤ 256)
    (hv : ∀ k ≤ n, be (replicate k 0xff) ≠ v) (h : be (fread f off n) = v) :
    ¬PaddingStart f off := by
  intro hp
  have hlen : (fread f off n).length ≤ n := by
    rw [length_fread]
    omega
  rw [isAllFf_eq (hp.take hn)] at h
  exact hv _ hlen h

theorem not_paddingStart_of_jffs (h : JffsStart f off) : ¬PaddingStart f off :=
  not_paddingStart_of_be (by decide) (by decide) h

theorem not_paddingStart_of_ubi (h : UbiStart f off) : ¬PaddingStart f off :=
  not_paddingStart_of_be (by decide) (by decide) h

theorem be_append (xs ys : Bytes) : be (xs ++ ys) = be xs * 256 ^ ys.length + be ys := by
  induction ys using reverseRecOn with
  | nil => simp [be]
  | append_singleton ys y ih =>
    have hsnoc : ∀ zs : Bytes, be (zs ++ [y]) = be zs * 256 + y.toNat := fun zs => by simp [be]
    rw [← append_assoc, hsnoc, hsnoc, ih, length_append, length_singleton,
      pow_succ, add_mul, mul_assoc, add_assoc]

theorem not_ubiStart_of_jffs (hlen : off + 4 ≤ f.length) (h : JffsStart f off) :
    ¬UbiStart f off := by
  intro hubi
  have htwo : (fread f (off + 2) 2).length = 2 := by
    rw [length_fread]
    omega
  rw [UbiStart, show 4 = 2 + 2 from rfl, ← fread_split, be_append, htwo,
    show be (fread f off 2) = JFFS2_MAGIC from h, JFFS2_MAGIC, UBI_EC_HDR_MAGIC] at hubi
  omega

def notePadding (f : Bytes) (off pad : Nat) : Nat :=
  if pad = 0 ∧ isAllFf (fread f off 256) = true then off else pad

theorem notePadding_of_ne {pad : Nat} (h : pad ≠ 0) : notePadding f off pad = pad :=
  if_neg fun hcond => h hcond.1

theorem notePadding_zero_pos (h : PaddingStart f off) : notePadding f off 0 = off :=
  if_pos ⟨rfl, h⟩

theorem notePadding_zero_neg (h : ¬PaddingStart f off) : notePadding f off 0 = 0 :=
  if_neg fun hcond => h hcond.2

theorem notePadding_ne_zero (hzero : off = 0 → ¬PaddingStart f off) :
    notePadding f off q ≠ 0 ↔ q ≠ 0 ∨ PaddingStart f off := by
  by_cases hq : q = 0
  · subst hq
    by_cases hpad : PaddingStart f off
    · rw [notePadding_zero_pos hpad]
      exact ⟨fun _ => .inr hpad, fun _ hoff => hzero hoff hpad⟩
    · rw [notePadding_zero_neg hpad]
      exact (or_iff_left hpad).symm
  · rw [notePadding_of_ne hq]
    exact (or_iff_left_of_imp fun _ => hq).symm

theorem findRootfs_step (hlt : off < tail)
    (hlen : tail + tailSize ≤ f.length) (hread : q ≠ 0 ∨ off + 256 ≤ f.length) :
    findRootfs f tail (n + 1) off q =
      if be (fread f off 4) = UBI_EC_HDR_MAGIC then .ok (off, notePadding f off q)
      else findRootfs f tail n (off + blockSize) (notePadding f off q) := by
  have := sizes
  rw [findRootfs, if_pos hlt]
  by_cases hpad : q = 0
  · have hfull : (fread f off 256).length = 256 := by
      rw [length_fread]
      omega
    simp only [notePadding, hpad, ne_eq, not_true_eq_false, if_false, hfull,
      take_fread f off (show 4 ≤ 256 by decide)]
  · have hfull : (fread f off 4).length = 4 := by
      rw [length_fread]
      omega
    simp only [notePadding, hpad, ne_eq, not_false_eq_true, if_true, false_and, if_false, hfull,
      take_fread f off (le_refl 4), not_true_eq_false]

theorem findRootfs_next (hlt : off < tail)
    (hlen : tail + tailSize ≤ f.length) (hread : q ≠ 0 ∨ off + 256 ≤ f.length)
    (hubi : ¬UbiStart f off) :
    findRootfs f tail (n + 1) off q =
      findRootfs f tail n (off + blockSize) (notePadding f off q) := by
  rw [findRootfs_step hlt hlen hread]
  exact if_neg hubi

theorem findRootfs_here (hlt : off < tail)
    (hlen : tail + tailSize ≤ f.length) (hread : q ≠ 0 ∨ off + 256 ≤ f.length)
    (hubi : UbiStart f off) : findRootfs f tail (n + 1) off q = .ok (off, q) := by
  have hpad : notePadding f off q = q :=
    if_neg fun hcond => not_paddingStart_of_ubi hubi hcond.2
  rw [findRootfs_step hlt hlen hread, hpad]
  exact if_pos hubi

theorem findRootfs_cases (hlt : off < tail) (hlen : tail + tailSize ≤ f.length)
    (h : findRootfs f tail (n + 1) off q = .ok (r, p)) :
    (q ≠ 0 ∨ off + 256 ≤ f.length) ∧
      ((UbiStart f off ∧ r = off ∧ p = q) ∨
        (¬UbiStart f off ∧
          findRootfs f tail n (off + blockSize) (notePadding f off q) = .ok (r, p))) := by
  have hread : q ≠ 0 ∨ off + 256 ≤ f.length := by
    by_contra hnot
    obtain ⟨hq, hshort⟩ := not_or.mp hnot
    obtain rfl := not_not.mp hq
    rw [findRootfs, if_pos hlt] at h
    rw [if_neg (not_not.mpr rfl), if_pos (by rw [length_fread]; omega)] at h
    cases h
  refine ⟨hread, ?_⟩
  by_cases hubi : UbiStart f off
  · rw [findRootfs_here hlt hlen hread hubi] at h
    cases h
    exact .inl ⟨hubi, rfl, rfl⟩
  · rw [findRootfs_next hlt hlen hread hubi] at h
    exact .inr ⟨hubi, h⟩

theorem findRootfs_first (hlen : tail + tailSize ≤ f.length)
    (hn : tail ≤ off + n) (hlt : r < tail) (h : findRootfs f tail n off q = .ok (r, p)) :
    UbiStart f r ∧ off ≤ r ∧ blockSize ∣ r - off := by
  induction n generalizing off q with
  | zero =>
    cases h
    omega
  | succ n ih =>
    by_cases hoff : off < tail
    · obtain ⟨-, ⟨hubi, rfl, -⟩ | ⟨-, hrest⟩⟩ := findRootfs_cases hoff hlen h
      · exact ⟨hubi, le_refl r, by rw [Nat.sub_self]; exact dvd_zero _⟩
      · have := sizes
        obtain ⟨hubi, hle, hdvd⟩ := ih (by omega) hrest
        have hsub : r - off = r - (off + blockSize) + blockSize := by omega
        exact ⟨hubi, by omega, hsub ▸ dvd_add hdvd (dvd_refl _)⟩
    · rw [findRootfs, if_neg hoff] at h
      cases h
      exact absurd hlt hoff

theorem findRootfs_found (hoff : blockSize ∣ off) (hn : tail ≤ off + n)
    (hlen : tail + tailSize = f.length) (hr : FirstBlock (UbiStart f) off r) (hlt : r < tail)
    (hzero : off = 0 → ¬PaddingStart f off) :
    ∃ p, (p ≠ 0 ↔ q ≠ 0 ∨ ∃ y, blockSize ∣ y ∧ off ≤ y ∧ y < r ∧ PaddingStart f y) ∧
      (p = q ∨ off ≤ p ∧ p < r ∧ PaddingStart f p) ∧
      findRootfs f tail n off q =
        if p = 0 ∧ f.length < r + 256 then .error (.readBytes 256) else .ok (r, p) := by
  induction n generalizing off q with
  | zero =>
    have := hr.le
    omega
  | succ n ih =>
    rcases hr.eq_or_next hoff with rfl | ⟨hnext, hnot, hr'⟩
    · refine ⟨q, ?_, .inl rfl, ?_⟩
      · constructor
        · exact .inl
        · rintro (h | ⟨y, _, hle, hlt', _⟩)
          · exact h
          · omega
      · by_cases hread : q = 0 ∧ f.length < off + 256
        · rw [if_pos hread, findRootfs, if_pos hlt]
          rw [if_neg (not_not.mpr hread.1), if_pos]
          rw [length_fread]
          omega
        · rw [if_neg hread, findRootfs_here hlt (le_of_eq hlen) (by omega) hr.holds]
    · have := sizes
      rw [findRootfs_next (by omega) (le_of_eq hlen) (by omega) hnot]
      obtain ⟨p, hp, hwhere, hfind⟩ :=
        ih (q := notePadding f off q) (dvd_add hoff (dvd_refl _)) (by omega) hr' (by omega)
      refine ⟨p, ?_, ?_, hfind⟩
      · rw [hp, notePadding_ne_zero hzero, or_assoc]
        refine or_congr_right ⟨?_, ?_⟩
        · rintro (hpad | ⟨y, hy, hle, hlt', hpad⟩)
          · exact ⟨off, hoff, le_refl _, by omega, hpad⟩
          · exact ⟨y, hy, by omega, hlt', hpad⟩
        · rintro ⟨y, hy, hle, hlt', hpad⟩
          rcases Nat.eq_or_lt_of_le hle with rfl | hlt''
          · exact .inl hpad
          · exact .inr ⟨y, hy, next_block hoff hy hlt'', hlt', hpad⟩
      · rcases hwhere with rfl | ⟨hle, hlt', hpad⟩
        · rw [notePadding]
          split
          · rename_i hcond
            exact .inr ⟨le_refl _, by omega, hcond.2⟩
          · exact .inl rfl
        · exact .inr ⟨by omega, hlt', hpad⟩

/-! ## What the parser accepts -/

structure Accepted (f : Bytes) (info : Info) : Prop where
  size : bufSize ≤ f.length
  cferom : parseCferom f = info.cferomOffset
  tailOffset : parseTailOffset f = info.tailOffset
  bootfs : findBootfs f info.tailOffset info.tailOffset info.cferomOffset = .ok info.bootfsOffset
  bootfs_lt : info.bootfsOffset < info.tailOffset
  rootfs : findRootfs f info.tailOffset info.tailOffset info.bootfsOffset 0 =
    .ok (info.rootfsOffset, info.paddingOffset)
  rootfs_lt : info.rootfsOffset < info.tailOffset
  checksum : calcCrc32 f info.cferomOffset info.tailOffset = (info.crc32, 0)
  tail : Tail.ofBytes (fread f info.tailOffset tailSize) = info.tail
  valid : info.crc32 = info.tail.crc32

theorem parseTailOffset_le (hsize : bufSize ≤ f.length) :
    parseTailOffset f + tailSize ≤ f.length := by
  have := sizes
  rw [parseTailOffset]
  split <;> omega

theorem Accepted.tail_le (h : Accepted f info) : info.tailOffset + tailSize ≤ f.length :=
  h.tailOffset ▸ parseTailOffset_le h.size

theorem Accepted.parse (h : Accepted f info) : parse f = .ok info := by
  have hread : (fread f info.tailOffset tailSize).length = tailSize := by
    have := h.tail_le
    rw [length_fread]
    omega
  rw [Bcm4908img.parse, if_neg (not_lt.mpr h.size), h.cferom, h.tailOffset, h.bootfs]
  dsimp only
  rw [if_neg (not_le.mpr h.bootfs_lt), h.rootfs]
  dsimp only
  rw [if_neg (not_le.mpr h.rootfs_lt), h.checksum, h.tail, if_neg (not_not.mpr rfl),
    if_neg (not_not.mpr hread), if_neg (not_not.mpr h.valid)]

theorem accepted_of_parse (h : parse f = .ok info) : Accepted f info := by
  rw [parse] at h
  generalize hcferom : parseCferom f = cferom at h
  generalize htail : parseTailOffset f = tail at h
  split at h
  · cases h
  rename_i hsize
  split at h
  · cases h
  rename_i b hb
  split at h
  · cases h
  rename_i hblt
  split at h
  · cases h
  rename_i r p hr
  split at h
  · cases h
  rename_i hrlt
  dsimp only at h
  split at h
  · cases h
  rename_i hrest
  split at h
  · cases h
  split at h
  · cases h
  rename_i hvalid
  cases h
  exact ⟨not_lt.mp hsize, hcferom, htail, hb, not_le.mp hblt, hr,
    not_le.mp hrlt, Prod.ext rfl (not_not.mp hrest), rfl, not_not.mp hvalid⟩

theorem calcCrc32_eq {cferom : Nat} (hle : cferom ≤ tail) (htail : tail ≤ f.length) :
    calcCrc32 f cferom tail = (crc32 0xffffffff (fread f cferom (tail - cferom)), 0) := by
  rw [calcCrc32, readLoop_spec (fun st => rfl) (fun st a b => ?_) (by omega) (by omega),
    imgCrc32_eq]
  rw [imgCrc32_eq, imgCrc32_eq, imgCrc32_eq, crc32_append]

/-! ## The image -/

theorem length_image (s : Created) : s.out.length + tailSize = s.image.length := by
  rw [Created.image, length_append, Tail.length_bytes]

/-- The bootfs is the first JFFS2 block, a UBI block lies behind it, and that one has 256
bytes to the end of the file or a block of padding before it. -/
def ScanFinds (s : Created) : Prop :=
  ∃ b r, FirstBlock (JffsStart s.image) 0 b ∧ FirstBlock (UbiStart s.image) b r ∧
    r < s.out.length ∧ (r + 256 ≤ s.image.length ∨
      ∃ y, blockSize ∣ y ∧ b ≤ y ∧ y < r ∧ PaddingStart s.image y)

theorem calcCrc32_image (s : Created) :
    calcCrc32 s.image 0 s.out.length = (crc32 0xffffffff s.out, 0) := by
  have hlen := length_image s
  have hout : fread s.image 0 s.out.length = s.out := by
    rw [Created.image, fread_append _ _ (by omega), fread, drop_zero, take_length]
  rw [calcCrc32_eq (Nat.zero_le _) (by omega), Nat.sub_zero, hout]

theorem fread_tail (s : Created) : fread s.image s.out.length tailSize = (createTail s).bytes := by
  rw [fread, Created.image, drop_left, ← Tail.length_bytes (createTail s), take_length]

theorem parse_ok (hcferom : parseCferom s.image = 0)
    (htail : parseTailOffset s.image = s.out.length) (hparse : parse s.image = .ok info) :
    ∃ b r p, findBootfs s.image s.out.length s.out.length 0 = .ok b ∧
      findRootfs s.image s.out.length s.out.length b 0 = .ok (r, p) ∧ r < s.out.length ∧
      crc32 0xffffffff s.out = s.crc32 := by
  obtain ⟨-, hc, ht, hb, -, hr, hlt, hcrc, htl, hvalid⟩ := accepted_of_parse hparse
  rw [hcferom] at hc
  rw [htail] at ht
  rw [← hc, ← ht] at hb hcrc
  rw [← ht] at hr hlt htl
  rw [fread_tail, Tail.ofBytes_bytes] at htl
  rw [calcCrc32_image] at hcrc
  exact ⟨_, _, _, hb, hr, hlt, (congrArg Prod.fst hcrc).trans (hvalid.trans (by rw [← htl]; rfl))⟩

theorem Info.range_inside {crc : BitVec 32} {t : Tail} (hbr : b < r)
    (hrt : r < tail) (hbp : p ≠ 0 → b < p ∧ p < r) {type : Part} (htype : type ≠ .cferom) :
    (Info.range ⟨0, b, p, r, tail, crc, t⟩ type).2 ≠ 0 ∧
      (Info.range ⟨0, b, p, r, tail, crc, t⟩ type).1 +
        (Info.range ⟨0, b, p, r, tail, crc, t⟩ type).2 ≤ tail := by
  cases type with
  | cferom => exact absurd rfl htype
  | bootfs =>
    dsimp only [Info.range]
    split <;> omega
  | rootfs | firmware =>
    dsimp only [Info.range]
    omega

theorem extract_ok {type : Part} (hparse : parse s.image = .ok info)
    (hpos : (info.range type).2 ≠ 0)
    (hle : (info.range type).1 + (info.range type).2 ≤ s.out.length) :
    extract type s.image = .ok (fread s.out (info.range type).1 (info.range type).2) := by
  have hlen := length_image s
  rw [extract, hparse]
  dsimp only
  rw [if_neg hpos, readLoop_spec (fun st => append_nil st)
    (fun st a b => append_assoc st a b) le_rfl (by omega),
    if_neg (not_not.mpr rfl), nil_append, Created.image, fread_append _ _ hle]

theorem exists_ubi {m : Nat} (h : ∃ y, blockSize ∣ y ∧ b ≤ y ∧ y < m ∧ UbiStart f y) :
    ∃ r, FirstBlock (UbiStart f) b r ∧ r < m := by
  obtain ⟨y, hy, hby, hym, hstart⟩ := h
  obtain ⟨r, hry, hr⟩ := exists_firstBlock (P := fun x => b ≤ x ∧ UbiStart f x) hy ⟨hby, hstart⟩
  exact ⟨r, ⟨hr.dvd, hr.holds.1, hr.holds.2, fun z hz hbz hlt hubi =>
    hr.first z hz (Nat.zero_le z) hlt ⟨hbz, hubi⟩⟩, by omega⟩

theorem scanFinds_iff (hb : FirstBlock (JffsStart s.image) 0 b)
    (hr : FirstBlock (UbiStart s.image) b r) (hrlt : r < s.out.length)
    (hp : p ≠ 0 ↔ 0 ≠ 0 ∨ ∃ y, blockSize ∣ y ∧ b ≤ y ∧ y < r ∧ PaddingStart s.image y) :
    ScanFinds s ↔ ¬(p = 0 ∧ s.image.length < r + 256) := by
  constructor
  · rintro ⟨b', r', hb', hr', _, hor⟩ ⟨hp0, hshort⟩
    obtain rfl := hb.unique hb'
    obtain rfl := hr.unique hr'
    rcases hor with hlong | hpad
    · omega
    · exact hp.mpr (.inr hpad) hp0
  · intro hread
    refine ⟨b, r, hb, hr, hrlt, ?_⟩
    by_cases hp0 : p = 0
    · exact .inl (by omega)
    · exact .inr ((hp.mp hp0).resolve_left (not_not.mpr rfl))

/-- The image of `create` is accepted, and its parts are extracted from the offsets the
parser reports, exactly when the zeros leave the CRC alone and the searches succeed. -/
theorem create_parse_extract {args : List Arg} (hs : createContent args = some s)
    (hsize : bufSize ≤ s.image.length) (hchk : be (fread s.image 0 4) ≠ CHK_MAGIC)
    (hlinksys : fread s.image (s.image.length - linksysSize) 9 ≠ linksysMagic)
    (hjffs : ∃ j, blockSize ∣ j ∧ j + 2 ≤ s.out.length ∧ JffsStart s.out j) :
    (∃ info, parse s.image = .ok info ∧ info.crc32 = info.tail.crc32 ∧
      ∀ type, type ≠ .cferom →
        extract type s.image = .ok (fread s.out (info.range type).1 (info.range type).2)) ↔
      crc32 0xffffffff s.out = crc32 0xffffffff (fileBytes args) ∧ ScanFinds s := by
  have hlen := length_image s
  have hcferom : parseCferom s.image = 0 := if_neg hchk
  have htail : parseTailOffset s.image = s.out.length := by
    rw [parseTailOffset, if_neg hlinksys]
    omega
  have hcrc : s.crc32 = crc32 0xffffffff (fileBytes args) := run_crc32 hs
  obtain ⟨j, hj, hjlen, hstart⟩ := hjffs
  have hstart' : JffsStart s.image j := by
    rw [JffsStart, Created.image, fread_append _ _ hjlen]
    exact hstart
  obtain ⟨b, hbj, hb⟩ := exists_firstBlock hj hstart'
  have hblt : b < s.out.length := by omega
  have hfindb := findBootfs_found (n := s.out.length) (dvd_zero _) (by omega) hlen hb hblt
  have hbff : ¬PaddingStart s.image b := not_paddingStart_of_jffs hb.holds
  by_cases hubi : ∃ y, blockSize ∣ y ∧ b ≤ y ∧ y < s.out.length ∧ UbiStart s.image y
  · obtain ⟨r, hr, hrlt⟩ := exists_ubi hubi
    obtain ⟨p, hp, hwhere, hfindr⟩ := findRootfs_found (n := s.out.length) (q := 0) hb.dvd
      (by omega) hlen hr hrlt fun _ => hbff
    rw [scanFinds_iff hb hr hrlt hp, ← hcrc]
    by_cases hread : p = 0 ∧ s.image.length < r + 256
    · constructor
      · rintro ⟨info, hparse, _⟩
        obtain ⟨b', r', p', hb', hr', _⟩ := parse_ok hcferom htail hparse
        obtain rfl := Except.ok.inj (hfindb.symm.trans hb')
        rw [hfindr, if_pos hread] at hr'
        cases hr'
      · exact fun h => absurd hread h.2
    · rw [if_neg hread] at hfindr
      constructor
      · rintro ⟨info, hok, _⟩
        obtain ⟨_, _, _, _, _, _, heq⟩ := parse_ok hcferom htail hok
        exact ⟨heq, hread⟩
      · rintro ⟨heq, _⟩
        have hparse : parse s.image =
            .ok ⟨0, b, p, r, s.out.length, crc32 0xffffffff s.out, createTail s⟩ :=
          Accepted.parse ⟨hsize, hcferom, htail, hfindb, hblt, hfindr, hrlt, calcCrc32_image s,
            by rw [fread_tail, Tail.ofBytes_bytes], heq⟩
        refine ⟨_, hparse, heq, fun type htype => ?_⟩
        have hbr : b < r := by
          refine lt_of_le_of_ne hr.le fun hbr => ?_
          exact not_ubiStart_of_jffs (by omega) hb.holds (hbr ▸ hr.holds)
        have hbp : p ≠ 0 → b < p ∧ p < r := by
          intro hp0
          obtain ⟨hle, hlt, hpad⟩ := hwhere.resolve_left hp0
          exact ⟨lt_of_le_of_ne hle fun hbp => hbff (hbp ▸ hpad), hlt⟩
        obtain ⟨hpos, hle⟩ := Info.range_inside hbr hrlt hbp htype
        exact extract_ok hparse hpos hle
  · constructor
    · rintro ⟨info, hparse, _⟩
      obtain ⟨b', r, p, hb', hr, hrlt, _⟩ := parse_ok hcferom htail hparse
      obtain rfl := Except.ok.inj (hfindb.symm.trans hb')
      obtain ⟨hubir, hle, hdvd⟩ := findRootfs_first (le_of_eq hlen) (by omega) hrlt hr
      exact absurd ⟨r, (Nat.dvd_sub_iff_left hle hb.dvd).mp hdvd, hle, hrlt, hubir⟩ hubi
    · rintro ⟨_, b', r, hb', hr, hrlt, _⟩
      obtain rfl := hb.unique hb'
      exact absurd ⟨r, hr.dvd, hr.le, hrlt, hr.holds⟩ hubi

/-! ## A fixed image -/

/-- A JFFS2 magic, four bytes that bring the CRC to zero, and zeros to the end of the block. -/
def bootfsFile : Bytes :=
  [0x85, 0x19, 0xce, 0x29, 0xb9, 0x9c] ++ replicate (blockSize - 6) 0

/-- A UBI magic, four bytes that bring the CRC to zero again, zeros and a one. -/
def rootfsFile : Bytes :=
  [0x55, 0x42, 0x49, 0x23, 0x00, 0x23, 0x11, 0x0c] ++ (replicate 248 0 ++ [1])

theorem length_bootfsFile : bootfsFile.length = blockSize := by
  rw [bootfsFile, length_append, length_replicate]
  rfl

theorem length_rootfsFile : rootfsFile.length = 257 := by
  rw [rootfsFile, length_append, length_append, length_replicate]
  rfl

theorem crc32_bootfsFile : crc32 0xffffffff bootfsFile = 0 := by
  have hzero : crc32 0xffffffff [0x85, 0x19, 0xce, 0x29, 0xb9, 0x9c] = 0 := by decide +kernel
  rw [bootfsFile, crc32_append, hzero, crc32_replicate_zero]

theorem crc32_rootfsFile : crc32 0 rootfsFile = 0x77073096 := by
  have hzero : crc32 0 [0x55, 0x42, 0x49, 0x23, 0x00, 0x23, 0x11, 0x0c] = 0 := by decide +kernel
  rw [rootfsFile, crc32_append, hzero, crc32_append, crc32_replicate_zero]
  decide +kernel

theorem fread_bootfsFile (g : Bytes) (off n : Nat) :
    fread (bootfsFile ++ g) (blockSize + off) n = fread g off n := by
  rw [fread, fread, ← length_bootfsFile, ← drop_drop, drop_left]

theorem fread_bootfsFile_start (g : Bytes) (hn : n ≤ 6) :
    fread (bootfsFile ++ g) 0 n = fread [0x85, 0x19, 0xce, 0x29, 0xb9, 0x9c] 0 n := by
  rw [bootfsFile, append_assoc, fread_append _ _ (by simpa using hn)]

theorem fixed_image {z : Bytes} (hout : s.out = bootfsFile ++ (rootfsFile ++ z))
    (hz : z.length ≤ 1) :
    bufSize ≤ s.image.length ∧ be (fread s.image 0 4) ≠ CHK_MAGIC ∧
      fread s.image (s.image.length - linksysSize) 9 ≠ linksysMagic ∧
      (∃ j, blockSize ∣ j ∧ j + 2 ≤ s.out.length ∧ JffsStart s.out j) ∧
      ∃ u, blockSize ∣ u ∧ u + 4 ≤ s.out.length ∧ UbiStart s.out u := by
  have hlen : s.out.length = blockSize + 257 + z.length := by
    rw [hout, length_append, length_append, length_bootfsFile, length_rootfsFile,
      add_assoc]
  have himage := length_image s
  have := sizes
  have hlinksys : s.image.length - linksysSize = blockSize + (21 + z.length) := by
    omega
  have happ : s.image = bootfsFile ++ (rootfsFile ++ (z ++ (createTail s).bytes)) := by
    rw [Created.image, hout, append_assoc, append_assoc]
  refine ⟨by omega, ?_, ?_, ⟨0, dvd_zero _, by omega, ?_⟩, blockSize, dvd_refl _,
    by omega, ?_⟩
  · rw [happ, fread_bootfsFile_start _ (by decide)]
    decide
  · rw [hlinksys, happ, fread_bootfsFile, fread_append _ _ (by rw [length_rootfsFile]; omega)]
    generalize z.length = k at hz
    have : k = 0 ∨ k = 1 := by omega
    rcases this with rfl | rfl <;> decide
  · rw [JffsStart, hout, fread_bootfsFile_start _ (by decide)]
    decide
  · rw [UbiStart, hout, ← add_zero blockSize, fread_bootfsFile,
      fread_append _ _ (by rw [length_rootfsFile]; decide)]
    decide

theorem scanFinds_fixed {z : Bytes} (hout : s.out = bootfsFile ++ (rootfsFile ++ z)) :
    ScanFinds s := by
  have happ : s.image = bootfsFile ++ (rootfsFile ++ (z ++ (createTail s).bytes)) := by
    rw [Created.image, hout, append_assoc, append_assoc]
  have hlen : s.out.length = blockSize + 257 + z.length := by
    rw [hout, length_append, length_append, length_bootfsFile, length_rootfsFile,
      add_assoc]
  have himage := length_image s
  have hjffs : JffsStart s.image 0 := by
    rw [JffsStart, happ, fread_bootfsFile_start _ (by decide)]
    decide
  have hubi : UbiStart s.image blockSize := by
    rw [UbiStart, happ, ← add_zero blockSize, fread_bootfsFile,
      fread_append _ _ (by rw [length_rootfsFile]; decide)]
    decide
  refine ⟨0, blockSize, ⟨Nat.dvd_zero _, Nat.le_refl _, hjffs, by omega⟩,
    ⟨Nat.dvd_refl _, Nat.zero_le _, hubi, fun y hy _ hlt => ?_⟩, by omega, .inl (by omega)⟩
  obtain rfl : y = 0 := Nat.eq_zero_of_dvd_of_lt hy hlt
  exact not_ubiStart_of_jffs (by omega) hjffs

def plainArgs : List Arg := [.file bootfsFile, .file rootfsFile]

def plainCreated : Created :=
  ⟨bootfsFile ++ rootfsFile, crc32 0 rootfsFile, blockSize + 257⟩

theorem createContent_plain : createContent plainArgs = some plainCreated := by
  have hrun : createContent plainArgs = some (appendFile rootfsFile.length rootfsFile
      (appendFile bootfsFile.length bootfsFile ⟨[], 0xffffffff, 0⟩)) := rfl
  rw [hrun, appendFile_eq le_rfl, appendFile_eq le_rfl, length_bootfsFile,
    crc32_bootfsFile, nil_append, zero_add, plainCreated, length_rootfsFile]

theorem create_parse_extract_plain :
    ∃ info, parse plainCreated.image = .ok info ∧
      extract .rootfs plainCreated.image = .ok (fread plainCreated.out info.rootfsOffset
        (info.tailOffset - info.rootfsOffset)) := by
  have hout : plainCreated.out = bootfsFile ++ (rootfsFile ++ []) := by
    rw [plainCreated, append_nil]
  obtain ⟨hsize, hchk, hlinksys, hjffs, _⟩ := fixed_image hout (by decide)
  have hcrc : crc32 0xffffffff plainCreated.out = crc32 0xffffffff (fileBytes plainArgs) := by
    have hfiles : fileBytes plainArgs = plainCreated.out := by
      simp [fileBytes, plainArgs, plainCreated]
    rw [hfiles]
  obtain ⟨info, hparse, _, hextract⟩ :=
    (create_parse_extract createContent_plain hsize hchk hlinksys hjffs).mpr
      ⟨hcrc, scanFinds_fixed hout⟩
  exact ⟨info, hparse, hextract .rootfs (by decide)⟩

/-- With one zero of alignment behind both files the CRC in the tail is not that of the
content. -/
theorem aligned_image_rejected :
    ∃ s, createContent (plainArgs ++ [.align 2]) = some s ∧ bufSize ≤ s.image.length ∧
      be (fread s.image 0 4) ≠ CHK_MAGIC ∧
      fread s.image (s.image.length - linksysSize) 9 ≠ linksysMagic ∧
      (∃ j, blockSize ∣ j ∧ j + 2 ≤ s.out.length ∧ JffsStart s.out j) ∧
      (∃ u, blockSize ∣ u ∧ u + 4 ≤ s.out.length ∧ UbiStart s.out u) ∧
      ∀ info, parse s.image ≠ .ok info := by
  have hcreate : createContent (plainArgs ++ [.align 2]) = some (appendZeros 1 plainCreated) := by
    rw [createContent, foldlM_append]
    have hplain : foldlM Arg.run ⟨[], 0xffffffff, 0⟩ plainArgs = some plainCreated :=
      createContent_plain
    rw [hplain]
    rfl
  have hout : (appendZeros 1 plainCreated).out = bootfsFile ++ (rootfsFile ++ [0]) := by
    rw [appendZeros, plainCreated, append_assoc]
    rfl
  obtain ⟨hsize, hchk, hlinksys, hjffs, hubi⟩ := fixed_image hout (by decide)
  refine ⟨_, hcreate, hsize, hchk, hlinksys, hjffs, hubi, fun info hparse => ?_⟩
  have htail : parseTailOffset (appendZeros 1 plainCreated).image =
      (appendZeros 1 plainCreated).out.length := by
    have := length_image (appendZeros 1 plainCreated)
    rw [parseTailOffset, if_neg hlinksys]
    omega
  obtain ⟨_, _, _, _, _, _, hcrc⟩ := parse_ok (if_neg hchk) htail hparse
  have hcrc' : (appendZeros 1 plainCreated).crc32 = crc32 0 rootfsFile := by
    rw [appendZeros, plainCreated]
  rw [hout, hcrc', crc32_append, crc32_bootfsFile, crc32_append, crc32_rootfsFile] at hcrc
  exact absurd hcrc (by decide +kernel)

end OpenWrt.Bcm4908img
