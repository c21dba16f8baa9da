import OpenWrt.Nmbm.Proofs.Erasing

/-!
# Searching a chip for what NMBM wrote

When a chip is attached, `nmbm_find_signature` looks for the signature block from the end of
the chip downwards, and the headers of the info tables are checked before the tables are used.
The search counts in `uint32_t` and does not stop at block 0 when its limit is 0; the checks of
the offsets are differences of `uint32_t` that wrap.
-/

namespace OpenWrt.Nmbm

open Lib Lib.Prog

variable {D : Type} {nld : Lower D} {fuel : Nat} {w w' : World D}
variable {signature : Signature} {b : Buffer} {s size : Nat}

/-! ## Offsets of the tables -/

def InfoTableHeader.InBuffer (nld : Lower D) (h : InfoTableHeader) : Prop :=
  h.stateTableOff + nld.stateTableSize ≤ nld.infoTableSize ∧
    h.mappingTableOff + nld.mappingTableSize ≤ nld.infoTableSize

/-- Whatever the bytes of an image are, if its header is accepted then the tables lie inside it
exactly if neither of the two differences of offsets wraps, or the state table behind the
mapping table fits by itself. -/
theorem inBuffer_iff_of_checkInfoTableHeader (nld : Lower D) (b : Buffer)
    (haccept : checkInfoTableHeader nld (InfoTableHeader.ofBuffer nld.bigEndian b) = true) :
    (InfoTableHeader.ofBuffer nld.bigEndian b).InBuffer nld ↔
      word nld.bigEndian b 24 ≤ nld.infoTableSize ∧
      (word nld.bigEndian b 20 ≤ word nld.bigEndian b 24 ∨
        word nld.bigEndian b 20 + nld.stateTableSize ≤ nld.infoTableSize) := by
  simp only [checkInfoTableHeader, InfoTableHeader.ofBuffer, Bool.and_eq_true] at haccept
  have hstate := of_decide_eq_true haccept.1.2
  have hmapping := of_decide_eq_true haccept.2
  simp only [InfoTableHeader.InBuffer, InfoTableHeader.ofBuffer]
  unfold sub32 at hstate hmapping
  constructor
  · rintro ⟨hfits, hfits'⟩
    exact ⟨by omega, .inr hfits⟩
  rintro ⟨hle, hcases⟩
  rw [if_pos hle] at hmapping
  refine ⟨?_, by omega⟩
  rcases hcases with hle' | hfits
  · rw [if_pos hle'] at hstate
    omega
  · exact hfits

def imageWith (nld : Lower D) (stateTableOff mappingTableOff : Nat) : Buffer :=
  updateChecksum nld.bigEndian (storeBytes (fun _ => 0xff) 0 (InfoTableHeader.bytes nld.bigEndian
    ⟨NMBM_MAGIC_INFO_TABLE, NMBM_VER, nld.infoTableSize, 0, 1, stateTableOff, mappingTableOff, 0⟩))

theorem inBuffer_of_usual_offsets :
    (InfoTableHeader.ofBuffer false (imageWith smallChip 64 128)).InBuffer smallChip :=
  (inBuffer_iff_of_checkInfoTableHeader smallChip (imageWith smallChip 64 128)
    (by decide +kernel)).mpr (by decide +kernel)

/-- A state table that is said to begin 256 bytes before the end of the address space. -/
theorem accepted_outside_buffer :
    checkHeader false (imageWith smallChip 0xffffff00 128) smallChip.infoTableSize = true ∧
      checkInfoTableHeader smallChip
        (InfoTableHeader.ofBuffer false (imageWith smallChip 0xffffff00 128)) = true ∧
      ¬(InfoTableHeader.ofBuffer false (imageWith smallChip 0xffffff00 128)).InBuffer
        smallChip := by
  refine ⟨by decide +kernel, by decide +kernel, ?_⟩
  have hoff : (InfoTableHeader.ofBuffer false (imageWith smallChip 0xffffff00 128)).stateTableOff =
      0xffffff00 := by decide +kernel
  have hsize : smallChip.infoTableSize = 192 := by decide
  rintro ⟨hstate, -⟩
  omega

/-! ## The search for the signature -/

def searchLimit (nld : Lower D) : Nat :=
  let limit := nld.blockCount / NMBM_MGMT_DIV * (NMBM_MGMT_DIV - nld.maxRatio)
  if nld.maxReservedBlocks ≠ 0 ∧ nld.blockCount - limit > nld.maxReservedBlocks then
    nld.blockCount - nld.maxReservedBlocks
  else limit

theorem findSignature_eq (fuel : Nat) : findSignature nld fuel =
    findSignatureLoop nld (searchLimit nld) fuel nld.blockCount := rfl

def examineBlock (nld : Lower D) (ba : Nat) : M D (Option Signature) := do
  let bad ← checkBadPhysBlock nld ba
  if bad then pure none else searchPages nld nld.pagesPerBlock (nld.ba2addr ba)

theorem findSignatureLoop_succ (limit n ba : Nat) :
    findSignatureLoop nld limit (n + 1) ba =
      if ba < limit then pure none
      else examineBlock nld (sub32 ba 1) >>= fun
        | some signature => pure (some (signature, sub32 ba 1))
        | none => findSignatureLoop nld limit n (sub32 ba 1) := by
  rw [findSignatureLoop]
  split
  · rfl
  simp only [examineBlock, bind_assoc]
  congr 1
  funext bad
  cases bad with
  | true => rfl
  | false => rfl

instance {n off : Nat} {data : Buffer} {ptr sizeremain : Nat} :
    Total (readDataLoop nld n off data ptr sizeremain) := by
  induction n generalizing off data ptr sizeremain with
  | zero => exact total_pure
  | succ n ih =>
    simp only [readDataLoop]
    infer_instance

instance {addr size ptr : Nat} {data : Buffer} : Total (readData nld addr data ptr size) :=
  inferInstanceAs (Total (readDataLoop nld size addr data ptr size))

instance {n addr : Nat} : Total (searchPages nld n addr) := by
  induction n generalizing addr with
  | zero => exact total_pure
  | succ n ih => exact total_bind

instance {ba : Nat} : Total (examineBlock nld ba) := total_bind

/-- The search that stands at block `ba` comes to examine block `b`. -/
inductive Examines (nld : Lower D) (limit : Nat) : (ba : Nat) → World D → (b : Nat) → Prop
  | next {ba : Nat} {w : World D} (hle : limit ≤ ba) : Examines nld limit ba w (sub32 ba 1)
  | later {ba b : Nat} {w w₁ : World D} (hle : limit ≤ ba)
      (hnone : examineBlock nld (sub32 ba 1) w = some (none, w₁))
      (hrest : Examines nld limit (sub32 ba 1) w₁ b) : Examines nld limit ba w b

/-- The search ends, and examines blocks of the chip only. -/
def SearchTotal (nld : Lower D) (w : World D) : Prop :=
  (∃ n, ∀ fuel ≥ n, Ends (findSignature nld fuel) w) ∧
    ∀ b, Examines nld (searchLimit nld) nld.blockCount w b → b < nld.blockCount

section Loop

variable {limit ba n : Nat} {w₁ : World D}

theorem findSignatureLoop_stop (hlt : ba < limit) :
    findSignatureLoop nld limit (n + 1) ba w = some (none, w) := by
  rw [findSignatureLoop_succ, if_pos hlt]
  rfl

theorem findSignatureLoop_found (hle : limit ≤ ba)
    (hfound : examineBlock nld (sub32 ba 1) w = some (some signature, w₁)) :
    findSignatureLoop nld limit (n + 1) ba w = some (some (signature, sub32 ba 1), w₁) := by
  rw [findSignatureLoop_succ, if_neg (not_lt.mpr hle)]
  change (examineBlock nld (sub32 ba 1) w).bind _ = _
  rw [hfound]
  rfl

theorem findSignatureLoop_none (hle : limit ≤ ba)
    (hnone : examineBlock nld (sub32 ba 1) w = some (none, w₁)) :
    findSignatureLoop nld limit (n + 1) ba w =
      findSignatureLoop nld limit n (sub32 ba 1) w₁ := by
  rw [findSignatureLoop_succ, if_neg (not_lt.mpr hle)]
  change (examineBlock nld (sub32 ba 1) w).bind _ = _
  rw [hnone]
  rfl

theorem findSignatureLoop_ends (hlimit : 0 < limit) (hn : ba < n) (w : World D) :
    Ends (findSignatureLoop nld limit n ba) w := by
  induction n generalizing ba w with
  | zero => omega
  | succ n ih =>
    by_cases hlt : ba < limit
    · exact ⟨_, _, findSignatureLoop_stop hlt⟩
    have hsub : sub32 ba 1 = ba - 1 := sub32_of_le (by omega)
    obtain ⟨r, w₁, hround⟩ := Total.ends (examineBlock nld (sub32 ba 1)) w
    cases r with
    | some signature => exact ⟨_, _, findSignatureLoop_found (by omega) hround⟩
    | none =>
      obtain ⟨r, w₂, hrest⟩ := ih (show sub32 ba 1 < n by omega) w₁
      exact ⟨r, w₂, (findSignatureLoop_none (by omega) hround).trans hrest⟩

theorem Examines.lt {b : Nat} (hlimit : 0 < limit) (h : Examines nld limit ba w b) : b < ba := by
  induction h with
  | @next ba _ hle =>
    rw [sub32_of_le (by omega)]
    omega
  | @later ba _ _ _ hle _ _ ih =>
    rw [sub32_of_le (by omega)] at ih
    omega

/-- With the limit 0 a search that finds nothing on the chip goes on behind its end. -/
theorem examines_last (hnone : ∀ found w', findSignatureLoop nld 0 n n w ≠ some (some found, w')) :
    Examines nld 0 n w 4294967295 := by
  induction n generalizing w with
  | zero => exact .next (le_refl 0)
  | succ n ih =>
    obtain ⟨r, w₁, hround⟩ := Total.ends (examineBlock nld (sub32 (n + 1) 1)) w
    cases r with
    | some signature =>
      exact absurd (findSignatureLoop_found (Nat.zero_le _) hround) (hnone _ _)
    | none =>
      refine .later (Nat.zero_le _) hround ?_
      refine ih fun found w' hrun => hnone found w' ?_
      rw [findSignatureLoop_none (Nat.zero_le _) hround]
      exact hrun

end Loop

structure Accepted (nld : Lower D) : Prop where
  erasesize_pos : 0 < nld.erasesize
  oobsize_pos : 0 < nld.oobsize
  ratio_pos : 0 < nld.maxRatio
  ratio_lt : nld.maxRatio < NMBM_MGMT_DIV - 1
  reserved : nld.maxReservedBlocks ≠ 0 → NMBM_MGMT_BLOCKS_MIN ≤ nld.maxReservedBlocks

theorem checkLowerMembers_accepted {checked : Lower D} (h : checkLowerMembers nld = some checked) :
    Accepted checked := by
  obtain ⟨hes, hpos⟩ := checkLowerMembers_pos h
  unfold checkLowerMembers at h
  iterate 3
    split at h
    · cases h
  split at h
  · cases h
  rename_i hoob
  generalize (if nld.maxRatio = 0 then 1 else nld.maxRatio) = ratio at h
  dsimp only at h
  split at h
  · cases h
  rename_i hratio
  split at h
  · cases h
  rename_i hreserved
  cases h
  exact ⟨hes, Nat.pos_of_ne_zero hoob, hpos, not_le.mp hratio, fun hne =>
    not_lt.mp fun hlt => hreserved ⟨hne, hlt⟩⟩

theorem searchLimit_pos_iff (h : Accepted nld) : 0 < searchLimit nld ↔ 16 ≤ nld.blockCount := by
  have hratio : nld.maxRatio < 15 := h.ratio_lt
  have hreserved : nld.maxReservedBlocks ≠ 0 → 32 ≤ nld.maxReservedBlocks := h.reserved
  have hlimit : 0 < nld.blockCount / NMBM_MGMT_DIV * (NMBM_MGMT_DIV - nld.maxRatio) ↔
      16 ≤ nld.blockCount := by
    simp only [NMBM_MGMT_DIV]
    rw [Nat.mul_pos_iff_of_pos_right (by omega)]
    omega
  unfold searchLimit
  dsimp only
  split
  · omega
  · exact hlimit

theorem searchTotal_of_sixteen (h : Accepted nld) (hcount : 16 ≤ nld.blockCount) (w : World D) :
    SearchTotal nld w := by
  have hlimit := (searchLimit_pos_iff h).mpr hcount
  refine ⟨⟨nld.blockCount + 1, fun fuel hfuel => ?_⟩, fun b hb => hb.lt hlimit⟩
  exact findSignatureLoop_ends hlimit (by omega) w

def Lower.members (nld : Lower D) : List Nat :=
  [nld.size, nld.erasesize, nld.writesize, nld.oobsize, nld.maxRatio, nld.maxReservedBlocks]

def Lower.allBad (nld : Lower D) : Lower Unit where
  maxRatio := nld.maxRatio
  maxReservedBlocks := nld.maxReservedBlocks
  create := nld.create
  emptyPageEccOk := nld.emptyPageEccOk
  readOnly := nld.readOnly
  size := nld.size
  erasesize := nld.erasesize
  writesize := nld.writesize
  oobsize := nld.oobsize
  bigEndian := nld.bigEndian
  resetChip := id
  readPage _ _ _ _ _ := (⟨0, fun _ => 0xff, fun _ => 0xff⟩, ())
  writePage _ _ _ _ _ := (-eio, ())
  eraseBlock _ _ := (-eio, ())
  isBadBlock := some fun _ _ => (true, ())
  markBadBlock := none
  page_dvd := nld.page_dvd
  block_le := nld.block_le
  small := nld.small

theorem findSignatureLoop_allBad (limit n ba : Nat) (w : World Unit)
    {found : Signature × Nat} {w' : World Unit} :
    findSignatureLoop nld.allBad limit n ba w ≠ some (some found, w') := by
  intro hrun
  induction n generalizing ba w with
  | zero => cases hrun
  | succ n ih =>
    by_cases hlt : ba < limit
    · rw [findSignatureLoop_stop hlt] at hrun
      cases hrun
    · have hnone : examineBlock nld.allBad (sub32 ba 1) w = some (none, w) := rfl
      rw [findSignatureLoop_none (not_lt.mp hlt) hnone] at hrun
      exact ih _ _ hrun

theorem not_searchTotal_allBad (h : Accepted nld.allBad) (hcount : nld.allBad.blockCount < 16)
    (w : World Unit) : ¬SearchTotal nld.allBad w := by
  rintro ⟨-, hexamined⟩
  have hzero : searchLimit nld.allBad = 0 := by
    have := searchLimit_pos_iff h
    omega
  have hlast : Examines nld.allBad 0 nld.allBad.blockCount w 4294967295 :=
    examines_last fun _ _ => findSignatureLoop_allBad 0 _ _ w
  rw [hzero] at hexamined
  have := hexamined _ hlast
  omega

/-! ## The signature in memory -/

structure Lower.Typed (nld : Lower D) : Prop where
  size_lt : nld.size < 18446744073709551616
  erasesize_lt : nld.erasesize < 4294967296
  oobsize_lt : nld.oobsize < 4294967296

structure Signature.Typed (s : Signature) : Prop where
  magic : s.magic < 4294967296
  version : s.version < 4294967296
  size : s.size < 4294967296
  checksum : s.checksum < 4294967296
  nandSize : s.nandSize < 18446744073709551616
  blockSize : s.blockSize < 4294967296
  pageSize : s.pageSize < 4294967296
  spareSize : s.spareSize < 4294967296
  mgmtStartPb : s.mgmtStartPb < 4294967296

def Signature.words (big : Bool) (s : Signature) : List Nat :=
  [s.magic, s.version, s.size, s.checksum,
    if big then s.nandSize / 4294967296 else s.nandSize % 4294967296,
    if big then s.nandSize % 4294967296 else s.nandSize / 4294967296,
    s.blockSize, s.pageSize, s.spareSize, s.mgmtStartPb]

theorem Signature.bytes_eq (big : Bool) (s : Signature) :
    s.bytes big =
      (s.words big).flatMap (wordBytes big) ++ [s.maxTryCount, 0, 0, 0, 0, 0, 0, 0] := by
  cases big
  all_goals simp [Signature.bytes, Signature.words]

theorem Signature.length_bytes (big : Bool) (s : Signature) : (s.bytes big).length = 48 := by
  simp [bytes_eq, words]

theorem Signature.words_lt {s : Signature} (hs : s.Typed) (big : Bool) :
    ∀ n ∈ s.words big, n < 4294967296 := by
  have hsize := hs.nandSize
  have hhalves : s.nandSize % 4294967296 < 4294967296 ∧ s.nandSize / 4294967296 < 4294967296 := by
    omega
  cases big
  all_goals
    simp [words, hs.magic, hs.version, hs.size, hs.checksum, hs.blockSize, hs.pageSize,
      hs.spareSize, hs.mgmtStartPb, hhalves]

theorem Signature.ofBuffer_eq {big : Bool} {s : Signature} (hs : s.Typed)
    (hb : ∀ i < 48, b i = (s.bytes big).getD i 0) : Signature.ofBuffer big b = s := by
  have hword : ∀ k < 10, word big b (4 * k) = (s.words big).getD k 0 := by
    intro k hk
    have hwords : ∀ i < 4 * (s.words big).length, b (0 + i) =
        ((s.words big).flatMap (wordBytes big) ++
          [s.maxTryCount, 0, 0, 0, 0, 0, 0, 0]).getD i 0 := by
      intro i hi
      have hi : i < 40 := hi
      rw [zero_add, ← Signature.bytes_eq]
      exact hb i (by omega)
    have := word_flatMap hwords (s.words_lt hs big) hk
    rwa [zero_add] at this
  have hnand : (if big then word big b 16 * 4294967296 + word big b 20
      else word big b 16 + word big b 20 * 4294967296) = s.nandSize := by
    rw [hword 4 (by decide), hword 5 (by decide)]
    cases big
    · change s.nandSize % 4294967296 + s.nandSize / 4294967296 * 4294967296 = _
      omega
    · change s.nandSize / 4294967296 * 4294967296 + s.nandSize % 4294967296 = _
      omega
  have hlast : b 40 = s.maxTryCount := by
    rw [hb 40 (by decide)]
    cases big
    · rfl
    · rfl
  have hmagic : word big b 0 = s.magic := hword 0 (by decide)
  have hversion : word big b 4 = s.version := hword 1 (by decide)
  have hsize : word big b 8 = s.size := hword 2 (by decide)
  have hchecksum : word big b 12 = s.checksum := hword 3 (by decide)
  have hblock : word big b 24 = s.blockSize := hword 6 (by decide)
  have hpage : word big b 28 = s.pageSize := hword 7 (by decide)
  have hspare : word big b 32 = s.spareSize := hword 8 (by decide)
  have hmgmt : word big b 36 = s.mgmtStartPb := hword 9 (by decide)
  rw [Signature.ofBuffer, hmagic, hversion, hsize, hchecksum, hnand, hblock, hpage, hspare, hmgmt,
    hlast]

theorem newSignature_typed (h : Accepted nld) (htyped : nld.Typed) :
    (newSignature nld (newMgmtStartBa nld)).Typed := by
  have hsmall := nld.small
  have hstart := newMgmtStartBa_lt h.erasesize_pos h.ratio_pos
  have hcount := blockCount_lt nld
  have hmagic : NMBM_MAGIC_SIGNATURE < 4294967296 := by decide
  have hversion : NMBM_VER < 4294967296 := by decide
  have hsize : NMBM_SIGNATURE_SIZE < 4294967296 := by decide
  exact ⟨hmagic, hversion, hsize, BitVec.isLt _, htyped.size_lt, htyped.erasesize_lt,
    by show nld.writesize < _; omega, htyped.oobsize_lt, by show newMgmtStartBa nld < _; omega⟩

theorem checkHeader_eq {big : Bool} (hsize : word big b 8 = size) (hlt : NMBM_HEADER_SIZE < size) :
    checkHeader big b size = (word big b 12 ==
      (nmbmCrc32 0 (slice (storeBytes b 12 (wordBytes big 0)) 0 size)).toNat) := by
  have hrest : slice b NMBM_HEADER_SIZE (size - NMBM_HEADER_SIZE) =
      slice (storeBytes b 12 (wordBytes big 0)) NMBM_HEADER_SIZE (size - NMBM_HEADER_SIZE) :=
    (slice_storeBytes_outside (.inr (by rw [length_wordBytes]; decide))).symm
  have hall : size = NMBM_HEADER_SIZE + (size - NMBM_HEADER_SIZE) := by omega
  have hslice : slice (storeBytes b 12 (wordBytes big 0)) 0 size =
      slice (storeBytes b 12 (wordBytes big 0)) 0 NMBM_HEADER_SIZE ++
        slice b NMBM_HEADER_SIZE (size - NMBM_HEADER_SIZE) := by
    rw [hrest]
    conv => lhs; rw [hall, slice_append, zero_add]
  simp only [checkHeader, hsize, lt_irrefl, if_false, if_pos hlt]
  rw [hslice, nmbmCrc32, nmbmCrc32, nmbmCrc32, crc32_append]

theorem Signature.bytes_split (big : Bool) (s : Signature) :
    ∃ head tail : List UInt8, head.length = 12 ∧ tail.length = 32 ∧
      ∀ c, ({ s with checksum := c } : Signature).bytes big =
        head ++ (wordBytes big c ++ tail) := by
  refine ⟨((s.words big).take 3).flatMap (wordBytes big), ((s.words big).drop 4).flatMap
    (wordBytes big) ++ [s.maxTryCount, 0, 0, 0, 0, 0, 0, 0], ?_, ?_, fun c => ?_⟩
  · simp [words]
  · simp [words]
  · simp [bytes_eq, words]

theorem newSignature_checkHeader (h : Accepted nld) (htyped : nld.Typed) (hb : ∀ i < 48, b i =
      ((newSignature nld (newMgmtStartBa nld)).bytes nld.bigEndian).getD i 0) :
    checkHeader nld.bigEndian b NMBM_SIGNATURE_SIZE ∧
      Signature.ofBuffer nld.bigEndian b = newSignature nld (newMgmtStartBa nld) := by
  have hread := Signature.ofBuffer_eq (newSignature_typed h htyped) hb
  refine ⟨?_, hread⟩
  have hsize : word nld.bigEndian b 8 = NMBM_SIGNATURE_SIZE := congrArg Signature.size hread
  have hsum : word nld.bigEndian b 12 = (newSignature nld (newMgmtStartBa nld)).checksum :=
    congrArg Signature.checksum hread
  rw [checkHeader_eq hsize (by decide), hsum, beq_iff_eq]
  obtain ⟨head, tail, hhead, htail, hbytes⟩ :=
    (newSignature nld (newMgmtStartBa nld)).bytes_split nld.bigEndian
  -- The checksum was taken over the bytes with a zero in its place.
  have hzero : slice (storeBytes b 12 (wordBytes nld.bigEndian 0)) 0 NMBM_SIGNATURE_SIZE =
      ({ newSignature nld (newMgmtStartBa nld) with checksum := 0 } : Signature).bytes
        nld.bigEndian := by
    have hslice : slice b 0 (head.length + ((wordBytes nld.bigEndian
        (newSignature nld (newMgmtStartBa nld)).checksum).length + tail.length)) =
        head ++
          (wordBytes nld.bigEndian (newSignature nld (newMgmtStartBa nld)).checksum ++ tail) := by
      rw [← hbytes, hhead, htail, length_wordBytes]
      apply List.ext_getElem
      · rw [length_slice, Signature.length_bytes]
      · intro i h1 h2
        simp only [slice, List.getElem_map, List.getElem_range, zero_add]
        rw [hb i h1, List.getD_eq_getElem _ _ h2]
    have hmiddle := slice_storeBytes_middle hslice
      (show (wordBytes nld.bigEndian 0).length = _ by rw [length_wordBytes, length_wordBytes])
    rw [← hbytes, hhead, htail, length_wordBytes] at hmiddle
    exact hmiddle
  rw [hzero]
  rfl

/-! ## The signature on the chip -/

theorem writeRepeatedLoop_onChip (data : Buffer) (hsize : size ≤ nld.writesize)
    (n addr : Nat) (w : World D) :
    Post (writeRepeatedLoop nld data size n addr)
      (fun ok w' => Phys nld addr (addr + n * nld.writesize) w w' ∧
        (ok → 0 < n → OnChip nld w' addr data 0 size)) w := by
  induction n generalizing addr w with
  | zero => exact post_pure.mpr ⟨.refl w, fun _ h => absurd h (Nat.lt_irrefl 0)⟩
  | succ n ih =>
    have hend : addr + (n + 1) * nld.writesize = addr + nld.writesize + n * nld.writesize := by
      rw [Nat.add_mul]
      omega
    simp only [writeRepeatedLoop, modifyNi, getNi, post_bind, post_update, post_read]
    refine (writePhysPage_phys _ _ _ _ _).mono ?_
    intro success w1 h1
    have h1 : Phys nld addr (addr + (n + 1) * nld.writesize) w w1 :=
      ((Phys.refl w).setCache _).trans (h1.mono le_rfl (by omega))
    simp only [post_ite, post_pure, post_bind, post_read]
    refine ⟨fun _ => ⟨h1, fun h => by cases h⟩, fun _ => ?_⟩
    refine (readPageCache_spec _ w1).mono ?_
    rintro r w2 ⟨h2, hreads, hcache⟩
    have h12 := h1.trans h2.widen
    refine ⟨fun _ => ⟨h12, fun h => by cases h⟩, fun hret => ?_⟩
    refine ⟨fun _ => ⟨h12, fun h => by cases h⟩, fun hsame => ?_⟩
    have hpage : OnChip nld w2 addr data 0 size := by
      intro mem hmem i hi
      have hbyte : w2.ni.pageCache (0 + i) = data (0 + i) := eq_of_slice_eq (not_not.mp hsame) hi
      rw [h2.mem_eq hmem, ← hbyte, zero_add, hcache i (by omega)]
      exact (hreads mem hmem (by omega) i (by omega)).symm
    refine (ih (addr + nld.writesize) w2).mono ?_
    rintro ok w3 ⟨h3, -⟩
    refine ⟨h12.trans (h3.mono (by omega) (by omega)), fun _ _ mem hmem i hi => ?_⟩
    -- The later pages lie behind the first one.
    rw [h3.mem mem hmem _ (.inl (by omega))]
    exact hpage mem hmem i hi

theorem writeRepeatedData_onChip (hes : 0 < nld.erasesize) (ba : Nat) (data : Buffer) (size : Nat)
    (w : World D) :
    Post (writeRepeatedData nld ba data size)
      (fun ok w' => ok → size ≤ nld.writesize ∧ OnChip nld w' (nld.ba2addr ba) data 0 size)
      w := by
  have hpages : 0 < nld.pagesPerBlock :=
    Nat.div_pos (Nat.le_of_dvd hes nld.page_dvd) (writesize_pos hes)
  rw [writeRepeatedData, post_ite, post_pure]
  refine ⟨fun _ h => (by cases h), fun hle => ?_⟩
  have hle : size ≤ nld.writesize := not_lt.mp hle
  exact (writeRepeatedLoop_onChip data hle _ _ w).mono fun _ _ h hok => ⟨hle, h.2 hok hpages⟩

theorem writeSignatureLoop_onChip (hes : 0 < nld.erasesize) (data : Buffer) (n ba : Nat)
    (hn : n ≤ ba) (w : World D) :
    Post (writeSignatureLoop nld data n ba)
      (fun r w' => ∀ ba', r = some ba' → ba - n < ba' ∧ ba' ≤ ba ∧
        NMBM_SIGNATURE_SIZE ≤ nld.writesize ∧
        OnChip nld w' (nld.ba2addr ba') data 0 NMBM_SIGNATURE_SIZE) w := by
  induction n generalizing ba w with
  | zero => exact post_pure.mpr fun _ h => by cases h
  | succ n ih =>
    have hrest : ∀ w1, Post (writeSignatureLoop nld data n (ba - 1))
        (fun r w' => ∀ ba', r = some ba' → ba - (n + 1) < ba' ∧ ba' ≤ ba ∧
          NMBM_SIGNATURE_SIZE ≤ nld.writesize ∧
          OnChip nld w' (nld.ba2addr ba') data 0 NMBM_SIGNATURE_SIZE) w1 := by
      intro w1
      refine (ih (ba - 1) (by omega) w1).mono ?_
      intro r w2 hr ba' heq
      obtain ⟨hlo, hhi, hchip⟩ := hr ba' heq
      exact ⟨by omega, by omega, hchip⟩
    rw [writeSignatureLoop, post_bind]
    refine .of_forall fun usable w1 => ?_
    simp only [post_ite, post_bind]
    refine ⟨fun _ => hrest w1, fun _ => .of_forall fun erased w2 => ?_⟩
    refine ⟨fun _ => ?_, fun _ => ?_⟩
    · refine (writeRepeatedData_onChip hes ba data NMBM_SIGNATURE_SIZE w2).mono ?_
      intro ok w3 hok
      refine ⟨fun h => post_pure.mpr fun ba' heq => ?_, fun _ => .of_forall fun _ w4 => hrest w4⟩
      cases heq
      exact ⟨by omega, le_refl _, hok h⟩
    · simp only [post_pure, Bool.false_eq_true, false_implies, true_and, not_false_eq_true,
        true_implies]
      exact .of_forall fun _ w3 => hrest w3

/-! ## The tables below the signature -/

/-- Nothing has changed from block `s` on, and the spare blocks lie below it. -/
structure Below (nld : Lower D) (s : Nat) (w w' : World D) : Prop where
  signatureBa : w'.ni.signatureBa = w.ni.signatureBa
  top : w'.ni.mappingBlocksTopBa < s
  border : w'.ni.mappingBlocksBa < s
  mem : ∀ mem, Lawful nld mem → ∀ a, nld.ba2addr s ≤ a → mem w'.dev a = mem w.dev a

theorem Below.trans {w'' : World D} (h : Below nld s w w') (h' : Below nld s w' w'') :
    Below nld s w w'' :=
  ⟨h'.signatureBa.trans h.signatureBa, h'.top, h'.border, fun mem hmem a ha =>
    (h'.mem mem hmem a ha).trans (h.mem mem hmem a ha)⟩

theorem Mgmt.mem_above {lo hi : Nat} (h : Mgmt nld lo hi w w') (hs : hi ≤ s) :
    ∀ mem, Lawful nld mem → ∀ a, nld.ba2addr s ≤ a → mem w'.dev a = mem w.dev a :=
  fun mem hmem a ha => h.mem mem hmem a (.inr ((Nat.mul_le_mul_right _ hs).trans ha))

theorem Updated.below (h : Updated nld w w') (htop : w.ni.mappingBlocksTopBa < s)
    (hborder : w.ni.mappingBlocksBa < s) : Below nld s w w' := by
  have htop' := h.mgmt.frame.mappingBlocksTopBa
  have hborder' := h.border
  exact ⟨h.mgmt.frame.signatureBa, by omega, by omega, h.mgmt.mem_above (by omega)⟩

theorem mapBlock_below (hes : 0 < nld.erasesize) (lb : Nat) (w : World D)
    (htop : w.ni.mappingBlocksTopBa < s) (hborder : w.ni.mappingBlocksBa < s) :
    Post (mapBlock nld fuel lb) (fun _ w' => Below nld s w w') w := by
  refine (mapBlock_outcome lb w).mono ?_
  intro ok w' hmap
  cases hmap with
  | none_left => exact ⟨rfl, htop, hborder, fun _ _ _ _ => rfl⟩
  | @none_good _ w₁ _ hupdate =>
    have hbelow := (updateInfoTable_updated hes w _ _ hupdate).below htop hborder
    exact hbelow.trans ⟨rfl, hbelow.border, hbelow.border, fun _ _ _ _ => rfl⟩
  | @mapped pb hpos =>
    refine ⟨rfl, ?_, hborder, fun _ _ _ _ => rfl⟩
    change sub32 w.ni.mappingBlocksTopBa 1 < s
    rw [sub32_of_le hpos]
    omega

theorem remapTail_below (hes : 0 < nld.erasesize) (n lb : Nat) (w : World D)
    (htop : w.ni.mappingBlocksTopBa < s) (hborder : w.ni.mappingBlocksBa < s) :
    Post (remapTail nld fuel n lb) (fun _ w' => Below nld s w w') w := by
  induction n generalizing lb w with
  | zero => exact post_pure.mpr ⟨rfl, htop, hborder, fun _ _ _ _ => rfl⟩
  | succ n ih =>
    rw [remapTail, post_bind]
    refine (mapBlock_below hes lb w htop hborder).mono ?_
    intro ok w1 h1
    simp only [post_ite, post_pure]
    refine ⟨fun _ => h1, fun _ => ?_⟩
    have hcount : Below nld s w
        { w1 with ni := { w1.ni with dataBlockCount := w1.ni.dataBlockCount + 1 } } :=
      ⟨h1.signatureBa, h1.top, h1.border, h1.mem⟩
    exact (ih (lb + 1) _ hcount.top hcount.border).mono fun _ _ h2 => hcount.trans h2

theorem createInfoTable_below (hes : 0 < nld.erasesize) (w : World D) :
    Post (createInfoTable nld fuel) (fun _ w' =>
      w'.ni.signatureBa = w.ni.signatureBa ∧ ∀ mem, Lawful nld mem →
        ∀ a, nld.ba2addr w.ni.signatureBa ≤ a → mem w'.dev a = mem w.dev a) w := by
  simp only [createInfoTable, getNi, post_bind, post_read]
  split
  · exact post_pure.mpr ⟨rfl, fun _ _ _ _ => rfl⟩
  rename_i top hwalk
  have htop : top < w.ni.signatureBa := by
    exact (walkDesc_bounds (Nat.sub_le _ _) hwalk).2.2 (by decide)
  simp only [modifyNi, generateInfoTableCache, getNi, post_bind, post_update, post_read, post_pure]
  refine (rebuildInfoTable_spec hes _).mono ?_
  intro ok w1 h1
  have hsame : w1.ni.signatureBa = w.ni.signatureBa := h1.mgmt.frame.signatureBa
  have hmem : ∀ mem, Lawful nld mem →
      ∀ a, nld.ba2addr w.ni.signatureBa ≤ a → mem w1.dev a = mem w.dev a :=
    h1.mgmt.mem_above htop.le
  simp only [post_ite, post_pure]
  refine ⟨fun _ => ⟨hsame, hmem⟩, fun hok => ?_⟩
  have htop1 : w1.ni.mappingBlocksTopBa = top := h1.mgmt.frame.mappingBlocksTopBa
  have hborder1 := (h1.settled (by simpa using hok)).placed.le_top
  simp only [post_bind, post_read]
  refine (remapTail_below hes _ _ w1 (by rw [htop1]; exact htop) (by omega)).mono ?_
  intro _ w2 h2
  refine (updateInfoTable_updated hes w2).mono ?_
  intro _ w3 h3
  have h13 := h2.trans (h3.below h2.top h2.border)
  exact ⟨h13.signatureBa.trans hsame, fun mem hmem' a ha =>
    (h13.mem mem hmem' a ha).trans (hmem mem hmem' a ha)⟩

/-! ## Finding the signature again -/

/-- In the device states of `S`, which reading does not leave, every read succeeds and `bad`
tells the bad blocks. -/
structure Readable (nld : Lower D) (S : D → Prop) (bad : Nat → Bool) : Prop where
  reset : ∀ d, S d → S (nld.resetChip d)
  read : ∀ addr buf oob mode d, S d → S (nld.readPage addr buf oob mode d).2
  ret : ∀ addr buf oob mode d, S d → 0 ≤ (nld.readPage addr buf oob mode d).1.ret
  isBad : ∀ f ∈ nld.isBadBlock, ∀ ba d, S d → S (f (nld.ba2addr ba) d).2 ∧
    (f (nld.ba2addr ba) d).1 = bad ba
  marker : nld.isBadBlock = none → ∀ ba d, S d →
    decide ((nld.readPage (nld.ba2addr ba) false true .raw d).1.oob 0 ≠ 0xff) = bad ba

section Readable

variable {S : D → Prop} {bad : Nat → Bool} (hreads : Readable nld S bad)
include hreads

theorem readPhysPage_readable (addr : Nat) (buf oob : Bool) (mode : OobMode) (w : World D)
    (hw : S w.dev) :
    Post (readPhysPage nld addr buf oob mode) (fun r w' => S w'.dev ∧ 0 ≤ r.ret ∧
      r = (nld.readPage addr buf oob mode w.dev).1) w := by
  have hret := hreads.ret addr buf oob mode w.dev hw
  simp only [readPhysPage, NMBM_TRY_COUNT, retry, lower, post_bind, post_call, post_ite, post_pure]
  refine ⟨fun _ => ⟨hreads.read _ _ _ _ _ hw, hret, trivial⟩, fun h => ?_⟩
  exact absurd (decide_eq_true hret) h

theorem checkBadPhysBlock_readable (hoob : 0 < nld.oobsize) (ba : Nat) (w : World D)
    (hw : S w.dev) :
    Post (checkBadPhysBlock nld ba) (fun r w' => S w'.dev ∧ r = bad ba) w := by
  unfold checkBadPhysBlock
  split
  · rename_i f hf
    rw [lower, post_call]
    exact hreads.isBad f hf ba w.dev hw
  · rename_i hnone
    rw [post_bind]
    refine (readPhysPage_readable hreads _ _ _ _ w hw).mono ?_
    rintro r w1 ⟨hw1, hret, hr⟩
    have hbyte : memcpy w1.ni.pageCache nld.writesize r.oob 0 nld.oobsize nld.writesize =
        r.oob 0 := by
      rw [memcpy_inside (by omega), Nat.sub_self]
    have hnot : ¬(r.ret < 0 ∧ r.ret ≠ -ebadmsg) := fun h => absurd h.1 (Int.not_lt.mpr hret)
    simp only [modifyNi, getNi, post_bind, post_update, post_read, post_pure]
    refine ⟨hw1, ?_⟩
    rw [← hreads.marker hnone ba w.dev hw, ← hr, decide_eq_decide, hbyte]
    exact or_iff_right hnot

theorem readData_readable {mem : D → Buffer} (hmem : Lawful nld mem) {addr : Nat}
    (haligned : addr % nld.writesize = 0) (hpos : 0 < size) (hsize : size ≤ nld.writesize)
    (data : Buffer) (w : World D) (hw : S w.dev) :
    Post (readData nld addr data 0 size) (fun r w' => S w'.dev ∧ r.1 = 0 ∧
      ∀ i < size, r.2 i = mem w.dev (addr + i)) w := by
  obtain ⟨n, rfl⟩ : ∃ n, size = n + 1 := ⟨size - 1, by omega⟩
  have hchunk : min nld.writesize (n + 1) = n + 1 := by omega
  have hdone : ∀ (off ptr : Nat) (data : Buffer),
      readDataLoop nld n off data ptr 0 = pure (0, data) := by
    intro off ptr data
    cases n with
    | zero => rfl
    | succ n => simp only [readDataLoop, if_true]
  simp only [readData, readDataLoop, haligned, hchunk, Nat.sub_zero, Nat.succ_ne_zero, if_false,
    Nat.sub_self, hdone, getNi, post_ite, post_bind, post_pure, post_read]
  have hpage : Post (readPhysPage nld addr true false .placeOob) (fun r w' => S w'.dev ∧
      0 ≤ r.ret ∧ ∀ i < nld.writesize, r.data i = mem w.dev (addr + i)) w := by
    intro r w1 hrun
    obtain ⟨hw1, hret, -⟩ := readPhysPage_readable hreads addr true false .placeOob w hw r w1 hrun
    exact ⟨hw1, hret, (readPhysPage_spec addr false w r w1 hrun).2 mem hmem hret⟩
  refine ⟨fun _ => hpage.mono ?_, fun _ => ?_⟩
  · rintro r w1 ⟨hw1, hret, hread⟩
    refine ⟨fun h => absurd h (by omega), fun _ => ⟨hw1, trivial, fun i hi => ?_⟩⟩
    rw [memcpy_inside (by omega), zero_add]
    exact hread i (by omega)
  · rw [readPageCache, post_bind]
    refine hpage.mono ?_
    rintro r w1 ⟨hw1, hret, hread⟩
    simp only [modifyNi, post_bind, post_update, post_pure]
    refine ⟨fun h => absurd h (by omega), fun _ => ⟨hw1, trivial, fun i hi => ?_⟩⟩
    rw [memcpy_inside (by omega), zero_add, memcpy_inside (by omega), zero_add]
    exact hread i (by omega)

theorem examineBlock_bad (hoob : 0 < nld.oobsize) {ba : Nat} (hbad : bad ba) (w : World D)
    (hw : S w.dev) :
    Post (examineBlock nld ba) (fun r w' => S w'.dev ∧ r = none) w := by
  rw [examineBlock, post_bind]
  refine (checkBadPhysBlock_readable hreads hoob ba w hw).mono ?_
  rintro r w1 ⟨hw1, hr⟩
  rw [hr, hbad]
  exact post_pure.mpr ⟨hw1, rfl⟩

theorem examineBlock_signature {mem : D → Buffer} (hmem : Lawful nld mem) (hes : 0 < nld.erasesize)
    (hoob : 0 < nld.oobsize) (hpage : NMBM_SIGNATURE_SIZE ≤ nld.writesize) {ba : Nat}
    (hgood : bad ba = false)
    (hmagic : signature.magic = NMBM_MAGIC_SIGNATURE) {content : Buffer}
    (hcontent : ∀ d, S d → mem d = content)
    (hsig : ∀ b : Buffer, (∀ i < NMBM_SIGNATURE_SIZE, b i = content (nld.ba2addr ba + i)) →
      checkHeader nld.bigEndian b NMBM_SIGNATURE_SIZE ∧
        Signature.ofBuffer nld.bigEndian b = signature)
    (w : World D) (hw : S w.dev) :
    Post (examineBlock nld ba) (fun r _ => r = some signature) w := by
  have haligned : nld.ba2addr ba % nld.writesize = 0 :=
    Nat.mod_eq_zero_of_dvd (Nat.dvd_mul_left_of_dvd nld.page_dvd ba)
  obtain ⟨n, hn⟩ : ∃ n, nld.pagesPerBlock = n + 1 :=
    ⟨nld.pagesPerBlock - 1, by
      have : 0 < nld.pagesPerBlock :=
        Nat.div_pos (Nat.le_of_dvd hes nld.page_dvd) (writesize_pos hes)
      omega⟩
  rw [examineBlock, post_bind]
  refine (checkBadPhysBlock_readable hreads hoob ba w hw).mono ?_
  rintro r w1 ⟨hw1, hr⟩
  rw [hr, hgood, hn]
  simp only [Bool.false_eq_true, if_false, searchPages, post_bind]
  refine (readData_readable hreads hmem haligned (by decide) hpage _ w1 hw1).mono ?_
  rintro ⟨ret, sig⟩ w2 ⟨-, hret, hbytes⟩
  have hbytes : ∀ i < NMBM_SIGNATURE_SIZE, sig i = content (nld.ba2addr ba + i) := by
    intro i hi
    rw [← hcontent w1.dev hw1]
    exact hbytes i hi
  obtain ⟨hheader, hsame⟩ := hsig sig hbytes
  have hword : word nld.bigEndian sig 0 = NMBM_MAGIC_SIGNATURE :=
    (congrArg Signature.magic hsame).trans hmagic
  simp only at hret
  simp only [hret, hheader, hword, hsame, ne_eq, not_true_eq_false, if_false, Bool.not_true,
    Bool.false_eq_true, if_true, post_pure]

theorem findSignatureLoop_readable (hoob : 0 < nld.oobsize) {limit sba k n : Nat}
    (hlimit : limit ≤ sba) (hn : k < n)
    (hbad : ∀ ba, sba < ba → ba < sba + 1 + k → bad ba)
    (hfound : ∀ w, S w.dev → Post (examineBlock nld sba) (fun r _ => r = some signature) w)
    (w : World D) (hw : S w.dev) :
    ∃ w', findSignatureLoop nld limit n (sba + 1 + k) w = some (some (signature, sba), w') := by
  induction k generalizing n w with
  | zero =>
    obtain ⟨n, rfl⟩ : ∃ m, n = m + 1 := ⟨n - 1, by omega⟩
    have hsub : sub32 (sba + 1 + 0) 1 = sba := sub32_of_le (by omega)
    obtain ⟨r, w₁, hround⟩ := Total.ends (examineBlock nld sba) w
    obtain rfl := hfound w hw r w₁ hround
    refine ⟨w₁, ?_⟩
    have hstep := findSignatureLoop_found (n := n) (show limit ≤ sba + 1 + 0 by omega)
      (by exact hround)
    rw [hstep, hsub]
  | succ k ih =>
    obtain ⟨n, rfl⟩ : ∃ m, n = m + 1 := ⟨n - 1, by omega⟩
    obtain ⟨r, w₁, hround⟩ := Total.ends (examineBlock nld (sba + 1 + k)) w
    obtain ⟨hw₁, rfl⟩ := examineBlock_bad hreads hoob (hbad (sba + 1 + k) (by omega) (by omega))
      w hw r w₁ hround
    obtain ⟨w', hrest⟩ := ih (n := n) (by omega) (fun ba h h' => hbad ba h (by omega)) w₁ hw₁
    refine ⟨w', ?_⟩
    have hstep := findSignatureLoop_none (n := n) (show limit ≤ sba + 1 + (k + 1) by omega)
      (by exact hround)
    rw [hstep]
    exact hrest

end Readable

/-- A later search finds the signature that `nmbm_create_new` wrote, on the same chip, if the
blocks above it are bad, it is not, and reading goes well. -/
def SearchFinds (nld : Lower D) : Prop :=
  ∀ (mem : D → Buffer) (fuel : Nat) (w w' : World D) (ok : Bool), Lawful nld mem →
    w.ni.signatureBa = 0 → createNew nld fuel w = some (ok, w') → w'.ni.signatureBa ≠ 0 →
    ∀ (S : D → Prop) (bad : Nat → Bool), Readable nld S bad → (∀ d, S d → mem d = mem w'.dev) →
      (∀ ba, w'.ni.signatureBa < ba → ba < nld.blockCount → bad ba = true) →
      bad w'.ni.signatureBa = false →
      ∀ v : World D, S v.dev → ∃ n, ∀ fuel ≥ n, ∃ v', findSignature nld fuel v =
        some (some (newSignature nld (newMgmtStartBa nld), w'.ni.signatureBa), v')

theorem searchLimit_le_newMgmtStartBa : searchLimit nld ≤ newMgmtStartBa nld := by
  have hle : nld.blockCount / NMBM_MGMT_DIV * (NMBM_MGMT_DIV - nld.maxRatio) ≤
      nld.blockCount * (NMBM_MGMT_DIV - nld.maxRatio) / NMBM_MGMT_DIV := by
    rw [Nat.le_div_iff_mul_le (by decide), Nat.mul_right_comm]
    exact Nat.mul_le_mul_right _ (Nat.div_mul_le_self _ _)
  simp only [searchLimit, newMgmtStartBa, Nat.mod_eq_of_lt (mgmtProduct_lt nld)]
  split <;> split <;> omega

theorem createNew_onChip (hes : 0 < nld.erasesize) (w : World D) (hnone : w.ni.signatureBa = 0) :
    Post (createNew nld fuel) (fun _ w' => w'.ni.signatureBa ≠ 0 →
      newMgmtStartBa nld < w'.ni.signatureBa ∧ w'.ni.signatureBa < nld.blockCount ∧
      NMBM_SIGNATURE_SIZE ≤ nld.writesize ∧
      OnChip nld w' (nld.ba2addr w'.ni.signatureBa)
        (storeBytes (fun _ => 0) 0
          ((newSignature nld (newMgmtStartBa nld)).bytes nld.bigEndian)) 0 NMBM_SIGNATURE_SIZE)
            w := by
  simp only [createNew, buildMappingTable, modifyNi, post_bind, post_update]
  refine (scanLoop_quiet _ _ _).mono ?_
  intro _ w1 h1
  have hzero : w1.ni.signatureBa = 0 := h1.frame.signatureBa.trans hnone
  simp only [post_ite, post_pure]
  refine ⟨fun _ hne => absurd hzero hne, fun _ => ?_⟩
  simp only [post_bind]
  intro r w2 hrun
  have hcount := blockCount_pos hes
  have hsub : sub32 nld.blockCount 1 = nld.blockCount - 1 := sub32_of_le hcount
  have hquiet := (writeSignatureLoop_spec _ _ _ _ r w2 hrun).1
  have hchip := writeSignatureLoop_onChip hes _ _ _ (Nat.sub_le _ _) _ r w2 hrun
  cases r with
  | none => exact post_pure.mpr fun hne => absurd (hquiet.frame.signatureBa.trans hzero) hne
  | some sba =>
    obtain ⟨hlo, hhi, hpage, hchip⟩ := hchip sba rfl
    refine (createInfoTable_below hes _).mono ?_
    rintro ok w3 ⟨hsame, hmem⟩ -
    have hsame : w3.ni.signatureBa = sba := hsame
    rw [hsame]
    refine ⟨by omega, by omega, hpage, fun mem hlawful i hi => ?_⟩
    rw [hmem mem hlawful _ (Nat.le_add_right _ _)]
    exact hchip mem hlawful i hi

theorem searchFinds (h : Accepted nld) (htyped : nld.Typed) : SearchFinds nld := by
  intro mem fuel w w' ok hmem hnone hcreate hwritten S bad hreads hcontent hbad hgood v hv
  obtain ⟨hlimit, hlt, hpage, hchip⟩ := createNew_onChip h.erasesize_pos w hnone ok w'
    hcreate hwritten
  have hle : searchLimit nld ≤ newMgmtStartBa nld := searchLimit_le_newMgmtStartBa
  have hcount : w'.ni.signatureBa + 1 + (nld.blockCount - (w'.ni.signatureBa + 1)) =
      nld.blockCount := by omega
  refine ⟨nld.blockCount, fun fuel hfuel => ?_⟩
  rw [findSignature_eq, ← hcount]
  refine findSignatureLoop_readable hreads h.oobsize_pos (by omega) (by omega)
    (fun ba h h' => hbad ba h (by omega)) ?_ v hv
  refine examineBlock_signature hreads hmem h.erasesize_pos h.oobsize_pos hpage hgood rfl hcontent
    ?_
  intro b hb
  apply newSignature_checkHeader h htyped
  intro i hi
  rw [hb i hi, hchip mem hmem i hi]
  exact storeBytes_inside (by rw [Signature.length_bytes]; exact hi)

theorem Accepted.of_members {D' : Type} {dev : Lower D'} (h : Accepted nld)
    (hsame : dev.members = nld.members) : Accepted dev := by
  simp only [Lower.members, List.cons.injEq, and_true] at hsame
  obtain ⟨-, hes, -, hoob, hratio, hreserved⟩ := hsame
  exact ⟨hes ▸ h.erasesize_pos, hoob ▸ h.oobsize_pos, hratio ▸ h.ratio_pos, hratio ▸ h.ratio_lt,
    hreserved ▸ h.reserved⟩

def tinyChip : Lower Flash :=
  { smallChip with
    size := 2048
    block_le := by decide
    small := by decide }

end OpenWrt.Nmbm
