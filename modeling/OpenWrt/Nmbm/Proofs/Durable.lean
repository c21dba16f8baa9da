import OpenWrt.Nmbm.Proofs.Safety

/-!
# What an update leaves on the chip

`nmbm_update_info_table` repeats its rounds until no counter of changes is left.  Each
round writes an image that was generated at its start, and clears the counters when a table
has been written, also those of blocks that went bad on the way.  So the tables on the chip
are those in memory exactly if no block failed in the last round.
-/

namespace OpenWrt.Nmbm

open Lib Lib.Prog

section Update

variable {D : Type} {nld : Lower D} {fuel : Nat} {w w' : World D}
variable {b a : Buffer} {off n : Nat}

def Current (nld : Lower D) (image : Buffer) (ni : Instance) : Prop :=
  (∀ i < nld.stateTableSize / 4,
    tableWords nld.bigEndian image ni.infoTable.stateTableOff i = ni.blockState i) ∧
  ∀ i < nld.blockCount,
    tableWords nld.bigEndian image ni.infoTable.mappingTableOff i = ni.blockMapping i

/-- The recorded tables on the chip hold the tables in memory. -/
structure Synced (nld : Lower D) (w : World D) : Prop where
  main : ∃ image, TableAt nld w image w.ni.mainTableBa w.mainTableEnd ∧ Current nld image w.ni
  backup : w.ni.backupTableBa ≠ 0 →
    ∃ image, TableAt nld w image w.ni.backupTableBa w.backupTableEnd ∧ Current nld image w.ni

/-- The tables have the offsets that NMBM gives them. -/
structure Formatted (nld : Lower D) (h : InfoTableHeader) : Prop where
  state : h.stateTableOff = nld.stateTableOff
  mapping : h.mappingTableOff = nld.mappingTableOff

def lastRound (nld : Lower D) (fuel : Nat) : Nat → World D → Option (World D)
  | 0, _ => none
  | n + 1, w =>
    if w.ni.dirty then
      match updateInfoTableOnce nld fuel false w with
      | some (true, w1) => if w1.ni.dirty then lastRound nld fuel n w1 else some w
      | _ => none
    else none

/-- The blocks that were found marked bad, or could not be erased or programmed, since `w`. -/
def World.failedSince (w' w : World D) : List Nat :=
  w'.failed.take (w'.failed.length - w.failed.length)

/-! ## Images -/

theorem wordsBuffer_byte (big : Bool) (f : Nat → BitVec 32) (i : Nat) {j : Nat} (hj : j < 4) :
    wordsBuffer big f (4 * i + j) = (wordBytes big (f i).toNat).getD j 0 := by
  have hdiv : (4 * i + j) / 4 = i := by omega
  have hmod : (4 * i + j) % 4 = j := by omega
  rw [wordsBuffer, hdiv, hmod]

theorem tableWords_eq {big : Bool} {f : Nat → BitVec 32} (len : Nat) {i : Nat}
    (h : ∀ a, a < len → b (off + a) = wordsBuffer big f a) (hi : 4 * i + 4 ≤ len) :
    tableWords big b off i = f i := by
  have hword : word big b (off + 4 * i) = (f i).toNat := by
    apply word_eq_of_bytes (f i).isLt
    intro j hj
    rw [add_assoc, h _ (by omega), wordsBuffer_byte big f i hj]
  rw [tableWords, hword, BitVec.ofNat_toNat, BitVec.setWidth_eq]

theorem length_bytes (big : Bool) (h : InfoTableHeader) : (h.bytes big).length = 32 := by
  simp [InfoTableHeader.bytes]

theorem le_align (n : Nat) {a : Nat} (ha : 0 < a) : n ≤ NMBM_ALIGN n a := by
  have hmod := Nat.mod_lt (n + a - 1) ha
  have hdiv := Nat.div_add_mod (n + a - 1) a
  rw [mul_comm] at hdiv
  unfold NMBM_ALIGN
  omega

theorem tableImage_byte (nld : Lower D) (ni : Instance) (h : InfoTableHeader) {a : Nat}
    (ha : 32 ≤ a) :
    tableImage nld ni h a =
      memcpy (memcpy (memset ni.infoTableCache 0 0xff nld.infoTableSize) h.stateTableOff
        (wordsBuffer nld.bigEndian ni.blockState) 0 nld.stateTableSize) h.mappingTableOff
        (wordsBuffer nld.bigEndian ni.blockMapping) 0 nld.mappingTableSize a := by
  unfold tableImage updateChecksum
  rw [storeBytes_outside (by rw [length_wordBytes]; omega),
    storeBytes_outside (by rw [length_wordBytes]; omega),
    storeBytes_outside (by rw [length_bytes]; omega)]

theorem table_offsets (hes : 0 < nld.erasesize) :
    32 ≤ nld.stateTableOff ∧ nld.stateTableOff + nld.stateTableSize ≤ nld.mappingTableOff ∧
      nld.mappingTableOff + nld.mappingTableSize ≤ nld.infoTableSize := by
  have hws := writesize_pos hes
  refine ⟨le_align 32 hws, ?_, ?_⟩
  all_goals exact Nat.add_le_add_left (le_align _ hws) _

theorem tableImage_current (hes : 0 < nld.erasesize) (ni : Instance) {h : InfoTableHeader}
    (hfmt : Formatted nld h) :
    (∀ i < nld.stateTableSize / 4,
      tableWords nld.bigEndian (tableImage nld ni h) nld.stateTableOff i = ni.blockState i) ∧
    ∀ i < nld.blockCount,
      tableWords nld.bigEndian (tableImage nld ni h) nld.mappingTableOff i = ni.blockMapping i := by
  obtain ⟨hhead, hstate, hmapping⟩ := table_offsets hes
  constructor
  · intro i hi
    refine tableWords_eq nld.stateTableSize ?_ (by omega)
    intro a ha
    rw [tableImage_byte nld ni h (by omega), hfmt.state, hfmt.mapping,
      memcpy_outside (by omega), memcpy_inside (by omega), Nat.add_sub_cancel_left, zero_add]
  · intro i hi
    refine tableWords_eq nld.mappingTableSize ?_ (by unfold Lower.mappingTableSize; omega)
    intro a ha
    rw [tableImage_byte nld ni h (by omega), hfmt.mapping,
      memcpy_inside (by omega), Nat.add_sub_cancel_left, zero_add]

theorem Stored.unique {mem : D → Buffer} (hmem : Lawful nld mem)
    {ba size endBa endBa' : Nat} (h : Stored nld w a ba off size endBa)
    (h' : Stored nld w b ba off size endBa') : ∀ i < size, a (off + i) = b (off + i) := by
  induction h generalizing endBa' with
  | done =>
    intro i hi
    exact absurd hi (Nat.not_lt_zero i)
  | skip hsize hbad _ ih =>
    cases h' with
    | done => exact absurd rfl hsize
    | skip _ _ hrest => exact ih hrest
    | chunk _ hgood _ _ => exact absurd hgood hbad
  | @chunk ba off size endBa hsize hgood hchip _ ih =>
    cases h' with
    | done => exact absurd rfl hsize
    | skip _ hbad _ => exact absurd hgood hbad
    | chunk _ _ hchip' hrest' =>
      intro i hi
      by_cases hfirst : i < min size nld.erasesize
      · rw [← hchip mem hmem i hfirst, ← hchip' mem hmem i hfirst]
      · have hlater := ih hrest' (i - min size nld.erasesize) (by omega)
        have hoff : off + min size nld.erasesize + (i - min size nld.erasesize) = off + i := by
          omega
        rwa [hoff] at hlater

theorem tableWords_congr (heq : ∀ i < nld.infoTableSize, a i = b i) {i : Nat}
    (hle : off + 4 * i + 4 ≤ nld.infoTableSize) :
    tableWords nld.bigEndian b off i = tableWords nld.bigEndian a off i := by
  unfold tableWords
  apply congrArg
  apply word_congr
  intro j hj
  exact (heq _ (by omega)).symm

theorem Current.congr (hes : 0 < nld.erasesize) {ni : Instance}
    (hfmt : Formatted nld ni.infoTable) (h : Current nld a ni)
    (heq : ∀ i < nld.infoTableSize, a i = b i) : Current nld b ni := by
  obtain ⟨hhead, hstate, hmapping⟩ := table_offsets hes
  constructor
  · intro i hi
    rw [tableWords_congr heq (by rw [hfmt.state]; omega)]
    exact h.1 i hi
  · intro i hi
    unfold Lower.mappingTableSize at hmapping
    rw [tableWords_congr heq (by rw [hfmt.mapping]; omega)]
    exact h.2 i hi

theorem Held.synced_iff {mem : D → Buffer} (hmem : Lawful nld mem) (hes : 0 < nld.erasesize)
    {cache : Buffer} (hfmt : Formatted nld w.ni.infoTable) (h : Held nld cache w) :
    Synced nld w ↔ Current nld cache w.ni := by
  constructor
  · intro hsynced
    obtain ⟨image, htable, hcurrent⟩ := hsynced.main
    apply hcurrent.congr hes hfmt
    intro i hi
    have hsame := htable.1.unique hmem h.main.1 i hi
    rwa [zero_add] at hsame
  · intro hcurrent
    exact ⟨⟨cache, h.main, hcurrent⟩, fun hne => ⟨cache, h.backup hne, hcurrent⟩⟩

/-! ## The rounds of an update -/

theorem updateLoop_dirty (hdirty : w.ni.dirty) :
    updateLoop nld fuel (n + 1) w =
      (updateInfoTableOnce nld fuel false w).bind fun r =>
        if !r.1 then some (false, r.2) else updateLoop nld fuel n r.2 := by
  change (if w.ni.dirty then updateInfoTableOnce nld fuel false >>= fun success =>
    if !success then pure false else updateLoop nld fuel n else pure true) w = _
  rw [if_pos hdirty]
  change (updateInfoTableOnce nld fuel false w).bind _ = _
  congr 1
  funext r
  obtain ⟨ok, w1⟩ := r
  cases ok with
  | false => rfl
  | true => rfl

theorem updateLoop_clean (hclean : w.ni.dirty = false) :
    updateLoop nld fuel (n + 1) w = some (true, w) := by
  change (if w.ni.dirty then updateInfoTableOnce nld fuel false >>= fun success =>
    if !success then pure false else updateLoop nld fuel n else pure true) w = _
  rw [hclean]
  rfl

theorem updateLoop_last (hes : 0 < nld.erasesize) (hdirty : w.ni.dirty)
    (hfmt : Formatted nld w.ni.infoTable) (hrun : updateLoop nld fuel n w = some (true, w')) :
    ∃ w₁, lastRound nld fuel n w = some w₁ ∧ Settled nld 0 (w₁.generated nld) w' ∧
      Formatted nld w₁.ni.infoTable := by
  induction n generalizing w with
  | zero => cases hrun
  | succ n ih =>
    rw [updateLoop_dirty hdirty] at hrun
    obtain ⟨⟨ok, w1⟩, honce, hrest⟩ := Option.bind_eq_some_iff.mp hrun
    have houtcome : Outcome nld 0 (w.generated nld) ok w1 :=
      updateInfoTableOnce_spec hes fuel w (.inl hdirty) (Nat.zero_le _) (Nat.zero_le _)
        (fun _ => Nat.zero_le _) ok w1 honce
    cases ok with
    | false => cases hrest
    | true =>
      have hsettled := houtcome.settled rfl
      rw [lastRound, if_pos hdirty, honce]
      dsimp only
      cases hdirty1 : w1.ni.dirty with
      | true =>
        apply ih hdirty1 _ hrest
        rw [hsettled.image.infoTable]
        exact ⟨hfmt.state, hfmt.mapping⟩
      | false =>
        cases n with
        | zero => cases hrest
        | succ n =>
          have hend : some (true, w1) = some (true, w') :=
            (updateLoop_clean hdirty1).symm.trans hrest
          cases hend
          exact ⟨w, rfl, hsettled, hfmt⟩

theorem Fails.failedSince {w' : World D} (h : Fails w w') :
    (∀ ba ∈ w'.failedSince w, w.ni.getBlockState ba = BLOCK_ST_GOOD ∧
      w'.ni.getBlockState ba = BLOCK_ST_BAD) ∧
    ∀ ba, ba ∉ w'.failedSince w → w'.ni.getBlockState ba = w.ni.getBlockState ba := by
  obtain ⟨bas, hfailed, hbad, hsame⟩ := h
  have hbas : w'.failedSince w = bas := by
    rw [World.failedSince, hfailed, List.length_append, Nat.add_sub_cancel, List.take_left]
  rw [hbas]
  exact ⟨hbad, hsame⟩

/-- A word of the state table holds the states of sixteen blocks and nothing else. -/
theorem stateWord_ext {bs bs' : Nat → BitVec 32} {i : Nat}
    (h : ∀ ba, ba / NMBM_BITMAP_BLOCKS_PER_UNIT = i →
      getBlockStateRaw bs ba = getBlockStateRaw bs' ba) : bs i = bs' i := by
  apply BitVec.eq_of_getLsbD_eq
  intro j hj
  have hunit : (16 * i + j / 2) / NMBM_BITMAP_BLOCKS_PER_UNIT = i := by
    unfold NMBM_BITMAP_BLOCKS_PER_UNIT
    omega
  have hshift : (16 * i + j / 2) % NMBM_BITMAP_BLOCKS_PER_UNIT * NMBM_BITMAP_BITS_PER_BLOCK =
      j / 2 * 2 := by
    unfold NMBM_BITMAP_BLOCKS_PER_UNIT NMBM_BITMAP_BITS_PER_BLOCK
    omega
  have hmask : BLOCK_ST_MASK.getLsbD (j % 2) = true :=
    (getLsbD_three _).trans (decide_eq_true (Nat.mod_lt j (by decide)))
  have hbit := congrArg (BitVec.getLsbD · (j % 2)) (h _ hunit)
  simpa only [getBlockStateRaw, hunit, hshift, BitVec.getLsbD_and, BitVec.getLsbD_ushiftRight,
    hmask, Bool.and_true, Nat.div_add_mod'] using hbit

theorem Fails.stateTable_iff {w' : World D} (h : Fails w w') (n : Nat) :
    (∀ i < n, w'.ni.blockState i = w.ni.blockState i) ↔
      ∀ ba ∈ w'.failedSince w, n ≤ ba / NMBM_BITMAP_BLOCKS_PER_UNIT := by
  constructor
  · intro hwords ba hba
    obtain ⟨hgood, hbad⟩ := h.failedSince.1 ba hba
    by_contra hlt
    have hsame : w'.ni.getBlockState ba = w.ni.getBlockState ba := by
      rw [Instance.getBlockState, getBlockStateRaw, hwords _ (not_le.mp hlt)]
      rfl
    rw [hgood, hbad] at hsame
    exact absurd hsame (by decide)
  · intro hfailed i hi
    refine stateWord_ext fun ba hba => h.failedSince.2 ba fun hin => ?_
    have hle := hfailed ba hin
    omega

/-- When an update has ended well, the tables on the chip are those in memory exactly if they
were when nothing was to be recorded, and in the last round no block of the state table was
found marked bad or could not be erased or programmed. -/
theorem update_synced_iff {mem : D → Buffer} (hmem : Lawful nld mem) (hes : 0 < nld.erasesize)
    (hprot : w.ni.isProtected = false) (hfmt : Formatted nld w.ni.infoTable)
    (hrun : updateInfoTable nld fuel w = some (true, w')) :
    Synced nld w' ↔ (w.ni.dirty = false → Synced nld w) ∧
      ∀ w₁, lastRound nld fuel fuel w = some w₁ → ∀ ba ∈ w'.failedSince w₁,
        nld.stateTableSize / 4 ≤ ba / NMBM_BITMAP_BLOCKS_PER_UNIT := by
  have hloop : updateLoop nld fuel fuel w = some (true, w') := by
    rw [← hrun]
    change _ = (if w.ni.isProtected then pure true else updateLoop nld fuel fuel) w
    rw [hprot]
    rfl
  cases hdirty : w.ni.dirty with
  | false =>
    cases fuel with
    | zero => cases hloop
    | succ n =>
      rw [updateLoop_clean hdirty] at hloop
      cases hloop
      have hnone : lastRound nld (n + 1) (n + 1) w = none := by
        rw [lastRound, hdirty]
        rfl
      rw [hnone]
      exact ⟨fun hsynced => ⟨fun _ => hsynced, fun w₁ hw₁ => (by cases hw₁)⟩, fun h => h.1 rfl⟩
  | true =>
    obtain ⟨w₁, hlast, hsettled, hfmt₁⟩ := updateLoop_last hes hdirty hfmt hloop
    have hoffsets : w'.ni.infoTable = nextInfoTable nld w₁.ni := hsettled.image.infoTable
    have hfmt' : Formatted nld w'.ni.infoTable := by
      rw [hoffsets]
      exact ⟨hfmt₁.state, hfmt₁.mapping⟩
    have hmapping : w'.ni.blockMapping = w₁.ni.blockMapping := hsettled.mgmt.frame.blockMapping
    have hfails : Fails w₁ w' := hsettled.mgmt.failed
    have himage := tableImage_current hes w₁.ni
      (show Formatted nld (nextInfoTable nld w₁.ni) from ⟨hfmt₁.state, hfmt₁.mapping⟩)
    rw [hsettled.held.synced_iff hmem hes hfmt', Current, hfmt'.state, hfmt'.mapping, hlast]
    constructor
    · rintro ⟨hstate, -⟩
      refine ⟨fun hclean => (by cases hclean), fun w₂ hw₂ => ?_⟩
      cases hw₂
      refine (hfails.stateTable_iff _).mp fun i hi => ?_
      rw [← hstate i hi]
      exact himage.1 i hi
    · rintro ⟨-, hfailed⟩
      constructor
      · intro i hi
        rw [(hfails.stateTable_iff _).mpr (hfailed w₁ rfl) i hi]
        exact himage.1 i hi
      · intro i hi
        rw [hmapping]
        exact himage.2 i hi

end Update

/-! ## A worn block -/

theorem smallChip_lawful : Lawful smallChip Flash.mem where
  reset _ := rfl
  read _ _ _ _ _ := rfl
  readData _ _ _ _ _ _ := rfl
  write _ _ _ _ _ _ h := memcpy_outside h
  erase addr d a h := by
    change Flash.mem (Prod.snd (if _ then _ else _)) a = _
    split
    · exact memset_outside h
    · rfl
  isBad f hf _ _ := by
    cases hf
    rfl
  markBad f hf _ _ _ _ := by
    cases hf
    rfl

def changedWorld (endurance : Nat) : World Flash where
  dev := ⟨fun _ => 0xff, fun _ => false, Function.update (fun _ => 0) 6 1, endurance⟩
  ni :=
    { signature := ⟨0, 0, 0, 0, 4096, 256, 64, 4, 6, 1⟩
      infoTableCache := fun _ => 0
      infoTable := ⟨0, 0, 0, 0, 0, 64, 128, 0⟩
      blockState := fun _ => 0xffffffff
      blockStateChanged := 1
      blockMapping := BitVec.ofNat 32
      blockMappingChanged := 0
      pageCache := fun _ => 0
      isProtected := false
      dataBlockCount := 6
      mgmtStartBa := 6
      mainTableBa := 6
      backupTableBa := 0
      mappingBlocksBa := 7
      mappingBlocksTopBa := 14
      signatureBa := 15 }
  mainTableEnd := 7
  backupTableEnd := 0
  log := []
  failed := []

/-- Block 6 cannot be erased again: it goes bad while the table is written, the table in
block 7 says that it is good, and nothing is left to be done. -/
theorem new_bad_block_not_recorded :
    ∃ w', updateInfoTable smallChip 30 (changedWorld 1) = some (true, w') ∧
      w'.ni.isProtected = false ∧ ¬Synced smallChip w' := by
  have hrun : ∃ r ∈ updateInfoTable smallChip 30 (changedWorld 1), r.1 = true ∧
      r.2.ni.isProtected = false ∧ r.2.ni.mainTableBa = 7 ∧
      r.2.ni.getBlockState 7 = BLOCK_ST_GOOD ∧ r.2.ni.blockState 0 = 0xffffcfff#32 ∧
      r.2.ni.infoTable.stateTableOff = 64 ∧
      word false (fun a => r.2.dev.mem (1792 + a)) 64 = 0xffffffff := by decide +kernel
  obtain ⟨⟨_, w'⟩, hupdate, rfl, hprot, hmain, hgood, hstate, hoff, hflash⟩ := hrun
  refine ⟨w', hupdate, hprot, ?_⟩
  intro hsynced
  obtain ⟨image, ⟨hstored, -⟩, hcurrent⟩ := hsynced.main
  rw [hmain] at hstored
  have hword := hcurrent.1 0 (by decide)
  rw [hoff, hstate] at hword
  cases hstored with
  | skip _ hbad _ => exact hbad hgood
  | chunk _ _ hchip _ =>
    have hsame : word false image 64 = word false (fun a => w'.dev.mem (1792 + a)) 64 := by
      apply word_congr
      intro i hi
      have hbyte := hchip Flash.mem smallChip_lawful (64 + i)
        (lt_of_lt_of_le (Nat.add_lt_add_left hi 64) (by decide))
      rw [zero_add] at hbyte
      exact hbyte.symm
    have himage : BitVec.ofNat 32 (word false image 64) = 0xffffcfff#32 := hword
    rw [hsame, hflash] at himage
    exact absurd himage (by decide)

theorem change_recorded :
    ∃ w', updateInfoTable smallChip 30 (changedWorld 2) = some (true, w') ∧
      Synced smallChip w' := by
  have hrun : ∃ r ∈ updateInfoTable smallChip 30 (changedWorld 2), r.1 = true ∧
      r.2.failed = [] := by decide +kernel
  obtain ⟨⟨_, w'⟩, hupdate, rfl, hfailed⟩ := hrun
  refine ⟨w', hupdate, (update_synced_iff smallChip_lawful (by decide) rfl ⟨by decide, by decide⟩
    hupdate).mpr ⟨fun hclean => absurd hclean (by decide), ?_⟩⟩
  intro w₁ _ ba hba
  rw [World.failedSince, hfailed, List.take_nil] at hba
  exact absurd hba List.not_mem_nil

end OpenWrt.Nmbm
