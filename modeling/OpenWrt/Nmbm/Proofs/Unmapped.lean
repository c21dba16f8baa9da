import OpenWrt.Nmbm.Proofs.Durable
import OpenWrt.Nmbm.Proofs.Erasing

/-!
# Logic blocks that lose their image

`nmbm_erase_logic_block` without a spare block and `nmbm_mark_bad_block` store -1 in the mapping
table and then update the tables.  The -1 is not counted as a change, so it gets onto the chip
only if another counter is set at that moment.
-/

namespace OpenWrt.Nmbm

open Lib Lib.Prog BitVec

variable {D : Type} {nld : Lower D} {fuel lb : Nat} {w w' : World D}
variable {ok : Bool} {u w₂ v : World D} {pb : Nat}

/-- Of logic block `lb`, the tables on the chip say what the table in memory says. -/
structure RecordedFor (nld : Lower D) (w : World D) (lb : Nat) : Prop where
  main : ∃ image, TableAt nld w image w.ni.mainTableBa w.mainTableEnd ∧
    tableWords nld.bigEndian image w.ni.infoTable.mappingTableOff lb = w.ni.blockMapping lb
  backup : w.ni.backupTableBa ≠ 0 →
    ∃ image, TableAt nld w image w.ni.backupTableBa w.backupTableEnd ∧
      tableWords nld.bigEndian image w.ni.infoTable.mappingTableOff lb = w.ni.blockMapping lb

/-- The tables on the chip say that logic block `lb` has no image, as the table in memory does. -/
def Persisted (nld : Lower D) (w : World D) (lb : Nat) : Prop :=
  RecordedFor nld w lb ∧ w.ni.blockMapping lb = allOnes 32

theorem Synced.recordedFor (h : Synced nld w) (hlb : lb < nld.blockCount) :
    RecordedFor nld w lb where
  main := by
    obtain ⟨image, htable, hcurrent⟩ := h.main
    exact ⟨image, htable, hcurrent.2 lb hlb⟩
  backup := by
    intro hne
    obtain ⟨image, htable, hcurrent⟩ := h.backup hne
    exact ⟨image, htable, hcurrent.2 lb hlb⟩

theorem RecordedFor.setTop (h : RecordedFor nld w lb) (top : Nat) :
    RecordedFor nld { w with ni := { w.ni with mappingBlocksTopBa := top } } lb where
  main := by
    obtain ⟨image, htable, hword⟩ := h.main
    exact ⟨image, htable.of_eq rfl rfl, hword⟩
  backup := by
    intro hne
    obtain ⟨image, htable, hword⟩ := h.backup hne
    exact ⟨image, htable.of_eq rfl rfl, hword⟩

theorem RecordedFor.not_of_changed {mem : D → Buffer} (hmem : Lawful nld mem)
    (hes : 0 < nld.erasesize) (hlb : lb < nld.blockCount) (h : RecordedFor nld w lb)
    (hfmt : Formatted nld w.ni.infoTable) (hinfo : w'.ni.infoTable = w.ni.infoTable)
    (htable : ∀ image, TableAt nld w image w.ni.mainTableBa w.mainTableEnd →
      TableAt nld w' image w'.ni.mainTableBa w'.mainTableEnd)
    (hne : w'.ni.blockMapping lb ≠ w.ni.blockMapping lb) : ¬RecordedFor nld w' lb := by
  intro h'
  obtain ⟨image, hat, hword⟩ := h.main
  obtain ⟨image', hat', hword'⟩ := h'.main
  obtain ⟨-, -, hfits⟩ := table_offsets hes
  have hsame : ∀ i < nld.infoTableSize, image i = image' i := by
    intro i hi
    have := (htable image hat).1.unique hmem hat'.1 i hi
    rwa [zero_add] at this
  have hwords : tableWords nld.bigEndian image' w.ni.infoTable.mappingTableOff lb =
      tableWords nld.bigEndian image w.ni.infoTable.mappingTableOff lb := by
    apply tableWords_congr hsame
    rw [hfmt.mapping]
    unfold Lower.mappingTableSize at hfits
    omega
  rw [hinfo, hwords, hword] at hword'
  exact hne hword'.symm

/-! ## Updates -/

theorem updateLoop_end (n : Nat) (hes : 0 < nld.erasesize) (w : World D) :
    Post (updateLoop nld fuel n) (fun ok w' => (ok → w'.ni.dirty = false) ∧
      (ok = false → w'.ni.isProtected)) w := by
  induction n generalizing w with
  | zero => exact post_diverge.mpr trivial
  | succ n ih =>
    simp only [updateLoop, getNi, post_bind, post_read, post_ite]
    refine ⟨fun hdirty => ?_, fun hclean => by simpa using hclean⟩
    refine (updateInfoTableOnce_spec hes fuel w (.inl hdirty) (Nat.zero_le _) (Nat.zero_le _)
      fun _ => Nat.zero_le _).mono ?_
    intro ok w1 h1
    refine ⟨fun hfail => ?_, fun _ => ih w1⟩
    simpa using (h1.failed (by simpa using hfail)).1

theorem updateInfoTable_of_protected (hprot : w.ni.isProtected) :
    updateInfoTable nld fuel w = some (true, w) := by
  change (if w.ni.isProtected then pure true else updateLoop nld fuel fuel) w = _
  rw [hprot]
  rfl

theorem updateInfoTable_of_not_protected (hprot : w.ni.isProtected = false) :
    updateInfoTable nld fuel w = updateLoop nld fuel fuel w := by
  change (if w.ni.isProtected then pure true else updateLoop nld fuel fuel) w = _
  rw [hprot]
  rfl

theorem updateInfoTable_keeps_protected (hprot : w.ni.isProtected) :
    Post (updateInfoTable nld fuel) (fun _ w' => w'.ni.isProtected) w := by
  intro ok w' hrun
  rw [updateInfoTable_of_protected hprot] at hrun
  cases hrun
  exact hprot

theorem protected_keptBySteps (nld : Lower D) (fuel : Nat) :
    KeptBySteps nld fuel fun w => w.ni.isProtected where
  phys := by
    intro _ _ w w' h h1
    rw [h1.ni]
    exact h
  mark := fun ba st _ h => by
    simp only [setBlockState, modifyNi, post_update]
    exact h
  unmap := fun _ h => h
  update := fun _ h => updateInfoTable_keeps_protected h
  map := by
    intro w lb _ h
    refine (mapBlock_outcome lb w).mono ?_
    intro ok w' hmap
    cases hmap with
    | none_left => exact h
    | @none_good ok' w₁ _ hupdate =>
      have hw₁ : w₁.ni.isProtected := updateInfoTable_keeps_protected h ok' w₁ hupdate
      exact hw₁
    | mapped => exact h

theorem updateInfoTable_isProtected (w : World D) :
    Post (updateInfoTable nld fuel)
      (fun _ w' => w'.ni.isProtected = false → w.ni.isProtected = false) w := by
  intro ok w' hrun hprot
  by_contra hne
  have hkept : w'.ni.isProtected :=
    updateInfoTable_keeps_protected (by simpa using hne) ok w' hrun
  rw [hprot] at hkept
  cases hkept

theorem updateInfoTable_clean (hclean : w.ni.dirty = false)
    (hrun : updateInfoTable nld fuel w = some (ok, w')) : w' = w := by
  cases h : w.ni.isProtected with
  | true =>
    rw [updateInfoTable_of_protected h] at hrun
    cases hrun
    rfl
  | false =>
    rw [updateInfoTable_of_not_protected h] at hrun
    cases fuel with
    | zero => cases hrun
    | succ n =>
      rw [updateLoop_clean hclean] at hrun
      cases hrun
      rfl

/-- What an update with something to record comes to, if it does not end in protection. -/
structure Flushed (nld : Lower D) (lb : Nat) (w w' : World D) : Prop where
  recorded : RecordedFor nld w' lb
  clean : w'.ni.dirty = false
  formatted : Formatted nld w'.ni.infoTable
  mapping : w'.ni.blockMapping = w.ni.blockMapping

theorem updateInfoTable_flushed (hes : 0 < nld.erasesize) (hlb : lb < nld.blockCount)
    (hfmt : Formatted nld w.ni.infoTable) (hdirty : w.ni.dirty)
    (hrun : updateInfoTable nld fuel w = some (ok, w')) (hprot : w'.ni.isProtected = false) :
    Flushed nld lb w w' := by
  have hprot₀ := updateInfoTable_isProtected w ok w' hrun hprot
  have hmapping := (updateInfoTable_updated hes w ok w' hrun).mgmt.frame.blockMapping
  rw [updateInfoTable_of_not_protected hprot₀] at hrun
  obtain ⟨hclean, hfailed⟩ := updateLoop_end fuel hes w ok w' hrun
  cases ok with
  | false => exact absurd (hfailed rfl) (by rw [hprot]; decide)
  | true =>
    obtain ⟨w₁, -, hsettled, hfmt₁⟩ := updateLoop_last hes hdirty hfmt hrun
    have hinfo : w'.ni.infoTable = nextInfoTable nld w₁.ni := hsettled.image.infoTable
    have hfmt' : Formatted nld w'.ni.infoTable := by
      rw [hinfo]
      exact ⟨hfmt₁.state, hfmt₁.mapping⟩
    have hword : tableWords nld.bigEndian (w₁.generated nld).ni.infoTableCache
        w'.ni.infoTable.mappingTableOff lb = w'.ni.blockMapping lb := by
      have himage := tableImage_current hes w₁.ni
        (show Formatted nld (nextInfoTable nld w₁.ni) from ⟨hfmt₁.state, hfmt₁.mapping⟩)
      rw [hfmt'.mapping, hsettled.mgmt.frame.blockMapping]
      exact himage.2 lb hlb
    exact ⟨⟨⟨_, hsettled.held.main, hword⟩, fun hne => ⟨_, hsettled.held.backup hne, hword⟩⟩,
      hclean rfl, hfmt', hmapping⟩

theorem ne_allOnes_of_nonneg {b : BitVec 32} (h : 0 ≤ b.toInt) : b ≠ allOnes 32 := by
  rintro rfl
  exact absurd h (by decide)

theorem update_persisted_iff {mem : D → Buffer}
    (hmem : Lawful nld mem) (hes : 0 < nld.erasesize) (hlb : lb < nld.blockCount)
    (hmapped : 0 ≤ (u.ni.blockMapping lb).toInt) (hfmt : Formatted nld u.ni.infoTable)
    (hinfo : w₂.ni.infoTable = u.ni.infoTable)
    (hlost : w₂.ni.blockMapping lb = allOnes 32)
    (hclean : w₂.ni.dirty = false → RecordedFor nld u lb ∧
      ∀ image, TableAt nld u image u.ni.mainTableBa u.mainTableEnd →
        TableAt nld w₂ image w₂.ni.mainTableBa w₂.mainTableEnd)
    (hupdate : updateInfoTable nld fuel w₂ = some (ok, w')) (hprot : w'.ni.isProtected = false) :
    Persisted nld w' lb ↔ w₂.ni.dirty := by
  cases hdirty : w₂.ni.dirty with
  | true =>
    have hflushed := updateInfoTable_flushed hes hlb (by rw [hinfo]; exact hfmt) hdirty hupdate
      hprot
    refine ⟨fun _ => rfl, fun _ => ⟨hflushed.recorded, ?_⟩⟩
    rw [hflushed.mapping]
    exact hlost
  | false =>
    obtain rfl := updateInfoTable_clean hdirty hupdate
    obtain ⟨hrecorded, htable⟩ := hclean hdirty
    have hne : w'.ni.blockMapping lb ≠ u.ni.blockMapping lb := by
      rw [hlost]
      exact (ne_allOnes_of_nonneg hmapped).symm
    have hnot := hrecorded.not_of_changed hmem hes hlb hfmt hinfo htable hne
    exact ⟨fun hpersisted => absurd hpersisted.1 hnot, fun hf => by cases hf⟩

/-! ## Marks -/

theorem OldMarked.of_unusable (h : OldMarked pb w w') (hstate : w.ni.Unusable pb) :
    w'.ni.dirty = w.ni.dirty ∧ w'.dev = w.dev ∧
      ∀ ba, w'.ni.getBlockState ba = w.ni.getBlockState ba := by
  cases h with
  | kept => exact ⟨rfl, rfl, fun _ => rfl⟩
  | set hneed hset =>
    have hbad : w.ni.getBlockState pb = BLOCK_ST_BAD := hstate.resolve_right hneed
    simp only [setBlockState, modifyNi, update, Option.some.injEq, Prod.mk.injEq, true_and] at hset
    subst hset
    refine ⟨?_, rfl, fun ba => ?_⟩
    · simp only [Instance.dirty]
      have hsame : ¬w.ni.getBlockState pb ≠ BLOCK_ST_BAD &&& BLOCK_ST_MASK := not_not.mpr hbad
      rw [if_neg hsame]
    · rw [getBlockState_set]
      split
      · rename_i hba
        rw [hba, hbad]
        rfl
      · rfl

theorem GivenUp.unusable (h : GivenUp pb w w') : w'.ni.Unusable pb := by
  cases h with
  | before hstate => exact hstate
  | now _ _ hstate =>
    left
    rw [hstate, if_pos rfl]

theorem GivenUp.eq_of_clean (h : GivenUp pb w w') (hclean : w'.ni.dirty = false) : w' = w := by
  cases h with
  | before => rfl
  | now _ _ _ hdirty =>
    rw [hdirty] at hclean
    cases hclean

theorem GivenUp.dirty_iff (h : GivenUp pb w w') :
    w'.ni.dirty ↔ w.ni.dirty ∨
      w.ni.getBlockState pb ≠ BLOCK_ST_BAD ∧ w.ni.getBlockState pb ≠ BLOCK_ST_NEED_REMAP := by
  cases h with
  | before hstate =>
    have hnot : ¬(w.ni.getBlockState pb ≠ BLOCK_ST_BAD ∧
        w.ni.getBlockState pb ≠ BLOCK_ST_NEED_REMAP) := by
      rintro ⟨hbad, hneed⟩
      exact hstate.elim hbad hneed
    exact ⟨Or.inl, fun h => h.resolve_right hnot⟩
  | now husable _ _ hdirty => exact ⟨fun _ => .inr husable, fun _ => hdirty⟩

theorem Worn.unusable (h : Worn w w') (hstate : w.ni.Unusable pb) : w'.ni.Unusable pb := by
  unfold Instance.Unusable at hstate ⊢
  rcases h pb with hsame | ⟨hgood, -⟩
  · rwa [hsame]
  · rw [hgood] at hstate
    exact absurd hstate (by decide)

/-! ## The last pass of an erasure -/

/-- In a pass that begins in `w`: the block has no image already, or there is no spare block at
all and, besides the -1, there is something to record. -/
def RecordsLoss (w : World D) (lb : Nat) : Prop :=
  w.ni.blockMapping lb = allOnes 32 ∨
    0 ≤ (w.ni.blockMapping lb).toInt ∧ w.ni.mappingBlocksBa = w.ni.mappingBlocksTopBa ∧
      (w.ni.dirty = true ∨
        w.ni.getBlockState (w.ni.blockMapping lb).toNat ≠ BLOCK_ST_BAD ∧
        w.ni.getBlockState (w.ni.blockMapping lb).toNat ≠ BLOCK_ST_NEED_REMAP)

/-- The world at the start of the last pass of `nmbm_erase_logic_block`. -/
def lastPass (nld : Lower D) (fuel lb : Nat) : Nat → World D → Option (World D)
  | 0, _ => none
  | n + 1, w =>
    match eraseLogicBlockOnce nld fuel lb w with
    | some (none, w₁) => lastPass nld fuel lb n w₁
    | some (some _, _) => some w
    | none => none

section Pass

variable {mem : D → Buffer} (hmem : Lawful nld mem) (hes : 0 < nld.erasesize)
  (hlb : lb < nld.blockCount)
include hes

theorem MapOutcome.unusable (h : MapOutcome nld fuel lb w ok w') (hstate : w.ni.Unusable pb) :
    w'.ni.Unusable pb := by
  cases h with
  | none_left => exact hstate
  | none_good _ hupdate =>
    exact (updateInfoTable_updated hes w _ _ hupdate).mgmt.worn.unusable hstate
  | mapped => exact hstate

include hlb

theorem remap_again {w₁ : World D} (hgiven : GivenUp pb w v) (hfmt : Formatted nld w.ni.infoTable)
    (h : RemapOutcome nld fuel lb pb v true w₁ w₂ w') (hprot : w'.ni.isProtected = false) :
    RecordedFor nld w' lb ∧ Formatted nld w'.ni.infoTable := by
  have hunusable := h.map.unusable hes hgiven.unusable
  obtain ⟨hsame, -, -⟩ := h.old.of_unusable hunusable
  obtain ⟨ok, hupdate⟩ := h.update
  have hquiet := h.old.quiet
  obtain ⟨hmap, -, -⟩ := h
  cases hmap with
  | @mapped pb' _ =>
    have hdirty : w₂.ni.dirty := by
      rw [hsame]
      simp [World.remapped, Instance.dirty]
    have hinfo : w₂.ni.infoTable = w.ni.infoTable := by
      rw [hquiet.ni]
      change v.ni.infoTable = _
      rw [hgiven.quiet.ni]
    have hflushed := updateInfoTable_flushed hes hlb (by rw [hinfo]; exact hfmt) hdirty hupdate
      hprot
    exact ⟨hflushed.recorded, hflushed.formatted⟩

theorem persisted_iff_dirty (hmem : Lawful nld mem) (hmapped : 0 ≤ (u.ni.blockMapping lb).toInt)
    (hunusable : u.ni.Unusable pb) (hfmt : Formatted nld u.ni.infoTable)
    (hrecorded : u.ni.dirty = false → RecordedFor nld u lb)
    (hold : OldMarked pb (u.unmapped lb) w₂)
    (hupdate : updateInfoTable nld fuel w₂ = some (ok, w')) (hprot : w'.ni.isProtected = false) :
    Persisted nld w' lb ↔ u.ni.dirty := by
  obtain ⟨hdirty, hdev, hstates⟩ := hold.of_unusable hunusable
  have hquiet := hold.quiet
  have hinfo : w₂.ni.infoTable = u.ni.infoTable := by
    rw [hquiet.ni]
    rfl
  have hlost : w₂.ni.blockMapping lb = allOnes 32 := by
    rw [hquiet.ni]
    exact Function.update_self lb _ _
  have hdirty : w₂.ni.dirty = u.ni.dirty := hdirty
  rw [← hdirty]
  refine update_persisted_iff hmem hes hlb hmapped hfmt hinfo hlost (fun hclean => ?_) hupdate hprot
  refine ⟨hrecorded (hdirty.symm.trans hclean), fun image htable => ?_⟩
  have hmain : w₂.ni.mainTableBa = u.ni.mainTableBa := by
    rw [hquiet.ni]
    rfl
  have hend : w₂.mainTableEnd = u.mainTableEnd := hquiet.mainTableEnd
  rw [hmain, hend]
  exact ⟨htable.1.of_eq hdev hstates, (hstates _).trans htable.2⟩

theorem none_left_persisted_iff (hmem : Lawful nld mem)
    (hmapped : 0 ≤ (w.ni.blockMapping lb).toInt) (hfmt : Formatted nld w.ni.infoTable)
    (hrecorded : RecordedFor nld w lb) (hgiven : GivenUp pb w v)
    (hold : OldMarked pb (v.unmapped lb) w₂)
    (hupdate : updateInfoTable nld fuel w₂ = some (ok, w')) (hprot : w'.ni.isProtected = false) :
    Persisted nld w' lb ↔ w.ni.dirty ∨
      w.ni.getBlockState pb ≠ BLOCK_ST_BAD ∧ w.ni.getBlockState pb ≠ BLOCK_ST_NEED_REMAP := by
  have hinfo : v.ni.infoTable = w.ni.infoTable := by rw [hgiven.quiet.ni]
  have hmapv : v.ni.blockMapping = w.ni.blockMapping := hgiven.quiet.frame.blockMapping
  have hclean : v.ni.dirty = false → RecordedFor nld v lb := by
    intro hclean
    rw [hgiven.eq_of_clean hclean]
    exact hrecorded
  rw [← hgiven.dirty_iff]
  exact persisted_iff_dirty hes hlb hmem (by rw [hmapv]; exact hmapped) hgiven.unusable
    (by rw [hinfo]; exact hfmt) hclean hold hupdate hprot

/-- A search that finds no good block updates the tables while the block still has its image. -/
theorem none_good_not_persisted {ok' : Bool}
    (hmem : Lawful nld mem) (hmapped : 0 ≤ (w.ni.blockMapping lb).toInt)
    (hfmt : Formatted nld w.ni.infoTable) (hrecorded : RecordedFor nld w lb)
    (hgiven : GivenUp pb w v) (hflush : updateInfoTable nld fuel v = some (ok', u))
    (hold : OldMarked pb
      (World.unmapped { u with ni := { u.ni with mappingBlocksTopBa := u.ni.mappingBlocksBa } } lb)
        w₂)
    (hupdate : updateInfoTable nld fuel w₂ = some (ok, w')) (hprot : w'.ni.isProtected = false) :
    ¬Persisted nld w' lb := by
  have hinfo : v.ni.infoTable = w.ni.infoTable := by rw [hgiven.quiet.ni]
  have hmapv : v.ni.blockMapping = w.ni.blockMapping := hgiven.quiet.frame.blockMapping
  have hunusable : u.ni.Unusable pb :=
    (updateInfoTable_updated hes v _ _ hflush).mgmt.worn.unusable hgiven.unusable
  have hprotu : u.ni.isProtected = false := by
    have hprot₂ := updateInfoTable_isProtected w₂ ok w' hupdate hprot
    rw [hold.quiet.ni] at hprot₂
    exact hprot₂
  have hu : RecordedFor nld u lb ∧ u.ni.dirty = false ∧ Formatted nld u.ni.infoTable ∧
      u.ni.blockMapping = w.ni.blockMapping := by
    cases hdirty : v.ni.dirty with
    | true =>
      have hflushed :=
        updateInfoTable_flushed hes hlb (by rw [hinfo]; exact hfmt) hdirty hflush hprotu
      exact ⟨hflushed.recorded, hflushed.clean, hflushed.formatted, hflushed.mapping.trans hmapv⟩
    | false =>
      obtain rfl := updateInfoTable_clean hdirty hflush
      obtain rfl := hgiven.eq_of_clean hdirty
      exact ⟨hrecorded, hdirty, hfmt, rfl⟩
  obtain ⟨hrec, hclean, hfmtu, hmapu⟩ := hu
  have hiff := persisted_iff_dirty hes hlb hmem
    (u := { u with ni := { u.ni with mappingBlocksTopBa := u.ni.mappingBlocksBa } })
    (by rw [hmapu]; exact hmapped) hunusable hfmtu
    (fun _ => hrec.setTop _) hold hupdate hprot
  rw [hiff]
  change ¬u.ni.dirty = true
  rw [hclean]
  decide

theorem pass_persisted_iff (hmem : Lawful nld mem) (hfmt : Formatted nld w.ni.infoTable)
    (hrecorded : RecordedFor nld w lb)
    (hpass : ErasePass nld fuel lb w (some (-eio)) w') (hprot : w'.ni.isProtected = false) :
    Persisted nld w' lb ↔ RecordsLoss w lb := by
  generalize hr : some (-eio) = r at hpass
  cases hpass with
  | unmapped hneg =>
    constructor
    · exact fun h => .inl h.2
    · rintro (h | ⟨hmapped, -⟩)
      · exact ⟨hrecorded, h⟩
      · omega
  | erased => exact absurd hr (by decide)
  | @givenUp v _ again hmapped hgiven hremap =>
    have hagain : again = false := by
      cases again with
      | true => cases hr
      | false => rfl
    subst hagain
    have hne := ne_allOnes_of_nonneg hmapped
    have htop := hgiven.quiet.frame.mappingBlocksTopBa
    have hborder : v.ni.mappingBlocksBa = w.ni.mappingBlocksBa := by rw [hgiven.quiet.ni]
    obtain ⟨w₁, w₂, hmap, hold, ok, hupdate⟩ := remapLogicBlock_outcome lb _ v false w' hremap
    cases hmap with
    | none_left hleft =>
      rw [none_left_persisted_iff hes hlb hmem hmapped hfmt hrecorded hgiven hold hupdate hprot]
      rw [htop, hborder] at hleft
      constructor
      · exact fun hcases => .inr ⟨hmapped, hleft, hcases⟩
      · rintro (h | ⟨-, -, hcases⟩)
        · exact absurd h hne
        · exact hcases
    | none_good hsome hflush =>
      have hnot := none_good_not_persisted hes hlb hmem hmapped hfmt hrecorded hgiven hflush hold
        hupdate hprot
      refine ⟨fun h => absurd h hnot, ?_⟩
      rintro (h | ⟨-, hleft, -⟩)
      · exact absurd h hne
      · rw [← htop, ← hborder] at hleft
        exact absurd hleft hsome

/-- Passes that ask for another one keep the tables up to date, so the last pass decides. -/
theorem eraseLogicBlock_persisted_iff (hmem : Lawful nld mem) (hrw : nld.readOnly = false)
    (n : Nat) (w : World D)
    (hfmt : Formatted nld w.ni.infoTable) (hrecorded : RecordedFor nld w lb)
    (hrun : eraseLogicBlock nld fuel lb n w = some (-eio, w')) (hprot : w'.ni.isProtected = false) :
    Persisted nld w' lb ↔ ∃ w₁, lastPass nld fuel lb n w = some w₁ ∧ RecordsLoss w₁ lb := by
  induction n generalizing w with
  | zero => cases hrun
  | succ n ih =>
    obtain ⟨⟨r, w₁⟩, hpass, hrest⟩ := Option.bind_eq_some_iff.mp
      (show (eraseLogicBlockOnce nld fuel lb w).bind _ = _ from hrun)
    have hcases := eraseLogicBlockOnce_pass lb w r w₁ hpass
    cases r with
    | some ret =>
      have hend : some (ret, w₁) = some (-eio, w') := hrest
      cases hend
      rw [pass_persisted_iff hes hlb hmem hfmt hrecorded hcases hprot]
      simp only [lastPass, hpass, Option.some.injEq, exists_eq_left']
    | none =>
      have hprot₁ : w₁.ni.isProtected = false := by
        by_contra hne
        have hkept : w'.ni.isProtected :=
          (protected_keptBySteps nld fuel).eraseLogicBlock hrw lb n (by simpa using hne) _ w' hrest
        rw [hprot] at hkept
        cases hkept
      have hw₁ : RecordedFor nld w₁ lb ∧ Formatted nld w₁.ni.infoTable := by
        generalize hr : none = r at hcases
        cases hcases with
        | unmapped => cases hr
        | erased => cases hr
        | @givenUp v _ again hmapped hgiven hremap =>
          obtain ⟨u₁, u₂, houtcome⟩ := remapLogicBlock_outcome lb _ v again w₁ hremap
          cases again with
          | true => exact remap_again hes hlb hgiven hfmt houtcome hprot₁
          | false => cases hr
      rw [ih w₁ hw₁.2 hw₁.1 hrest]
      simp only [lastPass, hpass]

end Pass

/-! ## Blocks that are marked bad -/

theorem Stored.phys {data : Buffer} {ba off size endBa : Nat}
    (h : Stored nld w data ba off size endBa)
    (hphys : Phys nld (nld.ba2addr pb) (nld.ba2addr pb + nld.erasesize) w w')
    (hbad : w.ni.getBlockState pb ≠ BLOCK_ST_GOOD) : Stored nld w' data ba off size endBa := by
  induction h with
  | done => exact .done
  | skip hsize hbad' _ ih => exact .skip hsize (by rwa [hphys.getBlockState]) ih
  | @chunk ba off size endBa hsize hgood hchip _ ih =>
    refine .chunk hsize (by rwa [hphys.getBlockState]) ?_ ih
    intro mem hmem i hi
    have hne : ba ≠ pb := by
      rintro rfl
      exact hbad hgood
    rw [hphys.mem mem hmem _ ?_]
    · exact hchip mem hmem i hi
    · have hapart := ba2addr_apart nld hne
      omega

/-- In a call that begins in `w`: the block has no image already, or besides the -1 there is
something to record. -/
def RecordsMark (w : World D) (lb : Nat) : Prop :=
  w.ni.blockMapping lb = allOnes 32 ∨
    0 ≤ (w.ni.blockMapping lb).toInt ∧ (w.ni.dirty = true ∨
      w.ni.getBlockState (w.ni.blockMapping lb).toNat ≠ BLOCK_ST_BAD)

theorem condemned_persisted_iff {mem : D → Buffer} (hmem : Lawful nld mem)
    (hes : 0 < nld.erasesize) (hlb : lb < nld.blockCount)
    (hmapped : 0 ≤ (w.ni.blockMapping lb).toInt) (hfmt : Formatted nld w.ni.infoTable)
    (hrecorded : RecordedFor nld w lb) (fuel pb : Nat) :
    Post (do
      condemnBlock nld pb
      updateInfoTable nld fuel) (fun _ w' => w'.ni.isProtected = false →
        (Persisted nld w' lb ↔ w.ni.dirty ∨ w.ni.getBlockState pb ≠ BLOCK_ST_BAD))
      (w.unmapped lb) := by
  simp only [condemnBlock, setBlockState, modifyNi, post_bind, post_update]
  refine (markPhysBadBlock_phys pb _).mono ?_
  intro _ w1 h1 ok w' hupdate hprot
  have hstate : w1.ni.getBlockState pb = w.ni.getBlockState pb := h1.getBlockState pb
  have hni := h1.ni
  generalize hw2 : ({ w1 with ni :=
    { w1.ni with
      blockState := putBlockState w1.ni.blockState pb BLOCK_ST_BAD
      blockStateChanged :=
        if w1.ni.getBlockState pb ≠ BLOCK_ST_BAD &&& BLOCK_ST_MASK then w1.ni.blockStateChanged + 1
        else w1.ni.blockStateChanged } } : World D) = w2 at hupdate
  have hinfo : w2.ni.infoTable = w.ni.infoTable := by
    rw [← hw2]
    rw [hni]
    rfl
  have hlost : w2.ni.blockMapping lb = allOnes 32 := by
    rw [← hw2]
    rw [hni]
    exact Function.update_self lb _ _
  have hcounters : w1.ni.blockStateChanged = w.ni.blockStateChanged ∧
      w1.ni.blockMappingChanged = w.ni.blockMappingChanged := by
    rw [hni]
    exact ⟨rfl, rfl⟩
  have hdirty : w2.ni.dirty = true ↔ w.ni.dirty = true ∨ w.ni.getBlockState pb ≠ BLOCK_ST_BAD := by
    rw [← hw2]
    simp only [Instance.dirty, hstate, hcounters.1, hcounters.2, bne_iff_ne, Bool.or_eq_true]
    split
    · rename_i hne
      exact ⟨fun _ => .inr hne, fun _ => .inl (by omega)⟩
    · rename_i heq
      exact ⟨Or.inl, fun h => h.resolve_right heq⟩
  rw [← hdirty]
  refine update_persisted_iff hmem hes hlb hmapped hfmt hinfo hlost (fun hclean => ?_) hupdate hprot
  refine ⟨hrecorded, ?_⟩
  rintro image ⟨hstored, hgood⟩
  -- The block was marked already, so nothing but the block itself has been touched.
  have hbad : w.ni.getBlockState pb = BLOCK_ST_BAD := by
    by_contra hne
    rw [hdirty.mpr (.inr hne)] at hclean
    cases hclean
  have hstates : ∀ ba, w2.ni.getBlockState ba = w1.ni.getBlockState ba := by
    intro ba
    rw [← hw2, getBlockState_set]
    split
    · rename_i hba
      rw [hba, hstate, hbad]
      rfl
    · rfl
  have hkept : Stored nld (w.unmapped lb) image w.ni.mainTableBa 0 nld.infoTableSize
      w.mainTableEnd := hstored.of_eq rfl fun _ => rfl
  have hstored' := hkept.phys h1 (by change w.ni.getBlockState pb ≠ _; rw [hbad]; decide)
  have hmain : w2.ni.mainTableBa = w.ni.mainTableBa := by
    rw [← hw2]
    rw [hni]
    rfl
  have hend : w2.mainTableEnd = w.mainTableEnd := by
    rw [← hw2]
    exact h1.mainTableEnd
  rw [hmain, hend]
  refine ⟨hstored'.of_eq (by rw [← hw2]) hstates, ?_⟩
  rw [hstates, h1.getBlockState]
  exact hgood

theorem markBadBlock_persisted_iff {mem : D → Buffer} (hmem : Lawful nld mem)
    (hes : 0 < nld.erasesize) {addr : Nat} (hlb : nld.addr2ba addr < nld.blockCount)
    (hfmt : Formatted nld w.ni.infoTable) (hrecorded : RecordedFor nld w (nld.addr2ba addr)) :
    Post (markBadBlock nld fuel addr) (fun ret w' => ret = 0 → w'.ni.isProtected = false →
      (Persisted nld w' (nld.addr2ba addr) ↔ RecordsMark w (nld.addr2ba addr))) w := by
  simp only [markBadBlock, modifyNi, getNi, post_bind, post_read, post_ite, post_pure, post_update]
  refine ⟨fun _ hf => absurd hf (by decide), fun _ => ⟨fun _ hf => absurd hf (by decide), fun _ =>
    ⟨fun hneg _ _ => ?_, fun hmapped => ?_⟩⟩⟩
  · constructor
    · exact fun h => .inl h.2
    · rintro (h | ⟨hmapped, -⟩)
      · exact ⟨hrecorded, h⟩
      · omega
  · have hmapped := Int.not_lt.mp hmapped
    have hcondemned := condemned_persisted_iff hmem hes hlb hmapped hfmt hrecorded fuel
      (w.ni.blockMapping (nld.addr2ba addr)).toNat
    rw [post_bind] at hcondemned
    refine hcondemned.mono ?_
    intro _ w1 hupdate
    refine hupdate.mono ?_
    intro _ w2 hiff _ hprot
    rw [hiff hprot]
    constructor
    · exact fun h => .inr ⟨hmapped, h⟩
    · rintro (h | ⟨-, h⟩)
      · exact absurd h (ne_allOnes_of_nonneg hmapped)
      · exact h

/-- From a state whose tables are up to date, the loss of a logic block gets onto the chip
exactly if the last pass of `nmbm_erase_logic_block`, or the call of `nmbm_mark_bad_block`, has
something else to record. -/
theorem loss_persisted_iff {mem : D → Buffer} (hmem : Lawful nld mem) (hes : 0 < nld.erasesize)
    (hrw : nld.readOnly = false) (hlb : lb < nld.blockCount)
    (hfmt : Formatted nld w.ni.infoTable) (hsynced : Synced nld w) :
    (∀ w', eraseLogicBlock nld fuel lb fuel w = some (-eio, w') → w'.ni.isProtected = false →
      (Persisted nld w' lb ↔
        ∃ w₁, lastPass nld fuel lb fuel w = some w₁ ∧ RecordsLoss w₁ lb)) ∧
    ∀ addr w', nld.addr2ba addr = lb → markBadBlock nld fuel addr w = some (0, w') →
      w'.ni.isProtected = false → (Persisted nld w' lb ↔ RecordsMark w lb) := by
  have hrecorded := hsynced.recordedFor hlb
  refine ⟨fun w' hrun hprot => ?_, ?_⟩
  · exact eraseLogicBlock_persisted_iff hes hlb hmem hrw fuel w hfmt hrecorded hrun hprot
  · rintro addr w' rfl hrun hprot
    exact markBadBlock_persisted_iff hmem hes hlb hfmt hrecorded 0 w' hrun rfl hprot

/-! ## A block without spare blocks -/

/-- An instance with one table, in block 6, and no spare blocks; block 2 is in state `st`. -/
def fullInstance (st : BitVec 32) : Instance where
  signature := ⟨0, 0, 0, 0, 4096, 256, 64, 4, 6, 1⟩
  infoTableCache := fun _ => 0
  infoTable := ⟨NMBM_MAGIC_INFO_TABLE, NMBM_VER, 192, 0, 1, 64, 128, 0⟩
  blockState := putBlockState (fun _ => 0xffffffff) 2 st
  blockStateChanged := 0
  blockMapping := BitVec.ofNat 32
  blockMappingChanged := 0
  pageCache := fun _ => 0
  isProtected := false
  dataBlockCount := 6
  mgmtStartBa := 6
  mainTableBa := 6
  backupTableBa := 0
  mappingBlocksBa := 14
  mappingBlocksTopBa := 14
  signatureBa := 15

def fullWorld (st : BitVec 32) : World Flash where
  dev := ⟨memcpy (fun _ => 0xff) 1536
    (tableImage smallChip (fullInstance st) (fullInstance st).infoTable) 0 192,
    fun _ => false, fun _ => 0, 5⟩
  ni := fullInstance st
  mainTableEnd := 7
  backupTableEnd := 0
  log := []
  failed := []

theorem smallChip_mem {mem : Flash → Buffer} (hmem : Lawful smallChip mem) (d : Flash) (a : Nat) :
    mem d a = d.mem a :=
  (hmem.readData a false d (Int.le_refl 0) 0 (by decide)).symm

theorem fullWorld_formatted (st : BitVec 32) : Formatted smallChip (fullWorld st).ni.infoTable where
  state := show 64 = smallChip.stateTableOff by decide
  mapping := show 128 = smallChip.mappingTableOff by decide

theorem fullWorld_synced (st : BitVec 32) : Synced smallChip (fullWorld st) where
  main := by
    have hgood : (fullWorld st).ni.getBlockState 6 = BLOCK_ST_GOOD := by
      change getBlockStateRaw (putBlockState _ 2 st) 6 = _
      rw [getBlockStateRaw_put, if_neg (by decide)]
      decide
    refine ⟨tableImage smallChip (fullInstance st) (fullInstance st).infoTable, ⟨?_, hgood⟩,
      tableImage_current (by decide) (fullInstance st) (fullWorld_formatted st)⟩
    refine .chunk (by decide) hgood ?_ .done
    intro mem hmem i hi
    have hi : i < 192 := hi
    have haddr : smallChip.ba2addr 6 = 1536 := by decide
    have hmain : (fullWorld st).ni.mainTableBa = 6 := rfl
    rw [smallChip_mem hmem, hmain, haddr, fullWorld]
    dsimp only
    rw [memcpy_inside (by omega), Nat.add_sub_cancel_left]
  backup := fun hne => absurd rfl hne

/-- A write to block 2 has failed before, so it is only marked to be remapped: its erasure
returns -EIO, and the table on the chip keeps the old image. -/
theorem loss_not_recorded :
    ∃ w', Synced smallChip (fullWorld BLOCK_ST_NEED_REMAP) ∧
      eraseLogicBlock smallChip 30 2 30 (fullWorld BLOCK_ST_NEED_REMAP) = some (-eio, w') ∧
      w'.ni.isProtected = false ∧ w'.ni.blockMapping 2 = allOnes 32 ∧
      ¬Persisted smallChip w' 2 := by
  have hrun : ∃ r ∈ eraseLogicBlock smallChip 30 2 30 (fullWorld BLOCK_ST_NEED_REMAP),
      r.1 = -eio ∧ r.2.ni.isProtected = false ∧ r.2.ni.blockMapping 2 = allOnes 32 := by
    decide +kernel
  have hlast : ∀ w ∈ lastPass smallChip 30 2 30 (fullWorld BLOCK_ST_NEED_REMAP),
      w.ni.blockMapping 2 = 2#32 ∧ w.ni.dirty = false ∧
        w.ni.getBlockState 2 = BLOCK_ST_NEED_REMAP := by decide +kernel
  obtain ⟨⟨_, w'⟩, herase, rfl, hprot, hlost⟩ := hrun
  have hsynced := fullWorld_synced BLOCK_ST_NEED_REMAP
  refine ⟨w', hsynced, herase, hprot, hlost, ?_⟩
  rw [eraseLogicBlock_persisted_iff (by decide) (by decide) smallChip_lawful rfl 30 _
    (fullWorld_formatted _) (hsynced.recordedFor (by decide)) herase hprot]
  rintro ⟨w₁, hw₁, hloss⟩
  obtain ⟨himage, hclean, hstate⟩ := hlast w₁ hw₁
  rcases hloss with h | ⟨-, -, h | ⟨-, h⟩⟩
  · rw [himage] at h
    exact absurd h (by decide)
  · rw [hclean] at h
    cases h
  · rw [himage] at h
    exact h hstate

theorem loss_recorded_with_mark :
    ∃ w', markBadBlock smallChip 30 512 (fullWorld BLOCK_ST_GOOD) = some (0, w') ∧
      Persisted smallChip w' 2 := by
  have hrun : ∃ r ∈ markBadBlock smallChip 30 512 (fullWorld BLOCK_ST_GOOD), r.1 = 0 ∧
      r.2.ni.isProtected = false := by decide +kernel
  obtain ⟨⟨_, w'⟩, hmark, rfl, hprot⟩ := hrun
  refine ⟨w', hmark, ((loss_persisted_iff smallChip_lawful (by decide) rfl (by decide)
    (fullWorld_formatted _) (fullWorld_synced BLOCK_ST_GOOD)).2 512 w' rfl hmark hprot).mpr ?_⟩
  exact .inr ⟨by decide, .inr (by decide)⟩

end OpenWrt.Nmbm
