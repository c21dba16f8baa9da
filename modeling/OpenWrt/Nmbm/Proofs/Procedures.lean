import OpenWrt.Nmbm.Proofs.Writer

/-!
# The table procedures

Each procedure that rebuilds, rescues or updates the info tables leaves them placed: the
main table, then the backup table if there is one, then the spare blocks.  What the
procedures of an update record as a table was written from the table image of that
update.
-/

namespace OpenWrt.Nmbm

open Lib Lib.Prog

variable {D : Type} {nld : Lower D} {lo hi start : Nat} {w w' : World D} {cache : Buffer}
variable {s e : Nat} {w1 : World D}

/-- The tables lie in order between block `start` and the spare blocks. -/
structure Placed (start : Nat) (w : World D) : Prop where
  start_le : start ≤ w.ni.mainTableBa
  main_lt : w.ni.mainTableBa < w.mainTableEnd
  main_le : w.mainTableEnd ≤ w.ni.mappingBlocksBa
  le_top : w.ni.mappingBlocksBa ≤ w.ni.mappingBlocksTopBa
  backup : w.ni.backupTableBa ≠ 0 → w.mainTableEnd ≤ w.ni.backupTableBa ∧
    w.ni.backupTableBa < w.backupTableEnd ∧ w.backupTableEnd ≤ w.ni.mappingBlocksBa

structure Held (nld : Lower D) (cache : Buffer) (w : World D) : Prop where
  main : TableAt nld w cache w.ni.mainTableBa w.mainTableEnd
  backup : w.ni.backupTableBa ≠ 0 → TableAt nld w cache w.ni.backupTableBa w.backupTableEnd

theorem TableAt.mgmt (h : TableAt nld w cache s e) (hlt : s < e)
    (hwork : Mgmt nld lo hi w w') (hout : e ≤ lo ∨ hi ≤ s) : TableAt nld w' cache s e := by
  refine ⟨h.1.mgmt hwork hout, ?_⟩
  rw [hwork.state_outside (by omega)]
  exact h.2

theorem Mgmt.record (h : Mgmt nld lo hi w w1)
    {main mainEnd backup backupEnd mapping states images : Nat} :
    Mgmt nld lo hi w
      { w1 with
        ni :=
          { w1.ni with
            mainTableBa := main
            backupTableBa := backup
            mappingBlocksBa := mapping
            blockStateChanged := states
            blockMappingChanged := images }
        mainTableEnd := mainEnd
        backupTableEnd := backupEnd } :=
  h.trans (.of_eq ⟨rfl, rfl, rfl, rfl, rfl⟩ rfl rfl rfl rfl)

theorem Placed.of_eq (h : Placed start w) (hmain : w'.ni.mainTableBa = w.ni.mainTableBa)
    (hmainEnd : w'.mainTableEnd = w.mainTableEnd)
    (hbackup : w'.ni.backupTableBa = w.ni.backupTableBa)
    (hbackupEnd : w'.backupTableEnd = w.backupTableEnd)
    (hmapping : w'.ni.mappingBlocksBa = w.ni.mappingBlocksBa)
    (htop : w'.ni.mappingBlocksTopBa = w.ni.mappingBlocksTopBa) : Placed start w' where
  start_le := by rw [hmain]; exact h.start_le
  main_lt := by rw [hmain, hmainEnd]; exact h.main_lt
  main_le := by rw [hmainEnd, hmapping]; exact h.main_le
  le_top := by rw [hmapping, htop]; exact h.le_top
  backup := by
    rw [hbackup, hmainEnd, hbackupEnd, hmapping]
    exact h.backup

theorem Placed.work (h : Placed start w) (hwork : Work nld lo hi w w') : Placed start w' :=
  h.of_eq hwork.mainTableBa hwork.mainTableEnd hwork.backupTableBa hwork.backupTableEnd
    hwork.mappingBlocksBa hwork.frame.mappingBlocksTopBa

theorem Held.work (h : Held nld cache w) (hplaced : Placed start w)
    (hwork : Work nld lo hi w w') (hmain : w.mainTableEnd ≤ lo)
    (hbackup : w.ni.backupTableBa ≠ 0 → w.backupTableEnd ≤ lo ∨ hi ≤ w.ni.backupTableBa) :
    Held nld cache w' where
  main := by
    rw [hwork.mainTableBa, hwork.mainTableEnd]
    exact h.main.mgmt hplaced.main_lt hwork.toMgmt (.inl hmain)
  backup := by
    rw [hwork.backupTableBa, hwork.backupTableEnd]
    intro hne
    exact (h.backup hne).mgmt (hplaced.backup hne).2.1 hwork.toMgmt (hbackup hne)

theorem TableAt.of_eq (h : TableAt nld w cache s e) (hdev : w'.dev = w.dev)
    (hstate : w'.ni.blockState = w.ni.blockState) : TableAt nld w' cache s e := by
  have hget : ∀ ba, w'.ni.getBlockState ba = w.ni.getBlockState ba :=
    fun ba => congrArg (getBlockStateRaw · ba) hstate
  exact ⟨h.1.of_eq hdev hget, (hget s).trans h.2⟩

structure SameImage (ni ni' : Instance) : Prop where
  infoTableCache : ni'.infoTableCache = ni.infoTableCache
  infoTable : ni'.infoTable = ni.infoTable

theorem SameImage.of_work (h : Work nld lo hi w w') : SameImage w.ni w'.ni :=
  ⟨h.infoTableCache, h.infoTable⟩

theorem SameImage.trans {ni ni' ni'' : Instance} (h : SameImage ni ni') (h' : SameImage ni' ni'') :
    SameImage ni ni'' :=
  ⟨h'.infoTableCache.trans h.infoTableCache, h'.infoTable.trans h.infoTable⟩

structure Settled (nld : Lower D) (start : Nat) (w w' : World D) : Prop where
  mgmt : Mgmt nld start w.ni.mappingBlocksTopBa w w'
  isProtected : w'.ni.isProtected = w.ni.isProtected
  image : SameImage w.ni w'.ni
  placed : Placed start w'
  held : Held nld w.ni.infoTableCache w'

/-- What an update has come to: the tables are settled, or there is no room for even one and
the device is protected. -/
structure Outcome (nld : Lower D) (start : Nat) (w : World D) (ok : Bool) (w' : World D) :
    Prop where
  mgmt : Mgmt nld start w.ni.mappingBlocksTopBa w w'
  settled : ok = true → Settled nld start w w'
  failed : ok = false → w'.ni.isProtected = true ∧
    w'.ni.mappingBlocksBa = w.ni.mappingBlocksTopBa

theorem Settled.outcome (h : Settled nld start w w') : Outcome nld start w true w' :=
  ⟨h.mgmt, fun _ => h, fun hf => (by cases hf)⟩

theorem Outcome.after {start' : Nat} {ok : Bool} (h : Outcome nld start' w1 ok w')
    (hstart : start ≤ start') (hmgmt : Mgmt nld start w.ni.mappingBlocksTopBa w w1)
    (hprot : w1.ni.isProtected = w.ni.isProtected)
    (himage : SameImage w.ni w1.ni) : Outcome nld start w ok w' := by
  have htop := hmgmt.frame.mappingBlocksTopBa
  have hmgmt' : Mgmt nld start w.ni.mappingBlocksTopBa w w' :=
    hmgmt.trans (h.mgmt.mono hstart htop.le)
  refine ⟨hmgmt', fun hok => ?_, fun hfail => ?_⟩
  · rcases h.settled hok with ⟨-, hprot', himage', hplaced, hheld⟩
    exact ⟨hmgmt', hprot'.trans hprot, himage.trans himage',
      { hplaced with start_le := hstart.trans hplaced.start_le }, himage.infoTableCache ▸ hheld⟩
  · rcases h.failed hfail with ⟨hprot', hmapping⟩
    exact ⟨hprot', hmapping.trans htop⟩

theorem Settled.work (h : Settled nld start w w1) (hwork : Work nld lo hi w1 w')
    (hlo : w1.mainTableEnd ≤ lo) (hhi : hi ≤ w.ni.mappingBlocksTopBa)
    (hbackup : w1.ni.backupTableBa ≠ 0 → w1.backupTableEnd ≤ lo ∨ hi ≤ w1.ni.backupTableBa) :
    Settled nld start w w' where
  mgmt := by
    have := h.placed.start_le
    have := h.placed.main_lt
    exact h.mgmt.trans (hwork.toMgmt.mono (by omega) hhi)
  isProtected := hwork.isProtected.trans h.isProtected
  image := h.image.trans (.of_work hwork)
  placed := h.placed.work hwork
  held := h.held.work h.placed hwork hlo hbackup

theorem Settled.of_main (hmgmt : Mgmt nld start w.ni.mappingBlocksTopBa w w1)
    (hprot : w1.ni.isProtected = w.ni.isProtected) (himage : SameImage w.ni w1.ni)
    (hbackup : w1.ni.backupTableBa = 0) (hs : start ≤ s) (hlt : s < e)
      (he : e ≤ w.ni.mappingBlocksTopBa)
    (htable : TableAt nld w1 w.ni.infoTableCache s e) :
    Settled nld start w
      { w1 with
        ni :=
          { w1.ni with
            mainTableBa := s
            mappingBlocksBa := e
            blockStateChanged := 0
            blockMappingChanged := 0 }
        mainTableEnd := e } where
  mgmt := hmgmt.record
  isProtected := hprot
  image := ⟨himage.infoTableCache, himage.infoTable⟩
  placed := ⟨hs, hlt, le_refl _, he.trans_eq hmgmt.frame.mappingBlocksTopBa.symm,
    fun hne => absurd hbackup hne⟩
  held := ⟨htable.of_eq rfl rfl, fun hne => absurd hbackup hne⟩

theorem Settled.addBackup (h : Settled nld start w w1)
    (hs : w1.mainTableEnd ≤ s) (hlt : s < e) (he : e ≤ w.ni.mappingBlocksTopBa)
    (htable : TableAt nld w1 w.ni.infoTableCache s e) :
    Settled nld start w
      { w1 with
        ni := { w1.ni with backupTableBa := s, mappingBlocksBa := e }
        backupTableEnd := e } where
  mgmt := h.mgmt.record
  isProtected := h.isProtected
  image := ⟨h.image.infoTableCache, h.image.infoTable⟩
  placed := ⟨h.placed.start_le, h.placed.main_lt, by show w1.mainTableEnd ≤ e; omega,
    he.trans_eq h.mgmt.frame.mappingBlocksTopBa.symm, fun _ => ⟨hs, hlt, le_refl _⟩⟩
  held := ⟨h.held.main.of_eq rfl rfl, fun _ => htable.of_eq rfl rfl⟩

theorem rebuildInfoTable_spec (hes : 0 < nld.erasesize) (w : World D) :
    Post (rebuildInfoTable nld) (Outcome nld w.ni.mgmtStartBa w) w := by
  simp only [rebuildInfoTable, recordMain, recordBackup, modifyNi, getNi, post_bind, post_update,
    post_read]
  refine (writeInfoTable_spec hes _ _ _).mono ?_
  rintro r w1 ⟨h1, hr⟩
  have hmgmt : Mgmt nld w.ni.mgmtStartBa w.ni.mappingBlocksTopBa w w1 :=
    h1.toMgmt.prepend ⟨rfl, rfl, rfl, rfl, rfl⟩ rfl rfl rfl rfl
  cases r with
  | none =>
    simp only [protect, modifyNi, post_bind, post_update, post_pure]
    exact ⟨hmgmt.trans (.of_eq ⟨rfl, rfl, rfl, rfl, rfl⟩ rfl rfl rfl rfl), fun h => (by cases h),
      fun _ => ⟨rfl, h1.mappingBlocksBa⟩⟩
  | some t =>
    rcases t with ⟨s, e⟩
    rcases hr s e rfl with ⟨hs, hlt, he, htable⟩
    have hmain := Settled.of_main hmgmt h1.isProtected ⟨h1.infoTableCache, h1.infoTable⟩
      h1.backupTableBa hs hlt he htable
    simp only [setMappingBlocksBa, markTablesClean, modifyNi, post_bind, post_update, post_read]
    split
    · exact post_pure.mpr hmain.outcome
    rename_i next hnext
    have hnext := le_of_reserveForTable hnext
    rw [post_bind]
    refine (writeInfoTable_spec hes next _ _).mono ?_
    rintro r w2 ⟨h2, hr2⟩
    have hhi := hmgmt.frame.mappingBlocksTopBa.le
    have hmain2 := hmain.work h2 hnext hhi fun hne => absurd h1.backupTableBa hne
    cases r with
    | none => exact post_pure.mpr hmain2.outcome
    | some t =>
      rcases t with ⟨s', e'⟩
      rcases hr2 s' e' rfl with ⟨hs', hlt', he', htable'⟩
      have hend : w2.mainTableEnd = e := h2.mainTableEnd
      have hcache : w1.ni.infoTableCache = w.ni.infoTableCache := h1.infoTableCache
      have hboth := hmain2.addBackup (by omega) hlt' (he'.trans hhi) (hcache ▸ htable')
      simp only [post_bind, post_update, post_pure]
      refine (eraseRange_work (by omega) _).mono ?_
      intro _ w3 h3
      exact (hboth.work h3 hend.le (by omega) fun _ => Or.inr le_rfl).outcome

/-! ## Updating both tables -/

structure BackupReady (nld : Lower D) (start : Nat) (w : World D) : Prop where
  start_le : start ≤ w.ni.backupTableBa
  lt : w.ni.backupTableBa < w.backupTableEnd
  le : w.backupTableEnd ≤ w.ni.mappingBlocksBa
  le_top : w.ni.mappingBlocksBa ≤ w.ni.mappingBlocksTopBa
  table : TableAt nld w w.ni.infoTableCache w.ni.backupTableBa w.backupTableEnd

theorem BackupReady.promote (h : BackupReady nld start w)
    (hwork : Work nld w.ni.mappingBlocksBa w.ni.mappingBlocksTopBa w w1) :
    Settled nld start w
      { w1 with
        ni := { w1.ni with mainTableBa := w1.ni.backupTableBa, backupTableBa := 0 }
        mainTableEnd := w1.backupTableEnd
        backupTableEnd := 0 } := by
  have hstart := h.start_le
  have hlt := h.lt
  have hle := h.le
  have htable := h.table.mgmt h.lt hwork.toMgmt (.inl h.le)
  have hmgmt : Mgmt nld start w.ni.mappingBlocksTopBa w w1 :=
    hwork.toMgmt.mono (by omega) le_rfl
  have htop := h.le_top
  rw [← hwork.mappingBlocksBa, ← hwork.frame.mappingBlocksTopBa] at htop
  rw [← hwork.backupTableBa] at hstart hlt htable
  rw [← hwork.backupTableEnd] at hlt hle htable
  rw [← hwork.mappingBlocksBa] at hle
  exact ⟨hmgmt.record, hwork.isProtected,
    ⟨hwork.infoTableCache, hwork.infoTable⟩, ⟨hstart, hlt, hle, htop, fun hne => absurd rfl hne⟩,
    ⟨htable.of_eq rfl rfl, fun hne => absurd rfl hne⟩⟩

theorem BackupReady.work (h : BackupReady nld start w) (hwork : Work nld lo hi w w')
    (hhi : hi ≤ w.ni.backupTableBa) : BackupReady nld start w' where
  start_le := by rw [hwork.backupTableBa]; exact h.start_le
  lt := by rw [hwork.backupTableBa, hwork.backupTableEnd]; exact h.lt
  le := by rw [hwork.backupTableEnd, hwork.mappingBlocksBa]; exact h.le
  le_top := by rw [hwork.mappingBlocksBa, hwork.frame.mappingBlocksTopBa]; exact h.le_top
  table := by
    rw [hwork.backupTableBa, hwork.backupTableEnd, hwork.infoTableCache]
    exact h.table.mgmt h.lt hwork.toMgmt (.inr hhi)

theorem rescueMainInfoTable_spec (hes : 0 < nld.erasesize) (fuel : Nat) (w : World D)
    (hstart : start ≤ w.ni.mgmtStartBa) (hready : BackupReady nld start w) :
    Post (rescueMainInfoTable nld fuel) (Outcome nld start w) w := by
  simp only [rescueMainInfoTable, getNi, post_bind, post_read]
  split
  · simp only [promoteBackup, post_bind, post_update, post_pure]
    exact (hready.promote (.refl w)).outcome
  rename_i writeBa _
  rw [post_bind]
  refine (writeTableDown_spec hes fuel writeBa w).mono ?_
  rintro r w1 ⟨h1, hr⟩
  cases r with
  | none =>
    simp only [promoteBackup, post_bind, post_update, post_pure]
    exact (hready.promote h1).outcome
  | some t =>
    rcases t with ⟨ts, te⟩
    rcases hr ts te rfl with ⟨hts, htlt, hte, htmp⟩
    have hb1 := hready.start_le
    have hb2 := hready.lt
    have hb3 := hready.le
    simp only [setMappingBlocksBa, modifyNi, post_bind, post_update]
    refine (writeInfoTable_spec hes _ _ _).mono ?_
    rintro r w2 ⟨h2, hr2⟩
    have hmgmt1 : Mgmt nld start w.ni.mappingBlocksTopBa w w1 :=
      h1.toMgmt.mono (by omega) le_rfl
    have hmgmt12 : Mgmt nld w.ni.mgmtStartBa ts w1 w2 :=
      h2.toMgmt.prepend ⟨rfl, rfl, rfl, rfl, rfl⟩ rfl rfl rfl rfl
    have hmgmt2 := hmgmt1.trans (hmgmt12.mono hstart (by omega))
    have hprot : w2.ni.isProtected = w.ni.isProtected := h2.isProtected.trans h1.isProtected
    have himage : SameImage w.ni w2.ni :=
      ⟨h2.infoTableCache.trans h1.infoTableCache, h2.infoTable.trans h1.infoTable⟩
    have hmapping : w2.ni.mappingBlocksBa = te := h2.mappingBlocksBa
    have htop : te ≤ w2.ni.mappingBlocksTopBa :=
      hte.trans_eq hmgmt2.frame.mappingBlocksTopBa.symm
    have htmp2 := htmp.mgmt htlt hmgmt12 (Or.inr le_rfl)
    cases r with
    | none =>
      simp only [recordMain, recordBackup, markTablesClean, modifyNi, post_bind,
        post_update, post_pure]
      apply Settled.outcome
      exact ⟨hmgmt2.record, hprot,
        ⟨himage.infoTableCache, himage.infoTable⟩, ⟨by show start ≤ ts; omega, htlt,
          hmapping.ge, hmapping.trans_le htop, fun hne => absurd rfl hne⟩,
        ⟨htmp2.of_eq rfl rfl, fun hne => absurd rfl hne⟩⟩
    | some t =>
      rcases t with ⟨ms, me⟩
      rcases hr2 ms me rfl with ⟨hms, hmlt, hme, hmain⟩
      have hcache : w1.ni.infoTableCache = w.ni.infoTableCache := h1.infoTableCache
      have hmain : TableAt nld w2 w.ni.infoTableCache ms me := hcache ▸ hmain
      simp only [recordMain, recordBackup, markTablesClean, modifyNi, post_bind,
        post_update, post_pure, post_ite]
      refine ⟨fun _ => ?_, fun hgt => absurd hme hgt⟩
      apply Settled.outcome
      exact ⟨hmgmt2.record, hprot,
        ⟨himage.infoTableCache, himage.infoTable⟩, ⟨hstart.trans hms, hmlt,
          by show me ≤ w2.ni.mappingBlocksBa; omega, hmapping.trans_le htop,
            fun _ => ⟨hme, htlt, hmapping.ge⟩⟩,
        ⟨hmain.of_eq rfl rfl, fun _ => htmp2.of_eq rfl rfl⟩⟩

theorem writeMainTable_spec (hes : 0 < nld.erasesize) (start fuel : Nat) {limit : Nat} (w : World D)
    (hstart : start ≤ w.ni.mgmtStartBa) (hmain : start ≤ w.ni.mainTableBa)
    (htop : limit ≤ w.ni.mappingBlocksTopBa)
    (hready : w.ni.backupTableBa ≠ 0 → limit = w.ni.backupTableBa ∧ BackupReady nld start w) :
    Post (writeMainTable nld fuel limit) (Outcome nld start w) w := by
  have hrebuild : ∀ w1, Work nld start w.ni.mappingBlocksTopBa w w1 →
      Post (rebuildInfoTable nld) (Outcome nld start w) w1 := by
    intro w1 h1
    refine (rebuildInfoTable_spec hes w1).mono ?_
    intro ok w2 h2
    exact h2.after (hstart.trans_eq h1.frame.mgmtStartBa.symm) h1.toMgmt h1.isProtected
      (.of_work h1)
  simp only [writeMainTable, getNi, post_bind, post_read, post_ite]
  refine ⟨fun _ => hrebuild w (.refl w), fun _ => ?_⟩
  refine (writeInfoTable_spec hes _ _ w).mono ?_
  rintro r w1 ⟨h1, hr⟩
  have hwork : Work nld start w.ni.mappingBlocksTopBa w w1 := h1.mono hmain htop
  cases r with
  | none =>
    rw [post_ite]
    refine ⟨fun _ => hrebuild w1 hwork, fun hne => ?_⟩
    rcases hready hne with ⟨hlimit, hready⟩
    have hready1 := hready.work h1 hlimit.le
    refine (rescueMainInfoTable_spec hes fuel w1
      (hstart.trans_eq h1.frame.mgmtStartBa.symm) hready1).mono ?_
    intro ok w2 h2
    exact h2.after le_rfl hwork.toMgmt h1.isProtected (.of_work h1)
  | some t =>
    rcases t with ⟨s, e⟩
    rcases hr s e rfl with ⟨hs, hlt, he, htable⟩
    simp only [recordMain, setMappingBlocksBa, markTablesClean, modifyNi, post_bind,
      post_update, post_pure, post_ite]
    refine ⟨fun hzero => ?_, fun hne => ?_⟩
    · have hmain := Settled.of_main hwork.toMgmt h1.isProtected (.of_work h1)
        (h1.backupTableBa.trans hzero) (hmain.trans hs) hlt (he.trans htop) htable
      exact hmain.outcome
    · rcases hready hne with ⟨hlimit, hready⟩
      have hready1 := hready.work h1 hlimit.le
      have hend : e ≤ w1.ni.backupTableBa := by rw [h1.backupTableBa]; omega
      have hlt' := hready1.lt
      have hle' := hready1.le
      have htable' := hready1.table
      rw [h1.infoTableCache] at htable'
      apply Settled.outcome
      exact ⟨hwork.toMgmt.record, h1.isProtected,
        ⟨h1.infoTableCache, h1.infoTable⟩, ⟨hmain.trans hs, hlt,
          by show e ≤ w1.ni.mappingBlocksBa; omega, hready1.le_top, fun _ => ⟨hend, hlt', hle'⟩⟩,
        ⟨htable.of_eq rfl rfl, fun _ => htable'.of_eq rfl rfl⟩⟩

def World.generated (nld : Lower D) (w : World D) : World D :=
  { w with ni := w.ni.generated nld }

theorem generated_mgmt (w : World D) : Mgmt nld lo hi w (w.generated nld) :=
  .of_eq ⟨rfl, rfl, rfl, rfl, rfl⟩ rfl rfl rfl rfl

theorem updateInfoTableOnce_spec (hes : 0 < nld.erasesize) (fuel : Nat) {force : Bool}
    (w : World D) (hchange : w.ni.dirty ∨ force)
    (hstart : start ≤ w.ni.mgmtStartBa) (hmain : start ≤ w.ni.mainTableBa)
    (hbackup : w.ni.backupTableBa ≠ 0 → start ≤ w.ni.backupTableBa) :
    Post (updateInfoTableOnce nld fuel force) (Outcome nld start (w.generated nld)) w := by
  simp only [updateInfoTableOnce, generateInfoTableCache, modifyNi, getNi, post_bind, post_read,
    post_update, post_pure, post_ite]
  refine ⟨fun hnone => ?_, fun _ => ⟨fun hzero => ?_, fun hne => ?_⟩⟩
  · rcases hchange with h | h
    · simp [h] at hnone
    · simp [h] at hnone
  · exact writeMainTable_spec hes start fuel (w.generated nld) hstart hmain le_rfl
      fun hne => absurd hzero hne
  · refine (writeInfoTable_spec hes _ _ (w.generated nld)).mono ?_
    rintro r w1 ⟨h1, hr⟩
    have hwork : Work nld start w.ni.mappingBlocksTopBa (w.generated nld) w1 :=
      h1.mono (hbackup hne) le_rfl
    have hframe := hwork.frame
    have hstart1 := hstart.trans_eq hframe.mgmtStartBa.symm
    have hmain1 := hmain.trans_eq hwork.mainTableBa.symm
    cases r with
    | none =>
      refine (writeMainTable_spec hes start fuel _ ?_ ?_ ?_ ?_).mono ?_
      · exact hstart1
      · exact hmain1
      · exact hframe.mappingBlocksTopBa.ge
      · exact fun hne => absurd rfl hne
      · intro ok w2 h2
        exact h2.after le_rfl hwork.toMgmt.record hwork.isProtected
          ⟨hwork.infoTableCache, hwork.infoTable⟩
    | some t =>
      rcases t with ⟨s, e⟩
      rcases hr s e rfl with ⟨hs, hlt, he, htable⟩
      have htop := he.trans_eq hframe.mappingBlocksTopBa.symm
      have hready : BackupReady nld start { w1 with
            ni :=
              { w1.ni with
                backupTableBa := s
                mappingBlocksBa := e
                blockStateChanged := 0
                blockMappingChanged := 0 }
            backupTableEnd := e } := by
        rw [← hwork.infoTableCache] at htable
        exact ⟨(hbackup hne).trans hs, hlt, le_refl _, htop, htable.of_eq rfl rfl⟩
      refine (writeMainTable_spec hes start fuel _ ?_ ?_ ?_ ?_).mono ?_
      · exact hstart1
      · exact hmain1
      · exact hlt.le.trans htop
      · exact fun _ => ⟨rfl, hready⟩
      · intro ok w2 h2
        exact h2.after le_rfl hwork.toMgmt.record hwork.isProtected
          ⟨hwork.infoTableCache, hwork.infoTable⟩

/-! ## One table -/

structure Kept (nld : Lower D) (start : Nat) (w w' : World D) : Prop where
  mgmt : Mgmt nld start w.ni.mappingBlocksTopBa w w'
  isProtected : w'.ni.isProtected = w.ni.isProtected
  placed : Placed start w'

theorem Kept.refl (h : Placed start w) : Kept nld start w w := ⟨.refl w, rfl, h⟩

theorem Kept.trans (h : Kept nld start w w1) (h' : Kept nld start w1 w') : Kept nld start w w' :=
  ⟨h.mgmt.trans (h'.mgmt.mono le_rfl h.mgmt.frame.mappingBlocksTopBa.le),
    h'.isProtected.trans h.isProtected, h'.placed⟩

theorem Kept.of_work (h : Placed start w)
    (hwork : Work nld start w.ni.mappingBlocksTopBa w w') : Kept nld start w w' :=
  ⟨hwork.toMgmt, hwork.isProtected, h.work hwork⟩

theorem rescueBehind_spec (hes : 0 < nld.erasesize) (fuel : Nat) (w : World D)
    (hplaced : Placed start w) :
    Post (rescueBehind nld fuel) (fun _ w' => Kept nld start w w') w := by
  have h1 := hplaced.start_le
  have h2 := hplaced.main_lt
  have h3 := hplaced.main_le
  simp only [rescueBehind, getNi, post_bind, post_read]
  split
  · exact post_pure.mpr (.refl hplaced)
  rename_i writeBa _
  rw [post_bind]
  refine (writeTableDown_spec hes fuel writeBa w).mono ?_
  rintro r w1 ⟨hdown, hr⟩
  have hkept := Kept.of_work hplaced (hdown.mono (by omega) le_rfl)
  cases r with
  | none => exact post_pure.mpr hkept
  | some t =>
    rcases t with ⟨s, e⟩
    rcases hr s e rfl with ⟨hs, hlt, he, -⟩
    rw [post_bind]
    refine (eraseRange_work hs w1).mono ?_
    intro _ w2 herase
    have hkept := hkept.trans (.of_work hkept.placed (herase.mono (by omega)
      (by rw [hdown.frame.mappingBlocksTopBa]; omega)))
    simp only [recordBackup, setMappingBlocksBa, markTablesClean, modifyNi, post_bind,
      post_update, post_pure]
    have hmain : w2.mainTableEnd ≤ s := by
      rw [herase.mainTableEnd, hdown.mainTableEnd]
      omega
    exact ⟨hkept.mgmt.record, hkept.isProtected,
      ⟨hkept.placed.start_le, hkept.placed.main_lt, by show w2.mainTableEnd ≤ e; omega,
        he.trans_eq hkept.mgmt.frame.mappingBlocksTopBa.symm,
        fun _ => ⟨hmain, hlt, le_refl _⟩⟩⟩

theorem rescueSingleInfoTable_spec (hes : 0 < nld.erasesize) (fuel : Nat) (w : World D)
    (hstart : start ≤ w.ni.mgmtStartBa) (hplaced : Placed start w) :
    Post (rescueSingleInfoTable nld fuel) (fun _ w' => Kept nld start w w') w := by
  have h2 := hplaced.main_lt
  have h3 := hplaced.main_le
  have h4 := hplaced.le_top
  simp only [rescueSingleInfoTable, id, post_bind, post_read]
  refine (writeInfoTable_spec hes _ _ w).mono ?_
  rintro r w1 ⟨hwrite, hr⟩
  have hkept := Kept.of_work hplaced (hwrite.mono hstart (by omega))
  cases r with
  | none => exact (rescueBehind_spec hes fuel w1 hkept.placed).mono fun _ _ h => hkept.trans h
  | some t =>
    rcases t with ⟨s, e⟩
    rcases hr s e rfl with ⟨hs, hlt, he, -⟩
    simp only [recordBackup, recordMain, markTablesClean, modifyNi, post_bind, post_update,
      post_pure]
    have hmapping : w1.ni.mappingBlocksBa = w.ni.mappingBlocksBa := hwrite.mappingBlocksBa
    have hnew : Kept nld start w { w1 with
          ni :=
            { w1.ni with
              backupTableBa := w.ni.mainTableBa
              mainTableBa := s
              blockStateChanged := 0
              blockMappingChanged := 0 }
          backupTableEnd := w.mainTableEnd
          mainTableEnd := e } :=
      ⟨hkept.mgmt.record, hkept.isProtected,
        ⟨hstart.trans hs, hlt, by show e ≤ w1.ni.mappingBlocksBa; omega, hkept.placed.le_top,
          fun _ => ⟨he, h2, by show w.mainTableEnd ≤ w1.ni.mappingBlocksBa; omega⟩⟩⟩
    refine (eraseRange_work he _).mono ?_
    intro _ w2 herase
    refine hnew.trans (.of_work hnew.placed (herase.mono (by omega) ?_))
    rw [hwrite.frame.mappingBlocksTopBa]
    omega

theorem updateSingleInfoTable_spec (hes : 0 < nld.erasesize) (fuel : Nat)
    (updateMainTable : Bool) (w : World D) (hstart : start ≤ w.ni.mgmtStartBa)
    (hplaced : Placed start w) (hbackup : w.ni.backupTableBa ≠ 0) :
    Post (updateSingleInfoTable nld fuel updateMainTable) (fun _ w' => Kept nld start w w') w := by
  have h1 := hplaced.start_le
  have h2 := hplaced.main_lt
  have h4 := hplaced.le_top
  rcases hplaced.backup hbackup with ⟨h5, h6, h7⟩
  simp only [updateSingleInfoTable, getNi, post_bind, post_read, post_ite]
  refine ⟨fun _ => ?_, fun _ => ?_⟩
  · refine (writeInfoTable_spec hes _ _ w).mono ?_
    rintro r w1 ⟨hwrite, hr⟩
    have hkept := Kept.of_work hplaced (hwrite.mono h1 (by omega))
    have hmapping : w1.ni.mappingBlocksBa = w.ni.mappingBlocksBa := hwrite.mappingBlocksBa
    have hback : w1.ni.backupTableBa = w.ni.backupTableBa := hwrite.backupTableBa
    have hend : w1.backupTableEnd = w.backupTableEnd := hwrite.backupTableEnd
    cases r with
    | none =>
      have hnew : Kept nld start w { w1 with
            ni := { w1.ni with mainTableBa := w1.ni.backupTableBa, backupTableBa := 0 }
            mainTableEnd := w1.backupTableEnd
            backupTableEnd := 0 } :=
        ⟨hkept.mgmt.record, hkept.isProtected,
          ⟨by show start ≤ w1.ni.backupTableBa; omega,
            by show w1.ni.backupTableBa < w1.backupTableEnd; omega,
            by show w1.backupTableEnd ≤ w1.ni.mappingBlocksBa; omega, hkept.placed.le_top,
            fun hne => absurd rfl hne⟩⟩
      refine (rescueSingleInfoTable_spec hes fuel _ ?_ hnew.placed).mono ?_
      · exact hstart.trans_eq hwrite.frame.mgmtStartBa.symm
      · intro _ w2 h
        exact hnew.trans h
    | some t =>
      rcases t with ⟨s, e⟩
      rcases hr s e rfl with ⟨hs, hlt, he, -⟩
      simp only [recordMain, markTablesClean, modifyNi, post_bind, post_update, post_pure]
      exact ⟨hkept.mgmt.record, hkept.isProtected,
        ⟨h1.trans hs, hlt, by show e ≤ w1.ni.mappingBlocksBa; omega, hkept.placed.le_top,
          fun hne => ⟨by show e ≤ w1.ni.backupTableBa; omega, (hkept.placed.backup hne).2⟩⟩⟩
  · refine (writeInfoTable_spec hes _ _ w).mono ?_
    rintro r w1 ⟨hwrite, hr⟩
    have hkept := Kept.of_work hplaced (hwrite.mono (by omega) le_rfl)
    have hmain : w1.mainTableEnd = w.mainTableEnd := hwrite.mainTableEnd
    have htop := hwrite.frame.mappingBlocksTopBa
    cases r with
    | none =>
      simp only [setMappingBlocksBa, recordBackup, modifyNi, post_bind, post_update, post_pure]
      exact ⟨hkept.mgmt.record, hkept.isProtected,
        ⟨hkept.placed.start_le, hkept.placed.main_lt,
          by show w1.mainTableEnd ≤ w.ni.backupTableBa; omega,
          by show w.ni.backupTableBa ≤ w1.ni.mappingBlocksTopBa; omega,
          fun hne => absurd rfl hne⟩⟩
    | some t =>
      rcases t with ⟨s, e⟩
      rcases hr s e rfl with ⟨hs, hlt, he, -⟩
      simp only [setMappingBlocksBa, recordBackup, markTablesClean, modifyNi, post_bind,
        post_update, post_pure]
      exact ⟨hkept.mgmt.record, hkept.isProtected,
        ⟨hkept.placed.start_le, hkept.placed.main_lt, by show w1.mainTableEnd ≤ e; omega,
          he.trans_eq htop.symm,
          fun _ => ⟨by show w1.mainTableEnd ≤ s; omega, hlt, le_refl _⟩⟩⟩

end OpenWrt.Nmbm
