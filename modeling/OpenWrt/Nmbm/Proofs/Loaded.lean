import Mathlib.Data.List.Basic
import OpenWrt.Nmbm.Proofs.Borders

/-!
# Loading the tables

What the search for the info tables leaves in the instance, and the invariant after the
tables have been completed.  The check of a table keeps its images out of the table itself
and out of the spare blocks; that the other table does not lie on an image, and that no two
logic blocks share one, is not checked and stands in `LoadOk`.
-/

namespace OpenWrt.Nmbm

open Lib Lib.Prog

variable {D : Type} {nld : Lower D} {w w' w'' : World D}

/-- The tables on the chip give an image of its own to each logic block and leave the spare
blocks between the tables and the images. -/
structure LoadOk (ni : Instance) : Prop where
  injective : InjectiveOn (· < ni.dataBlockCount) ni.blockMapping
  le_top : ni.mappingBlocksBa ≤ ni.mappingBlocksTopBa
  top_lt : ni.mappingBlocksTopBa < ni.signatureBa

/-! ## The search -/

structure Loading (w w' : World D) : Prop where
  ni : w'.ni =
    { w.ni with
      pageCache := w'.ni.pageCache
      blockState := w'.ni.blockState
      blockStateChanged := w'.ni.blockStateChanged
      infoTableCache := w'.ni.infoTableCache
      infoTable := w'.ni.infoTable
      blockMapping := w'.ni.blockMapping }
  mainTableEnd : w'.mainTableEnd = w.mainTableEnd
  backupTableEnd : w'.backupTableEnd = w.backupTableEnd
  log : w'.log = w.log

theorem Loading.refl (w : World D) : Loading w w := ⟨rfl, rfl, rfl, rfl⟩

theorem Loading.trans (h : Loading w w') (h' : Loading w' w'') : Loading w w'' where
  ni := by rw [h'.ni, h.ni]
  mainTableEnd := h'.mainTableEnd.trans h.mainTableEnd
  backupTableEnd := h'.backupTableEnd.trans h.backupTableEnd
  log := h'.log.trans h.log

structure Scanned (w w' : World D) : Prop extends Loading w w' where
  infoTable : w'.ni.infoTable = w.ni.infoTable
  blockMapping : w'.ni.blockMapping = w.ni.blockMapping

theorem Scanned.refl (w : World D) : Scanned w w := ⟨.refl w, rfl, rfl⟩

theorem Scanned.trans (h : Scanned w w') (h' : Scanned w' w'') : Scanned w w'' :=
  ⟨h.toLoading.trans h'.toLoading, h'.infoTable.trans h.infoTable,
    h'.blockMapping.trans h.blockMapping⟩

theorem Quiet.scanned (h : Quiet w w') : Scanned w w' :=
  ⟨⟨by rw [h.ni], h.mainTableEnd, h.backupTableEnd, h.log⟩, by rw [h.ni], by rw [h.ni]⟩

theorem Scanned.setCache (h : Scanned w w') (c : Buffer) :
    Scanned w { w' with ni := { w'.ni with infoTableCache := c } } :=
  ⟨⟨by rw [h.ni], h.mainTableEnd, h.backupTableEnd, h.log⟩, h.infoTable, h.blockMapping⟩

theorem loadLoop_spec (n ba sizeremain : Nat) (startBa : Option Nat) (w : World D) :
    Post (loadLoop nld n ba sizeremain startBa)
      (fun r w' => Scanned w w' ∧
        ∀ s e, r = some (s, e) → ba ≤ e ∧ (sizeremain ≠ 0 → ba < e)) w := by
  induction n generalizing ba sizeremain startBa w with
  | zero =>
    rw [loadLoop, post_pure]
    refine ⟨.refl w, fun s e hr => ?_⟩
    split at hr
    · cases hr
      exact ⟨le_refl _, fun hne => absurd ‹_› hne⟩
    · cases hr
  | succ n ih =>
    have hrest : ∀ w1 size start, Scanned w w1 → Post (loadLoop nld n (ba + 1) size start)
        (fun r w' => Scanned w w' ∧
          ∀ s e, r = some (s, e) → ba ≤ e ∧ (sizeremain ≠ 0 → ba < e)) w1 := by
      intro w1 size start h1
      refine (ih (ba + 1) size start w1).mono ?_
      rintro r w2 ⟨h2, hr⟩
      refine ⟨h1.trans h2, fun s e heq => ?_⟩
      have := (hr s e heq).1
      exact ⟨by omega, fun _ => by omega⟩
    simp only [loadLoop, post_ite, post_pure, post_bind]
    refine ⟨fun hzero => ⟨.refl w, fun s e hr => ?_⟩, fun _ => ?_⟩
    · cases hr
      exact ⟨le_refl _, fun hne => absurd hzero hne⟩
    refine (usableBlock_quiet ba w).mono ?_
    intro usable w1 h1
    refine ⟨fun _ => hrest w1 _ _ h1.scanned, fun _ => ?_⟩
    simp only [getNi, post_read]
    refine (readDataLoop_phys _ _ _ _ _ w1).mono ?_
    rintro ⟨ret, cache⟩ w2 h2
    have h12 := (h1.trans h2.quiet).scanned.setCache cache
    simp only [modifyNi, post_update]
    refine ⟨fun _ => ?_, fun _ => ⟨fun _ => ⟨h12, fun _ _ h => by cases h⟩, fun _ => ?_⟩⟩
    · exact (setBlockState_quiet _ _ _).mono fun _ w3 h3 => hrest w3 _ _ (h12.trans h3.scanned)
    · cases startBa with
      | some _ => exact hrest _ _ _ h12
      | none =>
        simp only [post_ite, post_pure]
        exact ⟨fun _ => hrest _ _ _ h12, fun _ => ⟨h12, fun _ _ h => by cases h⟩⟩

/-! ## The check of a table -/

section Check

variable {mapping : Nat → BitVec 32} {endBa minimum : Nat}

theorem lowestMapping_succ (n : Nat) :
    lowestMapping mapping endBa (n + 1) minimum =
      if endBa ≤ (mapping n).toNat ∧ (mapping n).toNat < lowestMapping mapping endBa n minimum then
        (mapping n).toNat
      else lowestMapping mapping endBa n minimum := by
  simp only [lowestMapping, List.range_succ, List.foldl_append]
  rfl

theorem lowestMapping_pos (hend : 0 < endBa) (hmin : 0 < minimum) (n : Nat) :
    0 < lowestMapping mapping endBa n minimum := by
  induction n with
  | zero => exact hmin
  | succ n ih =>
    rw [lowestMapping_succ]
    split
    · omega
    · exact ih

theorem lowestMapping_le {n lb : Nat} (hlb : lb < n) (hle : endBa ≤ (mapping lb).toNat) :
    lowestMapping mapping endBa n minimum ≤ (mapping lb).toNat := by
  induction n with
  | zero => omega
  | succ n ih =>
    rw [lowestMapping_succ]
    by_cases heq : lb = n
    · subst heq
      split
      · exact le_refl _
      · omega
    · have := ih (by omega)
      split
      · omega
      · exact this

end Check

/-- Images are in the data area or above the spare blocks. -/
def ImagesClear (ni : Instance) (topBa : Nat) : Prop :=
  ∀ lb < ni.dataBlockCount,
    (ni.blockMapping lb).toNat < ni.dataBlockCount ∨ topBa < (ni.blockMapping lb).toNat

theorem takeTables_blockMapping (ni : Instance) (h : InfoTableHeader) {lb : Nat}
    (hlb : lb < nld.blockCount) :
    (takeTables nld ni h).blockMapping lb =
      tableWords nld.bigEndian ni.infoTableCache h.mappingTableOff lb :=
  if_pos hlb

theorem takeTables_dataBlockCount (ni : Instance) (h : InfoTableHeader) :
    (takeTables nld ni h).dataBlockCount = ni.dataBlockCount := rfl

theorem checkInfoTable_spec {ni : Instance} {startBa endBa topBa : Nat} {table : Buffer}
    (h : checkInfoTable nld ni startBa endBa table = some topBa) (hend : 0 < endBa)
    (hsig : 0 < ni.signatureBa) (hcount : ni.dataBlockCount ≤ nld.blockCount)
    (hcache : ni.infoTableCache = table) :
    ImagesClear (takeTables nld ni (InfoTableHeader.ofBuffer nld.bigEndian table)) topBa := by
  unfold checkInfoTable at h
  dsimp only at h
  generalize hmapping : tableWords nld.bigEndian table
    (InfoTableHeader.ofBuffer nld.bigEndian table).mappingTableOff = mapping at h
  intro lb hlb
  rw [takeTables_dataBlockCount] at hlb ⊢
  rw [takeTables_blockMapping ni _ (hlb.trans_le hcount), hcache, hmapping]
  split at h
  · cases h
  rename_i hany
  split at h
  · cases h
  cases h
  simp only [List.any_eq_true, List.mem_range, decide_eq_true_eq, not_exists, not_and] at hany
  have hout := hany lb hlb
  by_cases hlow : (mapping lb).toNat < ni.dataBlockCount
  · exact .inl hlow
  have hle : endBa ≤ (mapping lb).toNat := by omega
  have hlowest : lowestMapping mapping endBa ni.dataBlockCount ni.signatureBa ≤
      (mapping lb).toNat := lowestMapping_le hlb hle
  have hpos : 1 ≤ lowestMapping mapping endBa ni.dataBlockCount ni.signatureBa :=
    lowestMapping_pos hend hsig _
  rw [sub32_of_le hpos]
  omega

theorem Scanned.take (h : Scanned w w') (hdr : InfoTableHeader) :
    Loading w { w' with ni := takeTables nld w'.ni hdr } :=
  ⟨by rw [takeTables, h.ni], h.mainTableEnd, h.backupTableEnd, h.log⟩

structure Search (nld : Lower D) (tableLoaded : Bool) (ba : Nat) (w : World D)
    (r : Option FoundTable) (w' : World D) : Prop where
  loading : Loading w w'
  none : r = none → Scanned w w'
  range : ∀ t, r = some t → ba ≤ t.startBa ∧ t.startBa < t.endBa
  old : ∀ t, r = some t → tableLoaded = true → t.writeCount ≤ w.ni.infoTable.writeCount →
    Scanned w w'
  new : ∀ t, r = some t → tableLoaded = false ∨ w.ni.infoTable.writeCount < t.writeCount →
    w'.ni.infoTable.writeCount = t.writeCount ∧
      (0 < w.ni.signatureBa → w.ni.dataBlockCount ≤ nld.blockCount → ImagesClear w'.ni t.topBa)

theorem Scanned.search {ba : Nat} {tableLoaded : Bool} (h : Scanned w w') :
    Search nld tableLoaded ba w .none w' :=
  ⟨h.toLoading, fun _ => h,
    fun _ h => (by cases h), fun _ h => (by cases h), fun _ h => (by cases h)⟩

theorem tryLoadInfoTable_spec (hes : 0 < nld.erasesize) (ba : Nat) (tableLoaded : Bool)
    (w : World D) :
    Post (tryLoadInfoTable nld ba tableLoaded) (Search nld tableLoaded ba w) w := by
  rw [tryLoadInfoTable, post_bind]
  refine (loadLoop_spec _ _ _ _ w).mono ?_
  rintro r w1 ⟨h1, hr⟩
  cases r with
  | none => exact post_pure.mpr h1.search
  | some t =>
    rcases t with ⟨s, e⟩
    have hlt := (hr s e rfl).2 (infoTableSize_ne_zero hes)
    simp only [getNi, post_bind, post_read, post_ite, post_pure]
    refine ⟨fun _ => h1.search, fun _ => ?_⟩
    split
    · exact post_pure.mpr h1.search
    rename_i top hcheck
    have hsig : w1.ni.signatureBa = w.ni.signatureBa := by rw [h1.ni]
    have hcount : w1.ni.dataBlockCount = w.ni.dataBlockCount := by rw [h1.ni]
    have hclear : 0 < w.ni.signatureBa → w.ni.dataBlockCount ≤ nld.blockCount →
        ImagesClear (takeTables nld w1.ni
          (InfoTableHeader.ofBuffer nld.bigEndian w1.ni.infoTableCache)) top :=
      fun hpos hle => checkInfoTable_spec hcheck (by omega) (by omega) (by omega) rfl
    generalize InfoTableHeader.ofBuffer nld.bigEndian w1.ni.infoTableCache = hdr at hclear ⊢
    have hrange : ∀ t : FoundTable, some ⟨ba, e, hdr.writeCount, top⟩ = some t →
        ba ≤ t.startBa ∧ t.startBa < t.endBa := by
      intro t heq
      cases heq
      exact ⟨le_refl _, hlt⟩
    simp only [modifyNi, post_bind, post_ite, post_update, post_pure]
    refine ⟨fun htake => ?_, fun hkeep => ?_⟩
    · refine ⟨h1.take hdr, fun hf => (by cases hf), hrange, ?_, ?_⟩
      · intro t heq hloaded hle
        cases heq
        rw [hloaded, h1.infoTable] at htake
        simp only [Bool.not_true, Bool.false_or, decide_eq_true_eq] at htake
        exact absurd htake (not_lt.mpr hle)
      · intro t heq _
        cases heq
        exact ⟨rfl, hclear⟩
    · refine ⟨h1.toLoading, fun hf => (by cases hf), hrange, fun _ _ _ _ => h1, ?_⟩
      intro t heq hnew
      cases heq
      rw [h1.infoTable] at hkeep
      simp only [Bool.or_eq_true, Bool.not_eq_true', decide_eq_true_eq, not_or] at hkeep
      rcases hnew with hnew | hnew
      · exact absurd hnew hkeep.1
      · exact absurd hnew hkeep.2

theorem Search.after {ba ba' : Nat} {tableLoaded : Bool} {w1 : World D} {r : Option FoundTable}
    (h : Search nld tableLoaded ba' w1 r w') (hba : ba ≤ ba') (hscan : Scanned w w1) :
    Search nld tableLoaded ba w r w' where
  loading := hscan.toLoading.trans h.loading
  none := fun heq => hscan.trans (h.none heq)
  range := fun t heq => ⟨hba.trans (h.range t heq).1, (h.range t heq).2⟩
  old := by
    intro t heq hloaded hle
    exact hscan.trans (h.old t heq hloaded (by rw [hscan.infoTable]; exact hle))
  new := by
    intro t heq hnew
    have hsig : w1.ni.signatureBa = w.ni.signatureBa := by rw [hscan.ni]
    have hcount : w1.ni.dataBlockCount = w.ni.dataBlockCount := by rw [hscan.ni]
    have := h.new t heq (by rw [hscan.infoTable]; exact hnew)
    rwa [hsig, hcount] at this

theorem searchLoop_spec (hes : 0 < nld.erasesize) (tableLoaded : Bool) (n ba : Nat) (w : World D) :
    Post (searchLoop nld tableLoaded n ba) (Search nld tableLoaded ba w) w := by
  induction n generalizing ba w with
  | zero => exact post_pure.mpr (Scanned.refl w).search
  | succ n ih =>
    rw [searchLoop, post_bind]
    refine (tryLoadInfoTable_spec hes ba tableLoaded w).mono ?_
    intro r w1 h1
    cases r with
    | some t => exact post_pure.mpr h1
    | none =>
      exact (ih (ba + 1) w1).mono fun _ _ h2 => h2.after (Nat.le_succ ba) (h1.none rfl)

/-! ## The tables that were found -/

theorem mappedCount_le {mapping : Nat → BitVec 32} {n k : Nat}
    (h : mappedCount mapping n = some k) : k ≤ n := by
  induction n with
  | zero => cases h
  | succ n ih =>
    rw [mappedCount] at h
    split at h
    · cases h
      exact le_refl _
    · exact (ih h).trans (Nat.le_succ n)

structure SameArea (w w' : World D) : Prop where
  log : w'.log = w.log
  isProtected : w'.ni.isProtected = w.ni.isProtected
  mgmtStartBa : w'.ni.mgmtStartBa = w.ni.mgmtStartBa
  signatureBa : w'.ni.signatureBa = w.ni.signatureBa

theorem SameArea.trans (h : SameArea w w') (h' : SameArea w' w'') : SameArea w w'' :=
  ⟨h'.log.trans h.log, h'.isProtected.trans h.isProtected, h'.mgmtStartBa.trans h.mgmtStartBa,
    h'.signatureBa.trans h.signatureBa⟩

/-- The tables that were found lie in order, and the newer one is taken. -/
structure TablesFound (nld : Lower D) (ba : Nat) (w : World D) (backup : Option FoundTable)
    (w' : World D) : Prop where
  clear : 0 < w.ni.signatureBa → w.ni.signature.mgmtStartPb ≤ nld.blockCount →
    OutsideOn (· < w'.ni.dataBlockCount) w'.ni.blockMapping w.ni.signature.mgmtStartPb
      w'.ni.mappingBlocksTopBa
  placed : w'.ni.mappingBlocksBa ≤ w'.ni.mappingBlocksTopBa → Placed ba w'
  backup : backup ≠ none → w'.ni.backupTableBa ≠ 0

theorem TablesFound.of_search {ba : Nat} {w1 w2 : World D} {main : FoundTable}
    {backup : Option FoundTable} (hsearch : Search nld true main.endBa w1 backup w2)
    (hstart : ba ≤ main.startBa) (hlt : main.startBa < main.endBa)
    (hcount : w1.ni.dataBlockCount = w.ni.signature.mgmtStartPb)
    (hsig : w1.ni.signatureBa = w.ni.signatureBa)
    (hwc : w1.ni.infoTable.writeCount = main.writeCount)
    (hmain : 0 < w.ni.signatureBa → w.ni.signature.mgmtStartPb ≤ nld.blockCount →
      ImagesClear w1.ni main.topBa)
    (hmainBa : w1.ni.mainTableBa = main.startBa) (hmainEnd : w1.mainTableEnd = main.endBa)
    (hbackupBa : w1.ni.backupTableBa = 0) (w3 : World D)
    (hbase : w3.ni.blockMapping = w2.ni.blockMapping ∧ w3.ni.mainTableBa = w2.ni.mainTableBa ∧
      w3.mainTableEnd = w2.mainTableEnd)
    (hdata : w3.ni.dataBlockCount ≤ w2.ni.dataBlockCount)
    (hbackup : w3.ni.backupTableBa = (backup.map (·.startBa)).getD w2.ni.backupTableBa ∧
      (∀ t, backup = some t → w3.backupTableEnd = t.endBa))
    (hmapping : w3.ni.mappingBlocksBa = (backup.getD main).endBa)
    (htop : w3.ni.mappingBlocksTopBa =
      (match backup with
        | none => main
        | some backup => if main.writeCount ≥ backup.writeCount then main else backup).topBa) :
    TablesFound nld ba w backup w3 := by
  rcases hbase with ⟨hmap, hmainBa3, hmainEnd3⟩
  have hni := hsearch.loading.ni
  have hcount2 : w2.ni.dataBlockCount = w.ni.signature.mgmtStartPb := by rw [hni]; exact hcount
  have hmainBa2 : w2.ni.mainTableBa = main.startBa := by rw [hni]; exact hmainBa
  have hmainEnd2 := hsearch.loading.mainTableEnd.trans hmainEnd
  have hbackupBa2 : w2.ni.backupTableBa = 0 := by rw [hni]; exact hbackupBa
  refine ⟨fun hpos hle => ?_, fun hfits => ?_, fun hne => ?_⟩
  · have hkeep : Scanned w1 w2 → ImagesClear w2.ni main.topBa := by
      intro hscan lb hlb
      rw [hcount2, ← hcount] at hlb
      rw [hscan.blockMapping, hcount2, ← hcount]
      exact hmain hpos hle lb hlb
    have hclear : ImagesClear w2.ni w3.ni.mappingBlocksTopBa := by
      rw [htop]
      cases backup with
      | none => exact hkeep (hsearch.none rfl)
      | some t =>
        dsimp only
        split
        · exact hkeep (hsearch.old t rfl rfl (by rw [hwc]; assumption))
        · refine (hsearch.new t rfl (.inr (by omega))).2 ?_ ?_
          · rw [hsig]
            exact hpos
          · rw [hcount]
            exact hle
    intro lb hlb _
    have hout := hclear lb (hlb.trans_le hdata)
    rwa [hcount2, ← hmap] at hout
  · cases backup with
    | none =>
      simp only [Option.getD_none] at hmapping
      refine ⟨by omega, by omega, by omega, hfits, fun hne => absurd ?_ hne⟩
      exact hbackup.1.trans hbackupBa2
    | some t =>
      have hrange := hsearch.range t rfl
      have hend := hbackup.2 t rfl
      have hba := hbackup.1
      simp only [Option.getD_some, Option.map_some] at hmapping hba
      exact ⟨by omega, by omega, by omega, hfits, fun _ => ⟨by omega, by omega, by omega⟩⟩
  · cases backup with
    | none => exact absurd rfl hne
    | some t =>
      have hrange := hsearch.range t rfl
      have hba := hbackup.1
      simp only [Option.map_some, Option.getD_some] at hba
      omega

theorem findInfoTables_spec (hes : 0 < nld.erasesize) (ba limit : Nat) (w : World D) :
    Post (findInfoTables nld ba limit)
      (fun r w' => SameArea w w' ∧
        ∀ main backup, r = some (main, backup) → TablesFound nld ba w backup w') w := by
  simp only [findInfoTables, recordMain, recordBackup, modifyNi, post_bind, post_update]
  refine (searchLoop_spec hes false _ ba _).mono ?_
  intro r w1 h1
  have harea1 : SameArea w w1 :=
    ⟨h1.loading.log, by rw [h1.loading.ni], by rw [h1.loading.ni], by rw [h1.loading.ni]⟩
  cases r with
  | none => exact post_pure.mpr ⟨harea1, fun _ _ h => by cases h⟩
  | some main =>
    rcases h1.range main rfl with ⟨hstart, hlt⟩
    rcases h1.new main rfl (Or.inl rfl) with ⟨hwc, hmain⟩
    have hni := h1.loading.ni
    have hcount : w1.ni.dataBlockCount = w.ni.signature.mgmtStartPb := by rw [hni]
    have hsigBa : w1.ni.signatureBa = w.ni.signatureBa := by rw [hni]
    have hbackupBa : w1.ni.backupTableBa = 0 := by rw [hni]
    have hsign : w1.ni.signature = w.ni.signature := by rw [hni]
    simp only [post_bind, post_update]
    refine (searchLoop_spec hes true _ main.endBa _).mono ?_
    intro backup w2 h2
    have harea2 : SameArea w w2 := harea1.trans
      ⟨h2.loading.log, by rw [h2.loading.ni], by rw [h2.loading.ni], by rw [h2.loading.ni]⟩
    have hsign2 : w2.ni.signature = w.ni.signature := by rw [h2.loading.ni]; exact hsign
    have hcount2 : w2.ni.dataBlockCount = w.ni.signature.mgmtStartPb := by
      rw [h2.loading.ni]
      exact hcount
    have hdata : (mappedCount w2.ni.blockMapping w2.ni.signature.mgmtStartPb).getD
        w2.ni.dataBlockCount ≤ w2.ni.dataBlockCount := by
      cases hmapped : mappedCount w2.ni.blockMapping w2.ni.signature.mgmtStartPb with
      | none => exact le_refl _
      | some k =>
        have := mappedCount_le hmapped
        rw [hsign2] at this
        rw [hcount2]
        exact this
    cases backup
    all_goals
      simp only [post_pure, post_bind, post_update]
      refine ⟨⟨harea2.1, harea2.2, harea2.3, harea2.4⟩, fun main' backup' heq => ?_⟩
      cases heq
      refine TablesFound.of_search h2 hstart hlt hcount hsigBa hwc hmain rfl rfl hbackupBa _
        ⟨rfl, rfl, rfl⟩ hdata ⟨rfl, fun t h => ?_⟩ rfl rfl
      cases h
    rfl

end OpenWrt.Nmbm
