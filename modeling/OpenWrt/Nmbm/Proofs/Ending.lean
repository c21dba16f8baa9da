import Mathlib.Data.Finset.Card
import OpenWrt.Nmbm.Proofs.Safety

/-!
# Table updates end

Whatever the chip does, `nmbm_update_info_table` ends: a round that leaves a counter of
changes behind has seen a good block go bad after the last table of the round was written,
and there are finitely many good blocks.
-/

namespace OpenWrt.Nmbm

open Lib Lib.Prog

variable {D α : Type} {nld : Lower D}

/-! ## Pages and blocks -/

section

variable {addr ba n off ptr sizeremain limit s e : Nat} {data : Buffer}

instance : Total (getNi : M D Instance) := total_read

instance {f : Instance → Instance} : Total (modifyNi f : M D Unit) := total_update

instance {e : Instance → Event} : Total (note e : M D Unit) := total_update

instance {f : D → α × D} : Total (lower f) := total_call

instance : Total (resetChip nld) := total_call

instance total_retry {ok : α → Bool} {op : M D α} [Total op] : Total (retry nld ok op n) := by
  induction n with
  | zero => exact total_bind
  | succ n ih => exact total_bind

instance {buf oob : Bool} {mode : OobMode} : Total (readPhysPage nld addr buf oob mode) :=
  total_retry

instance {data oob : Option Buffer} {mode : OobMode} :
    Total (writePhysPage nld addr data oob mode) := total_ite

instance : Total (erasePhysBlock nld addr) := total_ite

instance : Total (readPageCache nld addr) := total_bind

instance : Total (checkBadPhysBlock nld ba) := by
  unfold checkBadPhysBlock
  split <;> infer_instance

instance : Total (writePages nld addr n) := by
  induction n generalizing addr with
  | zero => exact total_pure
  | succ n ih => exact total_bind

instance : Total (markPhysBadBlock nld ba) := by
  unfold markPhysBadBlock
  cases nld.markBadBlock <;> exact total_ite

instance : Total (checkEmptyPages nld addr n) := by
  induction n generalizing addr with
  | zero => exact total_pure
  | succ n ih => exact total_bind

instance : Total (eraseBlockAndCheck nld ba) := total_bind

set_option synthInstance.maxSize 256 in
instance : Total (writeVerifyLoop nld data n off ptr sizeremain) := by
  induction n generalizing off ptr sizeremain with
  | zero => exact total_pure
  | succ n ih =>
    unfold writeVerifyLoop
    dsimp only
    infer_instance

/-! ## Tables -/

instance {st : BitVec 32} : Total (setBlockState ba st : M D Unit) := total_update

instance : Total (noteFailed ba : M D Unit) := total_update

instance : Total (usableBlock nld ba) := total_bind

instance : Total (condemnBlock nld ba) := total_bind

instance : Total (eraseRangeLoop nld n ba) := by
  induction n generalizing ba with
  | zero => exact total_pure
  | succ n ih => exact total_bind

instance : Total (eraseRange nld ba limit) :=
  inferInstanceAs (Total (eraseRangeLoop nld (limit - ba) ba))

instance : Total (writeVerifyData nld addr data ptr n) :=
  inferInstanceAs (Total (writeVerifyLoop nld data n addr ptr n))

instance : Total (writeChunk nld ba data ptr n) := total_bind

instance {size : Nat} : Total (writeMgmtLoop nld data size n ba sizeremain s) := by
  induction n generalizing ba sizeremain s with
  | zero => exact total_pure
  | succ n ih =>
    unfold writeMgmtLoop
    dsimp only
    infer_instance

instance {size : Nat} : Total (writeMgmtRange nld ba limit data size) :=
  inferInstanceAs (Total (writeMgmtLoop nld data size (limit - ba) ba size 0))

instance : Total (writeInfoTable nld ba limit) := total_bind

instance : Total (recordMain s e : M D Unit) := total_update

instance : Total (recordBackup s e : M D Unit) := total_update

instance : Total (setMappingBlocksBa ba : M D Unit) := total_update

instance : Total (markTablesClean : M D Unit) := total_update

instance : Total (protect : M D Unit) := total_update

instance : Total (promoteBackup : M D Unit) := total_update

instance : Total (rebuildInfoTable nld) where
  ends w := by
    refine Ends.bind ends_update fun _ w1 => Ends.bind ends_update fun _ w2 => ?_
    refine Ends.bind ends_update fun _ w3 => Ends.bind ends_read fun ni w4 => ?_
    refine (Total.ends _ w4).bind fun r w5 => ?_
    cases r with
    | none => exact Total.ends _ w5
    | some t =>
      refine Ends.bind ends_update fun _ w6 => Ends.bind ends_update fun _ w7 => ?_
      refine Ends.bind ends_update fun _ w8 => Ends.bind ends_read fun ni w9 => ?_
      split
      · exact ends_pure
      · refine (Total.ends _ w9).bind fun r w10 => ?_
        cases r <;> exact Total.ends _ w10

end

section

variable (hes : 0 < nld.erasesize)

include hes

theorem clipLimit_lt (limit : Nat) : clipLimit nld limit < nld.blockCount := by
  have hpos := blockCount_pos hes
  unfold clipLimit
  split
  · rw [sub32_of_le hpos]
    omega
  · omega

theorem lt_of_reserveForTable {ni : Instance} {ba r : Nat}
    (h : reserveForTable nld ni ba = some r) : r < nld.blockCount := by
  rcases List.exists_of_findSome?_eq_some h with ⟨n, -, hwalk⟩
  obtain ⟨hle, hlt⟩ := walkAsc_bounds hwalk
  have hclip := clipLimit_lt hes (sub32 ni.mappingBlocksTopBa (nld.size2blk nld.infoTableSize))
  omega

omit hes in
theorem writeTableDown_ends {lowest : Nat} (hlow : 0 < lowest) {fuel writeBa : Nat}
    (hfuel : writeBa + 1 < fuel) (w : World D) :
      Ends (writeTableDown nld lowest fuel writeBa) w := by
  induction fuel generalizing writeBa w with
  | zero => omega
  | succ fuel ih =>
    rw [writeTableDown, ends_ite]
    refine ⟨fun _ => ends_pure, fun hge => Ends.bind ends_read fun ni w1 => ?_⟩
    refine (Total.ends _ w1).bind fun r w2 => ?_
    cases r with
    | some t => exact ends_pure
    | none =>
      refine ih ?_ w2
      rw [sub32_of_le (by omega)]
      omega

theorem rewriteBackup_ends {fuel mainEnd : Nat}
    (hfuel : nld.blockCount < fuel) (hend : 0 < mainEnd) (w : World D) :
    Ends (rewriteBackup nld fuel mainEnd) w := by
  refine Ends.bind ends_update fun _ w1 => Ends.bind ends_read fun ni w2 => ?_
  split
  · exact Total.ends _ w2
  · rename_i writeBa hreserve
    have hlt := lt_of_reserveForTable hes hreserve
    refine (writeTableDown_ends hend (by omega) w2).bind fun r w3 => ?_
    cases r <;> exact Total.ends _ w3

theorem rescueMainInfoTable_ends {fuel : Nat}
    (hfuel : nld.blockCount < fuel) (w : World D) (hlow : 0 < w.ni.mappingBlocksBa) :
    Ends (rescueMainInfoTable nld fuel) w := by
  simp only [rescueMainInfoTable, getNi, ends_bind, ends_read, post_read, true_and]
  split
  · exact Total.ends _ w
  rename_i writeBa hreserve
  have hlt := lt_of_reserveForTable hes hreserve
  refine (writeTableDown_ends hlow (by omega) w).bind fun r w1 => ?_
  cases r with
  | none => exact Total.ends _ w1
  | some t =>
    refine Ends.bind ends_update fun _ w2 => ?_
    refine ends_bind.mpr ⟨Total.ends _ w2, ?_⟩
    refine (writeInfoTable_spec hes _ _ w2).mono ?_
    rintro r w3 ⟨-, hr⟩
    cases r with
    | none => exact Total.ends _ w3
    | some t =>
      rcases t with ⟨ms, me⟩
      have hend : 0 < me := by
        have := (hr ms me rfl).2.1
        omega
      refine Ends.bind ends_update fun _ w4 => Ends.bind ends_update fun _ w5 => ?_
      rw [ends_ite]
      exact ⟨fun _ => Total.ends _ w5, fun _ => rewriteBackup_ends hes hfuel hend w5⟩

theorem writeMainTable_ends {fuel : Nat} (hfuel : nld.blockCount < fuel)
    (limit : Nat) (w : World D) (hlow : w.ni.backupTableBa ≠ 0 → 0 < w.ni.mappingBlocksBa) :
    Ends (writeMainTable nld fuel limit) w := by
  simp only [writeMainTable, getNi, ends_bind, ends_read, post_read, true_and, ends_ite]
  refine ⟨fun _ => Total.ends _ w, fun _ => ⟨Total.ends _ w, ?_⟩⟩
  refine (writeInfoTable_spec hes _ _ w).mono ?_
  rintro r w1 ⟨h1, -⟩
  cases r with
  | none =>
    rw [ends_ite]
    refine ⟨fun _ => Total.ends _ w1, fun hne => ?_⟩
    apply rescueMainInfoTable_ends hes hfuel
    rw [h1.mappingBlocksBa]
    exact hlow hne
  | some t => exact Total.ends _ w1

theorem updateInfoTableOnce_ends {fuel : Nat}
    (hfuel : nld.blockCount < fuel) (force : Bool) (w : World D) :
    Ends (updateInfoTableOnce nld fuel force) w := by
  refine Ends.bind (Ends.bind ends_read fun _ _ => Ends.bind ends_update fun _ _ => ends_pure)
    fun changed w1 => ?_
  rw [ends_ite]
  refine ⟨fun _ => ends_pure, fun _ => ?_⟩
  simp only [getNi, ends_bind, ends_read, post_read, true_and, ends_ite]
  refine ⟨fun hzero => writeMainTable_ends hes hfuel _ w1 fun hne => absurd hzero hne, fun _ =>
    ⟨Total.ends _ w1, ?_⟩⟩
  refine (writeInfoTable_spec hes _ _ w1).mono ?_
  rintro r w2 ⟨-, hr⟩
  cases r with
  | none =>
    exact writeMainTable_ends hes hfuel _ _ fun hne => absurd rfl hne
  | some t =>
    rcases t with ⟨s, e⟩
    have hlt := (hr s e rfl).2.1
    exact writeMainTable_ends hes hfuel _ _ fun _ => Nat.zero_lt_of_lt hlt

end

/-! ## What a round leaves to be written -/

variable {lo hi : Nat} {w w' v : World D}

/-- The counters were cleared after `w`: what they say now has happened since. -/
structure Cleaned (w w' : World D) : Prop where
  worn : Worn w w'
  dirty : w'.ni.dirty = true → Turned w w'

theorem Cleaned.of_clear (hworn : Worn w w') (hstate : w'.ni.blockStateChanged = 0)
    (hmapping : w'.ni.blockMappingChanged = 0) : Cleaned w w' := by
  refine ⟨hworn, fun hdirty => ?_⟩
  rw [Instance.dirty, hstate, hmapping] at hdirty
  exact absurd hdirty (by decide)

theorem Cleaned.of_eq (h : Cleaned w v) (hstate : w'.ni.blockState = v.ni.blockState)
    (hcount : w'.ni.blockStateChanged = v.ni.blockStateChanged)
    (hmapping : w'.ni.blockMappingChanged = v.ni.blockMappingChanged) : Cleaned w w' := by
  refine ⟨h.worn.trans (.of_eq hstate), fun hdirty => ?_⟩
  rw [Instance.dirty, hcount, hmapping] at hdirty
  exact (h.dirty hdirty).trans_worn (.of_eq hstate)

theorem Work.cleaned {v' : World D} (hwork : Work nld lo hi v' w') (h : Cleaned w v)
    (hstate : v'.ni.blockState = v.ni.blockState)
    (hcount : v'.ni.blockStateChanged = v.ni.blockStateChanged)
    (hmapping : v'.ni.blockMappingChanged = v.ni.blockMappingChanged) : Cleaned w w' := by
  have h := h.of_eq hstate hcount hmapping
  refine ⟨h.worn.trans hwork.worn, fun hdirty => ?_⟩
  rcases hwork.counted with hcount' | hturned
  · have hmapping' : w'.ni.blockMappingChanged = v'.ni.blockMappingChanged := by rw [hwork.ni]
    rw [Instance.dirty, hcount', hmapping'] at hdirty
    exact (h.dirty hdirty).trans_worn hwork.worn
  · exact h.worn.trans_turned hturned

section

variable (hes : 0 < nld.erasesize)

include hes

theorem rebuildInfoTable_cleaned (v : World D) (hworn : Worn w v) :
    Post (rebuildInfoTable nld) (fun ok w' => ok → Cleaned w w') v := by
  simp only [rebuildInfoTable, recordMain, recordBackup, modifyNi, getNi, post_bind, post_update,
    post_read]
  refine (writeInfoTable_spec hes _ _ _).mono ?_
  rintro r w1 ⟨h1, -⟩
  have hworn1 : Worn w w1 := hworn.trans ((Worn.of_eq rfl).trans h1.worn)
  cases r with
  | none =>
    simp only [protect, modifyNi, post_bind, post_update, post_pure]
    exact fun h => by cases h
  | some t =>
    rcases t with ⟨s, e⟩
    simp only [setMappingBlocksBa, markTablesClean, modifyNi, post_bind, post_update, post_read]
    have hclear : Cleaned w { w1 with
          ni :=
            { w1.ni with
              mainTableBa := s
              mappingBlocksBa := e
              blockStateChanged := 0
              blockMappingChanged := 0 }
          mainTableEnd := e } := .of_clear (hworn1.trans (.of_eq rfl)) rfl rfl
    split
    · exact post_pure.mpr fun _ => hclear
    rename_i next hnext
    have hnext := le_of_reserveForTable hnext
    rw [post_bind]
    refine (writeInfoTable_spec hes next _ _).mono ?_
    rintro r w2 ⟨h2, hr2⟩
    cases r with
    | none => exact post_pure.mpr fun _ => h2.cleaned hclear rfl rfl rfl
    | some t =>
      rcases t with ⟨s', e'⟩
      rcases hr2 s' e' rfl with ⟨hs', -⟩
      simp only [post_bind, post_update, post_pure]
      refine (eraseRange_work (by omega) _).mono ?_
      intro _ w3 h3 _
      exact h3.cleaned (h2.cleaned hclear rfl rfl rfl) rfl rfl rfl

theorem rewriteBackup_cleaned (fuel mainEnd : Nat) (v : World D)
    (h : Cleaned w v) : Post (rewriteBackup nld fuel mainEnd) (fun _ w' => Cleaned w w') v := by
  simp only [rewriteBackup, setMappingBlocksBa, recordBackup, modifyNi, getNi, post_bind,
    post_update, post_read]
  split
  · simp only [post_bind, post_update, post_pure]
    exact h.of_eq rfl rfl rfl
  rename_i writeBa _
  rw [post_bind]
  refine (writeTableDown_spec hes fuel writeBa _).mono ?_
  rintro r w1 ⟨h1, hr⟩
  have hclean := h1.cleaned h rfl rfl rfl
  cases r with
  | none =>
    simp only [post_bind, post_update, post_pure]
    exact hclean.of_eq rfl rfl rfl
  | some t =>
    rcases t with ⟨s, e⟩
    simp only [post_bind, post_update, post_pure]
    refine (eraseRange_work (hr s e rfl).1 _).mono ?_
    intro _ w2 h2
    exact h2.cleaned hclean rfl rfl rfl

theorem rescueMainInfoTable_cleaned (fuel : Nat) (v : World D)
    (h : Cleaned w v) : Post (rescueMainInfoTable nld fuel) (fun _ w' => Cleaned w w') v := by
  simp only [rescueMainInfoTable, getNi, post_bind, post_read]
  split
  · simp only [promoteBackup, post_bind, post_update, post_pure]
    exact h.of_eq rfl rfl rfl
  rename_i writeBa _
  rw [post_bind]
  refine (writeTableDown_spec hes fuel writeBa v).mono ?_
  rintro r w1 ⟨h1, -⟩
  have hclean := h1.cleaned h rfl rfl rfl
  cases r with
  | none =>
    simp only [promoteBackup, post_bind, post_update, post_pure]
    exact hclean.of_eq rfl rfl rfl
  | some t =>
    simp only [setMappingBlocksBa, modifyNi, post_bind, post_update]
    refine (writeInfoTable_spec hes _ _ _).mono ?_
    rintro r w2 ⟨h2, -⟩
    have hworn := (h2.cleaned hclean rfl rfl rfl).worn
    cases r with
    | none =>
      simp only [recordMain, recordBackup, markTablesClean, modifyNi, post_bind,
        post_update, post_pure]
      exact .of_clear (hworn.trans (.of_eq rfl)) rfl rfl
    | some t =>
      rcases t with ⟨ms, me⟩
      simp only [recordMain, recordBackup, markTablesClean, modifyNi, post_bind,
        post_update, post_pure, post_ite]
      refine ⟨fun _ => .of_clear (hworn.trans (.of_eq rfl)) rfl rfl, fun _ => ?_⟩
      exact rewriteBackup_cleaned hes fuel me _ (.of_clear (hworn.trans (.of_eq rfl)) rfl rfl)

theorem writeMainTable_cleaned (fuel limit : Nat) (v : World D)
    (hworn : Worn w v) (h : v.ni.backupTableBa ≠ 0 → Cleaned w v) :
    Post (writeMainTable nld fuel limit) (fun ok w' => ok → Cleaned w w') v := by
  simp only [writeMainTable, getNi, post_bind, post_read, post_ite]
  refine ⟨fun _ => rebuildInfoTable_cleaned hes v hworn, fun _ => ?_⟩
  refine (writeInfoTable_spec hes _ _ v).mono ?_
  rintro r w1 ⟨h1, -⟩
  have hworn1 := hworn.trans h1.worn
  cases r with
  | none =>
    rw [post_ite]
    refine ⟨fun _ => rebuildInfoTable_cleaned hes w1 hworn1, fun hne => ?_⟩
    refine (rescueMainInfoTable_cleaned hes fuel w1 (h1.cleaned (h hne) rfl rfl rfl)).mono ?_
    exact fun _ _ h _ => h
  | some t =>
    simp only [recordMain, setMappingBlocksBa, markTablesClean, modifyNi, post_bind,
      post_update, post_pure, post_ite]
    exact ⟨fun _ _ => .of_clear (hworn1.trans (.of_eq rfl)) rfl rfl,
      fun _ _ => .of_clear (hworn1.trans (.of_eq rfl)) rfl rfl⟩

theorem updateInfoTableOnce_cleaned (fuel : Nat) (w : World D) (hdirty : w.ni.dirty) :
    Post (updateInfoTableOnce nld fuel false) (fun ok w' => ok → Cleaned w w') w := by
  simp only [updateInfoTableOnce, generateInfoTableCache, modifyNi, getNi, post_bind, post_read,
    post_update, post_pure, post_ite]
  have hgen : Worn w (w.generated nld) := .of_eq rfl
  refine ⟨fun hnone => ?_, fun _ => ⟨fun hzero => ?_, fun hne => ?_⟩⟩
  · simp [hdirty] at hnone
  · exact writeMainTable_cleaned hes fuel _ (w.generated nld) hgen fun hne => absurd hzero hne
  · refine (writeInfoTable_spec hes _ _ (w.generated nld)).mono ?_
    rintro r w1 ⟨h1, -⟩
    have hworn := hgen.trans h1.worn
    cases r with
    | none =>
      exact writeMainTable_cleaned hes fuel _ _ (hworn.trans (.of_eq rfl)) fun hne =>
        absurd rfl hne
    | some t =>
      exact writeMainTable_cleaned hes fuel _ _ (hworn.trans (.of_eq rfl)) fun _ =>
        .of_clear (hworn.trans (.of_eq rfl)) rfl rfl

/-! ## The rounds -/

def goodBlocks (top : Nat) (ni : Instance) : Finset Nat :=
  (Finset.range top).filter fun ba => ni.getBlockState ba = BLOCK_ST_GOOD

omit hes in
theorem card_goodBlocks_le (top : Nat) (ni : Instance) : (goodBlocks top ni).card ≤ top :=
  (Finset.card_filter_le _ _).trans (Finset.card_range top).le

omit hes in
theorem card_goodBlocks_lt {top ba : Nat} (hworn : Worn w w') (hba : ba < top)
    (hgood : w.ni.getBlockState ba = BLOCK_ST_GOOD)
    (hbad : w'.ni.getBlockState ba = BLOCK_ST_BAD) :
    (goodBlocks top w'.ni).card < (goodBlocks top w.ni).card := by
  apply Finset.card_lt_card
  rw [Finset.ssubset_iff_of_subset]
  · refine ⟨ba, by simp [goodBlocks, hba, hgood], ?_⟩
    simp only [goodBlocks, Finset.mem_filter, hbad]
    exact fun h => absurd h.2 (by decide)
  · intro ba' hba'
    simp only [goodBlocks, Finset.mem_filter] at hba' ⊢
    refine ⟨hba'.1, ?_⟩
    rcases hworn ba' with hsame | ⟨hgood', -⟩
    · rw [← hsame]
      exact hba'.2
    · exact hgood'

theorem round_turned {fuel start : Nat} (hdirty : w.ni.dirty)
    (hstart : start ≤ w.ni.mgmtStartBa) (hmain : start ≤ w.ni.mainTableBa)
    (hbackup : w.ni.backupTableBa ≠ 0 → start ≤ w.ni.backupTableBa)
    (hround : updateInfoTableOnce nld fuel false w = some (true, w')) (hdirty' : w'.ni.dirty) :
    ∃ ba, start ≤ ba ∧ ba < w.ni.mappingBlocksTopBa ∧
      w.ni.getBlockState ba = BLOCK_ST_GOOD ∧ w'.ni.getBlockState ba = BLOCK_ST_BAD := by
  have hclean := updateInfoTableOnce_cleaned hes fuel w hdirty true w' hround rfl
  obtain ⟨ba, hgood, hbad⟩ := hclean.dirty hdirty'
  have houtcome := updateInfoTableOnce_spec hes fuel w (.inl hdirty) hstart hmain hbackup
    true w' hround
  rcases houtcome.mgmt.state ba with hsame | ⟨hlo, hhi, -, -⟩
  · have hgood' : (w.generated nld).ni.getBlockState ba = BLOCK_ST_GOOD := hgood
    rw [hbad, hgood'] at hsame
    exact absurd hsame (by decide)
  · exact ⟨ba, hlo, hhi, hgood, hbad⟩

theorem updateLoop_ends {fuel : Nat} (hfuel : nld.blockCount < fuel)
    (n : Nat) (w : World D) (hn : 0 < n)
    (hdirty : w.ni.dirty → (goodBlocks w.ni.mappingBlocksTopBa w.ni).card + 1 < n) :
    Ends (updateLoop nld fuel n) w := by
  induction n generalizing w with
  | zero => omega
  | succ n ih =>
    simp only [updateLoop, getNi, ends_bind, ends_read, post_read, true_and, ends_ite]
    refine ⟨fun h => ⟨updateInfoTableOnce_ends hes hfuel false w, ?_⟩, fun _ => ends_pure⟩
    intro ok w1 hround
    have hroom := hdirty h
    refine ⟨fun _ => ends_pure, fun hok => ?_⟩
    have hok : ok := by simpa using hok
    subst hok
    refine ih w1 (by omega) fun h1 => ?_
    have hclean := updateInfoTableOnce_cleaned hes fuel w h true w1 hround rfl
    have houtcome := updateInfoTableOnce_spec hes fuel w (.inl h) (Nat.zero_le _)
      (Nat.zero_le _) (fun _ => Nat.zero_le _) true w1 hround
    have htop : w1.ni.mappingBlocksTopBa = w.ni.mappingBlocksTopBa :=
      houtcome.mgmt.frame.mappingBlocksTopBa
    obtain ⟨ba, -, hlt, hgood, hbad⟩ := round_turned hes h (Nat.zero_le _) (Nat.zero_le _)
      (fun _ => Nat.zero_le _) hround h1
    have hless := card_goodBlocks_lt hclean.worn hlt hgood hbad
    rw [htop]
    omega

def Lower.updateFuel (nld : Lower D) (top : Nat) : Nat := nld.blockCount + top + 3

theorem updateInfoTable_ends_of {fuel : Nat} (w : World D)
    (hfuel : nld.updateFuel w.ni.mappingBlocksTopBa ≤ fuel) :
      Ends (updateInfoTable nld fuel) w := by
  unfold Lower.updateFuel at hfuel
  simp only [updateInfoTable, getNi, ends_bind, ends_read, post_read, true_and, ends_ite]
  refine ⟨fun _ => ends_pure, fun _ => ?_⟩
  have hcard := card_goodBlocks_le w.ni.mappingBlocksTopBa w.ni
  exact updateLoop_ends hes (by omega) fuel w (by omega) fun _ => by omega

end

/-- `nmbm_update_info_table` ends from every state and with every chip, and every round after
which the counters make it go on has turned a good block below the top of the spare blocks
into a bad one, in the management area if the tables lie there. -/
theorem updateInfoTable_ends (hes : 0 < nld.erasesize) (w : World D) :
    (∃ n, ∀ fuel ≥ n, Ends (updateInfoTable nld fuel) w) ∧
    ∀ fuel w₁ w₂, w₁.ni.dirty = true →
      updateInfoTableOnce nld fuel false w₁ = some (true, w₂) → w₂.ni.dirty = true →
      (∃ ba < w₁.ni.mappingBlocksTopBa, w₁.ni.getBlockState ba = BLOCK_ST_GOOD ∧
        w₂.ni.getBlockState ba = BLOCK_ST_BAD) ∧
      (w₁.ni.mgmtStartBa ≤ w₁.ni.mainTableBa →
        (w₁.ni.backupTableBa ≠ 0 → w₁.ni.mgmtStartBa ≤ w₁.ni.backupTableBa) →
        ∃ ba, w₁.ni.mgmtStartBa ≤ ba ∧ ba < w₁.ni.mappingBlocksTopBa ∧
          w₁.ni.getBlockState ba = BLOCK_ST_GOOD ∧ w₂.ni.getBlockState ba = BLOCK_ST_BAD) := by
  refine ⟨⟨nld.updateFuel w.ni.mappingBlocksTopBa, fun fuel hfuel =>
    updateInfoTable_ends_of hes w hfuel⟩, ?_⟩
  intro fuel w₁ w₂ hdirty hround hdirty'
  constructor
  · obtain ⟨ba, -, hlt, hstates⟩ := round_turned hes hdirty (Nat.zero_le _) (Nat.zero_le _)
      (fun _ => Nat.zero_le _) hround hdirty'
    exact ⟨ba, hlt, hstates⟩
  · intro hmain hbackup
    exact round_turned hes hdirty le_rfl hmain hbackup hround hdirty'

theorem updateInfoTable_ends_smallChip :
    ∃ fuel, Ends (updateInfoTable smallChip fuel)
      ⟨Flash.new [3] 5, { initStructure smallChip with blockStateChanged := 1 }, 0, 0, [], []⟩ := by
  obtain ⟨n, hends⟩ := (updateInfoTable_ends (show 0 < smallChip.erasesize by decide)
    ⟨Flash.new [3] 5, { initStructure smallChip with blockStateChanged := 1 }, 0, 0, [], []⟩).1
  exact ⟨n, hends n (le_refl n)⟩

/-- A management area from block 6 on without a good block, and a change to be recorded. -/
def wornWorld : World Flash :=
  ⟨Flash.new [] 5, { initStructure smallChip with
    blockState := fun _ => 0
    blockStateChanged := 1
    mgmtStartBa := 6
    mappingBlocksBa := 7
    mappingBlocksTopBa := 14
    signatureBa := 15 }, 0, 0, [], []⟩

theorem failed_round_turns_none :
    ∃ w', updateInfoTableOnce smallChip 30 false wornWorld = some (false, w') ∧
      wornWorld.ni.isProtected = false ∧ w'.ni.dirty = true ∧
      ¬∃ ba, wornWorld.ni.getBlockState ba = BLOCK_ST_GOOD ∧
        w'.ni.getBlockState ba = BLOCK_ST_BAD := by
  have hrun : ∃ r ∈ updateInfoTableOnce smallChip 30 false wornWorld, r.1 = false ∧
      r.2.ni.dirty = true := by decide +kernel
  obtain ⟨⟨_, w'⟩, hround, rfl, hdirty⟩ := hrun
  refine ⟨w', hround, rfl, hdirty, ?_⟩
  rintro ⟨ba, hgood, -⟩
  have hbad : wornWorld.ni.getBlockState ba = BLOCK_ST_BAD := by
    simp [wornWorld, Instance.getBlockState, getBlockStateRaw, BLOCK_ST_BAD]
  rw [hbad] at hgood
  exact absurd hgood (by decide)

end OpenWrt.Nmbm
