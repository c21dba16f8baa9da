import Mathlib.Data.List.Nodup
import OpenWrt.Nmbm.Proofs.Calls
import OpenWrt.Nmbm.Proofs.Loaded

/-!
# Attaching establishes the invariant

On a chip without a signature the management area is created; on one with a signature the
tables are loaded.  `ChipOk` is what an attached chip must have held for that: NMBM checks
neither that the mapping table on the chip is injective nor that the tables lie below the
blocks it maps to.
-/

namespace OpenWrt.Nmbm

open Lib Lib.Prog List

variable {D : Type} {nld : Lower D} {w w' w'' : World D}

structure ChipOk (nld : Lower D) (w : World D) : Prop where
  signature : ∀ ba, .adopt ba ∈ w.log → ba < nld.blockCount
  tables : ∀ ni, .load ni ∈ w.log → LoadOk ni

/-! ## Searching for the signature -/

theorem Inv.note {e : Event} (h : Inv nld w) (htouch : ∀ ba ni, e ≠ .touch ba ni) :
    Inv nld { w with log := e :: w.log } where
  layout := fun hrw =>
    have hlayout := h.layout hrw
    ⟨hlayout.start_le, hlayout.le_top, hlayout.top_lt, hlayout.signature_lt, fun hprot =>
      (hlayout.placed hprot).of_eq rfl rfl rfl rfl rfl rfl⟩
  mapped := by
    intro hremap
    have hmapped := h.mapped fun pb ni he => hremap pb ni (mem_cons_of_mem e he)
    refine ⟨hmapped.injective, fun ba ni he => ?_, hmapped.outside⟩
    rcases mem_cons.mp he with he | he
    · exact absurd he.symm (htouch ba ni)
    · exact hmapped.touches ba ni he

structure Attempt (nld : Lower D) (ok : Bool) (w : World D) : Prop where
  inv : ok = true → Inv nld w
  touches : RemapsAtTop w → TouchesUnused w

theorem Inv.attempt {ok : Bool} (h : Inv nld w) : Attempt nld ok w :=
  ⟨fun _ => h, fun hremap => (h.mapped hremap).touches⟩

theorem Attempt.of_log (hlog : w.log = []) : Attempt nld false w := by
  refine ⟨fun hf => (by cases hf), fun _ ba ni he => ?_⟩
  rw [hlog] at he
  cases he

theorem Attempt.note {ok : Bool} {e : Event} (h : Attempt nld ok w)
    (htouch : ∀ ba ni, e ≠ .touch ba ni) : Attempt nld ok { w with log := e :: w.log } := by
  refine ⟨fun hok => (h.inv hok).note htouch, fun hremap ba ni he => ?_⟩
  rcases mem_cons.mp he with he | he
  · exact absurd he.symm (htouch ba ni)
  · exact h.touches (fun pb ni' he' => hremap pb ni' (mem_cons_of_mem e he')) ba ni he

theorem sub32_one_lt {a : Nat} (h : a < 4294967296) : sub32 a 1 < 4294967296 := by
  unfold sub32
  split
  · omega
  · omega

theorem blockCount_lt (nld : Lower D) : nld.blockCount < 4294967296 := by
  have := nld.small
  unfold Lower.blockCount
  omega

theorem searchPages_quiet (n addr : Nat) (w : World D) :
    Post (searchPages nld n addr) (fun _ w' => Quiet w w') w := by
  induction n generalizing addr w with
  | zero => exact post_pure.mpr (.refl w)
  | succ n ih =>
    simp only [searchPages, post_bind]
    refine (readDataLoop_phys _ _ _ _ _ w).mono ?_
    rintro ⟨ret, sig⟩ w1 h1
    have hrest := (ih (addr + nld.writesize) w1).mono fun _ _ h => h1.quiet.trans h
    simp only [post_ite, post_pure]
    exact ⟨fun _ => hrest, fun _ => ⟨fun _ => hrest, fun _ => ⟨fun _ => h1.quiet, fun _ => hrest⟩⟩⟩

theorem findSignatureLoop_spec (limit fuel ba : Nat) (hba : ba < 4294967296) (w : World D) :
    Post (findSignatureLoop nld limit fuel ba)
      (fun r w' => Quiet w w' ∧ ∀ sig ba', r = some (sig, ba') → ba' < 4294967296) w := by
  induction fuel generalizing ba w with
  | zero => exact post_diverge.mpr trivial
  | succ fuel ih =>
    have hnext := sub32_one_lt hba
    have hrest : ∀ w1, Quiet w w1 → Post (findSignatureLoop nld limit fuel (sub32 ba 1))
        (fun r w' => Quiet w w' ∧ ∀ sig ba', r = some (sig, ba') → ba' < 4294967296) w1 :=
      fun w1 h1 => (ih _ hnext w1).mono fun _ _ h => ⟨h1.trans h.1, h.2⟩
    simp only [findSignatureLoop, post_ite, post_pure, post_bind]
    refine ⟨fun _ => ⟨.refl w, fun _ _ h => by cases h⟩, fun _ => ?_⟩
    refine (checkBadPhysBlock_phys _ w).mono ?_
    intro bad w1 h1
    refine ⟨fun _ => hrest w1 h1.quiet, fun _ => ?_⟩
    refine (searchPages_quiet _ _ w1).mono ?_
    intro r w2 h2
    have h12 := h1.quiet.trans h2
    cases r with
    | none => exact hrest w2 h12
    | some sig =>
      refine post_pure.mpr ⟨h12, ?_⟩
      intro sig' ba' heq
      cases heq
      exact hnext

/-! ## A new management area -/

theorem scanLoop_quiet (n ba : Nat) (w : World D) :
    Post (scanLoop nld n ba) (fun _ w' => Quiet w w') w := by
  induction n generalizing ba w with
  | zero => exact post_pure.mpr (.refl w)
  | succ n ih =>
    have hrest : ∀ w1, Quiet w w1 → Post (scanLoop nld n (ba + 1)) (fun _ w' => Quiet w w') w1 :=
      fun w1 h1 => (ih _ w1).mono fun _ _ h => h1.trans h
    simp only [scanLoop, post_bind, post_ite]
    refine (checkBadPhysBlock_phys _ w).mono ?_
    intro bad w1 h1
    refine ⟨fun _ => ?_, fun _ => hrest w1 h1.quiet⟩
    exact (setBlockState_quiet _ _ w1).mono fun _ w2 h2 => hrest w2 (h1.quiet.trans h2)

/-- The mapping is new: nothing is mapped into the management area and nothing has happened. -/
structure Fresh (w : World D) : Prop where
  injective : InjectiveOn (· < w.ni.dataBlockCount) w.ni.blockMapping
  below : ∀ lb < w.ni.dataBlockCount, (w.ni.blockMapping lb).toNat < w.ni.mgmtStartBa
  log : w.log = []

theorem dataBlocks_injective {ni : Instance} {lb₁ lb₂ pb : Nat}
    (h₁ : (dataBlocks ni)[lb₁]? = some pb) (h₂ : (dataBlocks ni)[lb₂]? = some pb) : lb₁ = lb₂ := by
  have hnodup : (dataBlocks ni).Nodup := List.Nodup.filter _ nodup_range
  exact (List.getElem?_inj (List.getElem?_eq_some_iff.mp h₁).1 hnodup).mp (h₁.trans h₂.symm)

theorem buildMappingTable_spec (w : World D) (hstart : w.ni.mgmtStartBa < nld.blockCount)
    (hlog : w.log = []) :
    Post (buildMappingTable nld)
      (fun _ w' => Fresh w' ∧ w'.ni.mgmtStartBa = w.ni.mgmtStartBa ∧
        w'.ni.signatureBa = w.ni.signatureBa) w := by
  have hcount := blockCount_lt nld
  rw [buildMappingTable, modifyNi, post_update]
  have hentry : ∀ lb < (dataBlocks w.ni).length, ∃ pb, (dataBlocks w.ni)[lb]? = some pb ∧
      pb < w.ni.mgmtStartBa ∧ (BitVec.ofNat 32 pb).toNat = pb := by
    intro lb hlb
    have hget := getElem?_eq_getElem hlb
    have hlt := mem_range.mp (mem_filter.mp (mem_of_getElem? hget)).1
    refine ⟨_, hget, hlt, ?_⟩
    exact Nat.mod_eq_of_lt (by omega)
  refine ⟨⟨?_, ?_, hlog⟩, rfl, rfl⟩
  · intro lb₁ lb₂ h₁ h₂ _ heq
    rcases hentry lb₁ h₁ with ⟨pb₁, hget₁, -, hval₁⟩
    rcases hentry lb₂ h₂ with ⟨pb₂, hget₂, -, hval₂⟩
    simp only [hget₁, hget₂] at heq
    have hpb : pb₁ = pb₂ := by rw [← hval₁, ← hval₂, heq]
    subst hpb
    exact dataBlocks_injective hget₁ hget₂
  · intro lb hlb
    rcases hentry lb hlb with ⟨pb, hget, hlt, hval⟩
    simp only [hget, hval]
    exact hlt

theorem Fresh.mapped (h : Fresh w) (nld : Lower D) : Mapped nld w where
  injective := h.injective
  touches := by
    intro ba ni he
    rw [h.log] at he
    cases he
  outside := fun _ lb hlb _ => .inl (h.below lb hlb)

theorem Fresh.of_frame (h : Fresh w) (hframe : SameFrame w.ni w'.ni) (hlog : w'.log = w.log) :
    Fresh w' where
  injective := by
    rw [hframe.blockMapping, hframe.dataBlockCount]
    exact h.injective
  below := by
    rw [hframe.blockMapping, hframe.dataBlockCount, hframe.mgmtStartBa]
    exact h.below
  log := hlog.trans h.log

theorem walkDesc_bounds {bs : Nat → BitVec 32} {n ba r : Nat} {nblock : Int} (hn : n ≤ ba)
    (h : walkDesc bs n ba nblock = some r) : ba < r + n ∧ r ≤ ba ∧ (0 < nblock → r < ba) := by
  induction n generalizing ba nblock with
  | zero => cases h
  | succ n ih =>
    rw [walkDesc] at h
    generalize hrest :
      (if getBlockStateRaw bs ba = BLOCK_ST_GOOD then nblock - 1 else nblock) = rest at h
    have hpos : 0 < nblock → 0 ≤ rest := by
      intro hpos
      rw [← hrest]
      split
      · omega
      · omega
    split at h
    · cases h
      exact ⟨by omega, le_refl _, fun hk => absurd (hpos hk) (by omega)⟩
    · rcases ih (by omega) h with ⟨h1, h2, -⟩
      exact ⟨by omega, by omega, fun _ => by omega⟩

section Writable

variable (hes : 0 < nld.erasesize) (hrw : nld.readOnly = false) (fuel : Nat)
include hes hrw

theorem remapTail_inv (n lb : Nat) (w : World D) (h : Inv nld w) (hlb : lb = w.ni.dataBlockCount) :
    Post (remapTail nld fuel n lb) (fun _ w' => Inv nld w') w := by
  induction n generalizing lb w with
  | zero => exact post_pure.mpr h
  | succ n ih =>
    rw [remapTail, post_bind]
    refine (mapBlock_spec hes hrw fuel lb w h).mono ?_
    intro ok w1 hmaps
    simp only [post_ite, post_pure]
    refine ⟨fun _ => hmaps.inv, fun hok => ?_⟩
    have hok : ok := by simpa using hok
    have hcount := hmaps.dataBlockCount
    have hsub : ∀ lb', lb' < w1.ni.dataBlockCount + 1 → lb' < w.ni.dataBlockCount ∨ lb' = lb := by
      intro lb' h'
      omega
    have hlayout := hmaps.inv.layout hrw
    refine ih (lb + 1) _ ⟨fun _ => ?_, fun hremap => ?_⟩ (by show lb + 1 = _ + 1; omega)
    · exact ⟨hlayout.1, hlayout.2, hlayout.3, hlayout.4, fun hprot =>
        (hlayout.placed hprot).of_eq rfl rfl rfl rfl rfl rfl⟩
    · exact ⟨(hmaps.injective hok hremap).mono hsub, (hmaps.inv.mapped hremap).touches,
        fun _ => (hmaps.outside hok hremap).mono hsub⟩

theorem createInfoTable_inv (w : World D) (hstart : w.ni.mgmtStartBa < nld.blockCount)
    (hsig : w.ni.signatureBa < 4294967296) (hfresh : Fresh w) :
    Post (createInfoTable nld fuel) (fun ok w' => Attempt nld ok w') w := by
  simp only [createInfoTable, getNi, post_bind, post_read]
  split
  · exact post_pure.mpr (.of_log hfresh.log)
  rename_i top hwalk
  have htop : w.ni.mgmtStartBa < top ∧ top < w.ni.signatureBa := by
    have hclip : clipLimit nld w.ni.mgmtStartBa = w.ni.mgmtStartBa := if_neg (by omega)
    have hbounds := walkDesc_bounds (Nat.sub_le _ _) hwalk
    omega
  simp only [modifyNi, generateInfoTableCache, getNi, post_bind, post_update, post_read, post_pure]
  refine (rebuildInfoTable_spec hes _).mono ?_
  intro ok w1 h1
  have hframe := h1.mgmt.frame
  have hmapped : Mapped nld w1 := by
    have hmapped0 : Mapped nld
        { w with ni := (Instance.generated nld { w.ni with mappingBlocksTopBa := top }) } :=
      ⟨hfresh.injective, (hfresh.mapped nld).touches, fun _ lb hlb _ =>
        .inl (hfresh.below lb hlb)⟩
    exact hmapped0.mgmt hrw htop.2 h1.mgmt
  simp only [post_ite, post_pure]
  refine ⟨fun _ => ⟨fun hf => (by cases hf), fun _ => hmapped.touches⟩, fun hok => ?_⟩
  have hsettled := h1.settled (by simpa using hok)
  have hinv : Inv nld w1 := by
    refine ⟨fun _ => ?_, fun _ => hmapped⟩
    have hplaced : Placed w1.ni.mgmtStartBa w1 := by
      rw [hframe.mgmtStartBa]
      exact hsettled.placed
    apply hplaced.layout
    · rw [hframe.mappingBlocksTopBa, hframe.signatureBa]
      exact htop.2
    · rw [hframe.signatureBa]
      exact hsig
  simp only [post_read, post_bind]
  refine (remapTail_inv hes hrw fuel _ _ w1 hinv rfl).mono ?_
  intro _ w2 h2
  exact (updateInfoTable_inv hes hrw fuel w2 h2).mono fun _ _ h => h.1.attempt

end Writable

theorem writeRepeatedLoop_quiet (data : Buffer) (size n addr : Nat) (w : World D) :
    Post (writeRepeatedLoop nld data size n addr) (fun _ w' => Quiet w w') w := by
  induction n generalizing addr w with
  | zero => exact post_pure.mpr (.refl w)
  | succ n ih =>
    simp only [writeRepeatedLoop, modifyNi, getNi, post_bind, post_update, post_read]
    refine (writePhysPage_phys _ _ _ _ _).mono ?_
    intro success w1 h1
    have h1 : Quiet w w1 := (((Phys.refl w).setCache _).trans h1).quiet
    simp only [post_ite, post_pure, post_bind, post_read]
    refine ⟨fun _ => h1, fun _ => ?_⟩
    refine (readPageCache_spec _ w1).mono ?_
    rintro r w2 ⟨h2, -, -⟩
    have h12 := h1.trans h2.quiet
    exact ⟨fun _ => h12, fun _ => ⟨fun _ => h12, fun _ =>
      (ih _ w2).mono fun _ _ h => h12.trans h⟩⟩

theorem writeSignatureLoop_spec (data : Buffer) (n ba : Nat) (w : World D) :
    Post (writeSignatureLoop nld data n ba)
      (fun r w' => Quiet w w' ∧ ∀ ba', r = some ba' → ba' ≤ ba) w := by
  induction n generalizing ba w with
  | zero => exact post_pure.mpr ⟨.refl w, fun _ h => by cases h⟩
  | succ n ih =>
    have hrest : ∀ w1, Quiet w w1 → Post (writeSignatureLoop nld data n (ba - 1))
        (fun r w' => Quiet w w' ∧ ∀ ba', r = some ba' → ba' ≤ ba) w1 := by
      intro w1 h1
      refine (ih (ba - 1) w1).mono ?_
      rintro r w2 ⟨h2, hr⟩
      exact ⟨h1.trans h2, fun ba' heq => (hr ba' heq).trans (Nat.sub_le _ _)⟩
    have hcondemn : ∀ w1, Quiet w w1 → Post (condemnBlock nld ba)
        (fun _ w2 => Post (writeSignatureLoop nld data n (ba - 1))
          (fun r w' => Quiet w w' ∧ ∀ ba', r = some ba' → ba' ≤ ba) w2) w1 :=
      fun w1 h1 => (condemnBlock_quiet ba w1).mono fun _ w2 h2 => hrest w2 (h1.trans h2)
    rw [writeSignatureLoop, post_bind]
    refine (usableBlock_quiet ba w).mono ?_
    intro usable w1 h1
    simp only [post_ite, post_bind]
    refine ⟨fun _ => hrest w1 h1, fun _ => ?_⟩
    refine (eraseBlockAndCheck_phys ba w1).mono ?_
    intro erased w2 h2
    have h12 := h1.trans h2.quiet
    refine ⟨fun _ => ?_, fun _ => ?_⟩
    · have hwrite : Post (writeRepeatedData nld ba data NMBM_SIGNATURE_SIZE)
          (fun _ w' => Quiet w2 w') w2 := by
        rw [writeRepeatedData, post_ite]
        exact ⟨fun _ => post_pure.mpr (.refl w2), fun _ => writeRepeatedLoop_quiet _ _ _ _ w2⟩
      refine hwrite.mono ?_
      intro success w3 h3
      have h13 := h12.trans h3
      refine ⟨fun _ => post_pure.mpr ⟨h13, ?_⟩, fun _ => hcondemn w3 h13⟩
      intro ba' heq
      cases heq
      exact le_refl _
    · simp only [post_pure, Bool.false_eq_true, false_implies, true_and, not_false_eq_true,
        true_implies]
      exact hcondemn w2 h12

section

variable (hes : 0 < nld.erasesize)

include hes

theorem blockCount_pos : 0 < nld.blockCount :=
  Nat.div_pos nld.block_le hes

omit hes in
theorem mgmtProduct_lt (nld : Lower D) :
    nld.blockCount * (NMBM_MGMT_DIV - nld.maxRatio) < 4294967296 := by
  have hsmall := nld.small
  have hmul := Nat.mul_le_mul_left nld.blockCount (Nat.sub_le NMBM_MGMT_DIV nld.maxRatio)
  simp only [NMBM_MGMT_DIV, Lower.blockCount] at hmul ⊢
  omega

theorem newMgmtStartBa_lt (hratio : 0 < nld.maxRatio) : newMgmtStartBa nld < nld.blockCount := by
  have hcount := blockCount_pos hes
  have hmul : nld.blockCount * (NMBM_MGMT_DIV - nld.maxRatio) ≤ nld.blockCount * 15 := by
    apply Nat.mul_le_mul_left
    simp only [NMBM_MGMT_DIV]
    omega
  have hdiv : nld.blockCount * (NMBM_MGMT_DIV - nld.maxRatio) / NMBM_MGMT_DIV < nld.blockCount := by
    simp only [NMBM_MGMT_DIV] at hmul ⊢
    omega
  simp only [newMgmtStartBa, Nat.mod_eq_of_lt (mgmtProduct_lt nld)]
  split
  · omega
  · exact hdiv

theorem createNew_inv (hratio : 0 < nld.maxRatio) (fuel : Nat) (w : World D) (hlog : w.log = []) :
    Post (createNew nld fuel) (fun ok w' => Attempt nld ok w') w := by
  have hstart := newMgmtStartBa_lt hes hratio
  simp only [createNew, modifyNi, post_bind, post_update]
  refine (scanLoop_quiet _ _ _).mono ?_
  intro _ w1 h1
  have hmgmt1 : w1.ni.mgmtStartBa = newMgmtStartBa nld := h1.frame.mgmtStartBa
  refine (buildMappingTable_spec w1 (hmgmt1.trans_lt hstart) (h1.log.trans hlog)).mono ?_
  rintro _ w2 ⟨hfresh, hmgmt2, -⟩
  have hmgmt2 := hmgmt2.trans hmgmt1
  simp only [post_ite, post_pure]
  refine ⟨fun hro => Inv.attempt ?_, fun hrw => ?_⟩
  · have hmapped := hfresh.mapped nld
    exact ⟨fun hrw => absurd (hro.symm.trans hrw) (by decide), fun _ =>
      ⟨hmapped.injective, hmapped.touches, hmapped.outside⟩⟩
  · rw [post_bind]
    refine (writeSignatureLoop_spec _ _ _ _).mono ?_
    rintro r w3 ⟨h3, hr⟩
    cases r with
    | none => exact post_pure.mpr (.of_log (h3.log.trans hfresh.log))
    | some signatureBa =>
      have hsig : signatureBa < 4294967296 :=
        (hr signatureBa rfl).trans_lt (sub32_one_lt (blockCount_lt nld))
      have hmgmt3 : w3.ni.mgmtStartBa < nld.blockCount :=
        (h3.frame.mgmtStartBa.trans hmgmt2).trans_lt hstart
      have hfresh2 : Fresh { w2 with ni :=
          { w2.ni with signature := newSignature nld (newMgmtStartBa nld) } } :=
        ⟨hfresh.injective, hfresh.below, hfresh.log⟩
      have hfresh3 := hfresh2.of_frame h3.frame h3.log
      simp only [post_bind, post_update]
      exact createInfoTable_inv hes (by simpa using hrw) fuel _ hmgmt3 hsig
        ⟨hfresh3.injective, hfresh3.below, hfresh3.log⟩

/-! ## An existing instance -/

omit hes in
theorem Layout.protect (h : Layout w) : Layout { w with ni := { w.ni with isProtected := true } } :=
  ⟨h.start_le, h.le_top, h.top_lt, h.signature_lt, fun hprot => (by cases hprot)⟩

omit hes in
theorem Inv.protect (h : Inv nld w) : Inv nld { w with ni := { w.ni with isProtected := true } } :=
  ⟨fun hrw => (h.layout hrw).protect, fun hremap =>
    (h.mapped hremap).of_eq ⟨rfl, rfl, rfl, rfl, rfl⟩ rfl⟩

omit hes in
theorem Inv.kept (h : Inv nld w) (hrw : nld.readOnly = false)
    (hkept : Kept nld w.ni.mgmtStartBa w w') : Inv nld w' :=
  h.mgmt hrw hkept.mgmt ((h.layout hrw).of_placed hkept.mgmt.frame hkept.placed)

theorem completeTables_inv (hrw : nld.readOnly = false) (fuel : Nat)
    (main : FoundTable) (backup : Option FoundTable) (w : World D) (h : Inv nld w)
    (hplaced : Placed w.ni.mgmtStartBa w) (hbackup : backup ≠ none → w.ni.backupTableBa ≠ 0) :
    Post (completeTables nld fuel main backup) (fun _ w' => Inv nld w') w := by
  have hend : ∀ {P : Prop} {w' : World D}, Inv nld w' →
      (P → Inv nld { w' with ni := { w'.ni with isProtected := true } }) ∧ (¬P → Inv nld w') :=
    fun h' => ⟨fun _ => h'.protect, fun _ => h'⟩
  cases backup with
  | none =>
    simp only [completeTables, getNi, OpenWrt.Nmbm.protect, modifyNi, post_bind, post_read,
      post_ite, post_update, post_pure]
    refine (rescueSingleInfoTable_spec hes fuel w le_rfl hplaced).mono ?_
    exact fun ok w1 h1 => hend (h.kept hrw h1)
  | some backup =>
    simp only [completeTables, getNi, OpenWrt.Nmbm.protect, modifyNi, post_bind, post_read,
      post_ite, post_update, post_pure]
    refine ⟨fun _ => ?_, fun _ => hend h⟩
    have h0 : Inv nld
        { w with ni := { w.ni with blockStateChanged := 1, blockMappingChanged := 1 } } :=
      h.kept hrw ⟨.of_eq ⟨rfl, rfl, rfl, rfl, rfl⟩ rfl rfl rfl rfl, rfl,
        hplaced.of_eq rfl rfl rfl rfl rfl rfl⟩
    refine (updateSingleInfoTable_spec hes fuel _
      { w with ni := { w.ni with blockStateChanged := 1, blockMappingChanged := 1 } }
      le_rfl (hplaced.of_eq rfl rfl rfl rfl rfl rfl) (hbackup (by simp))).mono ?_
    exact fun ok w1 h1 => hend (h0.kept hrw h1)

omit hes in
theorem LoadOk.inv {backup : Option FoundTable} (hload : LoadOk w'.ni)
    (harea : SameArea w w') (hfound : TablesFound nld w.ni.mgmtStartBa w backup w')
    (hmgmt : w.ni.mgmtStartBa = w.ni.signature.mgmtStartPb)
    (hstart : w.ni.signature.mgmtStartPb < nld.blockCount)
    (hsig : w.ni.signatureBa < 4294967296) (hlog : w.log = []) :
    Inv nld w' ∧ Placed w'.ni.mgmtStartBa w' := by
  have hplaced : Placed w'.ni.mgmtStartBa w' := by
    rw [harea.mgmtStartBa]
    exact hfound.placed hload.le_top
  have htop := hload.top_lt
  rw [harea.signatureBa] at htop
  have hlog' : w'.log = [] := harea.log.trans hlog
  refine ⟨⟨fun _ => ?_, fun _ => ?_⟩, hplaced⟩
  · refine hplaced.layout hload.top_lt ?_
    rw [harea.signatureBa]
    exact hsig
  · refine ⟨hload.injective, fun ba ni he => ?_, fun _ => ?_⟩
    · rw [hlog'] at he
      cases he
    · rw [harea.mgmtStartBa, hmgmt]
      exact hfound.clear (by omega) hstart.le

theorem loadInfoTable_inv (fuel : Nat) (w : World D)
    (hmgmt : w.ni.mgmtStartBa = w.ni.signature.mgmtStartPb)
    (hsig : w.ni.signatureBa < 4294967296) (hlog : w.log = []) :
    Post (loadInfoTable nld fuel w.ni.mgmtStartBa w.ni.signatureBa)
      (fun ok w' => (ok = false → SameArea w w') ∧
        (ok → w.ni.signature.mgmtStartPb < nld.blockCount →
          (∀ ni, .load ni ∈ w'.log → LoadOk ni) → Inv nld w')) w := by
  rw [loadInfoTable, post_bind]
  refine (findInfoTables_spec hes _ _ w).mono ?_
  rintro r w1 ⟨harea, hfound⟩
  cases r with
  | none => exact post_pure.mpr ⟨fun _ => harea, fun hf => (by cases hf)⟩
  | some tables =>
    rcases tables with ⟨main, backup⟩
    have hfound := hfound main backup rfl
    simp only [getNi, generateInfoTableCache, modifyNi, note, post_bind, post_read, post_update,
      post_pure]
    have hinv : w.ni.signature.mgmtStartPb < nld.blockCount → LoadOk w1.ni →
        Inv nld (w1.generated nld) ∧
          Placed (w1.generated nld).ni.mgmtStartBa (w1.generated nld) := by
      intro hstart hload
      rcases hload.inv harea hfound hmgmt hstart hsig hlog with ⟨h1, hplaced⟩
      have hplaced' : Placed (w1.generated nld).ni.mgmtStartBa (w1.generated nld) :=
        hplaced.of_eq rfl rfl rfl rfl rfl rfl
      refine ⟨⟨fun hrw => ?_, fun hremap => ?_⟩, hplaced'⟩
      · exact hplaced'.layout (h1.layout hrw).top_lt (h1.layout hrw).signature_lt
      · exact (h1.mapped hremap).of_eq ⟨rfl, rfl, rfl, rfl, rfl⟩ rfl
    have hnote : ∀ w2 : World D, (w.ni.signature.mgmtStartPb < nld.blockCount → LoadOk w1.ni →
        Inv nld w2) → w.ni.signature.mgmtStartPb < nld.blockCount →
        (∀ ni, .load ni ∈ Event.load w1.ni :: w2.log → LoadOk ni) →
        Inv nld { w2 with log := .load w1.ni :: w2.log } := by
      intro w2 h2 hstart hloads
      exact (h2 hstart (hloads w1.ni mem_cons_self)).note fun _ _ hf => (by cases hf)
    split
    · exact post_pure.mpr ⟨fun hf => (by cases hf), fun _ =>
        hnote _ fun hstart hload => (hinv hstart hload).1⟩
    rename_i hrw
    simp only [post_bind, post_update, post_pure]
    by_cases hpre : w.ni.signature.mgmtStartPb < nld.blockCount ∧ LoadOk w1.ni
    · rcases hinv hpre.1 hpre.2 with ⟨h2, hplaced⟩
      refine (completeTables_inv hes (by simpa using hrw) fuel main backup _ h2 hplaced
        hfound.backup).mono ?_
      exact fun _ w2 h2 => ⟨fun hf => (by cases hf), fun _ => hnote w2 fun _ _ => h2⟩
    · exact fun _ w2 _ => ⟨fun hf => (by cases hf), fun _ =>
        hnote w2 fun hstart hload => absurd ⟨hstart, hload⟩ hpre⟩

theorem loadExisting_inv (fuel : Nat) (w : World D)
    (hsig : w.ni.signatureBa < 4294967296) (hlog : w.log = []) :
    Post (loadExisting nld fuel)
      (fun ok w' => w.ni.signature.mgmtStartPb < nld.blockCount →
        (∀ ni, .load ni ∈ w'.log → LoadOk ni) → Attempt nld ok w') w := by
  by_cases hstart : w.ni.signature.mgmtStartPb < nld.blockCount
  case neg => exact fun _ _ _ hf => absurd hf hstart
  simp only [loadExisting, getNi, modifyNi, post_bind, post_update, post_read]
  refine (loadInfoTable_inv hes fuel
    { w with ni := { w.ni with mgmtStartBa := w.ni.signature.mgmtStartPb } } rfl hsig hlog).mono ?_
  rintro ok w1 ⟨hfail, hok⟩
  simp only [post_ite, post_pure, post_bind]
  refine ⟨fun h hstart hload => (hok h hstart hload).attempt, fun h => ?_⟩
  have harea := hfail (by simpa using h)
  refine ⟨fun _ _ _ => .of_log (harea.log.trans hlog), fun _ => ?_⟩
  refine (scanLoop_quiet _ _ _).mono ?_
  intro _ w2 h2
  have hmgmt2 : w2.ni.mgmtStartBa < nld.blockCount :=
    (h2.frame.mgmtStartBa.trans harea.mgmtStartBa).trans_lt hstart
  refine (buildMappingTable_spec w2 hmgmt2 (h2.log.trans (harea.log.trans hlog))).mono ?_
  rintro _ w3 ⟨hfresh, hmgmt3, hsig3⟩
  refine ⟨fun hro _ _ => Inv.attempt ?_, fun hrw => ?_⟩
  · exact ⟨fun hrw => absurd (hro.symm.trans hrw) (by decide), fun _ => hfresh.mapped nld⟩
  · refine (createInfoTable_inv hes (by simpa using hrw) fuel w3 (hmgmt3.trans_lt hmgmt2) ?_
      hfresh).mono ?_
    · rw [hsig3, h2.frame.signatureBa, harea.signatureBa]
      exact hsig
    · exact fun ok w4 h4 _ _ => h4

theorem attachChecked_spec (hratio : 0 < nld.maxRatio) (fuel : Nat)
    (w : World D) (hlog : w.log = []) :
    Post (attachChecked nld fuel)
      (fun ret w' => ChipOk nld w' → Attempt nld (decide (ret = 0)) w') w := by
  rw [attachChecked, post_bind]
  refine (findSignatureLoop_spec _ fuel _ (blockCount_lt nld) w).mono ?_
  rintro r w1 ⟨h1, hr⟩
  have hlog1 := h1.log.trans hlog
  have hret : ∀ ok : Bool, decide ((if ok = true then (0 : Int) else -enodev) = 0) = ok := by decide
  cases r with
  | none =>
    simp only [post_ite, post_pure, post_bind]
    refine ⟨fun _ _ => .of_log hlog1, fun _ => ?_⟩
    refine (createNew_inv hes hratio fuel w1 hlog1).mono ?_
    intro ok w2 h2 _
    rw [hret]
    exact h2
  | some found =>
    rcases found with ⟨signature, signatureBa⟩
    simp only [modifyNi, note, post_bind, post_update, post_ite, post_pure]
    refine ⟨fun _ _ => .of_log hlog1, fun _ => ⟨fun _ _ => .of_log hlog1, fun _ => ?_⟩⟩
    refine (loadExisting_inv hes fuel
      { w1 with ni := { w1.ni with signature := signature, signatureBa := signatureBa } }
      (hr signature signatureBa rfl) hlog1).mono ?_
    intro ok w2 h2 hchip
    rw [hret]
    refine Attempt.note (h2 ?_ ?_) fun _ _ hf => (by cases hf)
    · exact hchip.signature _ mem_cons_self
    · exact fun ni he => hchip.tables ni (mem_cons_of_mem _ he)

end

theorem checkLowerMembers_pos {checked : Lower D} (h : checkLowerMembers nld = some checked) :
    0 < checked.erasesize ∧ 0 < checked.maxRatio := by
  unfold checkLowerMembers at h
  have hpos : 0 < if nld.maxRatio = 0 then 1 else nld.maxRatio := by split <;> omega
  generalize (if nld.maxRatio = 0 then 1 else nld.maxRatio) = ratio at h hpos
  dsimp only at h
  split_ifs at h with _ herase
  cases h
  constructor
  · apply Nat.pos_of_ne_zero
    intro hzero
    rw [hzero] at herase
    exact herase (by decide)
  · exact hpos

theorem attach_spec {checked : Lower D} {dev : D} {fuel : Nat} {ret : Int}
    (hattach : attach nld fuel dev = some (checked, ret, w)) (hchip : ChipOk checked w) :
    0 < checked.erasesize ∧ Attempt checked (decide (ret = 0)) w := by
  unfold attach at hattach
  split at hattach
  · cases hattach
  rename_i nld' hcheck
  rcases Option.map_eq_some_iff.mp hattach with ⟨⟨ret', w'⟩, hrun, heq⟩
  simp only [Prod.mk.injEq] at heq
  rcases heq with ⟨rfl, rfl, rfl⟩
  rcases checkLowerMembers_pos hcheck with ⟨hes, hratio⟩
  have hpost := attachChecked_spec hes hratio fuel ⟨dev, initStructure nld', 0, 0, [], []⟩ rfl
  exact ⟨hes, hpost ret' w' hrun hchip⟩

end OpenWrt.Nmbm
