import OpenWrt.Nmbm.Proofs.Procedures

/-!
# The borders of the management area

From the start of the management area upwards lie the info tables, the spare blocks, the
blocks that logic blocks were mapped to, and the signature.  `Layout` is the order of
these borders, and `Mapped` says that the logic blocks have images of their own, outside
the part that table management writes.  A call on an attached instance keeps the layout.
It keeps the mapping as long as every block that `nmbm_map_block` hands out is the one at
the top of the spare blocks: otherwise the block it took stays among the spare blocks.
-/

namespace OpenWrt.Nmbm

open Lib Lib.Prog BitVec

variable {D : Type} {nld : Lower D} {lo hi : Nat} {w w' w'' : World D}

/-- The logic blocks of `S` have images of their own. -/
def InjectiveOn (S : Nat → Prop) (mapping : Nat → BitVec 32) : Prop :=
  ∀ lb₁ lb₂, S lb₁ → S lb₂ → 0 ≤ (mapping lb₁).toInt → mapping lb₁ = mapping lb₂ → lb₁ = lb₂

/-- No image of a logic block of `S` lies from `start` to `top`. -/
def OutsideOn (S : Nat → Prop) (mapping : Nat → BitVec 32) (start top : Nat) : Prop :=
  ∀ lb, S lb → 0 ≤ (mapping lb).toInt → (mapping lb).toNat < start ∨ top < (mapping lb).toNat

/-- A block is neither the image of a logic block nor the signature block. -/
def Unused (ni : Instance) (ba : Nat) : Prop :=
  (∀ lb < ni.dataBlockCount, 0 ≤ (ni.blockMapping lb).toInt → (ni.blockMapping lb).toNat ≠ ba) ∧
    ba ≠ ni.signatureBa

/-- Whenever `nmbm_map_block` mapped a block, the one at the top of the spare blocks was good. -/
def RemapsAtTop (w : World D) : Prop :=
  ∀ pb ni, .remap pb ni ∈ w.log → ni.getBlockState ni.mappingBlocksTopBa = BLOCK_ST_GOOD

/-- Every block that table management touched was unused at that moment. -/
def TouchesUnused (w : World D) : Prop := ∀ ba ni, .touch ba ni ∈ w.log → Unused ni ba

structure Layout (w : World D) : Prop where
  start_le : w.ni.mgmtStartBa ≤ w.ni.mappingBlocksBa
  le_top : w.ni.mappingBlocksBa ≤ w.ni.mappingBlocksTopBa
  top_lt : w.ni.mappingBlocksTopBa < w.ni.signatureBa
  signature_lt : w.ni.signatureBa < 4294967296
  placed : w.ni.isProtected = false → Placed w.ni.mgmtStartBa w

structure Mapped (nld : Lower D) (w : World D) : Prop where
  injective : InjectiveOn (· < w.ni.dataBlockCount) w.ni.blockMapping
  touches : TouchesUnused w
  outside : nld.readOnly = false → OutsideOn (· < w.ni.dataBlockCount) w.ni.blockMapping
    w.ni.mgmtStartBa w.ni.mappingBlocksTopBa

structure Inv (nld : Lower D) (w : World D) : Prop where
  layout : nld.readOnly = false → Layout w
  mapped : RemapsAtTop w → Mapped nld w

/-! ## Steps that leave the log alone -/

structure Quiet (w w' : World D) : Prop where
  ni : w'.ni =
    { w.ni with
      pageCache := w'.ni.pageCache
      blockState := w'.ni.blockState
      blockStateChanged := w'.ni.blockStateChanged }
  mainTableEnd : w'.mainTableEnd = w.mainTableEnd
  backupTableEnd : w'.backupTableEnd = w.backupTableEnd
  log : w'.log = w.log

theorem Quiet.refl (w : World D) : Quiet w w := ⟨rfl, rfl, rfl, rfl⟩

theorem Quiet.trans (h : Quiet w w') (h' : Quiet w' w'') : Quiet w w'' where
  ni := by rw [h'.ni, h.ni]
  mainTableEnd := h'.mainTableEnd.trans h.mainTableEnd
  backupTableEnd := h'.backupTableEnd.trans h.backupTableEnd
  log := h'.log.trans h.log

theorem Quiet.frame (h : Quiet w w') : SameFrame w.ni w'.ni := by
  rw [h.ni]
  exact ⟨rfl, rfl, rfl, rfl, rfl⟩

theorem Phys.quiet (h : Phys nld lo hi w w') : Quiet w w' :=
  ⟨by rw [h.ni], h.mainTableEnd, h.backupTableEnd, h.log⟩

theorem setBlockState_quiet (ba : Nat) (st : BitVec 32) (w : World D) :
    Post (setBlockState ba st) (fun _ w' => Quiet w w') w := by
  simp only [setBlockState, modifyNi, post_update]
  exact ⟨rfl, rfl, rfl, rfl⟩

theorem condemnBlock_quiet (ba : Nat) (w : World D) :
    Post (condemnBlock nld ba) (fun _ w' => Quiet w w') w := by
  rw [condemnBlock, post_bind]
  refine (markPhysBadBlock_phys ba w).mono ?_
  intro _ w1 h1
  exact (setBlockState_quiet ba BLOCK_ST_BAD w1).mono fun _ _ h2 => h1.quiet.trans h2

theorem usableBlock_quiet (ba : Nat) (w : World D) :
    Post (usableBlock nld ba) (fun _ w' => Quiet w w') w := by
  simp only [usableBlock, getNi, noteFailed, post_bind, post_read, post_update, post_ite, post_pure]
  refine ⟨fun _ => .refl w, fun _ => ?_⟩
  refine (checkBadPhysBlock_phys ba w).mono ?_
  intro bad w1 h1
  refine ⟨fun _ => ?_, fun _ => h1.quiet⟩
  refine (setBlockState_quiet ba BLOCK_ST_BAD _).mono fun _ _ h2 => h1.quiet.trans ?_
  exact ⟨h2.ni, h2.mainTableEnd, h2.backupTableEnd, h2.log⟩

theorem Layout.quiet (h : Layout w) (hq : Quiet w w') : Layout w' := by
  have hni := hq.ni
  refine ⟨?_, ?_, ?_, ?_, ?_⟩
  · rw [hni]; exact h.start_le
  · rw [hni]; exact h.le_top
  · rw [hni]; exact h.top_lt
  · rw [hni]; exact h.signature_lt
  · intro hprot
    have hmgmt : w'.ni.mgmtStartBa = w.ni.mgmtStartBa := hq.frame.mgmtStartBa
    have hplaced := h.placed (by rw [hni] at hprot; exact hprot)
    rw [hmgmt]
    exact hplaced.of_eq (by rw [hni]) hq.mainTableEnd (by rw [hni]) hq.backupTableEnd
      (by rw [hni]) (by rw [hni])

theorem Mapped.of_eq (h : Mapped nld w) (hframe : SameFrame w.ni w'.ni) (hlog : w'.log = w.log) :
    Mapped nld w' where
  injective := by
    rw [hframe.blockMapping, hframe.dataBlockCount]
    exact h.injective
  touches := by
    intro ba ni he
    rw [hlog] at he
    exact h.touches ba ni he
  outside := by
    rw [hframe.blockMapping, hframe.dataBlockCount, hframe.mgmtStartBa, hframe.mappingBlocksTopBa]
    exact h.outside

theorem RemapsAtTop.of_eq (h : RemapsAtTop w') (hlog : w'.log = w.log) : RemapsAtTop w := by
  intro pb ni he
  rw [← hlog] at he
  exact h pb ni he

theorem Inv.quiet (h : Inv nld w) (hq : Quiet w w') : Inv nld w' where
  layout := fun hrw => (h.layout hrw).quiet hq
  mapped := fun hremap => (h.mapped (hremap.of_eq hq.log)).of_eq hq.frame hq.log

/-! ## Table management -/

theorem Unused.of_outside {ni : Instance} {ba : Nat}
    (hout : OutsideOn (· < ni.dataBlockCount) ni.blockMapping ni.mgmtStartBa ni.mappingBlocksTopBa)
    (hle : ni.mgmtStartBa ≤ ba) (hlt : ba < ni.mappingBlocksTopBa)
    (htop : ni.mappingBlocksTopBa < ni.signatureBa) : Unused ni ba := by
  refine ⟨?_, by omega⟩
  intro lb hlb himage heq
  rcases hout lb hlb himage with h | h
  · omega
  · omega

theorem Unused.of_frame {ni ni' : Instance} {ba : Nat} (h : Unused ni ba)
    (hframe : SameFrame ni ni') : Unused ni' ba := by
  unfold Unused
  rw [hframe.blockMapping, hframe.dataBlockCount, hframe.signatureBa]
  exact h

theorem Mapped.mgmt (h : Mapped nld w) (hrw : nld.readOnly = false)
    (htop : w.ni.mappingBlocksTopBa < w.ni.signatureBa)
    (hmgmt : Mgmt nld w.ni.mgmtStartBa w.ni.mappingBlocksTopBa w w') : Mapped nld w' where
  injective := by
    rw [hmgmt.frame.blockMapping, hmgmt.frame.dataBlockCount]
    exact h.injective
  touches := by
    rcases hmgmt.log with ⟨es, hlog, hes⟩
    intro ba ni he
    rw [hlog] at he
    rcases List.mem_append.mp he with he | he
    · rcases hes _ he with ⟨ba', ni', heq, hle, hlt, hframe⟩
      cases heq
      exact (Unused.of_outside (h.outside hrw) hle hlt htop).of_frame hframe
    · exact h.touches ba ni he
  outside := by
    rw [hmgmt.frame.blockMapping, hmgmt.frame.dataBlockCount, hmgmt.frame.mgmtStartBa,
      hmgmt.frame.mappingBlocksTopBa]
    exact h.outside

theorem RemapsAtTop.of_mgmt (h : RemapsAtTop w') (hmgmt : Mgmt nld lo hi w w') : RemapsAtTop w := by
  rcases hmgmt.log with ⟨es, hlog, -⟩
  intro pb ni he
  exact h pb ni (by rw [hlog]; exact List.mem_append_right es he)

theorem Inv.mgmt (h : Inv nld w) (hrw : nld.readOnly = false)
    (hmgmt : Mgmt nld w.ni.mgmtStartBa w.ni.mappingBlocksTopBa w w') (hlayout : Layout w') :
    Inv nld w' where
  layout := fun _ => hlayout
  mapped := fun hremap => (h.mapped (hremap.of_mgmt hmgmt)).mgmt hrw (h.layout hrw).top_lt hmgmt

theorem Placed.layout (h : Placed w.ni.mgmtStartBa w)
    (htop : w.ni.mappingBlocksTopBa < w.ni.signatureBa) (hsig : w.ni.signatureBa < 4294967296) :
    Layout w where
  start_le := h.start_le.trans (h.main_lt.le.trans h.main_le)
  le_top := h.le_top
  top_lt := htop
  signature_lt := hsig
  placed := fun _ => h

theorem Layout.of_placed (h : Layout w) (hframe : SameFrame w.ni w'.ni)
    (hplaced : Placed w.ni.mgmtStartBa w') : Layout w' := by
  rw [← hframe.mgmtStartBa] at hplaced
  apply hplaced.layout
  · rw [hframe.mappingBlocksTopBa, hframe.signatureBa]
    exact h.top_lt
  · rw [hframe.signatureBa]
    exact h.signature_lt

theorem Layout.of_protected (h : Layout w) (hframe : SameFrame w.ni w'.ni)
    (hprot : w'.ni.isProtected) (hmapping : w'.ni.mappingBlocksBa = w.ni.mappingBlocksTopBa) :
    Layout w' where
  start_le := by
    rw [hframe.mgmtStartBa, hmapping]
    exact h.start_le.trans h.le_top
  le_top := by rw [hmapping, hframe.mappingBlocksTopBa]
  top_lt := by
    rw [hframe.mappingBlocksTopBa, hframe.signatureBa]
    exact h.top_lt
  signature_lt := by
    rw [hframe.signatureBa]
    exact h.signature_lt
  placed := fun hf => absurd (hprot.symm.trans hf) (by decide)

theorem updateLoop_layout (hes : 0 < nld.erasesize) (fuel n : Nat) (w : World D) (h : Layout w)
    (hprot : w.ni.isProtected = false) :
    Post (updateLoop nld fuel n)
      (fun _ w' => Mgmt nld w.ni.mgmtStartBa w.ni.mappingBlocksTopBa w w' ∧ Layout w') w := by
  induction n generalizing w with
  | zero => exact post_diverge.mpr trivial
  | succ n ih =>
    simp only [updateLoop, getNi, post_bind, post_read, post_ite, post_pure]
    refine ⟨fun hdirty => ?_, fun _ => ⟨.refl w, h⟩⟩
    have hplaced := h.placed hprot
    have hmain := hplaced.start_le
    have hlt := hplaced.main_lt
    refine (updateInfoTableOnce_spec hes fuel w (.inl hdirty) le_rfl hmain ?_).mono ?_
    · intro hne
      have := (hplaced.backup hne).1
      omega
    · intro ok w1 h1
      have hmgmt : Mgmt nld w.ni.mgmtStartBa w.ni.mappingBlocksTopBa w w1 :=
        (generated_mgmt w).trans h1.mgmt
      refine ⟨fun hfail => ?_, fun hok => ?_⟩
      · rcases h1.failed (by simpa using hfail) with ⟨hprot1, hmapping⟩
        exact ⟨hmgmt, h.of_protected hmgmt.frame hprot1 hmapping⟩
      have hsettled := h1.settled (by simpa using hok)
      have hlayout := h.of_placed hmgmt.frame hsettled.placed
      refine (ih w1 hlayout (hsettled.isProtected.trans hprot)).mono ?_
      rintro _ w2 ⟨h2, hlayout2⟩
      rw [hmgmt.frame.mgmtStartBa, hmgmt.frame.mappingBlocksTopBa] at h2
      exact ⟨hmgmt.trans h2, hlayout2⟩

theorem updateInfoTable_layout (hes : 0 < nld.erasesize) (fuel : Nat) (w : World D) (h : Layout w) :
    Post (updateInfoTable nld fuel)
      (fun _ w' => Mgmt nld w.ni.mgmtStartBa w.ni.mappingBlocksTopBa w w' ∧ Layout w') w := by
  simp only [updateInfoTable, getNi, post_bind, post_read, post_ite, post_pure]
  refine ⟨fun _ => ⟨.refl w, h⟩, fun hprot => ?_⟩
  exact updateLoop_layout hes fuel fuel w h (by simpa using hprot)

theorem updateInfoTable_inv (hes : 0 < nld.erasesize) (hrw : nld.readOnly = false) (fuel : Nat)
    (w : World D) (h : Inv nld w) :
    Post (updateInfoTable nld fuel) (fun _ w' => Inv nld w' ∧ SameFrame w.ni w'.ni) w := by
  refine (updateInfoTable_layout hes fuel w (h.layout hrw)).mono ?_
  rintro _ w1 ⟨hmgmt, hlayout⟩
  exact ⟨h.mgmt hrw hmgmt hlayout, hmgmt.frame⟩

/-! ## Mapping a logic block -/

section Mapping

variable {S S' : Nat → Prop} {mapping : Nat → BitVec 32} {start top top' lb : Nat} {v : BitVec 32}

theorem InjectiveOn.mono (h : InjectiveOn S mapping) (hsub : ∀ lb, S' lb → S lb) :
    InjectiveOn S' mapping :=
  fun lb₁ lb₂ h₁ h₂ => h lb₁ lb₂ (hsub lb₁ h₁) (hsub lb₂ h₂)

theorem OutsideOn.mono (h : OutsideOn S mapping start top) (hsub : ∀ lb, S' lb → S lb) :
    OutsideOn S' mapping start top :=
  fun lb hlb => h lb (hsub lb hlb)

theorem InjectiveOn.map (h : InjectiveOn S mapping)
    (hfresh : ∀ lb', S lb' → 0 ≤ (mapping lb').toInt → mapping lb' ≠ v) :
    InjectiveOn (fun lb' => S lb' ∨ lb' = lb) (Function.update mapping lb v) := by
  intro lb₁ lb₂ h₁ h₂ himage heq
  by_cases e₁ : lb₁ = lb
  · by_cases e₂ : lb₂ = lb
    · rw [e₁, e₂]
    · subst e₁
      rw [Function.update_self, Function.update_of_ne e₂] at heq
      rw [Function.update_self, heq] at himage
      exact absurd heq.symm (hfresh lb₂ (h₂.resolve_right e₂) himage)
  · rw [Function.update_of_ne e₁] at himage heq
    by_cases e₂ : lb₂ = lb
    · subst e₂
      rw [Function.update_self] at heq
      exact absurd heq (hfresh lb₁ (h₁.resolve_right e₁) himage)
    · rw [Function.update_of_ne e₂] at heq
      exact h lb₁ lb₂ (h₁.resolve_right e₁) (h₂.resolve_right e₂) himage heq

theorem OutsideOn.map (h : OutsideOn S mapping start top) (htop : top' ≤ top)
    (hv : top' < v.toNat) :
    OutsideOn (fun lb' => S lb' ∨ lb' = lb) (Function.update mapping lb v) start top' := by
  intro lb' hlb' himage
  by_cases e : lb' = lb
  · subst e
    rw [Function.update_self]
    exact .inr hv
  · rw [Function.update_of_ne e] at himage ⊢
    rcases h lb' (hlb'.resolve_right e) himage with h | h
    · exact .inl h
    · exact .inr (by omega)

theorem image_unmapped {lb' : Nat}
    (himage : 0 ≤ (Function.update mapping lb (allOnes 32) lb').toInt) :
    Function.update mapping lb (allOnes 32) lb' = mapping lb' ∧
      0 ≤ (mapping lb').toInt := by
  by_cases e : lb' = lb
  · subst e
    rw [Function.update_self] at himage
    exact absurd himage (by decide)
  · rw [Function.update_of_ne e] at himage ⊢
    exact ⟨rfl, himage⟩

theorem InjectiveOn.unmap (h : InjectiveOn S mapping) :
    InjectiveOn S (Function.update mapping lb (allOnes 32)) := by
  intro lb₁ lb₂ h₁ h₂ himage heq
  rcases image_unmapped himage with ⟨e₁, himage₁⟩
  rw [heq] at himage
  rcases image_unmapped himage with ⟨e₂, -⟩
  exact h lb₁ lb₂ h₁ h₂ himage₁ (by rw [← e₁, ← e₂, heq])

theorem OutsideOn.unmap (h : OutsideOn S mapping start top) :
    OutsideOn S (Function.update mapping lb (allOnes 32)) start top := by
  intro lb' hlb' himage
  rcases image_unmapped himage with ⟨e, himage'⟩
  rw [e]
  exact h lb' hlb' himage'

end Mapping

theorem Inv.unmap (h : Inv nld w) (lb : Nat) :
    Inv nld
      { w with
        ni := { w.ni with
          blockMapping := Function.update w.ni.blockMapping lb (allOnes 32) } } where
  layout := by
    intro hrw
    have hlayout := h.layout hrw
    exact ⟨hlayout.1, hlayout.2, hlayout.3, hlayout.4, fun hprot =>
      (hlayout.placed hprot).of_eq rfl rfl rfl rfl rfl rfl⟩
  mapped := by
    intro hremap
    have hmapped := h.mapped hremap
    exact ⟨hmapped.injective.unmap, hmapped.touches, fun hrw => (hmapped.outside hrw).unmap⟩

theorem Inv.exhaust (h : Inv nld w) (hrw : nld.readOnly = false) :
    Inv nld { w with ni := { w.ni with mappingBlocksTopBa := w.ni.mappingBlocksBa } } where
  layout := by
    intro _
    have hlayout := h.layout hrw
    refine ⟨hlayout.start_le, le_refl _, hlayout.le_top.trans_lt hlayout.top_lt,
      hlayout.signature_lt, fun hprot => ?_⟩
    have hplaced := hlayout.placed hprot
    exact ⟨hplaced.start_le, hplaced.main_lt, hplaced.main_le, le_refl _, hplaced.backup⟩
  mapped := by
    intro hremap
    have hmapped := h.mapped hremap
    refine ⟨hmapped.injective, hmapped.touches, fun _ lb hlb himage => ?_⟩
    rcases hmapped.outside hrw lb hlb himage with hout | hout
    · exact .inl hout
    · exact .inr ((h.layout hrw).le_top.trans_lt hout)

theorem sub32_of_le {a b : Nat} (h : b ≤ a) : sub32 a b = a - b := if_pos h

def World.remapped (w : World D) (lb pb : Nat) : World D :=
  { w with
    ni :=
      { w.ni with
        blockMapping := Function.update w.ni.blockMapping lb (BitVec.ofNat 32 pb)
        mappingBlocksTopBa := sub32 w.ni.mappingBlocksTopBa 1
        blockMappingChanged := w.ni.blockMappingChanged + 1 }
    log := .remap pb w.ni :: w.log }

theorem Layout.remapped (h : Layout w) (lb pb : Nat)
    (hlt : w.ni.mappingBlocksBa < w.ni.mappingBlocksTopBa) : Layout (w.remapped lb pb) := by
  have hsub : sub32 w.ni.mappingBlocksTopBa 1 = w.ni.mappingBlocksTopBa - 1 :=
    sub32_of_le (by omega)
  have hle : w.ni.mappingBlocksBa ≤ sub32 w.ni.mappingBlocksTopBa 1 := by omega
  have htop : sub32 w.ni.mappingBlocksTopBa 1 < w.ni.signatureBa := by
    have := h.top_lt
    omega
  refine ⟨h.start_le, hle, htop, h.signature_lt, fun hprot => ?_⟩
  have hplaced := h.placed hprot
  exact ⟨hplaced.start_le, hplaced.main_lt, hplaced.main_le, hle, hplaced.backup⟩

theorem Mapped.remapped (h : Mapped nld w) (hrw : nld.readOnly = false) (hlayout : Layout w)
    (hlt : w.ni.mappingBlocksBa < w.ni.mappingBlocksTopBa) (lb : Nat) {pb : Nat}
    (hpb : pb = w.ni.mappingBlocksTopBa) :
    InjectiveOn (fun lb' => lb' < w.ni.dataBlockCount ∨ lb' = lb)
        (w.remapped lb pb).ni.blockMapping ∧
      OutsideOn (fun lb' => lb' < w.ni.dataBlockCount ∨ lb' = lb)
        (w.remapped lb pb).ni.blockMapping w.ni.mgmtStartBa
        (w.remapped lb pb).ni.mappingBlocksTopBa := by
  subst hpb
  have htop := hlayout.top_lt
  have hsig := hlayout.signature_lt
  have hstart := hlayout.start_le
  have hsub : sub32 w.ni.mappingBlocksTopBa 1 = w.ni.mappingBlocksTopBa - 1 :=
    sub32_of_le (by omega)
  have hval : (BitVec.ofNat 32 w.ni.mappingBlocksTopBa).toNat = w.ni.mappingBlocksTopBa := by
    exact Nat.mod_eq_of_lt (by omega)
  constructor
  · apply h.injective.map
    intro lb' hlb' himage heq
    rcases h.outside hrw lb' hlb' himage with hout | hout
    all_goals
      rw [heq] at hout
      omega
  · refine (h.outside hrw).map ?_ ?_
    · show sub32 w.ni.mappingBlocksTopBa 1 ≤ _
      omega
    · show sub32 w.ni.mappingBlocksTopBa 1 < _
      omega

/-- What is known after `nmbm_map_block`: the invariant, and for a block that was mapped its
image. -/
structure MapsBlock (nld : Lower D) (lb : Nat) (w : World D) (ok : Bool) (w' : World D) : Prop where
  inv : Inv nld w'
  dataBlockCount : w'.ni.dataBlockCount = w.ni.dataBlockCount
  mgmtStartBa : w'.ni.mgmtStartBa = w.ni.mgmtStartBa
  injective : ok = true → RemapsAtTop w' →
    InjectiveOn (fun lb' => lb' < w.ni.dataBlockCount ∨ lb' = lb) w'.ni.blockMapping
  outside : ok = true → RemapsAtTop w' →
    OutsideOn (fun lb' => lb' < w.ni.dataBlockCount ∨ lb' = lb) w'.ni.blockMapping
      w'.ni.mgmtStartBa w'.ni.mappingBlocksTopBa

theorem blockWalk_good {bs : Nat → BitVec 32} {top limit pb : Nat}
    (hwalk : blockWalk nld bs false top 0 limit = some pb)
    (hgood : getBlockStateRaw bs top = BLOCK_ST_GOOD) : pb = top := by
  change walkDesc bs (top - clipLimit nld limit) top 0 = some pb at hwalk
  cases hn : top - clipLimit nld limit with
  | zero =>
    rw [hn] at hwalk
    cases hwalk
  | succ n =>
    rw [hn, walkDesc, if_pos hgood] at hwalk
    exact (Option.some.inj hwalk).symm

theorem remapped_spec (h : Inv nld w) (hrw : nld.readOnly = false)
    (hne : w.ni.mappingBlocksBa ≠ w.ni.mappingBlocksTopBa) (lb : Nat) {limit pb : Nat}
    (hwalk : blockWalk nld w.ni.blockState false w.ni.mappingBlocksTopBa 0 limit = some pb) :
    MapsBlock nld lb w true (w.remapped lb pb) := by
  have hlayout := h.layout hrw
  have hlt := lt_of_le_of_ne hlayout.le_top hne
  have hbefore : RemapsAtTop (w.remapped lb pb) → RemapsAtTop w ∧ pb = w.ni.mappingBlocksTopBa := by
    intro hremap
    exact ⟨fun pb' ni he => hremap pb' ni (List.mem_cons_of_mem _ he),
      blockWalk_good hwalk (hremap pb w.ni (List.mem_cons_self ..))⟩
  have hnew := fun hremap => (h.mapped (hbefore hremap).1).remapped hrw hlayout hlt lb
    (hbefore hremap).2
  refine ⟨⟨fun _ => hlayout.remapped lb pb hlt, fun hremap => ?_⟩, rfl, rfl,
    fun _ hremap => (hnew hremap).1, fun _ hremap => (hnew hremap).2⟩
  refine ⟨(hnew hremap).1.mono fun _ => Or.inl, ?_, fun _ => (hnew hremap).2.mono fun _ => Or.inl⟩
  intro ba ni he
  rcases List.mem_cons.mp he with he | he
  · cases he
  · exact (h.mapped (hbefore hremap).1).touches ba ni he

theorem mapBlock_spec (hes : 0 < nld.erasesize) (hrw : nld.readOnly = false) (fuel lb : Nat)
    (w : World D) (h : Inv nld w) :
    Post (mapBlock nld fuel lb) (MapsBlock nld lb w) w := by
  simp only [mapBlock, getNi, post_bind, post_read, post_ite, post_pure]
  refine ⟨fun _ => ⟨h, rfl, rfl, fun hf => (by cases hf), fun hf => (by cases hf)⟩, fun hne => ?_⟩
  split
  · rw [post_bind]
    refine (updateInfoTable_inv hes hrw fuel w h).mono ?_
    rintro _ w1 ⟨h1, hframe⟩
    simp only [modifyNi, post_bind, post_update, post_pure]
    exact ⟨h1.exhaust hrw, hframe.dataBlockCount, hframe.mgmtStartBa, fun hf => (by cases hf),
      fun hf => (by cases hf)⟩
  · rename_i pb hwalk
    simp only [note, modifyNi, post_bind, post_update, post_pure]
    exact remapped_spec h hrw hne lb hwalk

end OpenWrt.Nmbm
