import OpenWrt.Nmbm.Proofs.Ending

/-!
# Erasing a logic block

`nmbm_erase_logic_block` tries one block after the other until one can be erased.  What one
pass can do is said once, by `ErasePass`; a pass that asks for another one has lowered the
top of the spare blocks.
-/

namespace OpenWrt.Nmbm

open Lib Lib.Prog

variable {D : Type} {nld : Lower D} {fuel : Nat} {w w' : World D}

/-! ## Updates from any state -/

/-- What an update does to the chip and to the borders, from any state. -/
structure Updated (nld : Lower D) (w w' : World D) : Prop where
  mgmt : Mgmt nld 0 w.ni.mappingBlocksTopBa w w'
  border : w'.ni.mappingBlocksBa ≤ max w.ni.mappingBlocksTopBa w.ni.mappingBlocksBa

theorem updateLoop_updated (hes : 0 < nld.erasesize) (n : Nat) (w : World D) :
    Post (updateLoop nld fuel n) (fun _ w' => Updated nld w w') w := by
  induction n generalizing w with
  | zero => exact post_diverge.mpr trivial
  | succ n ih =>
    simp only [updateLoop, getNi, post_bind, post_read, post_ite, post_pure]
    refine ⟨fun hdirty => ?_, fun _ => ⟨.refl w, Nat.le_max_right _ _⟩⟩
    refine (updateInfoTableOnce_spec hes fuel w (.inl hdirty) (Nat.zero_le _) (Nat.zero_le _)
      fun _ => Nat.zero_le _).mono ?_
    intro ok w1 h1
    have hmgmt : Mgmt nld 0 w.ni.mappingBlocksTopBa w w1 := (generated_mgmt w).trans h1.mgmt
    have htop := hmgmt.frame.mappingBlocksTopBa
    refine ⟨fun hfail => ⟨hmgmt, ?_⟩, fun hok => ?_⟩
    · have hborder : w1.ni.mappingBlocksBa = w.ni.mappingBlocksTopBa :=
        (h1.failed (by simpa using hfail)).2
      omega
    · have hborder := (h1.settled (by simpa using hok)).placed.le_top
      refine (ih w1).mono ?_
      rintro _ w2 ⟨h2, hborder2⟩
      rw [htop] at h2 hborder hborder2
      exact ⟨hmgmt.trans h2, by omega⟩

theorem updateInfoTable_updated (hes : 0 < nld.erasesize) (w : World D) :
    Post (updateInfoTable nld fuel) (fun _ w' => Updated nld w w') w := by
  simp only [updateInfoTable, getNi, post_bind, post_read, post_ite, post_pure]
  exact ⟨fun _ => ⟨.refl w, le_max_right _ _⟩, fun _ => updateLoop_updated hes fuel w⟩

/-! ## Block states -/

abbrev Instance.Unusable (ni : Instance) (ba : Nat) : Prop :=
  ni.getBlockState ba = BLOCK_ST_BAD ∨ ni.getBlockState ba = BLOCK_ST_NEED_REMAP

/-- No block has changed its state but those that are bad or to be remapped now. -/
def Marked (w w' : World D) : Prop :=
  ∀ ba, w'.ni.getBlockState ba = w.ni.getBlockState ba ∨
    w'.ni.getBlockState ba = BLOCK_ST_BAD ∨ w'.ni.getBlockState ba = BLOCK_ST_NEED_REMAP

theorem Marked.refl (w : World D) : Marked w w := fun _ => Or.inl rfl

theorem Marked.trans {w'' : World D} (h : Marked w w') (h' : Marked w' w'') : Marked w w'' := by
  intro ba
  rcases h' ba with hsame | hmarked
  · rw [hsame]
    exact h ba
  · exact .inr hmarked

theorem Marked.of_state {w'' : World D} (h : Marked w w')
    (heq : ∀ ba, w''.ni.getBlockState ba = w'.ni.getBlockState ba) : Marked w w'' :=
  fun ba => by rw [heq]; exact h ba

theorem Worn.marked (h : Worn w w') : Marked w w' := by
  intro ba
  rcases h ba with hsame | ⟨-, hbad⟩
  · exact .inl hsame
  · exact .inr (.inl hbad)

theorem setBlockState_marked (ba : Nat) {st : BitVec 32}
    (hst : st = BLOCK_ST_BAD ∨ st = BLOCK_ST_NEED_REMAP) (w : World D) :
    Post (setBlockState ba st) (fun _ w' => Marked w w') w := by
  simp only [setBlockState, modifyNi, post_update]
  intro ba'
  rw [getBlockState_set]
  split
  · rcases hst with rfl | rfl
    · exact .inr (Or.inl rfl)
    · exact .inr (Or.inr rfl)
  · exact Or.inl rfl

/-! ## One pass -/

inductive MapOutcome (nld : Lower D) (fuel lb : Nat) (w : World D) : Bool → World D → Prop
  | none_left (hborder : w.ni.mappingBlocksBa = w.ni.mappingBlocksTopBa) :
      MapOutcome nld fuel lb w false w
  | none_good {ok : Bool} {w₁ : World D} (hborder : w.ni.mappingBlocksBa ≠ w.ni.mappingBlocksTopBa)
      (hupdate : updateInfoTable nld fuel w = some (ok, w₁)) :
      MapOutcome nld fuel lb w false
        { w₁ with ni := { w₁.ni with mappingBlocksTopBa := w₁.ni.mappingBlocksBa } }
  | mapped {pb : Nat} (htop : 0 < w.ni.mappingBlocksTopBa) :
      MapOutcome nld fuel lb w true (w.remapped lb pb)

theorem mapBlock_outcome (lb : Nat) (w : World D) :
    Post (mapBlock nld fuel lb) (MapOutcome nld fuel lb w) w := by
  simp only [mapBlock, getNi, post_bind, post_read, post_ite, post_pure]
  refine ⟨.none_left, fun hborder => ?_⟩
  split
  · rw [post_bind]
    intro ok w₁ hupdate
    simp only [modifyNi, post_bind, post_update, post_pure]
    exact .none_good hborder hupdate
  · rename_i pb hwalk
    simp only [note, modifyNi, post_bind, post_update, post_pure]
    refine .mapped (Nat.pos_of_ne_zero fun hzero => ?_)
    simp only [blockWalk, blockWalkDesc, hzero, Nat.zero_sub] at hwalk
    cases hwalk

/-- The old block of a logic block is marked bad, unless it is marked to be remapped. -/
inductive OldMarked (pb : Nat) (w : World D) : World D → Prop
  | kept (hstate : w.ni.getBlockState pb = BLOCK_ST_NEED_REMAP) : OldMarked pb w w
  | set {w' : World D} (hstate : w.ni.getBlockState pb ≠ BLOCK_ST_NEED_REMAP)
      (hset : setBlockState pb BLOCK_ST_BAD w = some ((), w')) : OldMarked pb w w'

theorem OldMarked.quiet {pb : Nat} (h : OldMarked pb w w') : Quiet w w' := by
  cases h with
  | kept => exact .refl w
  | set _ hset => exact setBlockState_quiet pb BLOCK_ST_BAD w () w' hset

theorem OldMarked.marked {pb : Nat} (h : OldMarked pb w w') : Marked w w' := by
  cases h with
  | kept => exact .refl w
  | set _ hset => exact setBlockState_marked pb (.inl rfl) w () w' hset

/-- How a logic block is mapped anew: after `nmbm_map_block` its old block is marked and the
tables are updated. -/
structure RemapOutcome (nld : Lower D) (fuel lb pb : Nat) (w : World D) (again : Bool)
    (w₁ w₂ w' : World D) : Prop where
  map : MapOutcome nld fuel lb w again w₁
  old : OldMarked pb (if again then w₁ else w₁.unmapped lb) w₂
  update : ∃ ok, updateInfoTable nld fuel w₂ = some (ok, w')

theorem remapLogicBlock_outcome (lb pb : Nat) (w : World D) :
    Post (remapLogicBlock nld fuel lb pb) (fun again w' =>
      ∃ w₁ w₂, RemapOutcome nld fuel lb pb w again w₁ w₂ w') w := by
  rw [remapLogicBlock, post_bind]
  refine (mapBlock_outcome lb w).mono ?_
  intro again w₁ hmap
  -- Both ways on end with the mark and the update.
  have hend : ∀ v, v = (if again then w₁ else w₁.unmapped lb) →
      Post (do
        let ni ← getNi
        if ni.getBlockState pb ≠ BLOCK_ST_NEED_REMAP then setBlockState pb BLOCK_ST_BAD else pure ()
        let _ ← updateInfoTable nld fuel
        pure again) (fun again' w' => ∃ w₁ w₂, RemapOutcome nld fuel lb pb w again' w₁ w₂ w')
          v := by
    intro v hv
    simp only [getNi, post_bind, post_read, post_ite, post_pure]
    refine ⟨fun hstate => ?_, fun hstate => ?_⟩
    · intro u w₂ hset ok w' hupdate
      exact ⟨w₁, w₂, hmap, by rw [← hv]; exact .set hstate hset, ok, hupdate⟩
    · intro ok w' hupdate
      exact ⟨w₁, v, hmap, by rw [← hv]; exact .kept (not_not.mp hstate), ok, hupdate⟩
  cases again with
  | true => exact hend w₁ rfl
  | false => exact hend (w₁.unmapped lb) rfl

/-- `v` is the world in which block `pb` is to be given up: it was unusable before, or it has
just gone bad. -/
inductive GivenUp (pb : Nat) (w : World D) : World D → Prop
  | before (hstate : w.ni.Unusable pb) : GivenUp pb w w
  | now {v : World D} (husable : w.ni.getBlockState pb ≠ BLOCK_ST_BAD ∧
        w.ni.getBlockState pb ≠ BLOCK_ST_NEED_REMAP) (hquiet : Quiet w v)
      (hstate : ∀ ba, v.ni.getBlockState ba =
        if ba = pb then BLOCK_ST_BAD else w.ni.getBlockState ba)
      (hdirty : v.ni.dirty = true) : GivenUp pb w v

inductive ErasePass (nld : Lower D) (fuel lb : Nat) (w : World D) : Option Int → World D → Prop
  | unmapped (hneg : (w.ni.blockMapping lb).toInt < 0) : ErasePass nld fuel lb w (some (-eio)) w
  | erased {v w' : World D} (hmapped : 0 ≤ (w.ni.blockMapping lb).toInt)
      (hcheck : checkBadPhysBlock nld (w.ni.blockMapping lb).toNat w = some (false, v))
      (hstate : w.ni.getBlockState (w.ni.blockMapping lb).toNat ≠ BLOCK_ST_BAD ∧
        w.ni.getBlockState (w.ni.blockMapping lb).toNat ≠ BLOCK_ST_NEED_REMAP)
      (herase : eraseBlockAndCheck nld (w.ni.blockMapping lb).toNat v = some (true, w')) :
      ErasePass nld fuel lb w (some 0) w'
  | givenUp {v w' : World D} {again : Bool} (hmapped : 0 ≤ (w.ni.blockMapping lb).toInt)
      (hgiven : GivenUp (w.ni.blockMapping lb).toNat w v)
      (hremap : remapLogicBlock nld fuel lb (w.ni.blockMapping lb).toNat v = some (again, w')) :
      ErasePass nld fuel lb w (if again then none else some (-eio)) w'

theorem setBad_given {pb : Nat} {v : World D} (hphys : Quiet w v)
    (hstate : ∀ ba, v.ni.getBlockState ba = w.ni.getBlockState ba)
    (husable : w.ni.getBlockState pb ≠ BLOCK_ST_BAD ∧
      w.ni.getBlockState pb ≠ BLOCK_ST_NEED_REMAP) :
    Post (setBlockState pb BLOCK_ST_BAD) (fun _ v' => GivenUp pb w v') v := by
  have hquiet := setBlockState_quiet pb BLOCK_ST_BAD v
  simp only [setBlockState, modifyNi, post_update] at hquiet ⊢
  refine .now husable (hphys.trans hquiet) ?_ ?_
  · intro ba
    rw [getBlockState_set, hstate]
    rfl
  · have hchanged : v.ni.getBlockState pb ≠ BLOCK_ST_BAD &&& BLOCK_ST_MASK := by
      rw [hstate]
      exact husable.1
    simp [Instance.dirty, hchanged]

theorem eraseLogicBlockOnce_pass (lb : Nat) (w : World D) :
    Post (eraseLogicBlockOnce nld fuel lb) (ErasePass nld fuel lb w) w := by
  simp only [eraseLogicBlockOnce, getNi, post_bind, post_read, post_ite, post_pure]
  refine ⟨.unmapped, fun hmapped => ?_⟩
  have hmapped := Int.not_lt.mp hmapped
  refine ⟨fun hstate => ?_, fun hstate => ?_⟩
  · exact fun again w' hremap => .givenUp hmapped (.before hstate) hremap
  rw [not_or] at hstate
  intro bad w1 hcheck
  have h1 := checkBadPhysBlock_phys _ w bad w1 hcheck
  refine ⟨fun _ => ?_, fun hok => ?_⟩
  · refine (setBad_given h1.quiet h1.getBlockState hstate).mono ?_
    exact fun _ v hgiven again w' hremap => .givenUp hmapped hgiven hremap
  have hok : bad = false := by simpa using hok
  subst hok
  intro success w2 herase
  have h2 := eraseBlockAndCheck_phys _ w1 success w2 herase
  refine ⟨fun hok => ?_, fun _ => ?_⟩
  · subst hok
    exact .erased hmapped hcheck hstate herase
  rw [condemnBlock, post_bind]
  refine (markPhysBadBlock_phys _ w2).mono ?_
  intro _ w3 h3
  refine (setBad_given ((h1.quiet.trans h2.quiet).trans h3.quiet) ?_ hstate).mono ?_
  · intro ba
    rw [h3.getBlockState, h2.getBlockState, h1.getBlockState]
  · exact fun _ v hgiven again w' hremap => .givenUp hmapped hgiven hremap

inductive Retries (nld : Lower D) (fuel lb : Nat) (w : World D) : World D → Prop
  | refl : Retries nld fuel lb w w
  | pass {w₁ w₂ : World D} (hretries : Retries nld fuel lb w w₁)
      (hpass : ErasePass nld fuel lb w₁ none w₂) : Retries nld fuel lb w w₂

theorem Retries.head {w₁ w₂ : World D} (hpass : ErasePass nld fuel lb w none w₁)
    (h : Retries nld fuel lb w₁ w₂) : Retries nld fuel lb w w₂ := by
  induction h with
  | refl => exact .pass .refl hpass
  | pass _ hlast ih => exact .pass ih hlast

theorem eraseLogicBlock_passes (lb n : Nat) (w : World D) :
    Post (eraseLogicBlock nld fuel lb n) (fun ret w' =>
      ∃ w₁, Retries nld fuel lb w w₁ ∧ ErasePass nld fuel lb w₁ (some ret) w') w := by
  induction n generalizing w with
  | zero => exact post_diverge.mpr trivial
  | succ n ih =>
    rw [eraseLogicBlock, post_bind]
    refine (eraseLogicBlockOnce_pass lb w).mono ?_
    intro r w1 hpass
    cases r with
    | some ret => exact post_pure.mpr ⟨w, .refl, hpass⟩
    | none =>
      refine (ih w1).mono ?_
      rintro ret w2 ⟨w3, hretries, hlast⟩
      exact ⟨w3, .head hpass hretries, hlast⟩

/-! ## What passes leave alone -/

/-- Nothing but the image of `lb` has changed in the mapping, and the borders have not risen. -/
structure Remapping (lb : Nat) (w w' : World D) : Prop where
  others : ∀ lb' ≠ lb, w'.ni.blockMapping lb' = w.ni.blockMapping lb'
  top : w'.ni.mappingBlocksTopBa ≤ max w.ni.mappingBlocksTopBa w.ni.mappingBlocksBa
  border : w'.ni.mappingBlocksBa ≤ max w.ni.mappingBlocksTopBa w.ni.mappingBlocksBa

namespace Remapping

variable {w'' : World D}

theorem of_eq (hmap : w'.ni.blockMapping = w.ni.blockMapping)
    (htop : w'.ni.mappingBlocksTopBa = w.ni.mappingBlocksTopBa)
    (hborder : w'.ni.mappingBlocksBa = w.ni.mappingBlocksBa) : Remapping lb w w' :=
  ⟨fun _ _ => by rw [hmap], by omega, by omega⟩

theorem trans (h : Remapping lb w w') (h' : Remapping lb w' w'') : Remapping lb w w'' where
  others := fun lb' hne => (h'.others lb' hne).trans (h.others lb' hne)
  top := by
    have := h.top
    have := h.border
    have := h'.top
    omega
  border := by
    have := h.top
    have := h.border
    have := h'.border
    omega

end Remapping

theorem Updated.remapping (h : Updated nld w w') (lb : Nat) : Remapping lb w w' :=
  ⟨fun _ _ => by rw [h.mgmt.frame.blockMapping], by
    have := h.mgmt.frame.mappingBlocksTopBa
    omega, h.border⟩

theorem Quiet.remapping (h : Quiet w w') (lb : Nat) : Remapping lb w w' :=
  .of_eq h.frame.blockMapping h.frame.mappingBlocksTopBa (by rw [h.ni])

theorem World.unmapped_remapping (w : World D) (lb : Nat) : Remapping lb w (w.unmapped lb) :=
  ⟨fun _ hne => Function.update_of_ne hne _ _, le_max_left _ _, le_max_right _ _⟩

section

variable (hes : 0 < nld.erasesize)

include hes

theorem MapOutcome.remapping {ok : Bool} (h : MapOutcome nld fuel lb w ok w') :
    Remapping lb w w' ∧ (ok → w'.ni.mappingBlocksTopBa < w.ni.mappingBlocksTopBa) := by
  cases h with
  | none_left => exact ⟨.of_eq rfl rfl rfl, fun hf => by cases hf⟩
  | none_good _ hupdate =>
    have hupdated := updateInfoTable_updated hes w _ _ hupdate
    exact ⟨(hupdated.remapping lb).trans ⟨fun _ _ => rfl, le_max_right _ _,
      le_max_right _ _⟩, fun hf => by cases hf⟩
  | @mapped pb htop =>
    have hsub : (w.remapped lb pb).ni.mappingBlocksTopBa = w.ni.mappingBlocksTopBa - 1 :=
      sub32_of_le htop
    refine ⟨⟨fun _ hne => Function.update_of_ne hne _ _, ?_, le_max_right _ _⟩, fun _ => by omega⟩
    omega

theorem RemapOutcome.remapping {again : Bool} {w₁ w₂ : World D}
    {pb : Nat} (h : RemapOutcome nld fuel lb pb w again w₁ w₂ w') :
    Remapping lb w w' ∧ (again → w'.ni.mappingBlocksTopBa < w.ni.mappingBlocksTopBa) := by
  obtain ⟨hmap, hlower⟩ := h.map.remapping hes
  obtain ⟨ok, hupdate⟩ := h.update
  have hupdated := updateInfoTable_updated hes w₂ ok w' hupdate
  have htop := hupdated.mgmt.frame.mappingBlocksTopBa.trans h.old.quiet.frame.mappingBlocksTopBa
  cases again with
  | true =>
    refine ⟨(hmap.trans (h.old.quiet.remapping lb)).trans (hupdated.remapping lb), fun _ => ?_⟩
    rw [htop]
    exact hlower rfl
  | false =>
    have hunmap := hmap.trans (w₁.unmapped_remapping lb)
    exact ⟨(hunmap.trans (h.old.quiet.remapping lb)).trans (hupdated.remapping lb),
      fun hf => by cases hf⟩

omit hes in
theorem GivenUp.quiet {pb : Nat} (h : GivenUp pb w w') : Quiet w w' := by
  cases h with
  | before => exact .refl w
  | now _ hquiet => exact hquiet

theorem ErasePass.remapping {r : Option Int} (h : ErasePass nld fuel lb w r w') :
    Remapping lb w w' ∧ (r = none → w'.ni.mappingBlocksTopBa < w.ni.mappingBlocksTopBa) := by
  cases h with
  | unmapped => exact ⟨.of_eq rfl rfl rfl, fun hf => by cases hf⟩
  | erased hmapped hcheck hstate herase =>
    have hphys := checkBadPhysBlock_phys _ _ _ _ hcheck
    have herase := eraseBlockAndCheck_phys _ _ _ _ herase
    exact ⟨(hphys.quiet.trans herase.quiet).remapping lb, fun hf => by cases hf⟩
  | @givenUp v _ again hmapped hgiven hremap =>
    obtain ⟨w₁, w₂, houtcome⟩ := remapLogicBlock_outcome lb _ v again w' hremap
    obtain ⟨hv, hlower⟩ := houtcome.remapping hes
    refine ⟨(hgiven.quiet.remapping lb).trans hv, fun hnone => ?_⟩
    rw [← hgiven.quiet.frame.mappingBlocksTopBa]
    cases again with
    | true => exact hlower rfl
    | false => cases hnone

theorem Retries.remapping (h : Retries nld fuel lb w w') : Remapping lb w w' := by
  induction h with
  | refl => exact .of_eq rfl rfl rfl
  | pass _ hpass ih => exact ih.trans (hpass.remapping hes).1

/-! ## Erasing ends -/

def World.eraseFuel (nld : Lower D) (w : World D) : Nat :=
  nld.updateFuel (max w.ni.mappingBlocksTopBa w.ni.mappingBlocksBa)

omit hes in
theorem Remapping.eraseFuel_le (h : Remapping lb w w') (hfuel : w.eraseFuel nld ≤ fuel) :
    w'.eraseFuel nld ≤ fuel := by
  have htop := h.top
  have hborder := h.border
  simp only [World.eraseFuel, Lower.updateFuel] at hfuel ⊢
  omega

theorem updateInfoTable_ends_of_eraseFuel
    (hfuel : w.eraseFuel nld ≤ fuel) : Ends (updateInfoTable nld fuel) w := by
  refine updateInfoTable_ends_of hes w ?_
  simp only [World.eraseFuel, Lower.updateFuel] at hfuel ⊢
  omega

theorem mapBlock_ends (lb : Nat) (hfuel : w.eraseFuel nld ≤ fuel) :
    Ends (mapBlock nld fuel lb) w := by
  simp only [mapBlock, getNi, ends_bind, ends_read, post_read, true_and, ends_ite]
  refine ⟨fun _ => ends_pure, fun _ => ?_⟩
  split
  · exact (updateInfoTable_ends_of_eraseFuel hes hfuel).bind fun _ w1 => Total.ends _ w1
  · exact Total.ends _ w

theorem remapLogicBlock_ends (lb pb : Nat)
    (hfuel : w.eraseFuel nld ≤ fuel) : Ends (remapLogicBlock nld fuel lb pb) w := by
  have hupdate : ∀ v, Remapping lb w v → Ends (updateInfoTable nld fuel) v :=
    fun v hv => updateInfoTable_ends_of_eraseFuel hes (hv.eraseFuel_le hfuel)
  rw [remapLogicBlock, ends_bind]
  refine ⟨mapBlock_ends hes lb hfuel, (mapBlock_outcome lb w).mono ?_⟩
  intro ok w₁ hmap
  have h1 := (hmap.remapping hes).1
  have hend : ∀ v, Remapping lb w v → Ends (do
      let ni ← getNi
      if ni.getBlockState pb ≠ BLOCK_ST_NEED_REMAP then setBlockState pb BLOCK_ST_BAD else pure ()
      let _ ← updateInfoTable nld fuel
      pure ok) v := by
    intro v hv
    simp only [getNi, ends_bind, ends_read, post_read, true_and, ends_ite, ends_pure]
    refine ⟨fun _ => ⟨ends_update, ?_⟩, fun _ => ⟨hupdate v hv, .of_forall fun _ _ => trivial⟩⟩
    refine (setBlockState_quiet pb BLOCK_ST_BAD v).mono ?_
    intro _ w₂ h2
    exact ⟨hupdate w₂ (hv.trans (h2.remapping lb)), .of_forall fun _ _ => trivial⟩
  cases ok with
  | true => exact hend w₁ h1
  | false =>
    exact ends_bind.mpr ⟨ends_update, post_update.mpr
      (hend (w₁.unmapped lb) (h1.trans (w₁.unmapped_remapping lb)))⟩

theorem eraseLogicBlockOnce_ends (lb : Nat)
    (hfuel : w.eraseFuel nld ≤ fuel) : Ends (eraseLogicBlockOnce nld fuel lb) w := by
  have hremap : ∀ pb v, Quiet w v → Ends (do
      let again ← remapLogicBlock nld fuel lb pb
      pure (if again then none else some (-eio))) v := by
    intro pb v hv
    have hv := (hv.remapping lb).eraseFuel_le hfuel
    exact (remapLogicBlock_ends hes lb pb hv).bind fun _ _ => ends_pure
  simp only [eraseLogicBlockOnce, getNi, ends_bind, ends_read, post_read, true_and,
    ends_ite] at hremap ⊢
  refine ⟨fun _ => ends_pure, fun _ => ⟨fun _ => hremap _ w (.refl w), fun _ =>
    ⟨Total.ends _ w, (checkBadPhysBlock_phys _ w).mono ?_⟩⟩⟩
  intro bad w1 h1
  refine ⟨fun _ => ⟨ends_update, (setBlockState_quiet _ _ w1).mono ?_⟩, fun _ =>
    ⟨Total.ends _ w1, (eraseBlockAndCheck_phys _ w1).mono ?_⟩⟩
  · exact fun _ w2 h2 => hremap _ w2 (h1.quiet.trans h2)
  · intro success w2 h2
    refine ⟨fun _ => ends_pure, fun _ => ⟨Total.ends _ w2, (condemnBlock_quiet _ w2).mono ?_⟩⟩
    exact fun _ w3 h3 => hremap _ w3 ((h1.quiet.trans h2.quiet).trans h3)

/-- Each pass that asks for another one lowers the top of the spare blocks. -/
theorem eraseLogicBlock_ends (lb n : Nat) (w : World D)
    (hfuel : w.eraseFuel nld ≤ fuel) (hn : w.ni.mappingBlocksTopBa < n) :
    Ends (eraseLogicBlock nld fuel lb n) w := by
  induction n generalizing w with
  | zero => omega
  | succ n ih =>
    rw [eraseLogicBlock, ends_bind]
    refine ⟨eraseLogicBlockOnce_ends hes lb hfuel, (eraseLogicBlockOnce_pass lb w).mono ?_⟩
    intro r w1 hpass
    obtain ⟨hremapping, hlower⟩ := hpass.remapping hes
    cases r with
    | some ret => exact ends_pure
    | none =>
      have hless := hlower rfl
      exact ih w1 (hremapping.eraseFuel_le hfuel) (by omega)

/-! ## States of blocks along passes and runs -/

theorem MapOutcome.marked {ok : Bool} (h : MapOutcome nld fuel lb w ok w') : Marked w w' := by
  cases h with
  | none_left => exact .refl w
  | none_good _ hupdate =>
    have hupdated := updateInfoTable_updated hes w _ _ hupdate
    exact hupdated.mgmt.worn.marked.of_state fun _ => rfl
  | mapped => exact (Marked.refl w).of_state fun _ => rfl

omit hes in
theorem GivenUp.marked {pb : Nat} (h : GivenUp pb w w') : Marked w w' := by
  cases h with
  | before => exact .refl w
  | now _ _ hstate =>
    intro ba
    rw [hstate]
    split
    · exact .inr (Or.inl rfl)
    · exact Or.inl rfl

theorem ErasePass.marked {r : Option Int} (h : ErasePass nld fuel lb w r w') : Marked w w' := by
  cases h with
  | unmapped => exact .refl w
  | erased hmapped hcheck hstate herase =>
    have hphys := checkBadPhysBlock_phys _ _ _ _ hcheck
    have herase := eraseBlockAndCheck_phys _ _ _ _ herase
    exact ((Marked.refl w).of_state hphys.getBlockState).of_state herase.getBlockState
  | @givenUp v _ again hmapped hgiven hremap =>
    obtain ⟨w₁, w₂, houtcome⟩ := remapLogicBlock_outcome lb _ v again w' hremap
    obtain ⟨ok, hupdate⟩ := houtcome.update
    have hupdated := updateInfoTable_updated hes w₂ ok w' hupdate
    have hmap := hgiven.marked.trans (houtcome.map.marked hes)
    have hold : Marked w₁ w₂ := by
      have hmarked := houtcome.old.marked
      cases again with
      | true => exact hmarked
      | false => exact ((Marked.refl w₁).of_state fun _ => rfl).trans hmarked
    exact (hmap.trans hold).trans hupdated.mgmt.worn.marked

theorem Retries.marked (h : Retries nld fuel lb w w') : Marked w w' := by
  induction h with
  | refl => exact .refl w
  | pass _ hpass ih => exact ih.trans (hpass.marked hes)

theorem Marked.keptBySteps (fuel : Nat) (w : World D) :
    KeptBySteps nld fuel (Marked w) where
  phys := fun h h1 => h.of_state h1.getBlockState
  mark := fun ba _ hst h => (setBlockState_marked ba hst _).mono fun _ _ h1 => h.trans h1
  unmap := fun _ h => h
  update := fun _ h => (updateInfoTable_updated hes _).mono fun _ _ h1 =>
    h.trans h1.mgmt.worn.marked
  map := fun lb _ h => (mapBlock_outcome lb _).mono fun _ _ h1 => h.trans (h1.marked hes)

omit hes in
/-- Two bits: besides the three states there is the value 1, which nothing writes. -/
theorem getBlockState_cases (ni : Instance) (ba : Nat) :
    ni.getBlockState ba = BLOCK_ST_BAD ∨ ni.getBlockState ba = BLOCK_ST_NEED_REMAP ∨
      ni.getBlockState ba = BLOCK_ST_GOOD ∨ ni.getBlockState ba = 1#32 := by
  have hlt : (ni.getBlockState ba).toNat ≤ 3 := by
    exact Nat.and_le_right
  generalize ni.getBlockState ba = st at hlt
  have hcases : st.toNat = 0 ∨ st.toNat = 2 ∨ st.toNat = 3 ∨ st.toNat = 1 := by omega
  rcases hcases with h | h | h | h
  · exact .inl (BitVec.eq_of_toNat_eq h)
  · exact .inr (.inl (BitVec.eq_of_toNat_eq h))
  · exact .inr (.inr (.inl (BitVec.eq_of_toNat_eq h)))
  · exact .inr (.inr (.inr (BitVec.eq_of_toNat_eq h)))

/-! ## What an erasure comes to -/

/-- `nmbm_erase_logic_block` has ended with the erasure of the block that `lb` is mapped to. -/
structure ErasedLast (nld : Lower D) (fuel lb : Nat) (w w' : World D) : Prop where
  mapped : 0 ≤ (w'.ni.blockMapping lb).toInt
  last : ∃ w₁ v, Retries nld fuel lb w w₁ ∧
    checkBadPhysBlock nld (w'.ni.blockMapping lb).toNat w₁ = some (false, v) ∧
    eraseBlockAndCheck nld (w'.ni.blockMapping lb).toNat v = some (true, w')

theorem eraseLogicBlock_zero (lb n : Nat) (w : World D) :
    Post (eraseLogicBlock nld fuel lb n) (fun ret w' => ret = 0 →
      ErasedLast nld fuel lb w w' ∧
      w'.ni.getBlockState (w'.ni.blockMapping lb).toNat =
        w.ni.getBlockState (w'.ni.blockMapping lb).toNat ∧
      w'.ni.getBlockState (w'.ni.blockMapping lb).toNat ≠ BLOCK_ST_BAD ∧
      w'.ni.getBlockState (w'.ni.blockMapping lb).toNat ≠ BLOCK_ST_NEED_REMAP) w := by
  refine (eraseLogicBlock_passes lb n w).mono ?_
  rintro ret w' ⟨w₁, hretries, hpass⟩ rfl
  generalize hr : some (0 : Int) = r at hpass
  cases hpass with
  | unmapped => cases hr
  | @erased v _ hmapped hcheck hstate herase =>
    have hphys := (checkBadPhysBlock_phys _ _ _ _ hcheck)
    have hphys' := (eraseBlockAndCheck_phys _ _ _ _ herase)
    have hmap : w'.ni.blockMapping = w₁.ni.blockMapping :=
      (hphys.quiet.trans hphys'.quiet).frame.blockMapping
    have hsame : w'.ni.getBlockState (w₁.ni.blockMapping lb).toNat =
        w₁.ni.getBlockState (w₁.ni.blockMapping lb).toNat :=
      (hphys'.getBlockState _).trans (hphys.getBlockState _)
    rw [hmap, hsame]
    refine ⟨⟨by rw [hmap]; exact hmapped, w₁, v, hretries, ?_⟩, ?_, hstate.1, hstate.2⟩
    · rw [hmap]
      exact ⟨hcheck, herase⟩
    · rcases hretries.marked hes (w₁.ni.blockMapping lb).toNat with hkept | hbad | hremap
      · exact hkept
      · exact absurd hbad hstate.1
      · exact absurd hremap hstate.2
  | @givenUp _ _ again =>
    cases again with
    | true => cases hr
    | false => cases hr

end

theorem attach_erasesize {checked : Lower D} {dev : D} {ret : Int}
    (hattach : attach nld fuel dev = some (checked, ret, w)) : 0 < checked.erasesize := by
  unfold attach at hattach
  split at hattach
  · cases hattach
  · rename_i nld' hcheck
    rcases Option.map_eq_some_iff.mp hattach with ⟨⟨ret', w'⟩, -, heq⟩
    rcases heq with ⟨rfl, -⟩
    exact (checkLowerMembers_pos hcheck).1

/-- After any calls on an attached device, erasing a logic block ends, changes the image of no
other logic block, and returns 0 only when the last thing done was to erase the block that it is
mapped to.  That block is good, unless the tables found when the device was attached gave it the
value 1, which stands for no state. -/
theorem eraseLogicBlock_confined {checked : Lower D} {dev : D} {w₀ : World D}
    (hattach : attach nld fuel dev = some (checked, 0, w₀)) (hruns : Runs checked w₀ w) (lb : Nat) :
    (∃ n, ∀ fuel ≥ n, Ends (eraseLogicBlock checked fuel lb fuel) w) ∧
    ∀ fuel ret w', eraseLogicBlock checked fuel lb fuel w = some (ret, w') →
      (∀ lb' ≠ lb, w'.ni.blockMapping lb' = w.ni.blockMapping lb') ∧
      (ret = 0 → ErasedLast checked fuel lb w w' ∧
        (w'.ni.getBlockState (w'.ni.blockMapping lb).toNat = BLOCK_ST_GOOD ∨
          w'.ni.getBlockState (w'.ni.blockMapping lb).toNat = 1#32 ∧
          w₀.ni.getBlockState (w'.ni.blockMapping lb).toNat = 1#32)) := by
  have hes := attach_erasesize hattach
  refine ⟨⟨max (w.eraseFuel checked) (w.ni.mappingBlocksTopBa + 1), fun fuel hfuel => ?_⟩, ?_⟩
  · exact eraseLogicBlock_ends hes lb fuel w (by omega) (by omega)
  intro fuel ret w' hrun
  obtain ⟨w₁, hretries, hpass⟩ := eraseLogicBlock_passes lb fuel w ret w' hrun
  refine ⟨((hretries.remapping hes).trans (hpass.remapping hes).1).others, fun hret => ?_⟩
  obtain ⟨hlast, hsame, hbad, hneed⟩ := eraseLogicBlock_zero hes lb fuel w ret w' hrun hret
  refine ⟨hlast, ?_⟩
  generalize (w'.ni.blockMapping lb).toNat = pb at hsame hbad hneed ⊢
  have hkept : w'.ni.getBlockState pb = w₀.ni.getBlockState pb := by
    have hmarked := hruns.kept (fun fuel => Marked.keptBySteps hes fuel w₀) (Marked.refl w₀) pb
    rw [← hsame] at hmarked
    rcases hmarked with h | h | h
    · exact h
    · exact absurd h hbad
    · exact absurd h hneed
  rcases getBlockState_cases w'.ni pb with h | h | h | h
  · exact absurd h hbad
  · exact absurd h hneed
  · exact .inl h
  · exact .inr ⟨h, hkept.symm.trans h⟩

theorem eraseLogicBlock_confined_smallChip :
    ∃ checked w, attach smallChip 30 (Flash.new [3] 5) = some (checked, 0, w) ∧
      ∃ fuel, Ends (eraseLogicBlock checked fuel 5 fuel) w := by
  rcases attach_plain with ⟨checked, w, hattach, -⟩
  obtain ⟨n, hends⟩ := (eraseLogicBlock_confined hattach .refl 5).1
  exact ⟨checked, w, hattach, n, hends n (le_refl n)⟩

theorem injectiveOn_ofNat : InjectiveOn (· < 6) (BitVec.ofNat 32) := by
  intro lb₁ lb₂ h₁ h₂ _ heq
  have hval := congrArg BitVec.toNat heq
  simp only [BitVec.toNat_ofNat] at hval
  omega

def strangeChip : Option Flash := do
  let (_, _, w) ← attach smallChip 30 (Flash.new [] 5)
  let (_, w) ← updateInfoTable smallChip 30
    { w with ni := { w.ni with
      blockState := putBlockState w.ni.blockState 2 1, blockStateChanged := 1 } }
  pure w.dev

/-- Such a block is erased like a good one. -/
theorem erase_of_strange_state :
    ∃ dev checked w w', strangeChip = some dev ∧ attach smallChip 30 dev = some (checked, 0, w) ∧
      w.ni.isProtected = false ∧ InjectiveOn (· < w.ni.dataBlockCount) w.ni.blockMapping ∧
      eraseLogicBlock checked 30 2 30 w = some (0, w') ∧
      w'.ni.getBlockState (w'.ni.blockMapping 2).toNat ≠ BLOCK_ST_GOOD := by
  have hrun : ∃ dev ∈ strangeChip, ∃ r ∈ attach smallChip 30 dev,
      ∃ e ∈ eraseLogicBlock r.1 30 2 30 r.2.2, r.2.1 = 0 ∧ e.1 = 0 ∧
        r.2.2.ni.isProtected = false ∧ r.2.2.ni.dataBlockCount = 6 ∧
        (∀ lb < 6, r.2.2.ni.blockMapping lb = BitVec.ofNat 32 lb) ∧
        e.2.ni.blockMapping 2 = 2#32 ∧ e.2.ni.getBlockState 2 = 1#32 := by decide +kernel
  obtain ⟨dev, hdev, ⟨checked, _, w⟩, hattach, ⟨_, w'⟩, herase, rfl, rfl, hprot, hcount, hid,
    himage, hstate⟩ := hrun
  refine ⟨dev, checked, w, w', hdev, hattach, hprot, ?_, herase, ?_⟩
  · intro lb₁ lb₂ h₁ h₂ hpos heq
    rw [hcount] at h₁ h₂
    rw [hid lb₁ h₁] at hpos heq
    exact injectiveOn_ofNat _ _ h₁ h₂ hpos (heq.trans (hid lb₂ h₂))
  · have hpb : (w'.ni.blockMapping 2).toNat = 2 := by rw [himage]; rfl
    rw [hpb, hstate]
    decide

end OpenWrt.Nmbm
