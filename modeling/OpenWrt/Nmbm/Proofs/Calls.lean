import OpenWrt.Nmbm.Proofs.Borders

/-!
# What calls keep

Every call is made of a few steps: operations on the chip, marks in the state table, logic
blocks that lose their image, updates of the tables and new images.  A property that each of
these keeps is kept by every call and by every run of calls; the invariant of the instance is
one.  Reads change nothing but `page_cache`; a read-only or protected device refuses the other
calls before they do anything.
-/

namespace OpenWrt.Nmbm

open Lib Lib.Prog

variable {D : Type} {nld : Lower D} {fuel : Nat} {w w' : World D} {I : World D → Prop}

def World.unmapped (w : World D) (lb : Nat) : World D :=
  { w with ni :=
    { w.ni with blockMapping := Function.update w.ni.blockMapping lb (BitVec.allOnes 32) } }

/-- `I` is kept by the steps that calls are made of. -/
structure KeptBySteps (nld : Lower D) (fuel : Nat) (I : World D → Prop) : Prop where
  phys : ∀ {lo hi : Nat} {w w' : World D}, I w → Phys nld lo hi w w' → I w'
  mark : ∀ {w : World D} (ba : Nat) {st : BitVec 32},
    st = BLOCK_ST_BAD ∨ st = BLOCK_ST_NEED_REMAP → I w →
      Post (setBlockState ba st) (fun _ w' => I w') w
  unmap : ∀ {w : World D} (lb : Nat), I w → I (w.unmapped lb)
  update : ∀ {w : World D}, nld.readOnly = false → I w →
    Post (updateInfoTable nld fuel) (fun _ w' => I w') w
  map : ∀ {w : World D} (lb : Nat), nld.readOnly = false → I w →
    Post (mapBlock nld fuel lb) (fun _ w' => I w') w

/-! ## Pages -/

theorem readLogicPage_phys (addr : Nat) (buf oob : Bool) (mode : OobMode) (w : World D) :
    Post (readLogicPage nld addr buf oob mode) (fun _ w' => Phys nld 0 0 w w') w := by
  simp only [readLogicPage, getNi, post_bind, post_read]
  split
  · exact post_pure.mpr (.refl w)
  · simp only [post_bind, post_pure]
    exact readPhysPage_phys _ _ _ _ w

theorem readSinglePage_phys (addr : Nat) (buf oob : Bool) (mode : OobMode) (w : World D) :
    Post (readSinglePage nld addr buf oob mode) (fun _ w' => Phys nld 0 0 w w') w := by
  simp only [readSinglePage, getNi, post_bind, post_read, post_ite, post_pure]
  exact ⟨fun _ => .refl w, fun _ => ⟨fun _ => .refl w, fun _ =>
    readLogicPage_phys addr buf oob mode w⟩⟩

theorem stageRead_phys (chunksize : Nat) (page : Option PageRead) (w : World D) :
    Post (stageRead nld chunksize page) (fun _ w' => Phys nld 0 0 w w') w := by
  cases page with
  | none => exact post_pure.mpr (.refl w)
  | some r =>
    simp only [stageRead, modifyNi, getNi, post_ite, post_pure, post_bind, post_update, post_read]
    exact ⟨fun _ => .refl w, fun _ => (Phys.refl w).setCache _⟩

theorem readRangeLoop_phys (mode : OobMode) (n off sizeremain : Nat) (s : ReadState)
    (w : World D) :
    Post (readRangeLoop nld mode n off sizeremain s) (fun _ w' => Phys nld 0 0 w w') w := by
  induction n generalizing off sizeremain s w with
  | zero => exact post_pure.mpr (.refl w)
  | succ n ih =>
    simp only [readRangeLoop, post_ite, post_pure, post_bind]
    refine ⟨fun _ => .refl w, fun _ => ?_⟩
    refine (readLogicPage_phys _ _ _ _ w).mono ?_
    rintro ⟨ret, page⟩ w1 h1
    refine (stageRead_phys _ page w1).mono ?_
    intro _ w2 h2
    have h12 := h1.trans h2
    exact ⟨fun _ => h12, fun _ => (ih _ _ _ w2).mono fun _ _ h => h12.trans h⟩

theorem readRange_phys (addr size : Nat) (data : Buffer) (mode : OobMode) (w : World D) :
    Post (readRange nld addr size data mode) (fun _ w' => Phys nld 0 0 w w') w := by
  simp only [readRange, getNi, post_bind, post_read, post_ite, post_pure]
  refine ⟨fun _ => .refl w, fun _ => ⟨fun _ => .refl w, fun _ => ⟨fun _ => .refl w, fun _ =>
    ⟨fun _ => .refl w, fun _ => ?_⟩⟩⟩⟩
  refine (readRangeLoop_phys mode size addr size _ w).mono ?_
  intro s w1 h1
  exact ⟨fun _ => h1, fun _ => ⟨fun _ => h1, fun _ => h1⟩⟩

theorem stageWrite_phys (data : Buffer) (ptr leading chunksize : Nat) (w : World D) :
    Post (stageWrite nld data ptr leading chunksize) (fun _ w' => Phys nld 0 0 w w') w := by
  simp only [stageWrite, modifyNi, getNi, post_ite, post_pure, post_bind, post_update, post_read]
  exact ⟨fun _ => .refl w, fun _ => (Phys.refl w).setCache _⟩

namespace KeptBySteps

variable (h : KeptBySteps nld fuel I)
include h

/-! ## Erasing -/

theorem condemn (ba : Nat) (hw : I w) : Post (condemnBlock nld ba) (fun _ w' => I w') w := by
  rw [condemnBlock, post_bind]
  refine (markPhysBadBlock_phys ba w).mono ?_
  exact fun _ _ h1 => h.mark ba (.inl rfl) (h.phys hw h1)

section Writable

variable (hrw : nld.readOnly = false)
include hrw

theorem remapLogicBlock (lb pb : Nat) (hw : I w) :
    Post (remapLogicBlock nld fuel lb pb) (fun _ w' => I w') w := by
  have hmark : ∀ {w1}, I w1 → Post (setBlockState pb BLOCK_ST_BAD)
      (fun _ w2 => Post (updateInfoTable nld fuel) (fun _ w' => I w') w2) w1 :=
    fun h1 => (h.mark pb (.inl rfl) h1).mono fun _ _ h2 => h.update hrw h2
  rw [OpenWrt.Nmbm.remapLogicBlock, post_bind]
  refine (h.map lb hrw hw).mono ?_
  intro ok w1 h1
  have hunmapped := h.unmap lb h1
  simp only [modifyNi, getNi, post_ite, post_pure, post_bind, post_update, post_read]
  exact ⟨fun _ => ⟨fun _ => hmark h1, fun _ => h.update hrw h1⟩,
    fun _ => ⟨fun _ => hmark hunmapped, fun _ => h.update hrw hunmapped⟩⟩

theorem eraseLogicBlockOnce (lb : Nat) (hw : I w) :
    Post (eraseLogicBlockOnce nld fuel lb) (fun _ w' => I w') w := by
  simp only [OpenWrt.Nmbm.eraseLogicBlockOnce, getNi, post_bind, post_read, post_ite, post_pure]
  refine ⟨fun _ => hw, fun _ => ⟨fun _ => h.remapLogicBlock hrw lb _ hw, fun _ => ?_⟩⟩
  refine (checkBadPhysBlock_phys _ w).mono ?_
  intro bad w1 h1
  have hw1 := h.phys hw h1
  refine ⟨fun _ => ?_, fun _ => ?_⟩
  · exact (h.mark _ (.inl rfl) hw1).mono fun _ _ h2 => h.remapLogicBlock hrw lb _ h2
  · refine (eraseBlockAndCheck_phys _ w1).mono ?_
    intro success w2 h2
    have hw2 := h.phys hw1 h2
    refine ⟨fun _ => hw2, fun _ => ?_⟩
    exact (h.condemn _ hw2).mono fun _ _ h3 => h.remapLogicBlock hrw lb _ h3

theorem eraseLogicBlock (lb n : Nat) (hw : I w) :
    Post (eraseLogicBlock nld fuel lb n) (fun _ w' => I w') w := by
  induction n generalizing w with
  | zero => exact post_diverge.mpr trivial
  | succ n ih =>
    rw [OpenWrt.Nmbm.eraseLogicBlock, post_bind]
    refine (h.eraseLogicBlockOnce hrw lb hw).mono ?_
    intro r w1 h1
    cases r with
    | some ret => exact post_pure.mpr h1
    | none => exact ih h1

theorem eraseBlocks (n ba : Nat) (hw : I w) :
    Post (eraseBlocks nld fuel n ba) (fun _ w' => I w') w := by
  induction n generalizing ba w with
  | zero => exact post_pure.mpr hw
  | succ n ih =>
    rw [OpenWrt.Nmbm.eraseBlocks, post_bind]
    refine (h.eraseLogicBlock hrw ba fuel hw).mono ?_
    intro ret w1 h1
    simp only [post_ite, post_pure]
    exact ⟨fun _ => h1, fun _ => ih (ba + 1) h1⟩

/-! ## Writing -/

theorem writeLogicPage (addr : Nat) (data oob : Option Buffer) (mode : OobMode) (hw : I w) :
    Post (writeLogicPage nld fuel addr data oob mode) (fun _ w' => I w') w := by
  simp only [OpenWrt.Nmbm.writeLogicPage, getNi, post_bind, post_read]
  split
  · exact post_pure.mpr hw
  rw [post_bind]
  refine (writePhysPage_phys _ _ _ _ w).mono ?_
  intro success w1 h1
  have hw1 := h.phys hw h1
  simp only [post_ite, post_pure, post_bind]
  refine ⟨fun _ => hw1, fun _ => ?_⟩
  exact (h.mark _ (.inr rfl) hw1).mono fun _ _ h2 => h.update hrw h2

theorem writeRangeLoop (data : Buffer) (mode : OobMode) (n off ptr sizeremain : Nat) (hw : I w) :
    Post (writeRangeLoop nld fuel data mode n off ptr sizeremain) (fun _ w' => I w') w := by
  induction n generalizing off ptr sizeremain w with
  | zero => exact post_pure.mpr hw
  | succ n ih =>
    simp only [OpenWrt.Nmbm.writeRangeLoop, post_ite, post_pure, post_bind]
    refine ⟨fun _ => hw, fun _ => ?_⟩
    refine (stageWrite_phys data ptr _ _ w).mono ?_
    intro page w1 h1
    refine (h.writeLogicPage hrw _ _ _ mode (h.phys hw h1)).mono ?_
    intro ret w2 h2
    exact ⟨fun _ => h2, fun _ => ih _ _ _ h2⟩

end Writable

end KeptBySteps

/-! ## Runs -/

theorem readOnly_of_not_forced {ni : Instance} (h : ¬ni.forcedReadOnly nld) :
    nld.readOnly = false := by
  simp only [Instance.forcedReadOnly, Bool.or_eq_true, not_or, Bool.not_eq_true] at h
  exact h.2

theorem KeptBySteps.run (h : KeptBySteps nld fuel I) (c : Call) (hw : I w) :
    Post (run nld fuel c) (fun _ w' => I w') w := by
  cases c with
  | erase addr size =>
    simp only [OpenWrt.Nmbm.run, eraseBlockRange, getNi, post_bind, post_read, post_ite, post_pure]
    exact ⟨fun _ => hw, fun hforced => ⟨fun _ => hw, fun _ => ⟨fun _ => hw, fun _ =>
      ⟨fun _ => hw, fun _ => h.eraseBlocks (readOnly_of_not_forced hforced) _ _ hw⟩⟩⟩⟩
  | readPage addr buf oob mode =>
    simp only [OpenWrt.Nmbm.run, post_bind, post_pure]
    exact (readSinglePage_phys addr buf oob mode w).mono fun _ _ h1 => h.phys hw h1
  | read addr size data mode =>
    simp only [OpenWrt.Nmbm.run, post_bind, post_pure]
    exact (readRange_phys addr size data mode w).mono fun _ _ h1 => h.phys hw h1
  | writePage addr data oob mode =>
    simp only [OpenWrt.Nmbm.run, writeSinglePage, getNi, post_bind, post_read, post_ite, post_pure]
    exact ⟨fun _ => hw, fun hforced => ⟨fun _ => hw, fun _ =>
      h.writeLogicPage (readOnly_of_not_forced hforced) addr data oob mode hw⟩⟩
  | write addr size data mode =>
    simp only [OpenWrt.Nmbm.run, writeRange, getNi, post_bind, post_read, post_ite, post_pure]
    exact ⟨fun _ => hw, fun hforced => ⟨fun _ => hw, fun _ => ⟨fun _ => hw, fun _ =>
      ⟨fun _ => hw, fun _ =>
        h.writeRangeLoop (readOnly_of_not_forced hforced) data mode _ _ _ _ hw⟩⟩⟩⟩
  | checkBad addr =>
    simp only [OpenWrt.Nmbm.run, checkBadBlock, getNi, post_bind, post_read, post_ite, post_pure]
    exact ⟨fun _ => hw, fun _ => hw⟩
  | markBad addr =>
    simp only [OpenWrt.Nmbm.run, markBadBlock, modifyNi, getNi, post_bind, post_read, post_ite,
      post_pure, post_update]
    refine ⟨fun _ => hw, fun hforced => ⟨fun _ => hw, fun _ => ⟨fun _ => hw, fun _ => ?_⟩⟩⟩
    refine (h.condemn _ (h.unmap (nld.addr2ba addr) hw)).mono ?_
    exact fun _ _ h1 => h.update (readOnly_of_not_forced hforced) h1
  | detach =>
    simp only [OpenWrt.Nmbm.run, detach, post_bind, post_ite, post_pure]
    exact ⟨fun _ => hw, fun hrw => h.update (by simpa using hrw) hw⟩

theorem Runs.kept (h : ∀ fuel, KeptBySteps nld fuel I) (hw : I w) (hruns : Runs nld w w') :
    I w' := by
  induction hruns with
  | refl => exact hw
  | call _ hrun ih => exact (h _).run _ ih _ _ hrun

/-! ## The invariant -/

theorem Inv.keptBySteps (hes : 0 < nld.erasesize) (fuel : Nat) :
    KeptBySteps nld fuel (Inv nld) where
  phys := fun h h1 => h.quiet h1.quiet
  mark := fun ba _ _ h => (setBlockState_quiet ba _ _).mono fun _ _ h1 => h.quiet h1
  unmap := fun lb h => h.unmap lb
  update := fun hrw h => (updateInfoTable_inv hes hrw fuel _ h).mono fun _ _ h1 => h1.1
  map := fun lb hrw h => (mapBlock_spec hes hrw fuel lb _ h).mono fun _ _ h1 => h1.inv

theorem runs_inv (hes : 0 < nld.erasesize) (h : Inv nld w) (hruns : Runs nld w w') : Inv nld w' :=
  hruns.kept (Inv.keptBySteps hes) h

end OpenWrt.Nmbm
