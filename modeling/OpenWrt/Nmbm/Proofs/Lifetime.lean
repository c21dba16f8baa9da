import OpenWrt.Nmbm.Proofs.Unmapped

/-!
# The lifetime of an instance

Over any calls a block that has gone bad is never good again, and an instance that takes no
writes leaves the chip as it is.
-/

namespace OpenWrt.Nmbm

open Lib Lib.Prog

variable {D : Type} {nld : Lower D} {fuel : Nat} {w w' : World D}

/-! ## Bad blocks -/

/-- A block that is not good is never taken for good again. -/
theorem bad_for_ever (hes : 0 < nld.erasesize) (hruns : Runs nld w w') (ba : Nat)
    (hbad : w.ni.getBlockState ba ≠ BLOCK_ST_GOOD) : w'.ni.getBlockState ba ≠ BLOCK_ST_GOOD := by
  rcases hruns.kept (fun fuel => Marked.keptBySteps hes fuel w) (.refl w) ba
    with hsame | hmark | hmark
  · rwa [hsame]
  · rw [hmark]
    decide
  · rw [hmark]
    decide

theorem bad_for_ever_smallChip :
    ∃ w, Runs smallChip (fullWorld BLOCK_ST_BAD) w ∧ w.dev.erases 0 = 1 ∧
      w.ni.getBlockState 2 ≠ BLOCK_ST_GOOD := by
  have herase : ∃ r ∈ run smallChip 30 (.erase 0 256) (fullWorld BLOCK_ST_BAD),
      r.2.dev.erases 0 = 1 := by decide +kernel
  obtain ⟨⟨ret, w⟩, hrun, herased⟩ := herase
  have hruns := Runs.refl.call hrun
  exact ⟨w, hruns, herased, bad_for_ever (by decide) hruns 2 (by decide)⟩

/-! ## Instances that take no writes -/

theorem run_frozen (hforced : w.ni.forcedReadOnly nld) (c : Call) :
    Post (run nld fuel c) (fun _ w' => Phys nld 0 0 w w') w := by
  cases c with
  | erase addr size =>
    simp only [run, eraseBlockRange, getNi, post_bind, post_read, post_ite, post_pure]
    exact ⟨fun _ => .refl w, fun hfree => absurd hforced hfree⟩
  | readPage addr buf oob mode =>
    simp only [run, post_bind, post_pure]
    exact readSinglePage_phys addr buf oob mode w
  | read addr size data mode =>
    simp only [run, post_bind, post_pure]
    exact readRange_phys addr size data mode w
  | writePage addr data oob mode =>
    simp only [run, writeSinglePage, getNi, post_bind, post_read, post_ite, post_pure]
    exact ⟨fun _ => .refl w, fun hfree => absurd hforced hfree⟩
  | write addr size data mode =>
    simp only [run, writeRange, getNi, post_bind, post_read, post_ite, post_pure]
    exact ⟨fun _ => .refl w, fun hfree => absurd hforced hfree⟩
  | checkBad addr =>
    simp only [run, checkBadBlock, getNi, post_bind, post_read, post_ite, post_pure]
    exact ⟨fun _ => .refl w, fun _ => .refl w⟩
  | markBad addr =>
    simp only [run, markBadBlock, getNi, post_bind, post_read, post_ite, post_pure]
    exact ⟨fun _ => .refl w, fun hfree => absurd hforced hfree⟩
  | detach =>
    simp only [run, detach, post_bind, post_ite, post_pure]
    refine ⟨fun _ => .refl w, fun hrw ok w' hupdate => ?_⟩
    have hprot : w.ni.isProtected := by simpa [Instance.forcedReadOnly, hrw] using hforced
    rw [updateInfoTable_of_protected hprot] at hupdate
    cases hupdate
    exact .refl w

/-- Whatever is called, a read-only device or a protected instance is only read. -/
theorem forcedReadOnly_frozen (hforced : w.ni.forcedReadOnly nld) (hruns : Runs nld w w') :
    w'.ni = { w.ni with pageCache := w'.ni.pageCache } ∧
      ∀ mem, Lawful nld mem → mem w'.dev = mem w.dev := by
  have hphys : Phys nld 0 0 w w' := by
    induction hruns with
    | refl => exact .refl w
    | call _ hrun ih => exact ih.trans (run_frozen (by rw [ih.ni]; exact hforced) _ _ _ hrun)
  exact ⟨hphys.ni, fun mem hmem => funext fun a => hphys.mem mem hmem a (.inr (Nat.zero_le a))⟩

def protectedWorld : World Flash :=
  { fullWorld BLOCK_ST_GOOD with ni := { fullInstance BLOCK_ST_GOOD with isProtected := true } }

theorem forcedReadOnly_frozen_smallChip :
    ∃ w, Runs smallChip protectedWorld w ∧
      ∀ mem, Lawful smallChip mem → mem w.dev = mem protectedWorld.dev := by
  have hrun : run smallChip 30 (.erase 0 256) protectedWorld = some (-erofs, protectedWorld) := rfl
  exact ⟨_, Runs.refl.call hrun, (forcedReadOnly_frozen rfl (Runs.refl.call hrun)).2⟩

end OpenWrt.Nmbm
