import OpenWrt.Mtdsplit.Fit
import OpenWrt.Mtdsplit.Proofs.Search

/-!
# Splits of FIT images

The kernel partition goes to the end of the block behind the image's last full block, but the
search for a root file system starts at the end of the image.  From there it goes to the end of
the kernel partition, so the partitions overlap only if it ends at once.
-/

namespace OpenWrt.Mtdsplit.Fit

open Lib Nat

variable {c : Machine} {m : Mtd} {hdr : Buffer} {memory : Bool} {offset z f r : Nat} {p : Parts}

/-! ## Rounding -/

theorem rounddownToEb_eq {sz : Nat} (h : sz < 4294967296) :
    rounddownToEb m sz = sz / m.erasesize * m.erasesize := by
  rw [rounddownToEb]
  split
  · rename_i hmod
    exact (Nat.div_mul_cancel (Nat.dvd_of_mod_eq_zero hmod)).symm
  · have hdiv := div_le_self sz m.erasesize
    have hmul := div_mul_le_self sz m.erasesize
    rw [mod_eq_of_lt (hdiv.trans_lt h), mod_eq_of_lt (hmul.trans_lt h)]

theorem lt_roundup {n : Nat} (sz : Nat) (hn : n ≠ 0) : sz < sz / n * n + n := by
  have hsplit := div_add_mod' sz n
  have hmod := mod_lt sz (pos_of_ne_zero hn)
  omega

theorem totalsize_lt (m : Mtd) (offset : Nat) : totalsize m offset < 4294967296 := word_lt ..

theorem kernelSize_eq (m : Mtd) (offset : Nat) :
    kernelSize m (totalsize m offset) =
      totalsize m offset / m.erasesize * m.erasesize + m.erasesize := by
  rw [kernelSize, rounddownToEb_eq (totalsize_lt m offset)]

theorem totalsize_lt_kernelSize (hes : m.erasesize ≠ 0) (offset : Nat) :
    totalsize m offset < kernelSize m (totalsize m offset) := by
  rw [kernelSize_eq]
  exact lt_roundup _ hes

theorem nextEb_eq (hsmall : m.size + m.erasesize ≤ 4294967296) (hend : offset < m.size) :
    nextEb c.w m offset = offset / m.erasesize * m.erasesize + m.erasesize := by
  have hvalues := values_large c.w
  have hmul := div_mul_le_self offset m.erasesize
  rw [nextEb, rounddownToEb_eq (by omega), mod_eq_of_lt (by omega)]

/-! ## The result -/

theorem more_iff : more c.w m offset ↔ (offset + hdrLen) % c.w.values ≤ m.size :=
  decide_eq_true_iff

theorem not_more_iff : more c.w m offset = false ↔ m.size < (offset + hdrLen) % c.w.values :=
  decide_eq_false_iff_not.trans not_le

theorem lookFit_found : lookFit m offset = .found f ↔
    m.readError offset hdrLen = none ∧ word true m.flash offset = OF_DT_HEADER ∧
      f = totalsize m offset := by
  rw [lookFit]
  cases hread : m.readError offset hdrLen with
  | some err => simp
  | none =>
    by_cases hmagic : word true m.flash offset = OF_DT_HEADER <;> simp [hmagic, eq_comm]

theorem lookFit_skip : lookFit m offset = .skip f ↔
    m.readError offset hdrLen = none ∧ word true m.flash offset ≠ OF_DT_HEADER ∧
      f = totalsize m offset := by
  rw [lookFit]
  cases hread : m.readError offset hdrLen with
  | some err => simp
  | none =>
    by_cases hmagic : word true m.flash offset = OF_DT_HEADER <;> simp [hmagic, eq_comm]

theorem searchEnds_iff :
    SearchEnds c.w m (more c.w m) (lookFit m) (word true hdr 4) z f ∧ f ≠ 0 ↔
      Found c m hdr z ∧ f = totalsize m z ∨ RunsOff c m hdr z f := by
  constructor
  · rintro ⟨⟨hvisits, hmore, hfound⟩ | ⟨hmore, hstart | ⟨y, hvisits, hy, hskip, rfl⟩⟩, hf⟩
    · obtain ⟨hread, hmagic, rfl⟩ := lookFit_found.mp hfound
      exact .inl ⟨⟨hvisits, more_iff.mp hmore, hread, hmagic, hf⟩, rfl⟩
    · cases hstart
      exact .inr ⟨not_more_iff.mp hmore, hf, .inl ⟨rfl, rfl⟩⟩
    · obtain ⟨hread, hmagic, rfl⟩ := lookFit_skip.mp hskip
      exact .inr ⟨not_more_iff.mp hmore, hf, .inr ⟨y, hvisits, more_iff.mp hy, hread, hmagic,
        rfl, rfl⟩⟩
  · rintro (⟨⟨hvisits, hmore, hread, hmagic, hf⟩, rfl⟩ | ⟨hmore, hf, hlast⟩)
    · exact ⟨.inl ⟨hvisits, more_iff.mpr hmore, lookFit_found.mpr ⟨hread, hmagic, rfl⟩⟩, hf⟩
    · refine ⟨.inr ⟨not_more_iff.mpr hmore, ?_⟩, hf⟩
      rcases hlast with ⟨rfl, rfl⟩ | ⟨y, hvisits, hy, hread, hmagic, rfl, rfl⟩
      · exact .inl rfl
      · exact .inr ⟨y, hvisits, more_iff.mpr hy, lookFit_skip.mpr ⟨hread, hmagic, rfl⟩, rfl⟩

theorem makeParts_ok {type : PartType} :
    makeParts c m memory z f (r, type) = some (.ok p) ↔
      memory ∧ m.erasesize ≠ 0 ∧ p = splitParts c m z f r := by
  rw [makeParts]
  cases memory with
  | false => simp
  | true =>
    by_cases hes : m.erasesize = 0
    · simp [hes]
    · simp [eq_comm]

theorem splitFit_grows (c : Machine) (m : Mtd) (memory : Bool) (a : Nat × Nat) :
    Grows fun n => splitFit c m memory n a := by
  obtain ⟨z, f⟩ := a
  by_cases hf : f = 0
  · simp only [splitFit, if_pos hf]
    exact grows_const _
  · simp only [splitFit, if_neg hf]
    exact (findRootfsFrom_grows c m _ _).andThen fun _ => grows_const _

theorem yields_splitFit :
    Yields (fun n => splitFit c m memory n (z, f)) (.ok p) ↔
      f ≠ 0 ∧ memory ∧ m.erasesize ≠ 0 ∧
        ∃ r, Behind c m z f r ∧ p = splitParts c m z f r := by
  by_cases hf : f = 0
  · simp [splitFit, hf, yields_const]
  simp only [splitFit, if_neg hf]
  rw [yields_andThen_ok (findRootfsFrom_grows c m _ _) fun _ => grows_const _]
  simp only [yields_const]
  constructor
  · rintro ⟨⟨r, type⟩, hfound, hmake⟩
    obtain ⟨hmemory, hes, rfl⟩ := makeParts_ok.mp hmake
    exact ⟨hf, hmemory, hes, r, (yields_findRootfsFrom.mp hfound).1, rfl⟩
  · rintro ⟨-, hmemory, hes, r, hfirst, rfl⟩
    obtain ⟨type, hcheck⟩ := isRootfs_iff.mp hfirst.2.2
    exact ⟨(r, type), yields_findRootfsFrom.mpr ⟨hfirst, hcheck⟩,
      makeParts_ok.mpr ⟨hmemory, hes, rfl⟩⟩

theorem parses_iff :
    Parses c m hdr memory p ↔ memory ∧ m.erasesize ≠ 0 ∧
      ∃ z f r, (Found c m hdr z ∧ f = totalsize m z ∨ RunsOff c m hdr z f) ∧ Behind c m z f r ∧
        p = splitParts c m z f r := by
  change Yields (fun n => andThen (searchLoop c.w m (more c.w m) (lookFit m) (word true hdr 4) n)
    fun a => splitFit c m memory n a) (.ok p) ↔ _
  rw [yields_andThen_ok (searchLoop_grows c.w m (more c.w m) (lookFit m) (word true hdr 4))
    (splitFit_grows c m memory)]
  constructor
  · rintro ⟨⟨z, f⟩, hloop, hsplit⟩
    obtain ⟨hf, hmemory, hes, r, hfirst, rfl⟩ := yields_splitFit.mp hsplit
    exact ⟨hmemory, hes, z, f, r, searchEnds_iff.mp ⟨yields_searchLoop.mp hloop, hf⟩, hfirst, rfl⟩
  · rintro ⟨hmemory, hes, z, f, r, hends, hfirst, rfl⟩
    obtain ⟨hends, hf⟩ := searchEnds_iff.mpr hends
    exact ⟨(z, f), yields_searchLoop.mpr hends,
      yields_splitFit.mpr ⟨hf, hmemory, hes, r, hfirst, rfl⟩⟩

/-! ## Soundness -/

theorem rootfs_stop (h : r < m.size % c.w.values) :
    r + (m.size - r) % c.w.values = m.size % c.w.values := by
  have hsplit := div_add_mod m.size c.w.values
  have hlt := mod_lt m.size (values_pos c.w)
  have hrest : m.size - r = m.size % c.w.values - r + c.w.values * (m.size / c.w.values) := by
    omega
  rw [hrest, add_mul_mod_self_left, mod_eq_of_lt (by omega)]
  omega

theorem sound_iff_of_found (hes : m.erasesize ≠ 0) (hfound : Found c m hdr z)
    (hfirst : Behind c m z (totalsize m z) r) :
    Sound m (splitParts c m z (totalsize m z) r) ↔
      z + kernelSize m (totalsize m z) ≤ r ∨
        m.size % c.w.values ≤ z ∧ z + kernelSize m (totalsize m z) ≤ m.size := by
  obtain ⟨-, -, hread, hmagic, -⟩ := hfound
  obtain ⟨-, hr, -⟩ := hfirst
  have hstop := rootfs_stop hr
  have hlimit := mod_le m.size c.w.values
  constructor
  · rintro ⟨-, -, hinside, -, happart⟩
    rcases happart with h | h
    · exact .inl h
    · exact .inr ⟨le_trans (le_of_eq hstop.symm) h, hinside⟩
  · intro h
    refine ⟨⟨readError_none hread, hmagic⟩, le_of_lt (totalsize_lt_kernelSize hes z), ?_, ?_, ?_⟩
    · show z + kernelSize m (totalsize m z) ≤ m.size
      omega
    · show r + (m.size - r) % c.w.values ≤ m.size
      omega
    · rcases h with h | h
      · exact .inl h
      · exact .inr (le_trans (le_of_eq hstop) h.1)

theorem not_sound_of_runsOff (h : RunsOff c m hdr z f) : ¬Sound m (splitParts c m z f r) := by
  intro hsound
  have hmod := mod_le (z + hdrLen) c.w.values
  have hend : z + hdrLen ≤ m.size := hsound.header.1
  have hoff := h.1
  omega

/-! ## Without a wrap around -/

theorem dvd_of_visits (hsmall : m.size + m.erasesize ≤ 4294967296) {a : Nat}
    (h : Visits c.w m (more c.w m) (lookFit m) a offset) : m.erasesize ∣ offset := by
  obtain ⟨b, h⟩ := h
  refine h.keeps (P := fun s => m.erasesize ∣ s.1) ?_ (dvd_zero _)
  rintro ⟨x, a⟩ s' hx hround
  obtain ⟨b, -, hskip, rfl⟩ := blockRound_next hround
  have hend := readError_none (lookFit_skip.mp hskip).1
  have hvalues := values_large c.w
  have hlen : 0 < hdrLen := by decide
  have hlt : x + m.erasesize < c.w.values := by omega
  rw [mod_eq_of_lt hlt]
  exact (Nat.dvd_add_self_right).mpr hx

theorem kernel_le_of_behind (hwrap : NoWrap c m z) (hfound : Found c m hdr z)
    (hgap : ¬IsRootfs c.big m (z + totalsize m z)) (hfirst : Behind c m z (totalsize m z) r) :
    z + kernelSize m (totalsize m z) ≤ r := by
  obtain ⟨hcomes, hend, hroot⟩ := hfirst
  obtain ⟨hsmall, hsum⟩ := hwrap
  have hlimit := mod_le m.size c.w.values
  rw [mod_eq_of_lt hsum] at hcomes
  rcases hcomes.cases_head with rfl | ⟨s, hround, hcomes⟩
  · exact absurd hroot hgap
  obtain ⟨hstart, -, -, rfl⟩ := rootfsRound_next hround
  refine hcomes.keeps (P := fun s => z + kernelSize m (totalsize m z) ≤ s) ?_ ?_
  · intro s s' hs hround
    obtain ⟨hs', -, hes, rfl⟩ := rootfsRound_next hround
    rw [nextEb_eq hsmall (by omega)]
    exact hs.trans (le_of_lt (lt_roundup s hes))
  · obtain ⟨k, rfl⟩ := dvd_of_visits hsmall hfound.1
    rw [nextEb_eq hsmall (by omega), kernelSize_eq, Nat.add_div_of_dvd_right ⟨k, rfl⟩,
      add_mul, Nat.div_mul_cancel ⟨k, rfl⟩, add_assoc]

theorem behind_of_rootfs (hes : m.erasesize ≠ 0) (hwrap : NoWrap c m z)
    (hroot : IsRootfs c.big m (z + totalsize m z)) :
    Behind c m z (totalsize m z) (z + totalsize m z) := by
  have hend := readError_none hroot.1
  have hvalues := values_large c.w
  obtain ⟨hsmall, hsum⟩ := hwrap
  rw [Behind, mod_eq_of_lt hsum, mod_eq_of_lt (show m.size < c.w.values by omega)]
  exact ⟨Comes.refl _ _, by omega, hroot⟩

/-- The split is sound exactly if no root file system is in the kernel partition, and none is
found without an image. -/
theorem fit_sound_iff (c : Machine) (m : Mtd) (hdr : Buffer) (memory : Bool) :
    (∀ p, Parses c m hdr memory p → Sound m p) ↔
      (memory = true → m.erasesize ≠ 0 → Fine c m hdr) := by
  constructor
  · intro hsound hmemory hes
    have hparts {z f r : Nat} (hends : Found c m hdr z ∧ f = totalsize m z ∨ RunsOff c m hdr z f)
        (hfirst : Behind c m z f r) : Sound m (splitParts c m z f r) :=
      hsound _ (parses_iff.mpr ⟨hmemory, hes, z, f, r, hends, hfirst, rfl⟩)
    refine ⟨?_, ?_, ?_⟩
    · intro z hfound hwrap hroot
      have hfirst := behind_of_rootfs hes hwrap hroot
      have happart := (sound_iff_of_found hes hfound hfirst).mp (hparts (.inl ⟨hfound, rfl⟩) hfirst)
      have hsize := totalsize_lt_kernelSize hes z
      have hend := hfirst.2.1
      omega
    · intro z r hfound _ hfirst
      exact (sound_iff_of_found hes hfound hfirst).mp (hparts (.inl ⟨hfound, rfl⟩) hfirst)
    · intro z f r hoff hfirst
      exact not_sound_of_runsOff hoff (hparts (.inr hoff) hfirst)
  · intro hfine p hparse
    obtain ⟨hmemory, hes, z, f, r, hends, hfirst, rfl⟩ := parses_iff.mp hparse
    have hfine := hfine hmemory hes
    rcases hends with ⟨hfound, rfl⟩ | hoff
    · refine (sound_iff_of_found hes hfound hfirst).mpr ?_
      by_cases hwrap : NoWrap c m z
      · exact .inl (kernel_le_of_behind hwrap hfound (hfine.gap z hfound hwrap) hfirst)
      · exact hfine.wraps z r hfound hwrap hfirst
    · exact absurd hfirst (hfine.runsOff z f r hoff)

def fullBlock : Mtd where
  size := 128
  erasesize := 64
  flash := storeBytes (storeBytes (fun _ => 0) 0 (wordBytes true OF_DT_HEADER ++ wordBytes true 64))
    64 (wordBytes false SQUASHFS_MAGIC)
  fails := fun _ _ => none
  fails_neg := readable_fails_neg

theorem not_sound_fullBlock :
    ¬∀ p, Parses ⟨.bits32, false⟩ fullBlock (fun _ => 0) true p → Sound fullBlock p := by
  intro hsound
  have hs := hsound ⟨⟨0, 128⟩, ⟨64, 64⟩⟩ ⟨1, by decide +kernel⟩
  exact absurd hs.apart (show ¬(0 + 128 ≤ 64 ∨ 64 + 64 ≤ 0) by decide)

end OpenWrt.Mtdsplit.Fit
