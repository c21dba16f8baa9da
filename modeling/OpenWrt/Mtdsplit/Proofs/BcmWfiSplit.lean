import OpenWrt.Mtdsplit.Proofs.BcmWfi

/-!
# Splits of a whole flash image

An image is parsed exactly if it has the files and UBI one behind the other.  The places are
then in order, but the partition `firmware` is made of `kernel` and `ubi`.  The parser for two
images returns the error of the active half if it cannot be parsed.
-/

namespace OpenWrt.Mtdsplit.BcmWfi

open Lib List

variable {big : Bool} {m : Mtd} {name : List UInt8} {want : Bool} {stop start offs : Nat}
  {f : File} {err : Int}

/-! ## Results of the searches -/

theorem jffs2FindFile_eq (h : stop < loffValues) :
    jffs2FindFile big m name want stop start =
      fun n => loop (findRound big m name want stop) n (.block start false) := by
  funext n
  rw [jffs2FindFile, if_neg (not_le.mpr h)]

theorem not_yields_find {r : Except Int File} (h : loffValues ≤ stop) :
    ¬Yields (jffs2FindFile big m name want stop start) r := by
  rintro ⟨n, hn⟩
  rw [jffs2FindFile, if_pos h] at hn
  cases hn

theorem jffs2FindFile_grows (big : Bool) (m : Mtd) (name : List UInt8) (want : Bool)
    (stop start : Nat) : Grows (jffs2FindFile big m name want stop start) := by
  rcases lt_or_ge stop loffValues with hlt | hge
  · rw [jffs2FindFile_eq hlt]
    exact loop_grows _ _
  · intro n d r hn
    exact absurd ⟨n, hn⟩ (not_yields_find hge)

theorem atFile_ok {pos : UInt32} {valid : Bool} :
    atFile m want offs pos valid = .done (.ok f) ↔
      valid ∧ fileOf m want offs pos.toNat = some f := by
  cases valid with
  | false => simp [atFile]
  | true =>
    cases hfile : fileOf m want offs pos.toNat with
    | none => simp [atFile, hfile]
    | some f' => simp [atFile, hfile]

theorem atFile_error {pos : UInt32} {valid : Bool}
    (h : atFile m want offs pos valid = .done (.error err)) : err < 0 := by
  cases valid with
  | false =>
    cases h
    decide
  | true =>
    rw [atFile, if_pos rfl] at h
    split at h
    · cases h
    · cases h

theorem fileOf_offs {pos : Nat} (h : fileOf m want offs pos = some f) : f.offs = offs := by
  rw [fileOf] at h
  split at h
  · obtain ⟨s, -, rfl⟩ := Option.map_eq_some_iff.mp h
    rfl
  · cases h
    rfl

theorem findRound_done {s : State} {r : Except Int File}
    (h : findRound big m name want stop s = .done r) :
    (∃ err, err < 0 ∧ r = .error err) ∨
      ∃ offs pos f, s = .node offs pos true ∧ pos.toNat < m.erasesize ∧
        nodeKind big (block m offs) m.erasesize name pos.toNat = some .file ∧
        fileOf m want offs pos.toNat = some f ∧ r = .ok f := by
  cases s with
  | block offs valid =>
    rcases blockStep_cases big m name want stop offs valid with
      ⟨err, hneg, hround⟩ | ⟨-, -, hround⟩ | ⟨-, -, -, hround⟩
    · rw [hround] at h
      exact .inl ⟨err, hneg, (Round.done.inj h).symm⟩
    · rw [hround] at h
      exact absurd h toNextBlock_ne_done
    · rw [hround] at h
      cases h
  | node offs pos valid =>
    rcases nodeStep_cases big m name want stop offs pos valid with
      ⟨-, hround⟩ | ⟨-, -, hround⟩ | ⟨hend, hkind, hround⟩ | ⟨kind, -, -, -, hround⟩
    · rw [hround] at h
      exact absurd h toNextBlock_ne_done
    · rw [hround] at h
      cases h
    · rw [hround] at h
      cases r with
      | error err => exact .inl ⟨err, atFile_error h, rfl⟩
      | ok f =>
        obtain ⟨rfl, hfile⟩ := atFile_ok.mp h
        exact .inr ⟨offs, pos, f, rfl, hend, hkind, hfile, rfl⟩
    · rw [hround] at h
      cases h

theorem yields_find_ok :
    Yields (jffs2FindFile big m name want stop start) (.ok f) ↔
      Finds big m name want stop start f := by
  rcases lt_or_ge stop loffValues with hlt | hge
  · rw [jffs2FindFile_eq hlt, yields_loop]
    constructor
    · rintro ⟨z, hz, hdone⟩
      rcases findRound_done hdone with ⟨err, -, hr⟩ | ⟨offs, pos, f', rfl, hend, hkind, hfile, hr⟩
      · cases hr
      · cases hr
        obtain rfl := fileOf_offs hfile
        exact ⟨hlt, pos, hz, hend, hkind, hfile⟩
    · rintro ⟨-, pos, hz, hend, hkind, hfile⟩
      refine ⟨_, hz, ?_⟩
      rw [nodeStep_file hend hkind]
      exact atFile_ok.mpr ⟨rfl, hfile⟩
  · exact ⟨fun h => absurd h (not_yields_find hge), fun h => absurd h.1 (not_lt.mpr hge)⟩

theorem find_error_neg (h : Yields (jffs2FindFile big m name want stop start) (.error err)) :
    err < 0 := by
  rcases lt_or_ge stop loffValues with hlt | hge
  · rw [jffs2FindFile_eq hlt] at h
    obtain ⟨z, -, hdone⟩ := yields_loop.mp h
    rcases findRound_done hdone with ⟨err', hneg, hr⟩ | ⟨_, _, _, -, -, -, -, hr⟩
    · cases hr
      exact hneg
    · cases hr
  · exact absurd h (not_yields_find hge)

/-! ## UBI -/

theorem ubifsFind_grows (m : Mtd) (stop start : Nat) : Grows (ubifsFind m stop start) :=
  loop_grows _ _

theorem yields_ubi_ok {rootfs : Nat} :
    Yields (ubifsFind m stop start) (.ok rootfs) ↔ UbiAt m stop start rootfs := by
  constructor
  · intro h
    obtain ⟨z, hz, hdone⟩ := yields_loop.mp h
    rw [ubiRound] at hdone
    split_ifs at hdone with hend hubi <;> cases hdone
    exact ⟨hz, not_le.mp hend, hubi⟩
  · rintro ⟨hcomes, hend, hubi⟩
    refine yields_loop.mpr ⟨rootfs, hcomes, ?_⟩
    rw [ubiRound, if_neg (not_le.mpr hend), if_pos hubi]

theorem ubi_error_neg (h : Yields (ubifsFind m stop start) (.error err)) : err < 0 := by
  obtain ⟨z, -, hdone⟩ := yields_loop.mp h
  rw [ubiRound] at hdone
  split_ifs at hdone
  all_goals cases hdone
  decide

theorem ubiRound_next {z : Nat} (h : ubiRound m stop offs = .next z) :
    offs < stop ∧ ¬IsUbi m offs ∧ z = offs + m.erasesize := by
  rw [ubiRound] at h
  split_ifs at h with hend hubi
  cases h
  exact ⟨not_le.mp hend, hubi, rfl⟩

theorem halts_ubi : Halts (ubifsFind m stop start) ↔ UbiSafe m stop start := by
  refine halts_loop.trans ⟨?_, ?_⟩
  · rintro ⟨hends, hstuck⟩ offs hoffs hend hubi
    have hround : ubiRound m stop offs = _ := (if_neg (not_le.mpr hend)).trans (if_neg hubi)
    have hroom : offs + m.erasesize < loffValues := by
      by_contra hlarge
      rw [if_neg hlarge] at hround
      exact hstuck offs hoffs hround
    refine ⟨fun hzero => ?_, hroom⟩
    rw [if_pos hroom, hzero] at hround
    obtain ⟨n, hn⟩ := hoffs.ends hends
    rw [walk_stays (next?_eq_some.mpr hround)] at hn
    cases hn
  · intro h
    constructor
    · have hrise : ∀ a b, (ubiRound m stop a).next? = some b → a ≤ b ∧ a < stop := by
        intro a b hab
        obtain ⟨hend, -, rfl⟩ := ubiRound_next (next?_eq_some.mp hab)
        exact ⟨Nat.le_add_right a _, hend⟩
      refine (ends_iff_of_rising hrise).mpr fun n b hb hstay => ?_
      obtain ⟨hend, hubi, heq⟩ := ubiRound_next (next?_eq_some.mp hstay)
      have hpos := (h b ⟨n, hb⟩ hend hubi).1
      omega
    · intro z hz hstuck
      rw [ubiRound] at hstuck
      split_ifs at hstuck with hend hubi hroom
      exact hroom (h z hz (not_le.mp hend) hubi).2

/-! ## The split of an image -/

section

variable {memory cfePart : Bool} {off size rootfs : Nat} {cferamName : List UInt8}
  {cferam : Option Nat} {w : Wfi}

theorem makeWfi_ok {kernel : Nat} :
    makeWfi memory off size cferam kernel rootfs = some (.ok w) ↔
      memory ∧ w = wfiOf off size cferam kernel rootfs := by
  cases memory with
  | false => simp [makeWfi]
  | true => simp [makeWfi, eq_comm]

theorem fromRootfs_grows (m : Mtd) (memory : Bool) (off size : Nat) (cferam : Option Nat)
    (f : File) : Grows fun n => fromRootfs m memory off size n cferam f := by
  by_cases hlarge : loffValues ≤ f.offs + m.erasesize
  · simp only [fromRootfs, if_pos hlarge]
    exact grows_const _
  · simp only [fromRootfs, if_neg hlarge]
    exact (ubifsFind_grows m _ _).andThen fun _ => grows_const _

theorem yields_fromRootfs_ok :
    Yields (fun n => fromRootfs m memory off size n cferam f) (.ok w) ↔
      memory ∧ f.offs + m.erasesize < loffValues ∧
        ∃ rootfs, UbiAt m (off + size) (f.offs + m.erasesize) rootfs ∧
          w = wfiOf off size cferam f.offs rootfs := by
  by_cases hlarge : loffValues ≤ f.offs + m.erasesize
  · simp [fromRootfs, hlarge, yields_const]
  simp only [fromRootfs, if_neg hlarge]
  rw [yields_andThen_ok (ubifsFind_grows m _ _) fun _ => grows_const _]
  simp only [yields_const, yields_ubi_ok, makeWfi_ok]
  constructor
  · rintro ⟨rootfs, hubi, hmemory, rfl⟩
    exact ⟨hmemory, not_le.mp hlarge, rootfs, hubi, rfl⟩
  · rintro ⟨hmemory, -, rootfs, hubi, rfl⟩
    exact ⟨rootfs, hubi, hmemory, rfl⟩

theorem halts_fromRootfs :
    (Halts fun n => fromRootfs m memory off size n cferam f) ↔
      f.offs + m.erasesize < loffValues ∧ UbiSafe m (off + size) (f.offs + m.erasesize) := by
  by_cases hlarge : loffValues ≤ f.offs + m.erasesize
  · simp [fromRootfs, hlarge, Halts, yields_const]
  simp only [fromRootfs, if_neg hlarge]
  rw [halts_andThen (ubifsFind_grows m _ _) fun _ => grows_const _, halts_ubi]
  refine ⟨fun h => ⟨not_le.mp hlarge, h.1⟩, fun h => ⟨h.2, fun rootfs _ => ?_⟩⟩
  cases memory with
  | false => exact ⟨_, 0, rfl⟩
  | true => exact ⟨_, 0, rfl⟩

theorem fromRootfs_error_neg
    (h : Yields (fun n => fromRootfs m memory off size n cferam f) (.error err)) : err < 0 := by
  by_cases hlarge : loffValues ≤ f.offs + m.erasesize
  · simp [fromRootfs, hlarge, yields_const] at h
  simp only [fromRootfs, if_neg hlarge] at h
  rcases (yields_andThen_error (ubifsFind_grows m _ _) fun _ => grows_const _).mp h with
    hubi | ⟨rootfs, -, hmake⟩
  · exact ubi_error_neg hubi
  obtain ⟨n, hn⟩ := hmake
  cases memory with
  | false =>
    cases hn
    decide
  | true => cases hn

theorem fromKernel_grows (big : Bool) (m : Mtd) (memory : Bool) (off size : Nat)
    (cferam : Option Nat) (start : Nat) :
    Grows fun n => fromKernel big m memory off size n cferam start := by
  by_cases hlarge : loffValues ≤ start
  · simp only [fromKernel, if_pos hlarge]
    exact grows_const _
  · simp only [fromKernel, if_neg hlarge]
    exact (jffs2FindFile_grows _ _ _ _ _ _).andThen (fromRootfs_grows m memory off size cferam)

theorem yields_fromKernel_ok :
    Yields (fun n => fromKernel big m memory off size n cferam start) (.ok w) ↔
      memory ∧ ∃ f rootfs, start < loffValues ∧
        Finds big m KERNEL_NAME false (off + size) start f ∧ f.offs + m.erasesize < loffValues ∧
        UbiAt m (off + size) (f.offs + m.erasesize) rootfs ∧
        w = wfiOf off size cferam f.offs rootfs := by
  by_cases hlarge : loffValues ≤ start
  · simp [fromKernel, hlarge, yields_const]
  simp only [fromKernel, if_neg hlarge]
  rw [yields_andThen_ok (jffs2FindFile_grows _ _ _ _ _ _)
    (fromRootfs_grows m memory off size cferam)]
  simp only [yields_find_ok, yields_fromRootfs_ok]
  constructor
  · rintro ⟨f, hfinds, hmemory, hroom, rootfs, hubi, rfl⟩
    exact ⟨hmemory, f, rootfs, not_le.mp hlarge, hfinds, hroom, hubi, rfl⟩
  · rintro ⟨hmemory, f, rootfs, -, hfinds, hroom, hubi, rfl⟩
    exact ⟨f, hfinds, hmemory, hroom, rootfs, hubi, rfl⟩

theorem halts_fromKernel :
    (Halts fun n => fromKernel big m memory off size n cferam start) ↔
      (start < loffValues ∧ FindSafe big m KERNEL_NAME false (off + size) start) ∧
        ∀ f, Finds big m KERNEL_NAME false (off + size) start f →
          f.offs + m.erasesize < loffValues ∧
            UbiSafe m (off + size) (f.offs + m.erasesize) := by
  by_cases hlarge : loffValues ≤ start
  · simp [fromKernel, hlarge, Halts, yields_const]
  · simp only [fromKernel, if_neg hlarge]
    rw [halts_andThen (jffs2FindFile_grows _ _ _ _ _ _) (fromRootfs_grows m memory off size cferam)]
    simp only [yields_find_ok, halts_fromRootfs, not_le.mp hlarge, true_and]
    rw [← findTotal_iff, FindTotal]

theorem fromKernel_error_neg
    (h : Yields (fun n => fromKernel big m memory off size n cferam start) (.error err)) :
    err < 0 := by
  by_cases hlarge : loffValues ≤ start
  · simp [fromKernel, hlarge, yields_const] at h
  · simp only [fromKernel, if_neg hlarge] at h
    rcases (yields_andThen_error (jffs2FindFile_grows _ _ _ _ _ _)
      (fromRootfs_grows m memory off size cferam)).mp h with hfind | ⟨f, -, hroot⟩
    · exact find_error_neg hfind
    · exact fromRootfs_error_neg hroot

theorem parseBcmWfi_grows (big : Bool) (m : Mtd) (memory : Bool) (off size : Nat)
    (cferamName : List UInt8) (cfePart : Bool) :
    Grows (parseBcmWfi big m memory off size cferamName cfePart) := by
  cases cfePart with
  | false => exact fromKernel_grows big m memory off size none off
  | true =>
    exact (jffs2FindFile_grows _ _ _ _ _ _).andThen fun f =>
      fromKernel_grows big m memory off size (some f.offs) (f.offs + m.erasesize)

theorem yields_parse_ok :
    Yields (parseBcmWfi big m memory off size cferamName cfePart) (.ok w) ↔
      Parsable big m memory off size cferamName cfePart w := by
  cases cfePart with
  | false =>
    refine yields_fromKernel_ok.trans ⟨?_, ?_⟩
    · rintro ⟨hmemory, f, rootfs, hrest⟩
      exact ⟨hmemory, none, off, f, rootfs, .inl ⟨rfl, rfl, rfl⟩, hrest⟩
    · rintro ⟨hmemory, cferam, start, f, rootfs, ⟨-, rfl, rfl⟩ | ⟨hpart, -⟩, hrest⟩
      · exact ⟨hmemory, f, rootfs, hrest⟩
      · cases hpart
  | true =>
    refine (yields_andThen_ok (jffs2FindFile_grows _ _ _ _ _ _) fun f =>
      fromKernel_grows big m memory off size (some f.offs) (f.offs + m.erasesize)).trans ⟨?_, ?_⟩
    · rintro ⟨cfe, hcfe, hkernel⟩
      obtain ⟨hmemory, f, rootfs, hrest⟩ := yields_fromKernel_ok.mp hkernel
      exact ⟨hmemory, some cfe.offs, _, f, rootfs,
        .inr ⟨rfl, cfe, yields_find_ok.mp hcfe, rfl, rfl⟩, hrest⟩
    · rintro ⟨hmemory, cferam, start, f, rootfs, ⟨hpart, -⟩ | ⟨-, cfe, hcfe, rfl, rfl⟩, hrest⟩
      · cases hpart
      · exact ⟨cfe, yields_find_ok.mpr hcfe, yields_fromKernel_ok.mpr ⟨hmemory, f, rootfs, hrest⟩⟩

theorem halts_parse :
    Halts (parseBcmWfi big m memory off size cferamName cfePart) ↔
      ParseSafe big m off size cferamName cfePart := by
  cases cfePart with
  | false =>
    refine halts_fromKernel.trans ⟨?_, ?_⟩
    · rintro ⟨hkernel, hrootfs⟩
      refine ⟨fun h => (by cases h), ?_, ?_⟩
      · rintro cfe start (⟨-, -, rfl⟩ | ⟨hpart, -⟩)
        · exact hkernel
        · cases hpart
      · rintro cfe start f (⟨-, -, rfl⟩ | ⟨hpart, -⟩) hf
        · exact hrootfs f hf
        · cases hpart
    · intro h
      have hstart : KernelStart big m off size cferamName false none off :=
        .inl ⟨rfl, rfl, rfl⟩
      exact ⟨h.kernel none off hstart, fun f hf => h.rootfs none off f hstart hf⟩
  | true =>
    refine (halts_andThen (jffs2FindFile_grows _ _ _ _ _ _) fun f =>
      fromKernel_grows big m memory off size (some f.offs) (f.offs + m.erasesize)).trans ⟨?_, ?_⟩
    · rintro ⟨hcferam, hrest⟩
      refine ⟨fun _ => findTotal_iff.mp hcferam, ?_, ?_⟩
      · rintro cfe start (⟨hpart, -⟩ | ⟨-, f, hf, rfl, rfl⟩)
        · cases hpart
        · exact (halts_fromKernel.mp (hrest f (yields_find_ok.mpr hf))).1
      · rintro cfe start g (⟨hpart, -⟩ | ⟨-, f, hf, rfl, rfl⟩) hg
        · cases hpart
        · exact (halts_fromKernel.mp (hrest f (yields_find_ok.mpr hf))).2 g hg
    · intro h
      refine ⟨findTotal_iff.mpr (h.cferam rfl), fun f hf => halts_fromKernel.mpr ?_⟩
      have hstart : KernelStart big m off size cferamName true (some f.offs)
          (f.offs + m.erasesize) := .inr ⟨rfl, f, yields_find_ok.mp hf, rfl, rfl⟩
      exact ⟨h.kernel _ _ hstart, fun g hg => h.rootfs _ _ g hstart hg⟩

theorem parse_error_neg
    (h : Yields (parseBcmWfi big m memory off size cferamName cfePart) (.error err)) :
    err < 0 := by
  cases cfePart with
  | false => exact fromKernel_error_neg h
  | true =>
    rcases (yields_andThen_error (jffs2FindFile_grows _ _ _ _ _ _) fun f =>
      fromKernel_grows big m memory off size (some f.offs) (f.offs + m.erasesize)).mp h with
      hfind | ⟨f, -, hkernel⟩
    · exact find_error_neg hfind
    · exact fromKernel_error_neg hkernel

/-! ## The places -/

def State.place : State → Nat
  | .block offs _ => offs
  | .node offs _ _ => offs

theorem start_le_of_reaches {s : State} (h : Reaches big m name want stop start s) :
    start ≤ s.place := by
  refine h.keeps (P := fun s => start ≤ s.place) ?_ (le_refl start)
  intro s s' hs hround
  have hnext {offs : Nat} {valid : Bool} (hle : start ≤ offs)
      (h : (toNextBlock m offs valid : Round State (Except Int File)) = .next s') :
      start ≤ s'.place := by
    obtain ⟨-, rfl⟩ := toNextBlock_next h
    exact hle.trans (Nat.le_add_right offs m.erasesize)
  cases s with
  | block offs valid =>
    rcases blockStep_cases big m name want stop offs valid with
      ⟨err, -, h⟩ | ⟨-, -, h⟩ | ⟨-, -, -, h⟩
    · rw [h] at hround
      cases hround
    · exact hnext hs (h.symm.trans hround)
    · rw [h] at hround
      cases hround
      exact hs
  | node offs pos valid =>
    rcases nodeStep_cases big m name want stop offs pos valid with
      ⟨-, h⟩ | ⟨-, -, h⟩ | ⟨-, -, h⟩ | ⟨kind, -, -, -, h⟩
    · exact hnext hs (h.symm.trans hround)
    · rw [h] at hround
      cases hround
    · have hnone := next?_eq_some.mpr (h.symm.trans hround)
      rw [atFile_next?] at hnone
      cases hnone
    · rw [h] at hround
      cases hround
      exact hs

theorem Finds.range (h : Finds big m name want stop start f) :
    start ≤ f.offs ∧ f.offs < stop ∧ 0 < m.erasesize := by
  obtain ⟨-, pos, hreach, hend, -⟩ := h
  exact ⟨start_le_of_reaches hreach, (read_of_reaches hreach).1, Nat.zero_lt_of_lt hend⟩

theorem UbiAt.range (h : UbiAt m stop start rootfs) : start ≤ rootfs ∧ rootfs < stop := by
  refine ⟨h.1.keeps (P := fun offs => start ≤ offs) ?_ (le_refl start), h.2.1⟩
  intro offs z hoffs hround
  obtain ⟨-, -, rfl⟩ := ubiRound_next hround
  exact hoffs.trans (Nat.le_add_right offs m.erasesize)

theorem KernelStart.range (h : KernelStart big m off size cferamName cfePart cferam start) :
    off ≤ start ∧ ∀ cfe, cferam = some cfe → off ≤ cfe ∧ cfe < start := by
  rcases h with ⟨-, rfl, rfl⟩ | ⟨-, f, hf, rfl, rfl⟩
  · exact ⟨le_refl _, fun cfe hcfe => (by cases hcfe)⟩
  · obtain ⟨hle, -, hpos⟩ := hf.range
    refine ⟨by omega, fun cfe hcfe => ?_⟩
    cases hcfe
    exact ⟨hle, Nat.lt_add_of_pos_right hpos⟩

theorem Parsable.order (h : Parsable big m memory off size cferamName cfePart w) :
    ∃ cferam kernel rootfs, w = wfiOf off size cferam kernel rootfs ∧
      (∀ cfe, cferam = some cfe → off ≤ cfe ∧ cfe < kernel) ∧ off ≤ kernel ∧ kernel < rootfs ∧
      rootfs < off + size := by
  obtain ⟨-, cferam, start, f, rootfs, hstart, -, hfinds, -, hubi, rfl⟩ := h
  obtain ⟨hoff, hcfe⟩ := hstart.range
  obtain ⟨hkernel, -, hpos⟩ := hfinds.range
  obtain ⟨hroot, hend⟩ := hubi.range
  refine ⟨cferam, f.offs, rootfs, rfl, fun cfe heq => ?_, by omega, by omega, hend⟩
  have := hcfe cfe heq
  omega

/-- What the parser returns is in order and inside of the image. -/
theorem Parsable.placed (h : Parsable big m memory off size cferamName cfePart w) :
    Placed off size w := by
  obtain ⟨cferam, kernel, rootfs, rfl, hcfe, hoff, hkernel, hend⟩ := h.order
  refine ⟨hcfe, ⟨hoff, hkernel⟩, hend, fun p hp => ?_⟩
  rw [Range.stop]
  rcases mem_append.mp hp with hp | hp
  · obtain ⟨cfe, heq, rfl⟩ := Option.map_eq_some_iff.mp (Option.mem_toList.mp hp)
    have := hcfe cfe heq
    dsimp only
    omega
  · simp only [mem_cons, not_mem_nil, or_false] at hp
    rcases hp with rfl | rfl | rfl <;> dsimp only <;> omega

theorem Parsable.not_apart (h : Parsable big m memory off size cferamName cfePart w) :
    ¬w.parts.Pairwise fun p q => p.range.Apart q.range := by
  obtain ⟨cferam, kernel, rootfs, rfl, -, -, hkernel, hend⟩ := h.order
  intro hpair
  have hrest := (pairwise_append.mp hpair).2.1
  have hapart := (pairwise_cons.mp hrest).1 _ mem_cons_self
  rcases hapart with hle | hle
  · change kernel + (off + size - kernel) ≤ kernel at hle
    omega
  · change kernel + (rootfs - kernel) ≤ kernel at hle
    omega

theorem parseSound_iff :
    ParseSound big m memory off size cferamName cfePart ↔
      ∀ w, ¬Parsable big m memory off size cferamName cfePart w := by
  constructor
  · intro h w hw
    exact hw.not_apart (h w (yields_parse_ok.mpr hw)).apart
  · intro h w hw
    exact absurd (yields_parse_ok.mp hw) (h w)

end

/-! ## Two images -/

section

variable {cferamName : List UInt8} {mem : Memory} {half : Range} {copied : Bool} {heap : Buffer}
  {bf bf1 bf2 ret : Int} {parts : List Part}

theorem flag_iff :
    Flag big m copied heap half bf ↔
      ∃ r, Yields (findName m big half) r ∧ bf = bootflag copied heap r := by
  constructor
  · rintro (⟨f, hf, rfl⟩ | ⟨hsafe, hnone, rfl⟩)
    · exact ⟨.ok f, yields_find_ok.mpr hf, rfl⟩
    · obtain ⟨r, hr⟩ := findTotal_iff.mpr hsafe
      cases r with
      | error err => exact ⟨.error err, hr, rfl⟩
      | ok f => exact absurd (yields_find_ok.mp hr) (hnone f)
  · rintro ⟨r, hr, rfl⟩
    cases r with
    | error err =>
      refine .inr ⟨findTotal_iff.mp ⟨_, hr⟩, fun f hf => ?_, rfl⟩
      have := (jffs2FindFile_grows _ _ _ _ _ _).unique hr (yields_find_ok.mpr hf)
      cases this
    | ok f => exact .inl ⟨f, yields_find_ok.mp hr, rfl⟩

theorem findName_grows (m : Mtd) (big : Bool) (half : Range) : Grows (findName m big half) :=
  jffs2FindFile_grows _ _ _ _ _ _

theorem yields_split (hbuf : mem.buf) :
    Yields (parseBcmWfiSplit m big cferamName mem) (ret, parts) ↔
      ∃ bf1 bf2 r, Flag big m mem.name1 mem.heap1 (img1 m) bf1 ∧
        Flag big m mem.name2 mem.heap2 (img2 m) bf2 ∧
        Yields (parseBcmWfi big m mem.parts (active m bf1 bf2).offset (active m bf1 bf2).size
          cferamName true) r ∧
        finishSplit m mem bf1 bf2 r = some (ret, parts) := by
  have heq : parseBcmWfiSplit m big cferamName mem = fun n =>
      (findName m big (img1 m) n).bind fun r1 => (findName m big (img2 m) n).bind fun r2 =>
        splitActive m big cferamName mem n (bootflag mem.name1 mem.heap1 r1)
          (bootflag mem.name2 mem.heap2 r2) := by
    funext n
    rw [parseBcmWfiSplit, if_neg (not_not.mpr hbuf)]
  have hactive (bf1 bf2 : Int) : Grows fun n => splitActive m big cferamName mem n bf1 bf2 :=
    (parseBcmWfi_grows _ _ _ _ _ _ _).bind fun _ => grows_const _
  have hsecond (r1 : Except Int File) : Grows fun n => (findName m big (img2 m) n).bind fun r2 =>
      splitActive m big cferamName mem n (bootflag mem.name1 mem.heap1 r1)
        (bootflag mem.name2 mem.heap2 r2) :=
    (findName_grows m big (img2 m)).bind fun r2 => hactive _ _
  rw [heq, yields_bind (findName_grows m big (img1 m)) hsecond]
  constructor
  · rintro ⟨r1, hr1, hrest⟩
    obtain ⟨r2, hr2, hrest⟩ := (yields_bind (findName_grows m big (img2 m)) fun r2 =>
      hactive _ _).mp hrest
    obtain ⟨r, hr, hfinish⟩ := (yields_bind (parseBcmWfi_grows _ _ _ _ _ _ _) fun _ =>
      grows_const _).mp hrest
    exact ⟨_, _, r, flag_iff.mpr ⟨r1, hr1, rfl⟩, flag_iff.mpr ⟨r2, hr2, rfl⟩, hr,
      yields_const.mp hfinish⟩
  · rintro ⟨bf1, bf2, r, hflag1, hflag2, hr, hfinish⟩
    obtain ⟨r1, hr1, rfl⟩ := flag_iff.mp hflag1
    obtain ⟨r2, hr2, rfl⟩ := flag_iff.mp hflag2
    refine ⟨r1, hr1, (yields_bind (findName_grows m big (img2 m)) fun r2 => hactive _ _).mpr
      ⟨r2, hr2, ?_⟩⟩
    exact (yields_bind (parseBcmWfi_grows _ _ _ _ _ _ _) fun _ => grows_const _).mpr
      ⟨r, hr, yields_const.mpr hfinish⟩

theorem Parsable.length_parts {memory : Bool} {off size : Nat} {w : Wfi}
    (h : Parsable big m memory off size cferamName true w) : w.parts.length = 4 := by
  obtain ⟨-, cferam, start, f, rootfs, ⟨hpart, -⟩ | ⟨-, g, -, rfl, -⟩, -, -, -, -, rfl⟩ := h
  · cases hpart
  · rfl

theorem splitCounts_iff :
    SplitCounts big m cferamName mem ↔ ActiveParsable big m cferamName mem := by
  constructor
  · intro hcounts hbuf hhalves bf1 bf2 hflag1 hflag2 hsafe
    obtain ⟨r, hr⟩ := halts_parse.mpr hsafe
    cases r with
    | ok w => exact ⟨w, yields_parse_ok.mp hr⟩
    | error err =>
      have hret : err = (2 : Nat) := hcounts err ((yields_split hbuf).mpr
        ⟨bf1, bf2, .error err, hflag1, hflag2, hr, if_pos hhalves⟩)
      have hneg := parse_error_neg hr
      omega
  · intro hparsable ret hret
    cases hbuf : mem.buf with
    | false =>
      obtain ⟨n, hn⟩ := hret
      rw [parseBcmWfiSplit, hbuf] at hn
      cases hn
    | true =>
      obtain ⟨bf1, bf2, r, hflag1, hflag2, hr, hfinish⟩ := (yields_split hbuf).mp hret
      cases r with
      | ok w =>
        have hlen := (yields_parse_ok.mp hr).length_parts
        have hparts : w.parts ++ [inactive m bf1 bf2] = halves m ∨ w.parts = halves m := by
          rw [finishSplit] at hfinish
          split at hfinish
          · exact .inl (Prod.mk.inj (Option.some.inj hfinish)).2
          · exact .inr (Prod.mk.inj (Option.some.inj hfinish)).2
        rcases hparts with hparts | hparts
        · have := congrArg length hparts
          rw [length_append, hlen] at this
          cases this
        · rw [hparts] at hlen
          cases hlen
      | error err =>
        have hhalves : mem.halves := by
          by_contra hnot
          rw [finishSplit, if_neg hnot] at hfinish
          cases hfinish
        obtain ⟨w, hw⟩ := hparsable hbuf hhalves bf1 bf2 hflag1 hflag2 (halts_parse.mp ⟨_, hr⟩)
        have := (parseBcmWfi_grows _ _ _ _ _ _ _).unique hr (yields_parse_ok.mpr hw)
        cases this

end

/-- The search, the split of an image and the parser for two images do what is expected of them
exactly if the nodes are inside and lead to no place twice, the image cannot be split, and the
active half can be parsed. -/
theorem wfi_iff (big : Bool) (m : Mtd) (name : List UInt8) (want : Bool) (stop start : Nat)
    (memory : Bool) (off size : Nat) (cferamName : List UInt8) (cfePart : Bool) (mem : Memory) :
    (FindTotal big m name want stop start ∧
        ParseSound big m memory off size cferamName cfePart ∧
        SplitCounts big m cferamName mem) ↔
      (FindSafe big m name want stop start ∧
        (∀ w, ¬Parsable big m memory off size cferamName cfePart w) ∧
        ActiveParsable big m cferamName mem) :=
  and_congr findTotal_iff (and_congr parseSound_iff splitCounts_iff)

def zeroLength : Mtd where
  size := 128
  erasesize := 64
  flash := storeBytes (fun _ => 0) 0
    ([0x85, 0x19, 0x01, 0xE0] ++ replicate 16 0 ++ [1] ++ replicate 11 0 ++
      wordBytes false (crc32 0 ([0x85, 0x19, 0x01, 0xE0] ++ replicate 16 0 ++ [1] ++
        replicate 11 0)).toNat)
  fails := fun _ _ => none
  fails_neg := readable_fails_neg

theorem not_findTotal_zeroLength :
    ¬FindTotal false zeroLength CFERAM_NAME true 64 0 := by
  intro h
  have hsafe := findTotal_iff.mp h
  have hread : findRound false zeroLength CFERAM_NAME true 64 (.block 0 false) =
      .next (.node 0 0 false) := by decide +kernel
  have hstay : nextNode false zeroLength CFERAM_NAME 0 0 = some 0 := by decide +kernel
  have hrepeat := hsafe.noRepeat 0 false ((Comes.refl _ _).tail hread) 0 1 (by decide)
  rw [walk_cons hstay] at hrepeat
  cases hrepeat rfl

end OpenWrt.Mtdsplit.BcmWfi
