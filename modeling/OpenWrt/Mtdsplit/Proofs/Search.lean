import Mathlib
import OpenWrt.Mtdsplit.Basic

/-!
# Searches over blocks

The loop over blocks ends at the first block where its parser stays, or where there are no more
blocks, with the value of the last one.  The search for a root file system ends at the first one
or with an error.
-/

namespace OpenWrt.Mtdsplit

open Lib

theorem readError_none {m : Mtd} {offset len : Nat} (h : m.readError offset len = none) :
    offset + len ≤ m.size := by
  rw [Mtd.readError] at h
  split at h
  · cases h
  · omega

theorem readError_neg {m : Mtd} {offset len : Nat} {err : Int}
    (h : m.readError offset len = some err) : err < 0 := by
  rw [Mtd.readError] at h
  split at h
  · cases h
    decide
  · exact m.fails_neg offset len err h

/-! ## The loop over blocks -/

theorem inside_iff {m : Mtd} {offset : Nat} : m.inside offset ↔ offset < m.size :=
  decide_eq_true_iff

theorem not_inside_iff {m : Mtd} {offset : Nat} : m.inside offset = false ↔ m.size ≤ offset :=
  decide_eq_false_iff_not.trans not_lt

section

variable {α : Type} {w : SizeT} {m : Mtd} {more : Nat → Bool} {look : Nat → Look α}
  {a b b' : α} {y z : Nat}

theorem blockRound_end (hmore : more y = false) :
    blockRound w m more look (y, a) = .done (.ok (y, a)) := by
  rw [blockRound, if_neg (by rw [hmore]; decide)]

theorem blockRound_next {s : Nat × α} (h : blockRound w m more look (y, a) = .next s) :
    ∃ b, more y ∧ look y = .skip b ∧ s = ((y + m.erasesize) % w.values, b) := by
  cases hmore : more y with
  | false =>
    rw [blockRound_end hmore] at h
    cases h
  | true =>
    rw [blockRound, if_pos hmore] at h
    cases hlook : look y with
    | fail err =>
      rw [hlook] at h
      cases h
    | skip b =>
      rw [hlook] at h
      exact ⟨b, rfl, rfl, (Round.next.inj h).symm⟩
    | found b =>
      rw [hlook] at h
      cases h

theorem Visits.lt_values (h : Visits w m more look a y) : y < w.values := by
  obtain ⟨b, h⟩ := h
  refine h.keeps (P := fun s => s.1 < w.values) (fun s s' _ hs => ?_) (values_pos w)
  obtain ⟨b', -, -, rfl⟩ := blockRound_next hs
  exact Nat.mod_lt _ (values_pos w)

def SearchEnds (w : SizeT) (m : Mtd) (more : Nat → Bool) (look : Nat → Look α) (a : α) (z : Nat)
    (b : α) : Prop :=
  Visits w m more look a z ∧ more z = true ∧ look z = .found b ∨
    more z = false ∧ ((z, b) = (0, a) ∨
      ∃ y, Visits w m more look a y ∧ more y = true ∧ look y = .skip b ∧
        z = (y + m.erasesize) % w.values)

theorem searchEnds_of_comes (hy : Comes (blockRound w m more look) (0, a) (y, b'))
    (hdone : blockRound w m more look (y, b') = .done (.ok (z, b))) :
    SearchEnds w m more look a z b := by
  cases hmore : more y with
  | false =>
    rw [blockRound_end hmore] at hdone
    cases hdone
    refine .inr ⟨hmore, ?_⟩
    rcases hy.cases with hstart | ⟨⟨x, d⟩, hx, hnext⟩
    · exact .inl hstart
    · obtain ⟨b', hmore', hskip, heq⟩ := blockRound_next hnext
      cases heq
      exact .inr ⟨x, ⟨d, hx⟩, hmore', hskip, rfl⟩
  | true =>
    rw [blockRound, if_pos hmore] at hdone
    cases hlook : look y with
    | fail err | skip d =>
      rw [hlook] at hdone
      cases hdone
    | found d =>
      rw [hlook] at hdone
      cases hdone
      exact .inl ⟨⟨b', hy⟩, hmore, hlook⟩

theorem yields_searchLoop :
    Yields (searchLoop w m more look a) (.ok (z, b)) ↔ SearchEnds w m more look a z b := by
  constructor
  · intro h
    obtain ⟨⟨y, b'⟩, hy, hdone⟩ := yields_loop.mp h
    exact searchEnds_of_comes hy hdone
  · rintro (⟨⟨b', hz⟩, hmore, hfound⟩ | ⟨hend, hstart | ⟨y, ⟨b', hy⟩, hmore, hskip, rfl⟩⟩)
    · exact yields_loop.mpr ⟨_, hz, by rw [blockRound, if_pos hmore, hfound]⟩
    · refine yields_loop.mpr ⟨_, Comes.refl _ _, ?_⟩
      rw [← hstart]
      exact blockRound_end hend
    · exact yields_loop.mpr ⟨_, hy.tail (by rw [blockRound, if_pos hmore, hskip]),
        blockRound_end hend⟩

theorem searchLoop_grows (w : SizeT) (m : Mtd) (more : Nat → Bool) (look : Nat → Look α) (a : α) :
    Grows (searchLoop w m more look a) :=
  loop_grows _ _

end

/-! ## The search for a root file system -/

section

variable {c : Machine} {m : Mtd} {big : Bool} {limit offset start z : Nat} {type : PartType}

theorem isRootfs_iff : IsRootfs big m offset ↔
    ∃ type, checkRootfsMagic big m offset = .ok type := by
  rw [IsRootfs, checkRootfsMagic]
  cases hread : m.readError offset 4 with
  | some err =>
    refine ⟨fun h => ?_, fun h => ?_⟩
    · cases h.1
    · obtain ⟨type, h⟩ := h
      cases h
  | none =>
    by_cases hsquashfs : word false m.flash offset = SQUASHFS_MAGIC
    · rw [if_pos hsquashfs]
      exact ⟨fun _ => ⟨_, rfl⟩, fun _ => ⟨rfl, .inl hsquashfs⟩⟩
    rw [if_neg hsquashfs]
    by_cases hjffs2 : word big m.flash offset = JFFS2_MAGIC
    · rw [if_pos hjffs2]
      exact ⟨fun _ => ⟨_, rfl⟩, fun _ => ⟨rfl, .inr (.inl hjffs2)⟩⟩
    rw [if_neg hjffs2]
    by_cases hubi : word true m.flash offset = UBI_EC_MAGIC
    · rw [if_pos hubi]
      exact ⟨fun _ => ⟨_, rfl⟩, fun _ => ⟨rfl, .inr (.inr hubi)⟩⟩
    rw [if_neg hubi]
    refine ⟨fun h => ?_, fun h => ?_⟩
    · rcases h.2 with h | h | h
      · exact absurd h hsquashfs
      · exact absurd h hjffs2
      · exact absurd h hubi
    · obtain ⟨type, h⟩ := h
      cases h

theorem rootfsRound_next (h : rootfsRound c m limit offset = .next z) :
    offset < limit ∧ ¬IsRootfs c.big m offset ∧ m.erasesize ≠ 0 ∧ z = nextEb c.w m offset := by
  rw [rootfsRound] at h
  split at h
  · cases h
  rename_i hend
  cases hcheck : checkRootfsMagic c.big m offset with
  | ok type =>
    rw [hcheck] at h
    cases h
  | error err =>
    rw [hcheck] at h
    dsimp only at h
    split at h
    · cases h
    rename_i hes
    refine ⟨not_le.mp hend, fun hroot => ?_, hes, (Round.next.inj h).symm⟩
    obtain ⟨type, htype⟩ := isRootfs_iff.mp hroot
    rw [hcheck] at htype
    cases htype

theorem rootfsRound_done (hend : offset < limit) (h : checkRootfsMagic c.big m offset = .ok type) :
    rootfsRound c m limit offset = .done (.ok (offset, type)) := by
  rw [rootfsRound, if_neg (not_le.mpr hend), h]

theorem yields_findRootfsFrom :
    Yields (fun n => findRootfsFrom c m limit n start) (.ok (offset, type)) ↔
      FirstRootfs c m limit start offset ∧ checkRootfsMagic c.big m offset = .ok type := by
  constructor
  · intro h
    obtain ⟨z, hz, hdone⟩ := yields_loop.mp h
    by_cases hend : limit ≤ z
    · rw [rootfsRound, if_pos hend] at hdone
      cases hdone
    cases hcheck : checkRootfsMagic c.big m z with
    | ok type' =>
      rw [rootfsRound_done (not_le.mp hend) hcheck] at hdone
      cases hdone
      exact ⟨⟨hz, not_le.mp hend, isRootfs_iff.mpr ⟨type, hcheck⟩⟩, hcheck⟩
    | error err =>
      rw [rootfsRound, if_neg hend, hcheck] at hdone
      dsimp only at hdone
      split at hdone
      · cases hdone
      · cases hdone
  · rintro ⟨⟨hcomes, hend, -⟩, hcheck⟩
    exact yields_loop.mpr ⟨offset, hcomes, rootfsRound_done hend hcheck⟩

theorem findRootfsFrom_grows (c : Machine) (m : Mtd) (limit start : Nat) :
    Grows fun n => findRootfsFrom c m limit n start :=
  loop_grows _ _

end

end OpenWrt.Mtdsplit
