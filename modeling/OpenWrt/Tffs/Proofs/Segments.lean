import Mathlib
import OpenWrt.Lib.History
import OpenWrt.Tffs.FindEntry

/-!
# The array of the segments of an entry

What the array holds after some records is a function of them: a slot for each of the first
segments of the greatest revision.  A record is taken exactly if it fits.
-/

namespace OpenWrt.Tffs

open Lib List

variable {w : SizeT} {l : List Record} {x : Record} {n i rev : Nat} {g g' : Segments}

/-! ## Records -/

theorem maxRev_append (l : List Record) (x : Record) :
    maxRev (l ++ [x]) = max (maxRev l) x.rev := foldl_append

theorem numSegs_append (l : List Record) (x : Record) :
    numSegs (l ++ [x]) = max (numSegs l) x.newNumSegs := foldl_append

theorem count_append (l : List Record) (x : Record) :
    count (l ++ [x]) = max (count l) x.count := foldl_append

theorem le_maxRev (h : x ∈ l) : x.rev ≤ maxRev l := by
  induction l using reverseRecOn with
  | nil => cases h
  | append_singleton l y ih =>
    rw [maxRev_append]
    rcases mem_append.mp h with hmem | hmem
    · exact (ih hmem).trans (le_max_left _ _)
    · rw [mem_singleton.mp hmem]
      exact le_max_right _ _

theorem le_count (h : x ∈ l) : x.count ≤ count l := by
  induction l using reverseRecOn with
  | nil => cases h
  | append_singleton l y ih =>
    rw [count_append]
    rcases mem_append.mp h with hmem | hmem
    · exact (ih hmem).trans (le_max_left _ _)
    · rw [mem_singleton.mp hmem]
      exact le_max_right _ _

theorem current_append (l : List Record) (x : Record) :
    current (l ++ [x]) =
      (l.filter fun y => y.rev = max (maxRev l) x.rev ∧ y.seg ≠ TFFS_SEGMENT_CLEARED) ++
        if x.rev = max (maxRev l) x.rev ∧ x.seg ≠ TFFS_SEGMENT_CLEARED then [x] else [] := by
  rw [current, maxRev_append, filter_append]
  simp only [filter_cons, filter_nil, decide_eq_true_eq]

theorem current_older (h : x.rev < maxRev l) : current (l ++ [x]) = current l := by
  rw [current_append, Nat.max_eq_left h.le, if_neg (fun hx => ne_of_lt h hx.1),
    append_nil, current]

theorem current_same (h : maxRev l = x.rev) :
    current (l ++ [x]) = current l ++ if x.seg ≠ TFFS_SEGMENT_CLEARED then [x] else [] := by
  rw [current_append, ← h, Nat.max_self, current]
  simp only [true_and]

theorem current_newer (h : maxRev l < x.rev) :
    current (l ++ [x]) = if x.seg ≠ TFFS_SEGMENT_CLEARED then [x] else [] := by
  have hnone : (l.filter fun y => y.rev = x.rev ∧ y.seg ≠ TFFS_SEGMENT_CLEARED) = [] := by
    rw [filter_eq_nil_iff]
    intro y hy
    have hle := le_maxRev hy
    rw [decide_eq_true_eq]
    omega
  rw [current_append, Nat.max_eq_right h.le, hnone, nil_append]
  simp only [true_and]

theorem segment_append (l : List Record) (x : Record) (i : Nat) :
    segment (l ++ [x]) i = if x.seg = i then some x.data else segment l i := by
  rw [segment, filter_append]
  simp only [filter_cons, filter_nil, decide_eq_true_eq]
  split
  · rw [getLast?_append_of_ne_nil _ (cons_ne_nil x [])]
    rfl
  · rw [append_nil, segment]

theorem segment_eq_none_iff : segment l i = none ↔ ∀ x ∈ l, x.seg ≠ i := by
  rw [segment, Option.map_eq_none_iff, getLast?_eq_none_iff, filter_eq_nil_iff]
  simp only [decide_eq_true_eq]

/-! ## Slots -/

theorem slotsOf_bits32 (n : Nat) : slotsOf .bits32 n = n % 536870912 := by
  rw [slotsOf, sizeofSegment, SizeT.values]
  omega

theorem slotsOf_bits64 (n : Nat) : slotsOf .bits64 n = n % 1152921504606846976 := by
  rw [slotsOf, sizeofSegment, SizeT.values]
  omega

theorem slotsOf_le (w : SizeT) (n : Nat) : slotsOf w n ≤ n := by
  cases w with
  | bits32 =>
    rw [slotsOf_bits32]
    exact Nat.mod_le _ _
  | bits64 =>
    rw [slotsOf_bits64]
    exact Nat.mod_le _ _

@[simp] theorem slotsOf_zero : slotsOf w 0 = 0 := Nat.le_zero.mp (slotsOf_le w 0)

/-- Slots that are a multiple of the address space do not change the size of the array. -/
theorem slotsOf_of_sub {m : Nat} (h : m ≤ n) (hsub : slotsOf w (n - m) = 0) :
    slotsOf w n = slotsOf w m := by
  cases w with
  | bits32 =>
    simp only [slotsOf_bits32] at *
    omega
  | bits64 =>
    simp only [slotsOf_bits64] at *
    omega

theorem slotsOf_lt_clear {m : Nat} (hpos : 0 < m) (h : m < n) :
    slotsOf w n < m * sizeofSegment w + slotsOf w (n - m) := by
  cases w with
  | bits32 =>
    rw [slotsOf_bits32, slotsOf_bits32, sizeofSegment]
    omega
  | bits64 =>
    rw [slotsOf_bits64, slotsOf_bits64, sizeofSegment]
    omega

def Slot.of : Option (List UInt8) → Slot
  | none => .empty
  | some data => .full data

def holding (w : SizeT) (l : List Record) (n : Nat) : List Slot :=
  (range (slotsOf w n)).map fun i => Slot.of (segment l i)

def image (w : SizeT) (rev : Nat) (l : List Record) : Segments where
  rev := rev
  numSegments := numSegs l
  slots := holding w l (numSegs l)

@[simp] theorem image_numSegments : (image w rev l).numSegments = numSegs l := rfl

@[simp] theorem image_slots : (image w rev l).slots = holding w l (numSegs l) := rfl

def Inside (w : SizeT) (l : List Record) : Prop := ∀ x ∈ l, x.seg < slotsOf w (numSegs l)

@[simp] theorem length_holding : (holding w l n).length = slotsOf w n := by
  rw [holding, length_map, length_range]

theorem unset_notMem_holding : Slot.unset ∉ holding w l n := by
  intro h
  obtain ⟨i, -, hi⟩ := mem_map.mp h
  cases hseg : segment l i <;> rw [hseg] at hi <;> cases hi

theorem holding_nil : holding w [] n = replicate (slotsOf w n) .empty := by
  have hconst : (fun i => Slot.of (segment [] i)) = Function.const Nat Slot.empty := rfl
  rw [holding, hconst, map_const, length_range]

/-! ## Growing the array -/

theorem reallocSlots_length {slots : List Slot} : reallocSlots slots slots.length = slots := by
  rw [reallocSlots, take_length, Nat.sub_self, replicate_zero, append_nil]

theorem eq_nil_of_inside (h : Inside w l) (hnum : numSegs l = 0) : l = [] := by
  rw [eq_nil_iff_forall_not_mem]
  intro x hx
  have hseg := h x hx
  rw [hnum, slotsOf_zero] at hseg
  exact Nat.not_lt_zero _ hseg

theorem clearSlots_first :
    clearSlots (reallocSlots [] (slotsOf w n)) 0 (slotsOf w n) = some (holding w [] n) := by
  rw [clearSlots, holding_nil, reallocSlots]
  split
  · rename_i hn
    rw [hn]
    rfl
  · simp

theorem grow_image (hin : Inside w l)
    (h : numSegs l < n → numSegs l = 0 ∨ slotsOf w (n - numSegs l) = 0) :
    grow w (image w rev l) n =
      some ⟨rev, max (numSegs l) n, holding w l (max (numSegs l) n)⟩ := by
  rw [grow, image_numSegments, image_slots]
  by_cases hlt : numSegs l < n
  · rw [if_pos hlt, Nat.max_eq_right hlt.le]
    rcases h hlt with hzero | hsub
    · obtain rfl := eq_nil_of_inside hin hzero
      have hslots : holding w [] 0 = [] := by
        rw [holding, slotsOf_zero]
        rfl
      rw [hzero, hslots, zero_mul, Nat.sub_zero, clearSlots_first]
      rfl
    · have hsame : slotsOf w (numSegs l) = slotsOf w n :=
        (slotsOf_of_sub hlt.le hsub).symm
      have hslots : holding w l (numSegs l) = holding w l n := by
        rw [holding, hsame, holding]
      have hlen : reallocSlots (holding w l n) (slotsOf w n) = holding w l n := by
        rw [← length_holding (l := l), reallocSlots_length]
      rw [hslots, hlen, clearSlots, if_pos hsub]
      rfl
  · rw [if_neg hlt, Nat.max_eq_left (not_lt.mp hlt)]
    rfl

theorem grow_outside
    (h : ¬(numSegs l < n → numSegs l = 0 ∨ slotsOf w (n - numSegs l) = 0)) :
    grow w (image w rev l) n = none := by
  push Not at h
  obtain ⟨hlt, hpos, hsub⟩ := h
  have hlen : (reallocSlots (holding w l (numSegs l)) (slotsOf w n)).length = slotsOf w n := by
    rw [reallocSlots, length_append, length_take, length_replicate]
    omega
  have hbehind : ¬numSegs l * sizeofSegment w + slotsOf w (n - numSegs l) ≤ slotsOf w n :=
    not_le.mpr (slotsOf_lt_clear (Nat.pos_of_ne_zero hpos) hlt)
  rw [grow, image_numSegments, if_pos hlt, image_slots, clearSlots, if_neg hsub, hlen,
    if_neg hbehind]
  rfl

/-! ## Taking a record -/

theorem set_holding (l : List Record) (x : Record) (n : Nat) :
    (holding w l n).set x.seg (.full x.data) = holding w (l ++ [x]) n := by
  apply ext_getElem
  · rw [length_set, length_holding, length_holding]
  intro i hi hi'
  rw [getElem_set]
  simp only [holding, getElem_map, getElem_range, segment_append]
  split
  · rfl
  · rfl

theorem store_image (hin : Inside w l) (hfits : Fits w l x) :
    ((grow w (image w rev l) x.newNumSegs).bind fun g => writeSlot g x) =
      some (image w rev (l ++ [x])) := by
  rw [grow_image hin hfits.grow, Option.bind_some, writeSlot,
    if_pos (by rw [length_holding]; exact hfits.write)]
  simp only [set_holding, image, numSegs_append]

theorem store_outside (hin : Inside w l) (hfits : ¬Fits w l x) :
    ((grow w (image w rev l) x.newNumSegs).bind fun g => writeSlot g x) = none := by
  by_cases hgrow : numSegs l < x.newNumSegs →
      numSegs l = 0 ∨ slotsOf w (x.newNumSegs - numSegs l) = 0
  · have hwrite : ¬x.seg < slotsOf w (max (numSegs l) x.newNumSegs) :=
      fun hwrite => hfits ⟨hgrow, hwrite⟩
    rw [grow_image hin hgrow, Option.bind_some, writeSlot,
      if_neg (by rw [length_holding]; exact hwrite)]
  · rw [grow_outside hgrow]
    rfl

theorem inside_append (hin : Inside w l) (hfits : Fits w l x) : Inside w (l ++ [x]) := by
  intro y hy
  rw [numSegs_append]
  rcases mem_append.mp hy with hmem | hmem
  · have hold := hin y hmem
    rcases lt_or_ge (numSegs l) x.newNumSegs with hlt | hge
    · rw [Nat.max_eq_right hlt.le]
      rcases hfits.grow hlt with hzero | hsub
      · rw [hzero, slotsOf_zero] at hold
        exact absurd hold (Nat.not_lt_zero _)
      · rwa [slotsOf_of_sub hlt.le hsub]
    · rwa [Nat.max_eq_left hge]
  · rw [mem_singleton.mp hmem]
    exact hfits.write

theorem inside_nil : Inside w [] := fun _ hx => by cases hx

theorem supersede_newer (h : rev < x.rev) (hfree : slotsOf w (numSegs l) = numSegs l) :
    supersede (image w rev l) x.rev = some (image w x.rev []) := by
  have hread : (image w rev l).numSegments ≤ (image w rev l).slots.length ∧
      Slot.unset ∉ (image w rev l).slots.take (image w rev l).numSegments := by
    refine ⟨?_, fun hmem => unset_notMem_holding (mem_of_mem_take hmem)⟩
    rw [image, length_holding, hfree]
  have hempty : image w x.rev [] = ⟨x.rev, 0, []⟩ := by
    rw [image, holding, numSegs, foldl_nil, slotsOf_zero]
    rfl
  rw [supersede, if_pos (show (image w rev l).rev < x.rev from h), if_pos hread, hempty]

theorem supersede_outside (h : rev < x.rev) (hfree : slotsOf w (numSegs l) ≠ numSegs l) :
    supersede (image w rev l) x.rev = none := by
  rw [supersede, if_pos (show (image w rev l).rev < x.rev from h), if_neg]
  rintro ⟨hle, -⟩
  rw [image, length_holding] at hle
  exact hfree (le_antisymm (slotsOf_le w _) hle)

theorem supersede_same (h : ¬rev < x.rev) :
    supersede (image w rev l) x.rev = some (image w rev l) := if_neg h

def state (w : SizeT) (l : List Record) : Segments := image w (maxRev l) (current l)

theorem take_older (h : x.rev < maxRev l) : take w (state w l) x = some (state w (l ++ [x])) := by
  rw [take, if_pos (show x.rev < (state w l).rev from h), state, state, current_older h,
    maxRev_append, Nat.max_eq_left h.le]

section

-- `base` is what the record is added to: nothing, if its revision is a new one
variable {base : List Record} (hrev : maxRev l ≤ x.rev)
  (hsup : supersede (state w l) x.rev = some (image w x.rev base)) (hin : Inside w base)

include hrev hsup

theorem take_eq :
    take w (state w l) x =
      if x.seg = TFFS_SEGMENT_CLEARED then some (image w x.rev base)
      else (grow w (image w x.rev base) x.newNumSegs).bind fun g => writeSlot g x := by
  rw [take, if_neg (show ¬x.rev < (state w l).rev from not_lt.mpr hrev), hsup]
  rfl

include hin

theorem take_fits (hfits : x.seg ≠ TFFS_SEGMENT_CLEARED → Fits w base x)
    (hcurrent : current (l ++ [x]) = base ++ if x.seg ≠ TFFS_SEGMENT_CLEARED then [x] else []) :
    take w (state w l) x = some (state w (l ++ [x])) ∧ Inside w (current (l ++ [x])) := by
  rw [take_eq hrev hsup, state, maxRev_append, Nat.max_eq_right hrev, hcurrent]
  by_cases hseg : x.seg = TFFS_SEGMENT_CLEARED
  · rw [if_pos hseg, if_neg (not_not.mpr hseg), append_nil]
    exact ⟨rfl, hin⟩
  · rw [if_neg hseg, if_pos hseg]
    exact ⟨store_image hin (hfits hseg), inside_append hin (hfits hseg)⟩

theorem take_unfit (hseg : x.seg ≠ TFFS_SEGMENT_CLEARED) (hfits : ¬Fits w base x) :
    take w (state w l) x = none := by
  rw [take_eq hrev hsup, if_neg hseg]
  exact store_outside hin hfits

end

theorem take_ok (hin : Inside w (current l)) (hok : RecordOk w l x) :
    take w (state w l) x = some (state w (l ++ [x])) ∧ Inside w (current (l ++ [x])) := by
  rcases lt_trichotomy x.rev (maxRev l) with holder | hsame | hnewer
  · refine ⟨take_older holder, ?_⟩
    rwa [current_older holder]
  · have hsup := supersede_same (w := w) (l := current l) (not_lt.mpr (le_of_eq hsame))
    exact take_fits (le_of_eq hsame.symm) (hsame ▸ hsup) hin (hok.later hsame.symm)
      (current_same hsame.symm)
  · have hsup := supersede_newer (w := w) (l := current l) hnewer (hok.free hnewer)
    exact take_fits hnewer.le hsup inside_nil (hok.first hnewer) (current_newer hnewer)

theorem take_outside (hin : Inside w (current l)) (hok : ¬RecordOk w l x) :
    take w (state w l) x = none := by
  rcases lt_trichotomy x.rev (maxRev l) with holder | hsame | hnewer
  · refine absurd ⟨fun h => ?_, fun h => ?_, fun h => ?_⟩ hok
    all_goals omega
  · by_contra htake
    refine hok ⟨fun h => absurd h (by omega), fun h => absurd h (by omega), fun _ hseg => ?_⟩
    have hsup := supersede_same (w := w) (l := current l) (not_lt.mpr (le_of_eq hsame))
    by_contra hfits
    exact htake (take_unfit (le_of_eq hsame.symm) (hsame ▸ hsup) hin hseg hfits)
  · by_cases hfree : slotsOf w (numSegs (current l)) = numSegs (current l)
    · by_contra htake
      refine hok ⟨fun _ => hfree, fun _ hseg => ?_, fun h => absurd h (by omega)⟩
      have hsup := supersede_newer (w := w) (l := current l) hnewer hfree
      by_contra hfits
      exact htake (take_unfit hnewer.le hsup inside_nil hseg hfits)
    · rw [take, if_neg (show ¬x.rev < (state w l).rev from not_lt.mpr hnewer.le),
        state, supersede_outside hnewer hfree]
      rfl

/-! ## Taking all records -/

def Reached (w : SizeT) (l : List Record) (g : Segments) : Prop :=
  g = state w l ∧ Inside w (current l)

theorem take_isSome (h : Reached w l g) : (∃ g', take w g x = some g') ↔ RecordOk w l x := by
  obtain ⟨rfl, hin⟩ := h
  constructor
  · rintro ⟨g', hg⟩
    by_contra hok
    rw [take_outside hin hok] at hg
    cases hg
  · exact fun hok => ⟨_, (take_ok hin hok).1⟩

theorem take_reached (h : Reached w l g) (htake : take w g x = some g') :
    Reached w (l ++ [x]) g' := by
  have hok := (take_isSome h).mp ⟨g', htake⟩
  obtain ⟨rfl, hin⟩ := h
  obtain ⟨hstate, hinside⟩ := take_ok hin hok
  rw [hstate] at htake
  cases htake
  exact ⟨rfl, hinside⟩

theorem reached_nil : Reached w [] { rev := 0, numSegments := 0, slots := [] } := by
  refine ⟨?_, inside_nil⟩
  rw [state, image, holding]
  simp [maxRev, current, numSegs]

theorem foldlM_take_isSome :
    (∃ g, l.foldlM (take w) { rev := 0, numSegments := 0, slots := [] } = some g) ↔
      ∀ pre x post, l = pre ++ x :: post → RecordOk w pre x := by
  have hiff := foldlM_isSome_iff (f := take w) (l := l) (Reached w) (RecordOk w) []
    (fun _ _ _ _ h htake => take_reached h htake) (fun _ _ _ h => take_isSome h) reached_nil
  simpa only [nil_append] using hiff

theorem foldlM_take_reached
    (h : l.foldlM (take w) { rev := 0, numSegments := 0, slots := [] } = some g) :
    Reached w l g :=
  foldlM_keeps (Reached w) [] (fun _ _ _ _ h htake => take_reached h htake) reached_nil h

end OpenWrt.Tffs
