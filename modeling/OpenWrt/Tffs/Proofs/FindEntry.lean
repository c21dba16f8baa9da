import OpenWrt.Tffs.Proofs.Segments
import OpenWrt.Tffs.Proofs.Scan

/-!
# The value of an entry is found

The walk over the sectors does not depend on the array, so `find_entry` takes the records of the
entry one after the other and looks at the array at the end.
-/

namespace OpenWrt.Tffs

open Lib List Nat

variable {w : SizeT} {l : List Record} {x : Record} {n i : Nat} {g : Segments}

/-! ## The walk -/

section

variable {r : Reader} {id : Nat} {d : Device} {s : Scanned d} {walk : Walk} {sectors : List Nat}

theorem scanMtd_sized {st : Scan} (hes : d.erasesize ≠ 0) (h : scanMtd r d = some st) :
    Sized d st :=
  foldlM_keeps (fun _ => Sized d) [] (fun _ _ _ _ hs hscan => scanSector_sized hes hs hscan)
    sized_start h

def Device.scanned (r : Reader) (d : Device) (hes : d.erasesize ≠ 0)
    (h : (scanMtd r d).isSome) : Scanned d where
  sectors := ((scanMtd r d).get h).sectors
  ids := ((scanMtd r d).get h).ids
  sectors_length := (scanMtd_sized hes (Option.some_get h).symm).sectors
  ids_length := (scanMtd_sized hes (Option.some_get h).symm).ids
  erasesize_ne := hes

theorem visitAll_cons (sector : Nat) :
    visitAll r id s (sector :: sectors) walk =
      ((visitAll r id s sectors (visit r id s walk sector).1).1,
        (visit r id s walk sector).2.toList ++
          (visitAll r id s sectors (visit r id s walk sector).1).2) := rfl

theorem foldlM_findStep (sectors : List Nat) (walk : Walk) (g : Segments) :
    sectors.foldlM (findStep w r id s) ⟨walk, g⟩ =
      ((visitAll r id s sectors walk).2.foldlM (take w) g).map fun g' =>
        ⟨(visitAll r id s sectors walk).1, g'⟩ := by
  induction sectors generalizing walk g with
  | nil => rfl
  | cons sector sectors ih =>
    rw [foldlM_cons, visitAll_cons, findStep]
    cases hfound : (visit r id s walk sector).2 with
    | none =>
      exact ih _ g
    | some x =>
      rw [Option.toList_some, singleton_append, foldlM_cons]
      dsimp only
      cases htake : take w g x with
      | none => rfl
      | some g' => exact ih _ g'

theorem length_visitAll_le (sectors : List Nat) (walk : Walk) :
    (visitAll r id s sectors walk).2.length ≤ sectors.length := by
  induction sectors generalizing walk with
  | nil => exact le_refl 0
  | cons sector sectors ih =>
    have hfound : (visit r id s walk sector).2.toList.length ≤ 1 := by
      cases (visit r id s walk sector).2 with
      | none => exact zero_le 1
      | some x => exact le_refl 1
    have hrest := ih (visit r id s walk sector).1
    rw [visitAll_cons, length_append, length_cons]
    omega

theorem findEntry_eq :
    findEntry w r id s =
      ((records r id s).foldlM (take w) { rev := 0, numSegments := 0, slots := [] }).bind fun g =>
        if Exits r id s then some .exit else finish g := by
  rw [findEntry, foldlM_findStep, Option.bind_eq_bind, Option.bind_map]
  rfl

end

/-! ## The slots at the end -/

theorem gather_missing {parts : List (Option (List UInt8))} (h : none ∈ parts.take n) :
    gather n (parts.map Slot.of) = some none := by
  induction parts generalizing n with
  | nil => simp at h
  | cons part parts ih =>
    cases n with
    | zero => simp at h
    | succ n =>
      cases part with
      | none => rfl
      | some data =>
        have hrest : none ∈ parts.take n := by simpa using h
        rw [map_cons, Slot.of, gather, ih hrest]
        rfl

theorem gather_full (parts : List (List UInt8)) :
    gather parts.length (parts.map fun data => Slot.of (some data)) =
      some (some parts.flatten) := by
  induction parts with
  | nil => rfl
  | cons data parts ih =>
    rw [map_cons, length_cons, Slot.of, gather, ih]
    rfl

theorem gather_outside {parts : List (List UInt8)} (h : parts.length < n) :
    gather n (parts.map fun data => Slot.of (some data)) = none := by
  induction parts generalizing n with
  | nil =>
    obtain ⟨n, rfl⟩ := exists_eq_add_one.mpr h
    rfl
  | cons data parts ih =>
    obtain ⟨n, rfl⟩ := exists_eq_add_one.mpr (lt_of_le_of_lt (zero_le _) h)
    rw [map_cons, Slot.of, gather, ih (lt_of_succ_lt_succ h)]
    rfl

theorem gather_holding_missing (hi : i < slotsOf w n) (hmissing : segment l i = none) :
    gather n (holding w l n) = some none := by
  have hmap : holding w l n = ((range (slotsOf w n)).map (segment l)).map Slot.of := by
    rw [map_map]
    rfl
  rw [hmap]
  apply gather_missing
  rw [take_of_length_le (by simpa using slotsOf_le w n)]
  exact mem_map.mpr ⟨i, mem_range.mpr hi, hmissing⟩

theorem holding_full (h : ∀ i < slotsOf w n, segment l i ≠ none) :
    holding w l n = ((range (slotsOf w n)).map fun i => (segment l i).getD []).map
      fun data => Slot.of (some data) := by
  rw [map_map]
  apply map_congr_left
  intro i hi
  obtain ⟨data, hdata⟩ := Option.ne_none_iff_exists'.mp (h i (mem_range.mp hi))
  rw [Function.comp_apply, hdata]
  rfl

/-! ## Lengths -/

theorem sum_segment_le (l : List Record) (n : Nat) :
    ∑ i ∈ Finset.range n, ((segment l i).getD []).length ≤
      TFFS_MAXIMUM_SEGMENT_SIZE * l.length := by
  induction l using reverseRecOn with
  | nil => simp [segment]
  | append_singleton l x ih =>
    have hterm : ∀ i, ((segment (l ++ [x]) i).getD []).length ≤
        ((segment l i).getD []).length + if x.seg = i then x.data.length else 0 := by
      intro i
      rw [segment_append]
      split
      · exact le_add_left _ _
      · exact le_add_right _ _
    have hone : (∑ i ∈ Finset.range n, if x.seg = i then x.data.length else 0) ≤
        x.data.length := by
      rw [Finset.sum_ite_eq]
      split
      · exact le_refl _
      · exact zero_le _
    calc ∑ i ∈ Finset.range n, ((segment (l ++ [x]) i).getD []).length
        ≤ ∑ i ∈ Finset.range n,
            (((segment l i).getD []).length + if x.seg = i then x.data.length else 0) :=
          Finset.sum_le_sum fun i _ => hterm i
      _ ≤ TFFS_MAXIMUM_SEGMENT_SIZE * l.length + x.data.length := by
          rw [Finset.sum_add_distrib]
          exact Nat.add_le_add ih hone
      _ ≤ TFFS_MAXIMUM_SEGMENT_SIZE * (l ++ [x]).length := by
          rw [length_append]
          exact Nat.add_le_add_left x.data_le _

/-! ## The number of the segments -/

theorem seg_ne_of_mem_current (h : x ∈ current l) : x.seg ≠ TFFS_SEGMENT_CLEARED :=
  (of_decide_eq_true (mem_filter.mp h).2).2

theorem newNumSegs_le_count (x : Record) : x.newNumSegs ≤ x.count := by
  rw [Record.newNumSegs, Record.count]
  split <;> exact mod_le _ _

theorem newNumSegs_eq_count (hseg : x.seg ≠ TFFS_SEGMENT_CLEARED) (hnext : x.next ≠ 4294967295) :
    x.newNumSegs = x.count := by
  have hseglt := x.seg_lt
  have hnextlt := x.next_lt
  rw [TFFS_SEGMENT_CLEARED] at hseg
  rw [Record.newNumSegs, Record.count]
  split <;> exact mod_eq_of_lt (by omega)

theorem numSegs_le_count (l : List Record) : numSegs l ≤ count l := by
  induction l using reverseRecOn with
  | nil => exact le_refl 0
  | append_singleton l x ih =>
    rw [numSegs_append, count_append]
    exact max_le_max ih (newNumSegs_le_count x)

theorem numSegs_eq_count (hseg : ∀ x ∈ l, x.seg ≠ TFFS_SEGMENT_CLEARED)
    (hnext : ∀ x ∈ l, x.next ≠ 4294967295) : numSegs l = count l := by
  induction l using reverseRecOn with
  | nil => rfl
  | append_singleton l x ih =>
    have hx : x ∈ l ++ [x] := mem_append_right l (mem_singleton.mpr rfl)
    rw [numSegs_append, count_append, newNumSegs_eq_count (hseg x hx) (hnext x hx),
      ih (fun y hy => hseg y (mem_append_left [x] hy))
        (fun y hy => hnext y (mem_append_left [x] hy))]

theorem concat_eq_none (hi : i < n) (hmissing : segment l i = none) : concat l n = none :=
  if_neg fun hall => hall i hi hmissing

theorem concat_next (hx : x ∈ current l) (hnext : x.next = 4294967295) :
    concat (current l) (count (current l)) = none := by
  have hcount : TFFS_SEGMENT_CLEARED < count (current l) := by
    refine lt_of_lt_of_le ?_ (le_count hx)
    rw [Record.count, hnext, if_neg (by decide), TFFS_SEGMENT_CLEARED]
    omega
  exact concat_eq_none hcount (segment_eq_none_iff.mpr fun y hy => seg_ne_of_mem_current hy)

theorem entryValue_eq_none (hi : i < numSegs (current l))
    (hmissing : segment (current l) i = none) :
    entryValue l = none := by
  rw [entryValue]
  split
  · rfl
  · exact concat_eq_none (hi.trans_le (numSegs_le_count _)) hmissing

theorem entryValue_empty (h : current l = []) : entryValue l = none := by
  rw [entryValue, h]
  exact if_pos (.inr rfl)

theorem entryValue_unclean (h : ¬(¬Cleared l ∧ ∀ x ∈ current l, x.next ≠ 4294967295)) :
    entryValue l = none := by
  rw [entryValue]
  split
  · rfl
  rename_i hclean
  have hnext : ¬∀ x ∈ current l, x.next ≠ 4294967295 :=
    fun hnext => h ⟨fun hcleared => hclean (.inl hcleared), hnext⟩
  push Not at hnext
  obtain ⟨x, hx, hnext⟩ := hnext
  exact concat_next hx hnext

theorem entryValue_full (hcleared : ¬Cleared l) (hnext : ∀ x ∈ current l, x.next ≠ 4294967295)
    (hpos : numSegs (current l) ≠ 0)
    (hall : ∀ i < numSegs (current l), segment (current l) i ≠ none) :
    entryValue l = some ((range (numSegs (current l))).flatMap
      fun i => (segment (current l) i).getD []) := by
  have hcount := numSegs_eq_count (fun x hx => seg_ne_of_mem_current hx) hnext
  rw [entryValue, ← hcount, if_neg (not_or.mpr ⟨hcleared, hpos⟩), concat, if_pos hall]

/-! ## The result -/

theorem finish_absent (hi : i < slotsOf w (numSegs (current l)))
    (hmissing : segment (current l) i = none) : finish (state w l) = some .absent := by
  rw [finish]
  split
  · rfl
  · rw [state, image_numSegments, image_slots, gather_holding_missing hi hmissing]

theorem finish_full (hpos : numSegs (current l) ≠ 0)
    (hall : ∀ i < slotsOf w (numSegs (current l)), segment (current l) i ≠ none)
    (hsize : TFFS_MAXIMUM_SEGMENT_SIZE * l.length < 4294967296) :
    finish (state w l) =
      if slotsOf w (numSegs (current l)) = numSegs (current l) then
        some (.value ((range (numSegs (current l))).flatMap
          fun i => (segment (current l) i).getD []))
      else none := by
  rw [finish, state, image_numSegments, image_slots, if_neg hpos, holding_full hall]
  by_cases hslots : slotsOf w (numSegs (current l)) = numSegs (current l)
  · have hfull := gather_full ((range (numSegs (current l))).map
      fun i => (segment (current l) i).getD [])
    rw [length_map, length_range] at hfull
    have hlen : ((range (numSegs (current l))).flatMap
        fun i => (segment (current l) i).getD []).length < 4294967296 := by
      rw [length_flatMap]
      refine lt_of_le_of_lt (sum_segment_le _ _) (lt_of_le_of_lt ?_ hsize)
      exact mul_le_mul_left _ (length_filter_le _ _)
    rw [if_pos hslots, hslots, hfull]
    exact if_pos hlen
  · rw [if_neg hslots, gather_outside]
    rw [length_map, length_range]
    exact lt_of_le_of_ne (slotsOf_le w _) hslots

theorem finish_iff (hin : Inside w (current l))
    (hsize : TFFS_MAXIMUM_SEGMENT_SIZE * l.length < 4294967296) :
    finish (state w l) = some (.ofValue (entryValue l)) ↔ EndOk w l := by
  rw [EndOk]
  by_cases hpos : numSegs (current l) = 0
  · rw [entryValue_empty (eq_nil_of_inside hin hpos)]
    exact ⟨fun _ => .inl hpos, fun _ => if_pos hpos⟩
  by_cases hmissing : ∃ i < slotsOf w (numSegs (current l)), segment (current l) i = none
  · obtain ⟨i, hi, hnone⟩ := hmissing
    rw [finish_absent hi hnone, entryValue_eq_none (hi.trans_le (slotsOf_le w _)) hnone]
    exact ⟨fun _ => .inr (.inl ⟨i, hi, hnone⟩), fun _ => rfl⟩
  · have hall : ∀ i < slotsOf w (numSegs (current l)), segment (current l) i ≠ none :=
      fun i hi hnone => hmissing ⟨i, hi, hnone⟩
    rw [finish_full hpos hall hsize, or_iff_right hpos, or_iff_right hmissing]
    by_cases hslots : slotsOf w (numSegs (current l)) = numSegs (current l)
    · rw [if_pos hslots, and_iff_right hslots]
      by_cases hclean : ¬Cleared l ∧ ∀ x ∈ current l, x.next ≠ 4294967295
      · rw [entryValue_full hclean.1 hclean.2 hpos (hslots ▸ hall)]
        exact ⟨fun _ => hclean, fun _ => rfl⟩
      · rw [entryValue_unclean hclean]
        refine ⟨fun h => ?_, fun h => absurd h hclean⟩
        cases h
    · rw [if_neg hslots]
      refine ⟨fun h => ?_, fun h => absurd h.1 hslots⟩
      cases h

section

variable {r : Reader} {id : Nat} {d : Device} {s : Scanned d}

theorem records_size : TFFS_MAXIMUM_SEGMENT_SIZE * (records r id s).length < 4294967296 := by
  have hlen : (records r id s).length ≤ d.numSectors :=
    (length_visitAll_le _ _).trans_eq length_range
  have hsize := d.size_lt
  rw [Device.numSectors, TFFS_SECTOR_SIZE] at hlen
  rw [TFFS_MAXIMUM_SEGMENT_SIZE, TFFS_ENTRY_HEADER_SIZE]
  omega

end

theorem oneBlock_lt : 0x4000 < 4294967296 := by
  decide

/-- A block whose sectors hold an entry of three segments after the header, one after the
other. -/
def threeSegments : Device where
  size := 0x4000
  erasesize := 0x4000
  size_lt := oneBlock_lt
  flash := storeBytes (storeBytes (storeBytes (storeBytes (fun _ => 0)
    0 [0x41, 0x56, 0x4d, 0x5f, 0x54, 0x46, 0x46, 0x53, 0, 0, 0, 0, 0, 0, 0, 2])
    0x800 [0, 0, 1, 0, 0, 0, 0, 1, 0, 0, 0, 0, 0, 0, 0, 1, 0, 0, 0, 0, 0, 0, 0, 1, 0x61])
    0x1000 [0, 0, 1, 0, 0, 0, 0, 1, 0, 0, 0, 0, 0, 0, 0, 1, 0, 0, 0, 1, 0, 0, 0, 2, 0x62])
    0x1800 [0, 0, 1, 0, 0, 0, 0, 1, 0, 0, 0, 0, 0, 0, 0, 1, 0, 0, 0, 2, 0, 0, 0, 0, 0x63]
  readable := fun _ => true
  oob := fun _ => some fun _ => 0xff

def threeSegmentsScanned : Scanned threeSegments :=
  threeSegments.scanned ⟨true, false⟩ (by decide) (by decide +kernel)

end OpenWrt.Tffs
