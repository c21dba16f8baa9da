import Mathlib
import OpenWrt.RouterBoot.TagFind

/-!
# The lookup of a tag

The loop looks at the places of a walk and returns what is at the last one.  It rounds
lengths in 16 bits, so that its walk and the list of nodes are the same up to offset 65535.
-/

namespace OpenWrt.RouterBoot

open Lib

variable {w : SizeT} {round : Nat → Nat} {big : Bool} {a : Area} {head bufend tagId o z len : Nat}

/-! ## The loop -/

theorem ok_bind {α β : Type} (x : α) (f : α → Except Halt β) : (Except.ok x >>= f) = f x := rfl

def tagEnd (big : Bool) (a : Area) (head bufend z : Nat) : Except Halt (Option (Nat × Nat)) :=
  if bufend ≤ z then .ok none
  else if a.size < z + 4 then .error .overrun
  else if a.node big z = 0 ∨ bufend ≤ z + 4 then .ok none
  else .ok (some ((z + 4 - head) % 65536, nodeLen (a.node big z)))

theorem nextTag_of_passes (h : Passes big a bufend tagId o) :
    nextTag round big a bufend tagId o = some (o + 4 + round (nodeLen (a.node big o))) := if_pos h

theorem not_passes_of_last (h : nextTag round big a bufend tagId z = none) :
    ¬Passes big a bufend tagId z := by
  intro hpass
  rw [nextTag_of_passes hpass] at h
  cases h

theorem passes_of_next (h : nextTag round big a bufend tagId o = some z) :
    Passes big a bufend tagId o ∧ z = o + 4 + round (nodeLen (a.node big o)) := by
  rw [nextTag] at h
  split at h
  · rename_i hpass
    exact ⟨hpass, (Option.some.inj h).symm⟩
  · cases h

theorem tagLoop_read (hlt : o < bufend) (hread : o + 4 ≤ a.size) (n : Nat) :
    tagLoop big a head bufend tagId (n + 1) o =
      if a.node big o = 0 then .ok none
      else if tagId = nodeId (a.node big o) then
        if bufend ≤ o + 4 then .ok none
        else .ok (some ((o + 4 - head) % 65536, nodeLen (a.node big o)))
      else tagLoop big a head bufend tagId n (o + 4 + alignLen (nodeLen (a.node big o))) := by
  rw [tagLoop, if_pos hlt, Area.read, if_pos hread, ok_bind]

theorem tagLoop_last (h : ¬Passes big a bufend tagId z) (n : Nat) :
    tagLoop big a head bufend tagId (n + 1) z = tagEnd big a head bufend z := by
  rw [tagEnd]
  by_cases hlt : z < bufend
  swap
  · rw [tagLoop, if_neg hlt, if_pos (not_lt.mp hlt)]
  rw [if_neg (not_le.mpr hlt)]
  by_cases hread : z + 4 ≤ a.size
  swap
  · rw [tagLoop, if_pos hlt, Area.read, if_neg hread, if_pos (not_le.mp hread)]
    rfl
  rw [if_neg (not_lt.mpr hread), tagLoop_read hlt hread]
  by_cases hnode : a.node big z = 0
  · rw [if_pos hnode, if_pos (.inl hnode)]
  have hid : tagId = nodeId (a.node big z) := by
    by_contra hid
    exact h ⟨hlt, hread, hnode, hid⟩
  rw [if_neg hnode, if_pos hid]
  by_cases hlast : bufend ≤ z + 4
  · rw [if_pos hlast, if_pos (.inr hlast)]
  · rw [if_neg hlast, if_neg (not_or.mpr ⟨hnode, hlast⟩)]

theorem tagLoop_walk {k n : Nat}
    (hwalk : walk (nextTag alignLen big a bufend tagId) o k = some z)
    (hlast : nextTag alignLen big a bufend tagId z = none) (hk : k < n) :
    tagLoop big a head bufend tagId n o = tagEnd big a head bufend z := by
  induction k generalizing o n with
  | zero =>
    obtain rfl : o = z := Option.some.inj hwalk
    obtain ⟨n, rfl⟩ := Nat.exists_eq_add_one.mpr hk
    exact tagLoop_last (not_passes_of_last hlast) n
  | succ k ih =>
    rw [walk_succ] at hwalk
    obtain ⟨p, hp, hwalk⟩ := Option.bind_eq_some_iff.mp hwalk
    obtain ⟨hpass, rfl⟩ := passes_of_next hp
    obtain ⟨n, rfl⟩ := Nat.exists_eq_add_one.mpr (Nat.zero_lt_of_lt hk)
    obtain ⟨hlt, hread, hnode, hid⟩ := hpass
    rw [tagLoop_read hlt hread, if_neg hnode, if_neg hid]
    exact ih hwalk (Nat.lt_of_succ_lt_succ hk)

theorem nextTag_rises {p q : Nat} (h : nextTag round big a bufend tagId p = some q) :
    p ≤ q ∧ p < bufend := by
  obtain ⟨hpass, rfl⟩ := passes_of_next h
  exact ⟨by omega, hpass.1⟩

theorem exists_lastTag (round : Nat → Nat) (big : Bool) (a : Area) (bufend tagId start : Nat) :
    ∃ k z, k < bufend - start + 1 ∧
      walk (nextTag round big a bufend tagId) start k = some z ∧
      nextTag round big a bufend tagId z = none := by
  apply exists_last
  refine walk_rising (fun p q => nextTag_rises) ?_ (Nat.lt_succ_self _)
  intro n b _ hstay
  obtain ⟨-, hb⟩ := passes_of_next hstay
  omega

theorem tagLoop_eq (hmeets : Meets alignLen big a bufend tagId o z)
    (hlast : ¬Passes big a bufend tagId z) {n : Nat} (hn : bufend - o < n) :
    tagLoop big a head bufend tagId n o = tagEnd big a head bufend z := by
  obtain ⟨m, hm⟩ := hmeets
  obtain ⟨k, y, hk, hy, hyend⟩ := exists_lastTag alignLen big a bufend tagId o
  have hzend : nextTag alignLen big a bufend tagId z = none := if_neg hlast
  obtain rfl := last_unique hy hyend hm hzend
  exact tagLoop_walk hy hyend (by omega)

/-! ## The first node -/

theorem not_passes_of_id (h : nodeId (a.node big o) = tagId) : ¬Passes big a bufend tagId o :=
  fun hpass => hpass.2.2.2 h.symm

theorem meets_alignLen (h : Meets align4 big a bufend tagId head o) (ho : o < 65536) :
    Meets alignLen big a bufend tagId head o := by
  obtain ⟨n, hn⟩ := h
  refine ⟨n, ?_⟩
  induction n generalizing o with
  | zero =>
    rw [walk] at hn ⊢
    exact hn
  | succ n ih =>
    rw [walk] at hn ⊢
    obtain ⟨p, hp, hnext⟩ := Option.bind_eq_some_iff.mp hn
    obtain ⟨hpass, rfl⟩ := passes_of_next hnext
    have hsmall : align4 (nodeLen (a.node big p)) < 65536 := by omega
    rw [ih (by omega) hp, Option.bind_some, nextTag_of_passes hpass, alignLen,
      Nat.mod_eq_of_lt hsmall]

theorem firstNode_unique {o' len' : Nat} (h : FirstNode big a tagId o len)
    (h' : FirstNode big a tagId o' len') : o = o' ∧ len = len' := by
  obtain ⟨⟨m, hm⟩, -, hid, hlen⟩ := h
  obtain ⟨⟨n, hn⟩, -, hid', hlen'⟩ := h'
  have ho : o = o' := last_unique hm (if_neg (not_passes_of_id hid)) hn
    (if_neg (not_passes_of_id hid'))
  subst ho
  exact ⟨rfl, hlen.symm.trans hlen'⟩

/-! ## The lookup -/

def findEnd (big : Bool) (a : Area) (head bufend z : Nat) : Except Halt (Except Int (Nat × Nat)) :=
  if bufend ≤ z then .ok (.error (- ENOENT))
  else if a.size < z + 4 then .error .overrun
  else if a.node big z = 0 ∨ bufend ≤ z + 4 then .ok (.error (- ENOENT))
  else .ok (.ok ((z + 4 - head) % 65536, nodeLen (a.node big z)))

theorem tagFind_eq {buflen : Nat} (htag : tagId ≠ 0) (hend : bufend = (head + buflen) % w.values)
    (hmeets : Meets alignLen big a bufend tagId head z) (hlast : ¬Passes big a bufend tagId z) :
    tagFind w big a head buflen tagId = findEnd big a head bufend z := by
  have hfuel : bufend - head < buflen + 1 := by
    have hle := Nat.mod_le (head + buflen) w.values
    omega
  rw [tagFind, if_neg htag, ← hend, tagLoop_eq hmeets hlast hfuel, tagEnd, findEnd]
  split
  · rfl
  split
  · rfl
  split
  · rfl
  · rfl

theorem exists_findEnd {buflen : Nat} (big : Bool) (a : Area) (htag : tagId ≠ 0)
    (hend : bufend = (head + buflen) % w.values) :
    ∃ z, Meets alignLen big a bufend tagId head z ∧ ¬Passes big a bufend tagId z ∧
      tagFind w big a head buflen tagId = findEnd big a head bufend z := by
  obtain ⟨k, z, -, hz, hzend⟩ := exists_lastTag alignLen big a bufend tagId head
  have hlast := not_passes_of_last hzend
  exact ⟨z, ⟨k, hz⟩, hlast, tagFind_eq htag hend ⟨k, hz⟩ hlast⟩

theorem size_eq_end (hsize : a.size < w.values) : a.size = (0 + a.size) % w.values := by
  rw [zero_add, Nat.mod_eq_of_lt hsize]

theorem node_ne_zero (htag : tagId ≠ 0) (hid : nodeId (a.node big o) = tagId) :
    a.node big o ≠ 0 := by
  intro hnull
  rw [hnull] at hid
  exact htag hid.symm

section

variable (htag : tagId ≠ 0) (hsize : a.size < w.values)

include htag hsize

theorem tagFind_first (h : FirstNode big a tagId o len) (ho : o < 65536) :
    tagFind w big a 0 a.size tagId =
      .ok (if a.size ≤ o + 4 then .error (- ENOENT) else .ok ((o + 4) % 65536, len)) := by
  obtain ⟨hmeets, hread, hid, hlen⟩ := h
  rw [tagFind_eq htag (size_eq_end hsize) (meets_alignLen hmeets ho) (not_passes_of_id hid),
    findEnd, if_neg (by omega), if_neg (by omega), hlen, Nat.sub_zero]
  by_cases hlast : a.size ≤ o + 4
  · rw [if_pos (.inr hlast), if_pos hlast]
  · rw [if_neg (not_or.mpr ⟨node_ne_zero htag hid, hlast⟩), if_neg hlast]

theorem tagFind_ofs_lt {ofs : Nat} (h : tagFind w big a 0 a.size tagId = .ok (.ok (ofs, len))) :
    ofs < 65536 := by
  obtain ⟨z, -, -, hz⟩ := exists_findEnd big a htag (size_eq_end hsize)
  rw [h, findEnd] at hz
  split at hz
  · cases hz
  split at hz
  · cases hz
  split at hz
  · cases hz
  · have hofs : ofs = (z + 4 - 0) % 65536 :=
      (Prod.mk.inj (Except.ok.inj (Except.ok.inj hz))).1
    rw [hofs]
    exact Nat.mod_lt _ (by decide)

theorem finds_of_reachable (h : FirstNode big a tagId o len) (hreach : Reachable a o len) :
    Finds w big a tagId := by
  obtain ⟨hofs, hmore, hinside⟩ := hreach
  have hfind := tagFind_first htag hsize h (by omega)
  rw [if_neg (not_le.mpr hmore), Nat.mod_eq_of_lt hofs] at hfind
  refine ⟨_, hfind, ⟨fun _ => ⟨o, len, h⟩, fun _ => ⟨_, rfl⟩⟩, ?_⟩
  intro o' len' h'
  obtain ⟨rfl, rfl⟩ := firstNode_unique h h'
  exact ⟨rfl, hinside⟩

theorem reachable_of_finds (hfinds : Finds w big a tagId) (h : FirstNode big a tagId o len) :
    Reachable a o len := by
  obtain ⟨r, hr, -, hfirst⟩ := hfinds
  obtain ⟨rfl, hinside⟩ := hfirst o len h
  have hofs := tagFind_ofs_lt htag hsize hr
  refine ⟨hofs, ?_, hinside⟩
  by_contra hmore
  rw [tagFind_first htag hsize h (by omega), if_pos (not_lt.mp hmore)] at hr
  cases hr

theorem finds_of_clean (hnone : ∀ o len, ¬FirstNode big a tagId o len)
    (hclean : Clean big a tagId) : Finds w big a tagId := by
  obtain ⟨z, hmeets, hlast, hfind⟩ := exists_findEnd big a htag (size_eq_end hsize)
  have hend : findEnd big a 0 a.size z = .ok (.error (- ENOENT)) := by
    rw [findEnd]
    by_cases hz : a.size ≤ z
    · exact if_pos hz
    obtain ⟨hread, hword⟩ := hclean z hmeets (not_le.mp hz)
    rw [if_neg hz, if_neg (not_lt.mpr hread)]
    by_cases hnode : a.node big z = 0
    · exact if_pos (.inl hnode)
    have hid : nodeId (a.node big z) = tagId := by
      by_contra hid
      exact hlast ⟨not_le.mp hz, hread, hnode, Ne.symm hid⟩
    exact if_pos (.inr (le_of_eq (hword hid).symm))
  refine ⟨_, hfind.trans hend, ⟨?_, ?_⟩, fun o len h => absurd h (hnone o len)⟩
  · rintro ⟨pld, hpld⟩
    cases hpld
  · rintro ⟨o, len, h⟩
    exact absurd h (hnone o len)

theorem clean_of_finds (hnone : ∀ o len, ¬FirstNode big a tagId o len)
    (hfinds : Finds w big a tagId) : Clean big a tagId := by
  obtain ⟨r, hr, hiff, -⟩ := hfinds
  intro o hmeets ho
  by_cases hpass : Passes big a a.size tagId o
  · exact ⟨hpass.2.1, fun hid => absurd hid.symm hpass.2.2.2⟩
  rw [tagFind_eq htag (size_eq_end hsize) hmeets hpass, findEnd, if_neg (not_le.mpr ho)] at hr
  split at hr
  · cases hr
  rename_i hread
  have hread := not_lt.mp hread
  refine ⟨hread, ?_⟩
  intro hid
  split at hr
  · rename_i hlast
    exact le_antisymm hread (hlast.resolve_left (node_ne_zero htag hid))
  · obtain ⟨o', len', h⟩ := hiff.mp ⟨_, (Except.ok.inj hr).symm⟩
    exact absurd h (hnone o' len')

end

/-- The lookup is the one of the list of nodes exactly if the payload of the first node of
that id is inside the buffer and has an offset of 16 bits; and, without such a node, if the
list with lengths rounded up in 16 bits has a whole word at each place and none of that id
but the last one. -/
theorem tag_find_iff (w : SizeT) (big : Bool) (a : Area) (tagId : Nat) (htag : tagId ≠ 0)
    (hsize : a.size < w.values) :
    Finds w big a tagId ↔
      (∀ o len, FirstNode big a tagId o len → Reachable a o len) ∧
        ((∀ o len, ¬FirstNode big a tagId o len) → Clean big a tagId) := by
  constructor
  · intro hfinds
    exact ⟨fun o len h => reachable_of_finds htag hsize hfinds h,
      fun hnone => clean_of_finds htag hsize hnone hfinds⟩
  · rintro ⟨hreach, hclean⟩
    by_cases hfirst : ∃ o len, FirstNode big a tagId o len
    · obtain ⟨o, len, h⟩ := hfirst
      exact finds_of_reachable htag hsize h (hreach o len h)
    · have hnone : ∀ o len, ¬FirstNode big a tagId o len :=
        fun o len h => hfirst ⟨o, len, h⟩
      exact finds_of_clean htag hsize hnone (hclean hnone)

def oneTag : Area := ⟨fun i => [1, 0, 4, 0].getD i 0, 8⟩

theorem tag_find_oneTag : oneTag.size < SizeT.bits32.values ∧
    Finds .bits32 false oneTag 1 := by
  have hsize : oneTag.size < SizeT.bits32.values := by decide
  have hfirst : FirstNode false oneTag 1 0 4 := ⟨⟨0, rfl⟩, by decide, by decide, by decide⟩
  refine ⟨hsize, (tag_find_iff .bits32 false oneTag 1 (by decide) hsize).mpr ⟨?_, ?_⟩⟩
  · intro o len h
    obtain ⟨rfl, rfl⟩ := firstNode_unique hfirst h
    exact ⟨by decide, by decide, by decide⟩
  · intro hnone
    exact absurd hfirst (hnone 0 4)

def oddEnd : Area := ⟨fun i => [2, 0, 0, 0, 1].getD i 0, 5⟩

theorem not_finds_oddEnd : ¬Finds .bits32 false oddEnd 1 := by
  rintro ⟨r, hr, -⟩
  cases hr

end OpenWrt.RouterBoot
