import OpenWrt.Bcm4908img.Proofs.Bootfs

/-!
# The end of the walks over the bootfs

A walk adds the length of a node, rounded up to four, to the offset.  It goes up to the end
of the file unless a length is zero after rounding.
-/

namespace OpenWrt.Bcm4908img

open Lib

variable {big : Bool} {f : Bytes}

theorem be_lt (bs : Bytes) : be bs < 256 ^ bs.length := by
  induction bs using List.reverseRecOn with
  | nil => exact Nat.one_pos
  | append_singleton bs b ih =>
    have hb := b.toNat_lt
    have hone : be [b] = b.toNat := Nat.zero_add _
    rw [be_append, List.length_append, List.length_singleton]
    omega

theorem host_lt {bs : Bytes} (h : bs.length ≤ 4) : host big bs < 4294967296 := by
  have hpow : 256 ^ bs.length ≤ 256 ^ 4 := Nat.pow_le_pow_right (by decide) h
  have hbe := be_lt bs
  have hrev := be_lt bs.reverse
  rw [List.length_reverse] at hrev
  rw [host]
  split <;> omega

theorem nodeStep_eq_zero_iff (f : Bytes) (offset : Nat) :
    nodeStep big f offset = 0 ↔ EmptyNode big f offset := by
  have hlt : host big (fread f (offset + 4) 4) < 4294967296 := by
    apply host_lt
    rw [length_fread]
    omega
  rw [nodeStep, EmptyNode]
  omega

section Next

variable {room n start : Nat} {found : Bytes → Bool}

theorem nextNode_some {offset b : Nat} (h : nextNode big room found f offset = some b) :
    b = offset + nodeStep big f offset ∧ offset + nodeSize ≤ f.length := by
  rw [nextNode] at h
  split at h
  · cases h
  · cases h
  · rename_i hnode
    cases h
    exact ⟨rfl, readNode_length hnode⟩
  · rename_i hnode
    cases h
    exact ⟨rfl, readNode_length hnode⟩
  · rename_i hnode
    split at h
    · cases h
    · cases h
      exact ⟨rfl, readNode_length hnode⟩

theorem nextNode_rises (a b : Nat) (h : nextNode big room found f a = some b) :
    a ≤ b ∧ a < f.length - 11 := by
  obtain ⟨rfl, hle⟩ := nextNode_some h
  have : nodeSize = 12 := rfl
  omega

theorem walk_moves_iff :
    (∀ n b, walk (nextNode big room found f) start n = some b →
        nextNode big room found f b ≠ some b) ↔
      ¬MeetsEmpty big (nextNode big room found) f start := by
  constructor
  · rintro hmoves ⟨n, offset, hwalk, hgoes, hempty⟩
    obtain ⟨b, hb⟩ := Option.ne_none_iff_exists'.mp hgoes
    obtain ⟨rfl, -⟩ := nextNode_some hb
    rw [(nodeStep_eq_zero_iff f offset).mpr hempty] at hb
    exact hmoves n offset hwalk hb
  · intro hnot n b hwalk hstay
    have hstep := (nextNode_some hstay).1
    refine hnot ⟨n, b, hwalk, by rw [hstay]; exact Option.some_ne_none b, ?_⟩
    exact (nodeStep_eq_zero_iff f b).mp (by omega)

theorem walk_ends_iff :
    (∃ n, walk (nextNode big room found f) start n = none) ↔
      ¬MeetsEmpty big (nextNode big room found) f start :=
  (ends_iff_of_rising nextNode_rises).trans walk_moves_iff

theorem walk_length_iff (hpos : 0 < f.length) :
    walk (nextNode big room found f) start f.length ≠ none ↔
      MeetsEmpty big (nextNode big room found) f start := by
  rw [← not_iff_not, not_not]
  constructor
  · exact fun hnone => walk_ends_iff.mp ⟨f.length, hnone⟩
  · exact fun hnot => walk_rising nextNode_rises (walk_moves_iff.mpr hnot) (by omega)

end Next

theorem readNode_ne_endless {room offset : Nat} : readNode big room f offset ≠ .error .endless := by
  intro h
  rw [readNode] at h
  split_ifs at h <;> cases h

theorem lsLoop_endless_iff (n offset : Nat) (out : List Bytes) (err : Int) :
    lsLoop big f n offset out err = .error .endless ↔ walk (lsNext big f) offset n ≠ none := by
  induction n generalizing offset out err with
  | zero => exact ⟨fun _ => Option.some_ne_none offset, fun _ => rfl⟩
  | succ n ih =>
    rw [lsLoop, walk_succ, lsNext, nextNode]
    cases hnode : readNode big (FILENAME_MAX + 1) f offset with
    | error e =>
      refine ⟨fun h => ?_, fun h => absurd rfl h⟩
      cases h
      exact absurd hnode readNode_ne_endless
    | ok node =>
      cases node with
      | none =>
        refine ⟨fun h => ?_, fun h => absurd rfl h⟩
        cases h
      | other => exact ih _ _ _
      | tooLong => exact ih _ _ _
      | entry name => exact ih _ _ _

theorem findEntry_endless_iff (oldname : Bytes) (n offset : Nat) :
    findEntry big f oldname n offset = .error .endless ↔
      walk (mvNext big oldname f) offset n ≠ none := by
  induction n generalizing offset with
  | zero => exact ⟨fun _ => Option.some_ne_none offset, fun _ => rfl⟩
  | succ n ih =>
    rw [findEntry, walk_succ, mvNext, nextNode, look]
    cases hnode : readNode big FILENAME_MAX f offset with
    | error e =>
      refine ⟨fun h => ?_, fun h => absurd rfl h⟩
      cases h
      exact absurd hnode readNode_ne_endless
    | ok node =>
      cases node with
      | none =>
        refine ⟨fun h => ?_, fun h => absurd rfl h⟩
        cases h
      | other => exact ih _
      | tooLong => exact ih _
      | entry name =>
        by_cases hname : nameString name = oldname
        · dsimp only
          rw [if_pos hname, if_pos (decide_eq_true hname)]
          refine ⟨fun h => ?_, fun h => absurd rfl h⟩
          cases h
        · dsimp only
          rw [if_neg hname, if_neg fun h => hname (of_decide_eq_true h)]
          exact ih _

theorem bootfsLs_endless_iff (info : Info) (hpos : 0 < f.length) :
    bootfsLs big f info = .error .endless ↔
      MeetsEmpty big (lsNext big) f info.bootfsOffset := by
  rw [bootfsLs, lsLoop_endless_iff]
  exact walk_length_iff hpos

theorem bootfsMv_endless_iff (info : Info) {oldname newname : CString}
    (hlen : newname.len = oldname.len) (rest : List CString) (hpos : 0 < f.length) :
    bootfsMv big (oldname :: newname :: rest) f info = .error .endless ↔
      MeetsEmpty big (mvNext big oldname.bytes) f info.bootfsOffset := by
  have hwalk : findEntry big f oldname.bytes f.length info.bootfsOffset = .error .endless ↔
      MeetsEmpty big (mvNext big oldname.bytes) f info.bootfsOffset :=
    (findEntry_endless_iff _ _ _).trans (walk_length_iff hpos)
  refine Iff.trans ?_ hwalk
  rw [bootfsMv, if_neg (not_not.mpr hlen)]
  cases findEntry big f oldname.bytes f.length info.bootfsOffset with
  | error e => simp only [Except.error.injEq]
  | ok e =>
    refine ⟨fun h => ?_, fun h => by cases h⟩
    -- a rename does not walk
    dsimp only [rename] at h
    split at h <;> cases h

/-- Both walks end exactly on the files in which they meet no empty node. -/
theorem walks_end_iff (big : Bool) (f : Bytes) (info : Info) :
    (LsEnds big f info ↔ ¬MeetsEmpty big (lsNext big) f info.bootfsOffset) ∧
      ∀ oldname : CString, (MvEnds big f info oldname ↔
        ¬MeetsEmpty big (mvNext big oldname.bytes) f info.bootfsOffset) := by
  refine ⟨?_, fun oldname => ?_⟩
  · rw [lsNext, ← walk_ends_iff]
    apply exists_congr
    intro n
    rw [ne_eq, lsLoop_endless_iff, not_not]
    rfl
  · rw [mvNext, ← walk_ends_iff]
    apply exists_congr
    intro n
    rw [ne_eq, findEntry_endless_iff, not_not]
    rfl

/-! ## An entry without a length -/

def zeroTail : Tail :=
  ⟨crc32 0xffffffff (entryBlock 0 ++ ubiBlock), WFI_VERSION, 0x4908, WFI_NAND128_FLASH,
    WFI_FLAG_SUPPORTS_BTRM⟩

theorem nextNode_zero {room : Nat} (hroom : 2 ≤ room) {found : Bytes → Bool}
    (hfound : found [0x61] = false) (tail : Tail) (vendor : Bytes) :
    nextNode false room found (entryImage 0 tail vendor) 0 = some 0 := by
  have hempty : EmptyNode false (entryImage 0 tail vendor) 0 := by
    left
    rfl
  rw [nextNode, readNode_entryImage 0 tail vendor hroom]
  dsimp only
  rw [hfound, (nodeStep_eq_zero_iff _ 0).mpr hempty]
  rfl

/-- With an entry of length zero at the start of the bootfs neither walk ends. -/
theorem walks_stay_zero :
    parse (entryImage 0 zeroTail []) = .ok (entryInfo zeroTail) ∧
      ¬LsEnds false (entryImage 0 zeroTail []) (entryInfo zeroTail) ∧
      ¬MvEnds false (entryImage 0 zeroTail []) (entryInfo zeroTail) nameB := by
  have h : Accepted (entryImage 0 zeroTail []) (entryInfo zeroTail) :=
    accepted_entryImage 0 zeroTail [] (.inl rfl) (by rw [zeroTail])
  have hls : lsNext false (entryImage 0 zeroTail []) 0 = some 0 :=
    nextNode_zero (by decide) rfl zeroTail []
  have hmv : mvNext false nameB.bytes (entryImage 0 zeroTail []) 0 = some 0 :=
    nextNode_zero (by decide) (by decide) zeroTail []
  refine ⟨h.parse, ?_, ?_⟩
  · rintro ⟨n, hends⟩
    refine hends ((lsLoop_endless_iff n _ [] 0).mpr ?_)
    rw [entryInfo, walk_stays hls]
    exact Option.some_ne_none 0
  · rintro ⟨n, hends⟩
    refine hends ((findEntry_endless_iff _ n _).mpr ?_)
    rw [entryInfo, walk_stays hmv]
    exact Option.some_ne_none 0

end OpenWrt.Bcm4908img
