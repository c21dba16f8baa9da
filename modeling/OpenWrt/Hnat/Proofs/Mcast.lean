import Mathlib.Data.Nat.Find
import OpenWrt.Hnat.Mcast

/-!
# The multicast table counts memberships

`mcast_entry_get` finds the entry of a group when no unused entry lies before it.  In every
run that keeps to this, to groups of one kind of member and to the first sixteen indices,
each entry is `entryOf` the members of its group.
-/

namespace OpenWrt.Hnat

open Function

variable {c : McastConfig} {ms : Members} {s : McastState} {n : Notification} {k : McastKey}

/-! ## The search -/

section Search

variable {mtbl : Nat → McastGroup} {vid : BitVec 16} {mac : BitVec 32}

/-- The comparison of `mcast_entry_get`, which leaves `mac_lo` and `valid` out. -/
def McastGroup.Matches (group : McastGroup) (vid : BitVec 16) (mac : BitVec 32) : Prop :=
  group.vid = vid ∧ group.macHi = mac

instance (group : McastGroup) (vid : BitVec 16) (mac : BitVec 32) :
    Decidable (group.Matches vid mac) :=
  inferInstanceAs (Decidable (_ ∧ _))

theorem mcastEntryGetFrom_used {m n p : Nat}
    (hused : ∀ i < m, (mtbl (p + i)).valid ∧ ¬(mtbl (p + i)).Matches vid mac) :
    mcastEntryGetFrom mtbl vid mac (m + n) p p none =
      mcastEntryGetFrom mtbl vid mac n (p + m) (p + m) none := by
  induction m generalizing p with
  | zero => rw [Nat.zero_add, Nat.add_zero]
  | succ m ih =>
    obtain ⟨hvalid, hmatch⟩ := hused 0 (Nat.succ_pos m)
    rw [Nat.add_zero] at hvalid hmatch
    have hstep : mcastEntryGetFrom mtbl vid mac (m + 1 + n) p p none =
        mcastEntryGetFrom mtbl vid mac (m + n) (p + 1) (p + 1) none := by
      rw [show m + 1 + n = m + n + 1 by omega, mcastEntryGetFrom,
        if_neg (by simp [hvalid]), if_neg (show ¬(_ ∧ _) from hmatch)]
    rw [hstep, ih, show p + 1 + m = p + (m + 1) by omega]
    intro i hi
    have := hused (i + 1) (by omega)
    rwa [show p + (i + 1) = p + 1 + i by omega] at this

theorem mcastEntryGetFrom_kept {m i p f : Nat}
    (hmatch : ∀ q, p ≤ q → q < p + m → ¬(mtbl q).Matches vid mac) :
    mcastEntryGetFrom mtbl vid mac m i p (some f) = some f := by
  induction m generalizing i p with
  | zero => rfl
  | succ m ih =>
    rw [mcastEntryGetFrom, if_neg (show ¬(_ ∧ _) from hmatch p (le_refl p) (by omega))]
    exact ih fun q hq hlt => hmatch q (by omega) (by omega)

theorem mcastEntryGet_entry {j : Nat} (hj : j < c.maxEntry)
    (hused : ∀ i < j, (s.mtbl i).valid ∧ ¬(s.mtbl i).Matches vid mac)
    (hvalid : (s.mtbl j).valid) (hmatch : (s.mtbl j).Matches vid mac) :
    mcastEntryGet c s vid mac = some j := by
  obtain ⟨m, hm⟩ : ∃ m, c.maxEntry = j + (m + 1) := ⟨c.maxEntry - j - 1, by omega⟩
  rw [mcastEntryGet, hm, mcastEntryGetFrom_used (by simpa using hused), Nat.zero_add,
    mcastEntryGetFrom, if_neg (by simp [hvalid]), if_pos (show _ ∧ _ from hmatch)]

theorem mcastEntryGet_unused {f : Nat} (hf : f < c.maxEntry)
    (hused : ∀ i < f, (s.mtbl i).valid ∧ ¬(s.mtbl i).Matches vid mac)
    (hfree : (s.mtbl f).valid = false)
    (hmatch : ∀ q, f ≤ q → q < c.maxEntry → ¬(s.mtbl q).Matches vid mac) :
    mcastEntryGet c s vid mac = some f := by
  obtain ⟨m, hm⟩ : ∃ m, c.maxEntry = f + (m + 1) := ⟨c.maxEntry - f - 1, by omega⟩
  rw [mcastEntryGet, hm, mcastEntryGetFrom_used (by simpa using hused), Nat.zero_add,
    mcastEntryGetFrom, if_pos ⟨rfl, hfree⟩]
  exact mcastEntryGetFrom_kept fun q hq hlt => hmatch q hq (by omega)

end Search

/-! ## Registers -/

theorem mcastH_fields (valid : Bool) (port : BitVec 4) (sel : BitVec 2) :
    (mcastH valid port sel).getLsbD 14 = valid ∧
      (mcastH valid port sel).extractLsb' 16 4 = port ∧
      (mcastH valid port sel).extractLsb' 20 2 = sel := by
  cases valid <;> revert port sel <;> decide +kernel

theorem update_engines (f : Nat → Nat → BitVec 32) (v : BitVec 32) (m index : Nat) :
    update (fun p i => if p < m ∧ i = index then v else f p i) m
        (update (fun i => if m < m ∧ i = index then v else f m i) index v) =
      fun p i => if p < m + 1 ∧ i = index then v else f p i := by
  funext p i
  by_cases hp : p = m
  · rw [hp, update_self]
    by_cases hi : i = index
    · rw [hi, update_self, if_pos ⟨Nat.lt_succ_self m, rfl⟩]
    · rw [update_of_ne hi, if_neg fun h => hi h.2, if_neg fun h => hi h.2]
  · have hlt : p < m + 1 ↔ p < m := by omega
    simp only [update_of_ne hp, hlt]

theorem foldl_setHnatMtbl {group : McastGroup} {index : Nat} (hindex : index < 0x10) {m : Nat}
    (hm : m ≤ c.ppeNum) (s : McastState) :
    (List.range m).foldl (fun s i => setHnatMtbl c group i index s) s =
      { s with
        ppeH := fun p i => if p < m ∧ i = index then group.regH else s.ppeH p i
        ppeL := fun p i => if p < m ∧ i = index then group.macHi else s.ppeL p i } := by
  induction m with
  | zero => simp
  | succ m ih =>
    rw [List.range_succ, List.foldl_append, ih (by omega), List.foldl_cons, List.foldl_nil,
      setHnatMtbl, if_neg (by omega), if_pos hindex]
    congr 1
    · exact update_engines s.ppeH group.regH m index
    · exact update_engines s.ppeL group.macHi m index

/-! ## Entries of a membership -/

theorem mem_groups_of_mem {m : McastKey × Kind} (h : m ∈ ms) : m.1 ∈ groups ms :=
  Multiset.mem_toFinset.mpr (Multiset.mem_map_of_mem Prod.fst h)

theorem mem_groups : k ∈ groups ms ↔ (k, Kind.eth) ∈ ms ∨ (k, Kind.other) ∈ ms := by
  constructor
  · rw [groups, Multiset.mem_toFinset, Multiset.mem_map]
    rintro ⟨⟨k', kind⟩, hmem, rfl⟩
    cases kind with
    | eth => exact .inl hmem
    | other => exact .inr hmem
  · exact fun h => h.elim mem_groups_of_mem mem_groups_of_mem

def entryOf (ms : Members) (k : McastKey) : McastGroup :=
  if k ∈ groups ms then
    ⟨k.macHi, k.macLo, k.vid, if (k, Kind.eth) ∈ ms then MCAST_TO_GDMA1 else MCAST_TO_PDMA,
      BitVec.ofNat 8 (ms.count (k, .eth)), BitVec.ofNat 8 (ms.count (k, .other)), true⟩
  else .cleared

theorem entryOf_valid : (entryOf ms k).valid ↔ k ∈ groups ms := by
  rw [entryOf]
  split
  · exact iff_of_true rfl ‹_›
  · exact iff_of_false Bool.false_ne_true ‹_›

theorem entryOf_key (h : k ∈ groups ms) : (entryOf ms k).key = k := by
  rw [entryOf, if_pos h, McastGroup.key]

theorem entryOf_counts : (entryOf ms k).eif = BitVec.ofNat 8 (ms.count (k, .eth)) ∧
    (entryOf ms k).oif = BitVec.ofNat 8 (ms.count (k, .other)) := by
  rw [entryOf]
  split
  · exact ⟨rfl, rfl⟩
  · rename_i hk
    have hzero (kind : Kind) : ms.count (k, kind) = 0 :=
      Multiset.count_eq_zero_of_notMem fun h => hk (mem_groups_of_mem h)
    rw [hzero, hzero]
    exact ⟨rfl, rfl⟩

structure Small (ms : Members) : Prop where
  count_le : ∀ m, ms.count m ≤ 255
  one_kind : ∀ k, (k, Kind.eth) ∈ ms → (k, Kind.other) ∉ ms

theorem ofNat_count_eq_zero (h : Small ms) (m : McastKey × Kind) :
    BitVec.ofNat 8 (ms.count m) = 0 ↔ m ∉ ms := by
  have hle := h.count_le m
  rw [← Multiset.count_eq_zero]
  constructor
  · intro hzero
    have := congrArg BitVec.toNat hzero
    rw [BitVec.toNat_ofNat, Nat.mod_eq_of_lt (by omega)] at this
    exact this
  · intro hzero
    rw [hzero]
    rfl

theorem countMember_entryOf (hlegal : n.Legal c ms) :
    ∃ port, n.countMember
        { entryOf ms n.key with
          macHi := (getMacFromMdbEntry n.addr).1, macLo := (getMacFromMdbEntry n.addr).2 } =
      ⟨n.key.macHi, n.key.macLo, n.key.vid, port,
        BitVec.ofNat 8 ((n.count ms).count (n.key, .eth)),
        BitVec.ofNat 8 ((n.count ms).count (n.key, .other)), true⟩ := by
  have hpred : ∀ x : Nat, 0 < x → BitVec.ofNat 8 x - 1#8 = BitVec.ofNat 8 (x - 1) := by
    intro x hx
    rw [show x = x - 1 + 1 by omega, BitVec.ofNat_add]
    exact BitVec.add_sub_cancel _ _
  cases htype : n.type with
  | newmdb =>
    refine ⟨(entryOf ms n.key).mcPort, ?_⟩
    cases hkind : n.kind <;>
      simp [Notification.countMember, Notification.count, htype, hkind, entryOf_counts,
        Notification.key, BitVec.ofNat_add]
  | delmdb =>
    refine ⟨(entryOf ms n.key).mcPort, ?_⟩
    rw [Notification.Legal, htype] at hlegal
    have hpos := Multiset.count_pos.mpr hlegal
    have hmem : n.key ∈ groups ms := mem_groups_of_mem hlegal
    have hvid : (entryOf ms n.key).vid = n.key.vid := congrArg McastKey.vid (entryOf_key hmem)
    cases hkind : n.kind <;> rw [hkind] at hpos <;>
      simp [Notification.countMember, Notification.count, htype, hkind, entryOf_counts,
        entryOf_valid.mpr hmem, hpred _ hpos, hvid] <;> simp [Notification.key]

theorem settle_entryOf (h : Small ms) (port : BitVec 8) :
    McastGroup.settle ⟨k.macHi, k.macLo, k.vid, port, BitVec.ofNat 8 (ms.count (k, .eth)),
      BitVec.ofNat 8 (ms.count (k, .other)), true⟩ = entryOf ms k := by
  have heth := ofNat_count_eq_zero h (k, .eth)
  have hother := ofNat_count_eq_zero h (k, .other)
  have hone := h.one_kind k
  by_cases hk : k ∈ groups ms
  · rw [McastGroup.settle, if_neg, McastGroup.setPort, if_neg, entryOf, if_pos hk]
    · by_cases he : (k, Kind.eth) ∈ ms
      · rw [if_neg (not_not.mpr (hother.mpr (hone he))), if_pos he]
      · rw [if_pos, if_neg he]
        exact fun hz => ((mem_groups.mp hk).resolve_left he) |> hother.mp hz
    · exact fun hz => hone (not_not.mp (mt heth.mpr hz.2)) |> (mt hother.mpr hz.1)
    · exact fun hz => (mem_groups.mp hk).elim (heth.mp hz.2) (hother.mp hz.1)
  · have hz := not_or.mp (mt mem_groups.mpr hk)
    rw [McastGroup.settle, if_pos ⟨hother.mpr hz.2, heth.mpr hz.1⟩, entryOf, if_neg hk]

/-! ## The invariant -/

/-- The interface exists, no unused entry lies before the entry that matches, which is that
of the group itself, the group has no member of the other kind, and the entry is one of the
first sixteen. -/
structure Served (c : McastConfig) (ms : Members) (s : McastState) (n : Notification) : Prop where
  found : n.found = true
  key_ne : ¬McastGroup.cleared.Matches n.key.vid n.key.macHi
  entry : ∀ i < c.maxEntry, (s.mtbl i).valid = true → (s.mtbl i).Matches n.key.vid n.key.macHi →
    (s.mtbl i).key = n.key ∧ ∀ j < i, (s.mtbl j).valid = true
  one_kind : ∀ kind, (n.key, kind) ∈ ms → kind = n.kind
  low : 0x10 < c.maxEntry → ∃ i < 0x10, (s.mtbl i).valid = false ∨ (s.mtbl i).key = n.key

structure McastInv (c : McastConfig) (ms : Members) (s : McastState) : Prop where
  small : Small ms
  entries : ∀ i < c.maxEntry, (s.mtbl i).valid = true →
    s.mtbl i = entryOf ms (s.mtbl i).key ∧ i < 0x10 ∧
      ∀ p < c.ppeNum, s.ppeH p i = (s.mtbl i).regH ∧ s.ppeL p i = (s.mtbl i).macHi
  unused : ∀ i < c.maxEntry, (s.mtbl i).valid = false → s.mtbl i = .cleared
  unique : ∀ i < c.maxEntry, ∀ j < c.maxEntry, (s.mtbl i).valid = true → (s.mtbl j).valid = true →
    (s.mtbl i).key = (s.mtbl j).key → i = j
  covers : ∀ k ∈ groups ms, ∃ i < c.maxEntry, (s.mtbl i).valid = true ∧ (s.mtbl i).key = k

theorem McastInv.start (hs : ∀ i, s.mtbl i = .cleared) : McastInv c 0 s := by
  have hvalid : ∀ i, (s.mtbl i).valid = true → False := by
    intro i h
    rw [hs i] at h
    exact Bool.false_ne_true h
  constructor
  · exact ⟨fun m => by simp, fun k hk => absurd hk (Multiset.notMem_zero _)⟩
  · exact fun i _ h => (hvalid i h).elim
  · exact fun i _ _ => hs i
  · exact fun i _ j _ h => (hvalid i h).elim
  · intro k hk
    simp [groups] at hk

section

variable (h : McastInv c ms s)

include h

theorem McastInv.mem_groups_of_valid {i : Nat} (hi : i < c.maxEntry)
    (hvalid : (s.mtbl i).valid) : (s.mtbl i).key ∈ groups ms := by
  rw [(h.entries i hi hvalid).1] at hvalid
  exact entryOf_valid.mp hvalid

theorem McastInv.exists_unused (hlegal : n.Legal c ms)
    (hnew : n.key ∉ groups ms) : ∃ i < c.maxEntry, (s.mtbl i).valid = false := by
  by_contra hfull
  have hvalid : ∀ i < c.maxEntry, (s.mtbl i).valid := by
    intro i hi
    exact Bool.eq_true_of_not_eq_false fun hf => hfull ⟨i, hi, hf⟩
  -- The keys of the entries are as many groups, and the new one comes on top.
  have hcard : c.maxEntry ≤ (groups ms).card := by
    have := Finset.card_le_card_of_injOn (s := Finset.range c.maxEntry) (t := groups ms)
      (fun i => (s.mtbl i).key)
      (fun i hi => h.mem_groups_of_valid (by simpa using hi) (hvalid i (by simpa using hi)))
      (by
        intro i hi j hj heq
        simp only [Finset.coe_range] at hi hj
        exact h.unique i hi j hj (hvalid i hi) (hvalid j hj) heq)
    rwa [Finset.card_range] at this
  cases htype : n.type with
  | newmdb =>
    rw [Notification.Legal, htype] at hlegal
    have hins : groups (n.count ms) = insert n.key (groups ms) := by
      rw [Notification.count, htype]
      simp [groups]
    have := hlegal.2
    rw [hins, Finset.card_insert_of_notMem hnew] at this
    omega
  | delmdb =>
    rw [Notification.Legal, htype] at hlegal
    exact hnew (mem_groups_of_mem hlegal)

theorem McastInv.exists_slot (hlegal : n.Legal c ms) (hserved : Served c ms s n) :
    ∃ i < c.maxEntry, i < 0x10 ∧ ((s.mtbl i).valid = false ∨ (s.mtbl i).key = n.key) := by
  by_cases hmax : 0x10 < c.maxEntry
  · obtain ⟨i, hi, hslot⟩ := hserved.low hmax
    exact ⟨i, by omega, hi, hslot⟩
  · by_cases hnew : n.key ∈ groups ms
    · obtain ⟨i, hi, _, hkey⟩ := h.covers _ hnew
      exact ⟨i, hi, by omega, .inr hkey⟩
    · obtain ⟨i, hi, hfree⟩ := h.exists_unused hlegal hnew
      exact ⟨i, hi, by omega, .inl hfree⟩

theorem McastInv.exists_first_slot (hlegal : n.Legal c ms) (hserved : Served c ms s n) :
    ∃ j < c.maxEntry, j < 0x10 ∧ ((s.mtbl j).valid = false ∨ (s.mtbl j).key = n.key) ∧
      ∀ i < j, (s.mtbl i).valid ∧ ¬(s.mtbl i).Matches n.key.vid n.key.macHi := by
  have hex : ∃ j, j < c.maxEntry ∧ j < 0x10 ∧
      ((s.mtbl j).valid = false ∨ (s.mtbl j).key = n.key) := by
    obtain ⟨i, hi, hslot⟩ := h.exists_slot hlegal hserved
    exact ⟨i, hi, hslot⟩
  classical
  obtain ⟨hj, hlow, hslot⟩ := Nat.find_spec hex
  refine ⟨Nat.find hex, hj, hlow, hslot, fun i hi => ?_⟩
  have hnot := Nat.find_min hex hi
  have hvalid : (s.mtbl i).valid :=
    Bool.eq_true_of_not_eq_false fun hf => hnot ⟨by omega, by omega, .inl hf⟩
  refine ⟨hvalid, fun hmatch => hnot ⟨by omega, by omega, .inr ?_⟩⟩
  exact (hserved.entry i (by omega) hvalid hmatch).1

theorem McastInv.not_matches_behind (hserved : Served c ms s n) {j q : Nat}
    (hfree : (s.mtbl j).valid = false) (hq : j ≤ q) (hlt : q < c.maxEntry) :
    ¬(s.mtbl q).Matches n.key.vid n.key.macHi := by
  intro hmatch
  cases hvq : (s.mtbl q).valid with
  | true =>
    have hne : j ≠ q := by
      rintro rfl
      exact Bool.noConfusion (hvq.symm.trans hfree)
    have hused := (hserved.entry q hlt hvq hmatch).2 j (by omega)
    exact Bool.noConfusion (hused.symm.trans hfree)
  | false =>
    rw [h.unused q hlt hvq] at hmatch
    exact hserved.key_ne hmatch

theorem McastInv.lookup (hlegal : n.Legal c ms) (hserved : Served c ms s n) :
    ∃ j < c.maxEntry, j < 0x10 ∧ mcastEntryGet c s n.vid (getMacFromMdbEntry n.addr).1 = some j ∧
      s.mtbl j = entryOf ms n.key ∧
      ∀ i < c.maxEntry, (s.mtbl i).valid → (s.mtbl i).key = n.key → i = j := by
  obtain ⟨j, hj, hlow, hslot, hmin⟩ := h.exists_first_slot hlegal hserved
  have hkeyed : ∀ i, (s.mtbl i).key = n.key → (s.mtbl i).Matches n.key.vid n.key.macHi := by
    intro i hkey
    rw [← hkey]
    exact ⟨rfl, rfl⟩
  refine ⟨j, hj, hlow, ?_⟩
  cases hvalid : (s.mtbl j).valid with
  | true =>
    have hkey := hslot.resolve_left (by rw [hvalid]; exact Bool.noConfusion)
    refine ⟨mcastEntryGet_entry hj hmin hvalid (hkeyed j hkey), ?_, ?_⟩
    · rw [← hkey]
      exact (h.entries j hj hvalid).1
    · exact fun i hi hvi hki => h.unique i hi j hj hvi hvalid (hki.trans hkey.symm)
  | false =>
    have hno : ∀ q, j ≤ q → q < c.maxEntry → ¬(s.mtbl q).Matches n.key.vid n.key.macHi :=
      fun q => h.not_matches_behind hserved hvalid
    have habsent : ∀ i < c.maxEntry, (s.mtbl i).valid = true → (s.mtbl i).key ≠ n.key := by
      intro i hi hvi hki
      by_cases hlt : i < j
      · exact (hmin i hlt).2 (hkeyed i hki)
      · exact hno i (by omega) hi (hkeyed i hki)
    have hnew : n.key ∉ groups ms := by
      intro hmem
      obtain ⟨i, hi, hvi, hki⟩ := h.covers _ hmem
      exact habsent i hi hvi hki
    refine ⟨mcastEntryGet_unused hj hmin hvalid hno, ?_, ?_⟩
    · rw [h.unused j hj hvalid, entryOf, if_neg hnew]
    · exact fun i hi hvi hki => absurd hki (habsent i hi hvi)

omit h in
theorem Notification.count_of_ne {m : McastKey × Kind} (hm : m.1 ≠ n.key) :
    (n.count ms).count m = ms.count m := by
  have hne : m ≠ (n.key, n.kind) := fun h => hm (congrArg Prod.fst h)
  cases htype : n.type <;> simp [Notification.count, htype, hne]

omit h in
theorem Notification.mem_count_of_ne {m : McastKey × Kind} (hm : m.1 ≠ n.key) :
    m ∈ n.count ms ↔ m ∈ ms := by
  rw [← Multiset.count_pos, count_of_ne hm, Multiset.count_pos]

omit h in
theorem Notification.mem_of_mem_count {m : McastKey × Kind} (hm : m ∈ n.count ms) :
    m ∈ ms ∨ m = (n.key, n.kind) := by
  cases htype : n.type with
  | newmdb =>
    rw [Notification.count, htype, Multiset.mem_cons] at hm
    exact hm.symm
  | delmdb =>
    rw [Notification.count, htype] at hm
    exact .inl (Multiset.mem_of_mem_erase hm)

omit h in
theorem entryOf_count_of_ne (hk : k ≠ n.key) : entryOf (n.count ms) k = entryOf ms k := by
  have hmem : k ∈ groups (n.count ms) ↔ k ∈ groups ms := by
    rw [mem_groups, mem_groups, n.mem_count_of_ne hk, n.mem_count_of_ne hk]
  have heth : (k, Kind.eth) ∈ n.count ms ↔ (k, Kind.eth) ∈ ms := n.mem_count_of_ne hk
  simp only [entryOf, hmem, heth, n.count_of_ne (m := (k, _)) hk]

omit h in
theorem Small.count (h : Small ms) (hlegal : n.Legal c ms)
    (hone : ∀ kind, (n.key, kind) ∈ ms → kind = n.kind) : Small (n.count ms) := by
  constructor
  · intro m
    have hle := h.count_le m
    cases htype : n.type with
    | newmdb =>
      by_cases hm : m = (n.key, n.kind)
      · rw [Notification.Legal, htype] at hlegal
        rw [hm]
        exact hlegal.1
      · rw [Notification.count, htype]
        simpa [Multiset.count_cons_of_ne hm] using hle
    | delmdb =>
      rw [Notification.count, htype]
      exact (Multiset.count_le_of_le m (Multiset.erase_le _ ms)).trans hle
  · intro k heth hother
    by_cases hk : k = n.key
    · have hkind : ∀ kind, (k, kind) ∈ n.count ms → kind = n.kind := by
        intro kind hmem
        rcases n.mem_of_mem_count hmem with hold | hnew
        · exact hone kind (hk ▸ hold)
        · exact congrArg Prod.snd hnew
      exact Kind.noConfusion ((hkind _ heth).trans (hkind _ hother).symm)
    · rw [n.mem_count_of_ne hk] at heth hother
      exact h.one_kind k heth hother

theorem hnatMcastTableUpdate_served (hlegal : n.Legal c ms)
    (hserved : Served c ms s n) {j : Nat} (hlow : j < 0x10)
    (hget : mcastEntryGet c s n.vid (getMacFromMdbEntry n.addr).1 = some j)
    (hentry : s.mtbl j = entryOf ms n.key) :
    (hnatMcastTableUpdate c n s).2 =
      { s with
        mtbl := update s.mtbl j (entryOf (n.count ms) n.key)
        ppeH := fun p i =>
          if p < c.ppeNum ∧ i = j then (entryOf (n.count ms) n.key).regH else s.ppeH p i
        ppeL := fun p i =>
          if p < c.ppeNum ∧ i = j then (entryOf (n.count ms) n.key).macHi else s.ppeL p i } := by
  obtain ⟨port, hcount⟩ := countMember_entryOf hlegal
  have hsettle := settle_entryOf (k := n.key) (h.small.count hlegal hserved.one_kind) port
  rw [hnatMcastTableUpdate, if_neg (by rw [hserved.found]; exact Bool.noConfusion)]
  dsimp only
  rw [hget]
  dsimp only
  rw [hentry, hcount, hsettle]
  exact foldl_setHnatMtbl hlow le_rfl _

theorem McastInv.step (hlegal : n.Legal c ms) (hserved : Served c ms s n) :
    McastInv c (n.count ms) (hnatMcastTableUpdate c n s).2 := by
  obtain ⟨j, hj, hlow, hget, hentry, honly⟩ := h.lookup hlegal hserved
  rw [hnatMcastTableUpdate_served h hlegal hserved hlow hget hentry]
  have hself : update s.mtbl j (entryOf (n.count ms) n.key) j =
      entryOf (n.count ms) n.key := update_self ..
  have hother : ∀ i ≠ j, update s.mtbl j (entryOf (n.count ms) n.key) i = s.mtbl i :=
    fun i hi => update_of_ne hi ..
  -- Entries other than `j` are those of other groups.
  have hne : ∀ i < c.maxEntry, i ≠ j → (s.mtbl i).valid = true → (s.mtbl i).key ≠ n.key :=
    fun i hi hij hvi hki => hij (honly i hi hvi hki)
  have hjkey : (entryOf (n.count ms) n.key).valid = true →
      (entryOf (n.count ms) n.key).key = n.key := fun hv => entryOf_key (entryOf_valid.mp hv)
  constructor
  · exact h.small.count hlegal hserved.one_kind
  · intro i hi hvi
    dsimp only at hvi ⊢
    by_cases hij : i = j
    · rw [hij, hself] at hvi ⊢
      refine ⟨by rw [hjkey hvi], hlow, fun p hp => ?_⟩
      rw [if_pos ⟨hp, rfl⟩, if_pos ⟨hp, rfl⟩]
      exact ⟨rfl, rfl⟩
    · rw [hother i hij] at hvi ⊢
      obtain ⟨heq, hlow', hregs⟩ := h.entries i hi hvi
      refine ⟨by rw [entryOf_count_of_ne (hne i hi hij hvi)]; exact heq, hlow', fun p hp => ?_⟩
      rw [if_neg fun h => hij h.2, if_neg fun h => hij h.2]
      exact hregs p hp
  · intro i hi hvi
    dsimp only at hvi ⊢
    by_cases hij : i = j
    · rw [hij, hself] at hvi ⊢
      rw [entryOf, if_neg]
      intro hmem
      rw [entryOf_valid.mpr hmem] at hvi
      exact Bool.noConfusion hvi
    · rw [hother i hij] at hvi ⊢
      exact h.unused i hi hvi
  · intro i hi i' hi' hvi hvi' heq
    dsimp only at hvi hvi' heq
    by_cases hij : i = j <;> by_cases hij' : i' = j
    · rw [hij, hij']
    · rw [hij, hself] at hvi heq
      rw [hother i' hij'] at hvi' heq
      exact absurd (heq.symm.trans (hjkey hvi)) (hne i' hi' hij' hvi')
    · rw [hij', hself] at hvi' heq
      rw [hother i hij] at hvi heq
      exact absurd (heq.trans (hjkey hvi')) (hne i hi hij hvi)
    · rw [hother i hij] at hvi heq
      rw [hother i' hij'] at hvi' heq
      exact h.unique i hi i' hi' hvi hvi' heq
  · intro k hk
    dsimp only
    by_cases hkey : k = n.key
    · refine ⟨j, hj, ?_⟩
      rw [hkey] at hk ⊢
      rw [hself]
      exact ⟨entryOf_valid.mpr hk, entryOf_key hk⟩
    · have hold : k ∈ groups ms := by
        rw [mem_groups] at hk ⊢
        rwa [n.mem_count_of_ne hkey, n.mem_count_of_ne hkey] at hk
      obtain ⟨i, hi, hvi, hki⟩ := h.covers k hold
      have hij : i ≠ j := by
        intro hij
        rw [hij, hentry] at hvi hki
        exact hkey (hki.symm.trans (entryOf_key (entryOf_valid.mp hvi)))
      refine ⟨i, hi, ?_⟩
      rw [hother i hij]
      exact ⟨hvi, hki⟩

omit h in
theorem entryOf_port (h : Small ms) (hk : k ∈ groups ms) :
    (entryOf ms k).mcPort.setWidth 4 = portsNeeded ms k := by
  have hone := h.one_kind k
  rw [entryOf, if_pos hk, portsNeeded]
  by_cases he : (k, Kind.eth) ∈ ms
  · rw [if_pos he, if_pos he, if_neg (hone he)]
    exact (BitVec.or_zero ..).symm
  · rw [if_neg he, if_neg he, if_pos ((mem_groups.mp hk).resolve_left he)]
    exact (BitVec.zero_or ..).symm

theorem McastInv.correct : TableCorrect c ms s where
  alive := fun i hi hvalid => h.mem_groups_of_valid hi hvalid
  entry := by
    intro k hk
    obtain ⟨i, hi, hvalid, hkey⟩ := h.covers k hk
    refine ⟨i, ⟨hi, hvalid, hkey⟩, fun j hj => ?_⟩
    exact h.unique j hj.1 i hi hj.2.1 hvalid (hj.2.2.trans hkey.symm)
  eif := by
    intro i hi hvalid
    have hle := h.small.count_le ((s.mtbl i).key, .eth)
    have := congrArg McastGroup.eif (h.entries i hi hvalid).1
    rw [this, entryOf_counts.1, BitVec.toNat_ofNat, Nat.mod_eq_of_lt (by omega)]
  oif := by
    intro i hi hvalid
    have hle := h.small.count_le ((s.mtbl i).key, .other)
    have := congrArg McastGroup.oif (h.entries i hi hvalid).1
    rw [this, entryOf_counts.2, BitVec.toNat_ofNat, Nat.mod_eq_of_lt (by omega)]
  regs := by
    intro i hi hvalid
    obtain ⟨heq, hlow, hregs⟩ := h.entries i hi hvalid
    have hH : ∀ p < c.ppeNum, regHOf s p i = (s.mtbl i).regH := by
      intro p hp
      rw [regHOf, if_pos hlow, (hregs p hp).1]
    constructor
    · intro p hp
      rw [regLOf, if_pos hlow, (hregs p hp).2]
    · intro p hp
      rw [hH p hp, McastGroup.regH, (mcastH_fields ..).1]
    · intro p hp
      have hport := congrArg McastGroup.mcPort heq
      rw [hH p hp, McastGroup.regH, (mcastH_fields ..).2.1, hport]
      exact entryOf_port h.small (h.mem_groups_of_valid hi hvalid)
    · intro p hp
      rw [hH p hp, McastGroup.regH, (mcastH_fields ..).2.2]

end

/-- In every run of notifications that are served the table counts the members. -/
theorem mcast_table_correct (hs : McastReached c (Served c) ms s) : TableCorrect c ms s := by
  have hinv : McastInv c ms s := by
    induction hs with
    | start hs => exact .start hs
    | step n _ hlegal hserved ih => exact ih.step hlegal hserved
  exact hinv.correct

/-! ## Fixed runs -/

def twoEngines : McastConfig := ⟨false, 2⟩

def member (type : MdbType) (d : BitVec 32) (dev : String) : Notification :=
  ⟨type, 1, .ip4 (d <<< 24 ||| 0xef#32), dev, true⟩

def clearTable : McastState :=
  ⟨fun _ => .cleared, fun _ _ => 0, fun _ _ => 0, fun _ => 0, fun _ => 0⟩

theorem mcast_table_correct_join :
    ∃ s, McastReached twoEngines (Served twoEngines)
        ((member .newmdb 1 "lan1").count 0) s ∧ (s.mtbl 0).valid = true ∧
      TableCorrect twoEngines ((member .newmdb 1 "lan1").count 0) s := by
  have h0 : McastReached twoEngines (Served twoEngines) 0 clearTable := .start fun _ => rfl
  have h1 := h0.step (member .newmdb 1 "lan1") (by decide +kernel)
    { found := rfl
      key_ne := by decide +kernel
      entry := fun _ _ hvalid => Bool.noConfusion hvalid
      one_kind := fun _ hmem => absurd hmem (Multiset.notMem_zero _)
      low := fun _ => ⟨0, by decide, .inl rfl⟩ }
  exact ⟨_, h1, by decide +kernel, mcast_table_correct h1⟩

/-- When the first of two groups is gone, the second member of the other one takes the entry
behind that of the group. -/
theorem second_entry_of_group :
    ∃ ms s, McastReached twoEngines (fun _ _ _ => True) ms s ∧ ¬TableCorrect twoEngines ms s := by
  have h0 : McastReached twoEngines (fun _ _ _ => True) 0 clearTable := .start fun _ => rfl
  have h1 := h0.step (member .newmdb 1 "lan1") (by decide +kernel) trivial
  have h2 := h1.step (member .newmdb 2 "lan1") (by decide +kernel) trivial
  have h3 := h2.step (member .delmdb 1 "lan1") (by decide +kernel) trivial
  have h4 := h3.step (member .newmdb 2 "lan2") (by decide +kernel) trivial
  refine ⟨_, _, h4, fun hcorrect => ?_⟩
  obtain ⟨i, _, hunique⟩ := hcorrect.entry (member .newmdb 2 "lan1").key (by decide +kernel)
  have hfirst := hunique 1 (by decide +kernel)
  have hsecond := hunique 2 (by decide +kernel)
  exact absurd (hfirst.trans hsecond.symm) (by decide)

end OpenWrt.Hnat
