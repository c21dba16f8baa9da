import OpenWrt.RouterBoot.Proofs.Scan

/-!
# The layout of the partitions

Each partition is only compared with the one before it, and the sum of its offset and size is
computed in a `size_t`.  As long as no sum overflows, the offsets are those of the nodes laid out
one after the other without a bound, and the partitions are well laid out.
-/

namespace OpenWrt.RouterBoot.Partitions

open Lib List Option

variable {w : SizeT} {size masterOfs ofs : Nat} {dyn : List DynPart} {n : PartNode}
  {nodes : List PartNode} {s s' : Placed} {p q : Part} {parts : List Part} {range : Nat × Nat}

/-! ## Offset and size of a node -/

theorem wellKnown_fits (hdyn : DynFits w dyn) {name : String}
    (h : wellKnown dyn name = some range) : range.1 < w.values ∧ range.2 < w.values := by
  obtain ⟨p, hp, rfl⟩ := map_eq_some_iff.mp h
  exact hdyn p (mem_of_find?_eq_some hp)

theorem overrideSize_lt {known size : Nat} (hknown : known < w.values)
    (h : overrideSize w n known = some size) : size < w.values := by
  rw [overrideSize] at h
  split at h
  · exact some.inj h ▸ hknown
  split at h
  · rw [← some.inj h]
    exact Nat.mod_lt _ (values_pos w)
  · cases h

theorem nodeRange_cases (hdyn : DynFits w dyn) (n : PartNode) :
    (∃ r, (∀ ofs, nodeRange w dyn ofs n = some r) ∧ r.1 < w.values ∧ r.2 < w.values) ∨
      (∃ size < w.values, ∀ ofs, nodeRange w dyn ofs n = some (ofs, size)) ∨
      ∀ ofs, nodeRange w dyn ofs n = none := by
  have hpos := values_pos w
  cases hreg : n.reg with
  | some reg =>
    have hrange (ofs : Nat) : nodeRange w dyn ofs n = fixedRange w n reg := by
      rw [nodeRange, hreg]
    by_cases hcells : reg.length = n.addrCells + n.sizeCells
    · refine .inl ⟨_, fun ofs => (hrange ofs).trans (if_pos hcells), ?_, ?_⟩
      all_goals exact Nat.mod_lt _ hpos
    · exact .inr (.inr fun ofs => (hrange ofs).trans (if_neg hcells))
  | none =>
    have hrange (ofs : Nat) : nodeRange w dyn ofs n = dynamicRange w dyn ofs n := by
      rw [nodeRange, hreg]
    cases hknown : wellKnown dyn n.name with
    | some r =>
      obtain ⟨hofs, hsize⟩ := wellKnown_fits hdyn hknown
      cases hover : overrideSize w n r.2 with
      | some size =>
        refine .inl ⟨(r.1, size), fun ofs => ?_, hofs, overrideSize_lt hsize hover⟩
        rw [hrange, dynamicRange, hknown, getD_some, hover]
        rfl
      | none =>
        refine .inr (.inr fun ofs => ?_)
        rw [hrange, dynamicRange, hknown, getD_some, hover]
        rfl
    | none =>
      cases hover : overrideSize w n 0 with
      | some size =>
        refine .inr (.inl ⟨size, overrideSize_lt hpos hover, fun ofs => ?_⟩)
        rw [hrange, dynamicRange, hknown, getD_none, hover]
        rfl
      | none =>
        refine .inr (.inr fun ofs => ?_)
        rw [hrange, dynamicRange, hknown, getD_none, hover]
        rfl

/-! ## One node -/

def prevEnd : List Part → Nat
  | [] => 0
  | p :: _ => (p.offset + p.size) % 18446744073709551616

def partOf (n : PartNode) (range : Nat × Nat) : Part :=
  ⟨n.name, range.1, range.2, n.readOnly, n.lock⟩

theorem joinPrev_some {offset : Nat} {parts' : List Part}
    (h : joinPrev offset parts = some parts') :
    prevEnd parts ≤ offset ∧ parts' = fillLast offset parts := by
  cases parts with
  | nil => exact ⟨Nat.zero_le _, (some.inj h).symm⟩
  | cons p ps =>
    rw [joinPrev] at h
    split at h
    · cases h
    · rename_i hend
      exact ⟨not_lt.mp hend, (some.inj h).symm⟩

theorem placeNode_some (h : placeNode w size dyn s n = some s') :
    ∃ range, nodeRange w dyn s.masterOfs n = some range ∧ prevEnd s.parts ≤ range.1 ∧
      (range.1 + range.2) % w.values ≤ size ∧
      s' = ⟨partOf n range :: fillLast range.1 s.parts,
        alignBlock w ((range.1 + range.2) % w.values)⟩ := by
  obtain ⟨range, hrange, h⟩ := bind_eq_some_iff.mp h
  obtain ⟨parts, hjoin, h⟩ := bind_eq_some_iff.mp h
  obtain ⟨hprev, rfl⟩ := joinPrev_some hjoin
  rw [placeRange] at h
  split at h
  · cases h
  · rename_i hend
    exact ⟨range, hrange, hprev, not_lt.mp hend, (some.inj h).symm⟩

theorem Part.fill_offset (stop : Nat) (p : Part) : (p.fill stop).offset = p.offset := by
  rw [Part.fill]
  split
  · rfl
  · rfl

theorem Part.fill_end {stop : Nat} (h : p.offset ≤ stop) :
    (p.fill stop).offset + (p.fill stop).size = if p.size = 0 then stop else p.offset + p.size := by
  rw [Part.fill]
  split
  · exact Nat.add_sub_cancel' h
  · rfl

theorem mem_fillLast {stop : Nat} (hp : p ∈ parts) (hsize : p.size ≠ 0) :
    p ∈ fillLast stop parts := by
  cases parts with
  | nil => exact absurd hp not_mem_nil
  | cons q ps =>
    rcases mem_cons.mp hp with rfl | hp
    · rw [fillLast, Part.fill, if_neg hsize]
      exact mem_cons_self
    · exact mem_cons_of_mem _ hp

theorem Laid.fillLast {stop : Nat} (h : Laid size parts) (hsize : size < 18446744073709551616)
    (hprev : prevEnd parts ≤ stop) (hstop : stop ≤ size) :
    Laid size (fillLast stop parts) ∧ ∀ p ∈ fillLast stop parts, p.offset + p.size ≤ stop := by
  cases parts with
  | nil => exact ⟨h, fun p hp => absurd hp not_mem_nil⟩
  | cons q ps =>
    have hq := h.inside q mem_cons_self
    rw [prevEnd, Nat.mod_eq_of_lt (by omega)] at hprev
    have hend : (q.fill stop).offset + (q.fill stop).size ≤ stop := by
      rw [Part.fill_end (by omega)]
      split
      · exact le_refl stop
      · exact hprev
    obtain ⟨hbefore, hrest⟩ := pairwise_cons.mp h.ascending
    refine ⟨⟨?_, ?_⟩, ?_⟩
    · refine pairwise_cons.mpr ⟨fun p hp => ?_, hrest⟩
      rw [Part.fill_offset]
      exact hbefore p hp
    · intro p hp
      rcases mem_cons.mp hp with rfl | hp
      · exact hend.trans hstop
      · exact h.inside p (mem_cons_of_mem q hp)
    · intro p hp
      rcases mem_cons.mp hp with rfl | hp
      · exact hend
      · have := hbefore p hp
        omega

theorem Laid.prevEnd_le (h : Laid size parts) : prevEnd parts ≤ size := by
  cases parts with
  | nil => exact Nat.zero_le size
  | cons p ps => exact (Nat.mod_le _ _).trans (h.inside p mem_cons_self)

theorem Laid.place (h : Laid size parts) (hsize : size < 18446744073709551616)
    (hprev : prevEnd parts ≤ range.1) (hend : range.1 + range.2 ≤ size) :
    Laid size (partOf n range :: Partitions.fillLast range.1 parts) := by
  obtain ⟨hfill, hstop⟩ := h.fillLast hsize hprev (by omega)
  refine ⟨pairwise_cons.mpr ⟨hstop, hfill.ascending⟩, ?_⟩
  intro p hp
  rcases mem_cons.mp hp with rfl | hp
  · exact hend
  · exact hfill.inside p hp

/-! ## Offsets without a bound -/

/-- `master_ofs` is the offset without a bound, or the next partition cannot be there. -/
structure Agrees (w : SizeT) (parts : List Part) (masterOfs ofs : Nat) : Prop where
  small : masterOfs < w.values
  same : masterOfs = ofs ∨ masterOfs < prevEnd parts ∧ w.values ≤ ofs

theorem Agrees.nodeRange_eq (h : Agrees w parts masterOfs ofs) (hdyn : DynFits w dyn)
    (hrange : nodeRange w dyn masterOfs n = some range) (hprev : prevEnd parts ≤ range.1) :
    nodeRange w dyn ofs n = some range ∧ range.1 < w.values ∧ range.2 < w.values := by
  rcases nodeRange_cases hdyn n with ⟨r, hr, hofs, hlen⟩ | ⟨len, hlen, hr⟩ | hr
  · rw [hr] at hrange
    cases hrange
    exact ⟨hr ofs, hofs, hlen⟩
  · rw [hr] at hrange
    cases hrange
    refine ⟨?_, h.small, hlen⟩
    rcases h.same with rfl | ⟨hlt, -⟩
    · exact hr masterOfs
    · exact absurd hprev (not_le.mpr hlt)
  · rw [hr] at hrange
    cases hrange

theorem alignBlock_lt (w : SizeT) (x : Nat) : alignBlock w x < w.values :=
  lt_of_le_of_lt (Nat.div_mul_le_self _ _) (Nat.mod_lt _ (values_pos w))

theorem agrees_place (hsize : size < 18446744073709551616) (hofs : range.1 < w.values)
    (hlen : range.2 < w.values)
    (hend : range.1 + range.2 < w.values ∨ range.1 + range.2 ≤ size) :
    Agrees w (partOf n range :: parts) (alignBlock w ((range.1 + range.2) % w.values))
      (alignUp (range.1 + range.2)) := by
  refine ⟨alignBlock_lt w _, ?_⟩
  have hvalues := values_le w
  have hprev : prevEnd (partOf n range :: parts) = range.1 + range.2 :=
    Nat.mod_eq_of_lt (show range.1 + range.2 < 18446744073709551616 by omega)
  have hlt := alignBlock_lt w ((range.1 + range.2) % w.values)
  obtain ⟨k, hk⟩ := block_dvd_values w
  rw [RB_BLOCK_SIZE] at hk
  rcases lt_or_ge (range.1 + range.2) w.values with hfits | hover
  · rw [Nat.mod_eq_of_lt hfits, alignBlock, alignUp, RB_BLOCK_SIZE]
    rcases lt_or_ge (range.1 + range.2 + (0x1000 - 1)) w.values with hsum | hwrap
    · exact .inl (by rw [Nat.mod_eq_of_lt hsum])
    · rw [Nat.mod_eq_sub_mod hwrap, Nat.mod_eq_of_lt (by omega)]
      omega
  · right
    refine ⟨by omega, ?_⟩
    rw [alignUp, RB_BLOCK_SIZE]
    omega

/-! ## The table of the scan -/

theorem dynFits_round {big : Bool} {m : Mtd} {t t' : Scan} (hd : Distinct t.parts)
    (h : findRound w big m t = some t') (hofs : t.offset < w.values) (ht : DynFits w t.parts) :
    DynFits w t'.parts := by
  rcases parts_cases hd h with hsame | ⟨pre, p, q, post, hparts, -, hparts', -, -, hq, hsize⟩
  · rw [hsame]
    exact ht
  rw [hparts] at ht
  rw [hparts']
  intro r hr
  rcases mem_append.mp hr with hr | hr
  · exact ht r (mem_append_left _ hr)
  rcases mem_cons.mp hr with rfl | hr
  · refine ⟨hq ▸ hofs, ?_⟩
    rcases hsize with hsize | hsize
    · rw [hsize]
      exact (ht p (mem_append_right _ mem_cons_self)).2
    · have hword := word_lt true m.flash (t.offset + 4)
      have hlarge := values_large w
      omega
  · exact ht r (mem_append_right _ (mem_cons_of_mem p hr))

/-- Whatever is on the flash, the numbers in the table are of type `size_t`. -/
theorem dynFits_of_comes {big : Bool} {m : Mtd} {table : List DynPart} {t : Scan}
    (hd : Distinct table) (htable : DynFits w table) (h : Comes w big m table t) :
    DynFits w t.parts := by
  obtain ⟨k, hk⟩ := h
  refine (walk_keeps (P := fun a => Sane w table a ∧ DynFits w a.parts) ?_
    ⟨⟨rfl, dvd_zero _, values_pos w⟩, htable⟩ hk).2
  rintro a b ⟨ha, hfits⟩ hab
  exact ⟨ha.round hd hab, dynFits_round (ha.distinct hd) hab ha.offset hfits⟩

/-! ## All nodes -/

theorem foldlM_keeps (hfold : nodes.foldlM (placeNode w size dyn) s = some s')
    (hp : p ∈ s.parts) (hpos : p.size ≠ 0) : p ∈ s'.parts := by
  induction nodes generalizing s with
  | nil =>
    cases hfold
    exact hp
  | cons n nodes ih =>
    obtain ⟨t, ht, hfold⟩ := bind_eq_some_iff.mp hfold
    obtain ⟨range, -, -, -, rfl⟩ := placeNode_some ht
    exact ih hfold (mem_cons_of_mem _ (mem_fillLast hp hpos))

section

variable (hdyn : DynFits w dyn) (hsize : size < 18446744073709551616)

include hdyn hsize

theorem laid_of_noOverflow (hfold : nodes.foldlM (placeNode w size dyn) s = some s')
    (hagrees : Agrees w s.parts s.masterOfs ofs) (hlaid : Laid size s.parts)
    (hno : NoOverflow w size (placements w dyn ofs nodes)) : Laid size s'.parts := by
  induction nodes generalizing s ofs with
  | nil =>
    cases hfold
    exact hlaid
  | cons n nodes ih =>
    obtain ⟨t, ht, hfold⟩ := bind_eq_some_iff.mp hfold
    obtain ⟨range, hrange, hprev, hend, rfl⟩ := placeNode_some ht
    obtain ⟨hideal, hofs, hlen⟩ := hagrees.nodeRange_eq hdyn hrange hprev
    rw [placements, hideal] at hno
    have hfirst := hno range mem_cons_self
    have hinside : range.1 + range.2 ≤ size := by
      rcases hfirst with hfits | hinside
      · rw [Nat.mod_eq_of_lt hfits] at hend
        exact hend
      · exact hinside
    exact ih hfold (agrees_place hsize hofs hlen hfirst) (hlaid.place hsize hprev hinside)
      fun r hr => hno r (mem_cons_of_mem range hr)

theorem exists_behind (hfold : nodes.foldlM (placeNode w size dyn) s = some s')
    (hagrees : Agrees w s.parts s.masterOfs ofs)
    (hover : ¬NoOverflow w size (placements w dyn ofs nodes)) :
    ∃ p ∈ s'.parts, p.size ≠ 0 ∧ size < p.offset + p.size := by
  induction nodes generalizing s ofs with
  | nil => exact absurd (fun r hr => absurd hr not_mem_nil) hover
  | cons n nodes ih =>
    obtain ⟨t, ht, hfold⟩ := bind_eq_some_iff.mp hfold
    obtain ⟨range, hrange, hprev, -, rfl⟩ := placeNode_some ht
    obtain ⟨hideal, hofs, hlen⟩ := hagrees.nodeRange_eq hdyn hrange hprev
    rw [placements, hideal] at hover
    by_cases hfirst : range.1 + range.2 < w.values ∨ range.1 + range.2 ≤ size
    · refine ih hfold (agrees_place hsize hofs hlen hfirst) fun hrest => hover ?_
      intro r hr
      rcases mem_cons.mp hr with rfl | hr
      · exact hfirst
      · exact hrest r hr
    · have hpos : (partOf n range).size ≠ 0 := show range.2 ≠ 0 by omega
      refine ⟨partOf n range, foldlM_keeps hfold mem_cons_self hpos, hpos, ?_⟩
      show size < range.1 + range.2
      omega

end

theorem partitionsParse_ok {memory : Bool}
    (h : partitionsParse w memory size dyn nodes = .ok parts) :
    nodes = [] ∧ parts = [] ∨
      ∃ s, nodes.foldlM (placeNode w size dyn) ⟨[], 0⟩ = some s ∧ parts = s.parts.reverse := by
  rw [partitionsParse] at h
  split at h
  · rename_i hnodes
    exact .inl ⟨hnodes, (Except.ok.inj h).symm⟩
  split at h
  · cases h
  cases hfold : nodes.foldlM (placeNode w size dyn) ⟨[], 0⟩ with
  | none =>
    rw [hfold] at h
    cases h
  | some s =>
    rw [hfold] at h
    exact .inr ⟨s, rfl, (Except.ok.inj h).symm⟩

theorem agrees_start (w : SizeT) : Agrees w [] 0 0 := ⟨values_pos w, .inl rfl⟩

/-- What is registered is well laid out exactly if, with all nodes accepted, the nodes laid out
one after the other have no end that is behind the device and too large for a `size_t`. -/
theorem well_laid_iff (w : SizeT) (memory : Bool) (size : Nat) (dyn : List DynPart)
    (nodes : List PartNode) (hdyn : DynFits w dyn) (hsize : size < 18446744073709551616) :
    WellLaid w memory size dyn nodes ↔
      ((∃ parts, partitionsParse w memory size dyn nodes = .ok parts) →
        NoOverflow w size (placements w dyn 0 nodes)) := by
  constructor
  · rintro hwell ⟨parts, hok⟩
    by_contra hover
    have hlaid := hwell parts hok
    rcases partitionsParse_ok hok with ⟨rfl, -⟩ | ⟨s, hfold, rfl⟩
    · exact hover fun r hr => absurd hr not_mem_nil
    · obtain ⟨p, hp, hpos, hbehind⟩ := exists_behind hdyn hsize hfold (agrees_start w) hover
      rw [reverse_reverse] at hlaid
      have := hlaid.inside p (mem_fillLast hp hpos)
      omega
  · intro hno parts hok
    rcases partitionsParse_ok hok with ⟨-, rfl⟩ | ⟨s, hfold, rfl⟩
    · exact ⟨List.Pairwise.nil, fun p hp => absurd hp not_mem_nil⟩
    · have hlaid : Laid size s.parts := laid_of_noOverflow hdyn hsize hfold (agrees_start w)
        ⟨List.Pairwise.nil, fun p hp => absurd hp not_mem_nil⟩ (hno ⟨_, hok⟩)
      rw [reverse_reverse]
      exact (hlaid.fillLast hsize hlaid.prevEnd_le (le_refl size)).1

theorem well_laid_open : WellLaid .bits32 true 0x10000 (rbDynparts false)
    [⟨"boot", some [0, 0x1000], none, 1, 1, true, false⟩,
     ⟨"firmware", none, none, 1, 1, false, false⟩] := by
  refine (well_laid_iff .bits32 true 0x10000 (rbDynparts false) _ ?_ (by decide)).mpr fun _ => ?_
  · rw [DynFits]
    decide
  · rw [NoOverflow]
    decide

def largeDtb : List DynPart := [⟨"dtb_config", fdtMagic false, true, 0x1000, 0xFFFFF000, true⟩]

theorem not_well_laid_largeDtb : ¬WellLaid .bits32 true 0x10000 largeDtb
    [⟨"dtb_config", none, none, 1, 1, false, false⟩] := by
  intro hwell
  have hlaid := hwell [⟨"dtb_config", 0x1000, 0xFFFFF000, false, false⟩] (by decide)
  have := hlaid.inside ⟨"dtb_config", 0x1000, 0xFFFFF000, false, false⟩ (by decide)
  exact absurd this (by decide)

end OpenWrt.RouterBoot.Partitions
