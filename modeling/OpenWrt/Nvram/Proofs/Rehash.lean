import OpenWrt.Nvram.Proofs.Image

/-!
# Reading the variables back

`_nvram_rehash` finds the strings that a commit wrote, puts them into an empty hash
table and adds those of the four `sdram_*` parameters that are missing.
-/

namespace OpenWrt.Nvram

open Lib List Option

variable {target : Target} {h : Handle}

/-! ## The parser -/

def varString (t : Tuple) : CString :=
  ⟨t.1.bytes ++ 61 :: t.2.bytes, by
    simp only [mem_append, mem_cons, not_or]
    exact ⟨t.1.property, by decide, t.2.property⟩⟩

theorem takeWhile_append_stop {p : UInt8 → Bool} {s rest : List UInt8} {c : UInt8}
    (hs : ∀ x ∈ s, p x) (hc : p c = false) : (s ++ c :: rest).takeWhile p = s := by
  rw [takeWhile_append_of_pos hs, takeWhile_cons_of_neg (by simp [hc]), append_nil]

theorem dropWhile_append_stop {p : UInt8 → Bool} {s rest : List UInt8} {c : UInt8}
    (hs : ∀ x ∈ s, p x) (hc : p c = false) :
    (s ++ c :: rest).dropWhile p = c :: rest := by
  rw [dropWhile_append_of_pos hs, dropWhile_cons_of_neg (by simp [hc])]

theorem cstring_append (s : CString) (rest : List UInt8) :
    cstring (s.bytes ++ 0 :: rest) = some (s, rest) := by
  have hs : ∀ x ∈ s.bytes, (decide (x ≠ 0)) := by
    intro x hx
    rw [decide_eq_true_eq]
    rintro rfl
    exact s.property hx
  have hdrop : (s.bytes ++ 0 :: rest).dropWhile (fun x => decide (x ≠ 0)) = 0 :: rest :=
    dropWhile_append_stop hs (by decide)
  have htake : (s.bytes ++ 0 :: rest).takeWhile (fun x => decide (x ≠ 0)) = s.bytes :=
    takeWhile_append_stop hs (by decide)
  unfold cstring
  split
  · rename_i hnil
    rw [hdrop] at hnil
    cases hnil
  · rename_i c l hcons
    rw [hdrop] at hcons
    cases hcons
    simp only [htake]
    rfl

theorem splitVar_varString {t : Tuple} (ht : (61 : UInt8) ∉ t.1.bytes) :
    splitVar (varString t) = t := by
  have hs : ∀ x ∈ t.1.bytes, (decide (x ≠ 61)) := by
    intro x hx
    rw [decide_eq_true_eq]
    rintro rfl
    exact ht hx
  have htake : (varString t).bytes.takeWhile (fun x => decide (x ≠ 61)) = t.1.bytes :=
    takeWhile_append_stop hs (by decide)
  have hdrop : (varString t).bytes.dropWhile (fun x => decide (x ≠ 61)) = 61 :: t.2.bytes :=
    dropWhile_append_stop hs (by decide)
  unfold splitVar
  apply Prod.ext
  · exact Subtype.ext htake
  · apply Subtype.ext
    simp only [hdrop]
    rfl

theorem eq_mem_varString (t : Tuple) : (61 : UInt8) ∈ (varString t).bytes :=
  mem_append_right _ mem_cons_self

theorem parseVars_encode {fuel : Nat} (pos : Nat) {ts : List Tuple} (hfuel : ts.length < fuel)
    (rest : List UInt8) :
    ∃ vars, parseVars fuel pos (encode ts ++ 0 :: rest) = some vars ∧
      vars.map (fun v => (v.name, v.value)) = ts.map fun t => splitVar (varString t) := by
  induction ts generalizing fuel pos with
  | nil =>
    rcases Nat.exists_eq_succ_of_ne_zero (ne_of_gt hfuel) with ⟨n, rfl⟩
    refine ⟨[], ?_, rfl⟩
    rfl
  | cons t ts ih =>
    rcases Nat.exists_eq_succ_of_ne_zero (ne_of_gt (Nat.zero_lt_of_lt hfuel)) with ⟨n, rfl⟩
    have hlen : ts.length < n := by
      simp only [length_cons] at hfuel
      omega
    rcases ih (pos + (varString t).length + 1) hlen with ⟨vars, hparse, hvars⟩
    have hsplit : encode (t :: ts) ++ 0 :: rest =
        (varString t).bytes ++ 0 :: (encode ts ++ 0 :: rest) := by
      simp [encode, varBytes, varString, CString.bytes]
    have hne : (varString t).bytes ≠ [] := ne_nil_of_mem (eq_mem_varString t)
    rw [hsplit]
    simp only [parseVars, cstring_append, if_neg hne, eq_mem_varString, hparse]
    exact ⟨_, rfl, by simp [hvars]⟩

theorem cstring_length {l rest : List UInt8} {s : CString} (h : cstring l = some (s, rest)) :
    l.length = s.length + 1 + rest.length := by
  unfold cstring at h
  split at h
  · cases h
  rename_i c r hdrop
  cases h
  have hall := congrArg length
    (takeWhile_append_dropWhile (p := fun x => decide (x ≠ 0)) (l := l))
  rw [hdrop, length_append, length_cons] at hall
  change l.length = (takeWhile _ l).length + 1 + rest.length
  omega

theorem splitVar_name (s : CString) : (61 : UInt8) ∉ (splitVar s).1.bytes := by
  intro hmem
  have := mem_takeWhile_imp hmem
  simp at this

theorem splitVar_length {s : CString} (heq : (61 : UInt8) ∈ s.bytes) :
    (splitVar s).1.length + 1 + (splitVar s).2.length = s.length := by
  have hparts := congrArg length
    (takeWhile_append_dropWhile (p := fun x => decide (x ≠ 61)) (l := s.bytes))
  have hdrop : s.bytes.dropWhile (fun x => decide (x ≠ 61)) ≠ [] := by
    intro hnil
    rw [dropWhile_eq_nil_iff] at hnil
    simpa using hnil 61 heq
  have hpos := length_pos_iff.mpr hdrop
  rw [length_append] at hparts
  change (s.bytes.takeWhile fun x => decide (x ≠ 61)).length + 1 +
    (s.bytes.dropWhile fun x => decide (x ≠ 61)).tail.length = s.bytes.length
  rw [length_tail]
  omega

theorem parseVars_mem {fuel pos : Nat} {l : List UInt8} {vars : List Parsed}
    (h : parseVars fuel pos l = some vars) {v : Parsed} (hv : v ∈ vars) :
    (61 : UInt8) ∉ v.name.bytes ∧ pos ≤ v.eq ∧ v.eq + v.value.length + 2 ≤ pos + l.length := by
  induction fuel generalizing pos l vars with
  | zero => cases h
  | succ fuel ih =>
    simp only [parseVars] at h
    cases hstr : cstring l with
    | none => simp [hstr] at h
    | some r =>
      rcases r with ⟨s, rest⟩
      have hl := cstring_length hstr
      simp only [hstr] at h
      split at h
      · cases h
        cases hv
      split at h
      · cases h
        cases hv
      rename_i heq
      rw [not_not] at heq
      rcases map_eq_some_iff.mp h with ⟨tail, htail, rfl⟩
      rcases mem_cons.mp hv with rfl | hv
      · have hparts := splitVar_length heq
        refine ⟨splitVar_name s, Nat.le_add_right _ _, ?_⟩
        change pos + (splitVar s).1.length + (splitVar s).2.length + 2 ≤ pos + l.length
        omega
      · have hrest := ih htail hv
        exact ⟨hrest.1, by omega, by omega⟩

/-! ## The table of a rehash -/

def addDefault (target : Target) (t : Tuples) (d : Tuple) : Tuples :=
  if (Table.get (bucket target) t d.1).isNone then Table.put (bucket target) t d.1 d.2 else t

/-- The parameters that the last three header words stand for. -/
def sdramDefaults (w : SdramWords) : List Tuple :=
  [(sdramInit, sprintfHex 4 (w.crcVerInit / 2 ^ 16)),
    (sdramConfig, sprintfHex 4 (w.configRefresh % 2 ^ 16)),
    (sdramRefresh, sprintfHex 4 (w.configRefresh / 2 ^ 16)),
    (sdramNcdl, sprintfHex 8 w.configNcdl)]

def rehashTable (target : Target) (vars : List Tuple) (w : SdramWords) : Tuples :=
  (sdramDefaults w).foldl (addDefault target)
    (vars.foldl (fun t e => Table.put (bucket target) t e.1 e.2) Table.empty)

def headerWords (target : Target) (h : Handle) : SdramWords where
  crcVerInit := word target.bigEndian h.mmap (h.offset + 8)
  configRefresh := word target.bigEndian h.mmap (h.offset + 12)
  configNcdl := word target.bigEndian h.mmap (h.offset + 16)

theorem foldl_nvramSet {vars : List Parsed} (h : Handle)
    (hfit : ∀ v ∈ vars, v.value.length + 1 ≤ h.length - h.offset) :
    vars.foldl (fun h v => (nvramSet target h v.name v.value).2) h =
      { h with
        nvramHash := (vars.map fun v => (v.name, v.value)).foldl
          (fun t e => Table.put (bucket target) t e.1 e.2) h.nvramHash } := by
  induction vars generalizing h with
  | nil => rfl
  | cons v vars ih =>
    have hv := hfit v mem_cons_self
    have hset : (nvramSet target h v.name v.value).2 =
        { h with nvramHash := Table.put (bucket target) h.nvramHash v.name v.value } := by
      simp only [nvramSet, if_neg (not_lt.mpr hv)]
    rw [foldl_cons, hset]
    exact ih _ fun v hv => hfit v (mem_cons_of_mem _ hv)

theorem foldl_setDefault (target : Target) (ds : List Tuple) (h : Handle)
    (hfit : ∀ d ∈ ds, d.2.length + 1 ≤ h.length - h.offset) :
    ds.foldl (fun h d => setDefault target h d.1 d.2) h =
      { h with nvramHash := ds.foldl (addDefault target) h.nvramHash } := by
  induction ds generalizing h with
  | nil => rfl
  | cons d ds ih =>
    have hd := hfit d mem_cons_self
    have hset : setDefault target h d.1 d.2 =
        { h with nvramHash := addDefault target h.nvramHash d } := by
      simp only [setDefault, addDefault, nvramGet, nvramSet, if_neg (not_lt.mpr hd)]
      split <;> rfl
    rw [foldl_cons, hset]
    exact ih _ fun d hd => hfit d (mem_cons_of_mem _ hd)

theorem length_sprintfHex (digits n : Nat) : (sprintfHex digits n).length = 2 + digits := by
  simp only [sprintfHex, CString.length, CString.bytes, hexString, length_append,
    length_map, length_reverse, length_range]
  rfl

def Handle.area (h : Handle) : List UInt8 :=
  slice h.mmap (h.offset + headerSize) (h.length - (h.offset + headerSize))

theorem nvramRehash_eq (target : Target) (hroom : h.offset + headerSize < h.length)
    {vars : List Parsed}
    (hparse : parseVars (h.area.length + 1) (h.offset + headerSize) h.area = some vars) :
    nvramRehash target h =
      some ({ h with
          nvramHash := rehashTable target (vars.map fun v => (v.name, v.value))
            (headerWords target h)
          nvramDead := [] },
        vars.flatMap fun v => [(v.eq, 1), (v.eq, 1)]) := by
  have hspace : 20 < h.length - h.offset := by
    simp only [headerSize] at hroom
    omega
  have hfit : ∀ v ∈ vars, v.value.length + 1 ≤ h.length - h.offset := by
    intro v hv
    have hmem := (parseVars_mem hparse hv).2
    have hlen : h.area.length = h.length - (h.offset + headerSize) := length_slice
    omega
  have hdefaults : ∀ d ∈ sdramDefaults (headerWords target h),
      d.2.length + 1 ≤ h.length - h.offset := by
    intro d hd
    simp only [sdramDefaults, mem_cons, not_mem_nil, or_false] at hd
    rcases hd with rfl | rfl | rfl | rfl <;> rw [length_sprintfHex] <;> omega
  have hset := foldl_setDefault target (sdramDefaults (headerWords target h)) { h with
      nvramHash := (vars.map fun v => (v.name, v.value)).foldl
        (fun t e => Table.put (bucket target) t e.1 e.2) Table.empty
      nvramDead := [] } hdefaults
  simp only [sdramDefaults, headerWords, foldl_cons, foldl_nil] at hset
  unfold Handle.area at hparse
  simp only [nvramRehash, hparse, map_some]
  rw [foldl_nvramSet { h with nvramHash := Table.empty, nvramDead := [] } hfit, hset]
  rfl

theorem parseVars_of_nvramRehash {r : Handle × List (Nat × Nat)}
    (hr : nvramRehash target h = some r) :
    ∃ vars, parseVars (h.area.length + 1) (h.offset + headerSize) h.area = some vars := by
  rcases map_eq_some_iff.mp hr with ⟨vars, hvars, -⟩
  exact ⟨vars, hvars⟩

theorem room_of_nvramRehash {r : Handle × List (Nat × Nat)}
    (hr : nvramRehash target h = some r) : h.offset + headerSize < h.length := by
  rcases parseVars_of_nvramRehash hr with ⟨vars, hvars⟩
  by_contra hroom
  have hempty : h.area = [] := by
    simp only [Handle.area, slice, map_eq_nil_iff, range_eq_nil]
    omega
  rw [hempty] at hvars
  cases hvars

/-! ## What the table of a rehash holds -/

theorem get_addDefault (target : Target) (t : Tuples) (d : Tuple) (name : CString) :
    Table.get (bucket target) (addDefault target t d) name =
      (Table.get (bucket target) t name).or (if name = d.1 then some d.2 else none) := by
  unfold addDefault
  by_cases hname : name = d.1
  · subst hname
    split
    · rename_i hnone
      rw [Table.get_put, isNone_iff_eq_none.mp hnone]
      simp
    · rename_i hsome
      rw [isNone_iff_eq_none] at hsome
      rcases ne_none_iff_exists'.mp hsome with ⟨v, hv⟩
      simp [hv]
  · rw [if_neg hname, or_none]
    split
    · rw [Table.get_put, if_neg hname]
    · rfl

theorem get_foldl_addDefault (target : Target) (t : Tuples) (ds : List Tuple) (name : CString) :
    Table.get (bucket target) (ds.foldl (addDefault target) t) name =
      (Table.get (bucket target) t name).or (Chain.find name ds) := by
  induction ds generalizing t with
  | nil => simp [Chain.find]
  | cons d ds ih =>
    rw [foldl_cons, ih, get_addDefault, Chain.find]
    by_cases hd : d.1 = name
    · simp [hd]
    · have hd' : ¬ name = d.1 := fun heq => hd heq.symm
      simp [hd, hd']

theorem wf_addDefault {t : Tuples} (hwf : Table.Wf (bucket target) t) (d : Tuple) :
    Table.Wf (bucket target) (addDefault target t d) := by
  unfold addDefault
  split
  · exact Table.wf_put hwf
  · exact hwf

theorem wf_rehashTable (target : Target) (vars : List Tuple) (w : SdramWords) :
    Table.Wf (bucket target) (rehashTable target vars w) := by
  unfold rehashTable
  have hwf : Table.Wf (bucket target)
      (vars.foldl (fun t e => Table.put (bucket target) t e.1 e.2) Table.empty) :=
    Table.wf_foldl_put Table.wf_empty
  generalize vars.foldl (fun t e => Table.put (bucket target) t e.1 e.2) Table.empty = t at hwf
  generalize sdramDefaults w = ds
  induction ds generalizing t with
  | nil => exact hwf
  | cons d ds ih => exact ih _ (wf_addDefault hwf d)

theorem get_rehashTable {vars : List Tuple} (hnodup : (Chain.keys vars).Nodup) (w : SdramWords)
    (name : CString) :
    Table.get (bucket target) (rehashTable target vars w) name =
      (Chain.find name vars).or (Chain.find name (sdramDefaults w)) := by
  rw [rehashTable, get_foldl_addDefault, Table.get_foldl_put hnodup]
  simp

theorem mem_keys_of_get_rehashTable {vars : List Tuple} {w : SdramWords} {name value : CString}
    (h : Table.get (bucket target) (rehashTable target vars w) name = some value) :
    name ∈ Chain.keys vars ∨ name ∈ Chain.keys (sdramDefaults w) := by
  rw [rehashTable, get_foldl_addDefault, or_eq_some_iff] at h
  rcases h with hvar | ⟨-, hdef⟩
  · left
    by_contra hnot
    have hnone : Table.get (bucket target)
        (vars.foldl (fun t e => Table.put (bucket target) t e.1 e.2) Table.empty) name = none :=
      Table.get_foldl_put_of_notMem hnot
    rw [hnone] at hvar
    cases hvar
  · right
    exact mem_map_of_mem (Chain.mem_of_find hdef)

end OpenWrt.Nvram
