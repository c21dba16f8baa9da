import OpenWrt.Mtd.Fis

/-!
# A remap is consistent if the table and the flash have room for it

The first loop finds the old images, the second one the flash behind them; the new
descriptors are stored one behind the other.  A table that gets shorter is never filled up:
the length of the `memset` is negative.
-/

namespace OpenWrt.Mtd.Fis

open List hiding Vector

variable {old new : List FisPart} {table : List FisImageDesc}
variable {i last : Nat} {descs : List FisImageDesc} {s : Scan} {part : FisPart}
  {parts : List FisPart} {size : UInt32}

/-! ## The first loop -/

theorem scan_takeWhile (i : Nat) (table : List FisImageDesc) (s : Scan) :
    scan old i table s = scan old i (table.takeWhile FisImageDesc.inUse) s := by
  induction table generalizing i s with
  | nil => rfl
  | cons desc table ih =>
    by_cases huse : desc.inUse = false
    · rw [takeWhile_cons_of_neg (by simp [huse]), scan.eq_2, if_pos huse, scan]
    · rw [takeWhile_cons_of_pos (by simpa using huse), scan, scan, if_neg huse, if_neg huse, ih]

theorem scan_append (huse : ∀ d ∈ descs, d.inUse) :
    scan old i (descs ++ table) s = scan old (i + descs.length) table (scan old i descs s) := by
  induction descs generalizing i s with
  | nil => rfl
  | cons desc descs ih =>
    have hdesc : ¬desc.inUse = false := by simp [huse desc mem_cons_self]
    rw [cons_append, scan, scan, if_neg hdesc, if_neg hdesc,
      ih fun d hd => huse d (mem_cons_of_mem _ hd), length_cons]
    congr 1
    omega

theorem scan_others (hother : ∀ d ∈ descs, isOld old d = false) :
    (scan old i descs s).first = s.first ∧ (scan old i descs s).last = s.last := by
  induction descs generalizing i s with
  | nil => exact ⟨rfl, rfl⟩
  | cons desc descs ih =>
    rw [scan]
    split
    · exact ⟨rfl, rfl⟩
    · have hstep := ih (i := i + 1) (s := s.step old i desc)
        fun d hd => hother d (mem_cons_of_mem _ hd)
      simpa [Scan.step, hother desc mem_cons_self] using hstep

theorem scan_olds_first (h : s.first ≠ none) : (scan old i descs s).first = s.first := by
  induction descs generalizing i s with
  | nil => rfl
  | cons desc descs ih =>
    rw [scan]
    split
    · rfl
    · have hfirst : (s.step old i desc).first = s.first := if_neg fun hnone => h hnone.2
      rw [ih (by rw [hfirst]; exact h), hfirst]

theorem scan_olds_last (huse : ∀ d ∈ descs, d.inUse) (hold : ∀ d ∈ descs, isOld old d)
    (hne : descs ≠ []) : (scan old i descs s).last = some (i + descs.length - 1) := by
  induction descs generalizing i s with
  | nil => exact absurd rfl hne
  | cons desc descs ih =>
    have hdesc : ¬desc.inUse = false := by simp [huse desc mem_cons_self]
    rw [scan, if_neg hdesc]
    by_cases hnil : descs = []
    · rw [hnil]
      exact if_pos (hold desc mem_cons_self)
    · rw [ih (fun d hd => huse d (mem_cons_of_mem _ hd))
        (fun d hd => hold d (mem_cons_of_mem _ hd)) hnil, length_cons]
      congr 1
      omega

/-! ## The two loops over flash addresses -/

theorem scan_offset (i : Nat) (table : List FisImageDesc) (s : Scan) :
    (scan old i table s).offset.toNat =
      ((table.takeWhile FisImageDesc.inUse).map (·.flashBase.toNat)).foldl max s.offset.toNat := by
  induction table generalizing i s with
  | nil => rfl
  | cons desc table ih =>
    by_cases huse : desc.inUse = false
    · rw [takeWhile_cons_of_neg (by simp [huse]), scan, if_pos huse]
      rfl
    · have hmax : (s.step old i desc).offset.toNat = max s.offset.toNat desc.flashBase.toNat := by
        simp only [Scan.step, UInt32.lt_iff_toNat_lt]
        split <;> omega
      rw [takeWhile_cons_of_pos (by simpa using huse), scan, if_neg huse, ih, hmax]
      rfl

theorem nextBase_eq (lastBase : UInt32) (table : List FisImageDesc) (offset : UInt32) :
    (nextBase lastBase table offset).toNat =
      (((table.takeWhile FisImageDesc.inUse).map (·.flashBase.toNat)).filter
        (lastBase.toNat < ·)).foldl min offset.toNat := by
  induction table generalizing offset with
  | nil => rfl
  | cons desc table ih =>
    by_cases huse : desc.inUse = false
    · rw [takeWhile_cons_of_neg (by simp [huse]), nextBase, if_pos huse]
      rfl
    rw [takeWhile_cons_of_pos (by simpa using huse), nextBase, if_neg huse, ih,
      map_cons]
    simp only [UInt32.lt_iff_toNat_lt]
    by_cases hlt : lastBase.toNat < desc.flashBase.toNat
    · rw [filter_cons_of_pos (by simpa using hlt), foldl_cons]
      congr 1
      split <;> omega
    · rw [filter_cons_of_neg (by simpa using hlt), if_neg fun h => hlt h.1]

theorem foldl_min_above {bases : List Nat} {top : Nat} (htop : top ∈ bases) :
    (bases.filter (top < ·)).foldl min (bases.foldl max 0) =
      (bases.filter (top < ·)).min?.getD top := by
  rw [foldl_max]
  cases hmin : (bases.filter (top < ·)).min? with
  | none =>
    have hnil := min?_eq_none_iff.mp hmin
    have hmax : bases.max? = some top := by
      refine max?_eq_some_iff.mpr ⟨htop, fun b hb => ?_⟩
      simpa using filter_eq_nil_iff.mp hnil b hb
    rw [hnil, hmax]
    rfl
  | some b =>
    rw [foldl_min, hmin]
    exact min_eq_right (le_max?_getD_of_mem (mem_of_mem_filter (min?_mem hmin)))

namespace Layout

variable (l : Layout old table)

def images : List FisImageDesc := l.before ++ l.olds ++ l.after

theorem inUse_of_mem {d : FisImageDesc} (h : d ∈ l.images) : d.inUse := by
  rw [images, ← l.table_eq] at h
  exact mem_takeWhile_imp h

theorem scan_eq : scan old 0 table {} =
    scan old (l.before.length + l.olds.length) l.after
      (scan old l.before.length l.olds (scan old 0 l.before {})) := by
  have hbefore : ∀ d ∈ l.before, d.inUse :=
    fun d hd => l.inUse_of_mem (mem_append_left _ (mem_append_left _ hd))
  have holds : ∀ d ∈ l.olds, d.inUse :=
    fun d hd => l.inUse_of_mem (mem_append_left _ (mem_append_right _ hd))
  rw [scan_takeWhile, l.table_eq, append_assoc, scan_append hbefore, scan_append holds,
    zero_add]

theorem scan_nil (hnil : l.olds = []) : (scan old 0 table {}).first = none := by
  rw [l.scan_eq, hnil]
  exact (scan_others l.isOld_after).1.trans (scan_others l.isOld_before).1

section

variable (hne : l.olds ≠ [])

include hne

theorem scan_first : (scan old 0 table {}).first = some l.before.length := by
  rw [l.scan_eq, (scan_others l.isOld_after).1]
  obtain ⟨desc, descs, hcons⟩ := exists_cons_of_ne_nil hne
  have hold : isOld old desc := l.isOld_olds desc (by rw [hcons]; exact mem_cons_self)
  have huse : ¬desc.inUse = false := by
    have hmem : desc ∈ l.images := by simp [images, hcons]
    simp [l.inUse_of_mem hmem]
  have hstep : ((scan old 0 l.before {}).step old l.before.length desc).first =
      some l.before.length := if_pos ⟨hold, (scan_others l.isOld_before).1⟩
  rw [hcons, scan, if_neg huse, scan_olds_first (by simp [hstep]), hstep]

theorem scan_last : (scan old 0 table {}).last = some (l.before.length + l.olds.length - 1) := by
  have holds : ∀ d ∈ l.olds, d.inUse :=
    fun d hd => l.inUse_of_mem (mem_append_left _ (mem_append_right _ hd))
  rw [l.scan_eq, (scan_others l.isOld_after).2]
  exact scan_olds_last holds l.isOld_olds hne

omit hne in
theorem nextBase_toNat {high : UInt32} (hhigh : high.toNat = l.top)
    (hmem : ∃ d ∈ l.images, d.flashBase = high) :
    (nextBase high table (scan old 0 table {}).offset).toNat = l.stop := by
  obtain ⟨d, hd, rfl⟩ := hmem
  rw [nextBase_eq, scan_offset, l.table_eq, hhigh]
  exact foldl_min_above (mem_map.mpr ⟨d, hd, hhigh⟩)

/-! ## The old images -/

omit hne in
theorem table_images : table = l.images ++ table.dropWhile FisImageDesc.inUse := by
  rw [images, ← l.table_eq, takeWhile_append_dropWhile]

omit hne in
theorem flashBaseAt_olds (hi : i < l.olds.length) :
    flashBaseAt table (l.before.length + i) = (l.olds.get ⟨i, hi⟩).flashBase := by
  have hget : table.getD (l.before.length + i) .erased = l.olds.get ⟨i, hi⟩ := by
    refine (congrArg (·.getD (l.before.length + i) .erased) l.table_images).trans ?_
    rw [images, append_assoc, append_assoc, getD_eq_getElem?_getD,
      getElem?_append_right (Nat.le_add_right _ _), Nat.add_sub_cancel_left,
      getElem?_append_left hi, getElem?_eq_getElem hi]
    rfl
  rw [flashBaseAt, hget]

theorem flashBaseAt_first : (flashBaseAt table l.before.length).toNat = l.firstBase := by
  have hpos : 0 < l.olds.length := length_pos_iff.mpr hne
  have hat := l.flashBaseAt_olds hpos
  rw [add_zero] at hat
  rw [hat, firstBase, head?_eq_getElem?, getElem?_eq_getElem hpos]
  rfl

theorem flashBaseAt_last :
    (flashBaseAt table (l.before.length + l.olds.length - 1)).toNat = l.lastBase := by
  have hpos : 0 < l.olds.length := length_pos_iff.mpr hne
  have hlt : l.olds.length - 1 < l.olds.length := by omega
  rw [Nat.add_sub_assoc hpos, l.flashBaseAt_olds hlt, lastBase, getLast?_eq_getElem?,
    getElem?_eq_getElem hlt]
  rfl

omit hne in
theorem flashBaseAt_mem (hi : i < l.olds.length) :
    ∃ d ∈ l.images, d.flashBase = flashBaseAt table (l.before.length + i) := by
  refine ⟨l.olds.get ⟨i, hi⟩, ?_, (l.flashBaseAt_olds hi).symm⟩
  exact mem_append_left _ (mem_append_right _ (get_mem _ _))

theorem flashBaseAt_fb {first : Nat} (hfirst : first = l.before.length)
    (hlast : last = l.before.length + l.olds.length - 1) :
    (flashBaseAt table (firstFb table first last)).toNat = l.start ∧
      (flashBaseAt table (lastFb table first last)).toNat = l.top := by
  have hf : (flashBaseAt table first).toNat = l.firstBase := hfirst ▸ l.flashBaseAt_first hne
  have hl : (flashBaseAt table last).toNat = l.lastBase := hlast ▸ l.flashBaseAt_last hne
  by_cases hswap : flashBaseAt table last < flashBaseAt table first
  · have hlt := UInt32.lt_iff_toNat_lt.mp hswap
    rw [firstFb, lastFb, if_pos hswap, if_pos hswap, start, top]
    omega
  · have hle := UInt32.le_iff_toNat_le.mp (UInt32.not_lt.mp hswap)
    rw [firstFb, lastFb, if_neg hswap, if_neg hswap, start, top]
    omega

theorem start_mem : ∃ d ∈ l.olds, d.flashBase.toNat = l.start := by
  have hfirst : l.firstBase = (l.olds.head hne).flashBase.toNat := by
    rw [firstBase, head?_eq_some_head hne]
    rfl
  have hlast : l.lastBase = (l.olds.getLast hne).flashBase.toNat := by
    rw [lastBase, getLast?_eq_some_getLast hne]
    rfl
  rcases Nat.le_total l.firstBase l.lastBase with hle | hle
  · exact ⟨_, head_mem hne, by rw [start, min_eq_left hle, hfirst]⟩
  · exact ⟨_, getLast_mem hne, by rw [start, min_eq_right hle, hlast]⟩

theorem lastFb_mem {first : Nat} (hfirst : first = l.before.length)
    (hlast : last = l.before.length + l.olds.length - 1) :
    ∃ d ∈ l.images, d.flashBase = flashBaseAt table (lastFb table first last) := by
  have hpos : 0 < l.olds.length := length_pos_iff.mpr hne
  rw [lastFb]
  split
  · rw [hfirst]
    exact l.flashBaseAt_mem hpos
  · rw [hlast, Nat.add_sub_assoc hpos]
    exact l.flashBaseAt_mem (by omega)

end

end Layout

/-! ## The move -/

/-- A table that gets shorter is moved, and then filled up with a negative length. -/
theorem moveTable_shorter {desc : Nat} (h : desc < last) (hlast : last ≤ table.length) :
    moveTable table desc last table.length = .error .overrun := by
  have hmove : ∃ moved, memmove table desc last (table.length - last : Int) = .ok moved :=
    ⟨_, if_pos ⟨by omega, by omega, by omega⟩⟩
  obtain ⟨moved, hmoved⟩ := hmove
  rw [moveTable, if_neg (ne_of_lt h), if_neg (not_lt.mpr h.le), hmoved]
  refine (if_pos h).trans ?_
  exact if_neg fun hneg => by omega

theorem moveTable_longer {desc : Nat} (h : last ≤ desc) (hdesc : desc ≤ table.length) :
    moveTable table desc last table.length =
      .ok (table.take desc ++ (table.drop last).take (table.length - desc)) := by
  rw [moveTable]
  by_cases heq : desc = last
  · have htake : (table.drop desc).take (table.length - desc) = table.drop desc :=
      take_of_length_le (by rw [length_drop])
    rw [if_pos heq, ← heq, htake, take_append_drop]
  · have hlt : last < desc := by omega
    have hlen : (table.length - desc : Int).toNat = table.length - desc := by omega
    rw [if_neg heq, if_pos hlt, memmove, if_pos ⟨by omega, by omega, by omega⟩, hlen]
    refine (if_neg (not_lt.mpr h)).trans ?_
    have hdrop : table.drop (desc + (table.length - desc)) = [] := drop_eq_nil_of_le (by omega)
    rw [hdrop, append_nil]

/-! ## The new descriptors -/

def partDescs : List FisPart → UInt32 → UInt32 → List FisImageDesc
  | [], _, _ => []
  | part :: parts, offset, size =>
    partDesc part offset size ::
      partDescs parts (offset + partSize part size) (size - partSize part size)

def partsTaken : List FisPart → UInt32 → List (UInt32 × UInt32)
  | [], _ => []
  | part :: parts, size =>
    (size, partSize part size) :: partsTaken parts (size - partSize part size)

theorem length_partDescs (parts : List FisPart) (offset size : UInt32) :
    (partDescs parts offset size).length = parts.length := by
  induction parts generalizing offset size with
  | nil => rfl
  | cons part parts ih => rw [partDescs, length_cons, length_cons, ih]

theorem writeParts_eq (parts : List FisPart) (offset size : UInt32)
    (before mid after : List FisImageDesc) (hmid : mid.length = parts.length) :
    writeParts parts before.length offset size (before ++ mid ++ after) =
      .ok ⟨before ++ partDescs parts offset size ++ after, partsTaken parts size⟩ := by
  induction parts generalizing offset size before mid with
  | nil =>
    rw [eq_nil_of_length_eq_zero hmid]
    rfl
  | cons part parts ih =>
    obtain ⟨desc, mid, rfl⟩ := exists_cons_of_length_eq_add_one hmid
    have hlt : before.length < (before ++ desc :: mid ++ after).length := by simp
    have hset : (before ++ desc :: mid ++ after).set before.length (partDesc part offset size) =
        (before ++ [partDesc part offset size]) ++ mid ++ after := by
      simp
    have hnext := ih (offset + partSize part size) (size - partSize part size)
      (before ++ [partDesc part offset size]) mid (Nat.succ.inj hmid)
    rw [length_append, length_singleton] at hnext
    rw [writeParts, if_pos hlt, hset, hnext]
    simp only [append_assoc]
    rfl

theorem describes_partDescs (parts : List FisPart) (offset size : UInt32) :
    List.Forall₂ Describes parts (partDescs parts offset size) := by
  induction parts generalizing offset size with
  | nil => exact .nil
  | cons part parts ih =>
    refine .cons ⟨rfl, rfl, rfl, rfl, ?_, rfl⟩ (ih _ _)
    intro hne
    exact if_pos (UInt32.pos_iff_ne_zero.mpr hne)

def AutoLast (parts : List FisPart) : Prop := ∀ part ∈ parts.dropLast, part.size ≠ 0

theorem AutoLast.of_cons (h : AutoLast (part :: parts)) :
    (part.size = 0 → parts = []) ∧ AutoLast parts := by
  by_cases hnil : parts = []
  · rw [hnil]
    exact ⟨fun _ => rfl, fun p hp => absurd hp not_mem_nil⟩
  · rw [AutoLast, dropLast_cons_of_ne_nil hnil] at h
    exact ⟨fun hzero => absurd hzero (h part mem_cons_self),
      fun p hp => h p (mem_cons_of_mem _ hp)⟩

theorem partSize_zero (h : part.size = 0) : partSize part size = size := if_neg (by rw [h]; decide)

theorem partSize_pos (h : part.size ≠ 0) :
    partSize part size = part.size := if_pos (UInt32.pos_iff_ne_zero.mpr h)

theorem sizes_cons (part : FisPart) (parts : List FisPart) :
    sizes (part :: parts) = part.size.toNat + sizes parts := by
  rw [sizes, map_cons, sum_cons, sizes]

theorem noWrap_iff (hauto : AutoLast parts) (size : UInt32) :
    (∀ p ∈ partsTaken parts size, p.2 ≤ p.1) ↔ sizes parts ≤ size.toNat := by
  induction parts generalizing size with
  | nil => simp [partsTaken, sizes]
  | cons part parts ih =>
    obtain ⟨hlast, hauto⟩ := hauto.of_cons
    rw [partsTaken, forall_mem_cons, ih hauto, sizes_cons, UInt32.le_iff_toNat_le]
    dsimp only
    by_cases hzero : part.size = 0
    · rw [partSize_zero hzero, hlast hzero, hzero]
      simp [sizes]
    rw [partSize_pos hzero]
    constructor
    · rintro ⟨hle, hrest⟩
      rw [UInt32.toNat_sub_of_le _ _ (UInt32.le_iff_toNat_le.mpr hle)] at hrest
      omega
    · intro hsum
      have hle : part.size.toNat ≤ size.toNat := by omega
      rw [UInt32.toNat_sub_of_le _ _ (UInt32.le_iff_toNat_le.mpr hle)]
      omega

theorem totalSize_partDescs (hauto : AutoLast parts) {offset : UInt32}
    (hsizes : sizes parts ≤ size.toNat) :
    totalSize (partDescs parts offset size) =
      if ∃ part ∈ parts, part.size = 0 then size.toNat else sizes parts := by
  induction parts generalizing offset size with
  | nil => simp [partDescs, totalSize, sizes]
  | cons part parts ih =>
    obtain ⟨hlast, hauto⟩ := hauto.of_cons
    rw [sizes_cons] at hsizes
    rw [partDescs, totalSize, map_cons, sum_cons, ← totalSize]
    by_cases hzero : part.size = 0
    · have hexists : ∃ p ∈ part :: parts, p.size = 0 := ⟨part, mem_cons_self, hzero⟩
      rw [if_pos hexists, hlast hzero]
      exact congrArg UInt32.toNat (partSize_zero hzero)
    · have hle : part.size ≤ size := UInt32.le_iff_toNat_le.mpr (by omega)
      have hsub := UInt32.toNat_sub_of_le _ _ hle
      have hdesc : (partDesc part offset size).size = part.size := partSize_pos hzero
      rw [partSize_pos hzero, hdesc, ih hauto (by omega)]
      have hiff : (∃ p ∈ part :: parts, p.size = 0) ↔ ∃ p ∈ parts, p.size = 0 := by
        simp [hzero]
      simp only [hiff]
      split
      · omega
      · rfl

theorem consecutive_partDescs (hauto : AutoLast parts) {offset : UInt32}
    (hsizes : sizes parts ≤ size.toNat) (hend : offset.toNat + size.toNat < 2 ^ 32) :
    Consecutive offset.toNat (partDescs parts offset size) := by
  induction parts generalizing offset size with
  | nil => trivial
  | cons part parts ih =>
    obtain ⟨hlast, hauto⟩ := hauto.of_cons
    rw [sizes_cons] at hsizes
    refine ⟨rfl, ?_⟩
    by_cases hzero : part.size = 0
    · rw [hlast hzero]
      trivial
    have hle : part.size ≤ size := UInt32.le_iff_toNat_le.mpr (by omega)
    have hsub := UInt32.toNat_sub_of_le _ _ hle
    have hadd : (offset + part.size).toNat = offset.toNat + part.size.toNat := by
      rw [UInt32.toNat_add, Nat.mod_eq_of_lt (by omega)]
    have hdesc : (partDesc part offset size).size = part.size := partSize_pos hzero
    rw [partSize_pos hzero, hdesc, ← hadd]
    exact ih hauto (by omega) (by omega)

/-! ## The call -/

namespace Layout

variable (l : Layout old table)

theorem start_le_top : l.start ≤ l.top := by
  unfold start top
  omega

theorem top_le_stop : l.top ≤ l.stop := by
  unfold stop
  cases hmin : ((l.images.map (·.flashBase.toNat)).filter (l.top < ·)).min? with
  | none => rw [← images, hmin, Option.getD_none]
  | some b =>
    have hb := (mem_filter.mp (min?_eq_some_iff.mp hmin).1).2
    rw [← images, hmin]
    exact le_of_lt (of_decide_eq_true hb)

theorem avail_toNat {low next : UInt32} (hlow : low.toNat = l.start) (hnext : next.toNat = l.stop) :
    (next - low).toNat = l.stop - l.start ∧ low.toNat + (next - low).toNat < 2 ^ 32 := by
  have hle : l.start ≤ l.stop := l.start_le_top.trans l.top_le_stop
  have hlt := next.toNat_lt
  rw [← hlow, ← hnext] at hle ⊢
  rw [UInt32.toNat_sub_of_le _ _ (UInt32.le_iff_toNat_le.mpr hle)]
  omega

/-- A new table, with images from `low` on in `avail` bytes of flash. -/
def remapped (new : List FisPart) (low avail : UInt32) : Remap where
  table := l.before ++ partDescs new low avail ++
    (l.after ++ table.dropWhile FisImageDesc.inUse).take
      (table.length - (l.before.length + new.length))
  taken := partsTaken new avail

theorem length_table : table.length =
    l.before.length + l.olds.length + l.after.length +
      (table.dropWhile FisImageDesc.inUse).length := by
  have hlen := congrArg length l.table_images
  rwa [length_append, images, length_append, length_append] at hlen

theorem fisRemap_of_olds (hne : l.olds ≠ []) :
    fisRemap (some table) old new =
      (remapFrom table new (scan old 0 table {}).offset l.before.length
        (l.before.length + l.olds.length - 1)).map some := by
  rw [fisRemap, l.scan_first hne, l.scan_last hne]

theorem overrun_of_move (hne : l.olds ≠ [])
    (hmove : moveTable table (l.before.length + new.length) (l.before.length + l.olds.length)
      table.length = .error .overrun) : fisRemap (some table) old new = .error .overrun := by
  have hpos : 0 < l.olds.length := length_pos_iff.mpr hne
  have hlast : l.before.length + l.olds.length - 1 + 1 = l.before.length + l.olds.length := by omega
  rw [l.fisRemap_of_olds hne, remapFrom, hlast, hmove]
  rfl

theorem moved_eq (hmore : l.olds.length ≤ new.length)
    (hroom : l.before.length + new.length ≤ table.length) :
    ∃ mid, mid.length = new.length ∧
      moveTable table (l.before.length + new.length) (l.before.length + l.olds.length)
        table.length =
        .ok (l.before ++ mid ++ (l.after ++ table.dropWhile FisImageDesc.inUse).take
          (table.length - (l.before.length + new.length))) := by
  have htable : table =
      l.before ++ (l.olds ++ (l.after ++ table.dropWhile FisImageDesc.inUse)) := by
    have h := l.table_images
    rwa [images, append_assoc, append_assoc] at h
  have htake : table.take l.before.length = l.before := by
    rw [congrArg (·.take l.before.length) htable, take_left]
  have hdrop : table.drop (l.before.length + l.olds.length) =
      l.after ++ table.dropWhile FisImageDesc.inUse := by
    rw [congrArg (·.drop (l.before.length + l.olds.length)) htable, ← drop_drop,
      drop_left, drop_left]
  refine ⟨(table.drop l.before.length).take new.length, ?_, ?_⟩
  · rw [length_take, length_drop]
    omega
  · rw [moveTable_longer (by omega) hroom, hdrop, take_add, htake]

theorem fisRemap_eq (hne : l.olds ≠ []) (hmore : l.olds.length ≤ new.length)
    (hroom : l.before.length + new.length ≤ table.length) :
    ∃ low avail : UInt32, low.toNat = l.start ∧ avail.toNat = l.stop - l.start ∧
      low.toNat + avail.toNat < 2 ^ 32 ∧
      fisRemap (some table) old new = .ok (some (l.remapped new low avail)) := by
  have hpos : 0 < l.olds.length := length_pos_iff.mpr hne
  have hlast : l.before.length + l.olds.length - 1 + 1 = l.before.length + l.olds.length := by omega
  obtain ⟨mid, hmid, hmoved⟩ := l.moved_eq hmore hroom
  obtain ⟨hlow, hhigh⟩ := l.flashBaseAt_fb hne rfl rfl
  have hnext := l.nextBase_toNat hhigh (l.lastFb_mem hne rfl rfl)
  obtain ⟨havail, hend⟩ := l.avail_toNat hlow hnext
  refine ⟨_, _, hlow, havail, hend, ?_⟩
  rw [l.fisRemap_of_olds hne, remapFrom, hlast, hmoved]
  refine (congrArg (Except.map some) (writeParts_eq new _ _ l.before mid _ hmid)).trans ?_
  rfl

/-! ## A remap -/

theorem remaps_of_fits (hauto : AutoLast new) (h : l.Fits new) : l.Remaps new := by
  have hlen := l.length_table
  have hroom := h.room
  have hmore := h.not_fewer
  obtain ⟨low, avail, hlow, havail, hend, hok⟩ := l.fisRemap_eq h.some_old hmore (by omega)
  have hsizes : sizes new ≤ avail.toNat := by
    rw [havail]
    exact h.avail
  have htotal : totalSize (partDescs new low avail) = l.total new := by
    rw [totalSize_partDescs hauto hsizes, havail]
    rfl
  refine ⟨_, partDescs new low avail, (table.dropWhile FisImageDesc.inUse).take
    (table.length - (l.before.length + new.length) - l.after.length), l.start, hok, ?_⟩
  refine ⟨?_, ?_, describes_partDescs new low avail, ?_, ?_, ?_, ?_, ?_⟩
  · rw [remapped, take_append, take_of_length_le (by omega), ← append_assoc]
  · simp only [remapped, length_append, length_take, length_partDescs]
    omega
  · rw [Nat.sub_eq_zero_of_le hmore]
    exact nil_suffix
  · exact ⟨l.start_mem h.some_old, h.lowest⟩
  · rw [← hlow]
    exact consecutive_partDescs hauto hsizes hend
  · rw [htotal]
    exact h.ending
  · exact (noWrap_iff hauto avail).mpr hsizes

theorem start_of_consecutive {low avail : UInt32} {base : Nat} (hne : new ≠ [])
    (h : Consecutive base (partDescs new low avail)) : low.toNat = base := by
  obtain ⟨part, parts, rfl⟩ := exists_cons_of_ne_nil hne
  exact h.1

theorem fits_of_remaps (hauto : AutoLast new) (h : l.Remaps new) : l.Fits new := by
  obtain ⟨r, descs, rest, base, hok, hr⟩ := h
  have hlen := l.length_table
  have hdescs : descs.length = new.length := hr.describes.length_eq.symm
  have htable : l.before.length + new.length + l.after.length ≤ table.length := by
    rw [← hr.length, hr.kept]
    simp only [length_append]
    omega
  have hne : l.olds ≠ [] := by
    intro hnil
    rw [fisRemap, l.scan_nil hnil] at hok
    cases hok
  have hmore : l.olds.length ≤ new.length := by
    by_contra hfewer
    rw [l.overrun_of_move hne (moveTable_shorter (by omega) (by omega))] at hok
    cases hok
  obtain ⟨low, avail, hlow, havail, hend, heq⟩ := l.fisRemap_eq hne hmore (by omega)
  rw [heq] at hok
  cases hok
  -- both tables have the new descriptors at the same place
  have hsame : partDescs new low avail = descs := by
    have hkept := hr.kept
    rw [remapped, append_assoc, append_assoc, append_assoc] at hkept
    have htail := append_cancel_left hkept
    exact (append_inj htail (by rw [length_partDescs, hdescs])).1
  rw [← hsame] at hr
  have hpos : new ≠ [] := by
    intro hnil
    rw [hnil, length_nil, Nat.le_zero] at hmore
    exact hne (eq_nil_of_length_eq_zero hmore)
  have hbase : base = l.start := by
    rw [← start_of_consecutive hpos hr.consecutive, hlow]
  rw [hbase] at hr
  have hsizes := (noWrap_iff hauto avail).mp hr.noWrap
  refine ⟨hne, hmore, htable, hr.lowest.2, by rwa [← havail], ?_⟩
  have htotal : totalSize (partDescs new low avail) = l.total new := by
    rw [totalSize_partDescs hauto hsizes, havail]
    rfl
  rw [← htotal]
  exact hr.ending

end Layout

theorem autoLast_of_valid (h : fisValidate (some table) old new = 1) : AutoLast new := by
  intro part hpart hzero
  have hany : new.dropLast.any (·.size = 0) := by
    rw [any_eq_true]
    exact ⟨part, hpart, decide_eq_true hzero⟩
  rw [fisValidate, if_pos hany] at h
  cases h

/-- A remap that `fis_validate` accepts leaves a consistent table exactly if there are some old
images and no fewer new ones, the table has room, and so has the flash from the lowest old
image on. -/
theorem remaps_iff (l : Layout old table) (hvalid : fisValidate (some table) old new = 1) :
    l.Remaps new ↔ l.Fits new :=
  ⟨l.fits_of_remaps (autoLast_of_valid hvalid), l.remaps_of_fits (autoLast_of_valid hvalid)⟩

/-! ## Two remaps -/

def shortName (c : UInt8) : Vector UInt8 16 :=
  #v[c, 0, 0, 0, 0, 0, 0, 0, 0, 0, 0, 0, 0, 0, 0, 0]

def image (c : UInt8) (flashBase : UInt32) : FisImageDesc :=
  { FisImageDesc.zero with
    name := shortName c, flashBase := flashBase, size := 0x1000, dataLength := 0x1000 }

def newPart (c : UInt8) (size : UInt32) : FisPart := ⟨shortName c, 0, size, 0, 0⟩

/-- Boot loader, kernel, root file system and directory, and an unused descriptor. -/
def routerTable : List FisImageDesc :=
  [image 66 0, image 75 0x1000, image 82 0x2000, image 68 0x3000, .erased]

def routerOld : List FisPart := [newPart 75 0, newPart 82 0]

def routerLayout : Layout routerOld routerTable where
  before := [image 66 0]
  olds := [image 75 0x1000, image 82 0x2000]
  after := [image 68 0x3000]
  table_eq := rfl
  isOld_before := by decide
  isOld_olds := by decide
  isOld_after := by decide

theorem remaps_two : fisValidate (some routerTable) routerOld [newPart 75 0x800, newPart 82 0] = 1 ∧
    routerLayout.Remaps [newPart 75 0x800, newPart 82 0] := by
  have hvalid : fisValidate (some routerTable) routerOld [newPart 75 0x800, newPart 82 0] = 1 := by
    decide
  refine ⟨hvalid, (remaps_iff routerLayout hvalid).mpr ?_⟩
  exact ⟨by decide, by decide, by decide, by decide, by decide, by decide⟩

/-- One image in the place of the two. -/
theorem not_remaps_one : fisValidate (some routerTable) routerOld [newPart 70 0] = 1 ∧
    (routerLayout.images.Pairwise fun a b => a.flashBase.toNat + a.size.toNat ≤ b.flashBase.toNat) ∧
    fisRemap (some routerTable) routerOld [newPart 70 0] = .error .overrun ∧
    ¬routerLayout.Remaps [newPart 70 0] := by
  have hoverrun : fisRemap (some routerTable) routerOld [newPart 70 0] = .error .overrun :=
    routerLayout.overrun_of_move (by decide) (moveTable_shorter (by decide) (by decide))
  refine ⟨by decide, by decide, hoverrun, ?_⟩
  rintro ⟨r, descs, rest, base, hok, -⟩
  cases hok

end OpenWrt.Mtd.Fis
