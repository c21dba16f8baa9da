import Mathlib

/-!
# Version filters

`version_to_num` and `version_filter_list` of `scripts/package-metadata.pl`.  A version is the
list of its components, and an item what is left of it without its mark.
-/

namespace OpenWrt.Metadata

open List

inductive VersionOp where
  | lt
  | le
  | gt
  | ge
  | eq
  | ne
  deriving DecidableEq, Repr

structure VersionItem where
  text : String
  mark : Option (VersionOp × List Nat)
  deriving DecidableEq, Repr

/-- A component as a number of 64 bits; larger ones are cut to the largest. -/
def toUV (n : Nat) : Nat := min n (2 ^ 64 - 1)

def shl (n k : Nat) : Nat := 2 ^ k * toUV n % 2 ^ 64

def versionToNum (v : List Nat) : Nat :=
  if 2 ≤ v.length then
    shl (v.getD 0 0) 24 ||| shl (v.getD 1 0) 16 ||| shl (v.getD 2 0) 8 ||| toUV (v.getD 3 0)
  else 0

def VersionOp.holds (ord : Ordering) : VersionOp → Bool
  | .lt => ord.isLT
  | .le => ord.isLE
  | .gt => ord.isGT
  | .ge => ord.isGE
  | .eq => ord.isEq
  | .ne => ord.isNe

/-- The item stays: it has no mark, one of the numbers is 0, or they stand in the relation. -/
def keepsItem (cmpver : Nat) (item : VersionItem) : Bool :=
  match item.mark with
  | none => true
  | some (op, ver) =>
    let symver := versionToNum ver
    !(0 < symver && 0 < cmpver) || op.holds (compare cmpver symver)

def versionFilterList (ver : List Nat) (items : List VersionItem) : List String :=
  (items.filter (keepsItem (versionToNum ver))).map VersionItem.text

/-! ## Lexicographic order -/

/-- The order of the components; missing ones are 0. -/
def compareVersions : List Nat → List Nat → Ordering
  | [], s => if s.all (· = 0) then .eq else .lt
  | a :: v, s => (compare a (s.headD 0)).then (compareVersions v s.tail)

/-- Two to four components, which are not all 0: the first has room in 64 bits, the others have
one byte each. -/
structure Packable (v : List Nat) : Prop where
  two_le : 2 ≤ v.length
  le_four : v.length ≤ 4
  first : v.getD 0 0 < 2 ^ 40
  byte : ∀ n ∈ v.tail, n < 256
  ne_zero : ∃ n ∈ v, n ≠ 0

def packed : Nat → List Nat → Nat
  | 0, _ => 0
  | n + 1, v => 256 ^ n * v.headD 0 + packed n v.tail

theorem packed_lt (n : Nat) {v : List Nat} (h : ∀ x ∈ v, x < 256) : packed n v < 256 ^ n := by
  induction n generalizing v with
  | zero => exact one_pos
  | succ n ih =>
    have hhead : v.headD 0 + 1 ≤ 256 := by
      cases v with
      | nil => decide
      | cons x v => exact h x mem_cons_self
    have htail := ih fun x hx => h x (mem_of_mem_tail hx)
    have hmul := Nat.mul_le_mul_left (256 ^ n) hhead
    rw [packed]
    rw [mul_add] at hmul
    omega

theorem compare_digits {B a b x y : Nat} (hx : x < B) (hy : y < B) :
    compare (B * a + x) (B * b + y) = (compare a b).then (compare x y) := by
  rcases lt_trichotomy a b with hlt | heq | hgt
  · have hmul := Nat.mul_le_mul_left B hlt
    rw [Nat.compare_eq_lt.mpr hlt, Nat.compare_eq_lt.mpr (by rw [Nat.mul_succ] at hmul; omega)]
    rfl
  · rw [heq, Nat.compare_eq_eq.mpr rfl, Nat.compare_eq_ite_lt, Nat.compare_eq_ite_lt]
    simp
  · have hmul := Nat.mul_le_mul_left B hgt
    rw [Nat.compare_eq_gt.mpr hgt, Nat.compare_eq_gt.mpr (by rw [Nat.mul_succ] at hmul; omega)]
    rfl

theorem packed_pos (n : Nat) {v : List Nat} (hn : v.length ≤ n) (h : ∃ x ∈ v, x ≠ 0) :
    0 < packed n v := by
  obtain ⟨x, hx, hne⟩ := h
  induction n generalizing v with
  | zero => simp [length_eq_zero_iff.mp (Nat.le_zero.mp hn)] at hx
  | succ n ih =>
    cases v with
    | nil => cases hx
    | cons a v =>
      rcases mem_cons.mp hx with rfl | hx
      · exact Nat.add_pos_left (mul_pos (Nat.pow_pos (by decide)) (Nat.pos_of_ne_zero hne)) _
      · exact Nat.add_pos_right _ (ih (Nat.le_of_succ_le_succ hn) hx)

theorem packed_zero (n : Nat) {v : List Nat} (h : ∀ x ∈ v, x = 0) : packed n v = 0 := by
  induction n generalizing v with
  | zero => rfl
  | succ n ih =>
    have hhead : v.headD 0 = 0 := by
      cases v with
      | nil => rfl
      | cons x v => exact h x mem_cons_self
    rw [packed, hhead, mul_zero, ih fun x hx => h x (mem_of_mem_tail hx)]

theorem compareVersions_eq (n : Nat) {v s : List Nat} (hv : ∀ x ∈ v.tail, x < 256)
    (hs : ∀ x ∈ s.tail, x < 256) (hvn : v.length ≤ n) (hsn : s.length ≤ n) :
    compareVersions v s = compare (packed n v) (packed n s) := by
  induction v generalizing n s with
  | nil =>
    rw [packed_zero n (by simp), compareVersions]
    by_cases hzero : ∀ x ∈ s, x = 0
    · rw [packed_zero n hzero, if_pos (by simpa using hzero), Nat.compare_eq_eq.mpr rfl]
    · rw [if_neg (by simpa using hzero)]
      push Not at hzero
      exact (Nat.compare_eq_lt.mpr (packed_pos n hsn hzero)).symm
  | cons a v ih =>
    obtain _ | n := n
    · cases hvn
    rw [tail_cons] at hv
    rw [packed, packed, tail_cons, headD_cons,
      compare_digits (packed_lt n hv) (packed_lt n hs), compareVersions,
      ih n (fun x hx => hv x (mem_of_mem_tail hx))
        (fun x hx => hs x (mem_of_mem_tail hx)) (Nat.le_of_succ_le_succ hvn)
        (by rw [length_tail]; omega)]

theorem shl_eq {n k : Nat} (h : 2 ^ k * n < 2 ^ 64) : shl n k = 2 ^ k * n := by
  have hle := Nat.le_mul_of_pos_left n (Nat.two_pow_pos k)
  rw [shl, toUV, min_eq_left (by omega), Nat.mod_eq_of_lt h]

theorem Packable.versionToNum {v : List Nat} (h : Packable v) : versionToNum v = packed 4 v := by
  have hbyte : ∀ i, v.getD (i + 1) 0 < 256 := by
    intro i
    have htail : v.getD (i + 1) 0 = v.tail.getD i 0 := by cases v <;> rfl
    rw [htail]
    rcases lt_or_ge i v.tail.length with hi | hi
    · rw [getD_eq_getElem _ _ hi]
      exact h.byte _ (getElem_mem hi)
    · rw [getD_eq_default _ _ hi]
      decide
  have hpacked : packed 4 v = 2 ^ 24 * v.getD 0 0 + 2 ^ 16 * v.getD 1 0 + 2 ^ 8 * v.getD 2 0 +
      v.getD 3 0 := by
    rcases v with _ | ⟨a, _ | ⟨b, _ | ⟨c, _ | ⟨d, v⟩⟩⟩⟩ <;> simp [packed] <;> omega
  have h0 := h.first
  have h1 : v.getD 1 0 < 256 := hbyte 0
  have h2 : v.getD 2 0 < 256 := hbyte 1
  have h3 : v.getD 3 0 < 256 := hbyte 2
  rw [Metadata.versionToNum, if_pos h.two_le, shl_eq (by omega), shl_eq (by omega),
    shl_eq (by omega), toUV, min_eq_left (by omega), hpacked,
    ← Nat.two_pow_add_eq_or_of_lt (by omega)]
  have hfirst : 2 ^ 24 * v.getD 0 0 + 2 ^ 16 * v.getD 1 0 =
      2 ^ 16 * (256 * v.getD 0 0 + v.getD 1 0) := by omega
  have hsecond : 2 ^ 16 * (256 * v.getD 0 0 + v.getD 1 0) + 2 ^ 8 * v.getD 2 0 =
      2 ^ 8 * (256 * (256 * v.getD 0 0 + v.getD 1 0) + v.getD 2 0) := by omega
  rw [hfirst, ← Nat.two_pow_add_eq_or_of_lt (by omega), hsecond,
    ← Nat.two_pow_add_eq_or_of_lt (by omega)]

theorem Packable.pos {v : List Nat} (h : Packable v) : 0 < Metadata.versionToNum v := by
  rw [h.versionToNum]
  exact packed_pos 4 h.le_four h.ne_zero

/-- Items with versions of up to four bytes are kept as the order of the versions says. -/
theorem versionFilterList_eq {ver : List Nat} (hver : Packable ver) (items : List VersionItem)
    (hitems : ∀ item ∈ items, ∀ op v, item.mark = some (op, v) → Packable v) :
    versionFilterList ver items =
      (items.filter fun item => item.mark.all fun mark =>
        mark.1.holds (compareVersions ver mark.2)).map VersionItem.text := by
  rw [versionFilterList]
  congr 1
  apply filter_congr
  intro item hitem
  rw [keepsItem]
  cases hmark : item.mark with
  | none => rfl
  | some mark =>
    have hv := hitems item hitem mark.1 mark.2 hmark
    have hcompare := compareVersions_eq 4 hver.byte hv.byte hver.le_four hv.le_four
    simp only [Option.all_some, hcompare, ← hver.versionToNum, ← hv.versionToNum,
      decide_eq_true hver.pos, decide_eq_true hv.pos, Bool.and_self, Bool.not_true, Bool.false_or]

theorem versionFilterList_eq_kernel :
    versionFilterList [5, 4] [⟨"a", some (.lt, [5, 5])⟩, ⟨"b", none⟩] = ["a", "b"] :=
  versionFilterList_eq (show Packable [5, 4] from
    ⟨by decide, by decide, by decide, by decide, by decide⟩)
    [⟨"a", some (.lt, [5, 5])⟩, ⟨"b", none⟩] (by
      simp only [forall_mem_cons, reduceCtorEq]
      refine ⟨?_, fun _ _ h => h.elim, by simp⟩
      rintro _ _ ⟨rfl, rfl⟩
      exact ⟨by decide, by decide, by decide, by decide, by decide⟩)

/-- The third component carries into the second one. -/
theorem versionFilterList_carries :
    versionFilterList [4, 9, 256] [⟨"a", some (.gt, [4, 9, 0])⟩] = [] ∧
      compareVersions [4, 9, 256] [4, 9, 0] = .gt := by
  decide +kernel

end OpenWrt.Metadata
