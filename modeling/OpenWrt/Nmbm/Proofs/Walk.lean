import Mathlib.Data.List.Iterate
import OpenWrt.Nmbm.Proofs.Safety

/-!
# Walks over good blocks

`nmbm_block_walk` takes a negative limit for no limit, but both of its loops clip the limit to the
last block of the chip: a walk upwards then never looks at that block, and a walk downwards does
not start.
-/

namespace OpenWrt.Nmbm

open List

variable {D : Type} {nld : Lower D} {bs : Nat → BitVec 32} {ba n c : Nat} {limit : Int}

def isGood (bs : Nat → BitVec 32) (ba : Nat) : Bool := getBlockStateRaw bs ba = BLOCK_ST_GOOD

/-- The blocks of the chip from `ba` on, in the direction of the walk and before its limit. -/
def blocksMet (nld : Lower D) (ascending : Bool) (ba : Nat) (limit : Int) : List Nat :=
  if ascending then
    iterate (· + 1) ba
      ((if limit < 0 then nld.blockCount else min nld.blockCount limit.toNat) - ba)
  else iterate (· - 1) ba (ba + 1 - (limit + 1).toNat)

/-- The documented result: the good block that is met after `count` others. -/
def walkSpec (nld : Lower D) (bs : Nat → BitVec 32) (ascending : Bool) (ba count : Nat)
    (limit : Int) : Option Nat :=
  ((blocksMet nld ascending ba limit).filter (isGood bs))[count]?

theorem walk_eq {walk : Nat → Nat → Int → Option Nat} {next : Nat → Nat}
    (hzero : ∀ ba nblock, walk 0 ba nblock = none)
    (hsucc : ∀ n ba nblock, walk (n + 1) ba nblock =
      let nblock := if getBlockStateRaw bs ba = BLOCK_ST_GOOD then nblock - 1 else nblock
      if nblock < 0 then some ba else walk n (next ba) nblock) :
    walk n ba c = ((iterate next ba n).filter (isGood bs))[c]? := by
  induction n generalizing ba c with
  | zero => exact hzero ba c
  | succ n ih =>
    rw [hsucc, iterate]
    by_cases hgood : getBlockStateRaw bs ba = BLOCK_ST_GOOD
    · rw [filter_cons_of_pos (by simp [isGood, hgood]), if_pos hgood]
      cases c with
      | zero => rfl
      | succ c =>
        rw [getElem?_cons_succ, ← ih]
        exact (if_neg (by omega)).trans (congrArg _ (by omega))
    · rw [filter_cons_of_neg (by simp [isGood, hgood]), if_neg hgood, ← ih]
      exact if_neg (by omega)

theorem blockWalk_eq (ascending : Bool) (limit : Nat) :
    blockWalk nld bs ascending ba c limit =
      ((if ascending then iterate (· + 1) ba (clipLimit nld limit - ba)
        else iterate (· - 1) ba (ba - clipLimit nld limit)).filter (isGood bs))[c]? := by
  cases ascending with
  | true => exact walk_eq (fun _ _ => rfl) fun _ _ _ => rfl
  | false => exact walk_eq (fun _ _ => rfl) fun _ _ _ => rfl

theorem iterate_succ (ba n : Nat) : iterate (· + 1) ba n = range' ba n := by
  induction n generalizing ba with
  | zero => rfl
  | succ n ih => rw [iterate, ih, range'_succ]

theorem iterate_pred (ba : Nat) :
    iterate (· - 1) ba (ba + 1) = (range (ba + 1)).reverse := by
  induction ba with
  | zero => rfl
  | succ ba ih => rw [iterate, Nat.add_sub_cancel, ih, ← reverse_concat, ← range_succ]

theorem getElem?_filter_concat (l : List Nat) (last : Nat) :
    (l.filter (isGood bs))[c]? = ((l ++ [last]).filter (isGood bs))[c]? ↔
      isGood bs last = false ∨ l.countP (isGood bs) ≠ c := by
  rw [filter_append, countP_eq_length_filter]
  generalize l.filter (isGood bs) = met
  cases hlast : isGood bs last with
  | false => simp [hlast]
  | true =>
    rw [filter_cons_of_pos hlast]
    rcases lt_trichotomy c met.length with hlt | rfl | hgt
    · simp [getElem?_append_left hlt, hlt.ne']
    · simp
    · simp [getElem?_eq_none hgt.le, getElem?_append_right hgt.le, hgt.ne,
        show c - met.length ≠ 0 by omega]

theorem clipLimit_eq (hba : ba < nld.blockCount) (hlimit : -2147483648 ≤ limit)
    (hlimit' : limit < 2147483648) : clipLimit nld (limit % 4294967296).toNat =
      if 0 ≤ limit ∧ limit < nld.blockCount then limit.toNat else nld.blockCount - 1 := by
  have hsmall : nld.blockCount * 64 + 4 * nld.writesize < 4294967296 := nld.small
  rw [clipLimit, sub32]
  split_ifs <;> omega

/-- A walk meets its documentation exactly if it has a limit on the chip, or if the block that
the loop leaves out does not matter; a walk downwards without a limit leaves out all of them. -/
theorem blockWalk_right_iff (hba : ba < nld.blockCount) (hlimit : -2147483648 ≤ limit)
    (hlimit' : limit < 2147483648) (ascending : Bool) (count : Nat) :
    blockWalk nld bs ascending ba count (limit % 4294967296).toNat =
        walkSpec nld bs ascending ba count limit ↔
      if ascending then (0 ≤ limit ∧ limit < nld.blockCount) ∨
        isGood bs (nld.blockCount - 1) = false ∨
        (range' ba (nld.blockCount - 1 - ba)).countP (isGood bs) ≠ count
      else 0 ≤ limit ∨ (range (ba + 1)).countP (isGood bs) ≤ count := by
  rw [blockWalk_eq, clipLimit_eq hba hlimit hlimit', walkSpec, blocksMet]
  cases ascending with
  | true =>
    simp only [if_true, iterate_succ]
    by_cases hlim : 0 ≤ limit ∧ limit < nld.blockCount
    · have hmin : min nld.blockCount limit.toNat = limit.toNat := by omega
      simp [hlim, not_lt.mpr hlim.1, hmin]
    have hlen : (if limit < 0 then nld.blockCount else min nld.blockCount limit.toNat) - ba =
        nld.blockCount - 1 - ba + 1 := by
      split <;> omega
    have hlast : ba + (nld.blockCount - 1 - ba) = nld.blockCount - 1 := by omega
    rw [if_neg hlim, hlen, range'_1_concat, hlast, getElem?_filter_concat]
    exact (or_iff_right hlim).symm
  | false =>
    simp only [Bool.false_eq_true, if_false]
    by_cases hlim : 0 ≤ limit
    · have hlen : ba - (if 0 ≤ limit ∧ limit < nld.blockCount then limit.toNat
          else nld.blockCount - 1) = ba + 1 - (limit + 1).toNat := by
        split <;> omega
      rw [hlen]
      exact iff_of_true rfl (.inl hlim)
    · have hall : ba + 1 - (limit + 1).toNat = ba + 1 := by omega
      have hnone : ba - (nld.blockCount - 1) = 0 := by omega
      rw [if_neg (fun h => hlim h.1), hall, hnone, iterate_pred, or_iff_right hlim, iterate,
        filter_nil, getElem?_nil, eq_comm, getElem?_eq_none_iff,
        ← countP_eq_length_filter, countP_reverse]

theorem blockWalk_right_small :
    blockWalk smallChip (fun _ => 0xffffffff) true 3 1 ((8 : Int) % 4294967296).toNat =
      walkSpec smallChip (fun _ => 0xffffffff) true 3 1 8 :=
  (blockWalk_right_iff (by decide) (by decide) (by decide) true 1).mpr (.inl (by decide))

/-- On a chip with good blocks only, no block is found below block 3. -/
theorem blockWalk_no_limit :
    blockWalk smallChip (fun _ => 0xffffffff) false 3 0 4294967295 = none ∧
      walkSpec smallChip (fun _ => 0xffffffff) false 3 0 (-1) = some 3 := by
  decide

end OpenWrt.Nmbm
