import Mathlib.Data.List.Basic

/-!
# Lists that are written over in place

`patch xs off bs` is `xs` with `bs` stored over the elements from `off` on.  Two lists are
compared on a range of indices, and a window of a list depends on its range only.
-/

namespace OpenWrt.Lib

open List

variable {α : Type} {xs ys bs : List α} {off a b i : Nat}

def patch (xs : List α) (off : Nat) (bs : List α) : List α :=
  xs.take off ++ (bs ++ xs.drop (off + bs.length))

theorem length_patch (h : off + bs.length ≤ xs.length) : (patch xs off bs).length = xs.length := by
  rw [patch, length_append, length_append, length_take, length_drop]
  omega

theorem getElem?_patch_inside (h : off ≤ xs.length) (hi : i < bs.length) :
    (patch xs off bs)[off + i]? = bs[i]? := by
  have htake : (xs.take off).length = off := by
    rw [length_take]
    omega
  rw [patch, getElem?_append_right (by omega), htake, Nat.add_sub_cancel_left,
    getElem?_append_left hi]

theorem getElem?_patch_outside (h : off ≤ xs.length) (hi : i < off ∨ off + bs.length ≤ i) :
    (patch xs off bs)[i]? = xs[i]? := by
  have htake : (xs.take off).length = off := by
    rw [length_take]
    omega
  rcases hi with hlt | hge
  · rw [patch, getElem?_append_left (by omega), getElem?_take_of_lt hlt]
  · rw [patch, getElem?_append_right (by omega), getElem?_append_right (by omega),
      getElem?_drop]
    congr 1
    omega

/-- The lists have the same elements from index `a` to `b`. -/
def SameOn (xs ys : List α) (a b : Nat) : Prop := ∀ i, a ≤ i → i < b → xs[i]? = ys[i]?

theorem SameOn.symm (h : SameOn xs ys a b) : SameOn ys xs a b :=
  fun i hle hlt => (h i hle hlt).symm

theorem SameOn.trans {zs : List α} (h : SameOn xs ys a b) (h' : SameOn ys zs a b) :
    SameOn xs zs a b :=
  fun i hle hlt => (h i hle hlt).trans (h' i hle hlt)

theorem SameOn.mono (h : SameOn xs ys a b) {a' b' : Nat} (ha : a ≤ a') (hb : b' ≤ b) :
    SameOn xs ys a' b' :=
  fun i hle hlt => h i (Nat.le_trans ha hle) (Nat.lt_of_lt_of_le hlt hb)

theorem sameOn_patch (h : off ≤ xs.length) (hab : b ≤ off ∨ off + bs.length ≤ a) :
    SameOn (patch xs off bs) xs a b :=
  fun _ _ _ => getElem?_patch_outside h (by omega)

theorem SameOn.window {n : Nat} (h : SameOn xs ys off (off + n)) :
    (xs.drop off).take n = (ys.drop off).take n := by
  apply ext_getElem?
  intro i
  rcases Nat.lt_or_ge i n with hlt | hge
  · rw [getElem?_take_of_lt hlt, getElem?_take_of_lt hlt, getElem?_drop,
      getElem?_drop]
    exact h (off + i) (by omega) (by omega)
  · rw [getElem?_take_eq_none hge, getElem?_take_eq_none hge]

theorem window_patch (h : off ≤ xs.length) (bs : List α) :
    ((patch xs off bs).drop off).take bs.length = bs := by
  have htake : (xs.take off).length = off := by
    rw [length_take]
    omega
  rw [patch, drop_append_of_le_length (Nat.le_of_eq htake.symm),
    drop_of_length_le (Nat.le_of_eq htake), nil_append, take_left]

end OpenWrt.Lib
