import Mathlib.Data.Nat.Count

/-!
# Counting

Two rules for `Nat.count` used by every walk that skips elements, and one for tables in
which the first element with a property is replaced.
-/

namespace OpenWrt.Lib

open List

variable {p q : Nat → Prop} [DecidablePred p] [DecidablePred q]

theorem count_of_gap {a b : Nat} (hle : a ≤ b) (hgap : ∀ i, a ≤ i → i < b → ¬ p i) :
    Nat.count p b = Nat.count p a := by
  obtain ⟨d, rfl⟩ := Nat.exists_eq_add_of_le hle
  rw [Nat.count_add, Nat.add_eq_left, Nat.count_iff_forall_not]
  intro i hi
  exact hgap _ (Nat.le_add_right _ _) (by omega)

theorem count_congr {n : Nat} (h : ∀ i < n, p i ↔ q i) : Nat.count p n = Nat.count q n :=
  le_antisymm (Nat.count_mono_left fun i hi => (h i hi).1)
    (Nat.count_mono_left fun i hi => (h i hi).2)

theorem countP_modify_findIdx {α : Type} {r : α → Bool} {f : α → α} {l : List α} {i : Nat}
    (h : l.findIdx? r = some i) :
    ∃ x ∈ l, r x = true ∧ (∀ y ∈ l.modify i f, y ∈ l ∨ y = f x) ∧
      ∀ t : α → Bool, (l.modify i f).countP t + (if t x then 1 else 0) =
        l.countP t + if t (f x) then 1 else 0 := by
  induction l generalizing i with
  | nil => simp at h
  | cons a l ih =>
    rw [findIdx?_cons] at h
    split at h
    · rename_i ha
      cases h
      refine ⟨a, by simp, ha, fun y hy => ?_, fun t => ?_⟩
      · rw [modify_zero_cons, mem_cons] at hy
        exact hy.elim .inr fun hy => .inl (mem_cons_of_mem a hy)
      · rw [modify_zero_cons, countP_cons, countP_cons]
        omega
    · obtain ⟨j, hj, rfl⟩ := Option.map_eq_some_iff.mp h
      obtain ⟨x, hx, hr, hmem, hcount⟩ := ih hj
      refine ⟨x, mem_cons_of_mem a hx, hr, fun y hy => ?_, fun t => ?_⟩
      · rw [modify_succ_cons, mem_cons] at hy
        rcases hy with rfl | hy
        · exact .inl (mem_cons_self ..)
        · exact (hmem y hy).imp_left (mem_cons_of_mem a)
      · have := hcount t
        rw [modify_succ_cons, countP_cons, countP_cons]
        omega

end OpenWrt.Lib
