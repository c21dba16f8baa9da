import Mathlib.Data.Fintype.Option
import Mathlib.Data.Fintype.Pigeonhole

/-!
# Walks along a partial function

A loop whose state is the place it looks at goes from a place to the next one, and ends
where there is none.  On finitely many places it ends exactly if it comes to no place twice;
on numbers, if it only goes up to a bound, exactly if it stays nowhere.
-/

namespace OpenWrt.Lib

open Option

variable {α : Type} {next : α → Option α} {a b : α}

/-- The place after `n` steps from `a`; `none` if the walk has ended before. -/
def walk (next : α → Option α) (a : α) : Nat → Option α
  | 0 => some a
  | n + 1 => (walk next a n).bind next

theorem walk_succ (next : α → Option α) (a : α) (n : Nat) :
    walk next a (n + 1) = (next a).bind fun b => walk next b n := by
  induction n with
  | zero => cases h : next a <;> simp [walk, h]
  | succ n ih =>
    rw [walk, ih, bind_assoc]
    rfl

theorem walk_cons (h : next a = some b) (n : Nat) : walk next a (n + 1) = walk next b n := by
  rw [walk_succ, h, bind_some]

theorem walk_add (a : α) (m n : Nat) :
    walk next a (m + n) = (walk next a m).bind fun b => walk next b n := by
  induction n with
  | zero => simp [walk]
  | succ n ih =>
    rw [← add_assoc, walk, ih, bind_assoc]
    rfl

theorem walk_none_of_le {m n : Nat} (hle : m ≤ n) (h : walk next a m = none) :
    walk next a n = none := by
  obtain ⟨k, rfl⟩ := Nat.exists_eq_add_of_le hle
  rw [walk_add, h, bind_none]

theorem walk_split {m n : Nat} (hle : m ≤ n) (h : walk next a n = some b) :
    ∃ c, walk next a m = some c ∧ walk next c (n - m) = some b := by
  obtain ⟨k, rfl⟩ := Nat.exists_eq_add_of_le hle
  rw [walk_add] at h
  rw [Nat.add_sub_cancel_left]
  exact bind_eq_some_iff.mp h

theorem walk_stays (h : next a = some a) (n : Nat) : walk next a n = some a := by
  induction n with
  | zero => rfl
  | succ n ih => rw [walk, ih, bind_some, h]

theorem walk_keeps {P : α → Prop} (hstep : ∀ a b, P a → next a = some b → P b) (ha : P a)
    {n : Nat} (h : walk next a n = some b) : P b := by
  induction n generalizing b with
  | zero => exact some.inj h ▸ ha
  | succ n ih =>
    obtain ⟨c, hc, hnext⟩ := bind_eq_some_iff.mp h
    exact hstep c b (ih hc) hnext

theorem walk_goes_on {P : α → Prop} (hstep : ∀ a, P a → ∃ b, next a = some b ∧ P b) (ha : P a)
    (n : Nat) : ∃ b, walk next a n = some b ∧ P b := by
  induction n with
  | zero => exact ⟨a, rfl, ha⟩
  | succ n ih =>
    obtain ⟨b, hb, hP⟩ := ih
    obtain ⟨c, hc, hP⟩ := hstep b hP
    refine ⟨c, ?_, hP⟩
    rw [walk, hb, bind_some, hc]

theorem exists_last {n : Nat} (h : walk next a n = none) :
    ∃ k z, k < n ∧ walk next a k = some z ∧ next z = none := by
  induction n with
  | zero => cases h
  | succ n ih =>
    cases hn : walk next a n with
    | none =>
      obtain ⟨k, z, hk, hz⟩ := ih hn
      exact ⟨k, z, Nat.lt_succ_of_lt hk, hz⟩
    | some z =>
      rw [walk, hn] at h
      exact ⟨n, z, Nat.lt_succ_self n, hn, h⟩

theorem last_unique {m n : Nat} {y z : α} (hy : walk next a m = some y) (hyend : next y = none)
    (hz : walk next a n = some z) (hzend : next z = none) : y = z := by
  have hle {i j : Nat} {x : α} (hx : walk next a i = some x) (hend : next x = none)
      (hij : i < j) : walk next a j = none := by
    apply walk_none_of_le hij
    rw [walk, hx, bind_some, hend]
  rcases lt_trichotomy m n with hlt | rfl | hgt
  · rw [hle hy hyend hlt] at hz
    cases hz
  · exact some.inj (hy.symm.trans hz)
  · rw [hle hz hzend hgt] at hy
    cases hy

def NoRepeat (next : α → Option α) (a : α) : Prop :=
  ∀ i j, i < j → walk next a i = walk next a j → walk next a j = none

/-- From a place that comes twice the walk goes round for ever. -/
theorem walk_repeat {i d : Nat} (h : walk next a i = walk next a (i + d)) (k : Nat) :
    walk next a (i + k * d) = walk next a i := by
  induction k with
  | zero => rw [Nat.zero_mul, Nat.add_zero]
  | succ k ih =>
    have hsum : i + (k + 1) * d = i + k * d + d := by rw [Nat.succ_mul, Nat.add_assoc]
    rw [hsum, walk_add, ih, ← walk_add, ← h]

theorem noRepeat_of_ends (h : ∃ n, walk next a n = none) : NoRepeat next a := by
  intro i j hij heq
  obtain ⟨n, hn⟩ := h
  obtain ⟨d, rfl⟩ := Nat.exists_eq_add_of_lt hij
  have hround := walk_repeat (d := d + 1) heq n
  have hle : n ≤ i + n * (d + 1) := by
    have hmul : n * 1 ≤ n * (d + 1) := Nat.mul_le_mul_left n (by omega)
    omega
  rw [walk_none_of_le hle hn] at hround
  rw [← heq, ← hround]

theorem ends_of_noRepeat [Finite α] (h : NoRepeat next a) : ∃ n, walk next a n = none := by
  obtain ⟨i, j, hne, heq⟩ := Finite.exists_ne_map_eq_of_infinite (walk next a)
  rcases Nat.lt_or_gt_of_ne hne with hlt | hgt
  · exact ⟨j, h i j hlt heq⟩
  · exact ⟨i, h j i hgt heq.symm⟩

instance finiteUInt32 : Finite UInt32 :=
    Finite.of_injective UInt32.toFin fun _ _ => UInt32.toFin_inj.mp

theorem ends_of_progress {β : Type} {r : β → β → Prop} (wf : WellFounded r) (μ : α → β)
    (Inv : α → Prop)
    (h : ∀ a, Inv a → (∃ n, walk next a n = none) ∨
      ∃ n b, walk next a n = some b ∧ Inv b ∧ r (μ b) (μ a))
    (ha : Inv a) : ∃ n, walk next a n = none := by
  induction hμ : μ a using wf.induction generalizing a with
  | _ m ih =>
    rcases h a ha with hend | ⟨n, b, hb, hinv, hless⟩
    · exact hend
    · obtain ⟨k, hk⟩ := ih (μ b) (hμ ▸ hless) hinv rfl
      refine ⟨n + k, ?_⟩
      rw [walk_add, hb, bind_some, hk]

section Rising

variable {next : Nat → Option Nat} {bound a : Nat}

theorem walk_rising (hrise : ∀ a b, next a = some b → a ≤ b ∧ a < bound)
    (hmoves : ∀ n b, walk next a n = some b → next b ≠ some b) {n : Nat} (hn : bound - a < n) :
    walk next a n = none := by
  induction n generalizing a with
  | zero => omega
  | succ n ih =>
    rw [walk_succ, bind_eq_none_iff]
    intro b hb
    -- the step comes closer to the bound
    obtain ⟨hle, hlt⟩ := hrise a b hb
    have hne : a ≠ b := fun heq => hmoves 0 a rfl (heq ▸ hb)
    refine ih (fun m c hc => hmoves (m + 1) c ?_) (by omega)
    rw [walk_cons hb]
    exact hc

theorem ends_iff_of_rising (hrise : ∀ a b, next a = some b → a ≤ b ∧ a < bound) :
    (∃ n, walk next a n = none) ↔ ∀ n b, walk next a n = some b → next b ≠ some b := by
  constructor
  · rintro ⟨m, hm⟩ n b hb hstay
    have hround : walk next a (n + m) = some b := by
      rw [walk_add, hb, bind_some, walk_stays hstay]
    rw [walk_none_of_le (Nat.le_add_left m n) hm] at hround
    cases hround
  · exact fun hmoves => ⟨_, walk_rising hrise hmoves (Nat.lt_succ_self _)⟩

end Rising

end OpenWrt.Lib
