import Mathlib.Data.List.Basic

/-!
# Folds with a history

A fold that may fail goes through a list; what holds of its state, and whether the next step
fails, depends on the part of the list that it has gone through.
-/

namespace OpenWrt.Lib

open List

variable {α σ : Type} {f : σ → α → Option σ} {s s' : σ} {l : List α}

section

variable (Inv : List α → σ → Prop) (Ok : List α → α → Prop) (done : List α)

theorem foldlM_keeps
    (hkeep : ∀ done s x s', Inv done s → f s x = some s' → Inv (done ++ [x]) s')
    (hs : Inv done s) (h : l.foldlM f s = some s') : Inv (done ++ l) s' := by
  induction l generalizing s done with
  | nil =>
    cases h
    rwa [append_nil]
  | cons x l ih =>
    obtain ⟨t, ht, hrest⟩ := Option.bind_eq_some_iff.mp h
    have hinv := ih _ (hkeep done s x t hs ht) hrest
    rwa [append_assoc] at hinv

theorem foldlM_isSome_iff
    (hkeep : ∀ done s x s', Inv done s → f s x = some s' → Inv (done ++ [x]) s')
    (hstep : ∀ done s x, Inv done s → ((∃ s', f s x = some s') ↔ Ok done x))
    (hs : Inv done s) :
    (∃ s', l.foldlM f s = some s') ↔ ∀ pre x post, l = pre ++ x :: post → Ok (done ++ pre) x := by
  induction l generalizing s done with
  | nil =>
    constructor
    · intro _ pre x post h
      cases (append_eq_nil_iff.mp h.symm).2
    · exact fun _ => ⟨s, rfl⟩
  | cons y l ih =>
    constructor
    · rintro ⟨s', h⟩ pre x post heq
      obtain ⟨t, ht, hrest⟩ := Option.bind_eq_some_iff.mp h
      cases pre with
      | nil =>
        cases heq
        rw [append_nil]
        exact (hstep done s y hs).mp ⟨t, ht⟩
      | cons z pre =>
        cases heq
        have hok := (ih _ (hkeep done s y t hs ht)).mp ⟨s', hrest⟩ pre x post rfl
        rwa [append_assoc] at hok
    · intro h
      have hfirst := h [] y l rfl
      rw [append_nil] at hfirst
      obtain ⟨t, ht⟩ := (hstep done s y hs).mpr hfirst
      have hrest : ∃ s', l.foldlM f t = some s' := by
        refine (ih _ (hkeep done s y t hs ht)).mpr fun pre x post heq => ?_
        rw [append_assoc]
        exact h (y :: pre) x post (by rw [heq, cons_append])
      obtain ⟨s', hs'⟩ := hrest
      exact ⟨s', Option.bind_eq_some_iff.mpr ⟨t, ht, hs'⟩⟩

end

theorem foldlM_isSome_iff_forall (Inv : σ → Prop) (Ok : α → Prop)
    (hkeep : ∀ s x s', Inv s → f s x = some s' → Inv s')
    (hstep : ∀ s x, Inv s → ((∃ s', f s x = some s') ↔ Ok x)) (hs : Inv s) :
    (∃ s', l.foldlM f s = some s') ↔ ∀ x ∈ l, Ok x := by
  have hiff : (∃ s', l.foldlM f s = some s') ↔ ∀ pre x post, l = pre ++ x :: post → Ok x :=
    foldlM_isSome_iff (fun _ => Inv) (fun _ => Ok) [] (fun _ => hkeep) (fun _ => hstep) hs
  rw [hiff]
  constructor
  · intro h x hx
    obtain ⟨pre, post, heq⟩ := append_of_mem hx
    exact h pre x post heq
  · intro h pre x post heq
    apply h
    rw [heq]
    exact mem_append_right pre mem_cons_self

end OpenWrt.Lib
