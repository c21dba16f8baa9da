import Mathlib.Logic.Basic

/-!
# Programs over a state

A program takes a state and ends with a result and a new state, or does not end within
the fuel it was given.  `Post m Q s` is the weakest liberal precondition: whenever `m`
ends from `s`, result and state satisfy `Q`.  `Ends m s` says that it does end.  The rules
below take a program apart along its text.
-/

namespace OpenWrt.Lib

abbrev Prog (σ : Type) := StateT σ Option

namespace Prog

variable {σ α β : Type}

def read (f : σ → α) : Prog σ α := fun s => some (f s, s)

def update (f : σ → σ) : Prog σ Unit := fun s => some ((), f s)

def call (f : σ → α × σ) : Prog σ α := fun s => some (f s)

def diverge : Prog σ α := fun _ => none

def Post (m : Prog σ α) (Q : α → σ → Prop) (s : σ) : Prop :=
  ∀ a s', m s = some (a, s') → Q a s'

variable {m : Prog σ α} {f : α → Prog σ β} {Q Q' : α → σ → Prop} {R : β → σ → Prop} {s : σ}

@[simp] theorem post_pure {a : α} : Post (pure a) Q s ↔ Q a s := by
  constructor
  · intro h
    exact h a s rfl
  · rintro h a' s' heq
    cases heq
    exact h

@[simp] theorem post_read {g : σ → α} : Post (read g) Q s ↔ Q (g s) s := by
  constructor
  · intro h
    exact h _ s rfl
  · rintro h a' s' heq
    cases heq
    exact h

@[simp] theorem post_update {g : σ → σ} {Q : Unit → σ → Prop} :
    Post (update g) Q s ↔ Q () (g s) := by
  constructor
  · intro h
    exact h () _ rfl
  · rintro h a' s' heq
    cases heq
    exact h

@[simp] theorem post_call {g : σ → α × σ} : Post (call g) Q s ↔ Q (g s).1 (g s).2 := by
  constructor
  · intro h
    exact h _ _ rfl
  · rintro h a' s' heq
    have hg : g s = (a', s') := Option.some.inj heq
    rw [hg] at h
    exact h

@[simp] theorem post_diverge : Post (diverge : Prog σ α) Q s ↔ True := by
  constructor
  · intro _
    trivial
  · rintro - a' s' heq
    cases heq

@[simp] theorem post_bind : Post (m >>= f) R s ↔ Post m (fun a s' => Post (f a) R s') s := by
  constructor
  · intro h a s' hm b s'' hf
    apply h
    change (m s).bind (fun p => f p.1 p.2) = _
    rw [hm]
    exact hf
  · intro h b s'' heq
    rcases Option.bind_eq_some_iff.mp heq with ⟨⟨a, s'⟩, hm, hf⟩
    exact h a s' hm b s'' hf

@[simp] theorem post_ite {c : Prop} [Decidable c] {n : Prog σ α} :
    Post (if c then m else n) Q s ↔ (c → Post m Q s) ∧ (¬c → Post n Q s) := by
  by_cases hc : c
  · simp [hc]
  · simp [hc]

theorem bind_of_run {a : α} {s' : σ} (h : m s = some (a, s')) : (m >>= f) s = f a s' := by
  change (m s).bind (fun p => f p.1 p.2) = _
  rw [h]
  rfl

theorem post_of_run {a : α} {s' : σ} (h : m s = some (a, s')) : Post m Q s ↔ Q a s' := by
  constructor
  · intro hpost
    exact hpost a s' h
  · rintro hQ b s'' heq
    rw [h] at heq
    cases heq
    exact hQ

theorem Post.mono (h : Post m Q s) (himp : ∀ a s', Q a s' → Q' a s') : Post m Q' s :=
  fun a s' hm => himp a s' (h a s' hm)

theorem Post.of_forall (h : ∀ a s', Q a s') : Post m Q s := fun a s' _ => h a s'

/-! ## Ending -/

def Ends (m : Prog σ α) (s : σ) : Prop := ∃ a s', m s = some (a, s')

@[simp] theorem ends_pure {a : α} : Ends (pure a) s := ⟨a, s, rfl⟩

@[simp] theorem ends_read {g : σ → α} : Ends (read g) s := ⟨g s, s, rfl⟩

@[simp] theorem ends_update {g : σ → σ} : Ends (update g) s := ⟨(), g s, rfl⟩

@[simp] theorem ends_call {g : σ → α × σ} : Ends (call g) s := ⟨(g s).1, (g s).2, rfl⟩

@[simp] theorem ends_bind : Ends (m >>= f) s ↔ Ends m s ∧ Post m (fun a s' => Ends (f a) s') s := by
  constructor
  · rintro ⟨b, s'', heq⟩
    rcases Option.bind_eq_some_iff.mp heq with ⟨⟨a, s'⟩, hm, hf⟩
    refine ⟨⟨a, s', hm⟩, fun a' s''' hm' => ?_⟩
    rw [hm] at hm'
    cases hm'
    exact ⟨b, s'', hf⟩
  · rintro ⟨⟨a, s', hm⟩, hpost⟩
    rcases hpost a s' hm with ⟨b, s'', hf⟩
    refine ⟨b, s'', ?_⟩
    change (m s).bind (fun p => f p.1 p.2) = _
    rw [hm]
    exact hf

@[simp] theorem ends_ite {c : Prop} [Decidable c] {n : Prog σ α} :
    Ends (if c then m else n) s ↔ (c → Ends m s) ∧ (¬c → Ends n s) := by
  by_cases hc : c
  · simp [hc]
  · simp [hc]

theorem Ends.bind (hm : Ends m s) (hf : ∀ a s', Ends (f a) s') : Ends (m >>= f) s :=
  ends_bind.mpr ⟨hm, .of_forall hf⟩

/-- `m` ends from every state. -/
class Total (m : Prog σ α) : Prop where
  ends (m) : ∀ s, Ends m s

instance total_pure {a : α} : Total (pure a : Prog σ α) := ⟨fun _ => ends_pure⟩

instance total_read {g : σ → α} : Total (read g) := ⟨fun _ => ends_read⟩

instance total_update {g : σ → σ} : Total (update g) := ⟨fun _ => ends_update⟩

instance total_call {g : σ → α × σ} : Total (call g) := ⟨fun _ => ends_call⟩

instance total_bind [hm : Total m] [hf : ∀ a, Total (f a)] : Total (m >>= f) :=
  ⟨fun s => (hm.ends s).bind fun a => (hf a).ends⟩

instance total_ite {c : Prop} [Decidable c] {n : Prog σ α} [hm : Total m] [hn : Total n] :
    Total (if c then m else n) :=
  ⟨fun s => ends_ite.mpr ⟨fun _ => hm.ends s, fun _ => hn.ends s⟩⟩

end Prog

end OpenWrt.Lib
