import Mathlib.Logic.Basic

/-!
# Computations with a log

A computation yields a value and the list of what it did on the way: memory
accesses, shifts, writes to a device.  `All P m` says that `P` holds of everything
in the log; the rules below take it apart along the text of `m`.
-/

namespace OpenWrt.Lib

structure Traced (ε α : Type) where
  val : α
  log : List ε

namespace Traced

variable {ε α β : Type}

instance : Monad (Traced ε) where
  pure a := ⟨a, []⟩
  bind m f := ⟨(f m.val).val, m.log ++ (f m.val).log⟩

def note (e : ε) : Traced ε Unit := ⟨(), [e]⟩

def All (P : ε → Prop) (m : Traced ε α) : Prop := ∀ e ∈ m.log, P e

variable {P : ε → Prop} {m n : Traced ε α} {f : α → Traced ε β}

@[simp] theorem val_pure (a : α) : (pure a : Traced ε α).val = a := rfl

@[simp] theorem val_bind : (m >>= f).val = (f m.val).val := rfl

@[simp] theorem all_pure (a : α) : All P (pure a : Traced ε α) ↔ True := by
  constructor
  · intro _
    trivial
  · intro _ e he
    cases he

@[simp] theorem all_note (e : ε) : All P (note e) ↔ P e := by
  constructor
  · intro h
    exact h e List.mem_cons_self
  · intro h e' he'
    rwa [List.mem_singleton.mp he']

@[simp] theorem all_bind : All P (m >>= f) ↔ All P m ∧ All P (f m.val) := List.forall_mem_append

theorem all_ite {c : Prop} [Decidable c] :
    All P (if c then m else n) ↔ (c → All P m) ∧ (¬c → All P n) := by
  by_cases hc : c
  · simp [hc]
  · simp [hc]

end Traced

end OpenWrt.Lib
