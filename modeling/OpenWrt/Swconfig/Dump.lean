import Mathlib.Data.List.Basic

/-!
# Dumping the list of switches

`swconfig_dump_switches` of `drivers/net/phy/swconfig.c`, which netlink calls with one buffer
after the other until a call adds nothing.  `send` is `swconfig_send_switch`: the room that is
left behind the record of a switch, if the record fits.
-/

namespace OpenWrt.Swconfig

open List

variable {α : Type} (send : α → Nat → Option Nat)

/-- The loop over the list: the switches whose records it writes, and `idx` at its end. -/
def dumpLoop (start : Nat) : List α → Nat → Nat → List α × Nat
  | [], idx, _ => ([], idx)
  | dev :: devs, idx, room =>
    if idx + 1 ≤ start then dumpLoop start devs (idx + 1) room
    else
      match send dev room with
      | none => ([], idx + 1)
      | some room =>
        let rest := dumpLoop start devs (idx + 1) room
        (dev :: rest.1, rest.2)

def dumpSwitches (devs : List α) (start room : Nat) : List α × Nat :=
    dumpLoop send start devs 0 room

/-- What at most `n` calls deliver, with the buffers from the `k`th on. -/
def dumpCalls (devs : List α) (room : Nat → Nat) : Nat → Nat → Nat → List α
  | 0, _, _ => []
  | n + 1, k, start =>
    let call := dumpSwitches send devs start (room k)
    if call.1 = [] then [] else call.1 ++ dumpCalls devs room n (k + 1) call.2

def FitAll : List α → Nat → Prop
  | [], _ => True
  | dev :: devs, room => ∃ left, send dev room = some left ∧ FitAll devs left

theorem dumpLoop_bound (start : Nat) (devs : List α) (idx r : Nat) :
    (dumpLoop send start devs idx r).1.length + max start idx ≤
        max start (dumpLoop send start devs idx r).2 ∧
      (dumpLoop send start devs idx r).2 ≤ idx + devs.length := by
  induction devs generalizing idx r with
  | nil => exact ⟨Nat.le_of_eq (Nat.zero_add _), Nat.le_refl _⟩
  | cons dev devs ih =>
    rw [dumpLoop, length_cons]
    split
    · have hrest := ih (idx + 1) r
      omega
    cases send dev r with
    | none =>
      dsimp only [length_nil]
      omega
    | some left =>
      have hrest := ih (idx + 1) left
      dsimp only [length_cons]
      omega

theorem length_dumpCalls (devs : List α) (room : Nat → Nat) (n k start : Nat) :
    (dumpCalls send devs room n k start).length + start ≤ max start devs.length := by
  induction n generalizing k start with
  | zero => rw [dumpCalls, length_nil]; omega
  | succ n ih =>
    have hcall := dumpLoop_bound send start devs 0 (room k)
    have hrest := ih (k + 1) (dumpSwitches send devs start (room k)).2
    rw [← dumpSwitches] at hcall
    rw [dumpCalls]
    split
    · rw [length_nil]; omega
    · rename_i hne
      have hpos := length_pos_of_ne_nil hne
      rw [length_append]
      omega

theorem dumpLoop_first (devs : List α) (idx r : Nat) :
    (FitAll send devs r ∧ (dumpLoop send 0 devs idx r).1 = devs ∧
        (dumpLoop send 0 devs idx r).2 = idx + devs.length) ∨
      (¬FitAll send devs r ∧
        (dumpLoop send 0 devs idx r).1.length + idx < (dumpLoop send 0 devs idx r).2) := by
  induction devs generalizing idx r with
  | nil => exact .inl ⟨trivial, rfl, rfl⟩
  | cons dev devs ih =>
    rw [dumpLoop, if_neg (by omega), FitAll]
    cases hsend : send dev r with
    | none => exact .inr ⟨by simp, by simp⟩
    | some left =>
      rcases ih (idx + 1) left with ⟨hfit, hout, hidx⟩ | ⟨hfit, hlt⟩
      · exact .inl ⟨⟨left, rfl, hfit⟩, congrArg (dev :: ·) hout,
          hidx.trans (Nat.succ_add_eq_add_succ ..)⟩
      · refine .inr ⟨by simpa using hfit, ?_⟩
        dsimp only [length_cons]
        omega

/-- All switches are delivered exactly if the first buffer holds all their records. -/
theorem dump_delivers_iff (devs : List α) (room : Nat → Nat) :
    (∀ n, devs.length < n → dumpCalls send devs room n 0 0 = devs) ↔
      FitAll send devs (room 0) := by
  have hbound := (dumpLoop_bound send 0 devs 0 (room 0)).2
  have hrest := fun n =>
    length_dumpCalls send devs room n 1 (dumpSwitches send devs 0 (room 0)).2
  rcases dumpLoop_first send devs 0 (room 0) with ⟨hfit, hout, hidx⟩ | ⟨hfit, hlt⟩ <;>
    rw [← dumpSwitches] at *
  · refine iff_of_true (fun n hn => ?_) hfit
    obtain _ | n := n
    · exact absurd hn (Nat.not_lt_zero _)
    have hnil := length_eq_zero_iff.mp
      (show (dumpCalls send devs room n 1 (dumpSwitches send devs 0 (room 0)).2).length = 0 by
        have := hrest n
        omega)
    rw [dumpCalls, hnil, append_nil, hout]
    split
    · rename_i h
      exact h.symm
    · rfl
  · refine iff_of_false (fun hall => ?_) hfit
    have hlen := congrArg length (hall (devs.length + 1) (Nat.lt_succ_self _))
    have := hrest devs.length
    rw [dumpCalls, Nat.zero_add] at hlen
    split at hlen
    · rw [length_nil] at hlen
      omega
    · rw [length_append] at hlen
      omega

/-- Three switches of one byte each, in buffers of two bytes. -/
theorem dump_skips_third :
    dumpCalls (fun (_ : Nat) room => if room = 0 then none else some (room - 1)) [1, 2, 3]
      (fun _ => 2) 4 0 0 = [1, 2] := by
  decide

end OpenWrt.Swconfig
