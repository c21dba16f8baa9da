import OpenWrt.Lib.Walk

/-!
# Loops with a fuel

A computation with a fuel yields a result if it has it with enough fuel; more fuel does not
change it.  A round of a loop gives the state of the next round or the result, or it is stuck: it
does something that has no meaning, such as a read outside of a buffer.  The states that a loop
comes to are a walk; with enough fuel the loop has the result of the last of them.
-/

namespace OpenWrt.Lib

open Option

/-! ## Results -/

section

variable {ε α β : Type} {f : Nat → Option α} {g : α → Nat → Option β} {a a' : α} {b : β} {n : Nat}

def Yields (f : Nat → Option α) (a : α) : Prop := ∃ n, f n = some a

/-- More fuel does not change the result. -/
def Grows (f : Nat → Option α) : Prop := ∀ n d a, f n = some a → f (n + d) = some a

def Halts (f : Nat → Option α) : Prop := ∃ a, Yields f a

theorem grows_const (x : Option α) : Grows fun _ => x := fun _ _ _ h => h

theorem yields_const {x : Option α} : Yields (fun _ => x) a ↔ x = some a :=
  ⟨fun h => h.choose_spec, fun h => ⟨0, h⟩⟩

theorem Grows.unique (hf : Grows f) (h : Yields f a) (h' : Yields f a') : a = a' := by
  obtain ⟨m, hm⟩ := h
  obtain ⟨n, hn⟩ := h'
  have hm := hf m n a hm
  rw [add_comm, hf n m a' hn] at hm
  exact (some.inj hm).symm

theorem Grows.bind (hf : Grows f) (hg : ∀ a, Grows (g a)) :
    Grows fun n => (f n).bind fun a => g a n := by
  intro n d b h
  obtain ⟨a, ha, hb⟩ := bind_eq_some_iff.mp h
  exact bind_eq_some_iff.mpr ⟨a, hf n d a ha, hg a n d b hb⟩

theorem yields_bind (hf : Grows f) (hg : ∀ a, Grows (g a)) :
    Yields (fun n => (f n).bind fun a => g a n) b ↔ ∃ a, Yields f a ∧ Yields (g a) b := by
  constructor
  · rintro ⟨n, h⟩
    obtain ⟨a, ha, hb⟩ := bind_eq_some_iff.mp h
    exact ⟨a, ⟨n, ha⟩, ⟨n, hb⟩⟩
  · rintro ⟨a, ⟨m, hm⟩, ⟨n, hn⟩⟩
    refine ⟨m + n, bind_eq_some_iff.mpr ⟨a, hf m n a hm, ?_⟩⟩
    rw [add_comm]
    exact hg a n m b hn

def afterOk (k : α → Option (Except ε β)) : Except ε α → Option (Except ε β)
  | .error err => some (.error err)
  | .ok a => k a

def andThen (x : Option (Except ε α)) (k : α → Option (Except ε β)) : Option (Except ε β) :=
  x.bind (afterOk k)

variable {x : Nat → Option (Except ε α)} {k : α → Nat → Option (Except ε β)} {err : ε}

theorem afterOk_grows (hk : ∀ a, Grows (k a)) (r : Except ε α) :
    Grows fun n => afterOk (fun a => k a n) r := by
  cases r with
  | error err => exact grows_const _
  | ok a => exact hk a

theorem Grows.andThen (hx : Grows x) (hk : ∀ a, Grows (k a)) :
    Grows fun n => andThen (x n) fun a => k a n :=
  hx.bind (afterOk_grows hk)

theorem yields_andThen_ok (hx : Grows x) (hk : ∀ a, Grows (k a)) :
    Yields (fun n => andThen (x n) fun a => k a n) (.ok b) ↔
      ∃ a, Yields x (.ok a) ∧ Yields (k a) (.ok b) := by
  refine (yields_bind hx (afterOk_grows hk)).trans ⟨?_, ?_⟩
  · rintro ⟨r, hr, hb⟩
    cases r with
    | error err => cases hb.choose_spec
    | ok a => exact ⟨a, hr, hb⟩
  · rintro ⟨a, ha, hb⟩
    exact ⟨.ok a, ha, hb⟩

theorem yields_andThen_error (hx : Grows x) (hk : ∀ a, Grows (k a)) :
    Yields (fun n => andThen (x n) fun a => k a n) (.error err) ↔
      Yields x (.error err) ∨ ∃ a, Yields x (.ok a) ∧ Yields (k a) (.error err) := by
  refine (yields_bind hx (afterOk_grows hk)).trans ⟨?_, ?_⟩
  · rintro ⟨r, hr, hb⟩
    cases r with
    | error err' =>
      obtain ⟨n, hn⟩ := hb
      cases hn
      exact .inl hr
    | ok a => exact .inr ⟨a, hr, hb⟩
  · rintro (hr | ⟨a, ha, hb⟩)
    · exact ⟨.error err, hr, 0, rfl⟩
    · exact ⟨.ok a, ha, hb⟩

theorem halts_andThen (hx : Grows x) (hk : ∀ a, Grows (k a)) :
    Halts (fun n => andThen (x n) fun a => k a n) ↔
      Halts x ∧ ∀ a, Yields x (.ok a) → Halts (k a) := by
  constructor
  · rintro ⟨b, hb⟩
    obtain ⟨r, hr, hb⟩ := (yields_bind hx (afterOk_grows hk)).mp hb
    refine ⟨⟨r, hr⟩, fun a ha => ?_⟩
    obtain rfl := hx.unique hr ha
    exact ⟨b, hb⟩
  · rintro ⟨⟨r, hr⟩, hrest⟩
    cases r with
    | error err => exact ⟨_, (yields_andThen_error hx hk).mpr (.inl hr)⟩
    | ok a =>
      obtain ⟨b, hb⟩ := hrest a hr
      exact ⟨b, (yields_bind hx (afterOk_grows hk)).mpr ⟨_, hr, hb⟩⟩

end

/-! ## Rounds -/

inductive Round (σ ρ : Type) where
  | next (s : σ)
  | done (r : ρ)
  | stuck
  deriving DecidableEq

variable {σ ρ : Type} {round : σ → Round σ ρ} {s s' z : σ} {r : ρ} {n : Nat}

def Round.next? : Round σ ρ → Option σ
  | .next s => some s
  | _ => none

def loop (round : σ → Round σ ρ) : Nat → σ → Option ρ
  | 0, _ => none
  | n + 1, s =>
    match round s with
    | .next s' => loop round n s'
    | .done r => some r
    | .stuck => none

def Comes (round : σ → Round σ ρ) (s z : σ) : Prop :=
  ∃ n, walk (fun s => (round s).next?) s n = some z

theorem next?_eq_some {o : Round σ ρ} : o.next? = some s ↔ o = .next s := by
  cases o with
  | next s' => rw [Round.next?, some.injEq, Round.next.injEq]
  | done r => simp [Round.next?]
  | stuck => simp [Round.next?]

theorem loop_next (h : round s = .next s') : loop round (n + 1) s = loop round n s' := by
  rw [loop, h]

theorem loop_done (h : round s = .done r) : loop round (n + 1) s = some r := by
  rw [loop, h]

theorem loop_stuck (h : round s = .stuck) : loop round n s = none := by
  cases n with
  | zero => rfl
  | succ n => rw [loop, h]

theorem Comes.refl (round : σ → Round σ ρ) (s : σ) : Comes round s s := ⟨0, rfl⟩

theorem Comes.head (h : round s = .next s') (hz : Comes round s' z) : Comes round s z := by
  obtain ⟨n, hn⟩ := hz
  exact ⟨n + 1, (walk_cons (next?_eq_some.mpr h) n).trans hn⟩

theorem Comes.tail (hz : Comes round s z) (h : round z = .next s') : Comes round s s' := by
  obtain ⟨n, hn⟩ := hz
  refine ⟨n + 1, ?_⟩
  rw [walk, hn, bind_some, next?_eq_some.mpr h]

theorem Comes.cases (hz : Comes round s z) : z = s ∨ ∃ y, Comes round s y ∧ round y = .next z := by
  obtain ⟨n, hn⟩ := hz
  cases n with
  | zero => exact .inl (some.inj hn).symm
  | succ n =>
    obtain ⟨y, hy, hround⟩ := bind_eq_some_iff.mp hn
    exact .inr ⟨y, ⟨n, hy⟩, next?_eq_some.mp hround⟩

theorem Comes.cases_head (hz : Comes round s z) :
    z = s ∨ ∃ s', round s = .next s' ∧ Comes round s' z := by
  obtain ⟨n, hn⟩ := hz
  cases n with
  | zero => exact .inl (some.inj hn).symm
  | succ n =>
    rw [walk_succ] at hn
    obtain ⟨s', hround, hz⟩ := bind_eq_some_iff.mp hn
    exact .inr ⟨s', next?_eq_some.mp hround, n, hz⟩

theorem Comes.keeps {P : σ → Prop} (hstep : ∀ s s', P s → round s = .next s' → P s')
    (hz : Comes round s z) (hs : P s) : P z := by
  obtain ⟨n, hn⟩ := hz
  exact walk_keeps (fun a b ha hab => hstep a b ha (next?_eq_some.mp hab)) hs hn

theorem comes_of_loop (h : loop round n s = some r) : ∃ z, Comes round s z ∧ round z = .done r := by
  induction n generalizing s with
  | zero => cases h
  | succ n ih =>
    cases hround : round s with
    | next s' =>
      rw [loop_next hround] at h
      obtain ⟨z, hz, hdone⟩ := ih h
      exact ⟨z, hz.head hround, hdone⟩
    | done r' =>
      rw [loop_done hround] at h
      exact ⟨s, Comes.refl round s, hround.trans (congrArg _ (some.inj h))⟩
    | stuck =>
      rw [loop_stuck hround] at h
      cases h

theorem loop_of_comes (hz : Comes round s z) (hdone : round z = .done r) :
    ∃ n, loop round n s = some r := by
  obtain ⟨n, hn⟩ := hz
  refine ⟨n + 1, ?_⟩
  induction n generalizing s with
  | zero =>
    obtain rfl : s = z := some.inj hn
    exact loop_done hdone
  | succ n ih =>
    rw [walk_succ] at hn
    obtain ⟨s', hs', hwalk⟩ := bind_eq_some_iff.mp hn
    rw [loop_next (next?_eq_some.mp hs')]
    exact ih hwalk

theorem loop_grows (round : σ → Round σ ρ) (s : σ) : Grows fun n => loop round n s := by
  intro n d r h
  induction n generalizing s with
  | zero => cases h
  | succ n ih =>
    dsimp only at h ⊢
    rw [Nat.succ_add]
    cases hround : round s with
    | next s' =>
      rw [loop_next hround] at h ⊢
      exact ih s' h
    | done r' =>
      rw [loop_done hround] at h ⊢
      exact h
    | stuck =>
      rw [loop_stuck hround] at h
      cases h

theorem yields_loop :
    Yields (fun n => loop round n s) r ↔ ∃ z, Comes round s z ∧ round z = .done r := by
  constructor
  · rintro ⟨n, h⟩
    exact comes_of_loop h
  · rintro ⟨z, hz, hdone⟩
    exact loop_of_comes hz hdone

theorem halts_loop :
    Halts (fun n => loop round n s) ↔
      (∃ n, walk (fun s => (round s).next?) s n = none) ∧
        ∀ z, Comes round s z → round z ≠ .stuck := by
  constructor
  · rintro ⟨r, hr⟩
    obtain ⟨z, ⟨n, hn⟩, hdone⟩ := yields_loop.mp hr
    have hlast : (round z).next? = none := by rw [hdone]; rfl
    refine ⟨⟨n + 1, by rw [walk, hn, bind_some, hlast]⟩, ?_⟩
    rintro y ⟨k, hk⟩ hstuck
    have hend : (round y).next? = none := by rw [hstuck]; rfl
    rw [last_unique hk hend hn hlast, hdone] at hstuck
    cases hstuck
  · rintro ⟨⟨n, hn⟩, hstuck⟩
    obtain ⟨k, z, -, hz, hend⟩ := exists_last hn
    cases hround : round z with
    | next s' =>
      rw [hround] at hend
      cases hend
    | done r => exact ⟨r, yields_loop.mpr ⟨z, ⟨k, hz⟩, hround⟩⟩
    | stuck => exact absurd hround (hstuck z ⟨k, hz⟩)

theorem Comes.ends (hz : Comes round s z) (h : ∃ n, walk (fun s => (round s).next?) s n = none) :
    ∃ n, walk (fun s => (round s).next?) z n = none := by
  obtain ⟨k, hk⟩ := hz
  obtain ⟨n, hn⟩ := h
  refine ⟨n, ?_⟩
  have hlong := walk_none_of_le (Nat.le_add_left n k) hn
  rwa [walk_add, hk] at hlong

end OpenWrt.Lib
