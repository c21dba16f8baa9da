import Mathlib.Data.List.Nodup

/-!
# Chained hash tables

A table gives each index a chain of keys with their values.  A key is looked for
in the chain of its hash only, a known key keeps its place in the chain, and a
new one is put at the head.  `Table.get` turns a table into the partial function
from keys to values that it stands for.
-/

namespace OpenWrt.Lib

open List Function

variable {ι K V : Type} [DecidableEq K]

/-! ## One chain -/

namespace Chain

def find (key : K) : List (K × V) → Option V
  | [] => none
  | t :: l => if t.1 = key then some t.2 else find key l

def assign (key : K) (value : V) : List (K × V) → List (K × V)
  | [] => []
  | t :: l => if t.1 = key then (t.1, value) :: l else t :: assign key value l

def unlink (key : K) : List (K × V) → List (K × V)
  | [] => []
  | t :: l => if t.1 = key then l else t :: unlink key l

def keys (l : List (K × V)) : List K := l.map Prod.fst

variable {key key' : K} {value : V} {l : List (K × V)}

theorem find_eq_none_iff : find key l = none ↔ key ∉ keys l := by
  induction l with
  | nil => simp [find, keys]
  | cons t l ih =>
    by_cases h : t.1 = key
    · simp [find, keys, h]
    · have h' : ¬ key = t.1 := fun heq => h heq.symm
      simp only [find, if_neg h, ih]
      simp [keys, h']

theorem mem_of_find (h : find key l = some value) : (key, value) ∈ l := by
  induction l with
  | nil => simp [find] at h
  | cons t l ih =>
    by_cases ht : t.1 = key
    · simp only [find, if_pos ht, Option.some.injEq] at h
      rw [← ht, ← h]
      exact mem_cons_self
    · simp only [find, if_neg ht] at h
      exact mem_cons_of_mem _ (ih h)

theorem find_of_mem (hnodup : (keys l).Nodup) (h : (key, value) ∈ l) : find key l = some value := by
  induction l with
  | nil => simp at h
  | cons t l ih =>
    simp only [keys, map_cons, nodup_cons] at hnodup
    rcases mem_cons.mp h with heq | htail
    · simp [find, ← heq]
    · have hne : t.1 ≠ key := by
        intro heq
        exact hnodup.1 (heq ▸ mem_map_of_mem htail)
      simp only [find, if_neg hne]
      exact ih hnodup.2 htail

@[simp] theorem keys_assign : keys (assign key value l) = keys l := by
  induction l with
  | nil => rfl
  | cons t l ih =>
    by_cases h : t.1 = key
    · simp [assign, keys, h]
    · simp only [assign, if_neg h]
      simpa [keys] using ih

theorem find_assign (hmem : key ∈ keys l) :
    find key' (assign key value l) = if key' = key then some value else find key' l := by
  induction l with
  | nil => simp [keys] at hmem
  | cons t l ih =>
    by_cases h : t.1 = key
    · by_cases hk : key' = key
      · simp [assign, find, h, hk]
      · have hk' : ¬ key = key' := fun heq => hk heq.symm
        simp [assign, find, h, hk, hk']
    · have htail : key ∈ keys l := by
        simp only [keys, map_cons, mem_cons] at hmem
        exact hmem.resolve_left fun heq => h heq.symm
      simp only [assign, if_neg h, find, ih htail]
      by_cases ht : t.1 = key'
      · have hne : ¬ key' = key := fun heq => h (ht.trans heq)
        simp [hne]
      · simp [ht]

theorem keys_unlink_sublist : (keys (unlink key l)).Sublist (keys l) := by
  induction l with
  | nil => exact List.Sublist.refl _
  | cons t l ih =>
    by_cases h : t.1 = key
    · simp only [unlink, if_pos h]
      exact sublist_cons_self _ _
    · simp only [unlink, if_neg h]
      exact List.Sublist.cons_cons _ ih

theorem mem_of_mem_unlink {t : K × V} (h : t ∈ unlink key l) : t ∈ l := by
  induction l with
  | nil => exact h
  | cons u l ih =>
    by_cases hu : u.1 = key
    · simp only [unlink, if_pos hu] at h
      exact mem_cons_of_mem _ h
    · simp only [unlink, if_neg hu] at h
      rcases mem_cons.mp h with rfl | htail
      · exact mem_cons_self
      · exact mem_cons_of_mem _ (ih htail)

theorem find_unlink (hnodup : (keys l).Nodup) :
    find key' (unlink key l) = if key' = key then none else find key' l := by
  induction l with
  | nil => simp [unlink, find]
  | cons t l ih =>
    simp only [keys, map_cons, nodup_cons] at hnodup
    by_cases h : t.1 = key
    · simp only [unlink, if_pos h]
      by_cases hk : key' = key
      · rw [if_pos hk, hk, find_eq_none_iff, ← h]
        exact hnodup.1
      · have hk' : ¬ t.1 = key' := fun heq => hk (heq.symm.trans h)
        rw [if_neg hk, find, if_neg hk']
    · simp only [unlink, if_neg h, find, ih hnodup.2]
      by_cases ht : t.1 = key'
      · have hne : ¬ key' = key := fun heq => h (ht.trans heq)
        simp [hne]
      · simp [ht]

end Chain

/-! ## Tables -/

abbrev Table (ι K V : Type) := ι → List (K × V)

namespace Table

variable {hash : K → ι} {t : Table ι K V} {key key' : K} {value : V} {indices : List ι}

/-- Every key stands in the chain of its hash, and once only. -/
structure Wf (hash : K → ι) (t : Table ι K V) : Prop where
  chain : ∀ i, ∀ e ∈ t i, hash e.1 = i
  nodup : ∀ i, (Chain.keys (t i)).Nodup

def empty : Table ι K V := fun _ => []

def get (hash : K → ι) (t : Table ι K V) (key : K) : Option V :=
  Chain.find key (t (hash key))

omit [DecidableEq K] in
theorem wf_empty : Wf hash (empty : Table ι K V) where
  chain := by
    intro i e he
    cases he
  nodup := fun _ => nodup_nil

@[simp] theorem get_empty : get hash (empty : Table ι K V) key = none := rfl

def tuples (indices : List ι) (t : Table ι K V) : List (K × V) := indices.flatMap t

theorem mem_tuples (hall : ∀ i, i ∈ indices) (hwf : Wf hash t) :
    (key, value) ∈ tuples indices t ↔ get hash t key = some value := by
  constructor
  · intro h
    rcases mem_flatMap.mp h with ⟨i, -, hi⟩
    have hhash : hash key = i := hwf.chain i _ hi
    rw [get, hhash]
    exact Chain.find_of_mem (hwf.nodup i) hi
  · intro h
    exact mem_flatMap.mpr ⟨hash key, hall _, Chain.mem_of_find h⟩

omit [DecidableEq K] in
theorem nodup_keys_tuples (hnodup : indices.Nodup) (hwf : Wf hash t) :
    (Chain.keys (tuples indices t)).Nodup := by
  induction indices with
  | nil => exact nodup_nil
  | cons i indices ih =>
    rw [nodup_cons] at hnodup
    simp only [Chain.keys, tuples, flatMap_cons, map_append]
    apply List.Nodup.append (hwf.nodup i) (ih hnodup.2)
    intro k hk hk'
    rcases mem_map.mp hk with ⟨e, he, rfl⟩
    rcases mem_map.mp hk' with ⟨e', he', heq⟩
    rcases mem_flatMap.mp he' with ⟨j, hj, hej⟩
    have hi := hwf.chain i e he
    have hj' := hwf.chain j e' hej
    rw [heq, hi] at hj'
    exact hnodup.1 (hj' ▸ hj)

variable [DecidableEq ι]

def put (hash : K → ι) (t : Table ι K V) (key : K) (value : V) : Table ι K V :=
  update t (hash key) <|
    match Chain.find key (t (hash key)) with
    | some _ => Chain.assign key value (t (hash key))
    | none => (key, value) :: t (hash key)

def del (hash : K → ι) (t : Table ι K V) (key : K) : Table ι K V :=
  update t (hash key) (Chain.unlink key (t (hash key)))

theorem get_put :
    get hash (put hash t key value) key' = if key' = key then some value else get hash t key' := by
  unfold get put
  by_cases hi : hash key' = hash key
  · rw [hi, update_self]
    cases hfind : Chain.find key (t (hash key)) with
    | some v =>
      apply Chain.find_assign
      by_contra hnot
      rw [Chain.find_eq_none_iff.mpr hnot] at hfind
      cases hfind
    | none =>
      by_cases hk : key' = key
      · simp [Chain.find, hk]
      · have hk' : ¬ key = key' := fun heq => hk heq.symm
        simp [Chain.find, hk, hk']
  · have hk : ¬ key' = key := fun heq => hi (congrArg hash heq)
    rw [update_of_ne hi, if_neg hk]

theorem get_del (hwf : Wf hash t) :
    get hash (del hash t key) key' = if key' = key then none else get hash t key' := by
  unfold get del
  by_cases hi : hash key' = hash key
  · rw [hi, update_self]
    exact Chain.find_unlink (hwf.nodup _)
  · have hk : ¬ key' = key := fun heq => hi (congrArg hash heq)
    rw [update_of_ne hi, if_neg hk]

theorem wf_put (hwf : Wf hash t) : Wf hash (put hash t key value) := by
  have hkeys : ∀ i, Chain.keys (put hash t key value i) = Chain.keys (t i) ∨
      i = hash key ∧ key ∉ Chain.keys (t i) ∧
        Chain.keys (put hash t key value i) = key :: Chain.keys (t i) := by
    intro i
    unfold put
    by_cases hi : i = hash key
    · subst hi
      rw [update_self]
      cases hfind : Chain.find key (t (hash key)) with
      | some v => exact Or.inl Chain.keys_assign
      | none => exact .inr ⟨rfl, Chain.find_eq_none_iff.mp hfind, rfl⟩
    · rw [update_of_ne hi]
      exact Or.inl rfl
  constructor
  · intro i e he
    have hmem : e.1 ∈ Chain.keys (put hash t key value i) := mem_map_of_mem he
    have hold : ∀ k ∈ Chain.keys (t i), hash k = i := by
      intro k hk
      rcases mem_map.mp hk with ⟨e', he', rfl⟩
      exact hwf.chain i e' he'
    rcases hkeys i with heq | ⟨hi, -, heq⟩
    · exact hold _ (heq ▸ hmem)
    · rw [heq] at hmem
      rcases mem_cons.mp hmem with hk | hk
      · rw [hk, hi]
      · exact hold _ hk
  · intro i
    rcases hkeys i with heq | ⟨-, hnot, heq⟩
    · rw [heq]
      exact hwf.nodup i
    · rw [heq]
      exact nodup_cons.mpr ⟨hnot, hwf.nodup i⟩

theorem wf_del (hwf : Wf hash t) : Wf hash (del hash t key) := by
  constructor
  · intro i e he
    unfold del at he
    by_cases hi : i = hash key
    · rw [hi, update_self] at he
      rw [hi]
      exact hwf.chain _ e (Chain.mem_of_mem_unlink he)
    · rw [update_of_ne hi] at he
      exact hwf.chain i e he
  · intro i
    unfold del
    by_cases hi : i = hash key
    · rw [hi, update_self]
      exact (hwf.nodup _).sublist Chain.keys_unlink_sublist
    · rw [update_of_ne hi]
      exact hwf.nodup i

theorem get_foldl_put {l : List (K × V)} (hnodup : (Chain.keys l).Nodup) :
    get hash (l.foldl (fun t e => put hash t e.1 e.2) t) key =
      (Chain.find key l).or (get hash t key) := by
  induction l generalizing t with
  | nil => rfl
  | cons e l ih =>
    simp only [Chain.keys, map_cons, nodup_cons] at hnodup
    rw [foldl_cons, ih hnodup.2, get_put, Chain.find]
    by_cases hk : e.1 = key
    · have hnone : Chain.find key l = none := by
        rw [Chain.find_eq_none_iff, ← hk]
        exact hnodup.1
      simp [hk, hnone]
    · have hk' : ¬ key = e.1 := fun heq => hk heq.symm
      simp [hk, hk']

theorem get_foldl_put_of_notMem {l : List (K × V)} (hnot : key ∉ Chain.keys l) :
    get hash (l.foldl (fun t e => put hash t e.1 e.2) t) key = get hash t key := by
  induction l generalizing t with
  | nil => rfl
  | cons e l ih =>
    simp only [Chain.keys, map_cons, mem_cons, not_or] at hnot
    rw [foldl_cons, ih hnot.2, get_put, if_neg hnot.1]

theorem wf_foldl_put {l : List (K × V)} (hwf : Wf hash t) :
    Wf hash (l.foldl (fun t e => put hash t e.1 e.2) t) := by
  induction l generalizing t with
  | nil => exact hwf
  | cons e l ih => exact ih (wf_put hwf)

end Table

end OpenWrt.Lib
