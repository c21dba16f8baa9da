import Mathlib.Data.List.DropRight

/-!
# Per-interface settings in a profile

`token_set` and `token_get` of `mtwifi_utils.lua`.  A setting of an `mtwifi` profile holds one
token for each interface, with `;` between them.  `token_set` takes the text apart, stores its
value and puts the text together again; an empty value leaves no trace there, so that the tokens
behind it move up.  A number is stored as its text.
-/

namespace OpenWrt.Mtwifi

open List

abbrev Text := List Char

def sep : Char := ';'

/-- `string.gmatch(str, "([^;]+)")` -/
def cfg2list (str : Text) : List Text := (str.splitOn sep).filter (· ≠ [])

/-- `gsub("^;*(.-);*$", "%1")` -/
def trimSeps (str : Text) : Text := (str.dropWhile (· = sep)).rdropWhile (· = sep)

/-- `gsub(";+", ";")` -/
def mergeSeps : Text → Text
  | [] => []
  | c :: str => if c = sep ∧ str.head? = some sep then mergeSeps str else c :: mergeSeps str

/-- The table with `v` at position `n`; holes in front of it are filled with `v`, too. -/
def storeAt (tmp : List Text) (n : Nat) (v : Text) : List Text :=
  if tmp.length < n then tmp ++ replicate (n - tmp.length) v else tmp.set (n - 1) v

def tokenSet (str : Text) (n : Nat) (v : Text) : Text :=
  mergeSeps (trimSeps ([sep].intercalate (storeAt (cfg2list str) n v)))

def tokenGet (str : Text) (n : Nat) (v : Option Text) : Option Text :=
  ((cfg2list str)[n - 1]?).or v

def storeAll : Nat → List Text → Text → Text
  | _, [], str => str
  | n, v :: vs, str => storeAll (n + 1) vs (tokenSet str n v)

/-- Every interface finds its own value, and the tokens behind them are as before. -/
structure Kept (str : Text) (vs : List Text) : Prop where
  stored : ∀ i v, vs[i]? = some v → (tokenGet (storeAll 1 vs str) (i + 1) none).getD [] = v
  behind : ∀ n, vs.length < n → tokenGet (storeAll 1 vs str) n none = tokenGet str n none

/-! ## Texts and their tokens -/

variable {str v : Text} {vs tmp : List Text} {n : Nat}

theorem cfg2list_append (s t : Text) : cfg2list (s ++ sep :: t) = cfg2list s ++ cfg2list t := by
  rw [cfg2list, splitOn_append_cons_self, filter_append, cfg2list, cfg2list]

theorem cfg2list_trimSeps : cfg2list (trimSeps str) = cfg2list str := by
  have hend (s : Text) : cfg2list (s.rdropWhile (· = sep)) = cfg2list s := by
    induction s using reverseRecOn with
    | nil => rfl
    | append_singleton s c ih =>
      by_cases hc : c = sep
      · rw [rdropWhile_concat_pos _ _ _ (by simpa using hc), ih, hc, cfg2list_append]
        exact (append_nil _).symm
      · rw [rdropWhile_concat_neg _ _ _ (by simpa using hc)]
  rw [trimSeps, hend]
  induction str with
  | nil => rfl
  | cons c str ih =>
    by_cases hc : c = sep
    · rw [dropWhile_cons_of_pos (by simpa using hc), ih, hc]
      exact (cfg2list_append [] str).symm
    · rw [dropWhile_cons_of_neg (by simpa using hc)]

theorem cfg2list_mergeSeps (s : Text) : cfg2list (s ++ mergeSeps str) = cfg2list (s ++ str) := by
  induction str generalizing s with
  | nil => rfl
  | cons c str ih =>
    rw [mergeSeps]
    split
    · rename_i hseps
      obtain ⟨str, rfl⟩ := head?_eq_some_iff.mp hseps.2
      rw [ih, hseps.1, cfg2list_append, cfg2list_append]
      exact congrArg _ (cfg2list_append [] str).symm
    · rw [append_cons, ih, ← append_cons]

theorem cfg2list_intercalate (h : ∀ t ∈ tmp, sep ∉ t) :
    cfg2list ([sep].intercalate tmp) = tmp.filter (· ≠ []) := by
  by_cases hne : tmp = []
  · rw [hne]
    rfl
  · rw [cfg2list, splitOn_intercalate sep h hne]

theorem sep_notMem (ht : v ∈ str.splitOn sep) : sep ∉ v := by
  induction str generalizing v with
  | nil =>
    rw [splitOn_nil, mem_singleton] at ht
    simp [ht]
  | cons c str ih =>
    rw [splitOn_cons_eq_if_modifyHead] at ht
    split at ht
    · rcases mem_cons.mp ht with rfl | ht
      · simp
      · exact ih ht
    · rename_i hc
      obtain ⟨t, ts, hsplit⟩ := exists_cons_of_ne_nil (splitOn_ne_nil sep str)
      rw [hsplit] at ih ht
      rcases mem_cons.mp ht with rfl | ht
      · simp only [mem_cons, not_or]
        exact ⟨fun h => hc (by simp [h]), ih mem_cons_self⟩
      · exact ih (mem_cons_of_mem _ ht)

/-! ## Stores -/

def Filled (tmp : List Text) : Prop := ∀ t ∈ tmp, t ≠ []

theorem filled_filter (tmp : List Text) : Filled (tmp.filter (· ≠ [])) :=
  fun _ ht => of_decide_eq_true (mem_filter.mp ht).2

theorem Filled.tail (h : Filled tmp) : Filled tmp.tail := fun t ht => h t (mem_of_mem_tail ht)

def store (tmp : List Text) (n : Nat) (v : Text) : List Text := (storeAt tmp n v).filter (· ≠ [])

def stores : Nat → List Text → List Text → List Text
  | _, [], tmp => tmp
  | n, v :: vs, tmp => stores (n + 1) vs (store tmp n v)

theorem cfg2list_tokenSet (hv : sep ∉ v) :
    cfg2list (tokenSet str n v) = store (cfg2list str) n v := by
  have htmp : ∀ t ∈ storeAt (cfg2list str) n v, sep ∉ t := by
    have hold : ∀ t ∈ cfg2list str, sep ∉ t := fun t ht => sep_notMem (mem_filter.mp ht).1
    intro t ht
    rw [storeAt] at ht
    split at ht
    · rcases mem_append.mp ht with ht | ht
      · exact hold t ht
      · rwa [eq_of_mem_replicate ht]
    · rcases mem_or_eq_of_mem_set ht with ht | rfl
      · exact hold t ht
      · exact hv
  rw [tokenSet, ← nil_append (mergeSeps _), cfg2list_mergeSeps, nil_append,
    cfg2list_trimSeps, cfg2list_intercalate htmp, store]

theorem cfg2list_storeAll (hvs : ∀ v ∈ vs, sep ∉ v) :
    cfg2list (storeAll n vs str) = stores n vs (cfg2list str) := by
  induction vs generalizing n str with
  | nil => rfl
  | cons v vs ih =>
    rw [forall_mem_cons] at hvs
    rw [storeAll, ih hvs.2, cfg2list_tokenSet hvs.1, stores]

theorem filled_stores (htmp : Filled tmp) (n : Nat) (vs : List Text) :
    Filled (stores n vs tmp) := by
  induction vs generalizing n tmp with
  | nil => exact htmp
  | cons v vs ih => exact ih (filled_filter _) _

theorem stores_cons {t : Text} (ht : t ≠ []) (n : Nat) (vs tmp : List Text) :
    stores (n + 2) vs (t :: tmp) = t :: stores (n + 1) vs tmp := by
  induction vs generalizing n tmp with
  | nil => rfl
  | cons v vs ih =>
    have hstore : store (t :: tmp) (n + 2) v = t :: store tmp (n + 1) v := by
      have hat : storeAt (t :: tmp) (n + 2) v = t :: storeAt tmp (n + 1) v := by
        have hholes : n + 2 - (tmp.length + 1) = n + 1 - tmp.length := by omega
        simp only [storeAt, length_cons, Nat.add_lt_add_iff_right, hholes]
        split <;> rfl
      rw [store, hat, filter_cons_of_pos (by simpa using ht), store]
    rw [stores, hstore, ih, stores]

theorem stores_first (htmp : Filled tmp) (v : Text) (vs : List Text) :
    stores 1 (v :: vs) tmp =
      if v = [] then stores 2 vs tmp.tail else v :: stores 1 vs tmp.tail := by
  have hat : storeAt tmp 1 v = v :: tmp.tail := by
    cases tmp with
    | nil => rfl
    | cons t tmp => simp [storeAt]
  have htail : tmp.tail.filter (· ≠ []) = tmp.tail :=
    filter_eq_self.mpr fun t ht => decide_eq_true (htmp.tail t ht)
  rw [stores, store, hat]
  split
  · rename_i hv
    rw [filter_cons_of_neg (by simpa using hv), htail]
  · rename_i hv
    rw [filter_cons_of_pos (by simpa using hv), htail, stores_cons hv]

theorem stores_nil (hvs : ∀ v ∈ vs, v = []) (n : Nat) : stores n vs [] = [] := by
  induction vs generalizing n with
  | nil => rfl
  | cons v vs ih =>
    rw [forall_mem_cons] at hvs
    have hstore : store [] n v = [] := by
      rw [store, storeAt, hvs.1]
      split <;> simp
    rw [stores, hstore, ih hvs.2]

def KeptTokens (tmp vs : List Text) : Prop :=
  (∀ (i : Nat) (v : Text), vs[i]? = some v → ((stores 1 vs tmp)[i]?).getD [] = v) ∧
    ∀ i, vs.length ≤ i → (stores 1 vs tmp)[i]? = tmp[i]?

theorem kept_iff_keptTokens (hvs : ∀ v ∈ vs, sep ∉ v) :
    Kept str vs ↔ KeptTokens (cfg2list str) vs := by
  have hget (n : Nat) :
      tokenGet (storeAll 1 vs str) n none = (stores 1 vs (cfg2list str))[n - 1]? := by
    rw [tokenGet, cfg2list_storeAll hvs, Option.or_none]
  constructor
  · intro h
    refine ⟨fun i v hi => ?_, fun i hi => ?_⟩
    · rw [← h.stored i v hi, hget, Nat.add_sub_cancel]
    · have hbehind := h.behind (i + 1) (by omega)
      rwa [hget, tokenGet, Option.or_none] at hbehind
  · rintro ⟨hstored, hbehind⟩
    refine ⟨fun i v hi => ?_, fun n hn => ?_⟩
    · rw [hget, Nat.add_sub_cancel, hstored i v hi]
    · rw [hget, tokenGet, Option.or_none, hbehind _ (by omega)]

theorem keptTokens_cons (htmp : Filled tmp) (hv : v ≠ []) :
    KeptTokens tmp (v :: vs) ↔ KeptTokens tmp.tail vs := by
  have hfinal := stores_first htmp v vs
  rw [if_neg hv] at hfinal
  rw [KeptTokens, hfinal]
  constructor
  · rintro ⟨hstored, hbehind⟩
    refine ⟨fun i => hstored (i + 1), fun i hi => ?_⟩
    rw [getElem?_tail, ← hbehind (i + 1) (Nat.succ_le_succ hi), getElem?_cons_succ]
  · rintro ⟨hstored, hbehind⟩
    refine ⟨fun i w hi => ?_, fun i hi => ?_⟩
    · cases i with
      | zero => exact Option.some.inj hi
      | succ i => exact hstored i w hi
    · obtain ⟨i, rfl⟩ := Nat.exists_eq_add_one.mpr (Nat.zero_lt_of_lt hi)
      rw [getElem?_cons_succ, hbehind i (Nat.le_of_succ_le_succ hi), getElem?_tail]

theorem keptTokens_nil_cons (htmp : Filled tmp) :
    KeptTokens tmp ([] :: vs) ↔ tmp.length ≤ 1 ∧ ∀ w ∈ vs, w = [] := by
  have hfinal := stores_first htmp [] vs
  rw [if_pos rfl] at hfinal
  have hfilled := filled_stores htmp.tail 2 vs
  rw [KeptTokens, hfinal]
  constructor
  · rintro ⟨hstored, -⟩
    have hnone : stores 2 vs tmp.tail = [] := by
      cases hstores : stores 2 vs tmp.tail with
      | nil => rfl
      | cons s rest =>
        rw [hstores] at hstored hfilled
        exact absurd (hstored 0 [] rfl) (hfilled s mem_cons_self)
    refine ⟨?_, fun w hw => ?_⟩
    · cases htail : tmp.tail with
      | nil =>
        have hlen := congrArg length htail
        rw [length_tail, length_nil] at hlen
        omega
      | cons t rest =>
        rw [htail, stores_cons (htmp.tail t (htail ▸ mem_cons_self)) 0] at hnone
        cases hnone
    · obtain ⟨i, hi⟩ := mem_iff_getElem?.mp hw
      have hget := hstored (i + 1) w hi
      rw [hnone] at hget
      exact hget.symm
  · rintro ⟨hlen, hvs⟩
    have htail : tmp.tail = [] := length_eq_zero_iff.mp (by rw [length_tail]; omega)
    rw [htail, stores_nil hvs]
    refine ⟨fun i w hi => ?_, fun i hi => ?_⟩
    · rcases mem_cons.mp (mem_of_getElem? hi) with rfl | hw
      · rfl
      · exact (hvs w hw).symm
    · rw [length_cons] at hi
      rw [getElem?_nil, getElem?_eq_none (by omega)]

/-- Every interface keeps its value exactly if the empty values are the last ones and, if there
are any, at most one token is there in their place. -/
theorem kept_iff (hvs : ∀ v ∈ vs, sep ∉ v) : Kept str vs ↔
    ∃ ws k, vs = ws ++ replicate k [] ∧ (∀ w ∈ ws, w ≠ []) ∧
      (k = 0 ∨ (cfg2list str).length ≤ ws.length + 1) := by
  rw [kept_iff_keptTokens hvs]
  have htmp : Filled (cfg2list str) := filled_filter _
  generalize cfg2list str = tmp at htmp
  clear hvs
  induction vs generalizing tmp with
  | nil => exact iff_of_true ⟨by simp, fun _ _ => rfl⟩ ⟨[], 0, rfl, by simp, .inl rfl⟩
  | cons v vs ih =>
    by_cases hv : v = []
    · rw [hv, keptTokens_nil_cons htmp]
      constructor
      · rintro ⟨hlen, hall⟩
        refine ⟨[], vs.length + 1, ?_, by simp, .inr hlen⟩
        rw [replicate_succ, ← eq_replicate_of_mem hall, nil_append]
      · rintro ⟨ws, k, heq, hws, hk⟩
        cases ws with
        | nil =>
          have hrest : ∀ w ∈ [] :: vs, w = [] := heq ▸ fun w hw => eq_of_mem_replicate hw
          have hpos : k ≠ 0 := fun h0 => by rw [h0] at heq; cases heq
          exact ⟨hk.resolve_left hpos, fun w hw => hrest w (mem_cons_of_mem _ hw)⟩
        | cons w ws => exact absurd (cons.inj heq).1.symm (hws w mem_cons_self)
    · refine (keptTokens_cons htmp hv).trans ((ih _ htmp.tail).trans ?_)
      constructor
      · rintro ⟨ws, k, rfl, hws, hk⟩
        refine ⟨v :: ws, k, rfl, forall_mem_cons.mpr ⟨hv, hws⟩, hk.imp_right fun hle => ?_⟩
        rw [length_tail] at hle
        rw [length_cons]
        omega
      · rintro ⟨ws, k, heq, hws, hk⟩
        cases ws with
        | nil =>
          have hmem : v ∈ replicate k [] := by
            rw [← nil_append (replicate k []), ← heq]
            exact mem_cons_self
          exact absurd (eq_of_mem_replicate hmem) hv
        | cons w ws =>
          refine ⟨ws, k, (cons.inj heq).2, (forall_mem_cons.mp hws).2,
            hk.imp_right fun hle => ?_⟩
          rw [length_cons] at hle
          rw [length_tail]
          omega

theorem kept_two : Kept "1;2;3".toList ["4".toList, "5".toList] :=
  (kept_iff (by decide)).mpr ⟨["4".toList, "5".toList], 0, rfl, by decide, .inl rfl⟩

/-- An empty first value: the second interface's token is taken for the first one's. -/
theorem tokenSet_empty : tokenGet (storeAll 1 [[]] "1;2".toList) 1 none = some ['2'] := by
  decide +kernel

end OpenWrt.Mtwifi
