import Mathlib.Data.List.Basic

/-!
# Combining configurations

The files and operators of `scripts/kconfig.pl`.  A configuration is a Perl hash from symbols to
values; a loop over the keys of a hash that sets the entry of each key is written for one key.
`config_and` and `config_add` ask whether a value is true in Perl where they mean whether there is
one, so a symbol with the value `0` is taken for missing.
-/

namespace OpenWrt.Kconfig

open List Function

abbrev Text := List Char

abbrev Config := Text → Option Text

def undef : Text := "#undef".toList

/-- Perl takes the empty text and `0` for false. -/
def truthy (v : Text) : Prop := v ≠ [] ∧ v ≠ ['0']
  deriving Decidable

/-! ## Files -/

def setConfig (config : Config) (idx newval : Text) (modPlus : Bool) : Config :=
  if config idx = none ∨ modPlus = false ∨ config idx = some undef ∨ newval = ['y'] then
    update config idx (some newval)
  else config

/-- The groups of `^head(.+?)sep(.*)`, with at least `n` characters in the second one. -/
def groups (head sep : Text) (n : Nat) (line : Text) : Option (Text × Text) :=
  if head.isPrefixOf line then
    let s := line.drop head.length
    let rest := fun i => s.drop (i + sep.length)
    ((range' 1 s.length).find? fun i => sep.isPrefixOf (s.drop i) && n ≤ (rest i).length).map
      fun i => (s.take i, rest i)
  else none

/-- A text that stands for itself in a regular expression, on one line. -/
def Plain := { s : Text // ∀ c ∈ s, c ∉ "\n\\^$.|?*+()[]\x7b\x7d".toList }

def Plain.config : Plain := ⟨"CONFIG_".toList, by simp⟩

-- `load_config` has `$PREFIX` in its regular expressions.
variable (PREFIX : Plain)

def loadLine (modPlus : Bool) (config : Config) (line : Text) : Config :=
  match groups PREFIX.val ['='] 1 line with
  | some (idx, newval) => setConfig config idx newval modPlus
  | none =>
    match groups ("# ".toList ++ PREFIX.val) " is not set".toList 0 line with
    | some (idx, _) => setConfig config idx undef modPlus
    | none => config

def loadConfig (file : List Text) (modPlus : Bool) : Config :=
  file.foldl (loadLine PREFIX modPlus) fun _ => none

/-! ## Operators -/

def configAnd (cfg1 cfg2 : Config) : Config := fun config =>
  match cfg1 config, cfg2 config with
  | some val1, some val2 => if truthy val2 ∧ val1 = val2 then some val1 else none
  | _, _ => none

def addInto (modPlus : Bool) (result cfg : Config) : Config := fun config =>
  match cfg config, result config with
  | none, old => old
  | some val, none => some val
  | some val, some old =>
    if modPlus ∧ truthy old ∧ (old = ['y'] ∨ val = undef) then some old else some val

def configAdd (cfg1 cfg2 : Config) (modPlus : Bool) : Config :=
  [cfg1, cfg2].foldl (addInto modPlus) fun _ => none

def configDiff (cfg1 cfg2 : Config) (newOnly : Bool) : Config := fun config =>
  match cfg2 config with
  | none => none
  | some val =>
    if cfg1 config = some val then none
    else if newOnly ∧ cfg1 config = none ∧ val = undef then none
    else some val

/-- The arguments of the script, but for its operator `-`. -/
inductive Expr where
  | file (lines : List Text)
  | and (arg1 arg2 : Expr)
  | add (arg1 arg2 : Expr)
  | modAdd (arg1 arg2 : Expr)
  | diff (newOnly : Bool) (arg1 arg2 : Expr)

def Expr.parse : Expr → Bool → Config
  | file lines, modPlus => loadConfig PREFIX lines modPlus
  | and arg1 arg2, _ => configAnd (arg1.parse false) (arg2.parse false)
  | add arg1 arg2, _ => configAdd (arg1.parse false) (arg2.parse false) false
  | modAdd arg1 arg2, _ => configAdd (arg1.parse false) (arg2.parse true) true
  | diff newOnly arg1 arg2, _ => configDiff (arg1.parse false) (arg2.parse false) newOnly

structure Laws (a b c : Expr) : Prop where
  and_iff : ∀ k v, (Expr.and a b).parse PREFIX false k = some v ↔
    a.parse PREFIX false k = some v ∧ b.parse PREFIX false k = some v
  and_comm : (Expr.and a b).parse PREFIX false = (Expr.and b a).parse PREFIX false
  and_assoc : (Expr.and (.and a b) c).parse PREFIX false =
    (Expr.and a (.and b c)).parse PREFIX false
  and_self : (Expr.and a a).parse PREFIX false = a.parse PREFIX false
  add : ∀ k, (Expr.add a b).parse PREFIX false k =
    (b.parse PREFIX false k).or (a.parse PREFIX false k)
  add_diff : ∀ k v, b.parse PREFIX false k = some v →
    (Expr.add a (.diff false a b)).parse PREFIX false k = some v
  modAdd_y : ∀ k, a.parse PREFIX false k = some ['y'] →
    (Expr.modAdd a b).parse PREFIX false k = some ['y']
  modAdd_set : ∀ k v, a.parse PREFIX false k = some v → v ≠ undef →
    (Expr.modAdd a b).parse PREFIX false k ≠ some undef

/-! ## Values -/

variable {PREFIX : Plain} {config cfg1 cfg2 : Config} {modPlus : Bool} {k v : Text}

def NonEmpty (config : Config) : Prop := ∀ k v, config k = some v → v ≠ []

theorem NonEmpty.setConfig (h : NonEmpty config) {idx newval : Text} (hval : newval ≠ []) :
    NonEmpty (setConfig config idx newval modPlus) := by
  intro k v hv
  rw [Kconfig.setConfig] at hv
  split at hv
  · by_cases hk : k = idx
    · rw [hk, update_self] at hv
      cases hv
      exact hval
    · rw [update_of_ne hk] at hv
      exact h k v hv
  · exact h k v hv

theorem groups_ne_nil {head sep line : Text} {p : Text × Text}
    (h : groups head sep 1 line = some p) : p.2 ≠ [] := by
  rw [groups] at h
  split at h
  · obtain ⟨i, hi, rfl⟩ := Option.map_eq_some_iff.mp h
    have hlen := find?_some hi
    simp only [Bool.and_eq_true, decide_eq_true_eq] at hlen
    exact ne_nil_of_length_pos hlen.2
  · cases h

theorem NonEmpty.loadConfig (file : List Text) : NonEmpty (loadConfig PREFIX file modPlus) := by
  refine foldlRecOn file _ (fun k v hv => by cases hv) fun config h line _ => ?_
  rw [loadLine]
  split
  · rename_i hgroups
    exact h.setConfig (groups_ne_nil hgroups)
  · split
    · exact h.setConfig (by decide)
    · exact h

theorem configAnd_iff : configAnd cfg1 cfg2 k = some v ↔
    cfg1 k = some v ∧ cfg2 k = some v ∧ truthy v := by
  rw [configAnd]
  cases cfg1 k <;> cases cfg2 k <;> grind

theorem configAdd_eq : configAdd cfg1 cfg2 modPlus k =
    match cfg2 k, cfg1 k with
    | none, old => old
    | some val, none => some val
    | some val, some old =>
      if modPlus ∧ truthy old ∧ (old = ['y'] ∨ val = undef) then some old else some val := by
  have hfirst : addInto modPlus (fun _ => none) cfg1 k = cfg1 k := by
    rw [addInto]
    cases cfg1 k <;> rfl
  simp only [configAdd, foldl_cons, foldl_nil]
  rw [addInto, hfirst]

/-- The operators keep to their laws exactly if no symbol of the first file has the value `0`. -/
theorem laws_iff (a b c : List Text) : Laws PREFIX (.file a) (.file b) (.file c) ↔
    ∀ k, loadConfig PREFIX a false k ≠ some ['0'] := by
  constructor
  · intro h k hk
    have hself := congrFun h.and_self k
    simp only [Expr.parse] at hself
    rw [hk, configAnd_iff] at hself
    exact hself.2.2.2 rfl
  · intro h
    have htruthy : ∀ k v, loadConfig PREFIX a false k = some v → truthy v :=
      fun k v hv => ⟨NonEmpty.loadConfig a k v hv, fun h0 => h k (h0 ▸ hv)⟩
    constructor <;> simp only [Expr.parse]
    · intro k v
      rw [configAnd_iff]
      exact ⟨fun h => ⟨h.1, h.2.1⟩, fun h => ⟨h.1, h.2, htruthy k v h.1⟩⟩
    · ext v
      simp only [configAnd_iff]
      tauto
    · ext v
      simp only [configAnd_iff]
      tauto
    · funext k
      ext v
      rw [configAnd_iff]
      exact ⟨fun h => h.1, fun h => ⟨h, h, htruthy k v h⟩⟩
    · intro k
      rw [configAdd_eq]
      cases loadConfig PREFIX b false k <;> cases loadConfig PREFIX a false k <;> rfl
    · intro k v hv
      have hdiff : configDiff (loadConfig PREFIX a false) (loadConfig PREFIX b false) false k =
          if loadConfig PREFIX a false k = some v then none else some v := by
        simp [configDiff, hv]
      rw [configAdd_eq, hdiff]
      by_cases hsame : loadConfig PREFIX a false k = some v
      · rw [if_pos hsame]
        exact hsame
      · rw [if_neg hsame]
        cases loadConfig PREFIX a false k <;> rfl
    · intro k hk
      rw [configAdd_eq, hk]
      cases loadConfig PREFIX b true k <;> simp [htruthy k _ hk]
    · intro k v hv hne
      rw [configAdd_eq, hv]
      have := htruthy k v hv
      cases loadConfig PREFIX b true k with
      | none => exact fun heq => hne (Option.some.inj heq)
      | some w =>
        dsimp only
        split
        · exact fun heq => hne (Option.some.inj heq)
        · rename_i hkept
          exact fun heq => hkept ⟨rfl, this, .inr (Option.some.inj heq)⟩

/-- `& A A` loses `CONFIG_X=0`. -/
theorem and_self_zero :
    (Expr.and (.file ["CONFIG_X=0".toList]) (.file ["CONFIG_X=0".toList])).parse
        Plain.config false ['X'] = none ∧
      loadConfig Plain.config ["CONFIG_X=0".toList] false ['X'] = some ['0'] := by
  decide +kernel

/-! ## Printing -/

def printCfgline (PREFIX name val : Text) : Text :=
  if val = undef ∨ val = ['n'] then "# ".toList ++ PREFIX ++ name ++ " is not set".toList
  else PREFIX ++ name ++ ['='] ++ val

/-- `dump_config`; the order of the keys does not matter. -/
def dumpConfig (PREFIX : Text) (cfg : Config) (keys : List Text) : List Text :=
  keys.filterMap fun config => (cfg config).map (printCfgline PREFIX config)

/-- A name as Kconfig has them, and a value that leaves the assignment on one line. -/
def Printable (k v : Text) : Prop :=
  (k ≠ [] ∧ '=' ∉ k ∧ ' ' ∉ k) ∧ v ≠ [] ∧ '\n' ∉ k ++ v
  deriving Decidable

/-- A value as it is read back. -/
def normal (val : Text) : Text := if val = ['n'] then undef else val

theorem not_isPrefixOf {c : Char} {sep s : Text} (hsep : sep.head? = some c)
    (hs : s.head? ≠ some c) : sep.isPrefixOf s = false := by
  rw [Bool.eq_false_iff, Ne, isPrefixOf_iff_prefix]
  rintro ⟨t, rfl⟩
  rw [head?_append, hsep] at hs
  exact hs rfl

theorem groups_append {head sep name rest line : Text} {c : Char} {n : Nat}
    (hline : line = head ++ (name ++ (sep ++ rest))) (hsep : sep.head? = some c) (hname : name ≠ [])
    (hc : c ∉ name) (hn : n ≤ rest.length) : groups head sep n line = some (name, rest) := by
  subst hline
  have hpos := length_pos_iff.mpr hname
  rw [groups, if_pos (by simp), drop_left]
  refine Option.map_eq_some_iff.mpr ⟨name.length,
    find?_range'_eq_some.mpr ⟨?_, ?_, fun j _ hlt => ?_⟩, ?_⟩
  · simp [hn]
  · simp
    omega
  · rw [not_isPrefixOf hsep, Bool.false_and, Bool.not_false]
    rw [drop_append_of_le_length (Nat.le_of_lt hlt), head?_append, head?_drop,
      getElem?_eq_getElem hlt]
    intro h
    cases h
    exact hc (getElem_mem hlt)
  · simp [drop_append]

theorem groups_none {head sep line : Text} {c : Char} {n : Nat} (hsep : sep.head? = some c)
    (hc : c ∉ line) : groups head sep n line = none := by
  unfold groups
  split
  · rw [Option.map_eq_none_iff, find?_eq_none]
    intro i _
    rw [not_isPrefixOf hsep]
    · exact Bool.false_ne_true
    · exact fun h => hc (mem_of_mem_drop (mem_of_mem_drop (mem_of_mem_head? h)))
  · rfl

theorem loadLine_printCfgline (hpre : '=' ∉ PREFIX.val) (h : Printable k v) :
    loadLine PREFIX modPlus config (printCfgline PREFIX.val k v) =
      setConfig config k (normal v) modPlus := by
  obtain ⟨⟨hne, heq, hblank⟩, hv, -⟩ := h
  have hset : groups PREFIX.val ['='] 1 (PREFIX.val ++ k ++ ['='] ++ v) = some (k, v) :=
    groups_append (by simp) rfl hne heq (length_pos_iff.mpr hv)
  have hunset : groups ("# ".toList ++ PREFIX.val) " is not set".toList 0
      ("# ".toList ++ PREFIX.val ++ k ++ " is not set".toList) = some (k, []) :=
    groups_append (by simp) rfl hne hblank (Nat.zero_le _)
  have hnone : groups PREFIX.val ['='] 1 ("# ".toList ++ PREFIX.val ++ k ++ " is not set".toList) =
      none := groups_none rfl (by simp [hpre, heq])
  unfold printCfgline normal loadLine
  split_ifs with hval hn hn
  · rw [hnone, hunset]
  · rw [hnone, hunset, hval.resolve_right hn]
  · exact absurd (.inr hn) hval
  · rw [hset]

theorem foldl_dumpConfig (hpre : '=' ∉ PREFIX.val) {keys : List Text}
    (hconfig : ∀ k ∈ keys, ∃ v, config k = some v ∧ Printable k v) (hnodup : keys.Nodup)
    {start : Config} (hstart : ∀ k ∈ keys, start k = none) :
    (dumpConfig PREFIX.val config keys).foldl (loadLine PREFIX modPlus) start =
      fun k => if k ∈ keys then (config k).map normal else start k := by
  induction keys generalizing start with
  | nil => simp [dumpConfig]
  | cons k keys ih =>
    obtain ⟨hk, hnodup⟩ := nodup_cons.mp hnodup
    obtain ⟨hnone, hstart⟩ := forall_mem_cons.mp hstart
    obtain ⟨⟨v, hval, hline⟩, hconfig⟩ := forall_mem_cons.mp hconfig
    have hdump : dumpConfig PREFIX.val config (k :: keys) =
        printCfgline PREFIX.val k v :: dumpConfig PREFIX.val config keys := by
      simp [dumpConfig, hval]
    have hset : setConfig start k (normal v) modPlus =
        update start k (some (normal v)) := if_pos (.inl hnone)
    have hfresh : ∀ k' ∈ keys, update start k (some (normal v)) k' = none := by
      intro k' hk'
      rw [update_of_ne (ne_of_mem_of_not_mem hk' hk), hstart k' hk']
    rw [hdump, foldl_cons, loadLine_printCfgline hpre hline, hset,
      ih hconfig hnodup hfresh]
    funext k'
    by_cases hk' : k' = k
    · simp [hk', hval]
    · simp [hk']

/-- A configuration that is printed is read back, but for values of `n`. -/
theorem loadConfig_dumpConfig (hpre : '=' ∉ PREFIX.val) {keys : List Text} (hnodup : keys.Nodup)
    (hkeys : ∀ k, k ∉ keys → config k = none)
    (hconfig : ∀ k ∈ keys, ∃ v, config k = some v ∧ Printable k v) :
    loadConfig PREFIX (dumpConfig PREFIX.val config keys) modPlus =
      fun k => (config k).map normal := by
  rw [loadConfig, foldl_dumpConfig hpre hconfig hnodup fun _ _ => rfl]
  funext k
  split_ifs with hk
  · rfl
  · rw [hkeys k hk]
    rfl

theorem loadConfig_dumpConfig_n : loadConfig Plain.config
    (dumpConfig Plain.config.val (fun k => if k = ['X'] then some ['n'] else none) [['X']]) false =
      fun k => (if k = ['X'] then some ['n'] else none).map normal :=
  loadConfig_dumpConfig (by decide) (by decide)
    (fun _ hk => if_neg fun h => hk (mem_singleton.mpr h))
    fun _ hk => ⟨['n'], by rw [mem_singleton.mp hk]; decide⟩

end OpenWrt.Kconfig
