import Mathlib
import OpenWrt.Scripts.Kconfig

/-!
# Package metadata after a clear

`parse_package_metadata` of `scripts/metadata.pm` fills global tables.  `clear_packages` empties
them, but for `%userids` and `%groupids`.  Packages and sources are Perl hashes; what a table holds
is the number of the hash.  What is printed is left out.
-/

namespace OpenWrt.Metadata

open Function Option

open OpenWrt.Kconfig (Text truthy)

/-! ## Users and groups -/

inductive Kind where
  | user
  | group
  deriving DecidableEq

/-- A hash from names to ids, or from ids to names; each entry has its makefile. -/
abbrev Entries (κ α : Type) := κ → Option (α × Option Text)

/-- `%usernames` and `%groupnames`, with -1 as no id, and `%userids` and `%groupids`. -/
structure Accounts where
  names : Entries (Kind × Text) (Option Nat)
  ids : Entries (Kind × Nat) Text

def isName : Text → Bool
  | [] => false
  | c :: cs => (c.isLower || c = '_') &&
      (if cs.getLast? = some '$' then cs.dropLast else cs).all fun c =>
        c.isLower || c.isDigit || c = '_' || c = '-'

structure Account where
  kind : Kind
  name : Text
  id : Option Nat

/-- The account of a spec that is not refused whatever the tables hold. -/
def account (kind : Kind) (spec : Text) : Option Account :=
  let name := spec.takeWhile (· ≠ '=')
  let id := (spec.dropWhile (· ≠ '=')).tail
  if isName spec then some ⟨kind, spec, none⟩
  else if isName name ∧ id ≠ [] ∧ id.all Char.isDigit ∧ id.head? ≠ some '0' ∧
    Nat.ofDigitChars 10 id 0 < 65536 then some ⟨kind, name, some (Nat.ofDigitChars 10 id 0)⟩
  else none

section Entries

variable {κ α : Type} (table : Entries κ α) (key : κ) (value : α)

def Fits : Prop := ∀ e ∈ table key, e.1 = value

instance [DecidableEq α] : Decidable (Fits table key value) :=
  inferInstanceAs (Decidable (∀ e ∈ _, _))

def enter [DecidableEq κ] (makefile : Option Text) : Entries κ α := fun k =>
  if k = key then (table k).or (some (value, makefile)) else table k

end Entries

def Account.Free (x : Account) (ids : Entries (Kind × Nat) Text) : Prop :=
  ∀ n ∈ x.id, Fits ids (x.kind, n) x.name

instance (x : Account) (ids : Entries (Kind × Nat) Text) : Decidable (x.Free ids) :=
  inferInstanceAs (Decidable (∀ n ∈ _, _))

def Accounts.add (makefile : Option Text) (x : Account) (a : Accounts) : Accounts where
  names := enter a.names (x.kind, x.name) x.id makefile
  ids := x.id.elim a.ids fun n => enter a.ids (x.kind, n) x.name makefile

def enterAccount (makefile : Option Text) (x : Account) (a : Accounts) : Bool × Accounts :=
  if ¬x.Free a.ids then (false, a)
  else if ¬Fits a.names (x.kind, x.name) x.id then
    (false, { a with ids := (a.add makefile x).ids })
  else (true, a.add makefile x)

def parsePackageMetadataUsergroup (makefile : Option Text) (kind : Kind) (spec : Text)
    (a : Accounts) : Bool × Accounts :=
  (account kind spec).elim (false, a) fun x => enterAccount makefile x a

/-! ## Lines -/

def isSpace (c : Char) : Bool := c ∈ [' ', '\t', '\n', '\r', '\x0b', '\x0c']

def isWord (c : Char) : Bool := c.isAlphanum || c = '_'

def words (s : Text) : List Text := (s.splitOnP isSpace).filter (· ≠ [])

/-- The group of `\s*(.+)\s*$`. -/
def value (s : Text) : Option Text :=
  if s = [] then none else if s.all isSpace then some (s.drop (s.length - 1))
  else some (s.dropWhile isSpace)

/-- The group of `\s*(.+?)\s*$`. -/
def shortValue (s : Text) : Option Text :=
  (value s).map fun v => if v.all isSpace then v else v.rdropWhile isSpace

def blank (s : Text) : Option Text := if s.head? = some ' ' then some s.tail else none

/-- The last two groups of `((?:.+\/)?([^\/]+))\/Makefile\s*$`. -/
def pathName (s : Text) : Option (Text × Text) :=
  let s := s.rdropWhile isSpace
  let path := s.take (s.length - 9)
  let name := path.rtakeWhile (· ≠ '/')
  if "/Makefile".toList.isSuffixOf s ∧ name ≠ [] ∧ path ≠ '/' :: name then some (path, name)
  else none

/-- The groups of `\s*((?:package\/)?((?:.+\/)?([^\/]+))\/Makefile)\s*$`. -/
def sourceMakefile (s : Text) : Option (Text × Text × Text) :=
  let starts := (List.range ((s.takeWhile isSpace).length + 1)).reverse.map s.drop
  starts.findSome? fun s =>
    ((if "package/".toList.isPrefixOf s then pathName (s.drop 8) else none).or (pathName s)).map
      fun p => (s.rdropWhile isSpace, p)

def ugspecs (s : Text) : List (Kind × Text) :=
  (words s).flatMap fun ugspec =>
    let parts := ugspec.splitOn ':'
    let addngroups := [':'].intercalate (parts.drop 2)
    [(Kind.user, parts.headD []), (.group, parts.getD 1 [])].filter (fun s => truthy s.2) ++
      if truthy addngroups then
        ((addngroups.splitOn ',').rdropWhile (· = [])).map (Kind.group, ·)
      else []

def getMultiline (lines : List Text) (pre : Text) : Text :=
  let str := (lines.takeWhile fun l => !"@@".toList.isPrefixOf l).flatMap fun l =>
    if truthy l then pre ++ l else l
  if truthy str then str else []

/-! ## Tables -/

inductive Value where
  | undef
  | text (s : Text)
  | words (l : List Text)
  | hash (ref : Nat)
  | hashes (refs : List Nat)

abbrev Hash := String → Option Value

structure Tables where
  heap : List Hash
  package : Text → Option Nat
  vpackage : Text → List Nat
  srcpackage : Text → Option Nat
  category : Text × Text → List Nat
  overrides : Text → Bool

namespace Tables

def empty : Tables := ⟨[], fun _ => none, fun _ => [], fun _ => none, fun _ => [], fun _ => false⟩

def set (t : Tables) (ref : Nat) (key : String) (value : Value) : Tables :=
  { t with heap := t.heap.modify ref fun h => update h key (some value) }

def new (t : Tables) (fields : List (String × Value)) : Tables × Nat :=
  ({ t with heap := t.heap ++ [fun key => fields.lookup key] }, t.heap.length)

def get (t : Tables) (ref : Nat) (key : String) : Option Value :=
  (t.heap[ref]?).bind fun h => h key

def text (t : Tables) (ref : Nat) (key : String) : Option Text :=
  match t.get ref key with
  | some (.text s) => some s
  | _ => none

end Tables

def one : Value := .text ['1']

/-- The lines that set one entry to the value behind `: `. -/
def packageField (v : Text) : String → Option (String × Value)
  | "Version" => some ("version", .text v)
  | "Title" => some ("title", .text v)
  | "Menu" => some ("menu", .text v)
  | "Submenu" => some ("submenu", .text v)
  | "Submenu-Depends" => some ("submenudep", .text v)
  | "Source" => some ("source", .text v)
  | "License" => some ("license", .text v)
  | "LicenseFiles" => some ("licensefiles", .text v)
  | "CPE-ID" => some ("cpe_id", .text v)
  | "ABI-Version" => some ("abi_version", .text v)
  | "Default" => some ("default", .text v)
  | "Menu-Depends" => some ("mdepends", .words (words v))
  | "Depends" => some ("depends", .words (words v))
  | "Conflicts" => some ("conflicts", .words (words v))
  | "Hidden" => some ("hidden", one)
  | "Build-Only" => some ("buildonly", one)
  | "Maintainer" => some ("maintainer",
      .words ((((String.ofList v).splitOn ", ").map String.toList).rdropWhile (· = [])))
  | _ => none

def packageLine (src pkg : Nat) (key : String) (s : Text) (rest : List Text) (t : Tables) :
    Tables :=
  let name := (t.text pkg "name").getD []
  match key, (blank s).bind value with
  | "Provides", some v =>
    ((words v).filter (· ≠ name)).foldl (fun t vpkg =>
      { t with vpackage := update t.vpackage vpkg (t.vpackage vpkg ++ [pkg]) })
      (t.set pkg "provides" (.words (name :: words v)))
  | "Category", some v =>
    let t := t.set pkg "category" (.text v)
    let entry := (v, (t.text src "name").getD [])
    { t with category := update t.category entry (t.category entry ++ [pkg]) }
  | "Type", some v =>
    (t.set pkg "type" (.words (words v))).set pkg "tristate"
      (if (words v).any fun w => "ipkg".toList <:+: w then one else .undef)
  | "Build-Variant", some v =>
    let variant := v.takeWhile fun c => isWord c || c = '-'
    if variant = [] then t else t.set pkg "variant" (.text variant)
  | "Default-Variant", _ => if (blank s).isSome then t.set pkg "variant_default" one else t
  | "Repository", _ => (shortValue s).elim t fun v => t.set pkg "repository" (.text v)
  | "Prereq-Check", _ => t.set pkg "prereq" one
  | "Description", _ => (blank s).elim t fun v => t.set pkg "description"
      (.text ("\t\t ".toList ++ v.dropWhile isSpace ++ '\n' :: getMultiline rest "\t\t ".toList))
  | "Config", _ => t.set pkg "config"
      (.text (s.dropWhile isSpace ++ '\n' :: getMultiline rest ['\t']))
  | key, some v => (packageField v key).elim t fun f => t.set pkg f.1 f.2
  | _, none => t

/-- The variables of `parse_package_metadata`; `inside` says that `get_multiline` has read the
next line. -/
structure Parser where
  src : Option Nat
  pkg : Option Nat
  override : Text
  inside : Bool

def openPackage (src : Nat) (override name : Text) (t : Tables) : Tables × Nat :=
  let (t, pkg) := t.new [("src", .hash src), ("name", .text name), ("title", .text []),
    ("depends", .words []), ("mdepends", .words []), ("provides", .words [name]),
    ("tristate", one), ("override", .text override)]
  let packages := match t.get src "packages" with
    | some (.hashes l) => l
    | _ => []
  ({ t.set src "packages" (.hashes (packages ++ [pkg])) with
    package := update t.package name (some pkg)
    vpackage := update t.vpackage name (pkg :: t.vpackage name) }, pkg)

def sourceLine (src : Nat) (key : String) (s : Text) (t : Tables) : Tables :=
  match key with
  | "Build-Depends" => ((blank s).bind value).elim t fun v =>
      t.set src "builddepends" (.words (words v))
  | "Build-Types" => (value s).elim t fun v => t.set src "buildtypes" (.words (words v))
  | key =>
    let target := key.toList.drop 14
    if "Build-Depends/".toList.isPrefixOf key.toList ∧ target ≠ [] ∧ target.all isWord then
      ((blank s).bind value).elim t fun v =>
        t.set src ("builddepends/" ++ String.ofList target) (.words (words v))
    else t

def parseLine (ignore : List Text) (line : Text) (rest : List Text) (t : Tables) (p : Parser) :
    Tables × Parser × List (Kind × Text) :=
  if p.inside then (t, { p with inside := !"@@".toList.isPrefixOf line }, [])
  else
    let line := if line.getLast? = some '\n' then line.dropLast else line
    let s := (line.dropWhile (· ≠ ':')).tail
    if ':' ∉ line then (t, p, [])
    else match String.ofList (line.takeWhile (· ≠ ':')), p.src, p.pkg with
    | "Source-Makefile", _, _ => ((blank s).bind sourceMakefile).elim (t, p, []) fun g =>
        let (t, src) := t.new [("makefile", .text g.1), ("path", .text g.2.1),
          ("name", .text g.2.2), ("ignore", if g.2.2 ∈ ignore then one else .undef),
          ("packages", .hashes []), ("buildtypes", .words []), ("builddepends", .words [])]
        ({ t with srcpackage := update t.srcpackage g.2.2 (some src) },
          ⟨some src, none, [], false⟩, [])
    | "Override", src, _ => ((blank s).bind shortValue).elim (t, p, []) fun override =>
        -- without a source, `$src->{name}` makes an empty one
        let (t, src) := src.elim (t.new []) fun src => (t, src)
        let name := (t.text src "name").getD []
        ({ t with overrides := update t.overrides name true },
          { p with src := some src, override }, [])
    | _, none, _ => (t, p, [])
    | "Package", some src, _ => (shortValue s).elim (t, p, []) fun name =>
        let (t, pkg) := openPackage src p.override name t
        (t, { p with pkg := some pkg }, [])
    | "Require-User", _, some _ => (t, p, ugspecs s)
    | key, some src, pkg =>
        let t := sourceLine src key s t
        pkg.elim (t, p, []) fun pkg => (packageLine src pkg key s rest t,
          { p with inside := key = "Config" ∨ key = "Description" ∧ (blank s).isSome }, [])

/-! ## Files -/

structure Globals where
  tables : Tables
  accounts : Accounts

/-- The loop over the specs of a line; `next` is the rest of the file. -/
def requireAll (makefile : Option Text) (t : Tables) (next : Accounts → Bool × Globals) :
    List (Kind × Text) → Accounts → Bool × Globals
  | [], a => next a
  | (kind, spec) :: rest, a =>
    match parsePackageMetadataUsergroup makefile kind spec a with
    | (false, a) => (false, ⟨t, a⟩)
    | (true, a) => requireAll makefile t next rest a

def parseLines (ignore : List Text) :
    List Text → Tables → Parser → Accounts → Bool × Globals
  | [], t, _ => fun a => (true, ⟨t, a⟩)
  | line :: rest, t, p =>
    let (t, p, specs) := parseLine ignore line rest t p
    requireAll (p.src.bind (t.text · "makefile")) t (parseLines ignore rest t p) specs

def parsePackageMetadata (ignore : List Text) (file : Option (List Text)) (g : Globals) :
    Option Bool × Globals :=
  match file with
  | none => (none, g)
  | some lines =>
    let r := parseLines ignore lines g.tables ⟨none, none, [], false⟩ g.accounts
    (some r.1, r.2)

def Globals.fresh : Globals := ⟨.empty, fun _ => none, fun _ => none⟩

def clearPackages (g : Globals) : Globals := ⟨.empty, fun _ => none, g.accounts.ids⟩

def specs (ignore : List Text) : List Text → Tables → Parser → List (Kind × Text)
  | [], _, _ => []
  | line :: rest, t, p =>
    let (t, p, l) := parseLine ignore line rest t p
    l ++ specs ignore rest t p

/-! ## What a clear leaves -/

/-- The call right after a clear comes to what it comes to in a new process. -/
def Forgets (ignore : List Text) (file : Option (List Text)) (g : Globals) : Prop :=
  let r := parsePackageMetadata ignore file (clearPackages g)
  let new := parsePackageMetadata ignore file .fresh
  r.1 = new.1 ∧ r.2.tables = new.2.tables ∧ r.2.accounts.names = new.2.accounts.names

/-- Accounts of one kind that have the same name or the same id are the same. -/
def Account.Agrees (x y : Account) : Prop :=
  x.kind = y.kind → (x.name = y.name → x.id = y.id) ∧ ∀ n, x.id = some n → y.id = some n →
    x.name = y.name

/-- Up to the first spec that is refused in a new process, malformed or at odds with one of the
accounts `xs` before it, every account is free. -/
def AllFree (ids : Entries (Kind × Nat) Text) : List Account → List (Kind × Text) → Prop
  | _, [] => True
  | xs, (kind, spec) :: rest => ∀ x, account kind spec = some x → (∀ y ∈ xs, y.Agrees x) →
      x.Free ids ∧ AllFree ids (x :: xs) rest

variable {κ α : Type} [DecidableEq κ] {table p : Entries κ α} {key : κ} {v : α} {m : Option Text}
  {ids : Entries (Kind × Nat) Text} {x : Account} {xs : List Account} {a f : Accounts}
  {next : Accounts → Bool × Globals} {tail : List (Kind × Text)}

theorem fits_enter (h : Fits table key v) (k : κ) (w : α) :
    Fits (enter table key v m) k w ↔ Fits table k w ∧ (k = key → v = w) := by
  unfold Fits enter at *
  by_cases hk : k = key
  · subst hk
    cases htable : table k <;> simp_all
  · simp [hk]

theorem or_enter : (fun k => (p k).or (enter table key v m k)) =
    enter (fun k => (p k).or (table k)) key v m := by
  funext k
  unfold enter
  split <;> simp

def Account.Accepted (x : Account) (a : Accounts) : Prop :=
  x.Free a.ids ∧ Fits a.names (x.kind, x.name) x.id

theorem enterAccount_accepted (h : x.Accepted a) : enterAccount m x a = (true, a.add m x) := by
  rw [enterAccount, if_neg (not_not.mpr h.1), if_neg (not_not.mpr h.2)]

theorem enterAccount_refused (h : ¬x.Accepted a) :
    (enterAccount m x a).1 = false ∧ (enterAccount m x a).2.names = a.names := by
  unfold enterAccount
  split_ifs with hfree hfits
  · exact absurd ⟨hfree, hfits⟩ h
  · exact ⟨rfl, rfl⟩
  · exact ⟨rfl, rfl⟩

theorem enterAccount_grows (m : Option Text) (x : Account) {key : Kind × Text}
    (h : a.names key ≠ none) : (enterAccount m x a).2.names key ≠ none := by
  unfold enterAccount Accounts.add enter
  split_ifs
  · dsimp only
    split_ifs <;> simp [h]
  · exact h
  · exact h

structure Recorded (ids : Entries (Kind × Nat) Text) (xs : List Account) (f : Accounts) :
    Prop where
  fits_names : ∀ kind name id, Fits f.names (kind, name) id ↔
    ∀ y ∈ xs, y.kind = kind → y.name = name → y.id = id
  fits_ids : ∀ kind name n, Fits f.ids (kind, n) name ↔
    ∀ y ∈ xs, y.kind = kind → y.id = some n → y.name = name
  free : ∀ x ∈ xs, x.Free ids

def behind (ids : Entries (Kind × Nat) Text) (f : Accounts) : Accounts :=
  ⟨f.names, fun key => (ids key).or (f.ids key)⟩

theorem Recorded.accepted_iff (h : Recorded ids xs f) :
    x.Accepted f ↔ ∀ y ∈ xs, y.Agrees x := by
  simp only [Account.Accepted, Account.Free, h.fits_ids, h.fits_names, Account.Agrees, mem_def]
  grind

theorem Recorded.add (h : Recorded ids xs f) (hfree : x.Free ids) (hok : x.Accepted f) :
    Recorded ids (x :: xs) (f.add m x) := by
  unfold Accounts.add
  refine ⟨fun kind name id => ?_, fun kind name n => ?_,
    List.forall_mem_cons.mpr ⟨hfree, h.free⟩⟩
  · rw [fits_enter hok.2, h.fits_names]
    grind
  · cases hid : x.id with
    | none => simp [h.fits_ids, hid]
    | some n' =>
      rw [elim_some, fits_enter (hok.1 n' hid), h.fits_ids]
      grind

theorem behind_add (hfree : x.Free ids) (hok : x.Accepted f) :
    enterAccount m x (behind ids f) = (true, behind ids (f.add m x)) := by
  have hboth : x.Free (behind ids f).ids := by
    intro n hn e he
    rcases or_eq_some_iff.mp he with he | ⟨-, he⟩
    · exact hfree n hn e he
    · exact hok.1 n hn e he
  rw [enterAccount_accepted ⟨hboth, hok.2⟩, behind, behind, Accounts.add, Accounts.add]
  cases x.id with
  | none => rfl
  | some n => rw [elim_some, elim_some, or_enter]

theorem Recorded.free_of_behind (h : Recorded ids xs f) (hfree : x.Free (behind ids f).ids) :
    x.Free f.ids := by
  intro n hn
  cases hids : ids (x.kind, n) with
  | none =>
    intro e he
    exact hfree n hn e (by simpa [behind, hids] using he)
  | some owner =>
    rw [h.fits_ids]
    intro y hy hkind hid
    have howner : owner.1 = x.name := hfree n hn owner (by simp [behind, hids])
    rw [← howner]
    exact (h.free y hy n hid owner (by rw [hkind]; exact hids)).symm

theorem Recorded.new_name (h : Recorded ids xs f) (hclaimed : ¬x.Free ids)
    (hagrees : ∀ y ∈ xs, y.Agrees x) : f.names (x.kind, x.name) = none := by
  by_contra hsome
  obtain ⟨e, he⟩ := ne_none_iff_exists'.mp hsome
  have hmem : ∃ y ∈ xs, y.kind = x.kind ∧ y.name = x.name := by
    by_contra hno
    have hfits (id : Option Nat) : e.1 = id :=
      (h.fits_names x.kind x.name id).mpr (fun y hy hkind hname =>
        absurd ⟨y, hy, hkind, hname⟩ hno) e he
    cases (hfits none).symm.trans (hfits (some 0))
  obtain ⟨y, hy, hkind, hname⟩ := hmem
  refine hclaimed fun n hn => ?_
  have hid := (hagrees y hy hkind).1 hname
  rw [← hkind, ← hname]
  exact h.free y hy n (hid.trans hn)

theorem claimed_behind (h : ¬x.Free ids) (m : Option Text) (f : Accounts) :
    enterAccount m x (behind ids f) = (false, behind ids f) := by
  refine if_pos fun hfree => h fun n hn e he => hfree n hn e ?_
  simp [behind, mem_def.mp he]

/-! ## Whole files -/

def Same (r r' : Bool × Globals) : Prop :=
  r.1 = r'.1 ∧ r.2.tables = r'.2.tables ∧ r.2.accounts.names = r'.2.accounts.names

/-- `next` is the rest of a run, and `tail` are the specs that it requires. -/
structure Follows (ids : Entries (Kind × Nat) Text) (next : Accounts → Bool × Globals)
    (tail : List (Kind × Text)) : Prop where
  grows : ∀ a key, a.names key ≠ none → (next a).2.accounts.names key ≠ none
  same_iff : ∀ xs f, Recorded ids xs f →
    (Same (next (behind ids f)) (next f) ↔ AllFree ids xs tail)

theorem requireAll_cons {t : Tables} {kind : Kind} {spec : Text} {l : List (Kind × Text)}
    (hx : account kind spec = some x) : requireAll m t next ((kind, spec) :: l) a =
      if (enterAccount m x a).1 then requireAll m t next l (enterAccount m x a).2
      else (false, ⟨t, (enterAccount m x a).2⟩) := by
  rw [requireAll, parsePackageMetadataUsergroup, hx, elim_some]
  cases hadd : enterAccount m x a with
  | mk ok a' => cases ok <;> rfl

theorem Follows.requireAll (h : Follows ids next tail) (m : Option Text) (t : Tables)
    (l : List (Kind × Text)) : Follows ids (requireAll m t next l) (l ++ tail) := by
  induction l with
  | nil => exact h
  | cons r l ih =>
    obtain ⟨kind, spec⟩ := r
    cases hx : account kind spec with
    | none =>
      have hall (a : Accounts) : Metadata.requireAll m t next ((kind, spec) :: l) a =
          (false, ⟨t, a⟩) := by
        rw [Metadata.requireAll, parsePackageMetadataUsergroup, hx]
        rfl
      refine ⟨fun a key hkey => by rwa [hall], fun xs f _ => ?_⟩
      rw [hall, hall]
      exact iff_of_true ⟨rfl, rfl, rfl⟩ fun x hsome => by cases hx.symm.trans hsome
    | some x =>
      refine ⟨fun a key hkey => ?_, fun xs f hf => ?_⟩
      · rw [requireAll_cons hx]
        split
        · exact ih.grows _ key (enterAccount_grows m x hkey)
        · exact enterAccount_grows m x hkey
      have hiff : AllFree ids xs ((kind, spec) :: (l ++ tail)) ↔ ((∀ y ∈ xs, y.Agrees x) →
          x.Free ids ∧ AllFree ids (x :: xs) (l ++ tail)) := by
        simp [AllFree, hx]
      rw [List.cons_append, hiff, requireAll_cons hx, requireAll_cons hx]
      by_cases hagrees : ∀ y ∈ xs, y.Agrees x
      · have hok := hf.accepted_iff.mpr hagrees
        rw [enterAccount_accepted hok, if_pos rfl]
        by_cases hfree : x.Free ids
        · rw [behind_add hfree hok, if_pos rfl, ih.same_iff _ _ (hf.add hfree hok)]
          exact ⟨fun hall _ => ⟨hfree, hall⟩, fun hall => (hall hagrees).2⟩
        rw [claimed_behind hfree]
        refine iff_of_false ?_ fun hall => hfree (hall hagrees).1
        rintro ⟨-, -, hnames⟩
        refine ih.grows _ (x.kind, x.name) ?_ ((congrFun hnames _).symm.trans
          (hf.new_name hfree hagrees))
        simp [Accounts.add, enter]
      · obtain ⟨hno, hnames⟩ := enterAccount_refused (m := m) (mt hf.accepted_iff.mp hagrees)
        obtain ⟨hno', hnames'⟩ := enterAccount_refused (m := m) (x := x) (a := behind ids f)
          fun hok => hagrees (hf.accepted_iff.mp ⟨hf.free_of_behind hok.1, hok.2⟩)
        rw [hno, hno']
        exact iff_of_true ⟨rfl, rfl, hnames'.trans hnames.symm⟩ fun hall => absurd hall hagrees

theorem parseLines_follows (ids : Entries (Kind × Nat) Text) (ignore lines : List Text)
    (t : Tables) (p : Parser) :
    Follows ids (parseLines ignore lines t p) (specs ignore lines t p) := by
  induction lines generalizing t p with
  | nil => exact ⟨fun _ _ h => h, fun _ _ _ => iff_of_true ⟨rfl, rfl, rfl⟩ trivial⟩
  | cons line rest ih => exact (ih _ _).requireAll _ _ _

/-- A call right after a clear is like one in a new process exactly if, up to the first spec of the
file that is refused, no id was recorded for another name before. -/
theorem forgets_iff (ignore : List Text) (file : Option (List Text)) (g : Globals) :
    Forgets ignore file g ↔ ∀ lines, file = some lines →
      AllFree g.accounts.ids [] (specs ignore lines .empty ⟨none, none, [], false⟩) := by
  cases file with
  | none => exact iff_of_true ⟨rfl, rfl, rfl⟩ (by simp)
  | some lines =>
    have hfollows := (parseLines_follows g.accounts.ids ignore lines .empty
      ⟨none, none, [], false⟩).same_iff [] Globals.fresh.accounts
      ⟨by simp [Fits, Globals.fresh], by simp [Fits, Globals.fresh], by simp⟩
    have hbehind : behind g.accounts.ids Globals.fresh.accounts = (clearPackages g).accounts := by
      simp [behind, Globals.fresh, clearPackages]
    rw [hbehind] at hfollows
    simp only [some.injEq, forall_eq']
    rw [← hfollows, Forgets, parsePackageMetadata, parsePackageMetadata, some.injEq]
    rfl

end OpenWrt.Metadata
