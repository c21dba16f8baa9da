import OpenWrt.Nvram.Proofs.Rehash

/-!
# The NVRAM store is a persistent finite map

The abstract store is the partial function from names to values.  `nvram_set` and
`nvram_unset` update it at one name; `nvram_commit`, which writes the variables out
and builds the hash table anew from the image, keeps it but for the `sdram_*`
parameters it adds.
-/

namespace OpenWrt.Nvram

open Lib List Function

variable {target : Target} {h h' : Handle}
variable {crc : UInt8} {b : Buffer} {name value : CString}

/-! ## Commit -/

theorem bodySize_lt (hroom : h.offset + headerSize < h.length) :
    h.offset + headerSize + h.bodySize < h.length := by
  by_cases hfin : h.offset + headerSize ≤ h.length - 2
  · have hle := keptChains_le hfin ((finRange 257).map h.nvramHash)
    change h.offset + headerSize + h.bodySize ≤ h.length - 2 at hle
    omega
  · have hnil : h.kept = [] := keptChains_full (by omega) _
    rw [Handle.bodySize, hnil]
    simpa [encode] using hroom

theorem length_le_encode (ts : List Tuple) : ts.length ≤ (encode ts).length := by
  induction ts with
  | nil => exact le_refl _
  | cons t ts ih =>
    have hlen := length_varBytes t
    simp only [encode, flatMap_cons, length_append, length_cons] at ih ⊢
    omega

theorem IsImage.area_eq (himage : IsImage target h crc b)
    (hroom : h.offset + headerSize < h.length) :
    ∃ rest, slice b (h.offset + headerSize) (h.length - (h.offset + headerSize)) =
      encode h.kept ++ 0 :: rest := by
  have hlt := bodySize_lt hroom
  have hlen : h.length - (h.offset + headerSize) =
      h.bodySize + (h.length - (h.offset + headerSize) - h.bodySize - 1 + 1) := by
    omega
  rw [hlen, slice_append, himage.body, slice_succ, himage.nul]
  exact ⟨_, rfl⟩

theorem IsImage.sdramDefaults_eq (himage : IsImage target h crc b) :
    sdramDefaults (headerWords target { h with mmap := b }) =
      sdramDefaults (sdramWords target h) := by
  have hcrc : crc.toNat < 256 := crc.toNat_lt
  have hlow := crcVerInit_mod target h
  have hdiv : ((sdramWords target h).crcVerInit + crc.toNat) / 2 ^ 16 =
      (sdramWords target h).crcVerInit / 2 ^ 16 := by
    omega
  obtain ⟨hinit, hrefresh, hncdl⟩ := himage.words
  simp only [sdramDefaults, headerWords, hinit, hrefresh, hncdl, hdiv]

def Handle.reread (h : Handle) : List Tuple := h.kept.map fun t => splitVar (varString t)

theorem IsImage.parse (himage : IsImage target h crc b) (hroom : h.offset + headerSize < h.length) :
    ∃ vars, parseVars ((slice b (h.offset + headerSize)
          (h.length - (h.offset + headerSize))).length + 1) (h.offset + headerSize)
        (slice b (h.offset + headerSize) (h.length - (h.offset + headerSize))) = some vars ∧
      vars.map (fun v => (v.name, v.value)) = h.reread := by
  rcases himage.area_eq hroom with ⟨rest, harea⟩
  have hfuel : h.kept.length < (encode h.kept ++ 0 :: rest).length + 1 := by
    have := length_le_encode h.kept
    simp only [length_append]
    omega
  rw [harea]
  exact parseVars_encode (h.offset + headerSize) hfuel rest

theorem nvramCommit_eq (target : Target) (hroom : h.offset + headerSize < h.length) :
    ∃ crc c, IsImage target h crc (commitImage target h).bytes ∧
      nvramCommit target h = some c ∧ c.ret = 0 ∧
      c.handle = { h with
        mmap := (commitImage target h).bytes
        nvramHash := rehashTable target h.reread (sdramWords target h)
        nvramDead := [] } ∧
      (∀ w ∈ (commitImage target h).writes, w ∈ c.writes) ∧
      ∀ w ∈ c.writes, w ∈ (commitImage target h).writes ∨ w.1 + w.2 ≤ h.length := by
  rcases commitImage_isImage target h with ⟨crc, himage⟩
  rcases himage.parse hroom with ⟨vars, hparse, hvars⟩
  have hrehash := nvramRehash_eq target
    (h := { h with mmap := (commitImage target h).bytes }) hroom hparse
  refine ⟨crc, _, himage, by rw [nvramCommit, hrehash]; rfl, rfl, ?_,
    fun w hw => mem_append_right _ hw, ?_⟩
  · simp only [rehashTable, himage.sdramDefaults_eq, hvars]
  intro w hw
  rcases mem_append.mp hw with hw | hw
  · rcases mem_flatMap.mp hw with ⟨v, hv, hmem⟩
    have hin := (parseVars_mem hparse hv).2
    rw [length_slice] at hin
    have hw' : w = (v.eq, 1) := by simpa using hmem
    rw [hw']
    omega
  · exact .inl hw

/-! ## Runs of operations -/

inductive Op where
  | set (name value : CString)
  | unset (name : CString)
  | commit

def step (target : Target) (h : Handle) : Op → Option Handle
  | .set name value => some (nvramSet target h name value).2
  | .unset name => some (nvramUnset target h name).2
  | .commit => (nvramCommit target h).map (·.handle)

def run (target : Target) : Handle → List Op → Option Handle
  | h, [] => some h
  | h, op :: ops => (step target h op).bind fun h => run target h ops

/-- The header, all variables and the two NULs fit in the partition. -/
def Handle.Fits (h : Handle) : Prop :=
  headerSize + (encode h.tuples).length + 2 ≤ h.length - h.offset

def NameOk (name : CString) : Prop := name.bytes ≠ [] ∧ (61 : UInt8) ∉ name.bytes

def OpOk (h : Handle) : Op → Prop
  | .set name value => NameOk name ∧ value.length + 1 ≤ h.length - h.offset
  | .unset name => NameOk name
  | .commit => h.Fits

def RunOk (target : Target) : Handle → List Op → Prop
  | _, [] => True
  | h, op :: ops => OpOk h op ∧ ∀ h', step target h op = some h' → RunOk target h' ops

/-! ## The abstract store -/

abbrev Store := CString → Option CString

/-- The four parameters of a header made without them: `0x0419`, `0x0000`, `0x8040`
and `0x00000000`. -/
def sdramInitial : List Tuple :=
  sdramDefaults
    { crcVerInit := NVRAM_VERSION * 2 ^ 8 + SDRAM_INIT * 2 ^ 16
      configRefresh := SDRAM_CONFIG + SDRAM_REFRESH * 2 ^ 16
      configNcdl := 0 }

def specStep (s : Store) : Op → Store
  | .set name value => update s name (some value)
  | .unset name => update s name none
  | .commit => fun name => (s name).or (Chain.find name sdramInitial)

/-- The value of the last set that no unset follows, from the value before. -/
def lastSet (name : CString) : Option CString → List Op → Option CString
  | value, [] => value
  | value, .set name' value' :: ops =>
    lastSet name (if name' = name then some value' else value) ops
  | value, .unset name' :: ops => lastSet name (if name' = name then none else value) ops
  | value, .commit :: ops => lastSet name value ops

def sdramNames : List CString := [sdramInit, sdramConfig, sdramRefresh, sdramNcdl]

theorem foldl_specStep_eq_lastSet (hname : name ∉ sdramNames) (s : Store)
    (ops : List Op) : ops.foldl specStep s name = lastSet name (s name) ops := by
  induction ops generalizing s with
  | nil => rfl
  | cons op ops ih =>
    rw [foldl_cons, ih]
    cases op with
    | set name' value =>
      simp only [specStep, lastSet, update_apply, eq_comm]
    | unset name' => simp only [specStep, lastSet, update_apply, eq_comm]
    | commit =>
      have hnone : Chain.find name sdramInitial = none := Chain.find_eq_none_iff.mpr hname
      simp only [specStep, lastSet, hnone, Option.or_none]

/-! ## Refinement -/

structure Handle.Ok (target : Target) (h : Handle) : Prop where
  table : Table.Wf (bucket target) h.nvramHash
  names : ∀ name value, nvramGet target h name = some value → (61 : UInt8) ∉ name.bytes
  room : h.offset + headerSize < h.length

theorem mem_tuples_iff (hwf : Table.Wf (bucket target) h.nvramHash) (t : Tuple) :
    t ∈ h.tuples ↔ nvramGet target h t.1 = some t.2 :=
  Table.mem_tuples (fun i => mem_finRange i) hwf

theorem nodup_tuples (hwf : Table.Wf (bucket target) h.nvramHash) : (Chain.keys h.tuples).Nodup :=
  Table.nodup_keys_tuples (nodup_finRange _) hwf

theorem find_tuples (hwf : Table.Wf (bucket target) h.nvramHash) (name : CString) :
    Chain.find name h.tuples = nvramGet target h name := by
  cases hget : nvramGet target h name with
  | some value =>
    exact Chain.find_of_mem (nodup_tuples hwf) ((mem_tuples_iff hwf (name, value)).mpr hget)
  | none =>
    rw [Chain.find_eq_none_iff]
    intro hmem
    rcases mem_map.mp hmem with ⟨t, ht, rfl⟩
    rw [(mem_tuples_iff hwf t).mp ht] at hget
    cases hget

theorem kept_of_fits (hfits : h.Fits) : h.kept = h.tuples := by
  unfold Handle.Fits at hfits
  rw [tuples_eq_flatten] at hfits ⊢
  apply keptChains_all
  omega

theorem reread_of_names (hnames : ∀ t ∈ h.kept, (61 : UInt8) ∉ t.1.bytes) : h.reread = h.kept := by
  conv_rhs => rw [← map_id h.kept]
  apply map_congr_left
  intro t ht
  exact splitVar_varString (hnames t ht)

theorem sdramWords_of_none (hname : name ∈ sdramNames) (hnone : nvramGet target h name = none) :
    sdramDefaults (sdramWords target h) = sdramInitial := by
  simp only [sdramNames, mem_cons, not_mem_nil, or_false] at hname
  unfold sdramWords
  split
  · rename_i hinit hconfig hrefresh hncdl
    rcases hname with rfl | rfl | rfl | rfl
    · rw [hnone] at hinit
      cases hinit
    · rw [hnone] at hconfig
      cases hconfig
    · rw [hnone] at hrefresh
      cases hrefresh
    · rw [hnone] at hncdl
      cases hncdl
  · rfl

theorem find_sdramDefaults_of_none (hnone : nvramGet target h name = none) :
    Chain.find name (sdramDefaults (sdramWords target h)) = Chain.find name sdramInitial := by
  by_cases hname : name ∈ sdramNames
  · rw [sdramWords_of_none hname hnone]
  · rw [Chain.find_eq_none_iff.mpr hname]
    exact (Chain.find_eq_none_iff.mpr hname).symm

theorem sdramNames_ok : ∀ name ∈ sdramNames, (61 : UInt8) ∉ name.bytes := by decide

theorem ok_set (hok : h.Ok target) (hname : NameOk name)
    (hfit : value.length + 1 ≤ h.length - h.offset) :
    (nvramSet target h name value).2.Ok target ∧
      nvramGet target (nvramSet target h name value).2 =
        specStep (nvramGet target h) (.set name value) := by
  have hset : (nvramSet target h name value).2 =
      { h with nvramHash := Table.put (bucket target) h.nvramHash name value } := by
    simp only [nvramSet, if_neg (not_lt.mpr hfit)]
  have hget : nvramGet target (nvramSet target h name value).2 =
      specStep (nvramGet target h) (.set name value) := by
    rw [hset]
    funext name'
    simp only [nvramGet, Table.get_put, specStep, update_apply]
  refine ⟨⟨?_, ?_, ?_⟩, hget⟩
  · rw [hset]
    exact Table.wf_put hok.table
  · intro name' value' hsome
    rw [hget, specStep, update_apply] at hsome
    split at hsome
    · rename_i heq
      rw [heq]
      exact hname.2
    · exact hok.names name' value' hsome
  · rw [hset]
    exact hok.room

theorem ok_unset (hok : h.Ok target) (name : CString) :
    (nvramUnset target h name).2.Ok target ∧
      nvramGet target (nvramUnset target h name).2 =
        specStep (nvramGet target h) (.unset name) := by
  have hget : nvramGet target (nvramUnset target h name).2 =
      specStep (nvramGet target h) (.unset name) := by
    funext name'
    simp only [specStep, update_apply]
    cases hfind : nvramGet target h name with
    | none =>
      simp only [nvramUnset, hfind]
      split
      · rename_i heq
        rw [heq, hfind]
      · rfl
    | some value =>
      simp only [nvramUnset, hfind]
      exact Table.get_del hok.table
  refine ⟨⟨?_, ?_, ?_⟩, hget⟩
  · unfold nvramUnset
    split
    · exact hok.table
    · exact Table.wf_del hok.table
  · intro name' value' hsome
    rw [hget, specStep, update_apply] at hsome
    split at hsome
    · cases hsome
    · exact hok.names name' value' hsome
  · unfold nvramUnset
    split
    · exact hok.room
    · exact hok.room

theorem ok_commit (hok : h.Ok target) (hfits : h.Fits) :
    ∃ c, nvramCommit target h = some c ∧ c.handle.Ok target ∧
      nvramGet target c.handle = specStep (nvramGet target h) .commit := by
  rcases nvramCommit_eq target hok.room with ⟨crc, c, himage, hc, -, hhandle, -, -⟩
  have hkept := kept_of_fits hfits
  have hreread : h.reread = h.tuples := by
    rw [← hkept]
    apply reread_of_names
    intro t ht
    rw [hkept] at ht
    exact hok.names _ _ ((mem_tuples_iff hok.table t).mp ht)
  have hget : nvramGet target c.handle = specStep (nvramGet target h) .commit := by
    funext name
    simp only [hhandle, nvramGet, hreread]
    rw [get_rehashTable (nodup_tuples hok.table), find_tuples hok.table]
    cases hname : nvramGet target h name with
    | some value =>
      change some value = (nvramGet target h name).or _
      rw [hname]
      rfl
    | none =>
      change _ = (nvramGet target h name).or _
      rw [hname]
      exact find_sdramDefaults_of_none hname
  refine ⟨c, hc, ⟨?_, ?_, ?_⟩, hget⟩
  · rw [hhandle]
    exact wf_rehashTable ..
  · intro name value hsome
    rw [hget, specStep, Option.or_eq_some_iff] at hsome
    rcases hsome with hsome | ⟨-, hsome⟩
    · exact hok.names name value hsome
    · have hmem : name ∈ Chain.keys sdramInitial := mem_map_of_mem (Chain.mem_of_find hsome)
      exact sdramNames_ok name hmem
  · rw [hhandle]
    exact hok.room

def opened (partSize : Nat) (addr : MapAddr) (file : Buffer) (i : Nat) : Handle where
  length := partSize
  offset := i * 4
  addr := addr
  mmap := file
  nvramHash := Table.empty
  nvramDead := []

theorem nvramOpen_eq_some {partSize : Nat} {addr : MapAddr} {file : Buffer} {rdonly : Bool} :
    nvramOpen target partSize addr file rdonly = some h ↔
      ∃ i vars, findMagic target partSize file = some i ∧
        word target.bigEndian file (i * 4) = NVRAM_MAGIC ∧
        (rdonly ∨ word target.bigEndian file (i * 4 + 4) < partSize - i * 4) ∧
        i * 4 + headerSize < partSize ∧
        parseVars ((opened partSize addr file i).area.length + 1) (i * 4 + headerSize)
          (opened partSize addr file i).area = some vars ∧
        h = { opened partSize addr file i with
          nvramHash := rehashTable target (vars.map fun v => (v.name, v.value))
            (headerWords target (opened partSize addr file i)) } := by
  constructor
  · intro hopen
    unfold nvramOpen at hopen
    split at hopen
    · cases hopen
    rename_i i hi
    simp only at hopen
    split at hopen
    · rename_i hcond
      rcases Option.map_eq_some_iff.mp hopen with ⟨r, hrehash, rfl⟩
      have hroom := room_of_nvramRehash hrehash
      rcases parseVars_of_nvramRehash hrehash with ⟨vars, hparse⟩
      rw [nvramRehash_eq target hroom hparse, Option.some.injEq] at hrehash
      subst hrehash
      exact ⟨i, vars, hi, hcond.1, hcond.2, hroom, hparse, rfl⟩
    · cases hopen
  · rintro ⟨i, vars, hi, hmagic, hlen, hroom, hparse, rfl⟩
    have hrehash := nvramRehash_eq target (h := opened partSize addr file i) hroom hparse
    unfold opened at hrehash
    simp only [nvramOpen, hi]
    rw [if_pos ⟨hmagic, hlen⟩, hrehash]
    rfl

theorem ok_open {partSize : Nat} {addr : MapAddr} {file : Buffer} {rdonly : Bool}
    (hopen : nvramOpen target partSize addr file rdonly = some h) : h.Ok target := by
  rcases nvramOpen_eq_some.mp hopen with ⟨i, vars, -, -, -, hroom, hparse, rfl⟩
  refine ⟨wf_rehashTable .., ?_, hroom⟩
  intro name value hsome
  rcases mem_keys_of_get_rehashTable hsome with hmem | hmem
  · rcases mem_map.mp hmem with ⟨t, ht, rfl⟩
    rcases mem_map.mp ht with ⟨v, hv, rfl⟩
    exact (parseVars_mem hparse hv).1
  · exact sdramNames_ok name hmem

theorem step_refines {op : Op} (hok : h.Ok target) (hop : OpOk h op) :
    ∃ h', step target h op = some h' ∧ h'.Ok target ∧
      nvramGet target h' = specStep (nvramGet target h) op := by
  cases op with
  | set name value =>
    exact ⟨_, rfl, ok_set hok hop.1 hop.2⟩
  | unset name => exact ⟨_, rfl, ok_unset hok name⟩
  | commit =>
    rcases ok_commit hok hop with ⟨c, hc, hokc, hget⟩
    exact ⟨c.handle, by rw [step, hc]; rfl, hokc, hget⟩

theorem run_refines {ops : List Op} (hok : h.Ok target) (hops : RunOk target h ops) :
    ∃ h', run target h ops = some h' ∧ h'.Ok target ∧
      nvramGet target h' = ops.foldl specStep (nvramGet target h) := by
  induction ops generalizing h with
  | nil => exact ⟨h, rfl, hok, rfl⟩
  | cons op ops ih =>
    rcases step_refines hok hops.1 with ⟨h1, hstep, hok1, hget1⟩
    rcases ih hok1 (hops.2 h1 hstep) with ⟨h2, hrun, hok2, hget2⟩
    refine ⟨h2, ?_, hok2, ?_⟩
    · rw [run, hstep, Option.bind_some, hrun]
    · rw [hget2, hget1, foldl_cons]

/-- From an opened store, every sequence of operations with proper names and enough
room acts as on a map: a name has the value of its last set that no unset follows,
and only a commit adds values, those of the four parameters. -/
theorem store_is_map {partSize : Nat} {addr : MapAddr} {file : Buffer} {rdonly : Bool}
    (hopen : nvramOpen target partSize addr file rdonly = some h) {ops : List Op}
    (hops : RunOk target h ops) :
    ∃ h', run target h ops = some h' ∧
      (∀ name ∉ sdramNames, nvramGet target h' name = lastSet name (nvramGet target h name) ops) ∧
      ∀ name, nvramGet target h' name = ops.foldl specStep (nvramGet target h) name := by
  rcases run_refines (ok_open hopen) hops with ⟨h', hrun, -, hget⟩
  refine ⟨h', hrun, ?_, ?_⟩
  · intro name hname
    rw [hget]
    exact foldl_specStep_eq_lastSet hname _ ops
  · intro name
    rw [hget]

/-! ## A blank store -/

theorem tuples_perm (hwf : Table.Wf (bucket target) h.nvramHash) {l : List Tuple}
    (hnodup : (Chain.keys l).Nodup) (hget : ∀ name, nvramGet target h name = Chain.find name l) :
    h.tuples.Perm l := by
  rw [perm_ext_iff_of_nodup ((nodup_tuples hwf).of_map _) (hnodup.of_map _)]
  intro t
  rw [mem_tuples_iff hwf, hget]
  exact ⟨Chain.mem_of_find, Chain.find_of_mem hnodup⟩

theorem length_encode_perm {ts us : List Tuple} (hperm : ts.Perm us) :
    (encode ts).length = (encode us).length :=
  (hperm.flatMap_right varBytes).length_eq

def bcm47xx : Target where
  charSigned := true
  bigEndian := false
  ulongBits := 32

def mapAddr : MapAddr := ⟨0x40000000, by decide⟩

def blankFile : Buffer := storeBytes (fun _ => 0) 0 (ascii "FLSH")

def blank : Handle :=
  { opened 0x8000 mapAddr blankFile 0 with nvramHash := rehashTable bcm47xx [] ⟨0, 0, 0⟩ }

theorem parse_blank (n pos : Nat) (rest : List UInt8) :
    parseVars (n + 1) pos (0 :: rest) = some [] := by
  rfl

theorem open_blank : nvramOpen bcm47xx 0x8000 mapAddr blankFile false = some blank := by
  have hzero : blankFile 20 = 0 := storeBytes_outside (.inr (by decide))
  have harea : (opened 0x8000 mapAddr blankFile 0).area = 0 :: slice blankFile 21 32747 := by
    change slice blankFile 20 (32747 + 1) = _
    rw [slice_succ, hzero]
  refine nvramOpen_eq_some.mpr ⟨0, [], by decide, by decide, .inr (by decide), by decide, ?_, ?_⟩
  · rw [harea]
    exact parse_blank ..
  · rfl

theorem get_blank (name : CString) :
    nvramGet bcm47xx blank name = Chain.find name (sdramDefaults ⟨0, 0, 0⟩) := by
  have hnodup : (Chain.keys ([] : List Tuple)).Nodup := nodup_nil
  exact get_rehashTable hnodup ⟨0, 0, 0⟩ name

def nameA : CString := ⟨ascii "a", by decide⟩

theorem nameA_ok : NameOk nameA := ⟨by decide, by decide⟩

def blankWith (value : CString) : Handle := (nvramSet bcm47xx blank nameA value).2

theorem blankWith_ok (hfit : value.length + 1 ≤ 0x8000) :
    (blankWith value).Ok bcm47xx := (ok_set (ok_open open_blank) nameA_ok hfit).1

theorem length_encode_blankWith (hfit : value.length + 1 ≤ 0x8000) :
    (encode (blankWith value).tuples).length = value.length + 84 := by
  have hget : ∀ name, nvramGet bcm47xx (blankWith value) name =
      Chain.find name ((nameA, value) :: sdramDefaults ⟨0, 0, 0⟩) := by
    intro name
    rw [blankWith, (ok_set (ok_open open_blank) nameA_ok hfit).2, specStep, update_apply,
      get_blank, Chain.find]
    simp only [eq_comm]
  have hnodup : (Chain.keys ((nameA, value) :: sdramDefaults ⟨0, 0, 0⟩)).Nodup := by
    change (nameA :: sdramNames).Nodup
    decide
  rw [length_encode_perm (tuples_perm (blankWith_ok hfit).table hnodup hget)]
  simp only [encode, flatMap_cons, length_append, length_varBytes]
  change 1 + 1 + value.length + 1 + (encode (sdramDefaults ⟨0, 0, 0⟩)).length = _
  have hsize : (encode (sdramDefaults ⟨0, 0, 0⟩)).length = 81 := by decide
  omega

theorem blank_set_commit :
    ∃ h', nvramOpen bcm47xx 0x8000 mapAddr blankFile false = some blank ∧
      run bcm47xx blank [.set nameA ⟨ascii "1", by decide⟩, .commit] = some h' ∧
      nvramGet bcm47xx h' nameA = some ⟨ascii "1", by decide⟩ := by
  have hops : RunOk bcm47xx blank [.set nameA ⟨ascii "1", by decide⟩, .commit] := by
    refine ⟨⟨nameA_ok, by decide⟩, ?_⟩
    intro h' hstep
    refine ⟨?_, fun _ _ => trivial⟩
    have hh : h' = blankWith ⟨ascii "1", by decide⟩ := (Option.some.inj hstep).symm
    subst hh
    have hfit : CString.length ⟨ascii "1", by decide⟩ + 1 ≤ 0x8000 := by decide
    change 20 + (encode (blankWith ⟨ascii "1", by decide⟩).tuples).length + 2 ≤ 0x8000
    rw [length_encode_blankWith hfit]
    decide
  rcases store_is_map open_blank hops with ⟨h', hrun, hlast, -⟩
  exact ⟨h', open_blank, hrun, by rw [hlast nameA (by decide)]; rfl⟩

end OpenWrt.Nvram
