import OpenWrt.Nvram.Proofs.Map

/-!
# When a committed image can be used again

`nvram_commit` leaves room for two NULs only, then pads to four bytes and rounds the
length up; `nvram_open` for writing wants a length strictly below the size of the
store.  The two meet when the store is full.
-/

namespace OpenWrt.Nvram

open Lib List Option

variable {target : Target} {h h' : Handle}
variable {crc : UInt8} {b : Buffer} {value : CString}

/-! ## The CRC table is a permutation -/

/-- One step of the polynomial division, backwards. -/
def unshift (y : Nat) : Nat := if 128 ≤ y then (y ^^^ 0xab) * 2 + 1 else y * 2

def unshift8 (y : Nat) : Nat :=
  unshift (unshift (unshift (unshift (unshift (unshift (unshift (unshift y)))))))

theorem map_unshift8_crc8Table :
    (crc8Table.toList.map fun y => unshift8 y.toNat) = range 256 := by
  decide +kernel

theorem unshift8_crc8Table (x : UInt8) : unshift8 (crc8Table.getD x.toNat 0).toNat = x.toNat := by
  have hx : x.toNat < 256 := x.toNat_lt
  have hlen : crc8Table.toList.length = 256 := by
    have := congrArg length map_unshift8_crc8Table
    simpa using this
  have hget := congrArg (fun l : List Nat => l[x.toNat]?) map_unshift8_crc8Table
  simp only [getElem?_map] at hget
  rw [getElem?_range hx] at hget
  have hsize : x.toNat < crc8Table.size := by
    rw [Array.length_toList] at hlen
    omega
  simpa [hsize] using hget

theorem crcByte_inj {crc' b b' : UInt8} (h : crcByte crc b = crcByte crc' b') :
    crc ^^^ b = crc' ^^^ b' := by
  unfold crcByte at h
  apply UInt8.toNat.inj
  rw [← unshift8_crc8Table (crc ^^^ b), h, unshift8_crc8Table]

theorem hndcrc8_append (l l' : List UInt8) (crc : UInt8) :
    hndcrc8 (l ++ l') crc = hndcrc8 l' (hndcrc8 l crc) := foldl_append

theorem hndcrc8_cons (b : UInt8) (l : List UInt8) (crc : UInt8) :
    hndcrc8 (b :: l) crc = hndcrc8 l (crcByte crc b) := foldl_cons ..

theorem hndcrc8_inj {l : List UInt8} {crc' : UInt8}
    (h : hndcrc8 l crc = hndcrc8 l crc') : crc = crc' := by
  induction l generalizing crc crc' with
  | nil => exact h
  | cons b l ih =>
    rw [hndcrc8_cons, hndcrc8_cons] at h
    have hstep := crcByte_inj (ih h)
    have hxor : crc ^^^ b ^^^ b = crc' ^^^ b ^^^ b := by rw [hstep]
    simpa [UInt8.xor_assoc] using hxor

theorem hndcrc8_byte {l l' : List UInt8} {x y : UInt8}
    (h : hndcrc8 (l ++ x :: l') crc = hndcrc8 (l ++ y :: l') crc) : x = y := by
  rw [hndcrc8_append, hndcrc8_append, hndcrc8_cons, hndcrc8_cons] at h
  have hstep := crcByte_inj (hndcrc8_inj h)
  have hxor : hndcrc8 l crc ^^^ (hndcrc8 l crc ^^^ x) =
      hndcrc8 l crc ^^^ (hndcrc8 l crc ^^^ y) := by
    rw [hstep]
  simpa [← UInt8.xor_assoc] using hxor

/-! ## The two CRCs of `nvram info` -/

theorem imageLen_ge (h : Handle) : 24 ≤ h.imageLen := by
  unfold Handle.imageLen roundup headerSize
  omega

theorem IsImage.crcBytes (himage : IsImage target h crc b) :
    slice b (h.offset + 9) (h.imageLen - 9) =
      (wordBytes target.bigEndian ((sdramWords target h).crcVerInit + crc.toNat)).tail ++
        (wordBytes target.bigEndian (sdramWords target h).configRefresh ++
          wordBytes target.bigEndian (sdramWords target h).configNcdl) ++
        slice b (h.offset + headerSize) (h.imageLen - headerSize) := by
  have hge := imageLen_ge h
  have hsplit : h.imageLen - 9 = 11 + (h.imageLen - headerSize) := by
    unfold headerSize
    omega
  have hhead := himage.head
  rw [slice_succ] at hhead
  have htail := congrArg tail hhead
  rw [tail_cons, tail_append_of_ne_nil (by
    rw [← length_pos_iff, length_wordBytes]
    omega)] at htail
  rw [hsplit, slice_append, htail]
  rfl

theorem imageCrc_eq (target : Target) (h : Handle) (b : Buffer) :
    imageCrc target h b = hndcrc8
      ((wordBytes target.bigEndian (sdramWords target h).crcVerInit).tail ++
        (wordBytes target.bigEndian (sdramWords target h).configRefresh ++
          wordBytes target.bigEndian (sdramWords target h).configNcdl) ++
        slice b (h.offset + headerSize) (h.imageLen - headerSize)) 0xff := by
  rw [hndcrc8_append]
  simp only [imageCrc]
  cases target.bigEndian <;> rfl

/-- The stored CRC is the calculated one, on a big-endian machine only if it is 0:
there the CRC byte is among the bytes that are checked. -/
theorem IsImage.infoCrc_iff (himage : IsImage target h crc b)
    (hsmall : h.imageLen < 4294967296) (t : Tuples) (d : List Tuple) :
    (infoCrc target { h with mmap := b, nvramHash := t, nvramDead := d }).1 =
        (infoCrc target { h with mmap := b, nvramHash := t, nvramDead := d }).2 ↔
      (target.bigEndian → crc = 0) := by
  have hcrc : crc.toNat < 256 := crc.toNat_lt
  have hmod := crcVerInit_mod target h
  have hstored : UInt8.ofNat ((sdramWords target h).crcVerInit + crc.toNat) = crc := by
    apply UInt8.toNat.inj
    rw [UInt8.toNat_ofNat']
    omega
  have hzero : UInt8.ofNat (sdramWords target h).crcVerInit = 0 := by
    apply UInt8.toNat.inj
    exact hmod
  have heq := himage.crc_eq
  rw [imageCrc_eq] at heq
  simp only [infoCrc, himage.len hsmall, himage.words.1, NVRAM_CRC_START_POSITION,
    himage.crcBytes, hstored]
  have h1 : ((sdramWords target h).crcVerInit + crc.toNat) / 256 =
      (sdramWords target h).crcVerInit / 256 := by omega
  have h2 : ((sdramWords target h).crcVerInit + crc.toNat) / 65536 =
      (sdramWords target h).crcVerInit / 65536 := by omega
  have h3 : ((sdramWords target h).crcVerInit + crc.toNat) / 16777216 =
      (sdramWords target h).crcVerInit / 16777216 := by omega
  cases hbig : target.bigEndian with
  | false =>
    have htail : (wordBytes false ((sdramWords target h).crcVerInit + crc.toNat)).tail =
        (wordBytes false (sdramWords target h).crcVerInit).tail := by
      simp [wordBytes, h1, h2, h3]
    rw [hbig] at heq
    rw [htail]
    constructor
    · intro _ hfalse
      cases hfalse
    · intro _
      exact heq
  | true =>
    have htail : ∀ n, (wordBytes true n).tail =
        [UInt8.ofNat (n / 65536), UInt8.ofNat (n / 256)] ++ [UInt8.ofNat n] := fun n => rfl
    rw [hbig, htail, hzero] at heq
    rw [htail, h1, h2, hstored]
    simp only [append_assoc] at heq ⊢
    constructor
    · intro hsame _
      exact hndcrc8_byte (hsame.symm.trans heq)
    · intro himp
      have hcrc0 : crc = 0 := himp trivial
      conv_rhs => rw [hcrc0]
      exact heq

/-! ## Where a commit writes -/

theorem cleared_writes (hroom : h.offset + headerSize < h.length) :
    ∀ w ∈ (cleared target h).writes, w.1 + w.2 ≤ h.length := by
  intro w hw
  simp only [headerSize] at hroom
  simp only [cleared, Mem.store, headerSize, length_wordBytes, length_replicate,
    mem_cons, not_mem_nil, or_false] at hw
  rcases hw with rfl | rfl | rfl | rfl | rfl <;> simp only <;> omega

theorem length_dataBytes (h : Handle) : h.dataBytes.length = h.bodySize + 1 + h.padLen := by
  simp only [Handle.dataBytes, length_append, length_replicate, length_cons,
    length_nil, Handle.bodySize]

theorem commitImage_writes_iff (target : Target) (hroom : h.offset + headerSize < h.length) :
    (∀ w ∈ (commitImage target h).writes, w.1 + w.2 ≤ h.length) ↔
      h.offset + headerSize + h.bodySize + 1 + h.padLen ≤ h.length := by
  rcases commitImage_eq target h with ⟨m, m', happ, hpad, rfl, himage⟩
  have hbody := bodySize_lt hroom
  have hlen := length_dataBytes h
  rw [himage]
  simp only [Mem.store, length_wordBytes, mem_cons]
  constructor
  · intro hall
    by_cases hzero : h.padLen = 0
    · rw [hzero]
      exact Nat.succ_le_of_lt hbody
    · exact hall (h.offset + headerSize + h.bodySize + 1, h.padLen) (.inr (.inr (hpad hzero)))
  · intro hle w hw
    simp only [headerSize] at hroom
    rcases hw with rfl | rfl | hw
    · omega
    · omega
    · rcases happ.writes w hw with hw | hw
      · exact cleared_writes hroom w hw
      · omega

/-! ## The variables that come back -/

/-- The variables of `h` are those of `h'`, which may have parameters on top. -/
def SameVars (target : Target) (h h' : Handle) : Prop :=
  (∀ name value, nvramGet target h name = some value → nvramGet target h' name = some value) ∧
    ∀ name ∉ sdramNames, nvramGet target h name = none → nvramGet target h' name = none

def Recovered (target : Target) (h : Handle) (t : Tuple) : Prop :=
  Chain.find t.1 (sdramDefaults (sdramWords target h)) = some t.2

theorem kept_subset {t : Tuple} (ht : t ∈ h.kept) : t ∈ h.tuples := (kept_sublist h).mem ht

theorem nodup_kept (hwf : Table.Wf (bucket target) h.nvramHash) : (Chain.keys h.kept).Nodup :=
  (nodup_tuples hwf).sublist ((kept_sublist h).map Prod.fst)

theorem sameVars_iff (hwf : Table.Wf (bucket target) h.nvramHash)
    (htable : h'.nvramHash = rehashTable target h.reread (sdramWords target h)) :
    SameVars target h h' ↔
      ∀ t ∈ h.tuples, (61 : UInt8) ∉ t.1.bytes ∧ (t ∈ h.kept ∨ Recovered target h t) := by
  have hget : (∀ t ∈ h.tuples, (61 : UInt8) ∉ t.1.bytes) → ∀ name, nvramGet target h' name =
      (Chain.find name h.kept).or (Chain.find name (sdramDefaults (sdramWords target h))) := by
    intro hnames name
    rw [nvramGet, htable, reread_of_names fun t ht => hnames t (kept_subset ht)]
    exact get_rehashTable (nodup_kept hwf) _ name
  constructor
  · intro hsame
    have hnames : ∀ t ∈ h.tuples, (61 : UInt8) ∉ t.1.bytes := by
      intro t ht
      have hback := hsame.1 _ _ ((mem_tuples_iff hwf t).mp ht)
      rw [nvramGet, htable] at hback
      rcases mem_keys_of_get_rehashTable hback with hmem | hmem
      · rcases mem_map.mp hmem with ⟨u, hu, heq⟩
        rcases mem_map.mp hu with ⟨v, -, rfl⟩
        rw [← heq]
        exact splitVar_name _
      · exact sdramNames_ok _ hmem
    intro t ht
    refine ⟨hnames t ht, ?_⟩
    have hback := hsame.1 _ _ ((mem_tuples_iff hwf t).mp ht)
    rw [hget hnames, or_eq_some_iff] at hback
    rcases hback with hkept | ⟨-, hdef⟩
    · exact .inl (Chain.mem_of_find hkept)
    · exact .inr hdef
  · intro hall
    have hnames : ∀ t ∈ h.tuples, (61 : UInt8) ∉ t.1.bytes := fun t ht => (hall t ht).1
    have hkept : ∀ name value, Chain.find name h.kept = some value →
        nvramGet target h name = some value := by
      intro name value hfind
      exact (mem_tuples_iff hwf (name, value)).mp (kept_subset (Chain.mem_of_find hfind))
    constructor
    · intro name value hsome
      rw [hget hnames, or_eq_some_iff]
      cases hfind : Chain.find name h.kept with
      | some value' =>
        rw [hkept name value' hfind] at hsome
        exact .inl hsome
      | none =>
        right
        refine ⟨rfl, ?_⟩
        rcases (hall (name, value) ((mem_tuples_iff hwf _).mpr hsome)).2 with hmem | hdef
        · rw [Chain.find_of_mem (nodup_kept hwf) hmem] at hfind
          cases hfind
        · exact hdef
    · intro name hname hnone
      have hdef : Chain.find name (sdramDefaults (sdramWords target h)) = none :=
        Chain.find_eq_none_iff.mpr hname
      rw [hget hnames, hdef]
      cases hfind : Chain.find name h.kept with
      | some value =>
        rw [hkept name value hfind] at hnone
        cases hnone
      | none => rfl

/-! ## Reachable stores -/

/-- A handle of `nvram_open` for writing, after any number of operations.  The partition
size is an `int`. -/
inductive Reachable (target : Target) : Handle → Prop
  | opened {partSize : Nat} {addr : MapAddr} {file : Buffer} {h : Handle}
      (hsize : partSize < 2147483648)
      (hopen : nvramOpen target partSize addr file false = some h) : Reachable target h
  | step {h h' : Handle} {op : Op} (hreach : Reachable target h)
      (hstep : step target h op = some h') : Reachable target h'

/-- The header stands at the first magic of the partition, with room behind it. -/
structure Handle.Inv (target : Target) (h : Handle) : Prop where
  table : Table.Wf (bucket target) h.nvramHash
  room : h.offset + headerSize < h.length
  small : h.length < 2147483648
  magic : ∃ i, h.offset = i * 4 ∧ findMagic target h.length h.mmap = some i

theorem IsImage.findMagic (himage : IsImage target h crc b) {i : Nat}
    (hoffset : h.offset = i * 4) (hfind : findMagic target h.length h.mmap = some i) :
    findMagic target h.length b = some i := by
  unfold Nvram.findMagic at hfind ⊢
  rw [find?_range_eq_some] at hfind ⊢
  refine ⟨?_, hfind.2.1, ?_⟩
  · rw [decide_eq_true_eq, ← hoffset]
    exact himage.magic
  intro j hj
  have hword : word target.bigEndian b (j * 4) = word target.bigEndian h.mmap (j * 4) := by
    apply word_congr
    intro k hk
    exact himage.before _ (by omega)
  rw [hword]
  exact hfind.2.2 j hj

theorem inv_open {partSize : Nat} {addr : MapAddr} {file : Buffer} {rdonly : Bool}
    (hsize : partSize < 2147483648)
    (hopen : nvramOpen target partSize addr file rdonly = some h) : h.Inv target := by
  rcases nvramOpen_eq_some.mp hopen with ⟨i, vars, hi, -, -, hroom, -, rfl⟩
  exact ⟨wf_rehashTable .., hroom, hsize, i, rfl, hi⟩

theorem inv_step {op : Op} (hinv : h.Inv target) (hstep : step target h op = some h') :
    h'.Inv target := by
  cases op with
  | set name value =>
    simp only [step, nvramSet, some.injEq] at hstep
    subst hstep
    split
    · exact hinv
    · exact ⟨Table.wf_put hinv.table, hinv.room, hinv.small, hinv.magic⟩
  | unset name =>
    simp only [step, nvramUnset, some.injEq] at hstep
    subst hstep
    split
    · exact hinv
    · exact ⟨Table.wf_del hinv.table, hinv.room, hinv.small, hinv.magic⟩
  | commit =>
    rcases nvramCommit_eq target hinv.room with ⟨crc, c, himage, hc, -, hhandle, -, -⟩
    simp only [step, hc, map_some, some.injEq] at hstep
    rcases hinv.magic with ⟨i, hoffset, hfind⟩
    rw [← hstep, hhandle]
    exact ⟨wf_rehashTable .., hinv.room, hinv.small, i, hoffset, himage.findMagic hoffset hfind⟩

theorem Reachable.inv (hreach : Reachable target h) : h.Inv target := by
  induction hreach with
  | opened hsize hopen => exact inv_open hsize hopen
  | step _ hstep ih => exact inv_step ih hstep

theorem imageLen_lt (hinv : h.Inv target) : h.imageLen < 4294967296 := by
  have hbody := bodySize_lt hinv.room
  have hsmall := hinv.small
  unfold Handle.imageLen roundup headerSize at *
  omega

/-! ## Usable images -/

/-- The image of a commit is inside the partition, has the right CRC, and can be opened
for writing with the variables it was made of. -/
structure Usable (target : Target) (h : Handle) (c : Commit) : Prop where
  writes : ∀ w ∈ c.writes, w.1 + w.2 ≤ h.length
  len : word target.bigEndian c.handle.mmap (h.offset + 4) ≤ h.length - h.offset
  crc : (infoCrc target c.handle).1 = (infoCrc target c.handle).2
  reopen : ∀ addr, ∃ h', nvramOpen target h.length addr c.handle.mmap false = some h' ∧
    SameVars target h h'

/-- Every commit that returns 0 leaves a usable image. -/
def CommitUsable (target : Target) (h : Handle) : Prop :=
  ∀ c, nvramCommit target h = some c → c.ret = 0 → Usable target h c

/-- The checksum of the last eleven bytes of the header, while the CRC in it is 0, and of the
data behind it. -/
def Handle.commitCrc (target : Target) (h : Handle) : UInt8 :=
  hndcrc8 ((wordBytes target.bigEndian (sdramWords target h).crcVerInit).tail ++
    (wordBytes target.bigEndian (sdramWords target h).configRefresh ++
      wordBytes target.bigEndian (sdramWords target h).configNcdl) ++ h.crcData) 0xff

theorem IsImage.reopen_iff (himage : IsImage target h crc b)
    (hinv : h.Inv target) (addr : MapAddr) :
    (∃ h', nvramOpen target h.length addr b false = some h' ∧ SameVars target h h') ↔
      h.imageLen < h.length - h.offset ∧
        ∀ t ∈ h.tuples, (61 : UInt8) ∉ t.1.bytes ∧ (t ∈ h.kept ∨ Recovered target h t) := by
  rcases hinv.magic with ⟨i, hoffset, hfind⟩
  rcases himage.parse hinv.room with ⟨vars, hparse, hvars⟩
  have hfind' := himage.findMagic hoffset hfind
  have hlen := himage.len (imageLen_lt hinv)
  have hdefaults := himage.sdramDefaults_eq
  have hroom := hinv.room
  have hmagic := himage.magic
  simp only [headerWords] at hdefaults
  rw [hoffset] at hparse hlen hdefaults hroom hmagic ⊢
  constructor
  · rintro ⟨h', hopen, hsame⟩
    rcases nvramOpen_eq_some.mp hopen with ⟨j, vars', hj, -, hlt, -, hparse', rfl⟩
    rw [hfind', some.injEq] at hj
    subst hj
    have hvars' : vars' = vars := some.inj (hparse'.symm.trans hparse)
    refine ⟨?_, (sameVars_iff hinv.table ?_).mp hsame⟩
    · rw [← hlen]
      exact hlt.resolve_left (by decide)
    · simp only [hvars', hvars, rehashTable, opened, headerWords, hdefaults]
  · rintro ⟨hlt, hall⟩
    refine ⟨_, nvramOpen_eq_some.mpr ⟨i, vars, hfind', hmagic, Or.inr ?_, hroom, hparse, rfl⟩, ?_⟩
    · rw [hlen]
      exact hlt
    · apply (sameVars_iff hinv.table ?_).mpr hall
      simp only [hvars, rehashTable, opened, headerWords, hdefaults]

/-- A commit of a reachable store leaves a usable image exactly when the rounded length
is below the size of the store, the padding stays in the partition, no name has a `=`,
no variable is lost, and, on a big-endian machine, the CRC happens to be 0. -/
theorem commitUsable_iff (hreach : Reachable target h) :
    CommitUsable target h ↔
      h.imageLen < h.length - h.offset ∧
        h.offset + headerSize + h.bodySize + 1 + h.padLen ≤ h.length ∧
        (∀ t ∈ h.tuples, (61 : UInt8) ∉ t.1.bytes ∧ (t ∈ h.kept ∨ Recovered target h t)) ∧
        (target.bigEndian = true → h.commitCrc target = 0) := by
  have hinv := hreach.inv
  rcases nvramCommit_eq target hinv.room with
    ⟨crc, c, himage, hc, hret, hhandle, hwrites, hwrites'⟩
  have hmmap : c.handle.mmap = (commitImage target h).bytes := by rw [hhandle]
  have hinfo := himage.infoCrc_iff (imageLen_lt hinv)
    (rehashTable target h.reread (sdramWords target h)) []
  rw [← hhandle] at hinfo
  have hcrc : h.imageLen < h.length - h.offset → h.commitCrc target = crc := by
    intro hlt
    rw [himage.crc_eq, imageCrc_eq, himage.data (by omega)]
    rfl
  constructor
  · intro husable
    have hu := husable c hc hret
    rcases (himage.reopen_iff hinv h.addr).mp (hmmap ▸ hu.reopen h.addr) with ⟨hlt, hall⟩
    refine ⟨hlt, ?_, hall, hcrc hlt ▸ hinfo.mp hu.crc⟩
    exact (commitImage_writes_iff target hinv.room).mp fun w hw => hu.writes w (hwrites w hw)
  · rintro ⟨hlt, hpad, hall, hbig⟩ c' hc' -
    rw [hc, some.injEq] at hc'
    subst hc'
    refine ⟨?_, ?_, hinfo.mpr (hcrc hlt ▸ hbig), ?_⟩
    · intro w hw
      rcases hwrites' w hw with hw | hw
      · exact (commitImage_writes_iff target hinv.room).mpr hpad w hw
      · exact hw
    · rw [hmmap, himage.len (imageLen_lt hinv)]
      exact hlt.le
    · intro addr
      rw [hmmap]
      exact (himage.reopen_iff hinv addr).mpr ⟨hlt, hall⟩

/-! ## Two commits of a blank store -/

theorem padLen_le (h : Handle) : h.padLen ≤ 7 := by
  have hrem : -4 < ptrRem h.addr (h.offset + headerSize + h.bodySize + 1) := by
    unfold ptrRem
    exact Int.lt_tmod_of_pos _ (by decide)
  simp only [Handle.padLen]
  split
  · omega
  · decide

theorem blankWith_reachable (value : CString) : Reachable bcm47xx (blankWith value) := by
  have hstep : step bcm47xx blank (.set nameA value) = some (blankWith value) := rfl
  exact .step (.opened (by decide) open_blank) hstep

theorem blankWith_size (value : CString) :
    (blankWith value).length = 0x8000 ∧ (blankWith value).offset = 0 := by
  rw [blankWith, nvramSet]
  split
  · exact ⟨rfl, rfl⟩
  · exact ⟨rfl, rfl⟩

theorem blankWith_fits (hfit : value.length + 106 ≤ 0x8000) : (blankWith value).Fits := by
  have hone : value.length + 1 ≤ 0x8000 := by omega
  rcases blankWith_size value with ⟨hlength, hoffset⟩
  rw [Handle.Fits, length_encode_blankWith hone, headerSize]
  omega

theorem blankWith_kept (hfit : value.length + 106 ≤ 0x8000) :
    (blankWith value).kept = (blankWith value).tuples :=
  kept_of_fits (blankWith_fits hfit)

theorem blankWith_bodySize (hfit : value.length + 106 ≤ 0x8000) :
    (blankWith value).bodySize = value.length + 84 := by
  rw [Handle.bodySize, blankWith_kept hfit]
  exact length_encode_blankWith (by omega)

theorem commitUsable_one :
    Reachable bcm47xx (blankWith ⟨ascii "1", by decide⟩) ∧
      CommitUsable bcm47xx (blankWith ⟨ascii "1", by decide⟩) := by
  have hreach := blankWith_reachable ⟨ascii "1", by decide⟩
  have hfit : CString.length ⟨ascii "1", by decide⟩ + 106 ≤ 0x8000 := by decide
  have hbody := blankWith_bodySize hfit
  have hpad := padLen_le (blankWith ⟨ascii "1", by decide⟩)
  rcases blankWith_size ⟨ascii "1", by decide⟩ with ⟨hlength, hoffset⟩
  refine ⟨hreach, (commitUsable_iff hreach).mpr ⟨?_, ?_, ?_, ?_⟩⟩
  · rw [Handle.imageLen, hbody]
    decide
  · rw [hbody]
    change 0 + 20 + (1 + 84) + 1 + _ ≤ 0x8000
    omega
  · intro t ht
    have hok : (blankWith ⟨ascii "1", by decide⟩).Ok bcm47xx := blankWith_ok (by decide)
    refine ⟨hok.names _ _ ((mem_tuples_iff hok.table t).mp ht), Or.inl ?_⟩
    rw [blankWith_kept hfit]
    exact ht
  · intro hbig
    cases hbig

theorem not_commitUsable_of_length (hlen : value.length = 32662) :
    (blankWith value).imageLen = 0x8000 ∧ ¬CommitUsable bcm47xx (blankWith value) := by
  have himageLen : (blankWith value).imageLen = 0x8000 := by
    rw [Handle.imageLen, blankWith_bodySize (by omega), hlen]
    rfl
  refine ⟨himageLen, ?_⟩
  intro husable
  have hinv := (blankWith_reachable value).inv
  rcases nvramCommit_eq bcm47xx hinv.room with ⟨crc, c, himage, hc, hret, hhandle, -, -⟩
  have hopen := (husable c hc hret).reopen mapAddr
  rw [hhandle] at hopen
  have hlt := ((himage.reopen_iff hinv mapAddr).mp hopen).1
  rw [himageLen, (blankWith_size value).1, (blankWith_size value).2] at hlt
  exact lt_irrefl _ hlt

def fullValue : CString :=
  ⟨replicate 32662 120, fun hmem => absurd (eq_of_mem_replicate hmem) (by decide)⟩

/-- All variables fit and the commit returns 0, but the length in the header is the size of
the partition, which `nvram_open` refuses. -/
theorem not_commitUsable_full :
    Reachable bcm47xx (blankWith fullValue) ∧ (blankWith fullValue).imageLen = 0x8000 ∧
      ¬CommitUsable bcm47xx (blankWith fullValue) :=
  ⟨blankWith_reachable fullValue, not_commitUsable_of_length length_replicate⟩

end OpenWrt.Nvram
