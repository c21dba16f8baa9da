import OpenWrt.Nvram.Store

/-!
# The image of a commit

What `nvram_commit` leaves in the mapping: the tuples that had room, as strings one
behind the other, a NUL, and a header with the length and the CRC; and what the
parser of `_nvram_rehash` makes of such strings.
-/

namespace OpenWrt.Nvram

open Lib List

variable {target : Target} {h : Handle}
variable {ptr fin : Nat}

/-! ## Appending to memory -/

/-- `m'` is `m` with `bs` written at `ptr` by writes that stay there. -/
structure Appended (m m' : Mem) (ptr : Nat) (bs : List UInt8) : Prop where
  inside : slice m'.bytes ptr bs.length = bs
  outside : ∀ a, a < ptr ∨ ptr + bs.length ≤ a → m'.bytes a = m.bytes a
  writes : ∀ w ∈ m'.writes, w ∈ m.writes ∨ ptr ≤ w.1 ∧ w.1 + w.2 ≤ ptr + bs.length

theorem Appended.refl (m : Mem) (ptr : Nat) : Appended m m ptr [] where
  inside := rfl
  outside := fun _ _ => rfl
  writes := fun _ hw => .inl hw

theorem appended_store (m : Mem) (ptr : Nat) (bs : List UInt8) :
    Appended m (m.store ptr bs) ptr bs where
  inside := slice_storeBytes m.bytes ptr bs
  outside := fun _ ha => storeBytes_outside ha
  writes := by
    intro w hw
    rcases mem_cons.mp hw with rfl | hw
    · exact .inr ⟨le_refl _, le_refl _⟩
    · exact .inl hw

theorem Appended.trans {m m' m'' : Mem} {bs bs' : List UInt8}
    (h : Appended m m' ptr bs) (h' : Appended m' m'' (ptr + bs.length) bs') :
    Appended m m'' ptr (bs ++ bs') := by
  refine ⟨?_, ?_, ?_⟩
  · have hkeep : slice m''.bytes ptr bs.length = bs := by
      refine Eq.trans (slice_congr fun i hi => ?_) h.inside
      exact h'.outside _ (.inl (by omega))
    rw [length_append, slice_append, hkeep, h'.inside]
  · intro a ha
    rw [length_append] at ha
    rw [h'.outside a (by omega), h.outside a (by omega)]
  · intro w hw
    rw [length_append]
    rcases h'.writes w hw with hw | hw
    · rcases h.writes w hw with hw | hw
      · exact .inl hw
      · exact .inr (by omega)
    · exact .inr (by omega)

/-! ## The tuples that had room -/

def encode (ts : List Tuple) : List UInt8 := ts.flatMap varBytes

theorem length_varBytes (t : Tuple) : (varBytes t).length = t.1.length + 1 + t.2.length + 1 := by
  simp only [varBytes, CString.length, length_append, length_cons, length_nil]
  omega

theorem encode_append (ts us : List Tuple) : encode (ts ++ us) = encode ts ++ encode us :=
  flatMap_append

def keptChain (fin : Nat) : Nat → List Tuple → List Tuple
  | _, [] => []
  | ptr, t :: ts =>
    if ptr + (varBytes t).length > fin then []
    else t :: keptChain fin (ptr + (varBytes t).length) ts

def keptChains (fin : Nat) : Nat → List (List Tuple) → List Tuple
  | _, [] => []
  | ptr, c :: cs =>
    keptChain fin ptr c ++ keptChains fin (ptr + (encode (keptChain fin ptr c)).length) cs

def Handle.kept (h : Handle) : List Tuple :=
  keptChains (h.length - 2) (h.offset + headerSize) ((finRange 257).map h.nvramHash)

theorem writeChain_appended (fin : Nat) (ts : List Tuple) (m : Mem) (ptr : Nat) :
    ∃ m', writeChain fin ts (m, ptr) = (m', ptr + (encode (keptChain fin ptr ts)).length) ∧
      Appended m m' ptr (encode (keptChain fin ptr ts)) := by
  induction ts generalizing m ptr with
  | nil => exact ⟨m, rfl, Appended.refl m ptr⟩
  | cons t ts ih =>
    have hroom : ptr + t.1.length + 1 + t.2.length + 1 > fin ↔ ptr + (varBytes t).length > fin := by
      rw [length_varBytes]
      omega
    by_cases hfull : ptr + (varBytes t).length > fin
    · refine ⟨m, ?_, ?_⟩
      · simp [writeChain, hroom, keptChain, hfull, encode]
      · simp only [keptChain, if_pos hfull]
        exact Appended.refl m ptr
    · rcases ih (m.store ptr (varBytes t)) (ptr + (varBytes t).length) with ⟨m', hrun, happ⟩
      refine ⟨m', ?_, ?_⟩
      · simp only [writeChain, hroom, if_neg hfull, hrun, keptChain]
        simp [encode, add_assoc]
      · simp only [keptChain, if_neg hfull]
        exact (appended_store m ptr (varBytes t)).trans happ

theorem writeChains_appended (fin : Nat) (table : Tuples) (indices : List (Fin 257)) (m : Mem)
    (ptr : Nat) :
    ∃ m', indices.foldl (fun s i => writeChain fin (table i) s) (m, ptr) =
        (m', ptr + (encode (keptChains fin ptr (indices.map table))).length) ∧
      Appended m m' ptr (encode (keptChains fin ptr (indices.map table))) := by
  induction indices generalizing m ptr with
  | nil => exact ⟨m, rfl, Appended.refl m ptr⟩
  | cons i indices ih =>
    rcases writeChain_appended fin (table i) m ptr with ⟨m', hrun, happ⟩
    rcases ih m' (ptr + (encode (keptChain fin ptr (table i))).length) with
      ⟨m'', hrun', happ'⟩
    refine ⟨m'', ?_, ?_⟩
    · rw [foldl_cons, hrun, hrun']
      simp only [map_cons, keptChains, encode_append, length_append, add_assoc]
    · simp only [map_cons, keptChains, encode_append]
      exact happ.trans happ'

theorem keptChain_le (hptr : ptr ≤ fin) (ts : List Tuple) :
    ptr + (encode (keptChain fin ptr ts)).length ≤ fin := by
  induction ts generalizing ptr with
  | nil => simpa [keptChain, encode] using hptr
  | cons t ts ih =>
    by_cases hfull : ptr + (varBytes t).length > fin
    · simpa [keptChain, hfull, encode] using hptr
    · have hle := ih (not_lt.mp hfull)
      simp only [keptChain, if_neg hfull]
      simp only [encode, flatMap_cons, length_append] at hle ⊢
      omega

theorem keptChains_le (hptr : ptr ≤ fin) (cs : List (List Tuple)) :
    ptr + (encode (keptChains fin ptr cs)).length ≤ fin := by
  induction cs generalizing ptr with
  | nil => simpa [keptChains, encode] using hptr
  | cons c cs ih =>
    have hle := ih (keptChain_le hptr c)
    simp only [keptChains, encode_append, length_append]
    omega

theorem keptChain_full (hptr : fin ≤ ptr) (ts : List Tuple) : keptChain fin ptr ts = [] := by
  cases ts with
  | nil => rfl
  | cons t ts =>
    have := length_varBytes t
    rw [keptChain, if_pos (by omega)]

theorem keptChains_full (hptr : fin ≤ ptr) (cs : List (List Tuple)) :
    keptChains fin ptr cs = [] := by
  induction cs with
  | nil => rfl
  | cons c cs ih => simpa [keptChains, keptChain_full hptr, encode] using ih

theorem keptChain_all {ts : List Tuple}
    (hfit : ptr + (encode ts).length ≤ fin) : keptChain fin ptr ts = ts := by
  induction ts generalizing ptr with
  | nil => rfl
  | cons t ts ih =>
    simp only [encode, flatMap_cons, length_append] at hfit
    rw [keptChain, if_neg (by omega), ih (by rw [encode]; omega)]

theorem keptChains_all {cs : List (List Tuple)}
    (hfit : ptr + (encode cs.flatten).length ≤ fin) : keptChains fin ptr cs = cs.flatten := by
  induction cs generalizing ptr with
  | nil => rfl
  | cons c cs ih =>
    simp only [flatten_cons, encode_append, length_append] at hfit ⊢
    rw [keptChains, keptChain_all (by omega), ih (by omega)]

theorem keptChain_sublist (fin ptr : Nat) (ts : List Tuple) :
    (keptChain fin ptr ts).Sublist ts := by
  induction ts generalizing ptr with
  | nil => exact List.Sublist.refl _
  | cons t ts ih =>
    by_cases hfull : ptr + (varBytes t).length > fin
    · rw [keptChain, if_pos hfull]
      exact nil_sublist _
    · rw [keptChain, if_neg hfull]
      exact (ih _).cons_cons t

theorem keptChains_sublist (fin ptr : Nat) (cs : List (List Tuple)) :
    (keptChains fin ptr cs).Sublist cs.flatten := by
  induction cs generalizing ptr with
  | nil => exact List.Sublist.refl _
  | cons c cs ih => exact (keptChain_sublist fin ptr c).append (ih _)

theorem tuples_eq_flatten (h : Handle) : h.tuples = ((finRange 257).map h.nvramHash).flatten :=
  (flatMap_def ..)

theorem kept_sublist (h : Handle) : h.kept.Sublist h.tuples := by
  exact keptChains_sublist ..

/-! ## The bytes of the image -/

def Handle.bodySize (h : Handle) : Nat := (encode h.kept).length

def Handle.imageLen (h : Handle) : Nat := roundup (h.bodySize + headerSize + 2) 4

def Handle.padLen (h : Handle) : Nat :=
  let rem := ptrRem h.addr (h.offset + headerSize + h.bodySize + 1)
  if rem ≠ 0 then (4 - rem).toNat else 0

def cleared (target : Target) (h : Handle) : Mem :=
  let w := sdramWords target h
  let m : Mem := ⟨h.mmap, []⟩
  let m := m.store h.offset (wordBytes target.bigEndian NVRAM_MAGIC)
  let m := m.store (h.offset + 8) (wordBytes target.bigEndian w.crcVerInit)
  let m := m.store (h.offset + 12) (wordBytes target.bigEndian w.configRefresh)
  let m := m.store (h.offset + 16) (wordBytes target.bigEndian w.configNcdl)
  m.store (h.offset + headerSize) (replicate (h.length - h.offset - headerSize) 0xff)

def Handle.dataBytes (h : Handle) : List UInt8 :=
  encode h.kept ++ [0] ++ replicate h.padLen 0

/-- The data up to the rounded length; what lies behind the padding is still cleared. -/
def Handle.crcData (h : Handle) : List UInt8 :=
  (h.dataBytes ++ replicate 4 0xff).take (h.imageLen - headerSize)

def imageCrc (target : Target) (h : Handle) (b : Buffer) : UInt8 :=
  let w := sdramWords target h
  let tmp := replicate 8 0 ++ wordBytes target.bigEndian w.crcVerInit ++
    wordBytes target.bigEndian w.configRefresh ++ wordBytes target.bigEndian w.configNcdl
  hndcrc8 (slice b (h.offset + headerSize) (h.imageLen - headerSize))
    (hndcrc8 (tmp.drop NVRAM_CRC_START_POSITION) 0xff)

theorem commitImage_eq (target : Target) (h : Handle) :
    ∃ m m', Appended (cleared target h) m (h.offset + headerSize) h.dataBytes ∧
      (h.padLen ≠ 0 → (h.offset + headerSize + h.bodySize + 1, h.padLen) ∈ m.writes) ∧
      m' = m.store (h.offset + 4) (wordBytes target.bigEndian h.imageLen) ∧
      commitImage target h = m'.store (h.offset + 8) (wordBytes target.bigEndian
        ((sdramWords target h).crcVerInit ||| (imageCrc target h m'.bytes).toNat)) := by
  rcases writeChains_appended (h.length - 2) h.nvramHash (finRange 257) (cleared target h)
    (h.offset + headerSize) with ⟨m, hrun, happ⟩
  have hwrite : writeTuples (h.length - 2) h (cleared target h, h.offset + headerSize) =
      (m, h.offset + headerSize + h.bodySize) := hrun
  have hend : h.offset + headerSize + (encode h.kept ++ [0]).length =
      h.offset + headerSize + h.bodySize + 1 := by
    simp only [length_append, length_cons, length_nil, Handle.bodySize]
    omega
  have hnul := happ.trans (appended_store m (h.offset + headerSize + h.bodySize) [0])
  have hpad : Appended (m.store (h.offset + headerSize + h.bodySize) [0])
      (if ptrRem h.addr (h.offset + headerSize + h.bodySize + 1) ≠ 0 then
        (m.store (h.offset + headerSize + h.bodySize) [0]).store
          (h.offset + headerSize + h.bodySize + 1) (replicate
            (4 - ptrRem h.addr (h.offset + headerSize + h.bodySize + 1)).toNat 0)
        else m.store (h.offset + headerSize + h.bodySize) [0])
      (h.offset + headerSize + h.bodySize + 1) (replicate h.padLen 0) := by
    simp only [Handle.padLen]
    split
    · exact appended_store ..
    · exact Appended.refl ..
  rw [← hend] at hpad
  refine ⟨_, _, hnul.trans hpad, ?_, rfl, ?_⟩
  · rw [hend]
    intro hne
    simp only [Handle.padLen] at hne ⊢
    by_cases hrem : ptrRem h.addr (h.offset + headerSize + h.bodySize + 1) ≠ 0
    · simp only [if_pos hrem, Mem.store, length_replicate]
      exact mem_cons_self
    · exact absurd (if_neg hrem) hne
  have hlen : h.offset + headerSize + h.bodySize + 1 + 1 - h.offset =
      h.bodySize + headerSize + 2 := by
    omega
  simp only [cleared] at hwrite
  simp only [commitImage, hwrite, hend, hlen]
  rfl

theorem sdramWords_lt (target : Target) (h : Handle) :
    (sdramWords target h).crcVerInit < 4294967296 ∧
      (sdramWords target h).configRefresh < 4294967296 ∧
      (sdramWords target h).configNcdl < 4294967296 := by
  unfold sdramWords
  split
  · rename_i init config refresh ncdl _ _ _ _
    simp only [NVRAM_VERSION]
    omega
  · decide

theorem crcVerInit_mod (target : Target) (h : Handle) :
    (sdramWords target h).crcVerInit % 256 = 0 := by
  unfold sdramWords
  split
  · simp only [NVRAM_VERSION]
    omega
  · decide

theorem crcVerInit_or (target : Target) (h : Handle) (crc : UInt8) :
    (sdramWords target h).crcVerInit ||| crc.toNat =
      (sdramWords target h).crcVerInit + crc.toNat := by
  have hcrc : crc.toNat < 2 ^ 8 := crc.toNat_lt
  have hmod := crcVerInit_mod target h
  have hshift : (sdramWords target h).crcVerInit =
      ((sdramWords target h).crcVerInit / 256) <<< 8 := by
    omega
  rw [hshift, ← Nat.shiftLeft_add_eq_or_of_lt hcrc]

theorem cleared_data {a : Nat} (hlo : h.offset + headerSize ≤ a) (hhi : a < h.length) :
    (cleared target h).bytes a = 0xff := by
  simp only [cleared, Mem.store]
  rw [storeBytes, if_pos (by rw [length_replicate]; omega), getD_replicate]
  omega

theorem Appended.crcData {m : Mem}
    (happ : Appended (cleared target h) m (h.offset + headerSize) h.dataBytes)
    (hfit : h.offset + h.imageLen ≤ h.length) :
    slice m.bytes (h.offset + headerSize) (h.imageLen - headerSize) = h.crcData := by
  have hlen : h.imageLen - headerSize ≤ h.dataBytes.length + 4 := by
    rw [Handle.imageLen, roundup, Handle.dataBytes, length_append, length_append,
      ← Handle.bodySize, length_singleton]
    omega
  apply ext_getElem
  · rw [length_slice, Handle.crcData, length_take, length_append,
      length_replicate, min_eq_left hlen]
  intro i hi _
  rw [length_slice] at hi
  simp only [Handle.crcData, getElem_take, slice, getElem_map, getElem_range]
  by_cases hdata : i < h.dataBytes.length
  · have hbyte := congrArg (fun l => l[i]?) happ.inside
    simp only [slice, getElem?_map, getElem?_range hdata, Option.map_some,
      getElem?_eq_getElem hdata, Option.some.injEq] at hbyte
    rw [hbyte, getElem_append_left hdata]
  · rw [getElem_append_right (not_lt.mp hdata), getElem_replicate,
      happ.outside _ (.inr (by omega)), cleared_data (by omega) (by omega)]

structure IsImage (target : Target) (h : Handle) (crc : UInt8) (b : Buffer) : Prop where
  crc_eq : crc = imageCrc target h b
  head : slice b (h.offset + 8) 12 =
    wordBytes target.bigEndian ((sdramWords target h).crcVerInit + crc.toNat) ++
      (wordBytes target.bigEndian (sdramWords target h).configRefresh ++
        wordBytes target.bigEndian (sdramWords target h).configNcdl)
  body : slice b (h.offset + headerSize) h.bodySize = encode h.kept
  nul : b (h.offset + headerSize + h.bodySize) = 0
  data : h.offset + h.imageLen ≤ h.length →
    slice b (h.offset + headerSize) (h.imageLen - headerSize) = h.crcData
  before : ∀ a < h.offset, b a = h.mmap a
  magic : word target.bigEndian b h.offset = NVRAM_MAGIC
  len : h.imageLen < 4294967296 → word target.bigEndian b (h.offset + 4) = h.imageLen

theorem IsImage.words {crc : UInt8} {b : Buffer} (himage : IsImage target h crc b) :
    word target.bigEndian b (h.offset + 8) = (sdramWords target h).crcVerInit + crc.toNat ∧
      word target.bigEndian b (h.offset + 12) = (sdramWords target h).configRefresh ∧
      word target.bigEndian b (h.offset + 16) = (sdramWords target h).configNcdl := by
  obtain ⟨hinit, hrefresh, hncdl⟩ := sdramWords_lt target h
  have hmod := crcVerInit_mod target h
  have hcrc := crc.toNat_lt
  have hhead := himage.head
  rw [slice_append _ _ 4 8, slice_append _ _ 4 4] at hhead
  obtain ⟨h8, hrest⟩ := append_inj hhead (by simp)
  obtain ⟨h12, h16⟩ := append_inj hrest (by simp)
  exact ⟨word_of_slice (by omega) h8, word_of_slice hrefresh h12, word_of_slice hncdl h16⟩

theorem cleared_head (target : Target) (h : Handle) :
    (∀ a < h.offset, (cleared target h).bytes a = h.mmap a) ∧
      word target.bigEndian (cleared target h).bytes h.offset = NVRAM_MAGIC := by
  simp only [cleared, Mem.store, headerSize]
  constructor
  · intro a ha
    rw [storeBytes_outside (by omega), storeBytes_outside (by omega),
      storeBytes_outside (by omega), storeBytes_outside (by omega), storeBytes_outside (by omega)]
  · rw [word_storeBytes_outside (by simp), word_storeBytes_outside (by simp),
      word_storeBytes_outside (by simp), word_storeBytes_outside (by simp),
      word_storeBytes _ _ _ (by decide)]

theorem cleared_bytes (target : Target) (h : Handle) :
    slice (cleared target h).bytes (h.offset + 12) 8 =
      wordBytes target.bigEndian (sdramWords target h).configRefresh ++
        wordBytes target.bigEndian (sdramWords target h).configNcdl := by
  simp only [cleared, Mem.store, headerSize]
  rw [slice_storeBytes_outside (by simp), slice_append _ _ 4 4, slice_storeBytes_word,
    slice_storeBytes_outside (by simp), slice_storeBytes_word]

theorem body_of_data {b : Buffer} {a : Nat} (hdata : slice b a h.dataBytes.length = h.dataBytes) :
    slice b a h.bodySize = encode h.kept ∧ b (a + h.bodySize) = 0 := by
  have hsplit : h.dataBytes = encode h.kept ++ (0 :: replicate h.padLen 0) := by
    simp [Handle.dataBytes]
  have hlen : h.dataBytes.length = h.bodySize + (1 + h.padLen) := by
    rw [hsplit, length_append, length_cons, length_replicate, add_comm 1, Handle.bodySize]
  rw [hlen, slice_append, hsplit] at hdata
  obtain ⟨hbody, htail⟩ := append_inj hdata (by simp [Handle.bodySize])
  rw [add_comm 1, slice_succ] at htail
  exact ⟨hbody, (cons.inj htail).1⟩

theorem commitImage_isImage (target : Target) (h : Handle) :
    ∃ crc, IsImage target h crc (commitImage target h).bytes := by
  rcases commitImage_eq target h with ⟨m, m', happ, -, rfl, himage⟩
  rcases cleared_head target h with ⟨hbefore, hmagic⟩
  -- The two last writes stay in the header.
  have hframe : ∀ a, a < h.offset + 4 ∨ h.offset + 12 ≤ a →
      (commitImage target h).bytes a = m.bytes a := by
    intro a ha
    rw [himage]
    simp only [Mem.store]
    rw [storeBytes_outside (by rw [length_wordBytes]; omega),
      storeBytes_outside (by rw [length_wordBytes]; omega)]
  have hhead : ∀ a, a < h.offset + 4 ∨ h.offset + 12 ≤ a ∧ a < h.offset + headerSize →
      (commitImage target h).bytes a = (cleared target h).bytes a := by
    intro a ha
    rw [hframe a (by omega), happ.outside a (by simp only [headerSize] at ha ⊢; omega)]
  have hdata : slice (commitImage target h).bytes (h.offset + headerSize) h.dataBytes.length =
      h.dataBytes := by
    refine Eq.trans (slice_congr fun i hi => ?_) happ.inside
    exact hframe _ (.inr (by simp only [headerSize]; omega))
  obtain ⟨hbody, hnul⟩ := body_of_data hdata
  have hslice : slice (commitImage target h).bytes (h.offset + headerSize)
      (h.imageLen - headerSize) = slice (m.store (h.offset + 4)
        (wordBytes target.bigEndian h.imageLen)).bytes (h.offset + headerSize)
          (h.imageLen - headerSize) := by
    apply slice_congr
    intro i hi
    rw [himage]
    exact storeBytes_outside (.inr (by simp only [headerSize, length_wordBytes]; omega))
  have hcrc : imageCrc target h (commitImage target h).bytes = imageCrc target h
      (m.store (h.offset + 4) (wordBytes target.bigEndian h.imageLen)).bytes := by
    simp only [imageCrc, hslice]
  rw [← hcrc, crcVerInit_or] at himage
  have hword : slice (commitImage target h).bytes (h.offset + 8) 4 =
      wordBytes target.bigEndian ((sdramWords target h).crcVerInit +
        (imageCrc target h (commitImage target h).bytes).toNat) := by
    conv_lhs => rw [himage]
    exact slice_storeBytes_word ..
  have hwords : slice (commitImage target h).bytes (h.offset + 8 + 4) 8 =
      slice (cleared target h).bytes (h.offset + 12) 8 := by
    apply slice_congr
    intro i hi
    exact hhead _ (.inr (by simp only [headerSize]; omega))
  refine ⟨imageCrc target h (commitImage target h).bytes, rfl, ?_, hbody, hnul, ?_, ?_, ?_, ?_⟩
  · rw [slice_append _ _ 4 8, hword, hwords, cleared_bytes]
  · intro hfit
    refine Eq.trans (slice_congr fun i hi => ?_) (happ.crcData hfit)
    exact hframe _ (.inr (by simp only [headerSize]; omega))
  · intro a ha
    rw [hhead a (by omega), hbefore a ha]
  · rw [← hmagic]
    apply word_congr
    intro i hi
    exact hhead _ (.inl (by omega))
  · intro hsmall
    rw [himage]
    simp only [Mem.store]
    rw [word_storeBytes_outside (by simp), word_storeBytes _ _ _ hsmall]

end OpenWrt.Nvram
