import OpenWrt.Nmbm.Proofs.MtdWrite

/-!
# The two ways to read

`nmbm_mtd_read_oob` reads through `nmbm_read_range` when only data is wanted, and through
`nmbm_mtd_read_data` when OOB is wanted as well.  Both walk over the same pages and keep the
same account of them, but `nmbm_mtd_read_data` starts at an address of 32 bits.
-/

namespace OpenWrt.Nmbm

open Lib Lib.Prog

variable {D : Type} {nld : Lower D} {nm : NmbmMtd D} {addr off sizeremain : Nat}
  {mode : OobMode} {w : World D}
variable {a n : Nat} {s : ReadState} {t : MtdRead} {cache : MtdCache} {ops : OobOps}

/-! ## One page -/

/-- The outcome of a page, data, return value and what becomes of the device, does not depend
on whether its OOB is read along. -/
def OobBlind (readPage : Nat → Bool → Bool → OobMode → D → PageRead × D) : Prop :=
  ∀ addr mode d oob,
    (readPage addr true oob mode d).1.ret = (readPage addr true false mode d).1.ret ∧
    (readPage addr true oob mode d).1.data = (readPage addr true false mode d).1.data ∧
    (readPage addr true oob mode d).2 = (readPage addr true false mode d).2

theorem lower_blind {f g : D → PageRead × D}
    (h : ∀ d, (g d).1.ret = (f d).1.ret ∧ (g d).1.data = (f d).1.data ∧ (g d).2 = (f d).2)
    (w : World D) (c : Buffer) :
    ∃ r r' d, lower f w = some (r, w.onDev d) ∧
      lower g (w.cached c) = some (r', (w.cached c).onDev d) ∧
        r'.ret = r.ret ∧ r'.data = r.data := by
  obtain ⟨hret, hdata, hdev⟩ := h w.dev
  refine ⟨(f w.dev).1, (g w.dev).1, (f w.dev).2, rfl, ?_, hret, hdata⟩
  rw [← hdev]
  rfl

theorem retry_blind (nld : Lower D) {f g : D → PageRead × D}
    (h : ∀ d, (g d).1.ret = (f d).1.ret ∧ (g d).1.data = (f d).1.data ∧ (g d).2 = (f d).2)
    (n : Nat) (w : World D) (c : Buffer) :
    ∃ r r' d, retry nld (fun r => decide (0 ≤ r.ret)) (lower f) n w = some (r, w.onDev d) ∧
      retry nld (fun r => decide (0 ≤ r.ret)) (lower g) n (w.cached c) =
        some (r', (w.cached c).onDev d) ∧
      r'.ret = r.ret ∧ r'.data = r.data := by
  induction n generalizing w
  all_goals
    obtain ⟨r, r', d, hop, hop', hret, hdata⟩ := lower_blind h w c
    rw [retry, retry, bind_of_run hop, bind_of_run hop']
    simp only [hret]
    by_cases hok : decide (0 ≤ r.ret) = true
    · rw [if_pos hok, if_pos hok]
      exact ⟨r, r', d, rfl, rfl, hret, hdata⟩
    rw [if_neg hok, if_neg hok]
  · exact ⟨r, r', nld.resetChip d, rfl, rfl, hret, hdata⟩
  · rename_i ih
    exact ih (w.onDev (nld.resetChip d))

theorem readLogicPage_blind (hblind : OobBlind nld.readPage) (a : Nat) (mode : OobMode)
    (oob : Bool) (w : World D) (c : Buffer) :
    ∃ ret page page' d, readLogicPage nld a true false mode w = some ((ret, page), w.onDev d) ∧
      readLogicPage nld a true oob mode (w.cached c) =
        some ((ret, page'), (w.cached c).onDev d) ∧
      (¬(ret < 0 ∧ ret ≠ -ebadmsg) →
        ∃ r r', page = some r ∧ page' = some r' ∧ r'.data = r.data) := by
  rw [readLogicPage, readLogicPage, bind_of_run (getNi_run _), bind_of_run (getNi_run _)]
  have hsame : physAddr nld (w.cached c).ni a = physAddr nld w.ni a := rfl
  rw [hsame]
  cases physAddr nld w.ni a with
  | none =>
    refine ⟨-eio, none, none, w.dev, rfl, rfl, fun h => absurd ?_ h⟩
    decide
  | some p =>
    obtain ⟨r, r', d, hrun, hrun', hret, hdata⟩ := retry_blind nld
      (fun d => hblind p mode d oob) (NMBM_TRY_COUNT - 1) w c
    refine ⟨r.ret, some r, some r', d, ?_, ?_, fun _ => ⟨r, r', rfl, rfl, hdata⟩⟩
    · exact bind_of_run hrun
    · rw [← hret]
      exact bind_of_run hrun'

theorem readSinglePage_eq (hprot : w.ni.isProtected = false) (buf oob : Bool)
    (ha : a < nld.ba2addr w.ni.dataBlockCount) :
    readSinglePage nld a buf oob mode w = readLogicPage nld a buf oob mode w := by
  rw [readSinglePage, bind_of_run (getNi_run w), hprot, if_neg Bool.false_ne_true,
    if_neg (not_le.mpr ha)]

/-! ## Both loops -/

def ReadState.result (s : ReadState) : Int :=
  if s.ret < 0 ∧ s.ret ≠ -ebadmsg then s.ret
  else if s.hasEccErr then -ebadmsg
  else s.maxBitflips

/-- Both loops have come to the same, and OOB does not need more pages than data. -/
structure InStep (nm : NmbmMtd D) (mode : OobMode) (off sizeremain : Nat) (s : ReadState)
    (t : MtdRead) : Prop where
  offs : sizeremain ≠ 0 → t.dat.offs = off % nm.nld.writesize
  len : t.dat.len = sizeremain
  retlen : t.dat.ret = s.retlen
  data : ∀ i < s.retlen, t.datbuf i = s.data i
  ecc : t.hasEccErr = s.hasEccErr
  bitflips : t.maxBitflips = s.maxBitflips
  going : ¬(s.ret < 0 ∧ s.ret ≠ -ebadmsg)
  oob_lt : t.oob.offs < nm.maxooblen mode
  pages : t.oob.pages (nm.maxooblen mode) ≤ t.dat.pages nm.nld.writesize

theorem Stream.len_eq_zero {unit : Nat} {s : Stream} (h : s.offs < unit)
    (hpages : s.pages unit = 0) :
    s.len = 0 := by
  by_contra hlen
  have := pages_next h hlen
  omega

theorem Stream.pages_next_le {unit unit' : Nat} {s t : Stream} (hs : s.offs < unit)
    (ht : t.offs < unit') (hlen : t.len ≠ 0) (hle : s.pages unit ≤ t.pages unit') :
    (s.next unit).pages unit ≤ (t.next unit').pages unit' := by
  have hnext := pages_next ht hlen
  by_cases hzero : s.len = 0
  · have hsame : s.next unit = s := if_neg (not_not.mpr hzero)
    rw [hsame, pages, if_pos hzero]
    exact Nat.zero_le _
  · have := pages_next hs hzero
    omega

theorem InStep.next (hws : 0 < nm.nld.writesize) {page : Buffer}
    {ret : Int} (h : InStep nm mode off sizeremain s t)
    (hrem : sizeremain ≠ 0) (hret : ¬(ret < 0 ∧ ret ≠ -ebadmsg))
    (hpage : ∀ i < nm.nld.writesize, cache.datcache i = page i) :
    InStep nm mode
      (off + min (nm.nld.writesize - off % nm.nld.writesize) sizeremain)
      (sizeremain - min (nm.nld.writesize - off % nm.nld.writesize) sizeremain)
      (s.moved page (off % nm.nld.writesize)
        (min (nm.nld.writesize - off % nm.nld.writesize) sizeremain) ret)
      (t.move nm mode cache ret) := by
  have hlen : t.dat.len ≠ 0 := by rwa [h.len]
  have hoffs := h.offs hrem
  have hlt := Nat.mod_lt off hws
  have hnext : t.dat.next nm.nld.writesize =
      ⟨0, sizeremain - min (nm.nld.writesize - off % nm.nld.writesize) sizeremain,
        s.retlen + min (nm.nld.writesize - off % nm.nld.writesize) sizeremain⟩ := by
    rw [Stream.next, if_pos hlen, Stream.chklen, hoffs, h.len, h.retlen]
  have htake : (t.move nm mode cache ret).datbuf = memcpy t.datbuf s.retlen cache.datcache
      (off % nm.nld.writesize)
      (min (nm.nld.writesize - off % nm.nld.writesize) sizeremain) := by
    rw [MtdRead.move, Stream.take, if_pos hlen, Stream.chklen, hoffs, h.len, h.retlen]
  refine ⟨fun hmore => ?_, ?_, ?_, fun i hi => ?_, ?_, ?_, hret, ?_, ?_⟩
  · rw [min_eq_left (by omega), Nat.mod_eq_zero_of_dvd (dvd_next_page hws)]
    exact congrArg Stream.offs hnext
  · exact congrArg Stream.len hnext
  · exact congrArg Stream.ret hnext
  · rw [htake]
    simp only [ReadState.moved] at hi ⊢
    rcases lt_or_ge i s.retlen with hbefore | hnew
    · rw [memcpy_outside (.inl hbefore), memcpy_outside (.inl hbefore)]
      exact h.data i hbefore
    · rw [memcpy_inside ⟨hnew, hi⟩, memcpy_inside ⟨hnew, hi⟩]
      exact hpage _ (by omega)
  · exact congrArg (· || decide (ret = -ebadmsg)) h.ecc
  · exact congrArg (max · ret) h.bitflips
  · exact Stream.next_offs_lt h.oob_lt
  · exact Stream.pages_next_le h.oob_lt (by rwa [hoffs]) hlen h.pages

theorem InStep.ended (h : InStep nm mode off 0 s t) :
    (t.dat.len = 0 ∧ t.oob.len = 0) ∧ t.result = s.result := by
  have hpages := h.pages
  rw [Stream.pages, Stream.pages, if_pos h.len] at hpages
  refine ⟨⟨h.len, Stream.len_eq_zero h.oob_lt (Nat.le_zero.mp hpages)⟩, ?_⟩
  rw [MtdRead.result, ReadState.result, if_neg h.going, h.ecc, h.bitflips]

theorem stageRead_ends (nld : Lower D) (chunksize : Nat) (page : Option PageRead) (w : World D) :
    ∃ bytes c, stageRead nld chunksize page w = some (bytes, w.cached c) := by
  cases page with
  | none => exact ⟨fun _ => 0, w.ni.pageCache, rfl⟩
  | some r =>
    obtain ⟨bytes, c, hrun, -⟩ := stageRead_run nld chunksize r w
    exact ⟨bytes, c, hrun⟩

theorem mtdReadPages_ended (hasDat hasOob : Bool) (n addr : Nat) (w : World D)
    (h : t.dat.len = 0 ∧ t.oob.len = 0) :
    mtdReadPages nm mode hasDat hasOob n addr t w = some ((t.result, t), w) := by
  cases n with
  | zero => rfl
  | succ n =>
    rw [mtdReadPages, if_pos h]
    rfl

theorem mtdReadPages_page {hasDat hasOob : Bool} {ret : Int}
    {page : Option PageRead} {w₁ : World D} (hleft : ¬(t.dat.len = 0 ∧ t.oob.len = 0))
    (hread : readSinglePage nm.nld addr hasDat hasOob mode w = some ((ret, page), w₁)) :
    mtdReadPages nm mode hasDat hasOob (n + 1) addr t w =
      if ret < 0 ∧ ret ≠ -ebadmsg then
        some ((ret, { t with cache := t.cache.fill nm mode hasDat hasOob page }), w₁)
      else mtdReadPages nm mode hasDat hasOob n (addr + nm.nld.writesize)
        (t.move nm mode (t.cache.fill nm mode hasDat hasOob page) ret) w₁ := by
  rw [mtdReadPages, if_neg hleft, bind_of_run hread]
  simp only
  split <;> rfl

theorem fill_datcache (nm : NmbmMtd D) (mode : OobMode) (cache : MtdCache) (hasOob : Bool)
    (r : PageRead) {i : Nat} (hi : i < nm.nld.writesize) :
    (cache.fill nm mode true hasOob (some r)).datcache i = r.data i := by
  have hcopy : memcpy cache.datcache 0 r.data 0 nm.nld.writesize i = r.data i :=
    (memcpy_inside ⟨Nat.zero_le i, by omega⟩).trans (by rw [Nat.zero_add, Nat.sub_zero])
  exact hcopy

theorem next_page_start (hws : 0 < nld.writesize)
    (hmore : sizeremain - min (nld.writesize - off % nld.writesize) sizeremain ≠ 0) :
    off - off % nld.writesize + nld.writesize =
      off + min (nld.writesize - off % nld.writesize) sizeremain -
        (off + min (nld.writesize - off % nld.writesize) sizeremain) % nld.writesize := by
  have hlt := Nat.mod_lt off hws
  have hle := Nat.mod_le off nld.writesize
  rw [min_eq_left (by omega), Nat.mod_eq_zero_of_dvd (dvd_next_page hws)]
  omega

theorem reads_in_step (hblind : OobBlind nm.nld.readPage) (hws : 0 < nm.nld.writesize)
    (hasOob : Bool) (n m off sizeremain addr : Nat) (s : ReadState) (t : MtdRead) (w : World D)
    (c : Buffer) (hprot : w.ni.isProtected = false) (hn : sizeremain ≤ n) (hm : sizeremain ≤ m)
    (hfit : off + sizeremain ≤ nm.nld.ba2addr w.ni.dataBlockCount)
    (haddr : sizeremain ≠ 0 → addr = off - off % nm.nld.writesize)
    (h : InStep nm mode off sizeremain s t) :
    ∃ s' w' t' w'', readRangeLoop nm.nld mode n off sizeremain s w = some (s', w') ∧
      mtdReadPages nm mode true hasOob m addr t (w.cached c) = some ((s'.result, t'), w'') ∧
      t'.dat.ret = s'.retlen ∧ ∀ i < s'.retlen, t'.datbuf i = s'.data i := by
  induction n generalizing m off sizeremain addr s t w c with
  | zero =>
    obtain rfl : sizeremain = 0 := Nat.le_zero.mp hn
    refine ⟨s, w, t, w.cached c, rfl, ?_, h.retlen, h.data⟩
    rw [mtdReadPages_ended _ _ _ _ _ h.ended.1, h.ended.2]
  | succ n ih =>
    by_cases hrem : sizeremain = 0
    · subst hrem
      refine ⟨s, w, t, w.cached c, rfl, ?_, h.retlen, h.data⟩
      rw [mtdReadPages_ended _ _ _ _ _ h.ended.1, h.ended.2]
    · obtain ⟨m, rfl⟩ : ∃ m', m = m' + 1 := Nat.exists_eq_succ_of_ne_zero (by omega)
      obtain rfl := haddr hrem
      have hlt := Nat.mod_lt off hws
      obtain ⟨ret, page, page', d, hread, hread', hpages⟩ :=
        readLogicPage_blind hblind (off - off % nm.nld.writesize) mode hasOob w c
      have hin : off - off % nm.nld.writesize < nm.nld.ba2addr w.ni.dataBlockCount := by omega
      have hsingle : readSinglePage nm.nld (off - off % nm.nld.writesize) true hasOob mode
          (w.cached c) = _ :=
        (readSinglePage_eq (w := w.cached c) hprot true hasOob hin).trans hread'
      have hleft : ¬(t.dat.len = 0 ∧ t.oob.len = 0) := fun hzero => hrem (h.len ▸ hzero.1)
      by_cases hfatal : ret < 0 ∧ ret ≠ -ebadmsg
      · obtain ⟨bytes, c', hstage⟩ := stageRead_ends nm.nld
          (min (nm.nld.writesize - off % nm.nld.writesize) sizeremain) page (w.onDev d)
        refine ⟨{ s with ret := ret }, (w.onDev d).cached c',
          { t with cache := t.cache.fill nm mode true hasOob page' }, (w.cached c).onDev d,
          ?_, ?_, h.retlen, h.data⟩
        · rw [readRangeLoop_page hrem hread hstage, if_pos hfatal]
        · rw [mtdReadPages_page hleft hsingle, if_pos hfatal, ReadState.result, if_pos hfatal]
      · obtain ⟨r, r', rfl, rfl, hdata⟩ := hpages hfatal
        obtain ⟨bytes, c', hstage, hbytes⟩ := stageRead_run nm.nld
          (min (nm.nld.writesize - off % nm.nld.writesize) sizeremain) r (w.onDev d)
        have hcache : ∀ i < nm.nld.writesize,
            (t.cache.fill nm mode true hasOob (some r')).datcache i = bytes i := by
          intro i hi
          rw [fill_datcache nm mode t.cache hasOob r' hi, hbytes i hi, hdata]
        have hrest : off + min (nm.nld.writesize - off % nm.nld.writesize) sizeremain +
            (sizeremain - min (nm.nld.writesize - off % nm.nld.writesize) sizeremain) ≤
            nm.nld.ba2addr w.ni.dataBlockCount := by omega
        obtain ⟨s', w', t', w'', hrange, hdat, hend⟩ := ih m _ _ _ _ _
          ((w.onDev d).cached c') c hprot (by omega) (by omega) hrest (next_page_start hws)
          (h.next hws hrem hfatal hcache)
        refine ⟨s', w', t', w'', ?_, ?_, hend⟩
        · rw [readRangeLoop_page hrem hread hstage, if_neg hfatal]
          exact hrange
        · rw [mtdReadPages_page hleft hsingle, if_neg hfatal]
          exact hdat

/-! ## Both calls -/

/-- The driver over a lower device with other outcomes of its reads. -/
def NmbmMtd.withReads (nm : NmbmMtd D)
    (readPage : Nat → Bool → Bool → OobMode → D → PageRead × D) : NmbmMtd D where
  nld := { nm.nld with readPage := readPage }
  oobavail := nm.oobavail
  oobavail_le := nm.oobavail_le

/-- Both calls return the same value, the same length and the same bytes. -/
def ReadsAgree (nm : NmbmMtd D) (addr : Nat) (ops : OobOps) (cache : MtdCache) (w : World D) :
    Prop :=
  ∃ ret data retlen w₁ t w₂,
    readRange nm.nld addr ops.len (ops.datbuf.getD fun _ => 0) ops.mode w =
      some ((ret, data, retlen), w₁) ∧
    mtdReadData nm addr ops cache w = some ((ret, t), w₂) ∧ t.dat.ret = retlen ∧
    ∀ i < retlen, t.datbuf i = data i

def OobFits (nm : NmbmMtd D) (addr : Nat) (ops : OobOps) : Prop :=
  ops.ooboffs < nm.maxooblen ops.mode ∧
    ops.oob.pages (nm.maxooblen ops.mode) ≤ (nm.dat addr ops).pages nm.nld.writesize

def NmbmMtd.startRead (nm : NmbmMtd D) (addr : Nat) (ops : OobOps) (cache : MtdCache) :
    MtdRead where
  cache := cache
  datbuf := ops.datbuf.getD fun _ => 0
  oobbuf := ops.oobbuf.getD fun _ => 0
  dat := nm.dat addr ops
  oob := ops.oob
  hasEccErr := false
  maxBitflips := 0

theorem mtdReadData_eq (cache : MtdCache) (hlen : 0 < ops.len) :
    mtdReadData nm addr ops cache = mtdReadPages nm ops.mode true (ops.ooblen ≠ 0)
      (ops.len + ops.ooblen) (nm.pageAddr addr) (nm.startRead addr ops cache) := by
  have hdat : decide (ops.len ≠ 0) := decide_eq_true (by omega)
  rw [mtdReadData, hdat]
  rfl

theorem reads_agree_protected (hlen : 0 < ops.len)
    (hprot : w.ni.isProtected) : ReadsAgree nm addr ops cache w := by
  refine ⟨-erofs, ops.datbuf.getD fun _ => 0, 0, w, nm.startRead addr ops cache, w, ?_, ?_, rfl,
    fun i hi => absurd hi (Nat.not_lt_zero i)⟩
  · rw [readRange, bind_of_run (getNi_run w), if_pos hprot]
    rfl
  have hsingle : readSinglePage nm.nld (nm.pageAddr addr) true (ops.ooblen ≠ 0) ops.mode w =
      some ((-erofs, none), w) := by
    rw [readSinglePage, bind_of_run (getNi_run w), if_pos hprot]
    rfl
  have hleft : ¬((nm.startRead addr ops cache).dat.len = 0 ∧
      (nm.startRead addr ops cache).oob.len = 0) :=
    fun hzero => absurd hzero.1 (Nat.pos_iff_ne_zero.mp hlen)
  obtain ⟨n, hn⟩ : ∃ n, ops.len + ops.ooblen = n + 1 :=
    Nat.exists_eq_succ_of_ne_zero (by omega)
  rw [mtdReadData_eq cache hlen, hn, mtdReadPages_page hleft hsingle]
  rfl

theorem reads_agree (hblind : OobBlind nm.nld.readPage)
    (hws : 0 < nm.nld.writesize) (h64 : nm.size w.ni < 18446744073709551616)
    (hfit : addr + ops.len ≤ nm.size w.ni) (hoob : OobFits nm addr ops) (hlen : 0 < ops.len)
    (h32 : addr < 4294967296) : ReadsAgree nm addr ops cache w := by
  by_cases hprot : w.ni.isProtected = true
  · exact reads_agree_protected hlen hprot
  have hsum : add64 addr ops.len = addr + ops.len :=
    Nat.mod_eq_of_lt (hfit.trans_lt h64)
  unfold NmbmMtd.size at hfit
  have hstart : InStep nm ops.mode addr ops.len
      ⟨ops.datbuf.getD fun _ => 0, 0, 0, false, 0⟩ (nm.startRead addr ops cache) :=
    ⟨fun _ => rfl, rfl, rfl, fun i hi => absurd hi (Nat.not_lt_zero i), rfl, rfl,
      fun hret => absurd hret.1 (Int.lt_irrefl 0), hoob.1, hoob.2⟩
  obtain ⟨s, w₁, t, w₂, hrange, hdat, hretlen, hdata⟩ := reads_in_step hblind hws
    (ops.ooblen ≠ 0) ops.len (ops.len + ops.ooblen) addr ops.len (nm.pageAddr addr) _ _ w
    w.ni.pageCache (Bool.not_eq_true _ ▸ hprot) le_rfl (Nat.le_add_right _ _) hfit
    (fun _ => nm.pageAddr_eq h32) hstart
  refine ⟨s.result, s.data, s.retlen, w₁, t, w₂, ?_, ?_, hretlen, hdata⟩
  · rw [readRange, bind_of_run (getNi_run w), if_neg hprot, if_neg (by omega),
      if_neg (by omega), if_neg (by omega), bind_of_run hrange, ReadState.result]
    split
    · rfl
    · split <;> rfl
  · rw [mtdReadData_eq cache hlen]
    exact hdat

/-! ## Above 4 GiB -/

theorem readRangeLoop_keeps (n off sizeremain : Nat) (s : ReadState) (w : World D) :
    Post (readRangeLoop nld mode n off sizeremain s)
      (fun s' _ => s.retlen ≤ s'.retlen ∧ ∀ i < s.retlen, s'.data i = s.data i) w := by
  induction n generalizing off sizeremain s w with
  | zero => exact post_pure.mpr ⟨le_refl _, fun _ _ => rfl⟩
  | succ n ih =>
    simp only [readRangeLoop, post_ite, post_pure, post_bind]
    refine ⟨fun _ => ⟨le_refl _, fun _ _ => trivial⟩, fun _ => .of_forall fun r w1 =>
      .of_forall fun page w2 => ⟨fun _ => ⟨le_refl _, fun _ _ => trivial⟩, fun _ => ?_⟩⟩
    refine (ih _ _ _ w2).mono ?_
    rintro s' _ ⟨hle, hdata⟩
    refine ⟨le_trans (Nat.le_add_right _ _) hle, fun i hi => ?_⟩
    rw [hdata i (Nat.lt_add_right _ hi)]
    exact memcpy_outside (.inl hi)

theorem MtdRead.move_keeps (t : MtdRead) (cache : MtdCache) (ret : Int) :
    t.dat.ret ≤ (t.move nm mode cache ret).dat.ret ∧
      ∀ i < t.dat.ret, (t.move nm mode cache ret).datbuf i = t.datbuf i := by
  simp only [move, Stream.next, Stream.take]
  split
  · exact ⟨Nat.le_add_right _ _, fun i hi => memcpy_outside (.inl hi)⟩
  · exact ⟨le_refl _, fun _ _ => rfl⟩

theorem mtdReadPages_keeps (hasDat hasOob : Bool) (n addr : Nat) (t : MtdRead) (w : World D) :
    Post (mtdReadPages nm mode hasDat hasOob n addr t)
      (fun r _ => t.dat.ret ≤ r.2.dat.ret ∧ ∀ i < t.dat.ret, r.2.datbuf i = t.datbuf i) w := by
  induction n generalizing addr t w with
  | zero => exact post_pure.mpr ⟨le_refl _, fun _ _ => rfl⟩
  | succ n ih =>
    simp only [mtdReadPages, post_ite, post_pure, post_bind]
    refine ⟨fun _ => ⟨le_refl _, fun _ _ => trivial⟩, fun _ => .of_forall fun r w1 =>
      ⟨fun _ => ⟨le_refl _, fun _ _ => trivial⟩, fun _ => ?_⟩⟩
    refine (ih _ _ w1).mono ?_
    rintro r' _ ⟨hle, hdata⟩
    obtain ⟨hle', hdata'⟩ := t.move_keeps (t.cache.fill nm mode hasDat hasOob r.2) r.1
    exact ⟨hle'.trans hle, fun i hi =>
      (hdata i (hi.trans_le hle')).trans (hdata' i hi)⟩

def markedPage (a addr : Nat) : PageRead :=
  ⟨0, fun _ => if addr = a then 1 else 0, fun _ => 0⟩

def markedReads (a : Nat) : Nat → Bool → Bool → OobMode → D → PageRead × D :=
  fun addr _ _ _ d => (markedPage a addr, d)

theorem readLogicPage_marked {p : Nat} (hreads : nld.readPage = markedReads a) (buf oob : Bool)
    (hphys : physAddr nld w.ni p = some p) :
    readLogicPage nld p buf oob mode w = some ((0, some (markedPage a p)), w) := by
  have hpage : nld.readPage p buf oob mode w.dev = (markedPage a p, w.dev) := by
    rw [hreads]
    rfl
  have hread := readLogicPage_of_ok hphys (by rw [hpage]; exact Int.le_refl 0)
  rw [hpage] at hread
  exact hread

def Instance.plain (ni : Instance) : Instance :=
  { ni with
    isProtected := false
    blockMapping := BitVec.ofNat 32
    blockState := fun _ => 0xffffffff }

theorem physAddr_plain {ni : Instance} (hba : nld.addr2ba a < 2147483648) :
    physAddr nld ni.plain a = some a := by
  have hstate : ∀ k < 16, ((0xffffffff#32 >>> (k * 2)) &&& 3#32) ≠ 0#32 := by decide
  have hgood : ni.plain.getBlockState (nld.addr2ba a) ≠ BLOCK_ST_BAD :=
    hstate _ (Nat.mod_lt _ (by decide))
  have htoNat : (BitVec.ofNat 32 (nld.addr2ba a)).toNat = nld.addr2ba a := by
    rw [BitVec.toNat_ofNat]
    omega
  have htoInt : ¬(BitVec.ofNat 32 (nld.addr2ba a)).toInt < 0 := by
    rw [BitVec.toInt_eq_toNat_of_lt (by omega)]
    omega
  have haddr : nld.ba2addr (nld.addr2ba a) + a % nld.erasesize = a := Nat.div_add_mod' a _
  change (if (BitVec.ofNat 32 (nld.addr2ba a)).toInt < 0 then none
    else if ni.plain.getBlockState (BitVec.ofNat 32 (nld.addr2ba a)).toNat = BLOCK_ST_BAD then none
    else some (nld.ba2addr (BitVec.ofNat 32 (nld.addr2ba a)).toNat + a % nld.erasesize)) = _
  rw [if_neg htoInt, htoNat, if_neg hgood, haddr]

theorem readRangeLoop_first (hws : 0 < nld.writesize) (hreads : nld.readPage = markedReads a)
    (hphys : physAddr nld w.ni (off - off % nld.writesize) = some (off - off % nld.writesize))
    (hrem : 0 < sizeremain) (hret : s.retlen = 0) :
    Post (readRangeLoop nld mode (n + 1) off sizeremain s) (fun s' _ => 0 < s'.retlen ∧
      s'.data 0 = if off - off % nld.writesize = a then 1 else 0) w := by
  have hlt := Nat.mod_lt off hws
  obtain ⟨bytes, c, hstage, hbytes⟩ := stageRead_run nld
    (min (nld.writesize - off % nld.writesize) sizeremain)
    (markedPage a (off - off % nld.writesize)) w
  intro s' w' hrun
  rw [readRangeLoop_page (Nat.pos_iff_ne_zero.mp hrem)
    (readLogicPage_marked hreads true false hphys) hstage] at hrun
  obtain ⟨hle, hdata⟩ := readRangeLoop_keeps _ _ _ _ _ s' w' hrun
  simp only [ReadState.moved] at hle hdata
  refine ⟨by omega, ?_⟩
  rw [hdata 0 (by omega), memcpy_inside (by omega), hbytes _ (by omega)]
  rfl

theorem readRange_first {buf : Buffer} (hws : 0 < nld.writesize)
    (hreads : nld.readPage = markedReads a) (hprot : w.ni.isProtected = false)
    (h64 : nld.ba2addr w.ni.dataBlockCount < 18446744073709551616)
    (hfit : addr + sizeremain ≤ nld.ba2addr w.ni.dataBlockCount) (hrem : 0 < sizeremain)
    (hphys : physAddr nld w.ni (addr - addr % nld.writesize) =
      some (addr - addr % nld.writesize)) :
    Post (readRange nld addr sizeremain buf mode) (fun r _ => 0 < r.2.2 ∧
      r.2.1 0 = if addr - addr % nld.writesize = a then 1 else 0) w := by
  have hsum : add64 addr sizeremain = addr + sizeremain :=
    Nat.mod_eq_of_lt (hfit.trans_lt h64)
  obtain ⟨n, rfl⟩ := Nat.exists_eq_succ_of_ne_zero (Nat.pos_iff_ne_zero.mp hrem)
  rw [readRange, post_bind, post_of_run (getNi_run w), hprot, if_neg Bool.false_ne_true,
    if_neg (by omega), if_neg (by omega), if_neg (by omega), post_bind]
  refine (readRangeLoop_first hws hreads hphys hrem rfl).mono fun s _ hs => ?_
  simp only [post_ite, post_pure]
  exact ⟨fun _ => hs, fun _ => ⟨fun _ => hs, fun _ => hs⟩⟩

theorem mtdReadPages_first {hasOob : Bool}
    (hreads : nm.nld.readPage = markedReads a) (hprot : w.ni.isProtected = false)
    (hin : addr < nm.nld.ba2addr w.ni.dataBlockCount)
    (hphys : physAddr nm.nld w.ni addr = some addr) (hlen : 0 < t.dat.len)
    (hoffs : t.dat.offs < nm.nld.writesize) (hret : t.dat.ret = 0) :
    Post (mtdReadPages nm mode true hasOob (n + 1) addr t) (fun r _ => 0 < r.2.dat.ret ∧
      r.2.datbuf 0 = if addr = a then 1 else 0) w := by
  have hread : readSinglePage nm.nld addr true hasOob mode w =
      some ((0, some (markedPage a addr)), w) :=
    (readSinglePage_eq hprot true hasOob hin).trans (readLogicPage_marked hreads _ _ hphys)
  have hleft : ¬(t.dat.len = 0 ∧ t.oob.len = 0) := by omega
  intro r w' hrun
  rw [mtdReadPages_page hleft hread] at hrun
  obtain ⟨hle, hdata⟩ := mtdReadPages_keeps _ _ _ _ _ _ r w' hrun
  have hnext : (t.dat.next nm.nld.writesize).ret =
      min (nm.nld.writesize - t.dat.offs) t.dat.len := by
    rw [Stream.next, if_pos (by omega), hret, zero_add]
    rfl
  simp only [MtdRead.move] at hle hdata
  refine ⟨by omega, ?_⟩
  rw [hdata 0 (by omega), Stream.take, if_pos (by omega), Stream.chklen, memcpy_inside (by omega)]
  refine (memcpy_inside (by omega)).trans rfl

theorem NmbmMtd.pageAddr_lt (nm : NmbmMtd D) (hws : 0 < nm.nld.writesize)
    (h : 4294967296 ≤ addr) : nm.pageAddr addr < addr - addr % nm.nld.writesize := by
  have hle : nm.pageAddr addr ≤ addr % 4294967296 := Nat.div_mul_le_self _ _
  have hlt := Nat.mod_lt addr hws
  have hsmall := nm.nld.small
  omega

theorem markedReads_blind (a : Nat) : OobBlind (markedReads a : _ → _ → _ → _ → D → _) :=
  fun _ _ _ _ => ⟨rfl, rfl, rfl⟩

theorem not_agree_empty (hzero : ops.len = 0)
    (hoob : OobFits nm addr ops) (hprot : w.ni.isProtected) :
    ¬ReadsAgree nm addr ops cache w := by
  rintro ⟨ret, data, retlen, w₁, t, w₂, hrange, hdat, -⟩
  have hempty : (nm.dat addr ops).pages nm.nld.writesize = 0 := if_pos hzero
  have hooblen : ops.oob.len = 0 := Stream.len_eq_zero hoob.1 (Nat.le_zero.mp (hempty ▸ hoob.2))
  rw [readRange, bind_of_run (getNi_run w), if_pos hprot] at hrange
  rw [mtdReadData, mtdReadPages_ended _ _ _ _ _ ⟨hzero, hooblen⟩] at hdat
  cases hrange
  have hret : (0 : Int) = -erofs := congrArg (fun r => r.1.1) (Option.some.inj hdat)
  exact absurd hret (by decide)

theorem not_agree_above (hws : 0 < nm.nld.writesize)
    (hreads : nm.nld.readPage = markedReads (addr - addr % nm.nld.writesize))
    (hprot : w.ni.isProtected = false) (h64 : nm.size w.ni < 18446744073709551616)
    (hfit : addr + ops.len ≤ nm.size w.ni)
    (hphys : ∀ a < nm.size w.ni, physAddr nm.nld w.ni a = some a)
    (hlen : 0 < ops.len) (h32 : 4294967296 ≤ addr) : ¬ReadsAgree nm addr ops cache w := by
  rintro ⟨ret, data, retlen, w₁, t, w₂, hrange, hdat, hretlen, hbytes⟩
  have hbelow := nm.pageAddr_lt hws h32
  have hlow : nm.pageAddr addr < nm.size w.ni := by omega
  obtain ⟨hpos, hone⟩ := readRange_first hws hreads hprot h64 hfit hlen (hphys _ (by omega)) _ _
    hrange
  obtain ⟨n, hn⟩ : ∃ n, ops.len + ops.ooblen = n + 1 := Nat.exists_eq_succ_of_ne_zero (by omega)
  rw [mtdReadData_eq cache hlen, hn] at hdat
  obtain ⟨-, hzero⟩ := mtdReadPages_first hreads hprot hlow (hphys _ hlow) hlen
    (Nat.mod_lt addr hws) rfl _ _ hdat
  simp only [if_true] at hpos hone hzero
  rw [if_neg (ne_of_lt hbelow), hbytes 0 hpos, hone] at hzero
  exact absurd hzero (by decide)

theorem plain_own_address {ni : Instance} (hcount : ni.dataBlockCount ≤ nld.blockCount)
    (ha : a < nld.ba2addr ni.dataBlockCount) : physAddr nld ni.plain a = some a := by
  have hes := erasesize_pos ha
  have hba : nld.addr2ba a < ni.dataBlockCount := (Nat.div_lt_iff_lt_mul hes).mpr ha
  have hsmall := nld.small
  unfold Lower.blockCount at hcount
  exact physAddr_plain (by omega)

/-- The two ways to read agree, whatever the outcome of each page and the state of the instance,
exactly for a range that is not empty and starts below 4 GiB. -/
theorem read_paths_agree_iff (nm : NmbmMtd D) (addr : Nat) (ops : OobOps) (cache : MtdCache)
    (w : World D) (hws : 0 < nm.nld.writesize)
    (hcount : w.ni.dataBlockCount ≤ nm.nld.blockCount)
    (h64 : nm.size w.ni < 18446744073709551616) (hfit : addr + ops.len ≤ nm.size w.ni)
    (hoob : OobFits nm addr ops) :
    (∀ readPage ni, OobBlind readPage → ni.dataBlockCount = w.ni.dataBlockCount →
      ReadsAgree (nm.withReads readPage) addr ops cache { w with ni := ni }) ↔
      0 < ops.len ∧ addr < 4294967296 := by
  constructor
  · intro h
    have hlen : 0 < ops.len := by
      apply Nat.pos_of_ne_zero
      intro hzero
      have hagree := h (markedReads 0) { w.ni with isProtected := true } (markedReads_blind 0) rfl
      exact absurd hagree (not_agree_empty hzero hoob rfl)
    refine ⟨hlen, not_le.mp fun h32 => ?_⟩
    have hagree := h (markedReads (addr - addr % nm.nld.writesize)) w.ni.plain
      (markedReads_blind _) rfl
    exact absurd hagree (not_agree_above hws rfl rfl h64 hfit
      (fun a ha => plain_own_address hcount ha) hlen h32)
  · rintro ⟨hlen, h32⟩ readPage ni hblind hni
    have hsize : (nm.withReads readPage).size ni = nm.size w.ni := by
      rw [NmbmMtd.size, hni]
      rfl
    exact reads_agree hblind hws (hsize ▸ h64) (hsize ▸ hfit) hoob hlen h32

/-! ## A chip of 8 GiB -/

def bigChip : Lower Unit where
  maxRatio := 1
  maxReservedBlocks := 256
  create := true
  emptyPageEccOk := false
  readOnly := false
  size := 8589934592
  erasesize := 16777216
  writesize := 4096
  oobsize := 64
  bigEndian := false
  resetChip := id
  readPage addr _ _ _ d := (⟨0, fun _ => if addr < 4294967296 then 0 else 1, fun _ => 0⟩, d)
  writePage _ _ _ _ d := (0, d)
  eraseBlock _ d := (0, d)
  isBadBlock := none
  markBadBlock := none
  page_dvd := by decide
  block_le := by decide
  small := by decide

def bigMtd : NmbmMtd Unit := ⟨bigChip, 32, by decide⟩

def bigWorld : World Unit where
  dev := ()
  ni := { (fullInstance BLOCK_ST_GOOD).plain with dataBlockCount := 480 }
  mainTableEnd := 0
  backupTableEnd := 0
  log := []
  failed := []

/-- Address 4 GiB is read as address 0 when OOB is wanted as well. -/
theorem read_wraps :
    (checkLowerMembers bigChip).isSome = true ∧ bigWorld.ni.dataBlockCount ≤ bigChip.blockCount ∧
      4294967296 + (byteOps 4).len ≤ bigMtd.size bigWorld.ni ∧
      OobBlind bigChip.readPage ∧ OobFits bigMtd 4294967296 (byteOps 4) ∧
      ¬ReadsAgree bigMtd 4294967296 (byteOps 4) noCache bigWorld := by
  refine ⟨by decide +kernel, by decide, by decide, fun _ _ _ _ => ⟨rfl, rfl, rfl⟩,
    ⟨by decide, by decide⟩, ?_⟩
  rintro ⟨ret, data, retlen, w₁, t, w₂, hrange, hdat, -, hbytes⟩
  have hone : ∀ r ∈ readRange bigChip 4294967296 1 (fun _ => 0x55) .placeOob bigWorld,
      r.1.2.2 = 1 ∧ r.1.2.1 0 = 1 := by decide +kernel
  have hzero : ∀ r ∈ mtdReadData bigMtd 4294967296 (byteOps 4) noCache bigWorld,
      r.1.2.datbuf 0 = 0 := by decide +kernel
  obtain ⟨hretlen, hdata⟩ := hone _ hrange
  have hpos : 0 < retlen := Nat.lt_of_lt_of_eq Nat.one_pos hretlen.symm
  have hbyte := (hzero _ hdat).symm.trans ((hbytes 0 hpos).trans hdata)
  exact absurd hbyte (by decide)

theorem read_below : ReadsAgree bigMtd 0 (byteOps 4) noCache bigWorld := by
  have hagree := (read_paths_agree_iff bigMtd 0 (byteOps 4) noCache bigWorld (by decide)
    (by decide) (by decide) (by decide) ⟨by decide, by decide⟩).mpr ⟨by decide, by decide⟩
  exact hagree bigChip.readPage bigWorld.ni (fun _ _ _ _ => ⟨rfl, rfl, rfl⟩) rfl

end OpenWrt.Nmbm
