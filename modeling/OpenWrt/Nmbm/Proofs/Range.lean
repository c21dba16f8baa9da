import OpenWrt.Nmbm.Proofs.Unmapped

/-!
# Writing a range

`nmbm_write_range` stages the partial pages of a range in `page_cache`.  It fills the bytes in
front of the range, but not those behind it: they keep what `page_cache` held, which is the
first page of the range if that one was partial too.  So the pages handed to the chip, and
what is read back from them, are right exactly when no other byte than 0xff stood there.
-/

namespace OpenWrt.Nmbm

open Lib Lib.Prog

variable {D : Type} {nld : Lower D} {fuel n off ptr sizeremain addr size : Nat}
  {data cache : Buffer} {mode : OobMode} {mem : D → Buffer} {w w' : World D}
variable {ni : Instance} {a p i b : Nat}

/-! ## The pages handed to the chip -/

theorem getNi_run (w : World D) : getNi w = some (w.ni, w) := rfl

/-- The page at `addr` is on the chip, so it is handed on. -/
def handed (nld : Lower D) (ni : Instance) (addr : Nat) (page : Buffer) : List (Nat × Buffer) :=
  if (physAddr nld ni addr).isSome then [(addr, page)] else []

theorem mem_handed {page : Buffer} {p : Nat × Buffer}
    (h : p ∈ handed nld ni a page) : p = (a, page) := by
  unfold handed at h
  split at h
  · exact List.mem_singleton.mp h
  · cases h

/-- The loop of `nmbm_write_range` with the pages that it hands to the lower `write_page`. -/
def writeRangeTraced (nld : Lower D) (fuel : Nat) (data : Buffer) (mode : OobMode) :
    Nat → (off ptr sizeremain : Nat) → M D (List (Nat × Buffer) × Int × Nat)
  | 0, _, _, sizeremain => pure ([], 0, sizeremain)
  | n + 1, off, ptr, sizeremain =>
    if sizeremain = 0 then pure ([], 0, sizeremain)
    else do
      let leading := off % nld.writesize
      let chunksize := min (nld.writesize - leading) sizeremain
      let page ← stageWrite nld data ptr leading chunksize
      let ni ← getNi
      let ret ← writeLogicPage nld fuel (off - leading) (some page) none mode
      if ret ≠ 0 then pure (handed nld ni (off - leading) page, ret, sizeremain)
      else do
        let r ← writeRangeTraced nld fuel data mode n (off + chunksize) (ptr + chunksize)
          (sizeremain - chunksize)
        pure (handed nld ni (off - leading) page ++ r.1, r.2)

theorem writeRangeLoop_eq (data : Buffer) (mode : OobMode) (n off ptr sizeremain : Nat) :
    writeRangeLoop nld fuel data mode n off ptr sizeremain = (do
      let r ← writeRangeTraced nld fuel data mode n off ptr sizeremain
      pure r.2) := by
  induction n generalizing off ptr sizeremain with
  | zero => rfl
  | succ n ih =>
    simp only [writeRangeLoop, writeRangeTraced, ih]
    split
    · simp
    simp only [bind_assoc]
    congr 1
    funext page w
    -- The instance is read only for the trace.
    rw [bind_of_run (getNi_run _)]
    refine congrFun (congrArg _ ?_) w
    funext ret
    split <;> simp

/-! ## Their bytes -/

/-- A partial page in `page_cache`: the bytes in front of it are filled, those behind it are not. -/
def stagedPage (cache data : Buffer) (ptr leading chunksize : Nat) : Buffer :=
  memcpy (memset cache 0 0xff leading) leading data ptr chunksize

/-- What stands in `page_cache` behind the data when the page at `a` is staged. -/
def staleCache (nld : Lower D) (data cache : Buffer) (off ptr a : Nat) : Buffer :=
  if off % nld.writesize ≠ 0 ∧ off < a then
    stagedPage cache data ptr (off % nld.writesize) (nld.writesize - off % nld.writesize)
  else cache

/-- Byte `i` of the page at `a` of a range that is written from `off` on. -/
def pageByte (nld : Lower D) (data cache : Buffer) (off ptr sizeremain a i : Nat) : UInt8 :=
  if off ≤ a + i ∧ a + i < off + sizeremain then data (ptr + (a + i - off))
  else if a + i < off then 0xff
  else staleCache nld data cache off ptr a i

def Touched (nld : Lower D) (off sizeremain a : Nat) : Prop :=
  nld.writesize ∣ a ∧ 0 < sizeremain ∧ off < a + nld.writesize ∧ a < off + sizeremain

/-- The page that is staged for `chunksize` bytes, in `page_cache` unless it is a full one. -/
def chunkPage (nld : Lower D) (cache data : Buffer) (ptr leading chunksize : Nat) : Buffer :=
  if chunksize = nld.writesize then fun a => data (ptr + a)
  else stagedPage cache data ptr leading chunksize

def chunkCache (nld : Lower D) (cache data : Buffer) (ptr leading chunksize : Nat) : Buffer :=
  if chunksize = nld.writesize then cache else stagedPage cache data ptr leading chunksize

def World.cached (w : World D) (cache : Buffer) : World D :=
  { w with ni := { w.ni with pageCache := cache } }

def World.onDev (w : World D) (d : D) : World D := { w with dev := d }

theorem stageWrite_run (nld : Lower D) (data : Buffer) (ptr leading chunksize : Nat)
    (w : World D) :
    stageWrite nld data ptr leading chunksize w =
      some (chunkPage nld w.ni.pageCache data ptr leading chunksize,
        w.cached (chunkCache nld w.ni.pageCache data ptr leading chunksize)) := by
  unfold stageWrite chunkPage chunkCache
  split <;> rfl

theorem retry_lower_ni {α : Type} {ok : α → Bool} (f : D → α × D) (n : Nat) (w : World D) :
    Post (retry nld ok (lower f) n) (fun _ w' => w'.ni = w.ni) w := by
  induction n generalizing w <;>
    simp only [retry, resetChip, lower, post_bind, post_call, post_ite, post_pure]
  · exact ⟨fun _ => trivial, fun _ => trivial⟩
  · rename_i ih
    exact ⟨fun _ => trivial, fun _ => ih _⟩

theorem writeLogicPage_written (a : Nat) (page oob : Option Buffer) (w : World D) :
    Post (writeLogicPage nld fuel a page oob mode)
      (fun ret w' => ret = 0 → (physAddr nld w.ni a).isSome ∧ w'.ni = w.ni) w := by
  simp only [writeLogicPage, getNi, post_bind, post_read]
  split
  · exact post_pure.mpr fun h => absurd h (by decide)
  rename_i paddr hphys
  simp only [writePhysPage, post_bind, post_ite, post_pure]
  refine ⟨fun _ => ⟨fun h => absurd h (by decide), fun _ => ?_⟩, fun _ => ?_⟩
  · exact .of_forall fun _ _ => .of_forall fun _ _ h => absurd h (by decide)
  · refine (retry_lower_ni _ _ w).mono fun ret w1 h1 => ?_
    refine ⟨fun _ _ => ⟨by rw [hphys]; rfl, h1⟩, fun _ => ?_⟩
    exact .of_forall fun _ _ => .of_forall fun _ _ h => absurd h (by decide)

section

variable (hws : 0 < nld.writesize)

include hws

theorem dvd_next_page : nld.writesize ∣ off + (nld.writesize - off % nld.writesize) := by
  have hle := Nat.mod_le off nld.writesize
  have hlt := Nat.mod_lt off hws
  have hsum : off + (nld.writesize - off % nld.writesize) =
      off - off % nld.writesize + nld.writesize := by omega
  rw [hsum]
  exact Nat.dvd_add (Nat.dvd_sub_mod off) (Nat.dvd_refl _)

theorem pageByte_first (hi : i < nld.writesize) :
    chunkPage nld cache data ptr (off % nld.writesize)
        (min (nld.writesize - off % nld.writesize) sizeremain) i =
      pageByte nld data cache off ptr sizeremain (off - off % nld.writesize) i := by
  have hle := Nat.mod_le off nld.writesize
  have hstale : staleCache nld data cache off ptr (off - off % nld.writesize) = cache :=
    if_neg (by omega)
  unfold pageByte chunkPage
  rw [hstale]
  generalize off % nld.writesize = leading at *
  split
  · rw [if_pos (by omega)]
    congr 1
    omega
  · have hin : (leading ≤ i ∧ i < leading + min (nld.writesize - leading) sizeremain) ↔
        off ≤ off - leading + i ∧ off - leading + i < off + sizeremain := by omega
    have hfront : (0 ≤ i ∧ i < 0 + leading) ↔ off - leading + i < off := by omega
    have hsrc : i - leading = off - leading + i - off := by omega
    simp only [stagedPage, memcpy, memset, hin, hfront, hsrc]

theorem pageByte_rest (hmore : nld.writesize - off % nld.writesize < sizeremain)
    (ha : off + (nld.writesize - off % nld.writesize) ≤ a) :
    pageByte nld data
        (chunkCache nld cache data ptr (off % nld.writesize)
          (nld.writesize - off % nld.writesize))
        (off + (nld.writesize - off % nld.writesize)) (ptr + (nld.writesize - off % nld.writesize))
        (sizeremain - (nld.writesize - off % nld.writesize)) a i =
      pageByte nld data cache off ptr sizeremain a i := by
  have hlt := Nat.mod_lt off hws
  have haligned : (off + (nld.writesize - off % nld.writesize)) % nld.writesize = 0 :=
    Nat.mod_eq_zero_of_dvd (dvd_next_page hws)
  have hstale : ∀ c : Buffer, staleCache nld data c (off + (nld.writesize - off % nld.writesize))
      (ptr + (nld.writesize - off % nld.writesize)) a = c :=
    fun c => if_neg (fun h => h.1 haligned)
  unfold pageByte
  rw [hstale, chunkCache, staleCache]
  generalize off % nld.writesize = leading at *
  have hin : (off + (nld.writesize - leading) ≤ a + i ∧ a + i < off + (nld.writesize - leading) +
      (sizeremain - (nld.writesize - leading))) ↔ off ≤ a + i ∧ a + i < off + sizeremain := by omega
  have hfront : a + i < off + (nld.writesize - leading) ↔ a + i < off := by omega
  have hsrc : ptr + (nld.writesize - leading) + (a + i - (off + (nld.writesize - leading))) =
      ptr + (a + i - off) := by omega
  have hstaged : (leading ≠ 0 ∧ off < a) ↔ ¬nld.writesize - leading = nld.writesize := by omega
  simp only [hin, hfront, hsrc, hstaged, ite_not]

theorem Touched.behind (h : Touched nld (off + min (nld.writesize - off % nld.writesize) sizeremain)
      (sizeremain - min (nld.writesize - off % nld.writesize) sizeremain) a) :
    Touched nld off sizeremain a ∧ nld.writesize - off % nld.writesize < sizeremain ∧
      off + (nld.writesize - off % nld.writesize) ≤ a := by
  obtain ⟨hdvd, hpos, hlo, hhi⟩ := h
  have hmore : nld.writesize - off % nld.writesize < sizeremain := by omega
  refine ⟨⟨hdvd, by omega, by omega, by omega⟩, hmore, ?_⟩
  rw [min_eq_left hmore.le] at hlo
  exact Nat.le_of_lt_add_of_dvd hlo (dvd_next_page hws) hdvd

theorem touched_first (hrem : sizeremain ≠ 0) :
    Touched nld off sizeremain (off - off % nld.writesize) := by
  have hlt := Nat.mod_lt off hws
  exact ⟨Nat.dvd_sub_mod off, by omega, by omega, by omega⟩

theorem writeRangeTraced_bytes (n off ptr sizeremain : Nat) (w : World D) :
    Post (writeRangeTraced nld fuel data mode n off ptr sizeremain)
      (fun r _ => ∀ p ∈ r.1, Touched nld off sizeremain p.1 ∧ ∀ i < nld.writesize,
        p.2 i = pageByte nld data w.ni.pageCache off ptr sizeremain p.1 i) w := by
  induction n generalizing off ptr sizeremain w with
  | zero => exact post_pure.mpr fun p hp => absurd hp (by simp)
  | succ n ih =>
    simp only [writeRangeTraced, post_ite, post_bind, post_pure]
    refine ⟨fun _ p hp => absurd hp (by simp), fun hrem => ?_⟩
    rw [post_of_run (stageWrite_run _ _ _ _ _ w)]
    simp only [getNi, post_read]
    have hfirst : ∀ p ∈ handed nld w.ni (off - off % nld.writesize)
        (chunkPage nld w.ni.pageCache data ptr (off % nld.writesize)
          (min (nld.writesize - off % nld.writesize) sizeremain)),
        Touched nld off sizeremain p.1 ∧ ∀ i < nld.writesize,
          p.2 i = pageByte nld data w.ni.pageCache off ptr sizeremain p.1 i := by
      intro p hp
      obtain rfl := mem_handed hp
      exact ⟨touched_first hws hrem, fun i hi => pageByte_first hws hi⟩
    refine (writeLogicPage_written _ _ _ _).mono fun ret w2 h2 => ?_
    refine ⟨fun _ => hfirst, fun hret => ?_⟩
    rw [not_not] at hret
    refine (ih _ _ _ w2).mono fun r _ hr p hp => ?_
    rcases List.mem_append.mp hp with hp | hp
    · exact hfirst p hp
    · obtain ⟨htouched, hbytes⟩ := hr p hp
      obtain ⟨htouched, hmore, hbehind⟩ := htouched.behind hws
      refine ⟨htouched, fun i hi => ?_⟩
      rw [hbytes i hi, (h2 hret).2, min_eq_left hmore.le]
      exact pageByte_rest hws hmore hbehind

/-! ## A chip that does not fail -/

/-- No read or write fails, and an erased page takes what is written to it. -/
structure Perfect (nld : Lower D) (mem : D → Buffer) : Prop extends Lawful nld mem where
  writes : ∀ addr page mode d, (nld.writePage addr (some page) none mode d).1 = 0
  programs : ∀ addr page mode d, (∀ i < nld.writesize, mem d (addr + i) = 0xff) →
    ∀ i < nld.writesize, mem (nld.writePage addr (some page) none mode d).2 (addr + i) = page i
  reads : ∀ addr mode d, 0 ≤ (nld.readPage addr true false mode d).1.ret
  readsData : ∀ addr mode d, ∀ i < nld.writesize,
    (nld.readPage addr true false mode d).1.data i = mem d (addr + i)

structure Blank (nld : Lower D) (mem : D → Buffer) (w : World D) (off sizeremain : Nat) : Prop where
  usable : ∀ a, Touched nld off sizeremain a → ∃ p, physAddr nld w.ni a = some p
  apart : ∀ a b p q, Touched nld off sizeremain a → Touched nld off sizeremain b →
    physAddr nld w.ni a = some p → physAddr nld w.ni b = some q → a ≠ b →
      p + nld.writesize ≤ q ∨ q + nld.writesize ≤ p
  erased : ∀ a p, Touched nld off sizeremain a → physAddr nld w.ni a = some p →
    ∀ i < nld.writesize, mem w.dev (p + i) = 0xff

omit hws in
theorem retry_of_ok {α : Type} {ok : α → Bool} {f : D → α × D} (n : Nat) {w : World D}
    (h : ok (f w.dev).1) :
    retry nld ok (lower f) n w = some ((f w.dev).1, w.onDev (f w.dev).2) := by
  have hop : lower f w = some ((f w.dev).1, w.onDev (f w.dev).2) := rfl
  cases n with
  | zero | succ n =>
    rw [retry, bind_of_run hop, if_pos h]
    rfl

omit hws in
theorem writeLogicPage_perfect (hp : Perfect nld mem) (hrw : nld.readOnly = false)
    (hphys : physAddr nld w.ni a = some p) (page : Buffer) :
    writeLogicPage nld fuel a (some page) none mode w =
      some (0, w.onDev (nld.writePage p (some page) none mode w.dev).2) := by
  have hret := hp.writes p page mode w.dev
  have hphysPage : writePhysPage nld p (some page) none mode w =
      some (true, w.onDev (nld.writePage p (some page) none mode w.dev).2) := by
    rw [writePhysPage, hrw, if_neg Bool.false_ne_true,
      bind_of_run (retry_of_ok _ (by rw [hret]; rfl)), hret]
    rfl
  rw [writeLogicPage, bind_of_run (getNi_run _), hphys]
  simp only
  rw [bind_of_run hphysPage]
  rfl

omit hws in
theorem readLogicPage_of_ok {buf oob : Bool} (hphys : physAddr nld w.ni a = some p)
    (hret : 0 ≤ (nld.readPage p buf oob mode w.dev).1.ret) :
    readLogicPage nld a buf oob mode w =
      some (((nld.readPage p buf oob mode w.dev).1.ret,
        some (nld.readPage p buf oob mode w.dev).1),
        w.onDev (nld.readPage p buf oob mode w.dev).2) := by
  have hphysPage : readPhysPage nld p buf oob mode w = _ := retry_of_ok _ (decide_eq_true hret)
  rw [readLogicPage, bind_of_run (getNi_run _), hphys]
  simp only
  rw [bind_of_run hphysPage]
  rfl

theorem Touched.cases (h : Touched nld off sizeremain a) :
    a = off - off % nld.writesize ∨
      Touched nld (off + min (nld.writesize - off % nld.writesize) sizeremain)
        (sizeremain - min (nld.writesize - off % nld.writesize) sizeremain) a := by
  obtain ⟨hdvd, hpos, hlo, hhi⟩ := h
  have hfirst : off - off % nld.writesize ≤ a :=
    Nat.le_of_lt_add_of_dvd (by omega) (Nat.dvd_sub_mod off) hdvd
  rcases Nat.eq_or_lt_of_le hfirst with heq | hbehind
  · exact .inl heq.symm
  · have hnext : off + (nld.writesize - off % nld.writesize) ≤ a :=
      Nat.le_of_lt_add_of_dvd (by omega) (dvd_next_page hws) hdvd
    exact .inr ⟨hdvd, by omega, by omega, by omega⟩

omit hws in
theorem Blank.rest (hp : Perfect nld mem) (hws : 0 < nld.writesize) (hrem : sizeremain ≠ 0)
    (h : Blank nld mem w off sizeremain) (mode : OobMode) (page c : Buffer)
    (hphys : physAddr nld w.ni (off - off % nld.writesize) = some p) :
    Blank nld mem
      ((w.cached c).onDev (nld.writePage p (some page) none mode w.dev).2)
      (off + min (nld.writesize - off % nld.writesize) sizeremain)
      (sizeremain - min (nld.writesize - off % nld.writesize) sizeremain) where
  usable a ha := h.usable a (ha.behind hws).1
  apart a b p q ha hb := h.apart a b p q (ha.behind hws).1 (hb.behind hws).1
  erased a q ha hq i hi := by
    obtain ⟨htouched, -, hbehind⟩ := ha.behind hws
    have hlt := Nat.mod_lt off hws
    have hapart := h.apart _ _ _ _ (touched_first hws hrem) htouched hphys hq (by omega)
    exact (hp.write _ _ _ _ _ _ (by omega)).trans (h.erased a q htouched hq i hi)

omit hws in
theorem writeRangeTraced_perfect (hp : Perfect nld mem) (hrw : nld.readOnly = false)
    (hws : 0 < nld.writesize) (n off ptr sizeremain : Nat) (w : World D) (hn : sizeremain ≤ n)
    (hblank : Blank nld mem w off sizeremain) :
    ∃ pages c d, writeRangeTraced nld fuel data mode n off ptr sizeremain w =
        some ((pages, 0, 0), (w.cached c).onDev d) ∧
      (∀ x, (∀ a p, Touched nld off sizeremain a → physAddr nld w.ni a = some p →
        x < p ∨ p + nld.writesize ≤ x) → mem d x = mem w.dev x) ∧
      ∀ a p, Touched nld off sizeremain a → physAddr nld w.ni a = some p →
        ∃ page, (a, page) ∈ pages ∧ ∀ i < nld.writesize, mem d (p + i) = page i := by
  induction n generalizing off ptr sizeremain w with
  | zero =>
    obtain rfl : sizeremain = 0 := Nat.le_zero.mp hn
    exact ⟨[], w.ni.pageCache, w.dev, rfl, fun _ _ => rfl, fun a p ha =>
      absurd ha.2.1 (lt_irrefl 0)⟩
  | succ n ih =>
    by_cases hrem : sizeremain = 0
    · subst hrem
      exact ⟨[], w.ni.pageCache, w.dev, rfl, fun _ _ => rfl, fun a p ha =>
        absurd ha.2.1 (lt_irrefl 0)⟩
    · obtain ⟨p, hphys⟩ := hblank.usable _ (touched_first hws hrem)
      have hlt := Nat.mod_lt off hws
      have hstage := stageWrite_run nld data ptr (off % nld.writesize)
        (min (nld.writesize - off % nld.writesize) sizeremain) w
      generalize chunkPage nld w.ni.pageCache data ptr _ _ = page at hstage
      generalize chunkCache nld w.ni.pageCache data ptr _ _ = c at hstage
      have hwrite : writeLogicPage nld fuel (off - off % nld.writesize) (some page) none mode
          (w.cached c) = some (0, (w.cached c).onDev
            (nld.writePage p (some page) none mode w.dev).2) :=
        writeLogicPage_perfect (w := w.cached c) hp hrw hphys page
      have hrest := hblank.rest hp hws hrem mode page c hphys
      obtain ⟨pages, c', d, hrun, hframe, hstored⟩ := ih _
        (ptr + min (nld.writesize - off % nld.writesize) sizeremain) _ _ (by omega) hrest
      have hmem : (off - off % nld.writesize, page) ∈
          handed nld w.ni (off - off % nld.writesize) page := by
        rw [handed, hphys]
        exact List.mem_singleton_self _
      refine ⟨handed nld w.ni (off - off % nld.writesize) page ++ pages, c', d, ?_, ?_, ?_⟩
      · rw [writeRangeTraced, if_neg hrem, bind_of_run hstage, bind_of_run (getNi_run _),
          bind_of_run hwrite, if_neg (by simp), bind_of_run hrun]
        rfl
      · intro x hx
        rw [hframe x fun a q ha => hx a q (ha.behind hws).1]
        exact hp.write _ _ _ _ _ _ (hx _ p (touched_first hws hrem) hphys)
      · intro a q ha hq
        rcases ha.cases hws with rfl | hbehind
        · obtain rfl : p = q := Option.some.inj (hphys.symm.trans hq)
          refine ⟨page, List.mem_append_left _ hmem, fun i hi => ?_⟩
          rw [hframe]
          · exact hp.programs p page mode w.dev (hblank.erased _ p ha hphys) i hi
          · intro b q hb hq
            obtain ⟨hb, -, hle⟩ := hb.behind hws
            have hapart := hblank.apart _ _ _ _ ha hb hphys hq (by omega)
            omega
        · obtain ⟨page', hmem', hbytes⟩ := hstored a q hbehind hq
          exact ⟨page', List.mem_append_right _ hmem', hbytes⟩

omit hws in
theorem stageRead_run (nld : Lower D) (chunksize : Nat) (r : PageRead) (w : World D) :
    ∃ page c, stageRead nld chunksize (some r) w = some (page, w.cached c) ∧
      ∀ i < nld.writesize, page i = r.data i := by
  by_cases hfull : chunksize = nld.writesize
  · exact ⟨r.data, w.ni.pageCache, by rw [stageRead, if_pos hfull]; rfl, fun _ _ => rfl⟩
  · refine ⟨_, memcpy w.ni.pageCache 0 r.data 0 nld.writesize, by rw [stageRead, if_neg hfull]; rfl,
      fun i hi => ?_⟩
    exact (memcpy_inside ⟨Nat.zero_le i, by omega⟩).trans (by rw [Nat.zero_add, Nat.sub_zero])

def Holds (nld : Lower D) (mem : D → Buffer) (w : World D) (off sizeremain : Nat)
    (f : Buffer) : Prop :=
  ∀ a, Touched nld off sizeremain a → ∃ p, physAddr nld w.ni a = some p ∧
    ∀ i < nld.writesize, mem w.dev (p + i) = f (a + i)

def ReadState.moved (s : ReadState) (page : Buffer) (leading chunksize : Nat) (ret : Int) :
    ReadState where
  data := memcpy s.data s.retlen page leading chunksize
  retlen := s.retlen + chunksize
  ret := ret
  hasEccErr := s.hasEccErr || decide (ret = -ebadmsg)
  maxBitflips := max s.maxBitflips ret

omit hws in
theorem readRangeLoop_page {n off sizeremain : Nat} {s : ReadState} {ret : Int}
    {page : Option PageRead} {bytes : Buffer} {w₁ w₂ : World D} (hrem : sizeremain ≠ 0)
    (hread : readLogicPage nld (off - off % nld.writesize) true false mode w =
      some ((ret, page), w₁))
    (hstage : stageRead nld (min (nld.writesize - off % nld.writesize) sizeremain) page w₁ =
      some (bytes, w₂)) :
    readRangeLoop nld mode (n + 1) off sizeremain s w =
      if ret < 0 ∧ ret ≠ -ebadmsg then some ({ s with ret := ret }, w₂)
      else readRangeLoop nld mode n
        (off + min (nld.writesize - off % nld.writesize) sizeremain)
        (sizeremain - min (nld.writesize - off % nld.writesize) sizeremain)
        (s.moved bytes (off % nld.writesize)
          (min (nld.writesize - off % nld.writesize) sizeremain) ret) w₂ := by
  rw [readRangeLoop, if_neg hrem, bind_of_run hread]
  simp only
  rw [bind_of_run hstage]
  split <;> rfl

structure ReadState.Fine (s : ReadState) : Prop where
  ret : 0 ≤ s.ret
  ecc : s.hasEccErr = false
  bitflips : 0 ≤ s.maxBitflips

omit hws in
theorem ReadState.Fine.moved {s : ReadState} (h : s.Fine) (page : Buffer) (leading chunksize : Nat)
    {ret : Int} (hret : 0 ≤ ret) : (s.moved page leading chunksize ret).Fine where
  ret := hret
  ecc := by
    have hne : ret ≠ -ebadmsg := fun heq => absurd (heq ▸ hret) (by decide)
    simp [ReadState.moved, h.ecc, hne]
  bitflips := le_max_of_le_left h.bitflips

omit hws in
theorem readRangeLoop_perfect (hp : Perfect nld mem) (hws : 0 < nld.writesize) {f : Buffer}
    (n off sizeremain : Nat) (s : ReadState) (w : World D) (hn : sizeremain ≤ n) (hs : s.Fine)
    (hholds : Holds nld mem w off sizeremain f) :
    ∃ s' w', readRangeLoop nld mode n off sizeremain s w = some (s', w') ∧ s'.Fine ∧
      s'.retlen = s.retlen + sizeremain ∧ (∀ i < s.retlen, s'.data i = s.data i) ∧
      ∀ i < sizeremain, s'.data (s.retlen + i) = f (off + i) := by
  induction n generalizing off sizeremain s w with
  | zero =>
    obtain rfl : sizeremain = 0 := Nat.le_zero.mp hn
    exact ⟨s, w, rfl, hs, rfl, fun _ _ => rfl, fun i hi => absurd hi (Nat.not_lt_zero i)⟩
  | succ n ih =>
    by_cases hrem : sizeremain = 0
    · subst hrem
      exact ⟨s, w, rfl, hs, rfl, fun _ _ => rfl, fun i hi => absurd hi (Nat.not_lt_zero i)⟩
    obtain ⟨p, hphys, hpage⟩ := hholds _ (touched_first hws hrem)
    have hlt := Nat.mod_lt off hws
    have hle := Nat.mod_le off nld.writesize
    have hret := hp.reads p mode w.dev
    have hread : readLogicPage nld (off - off % nld.writesize) true false mode w = _ :=
      readLogicPage_of_ok hphys hret
    have hdata := hp.readsData p mode w.dev
    have hmem := hp.read p true false mode w.dev
    generalize nld.readPage p true false mode w.dev = r at hret hread hdata hmem
    obtain ⟨page, c, hstage, hbytes⟩ := stageRead_run nld
      (min (nld.writesize - off % nld.writesize) sizeremain) r.1 (w.onDev r.2)
    have hrest : Holds nld mem ((w.onDev r.2).cached c)
        (off + min (nld.writesize - off % nld.writesize) sizeremain)
        (sizeremain - min (nld.writesize - off % nld.writesize) sizeremain) f := by
      intro a ha
      obtain ⟨q, hq, hqbytes⟩ := hholds a (ha.behind hws).1
      exact ⟨q, hq, fun i hi => (congrFun hmem (q + i)).trans (hqbytes i hi)⟩
    obtain ⟨s', w', hrun, hfine', hretlen, hbefore, hnew⟩ :=
      ih _ _ _ _ (by omega) (hs.moved page _ _ hret) hrest
    refine ⟨s', w', ?_, hfine', ?_, ?_, ?_⟩
    · rw [readRangeLoop_page hrem hread hstage, if_neg (by omega), hrun]
    · simp only [ReadState.moved] at hretlen
      omega
    · intro i hi
      rw [hbefore i (Nat.lt_add_right _ hi)]
      exact memcpy_outside (.inl hi)
    · intro i hi
      simp only [ReadState.moved] at hbefore hnew
      by_cases hfirst : i < min (nld.writesize - off % nld.writesize) sizeremain
      · rw [hbefore _ (Nat.add_lt_add_left hfirst _), memcpy_inside (by omega),
          hbytes _ (by omega), hdata _ (by omega), hpage _ (by omega)]
        congr 1
        omega
      · have hbyte := hnew (i - min (nld.writesize - off % nld.writesize) sizeremain) (by omega)
        rw [add_assoc, add_assoc, Nat.add_sub_cancel' (not_lt.mp hfirst)] at hbyte
        exact hbyte

/-! ## Right pages -/

/-- What stands at each address when nothing but `data` was written, from `addr` on. -/
def rangeByte (addr size : Nat) (data : Buffer) : Buffer :=
  fun x => if addr ≤ x ∧ x < addr + size then data (x - addr) else 0xff

def RightPage (nld : Lower D) (addr size : Nat) (data : Buffer) (p : Nat × Buffer) : Prop :=
  ∀ i < nld.writesize, p.2 i = rangeByte addr size data (p.1 + i)

def Lower.lastPage (nld : Lower D) (addr size : Nat) : Nat :=
  addr + size - 1 - (addr + size - 1) % nld.writesize

/-- Nothing but 0xff stands in `page_cache` behind the range when its last page is staged. -/
def CleanTail (nld : Lower D) (addr size : Nat) (data cache : Buffer) : Prop :=
  ∀ i < nld.writesize, addr + size ≤ nld.lastPage addr size + i →
    staleCache nld data cache addr 0 (nld.lastPage addr size) i = 0xff

theorem touched_last (hsize : 0 < size) : Touched nld addr size (nld.lastPage addr size) := by
  have hlt := Nat.mod_lt (addr + size - 1) hws
  refine ⟨Nat.dvd_sub_mod _, hsize, ?_, ?_⟩
  all_goals
    unfold Lower.lastPage
    omega

theorem Touched.le_last (h : Touched nld addr size a) : a ≤ nld.lastPage addr size := by
  obtain ⟨hdvd, hpos, -, hhi⟩ := h
  have hlt := Nat.mod_lt (addr + size - 1) hws
  unfold Lower.lastPage
  exact Nat.le_of_lt_add_of_dvd (by omega) hdvd (Nat.dvd_sub_mod (addr + size - 1))

theorem pageByte_right_iff (ha : Touched nld addr size a) :
    (∀ i < nld.writesize, pageByte nld data cache addr 0 size a i =
      rangeByte addr size data (a + i)) ↔
      (a = nld.lastPage addr size → CleanTail nld addr size data cache) := by
  constructor
  · rintro h rfl i hi htail
    have hbyte := h i hi
    rw [pageByte, rangeByte, if_neg (by omega), if_neg (by omega)] at hbyte
    rwa [if_neg (by omega)] at hbyte
  · intro h i hi
    unfold pageByte rangeByte
    by_cases hin : addr ≤ a + i ∧ a + i < addr + size
    · rw [if_pos hin, if_pos hin, zero_add]
    rw [if_neg hin, if_neg hin]
    by_cases hfront : a + i < addr
    · rw [if_pos hfront]
    rw [if_neg hfront]
    have hlast : a = nld.lastPage addr size := by
      refine le_antisymm (ha.le_last hws) ?_
      exact Nat.le_of_lt_add_of_dvd (by unfold Lower.lastPage; omega)
        (Nat.dvd_sub_mod (addr + size - 1)) ha.1
    rw [hlast]
    exact h hlast i hi (by omega)

def writeRangePages (nld : Lower D) (fuel addr size : Nat) (data : Buffer) (mode : OobMode) :
    M D (List (Nat × Buffer) × Int × Nat) := do
  let ni ← getNi
  if ni.forcedReadOnly nld then pure ([], -erofs, 0)
  else if addr ≥ nld.ba2addr ni.dataBlockCount then pure ([], -einval, 0)
  else if add64 addr size > nld.ba2addr ni.dataBlockCount then pure ([], -einval, 0)
  else if size = 0 then pure ([], 0, 0)
  else do
    let (pages, ret, sizeremain) ← writeRangeTraced nld fuel data mode size addr 0 size
    pure (pages, ret, size - sizeremain)

omit hws in
theorem writeRange_eq (addr size : Nat) (data : Buffer) (mode : OobMode) :
    writeRange nld fuel addr size data mode = (do
      let r ← writeRangePages nld fuel addr size data mode
      pure r.2) := by
  simp only [writeRange, writeRangePages, writeRangeLoop_eq, bind_assoc]
  congr 1
  funext ni
  split_ifs <;> simp

theorem writeRangePages_bytes (w : World D) :
    Post (writeRangePages nld fuel addr size data mode) (fun r _ => ∀ p ∈ r.1,
      Touched nld addr size p.1 ∧ ∀ i < nld.writesize,
        p.2 i = pageByte nld data w.ni.pageCache addr 0 size p.1 i) w := by
  have hnone : ∀ p ∈ ([] : List (Nat × Buffer)), Touched nld addr size p.1 ∧
      ∀ i < nld.writesize, p.2 i = pageByte nld data w.ni.pageCache addr 0 size p.1 i :=
    fun p hp => absurd hp (by simp)
  simp only [writeRangePages, getNi, post_bind, post_read, post_ite, post_pure]
  refine ⟨fun _ => hnone, fun _ => ⟨fun _ => hnone, fun _ => ⟨fun _ => hnone, fun _ =>
    ⟨fun _ => hnone, fun _ => ?_⟩⟩⟩⟩
  exact writeRangeTraced_bytes hws size addr 0 size w

theorem writeRangePages_right_iff {r : List (Nat × Buffer) × Int × Nat}
    (hrun : writeRangePages nld fuel addr size data mode w = some (r, w')) :
    (∀ p ∈ r.1, RightPage nld addr size data p) ↔
      ((∃ page, (nld.lastPage addr size, page) ∈ r.1) →
        CleanTail nld addr size data w.ni.pageCache) := by
  have hbytes := writeRangePages_bytes hws w r w' hrun
  have hpage : ∀ p ∈ r.1, RightPage nld addr size data p ↔
      (p.1 = nld.lastPage addr size → CleanTail nld addr size data w.ni.pageCache) := by
    intro p hp
    obtain ⟨htouched, hbyte⟩ := hbytes p hp
    rw [← pageByte_right_iff hws htouched]
    constructor
    · intro h i hi
      rw [← hbyte i hi]
      exact h i hi
    · intro h i hi
      rw [hbyte i hi]
      exact h i hi
  constructor
  · rintro h ⟨page, hmem⟩
    exact (hpage _ hmem).mp (h _ hmem) rfl
  · intro h p hp
    exact (hpage p hp).mpr fun hlast => h ⟨p.2, hlast ▸ hp⟩

end

/-! ## Reading back -/

structure ErasedPages (nld : Lower D) (mem : D → Buffer) (w : World D) (addr size : Nat) :
    Prop where
  usable : ∀ a, Touched nld addr size a → ∃ p, physAddr nld w.ni a = some p
  erased : ∀ a p, Touched nld addr size a → physAddr nld w.ni a = some p →
    ∀ i < nld.writesize, mem w.dev (p + i) = 0xff

theorem physAddr_eq_some (h : physAddr nld ni a = some p) :
    0 ≤ (ni.blockMapping (nld.addr2ba a)).toInt ∧
      p = nld.ba2addr (ni.blockMapping (nld.addr2ba a)).toNat + a % nld.erasesize := by
  unfold physAddr at h
  simp only at h
  split at h
  · cases h
  · rename_i hpos
    split at h
    · cases h
    · exact ⟨Int.not_lt.mp hpos, (Option.some.inj h).symm⟩

theorem pages_apart {ws : Nat} (ha : ws ∣ a) (hb : ws ∣ b) (hne : a ≠ b) :
    a + ws ≤ b ∨ b + ws ≤ a := by
  rcases Nat.lt_or_gt_of_ne hne with hlt | hlt
  · exact .inl (Nat.le_of_lt_add_of_dvd (Nat.add_lt_add_right hlt ws)
      (Nat.dvd_add ha (Nat.dvd_refl _)) hb)
  · exact .inr (Nat.le_of_lt_add_of_dvd (Nat.add_lt_add_right hlt ws)
      (Nat.dvd_add hb (Nat.dvd_refl _)) ha)

theorem page_in_block (hes : 0 < nld.erasesize) (ha : nld.writesize ∣ a) :
    nld.writesize ∣ a % nld.erasesize ∧ a % nld.erasesize + nld.writesize ≤ nld.erasesize := by
  have hdvd := (Nat.dvd_mod_iff nld.page_dvd).mpr ha
  exact ⟨hdvd, Nat.le_of_lt_add_of_dvd (Nat.add_lt_add_right (Nat.mod_lt a hes) _)
    (Nat.dvd_add hdvd (Nat.dvd_refl _)) nld.page_dvd⟩

theorem physAddr_apart (hes : 0 < nld.erasesize) {q : Nat}
    (hinj : InjectiveOn (· < ni.dataBlockCount) ni.blockMapping)
    (ha : nld.addr2ba a < ni.dataBlockCount) (hb : nld.addr2ba b < ni.dataBlockCount)
    (hda : nld.writesize ∣ a) (hdb : nld.writesize ∣ b)
    (hp : physAddr nld ni a = some p) (hq : physAddr nld ni b = some q) (hne : a ≠ b) :
    p + nld.writesize ≤ q ∨ q + nld.writesize ≤ p := by
  obtain ⟨hpos, rfl⟩ := physAddr_eq_some hp
  obtain ⟨-, rfl⟩ := physAddr_eq_some hq
  obtain ⟨hda', hea⟩ := page_in_block hes hda
  obtain ⟨hdb', heb⟩ := page_in_block hes hdb
  by_cases hblock : nld.addr2ba a = nld.addr2ba b
  · rw [hblock]
    have hmod : a % nld.erasesize ≠ b % nld.erasesize := by
      intro hmod
      apply hne
      rw [← Nat.div_add_mod a nld.erasesize, ← Nat.div_add_mod b nld.erasesize, hmod]
      exact congrArg (nld.erasesize * · + b % nld.erasesize) hblock
    have hapart := pages_apart hda' hdb' hmod
    omega
  · have himage : (ni.blockMapping (nld.addr2ba a)).toNat ≠
        (ni.blockMapping (nld.addr2ba b)).toNat :=
      fun heq => hblock (hinj _ _ ha hb hpos (BitVec.eq_of_toNat_eq heq))
    have hapart := ba2addr_apart nld himage
    omega

theorem Blank.of_erased (hes : 0 < nld.erasesize)
    (hfit : addr + size ≤ nld.ba2addr w.ni.dataBlockCount)
    (hinj : InjectiveOn (· < w.ni.dataBlockCount) w.ni.blockMapping)
    (h : ErasedPages nld mem w addr size) : Blank nld mem w addr size where
  usable := h.usable
  apart a b p q ha hb hp hq hne := by
    have hblock : ∀ c, Touched nld addr size c → nld.addr2ba c < w.ni.dataBlockCount := by
      intro c hc
      exact (Nat.div_lt_iff_lt_mul hes).mpr (lt_of_lt_of_le hc.2.2.2 hfit)
    exact physAddr_apart hes hinj (hblock a ha) (hblock b hb) ha.1 hb.1 hp hq hne
  erased := h.erased

def OnPages (nld : Lower D) (addr size a n : Nat) : Prop :=
  addr - addr % nld.writesize ≤ a ∧ a + n ≤ nld.lastPage addr size + nld.writesize

theorem OnPages.touched (hws : 0 < nld.writesize) (hsize : 0 < size)
    (h : OnPages nld addr size a n) (hb : Touched nld a n b) : Touched nld addr size b := by
  obtain ⟨hdvd, -, hlo, hhi⟩ := hb
  have hfirst : addr - addr % nld.writesize ≤ b :=
    Nat.le_of_lt_add_of_dvd (lt_of_le_of_lt h.1 hlo) (Nat.dvd_sub_mod addr) hdvd
  have hlast : b ≤ nld.lastPage addr size :=
    Nat.le_of_lt_add_of_dvd (hhi.trans_le h.2) hdvd (Nat.dvd_sub_mod _)
  have hlt := Nat.mod_lt addr hws
  have hend : nld.lastPage addr size < addr + size := (touched_last hws hsize).2.2.2
  exact ⟨hdvd, hsize, by omega, by omega⟩

theorem readRange_perfect (hp : Perfect nld mem) (hws : 0 < nld.writesize) {f buf : Buffer}
    (hprot : w.ni.isProtected = false)
      (h64 : nld.ba2addr w.ni.dataBlockCount < 18446744073709551616)
    (hn : 0 < n) (hfit : a + n ≤ nld.ba2addr w.ni.dataBlockCount) (hholds : Holds nld mem w a n f) :
    ∃ ret out w', readRange nld a n buf mode w = some ((ret, out, n), w') ∧ 0 ≤ ret ∧
      ∀ i < n, out i = f (a + i) := by
  have hloop : ∃ s' w', readRangeLoop nld mode n a n ⟨buf, 0, 0, false, 0⟩ w = some (s', w') ∧ _ :=
    readRangeLoop_perfect hp hws n a n ⟨buf, 0, 0, false, 0⟩ w (le_refl n)
      ⟨Int.le_refl 0, rfl, Int.le_refl 0⟩ hholds
  obtain ⟨s, w', hrun, hfine, hretlen, -, hbytes⟩ := hloop
  simp only [zero_add] at hretlen hbytes
  have hsum : add64 a n = a + n := Nat.mod_eq_of_lt (hfit.trans_lt h64)
  refine ⟨s.maxBitflips, s.data, w', ?_, hfine.bitflips, hbytes⟩
  rw [readRange, bind_of_run (getNi_run _), hprot, if_neg Bool.false_ne_true, if_neg (by omega),
    if_neg (by omega), if_neg (by omega), bind_of_run hrun,
    if_neg (fun h => absurd hfine.ret (Int.not_le.mpr h.1)), hfine.ecc, hretlen]
  rfl

def storedByte (nld : Lower D) (data cache : Buffer) (addr size : Nat) : Buffer :=
  fun x => pageByte nld data cache addr 0 size (x - x % nld.writesize) (x % nld.writesize)

theorem storedByte_page (ha : nld.writesize ∣ a) (hi : i < nld.writesize) :
    storedByte nld data cache addr size (a + i) = pageByte nld data cache addr 0 size a i := by
  have hmod : (a + i) % nld.writesize = i := by
    rw [Nat.add_mod, Nat.mod_eq_zero_of_dvd ha, zero_add, Nat.mod_mod, Nat.mod_eq_of_lt hi]
  rw [storedByte, hmod, Nat.add_sub_cancel]

theorem writeRange_stored (hp : Perfect nld mem) (hws : 0 < nld.writesize) (hsize : 0 < size)
    (hforced : w.ni.forcedReadOnly nld = false)
    (h64 : nld.ba2addr w.ni.dataBlockCount < 18446744073709551616)
    (hfit : addr + size ≤ nld.ba2addr w.ni.dataBlockCount) (hblank : Blank nld mem w addr size) :
    ∃ c d, writeRange nld fuel addr size data mode w = some ((0, size), (w.cached c).onDev d) ∧
      Holds nld mem ((w.cached c).onDev d) addr size
        (storedByte nld data w.ni.pageCache addr size) := by
  have hrw : nld.readOnly = false := (Bool.or_eq_false_iff.mp hforced).2
  have hsum : add64 addr size = addr + size := Nat.mod_eq_of_lt (hfit.trans_lt h64)
  have hloop : ∃ pages c d, writeRangeTraced nld fuel data mode size addr 0 size w =
      some ((pages, 0, 0), (w.cached c).onDev d) ∧ _ :=
    writeRangeTraced_perfect hp hrw hws size addr 0 size w (le_refl size) hblank
  obtain ⟨pages, c, d, hrun, -, hstored⟩ := hloop
  have hbytes := writeRangeTraced_bytes hws size addr 0 size w _ _ hrun
  refine ⟨c, d, ?_, fun a ha => ?_⟩
  · have hpages : writeRangePages nld fuel addr size data mode w =
        some ((pages, 0, size), (w.cached c).onDev d) := by
      rw [writeRangePages, bind_of_run (getNi_run _), hforced, if_neg Bool.false_ne_true,
        if_neg (by omega), if_neg (by omega), if_neg (by omega), bind_of_run hrun]
      rfl
    rw [writeRange_eq, bind_of_run hpages]
    rfl
  · obtain ⟨p, hphys⟩ := hblank.usable a ha
    obtain ⟨page, hmem, hpage⟩ := hstored a p ha hphys
    refine ⟨p, hphys, fun i hi => ?_⟩
    rw [storedByte_page ha.1 hi, ← (hbytes _ hmem).2 i hi]
    exact hpage i hi

theorem readBack_iff (hp : Perfect nld mem) (hws : 0 < nld.writesize) (hsize : 0 < size)
    (hprot : w.ni.isProtected = false)
    (h64 : nld.ba2addr w.ni.dataBlockCount < 18446744073709551616)
    (hfit : addr + size ≤ nld.ba2addr w.ni.dataBlockCount)
    (hholds : Holds nld mem w addr size (storedByte nld data cache addr size)) :
    (∀ a n buf readMode, 0 < n → OnPages nld addr size a n →
      ∃ ret out w', readRange nld a n buf readMode w = some ((ret, out, n), w') ∧
        0 ≤ ret ∧ ∀ i < n, out i = rangeByte addr size data (a + i)) ↔
      CleanTail nld addr size data cache := by
  have hlast : Touched nld addr size (nld.lastPage addr size) := touched_last hws hsize
  have hend : nld.lastPage addr size + nld.writesize ≤ nld.ba2addr w.ni.dataBlockCount := by
    have hdvd : nld.writesize ∣ nld.ba2addr w.ni.dataBlockCount :=
      Nat.dvd_trans nld.page_dvd (Nat.dvd_mul_left _ _)
    exact Nat.le_of_lt_add_of_dvd (by have := hlast.2.2.2; omega)
      (Nat.dvd_add hlast.1 (Nat.dvd_refl _)) hdvd
  have hread : ∀ a n buf readMode, 0 < n → OnPages nld addr size a n →
      ∃ ret out w', readRange nld a n buf readMode w = some ((ret, out, n), w') ∧
        0 ≤ ret ∧ ∀ i < n, out i = storedByte nld data cache addr size (a + i) := by
    intro a n buf readMode hn hon
    exact readRange_perfect hp hws hprot h64 hn (Nat.le_trans hon.2 hend)
      fun b hb => hholds b (hon.touched hws hsize hb)
  constructor
  · intro h
    have hon : OnPages nld addr size (nld.lastPage addr size) nld.writesize := by
      refine ⟨?_, le_refl _⟩
      exact (touched_first hws (Nat.pos_iff_ne_zero.mp hsize)).le_last hws
    obtain ⟨ret, out, w', hrun, -, hright⟩ := h _ _ data .placeOob hws hon
    obtain ⟨ret', out', w'', hrun', -, hstored⟩ := hread _ _ data .placeOob hws hon
    rw [hrun] at hrun'
    cases hrun'
    refine (pageByte_right_iff hws hlast).mp (fun i hi => ?_) rfl
    rw [← storedByte_page hlast.1 hi, ← hstored i hi]
    exact hright i hi
  · intro hclean a n buf readMode hn hon
    obtain ⟨ret, out, w', hrun, hret, hbytes⟩ := hread a n buf readMode hn hon
    refine ⟨ret, out, w', hrun, hret, fun i hi => ?_⟩
    rw [hbytes i hi]
    have hlt := Nat.mod_lt (a + i) hws
    have hpage : Touched nld addr size (a + i - (a + i) % nld.writesize) :=
      hon.touched hws hsize ⟨Nat.dvd_sub_mod _, hn, by omega, by omega⟩
    have hbyte := (pageByte_right_iff hws hpage).mpr (fun _ => hclean) _ hlt
    rwa [Nat.sub_add_cancel (Nat.mod_le _ _)] at hbyte

/-- The pages handed to the chip hold the bytes of the range and 0xff around them exactly when
`page_cache` was clean behind it, or the call ended before its last page; and exactly then a
chip that does not fail gives these bytes back. -/
theorem range_written_iff (fuel : Nat) (data : Buffer) (mode : OobMode) (hws : 0 < nld.writesize)
    (h64 : nld.ba2addr w.ni.dataBlockCount < 18446744073709551616)
    (hfit : addr + size ≤ nld.ba2addr w.ni.dataBlockCount) :
    (∀ r w', writeRangePages nld fuel addr size data mode w = some (r, w') →
      ((∀ p ∈ r.1, RightPage nld addr size data p) ↔
        ((∃ page, (nld.lastPage addr size, page) ∈ r.1) →
          CleanTail nld addr size data w.ni.pageCache))) ∧
    ∀ mem, Perfect nld mem → 0 < size → w.ni.forcedReadOnly nld = false →
      InjectiveOn (· < w.ni.dataBlockCount) w.ni.blockMapping → ErasedPages nld mem w addr size →
      ∃ w', writeRange nld fuel addr size data mode w = some ((0, size), w') ∧
        ((∀ a n buf readMode, 0 < n → OnPages nld addr size a n →
          ∃ ret out w'', readRange nld a n buf readMode w' = some ((ret, out, n), w'') ∧
            0 ≤ ret ∧ ∀ i < n, out i = rangeByte addr size data (a + i)) ↔
          CleanTail nld addr size data w.ni.pageCache) := by
  refine ⟨fun r w' hrun => writeRangePages_right_iff hws hrun, ?_⟩
  intro mem hp hsize hforced hinj herased
  have hprot : w.ni.isProtected = false := (Bool.or_eq_false_iff.mp hforced).1
  have hes : 0 < nld.erasesize :=
    erasesize_pos (lt_of_lt_of_le (Nat.lt_add_of_pos_right hsize) hfit)
  obtain ⟨c, d, hrun, hholds⟩ := writeRange_stored hp hws hsize hforced h64 hfit
    (Blank.of_erased hes hfit hinj herased)
  exact ⟨(w.cached c).onDev d, hrun, readBack_iff hp hws hsize hprot h64 hfit hholds⟩

/-! ## One byte on a small chip -/

theorem smallChip_perfect : Perfect smallChip Flash.mem where
  toLawful := smallChip_lawful
  writes _ _ _ _ := rfl
  programs addr page mode d _ i hi :=
    (memcpy_inside ⟨Nat.le_add_right addr i, Nat.add_lt_add_left hi addr⟩).trans
      (by rw [zero_add, Nat.add_sub_cancel_left]; rfl)
  reads _ _ _ := Int.le_refl 0
  readsData _ _ _ _ _ := rfl

/-- `page_cache` holds zeros when a single byte is written: the next byte of the page is
programmed to zero, and this is what is read there. -/
theorem stale_byte_written :
    ∃ r w', writeRangePages smallChip 30 0 1 (fun _ => 0x55) .placeOob
        (fullWorld BLOCK_ST_GOOD) = some (r, w') ∧
      writeRange smallChip 30 0 1 (fun _ => 0x55) .placeOob (fullWorld BLOCK_ST_GOOD) =
        some ((0, 1), w') ∧
      (¬∀ p ∈ r.1, RightPage smallChip 0 1 (fun _ => 0x55) p) ∧
      ∃ out w'', readRange smallChip 1 1 (fun _ => 0) .placeOob w' = some ((0, out, 1), w'') ∧
        out 0 ≠ rangeByte 0 1 (fun _ => 0x55) 1 := by
  have hrun : ∃ r ∈ writeRangePages smallChip 30 0 1 (fun _ => 0x55) .placeOob
      (fullWorld BLOCK_ST_GOOD), r.1.2 = (0, 1) ∧ (∃ p ∈ r.1.1, p.1 = 0 ∧ p.2 1 = 0) ∧
        ∃ r' ∈ readRange smallChip 1 1 (fun _ => 0) .placeOob r.2,
          r'.1.1 = 0 ∧ r'.1.2.2 = 1 ∧ r'.1.2.1 0 = 0 := by decide +kernel
  obtain ⟨⟨⟨pages, _⟩, w'⟩, hpages, rfl, ⟨p, hp, haddr, hzero⟩, ⟨⟨_, out, _⟩, w''⟩, hread, rfl, rfl,
    hout⟩ := hrun
  refine ⟨_, w', hpages, ?_, fun hright => ?_, out, w'', hread, ?_⟩
  · rw [writeRange_eq, bind_of_run hpages]
    rfl
  · have hbyte := hright p hp 1 (by decide)
    rw [haddr, hzero] at hbyte
    exact absurd hbyte (by decide)
  · exact hout.trans_ne (by decide)

theorem clean_byte_written :
    ∃ w', writeRange smallChip 30 0 1 (fun _ => 0x55) .placeOob
        ((fullWorld BLOCK_ST_GOOD).cached fun _ => 0xff) = some ((0, 1), w') ∧
      ∀ a n buf readMode, 0 < n → OnPages smallChip 0 1 a n →
        ∃ ret out w'', readRange smallChip a n buf readMode w' = some ((ret, out, n), w'') ∧
          0 ≤ ret ∧ ∀ i < n, out i = rangeByte 0 1 (fun _ => 0x55) (a + i) := by
  have htouched : ∀ a, Touched smallChip 0 1 a → a = 0 := fun a ha => by
    have := ha.2.2.2
    omega
  have hphys : physAddr smallChip ((fullWorld BLOCK_ST_GOOD).cached fun _ => 0xff).ni 0 =
      some 0 := by
    decide
  have herased : ErasedPages smallChip Flash.mem
      ((fullWorld BLOCK_ST_GOOD).cached fun _ => 0xff) 0 1 := by
    constructor
    · intro a ha
      obtain rfl := htouched a ha
      exact ⟨0, hphys⟩
    · intro a p ha hp i hi
      obtain rfl := htouched a ha
      obtain rfl : 0 = p := Option.some.inj (hphys.symm.trans hp)
      have hlt : i < 64 := hi
      simp only [World.cached, fullWorld]
      exact memcpy_outside (.inl (by omega))
  obtain ⟨w', hrun, hiff⟩ := (range_written_iff 30 (fun _ => 0x55) .placeOob (by decide)
    (by decide) (by decide)).2 _ smallChip_perfect (by decide) (by decide) injectiveOn_ofNat herased
  exact ⟨w', hrun, hiff.mpr fun i _ _ => rfl⟩

end OpenWrt.Nmbm
