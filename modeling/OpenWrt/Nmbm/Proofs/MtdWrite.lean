import OpenWrt.Nmbm.Mtd
import OpenWrt.Nmbm.Proofs.Range

/-!
# Writing data with OOB

`nmbm_mtd_write_data` refills `datcache` and `oobcache` only while there is data or OOB left,
but hands both to the chip with every page.  So when one of the two needs more pages than the
other, the last page of the shorter one is programmed again behind its place.
-/

namespace OpenWrt.Nmbm

open Lib Lib.Prog List Nat

variable {D : Type} {nm : NmbmMtd D} {fuel addr unit total k : Nat} {s s₀ : Stream}
  {buf cache : Buffer} {w w' : World D}

/-! ## Streams -/

namespace Stream

def pages (s : Stream) (unit : Nat) : Nat :=
  if s.len = 0 then 0 else (s.offs + s.len + unit - 1) / unit

theorem next_offs_lt (h : s.offs < unit) : (s.next unit).offs < unit := by
  unfold next
  split
  · exact zero_lt_of_lt h
  · exact h

theorem pages_next (h : s.offs < unit) (hlen : s.len ≠ 0) :
    s.pages unit = (s.next unit).pages unit + 1 := by
  rw [pages, if_neg hlen, next, if_pos hlen, pages, chklen]
  rcases lt_or_ge (unit - s.offs) s.len with hmore | hlast
  · rw [min_eq_left hmore.le, if_neg (by simp only; omega)]
    have hsum : s.offs + s.len + unit - 1 = 0 + (s.len - (unit - s.offs)) + unit - 1 + unit := by
      omega
    rw [hsum, add_div_right _ (by omega)]
  · rw [min_eq_right hlast, if_pos (Nat.sub_self _)]
    exact Nat.div_eq_of_lt_le (by omega) (by omega)

theorem le_pages_mul (h : s.offs < unit) (hlen : s.len ≠ 0) :
    s.offs + s.len ≤ s.pages unit * unit := by
  rw [pages, if_neg hlen]
  have hlt := lt_div_mul_add (a := s.offs + s.len + unit - 1) (zero_lt_of_lt h)
  omega

structure At (s₀ : Stream) (unit : Nat) (buf : Buffer) (k : Nat) (s : Stream) (cache : Buffer) :
    Prop where
  offs_lt : s.offs < unit
  left : s.len ≠ 0 → s₀.pages unit = k + s.pages unit
  position : s.len ≠ 0 → k * unit + s.offs = s₀.offs + s.ret ∧ s.ret + s.len = s₀.len
  first : s.len ≠ 0 → s.offs ≠ 0 → s.ret = 0
  ended : s.len = 0 → s₀.len ≠ 0 → s₀.pages unit ≤ k ∧ 0 < s₀.pages unit
  stale : s.len = 0 → s₀.len ≠ 0 → ∀ i < unit,
    cache i = rangeByte s₀.offs s₀.len buf ((s₀.pages unit - 1) * unit + i)

theorem stage_byte (htotal : unit ≤ total) (hlen : s.len ≠ 0) (h : s₀.At unit buf k s cache)
    {i : Nat} (hi : i < unit) :
    s.stage unit total buf cache i = rangeByte s₀.offs s₀.len buf (k * unit + i) := by
  obtain ⟨hpos, hsum⟩ := h.position hlen
  have hfirst := h.first hlen
  rw [stage, if_pos hlen, chklen, rangeByte]
  rcases lt_or_ge i s.offs with hfront | hoffs
  · rw [memset_outside (by omega), memcpy_outside (by omega), memset_inside (by omega),
      if_neg (by omega)]
  · rcases lt_or_ge i (s.offs + s.len) with hin | hbehind
    · rw [memset_outside (by omega), memcpy_inside (by omega), if_pos (by omega)]
      congr 1
      omega
    · rw [memset_inside (by omega), if_neg (by omega)]

theorem At.next (htotal : unit ≤ total) (h : s₀.At unit buf k s cache) :
    s₀.At unit buf (k + 1) (s.next unit) (s.stage unit total buf cache) := by
  by_cases hlen : s.len = 0
  · have hnext : s.next unit = s := if_neg (not_not.mpr hlen)
    have hstage : s.stage unit total buf cache = cache := if_neg (not_not.mpr hlen)
    rw [hnext, hstage]
    exact ⟨h.offs_lt, fun hne => absurd hlen hne, fun hne => absurd hlen hne,
      fun hne => absurd hlen hne,
      fun _ hne => ⟨le_succ_of_le (h.ended hlen hne).1, (h.ended hlen hne).2⟩, h.stale⟩
  · have hpages := pages_next h.offs_lt hlen
    obtain ⟨hpos, hsum⟩ := h.position hlen
    have hleft := h.left hlen
    have hbyte : ∀ i < unit, _ := fun i hi => stage_byte htotal hlen h hi
    have hnext : s.next unit = ⟨0, s.len - s.chklen unit, s.ret + s.chklen unit⟩ := if_pos hlen
    have hlt := h.offs_lt
    rw [hpages, hnext] at hleft
    rw [hnext]
    refine ⟨by simp only; omega, fun hne => ?_, fun hne => ?_, fun _ hne => absurd rfl hne,
      fun hzero _ => ?_, fun hzero _ i hi => ?_⟩
    · omega
    · simp only [chklen] at hne ⊢
      rw [succ_mul]
      omega
    · simp only [pages] at hleft
      rw [if_pos hzero] at hleft
      simp only [pages]
      omega
    · simp only [pages] at hleft
      rw [if_pos hzero] at hleft
      have hlast : s₀.pages unit - 1 = k := by
        simp only [pages]
        omega
      rw [hlast]
      exact hbyte i hi

theorem At.staged (htotal : unit ≤ total) (h : s₀.At unit buf k s cache) (hlen₀ : s₀.len ≠ 0)
    {i : Nat} (hi : i < unit) :
    s.stage unit total buf cache i =
      rangeByte s₀.offs s₀.len buf (min k (s₀.pages unit - 1) * unit + i) := by
  by_cases hlen : s.len = 0
  · obtain ⟨hle, hpos⟩ := h.ended hlen hlen₀
    have hstage : s.stage unit total buf cache = cache := if_neg (not_not.mpr hlen)
    rw [hstage, h.stale hlen hlen₀ i hi, min_eq_right (by omega)]
  · have hleft := h.left hlen
    have hpages := pages_next h.offs_lt hlen
    rw [stage_byte htotal hlen h hi, min_eq_left (by omega)]

theorem At.done_iff (h : s₀.At unit buf k s cache) : s.len = 0 ↔ s₀.pages unit ≤ k := by
  constructor
  · intro hlen
    by_cases hlen₀ : s₀.len = 0
    · rw [pages, if_pos hlen₀]
      exact zero_le k
    · exact (h.ended hlen hlen₀).1
  · intro hle
    by_contra hlen
    have hleft := h.left hlen
    have hpages := pages_next h.offs_lt hlen
    omega

theorem next_len_le : (s.next unit).len ≤ s.len := by
  unfold next
  split
  · exact sub_le _ _
  · exact le_rfl

theorem next_len_lt (h : s.offs < unit) (hlen : s.len ≠ 0) : (s.next unit).len < s.len := by
  rw [next, if_pos hlen, chklen]
  simp only
  omega

theorem At.start (h : s.offs < unit) (hret : s.ret = 0) : s.At unit buf 0 s cache where
  offs_lt := h
  left _ := (zero_add _).symm
  position _ := by
    omega
  first _ _ := hret
  ended hlen hne := absurd hlen hne
  stale hlen hne := absurd hlen hne

def LastBlank (s : Stream) (unit : Nat) (buf : Buffer) : Prop :=
  ∀ i < unit, rangeByte s.offs s.len buf ((s.pages unit - 1) * unit + i) = 0xff

theorem staged_right_iff (h : s.offs < unit) (hlen : s.len ≠ 0) :
    (∀ i < unit, rangeByte s.offs s.len buf (min k (s.pages unit - 1) * unit + i) =
      rangeByte s.offs s.len buf (k * unit + i)) ↔ (s.pages unit ≤ k → s.LastBlank unit buf) := by
  have hall := le_pages_mul h hlen
  rcases lt_or_ge k (s.pages unit) with hlt | hge
  · rw [min_eq_left (by omega)]
    exact ⟨fun _ hle => absurd hlt (not_lt.mpr hle), fun _ _ _ => rfl⟩
  rw [min_eq_right (by omega)]
  have hbehind : ∀ i, rangeByte s.offs s.len buf (k * unit + i) = 0xff := by
    intro i
    have hmul := mul_le_mul_right unit hge
    exact if_neg (by omega)
  simp only [hbehind]
  exact ⟨fun hbytes _ => hbytes, fun hbytes => hbytes hge⟩

/-- What goes on of a stream with page `k`: the bytes that are staged, if it has any. -/
structure Hands (s : Stream) (unit : Nat) (buf : Buffer) (k : Nat) (page : Option Buffer) :
    Prop where
  given : s.len ≠ 0 → page.isSome
  bytes : ∀ b, page = some b → s.len ≠ 0 ∧
    ∀ i < unit, b i = rangeByte s.offs s.len buf (min k (s.pages unit - 1) * unit + i)

theorem At.hands (htotal : unit ≤ total) (h : s₀.At unit buf k s cache) :
    s₀.Hands unit buf k
      (if decide (s₀.len ≠ 0) = true then some (s.stage unit total buf cache) else none) where
  given hlen := by simp [hlen]
  bytes b hb := by
    by_cases hlen : s₀.len = 0
    · simp [hlen] at hb
    · obtain rfl : s.stage unit total buf cache = b := by simpa [hlen] using hb
      exact ⟨hlen, fun i hi => h.staged htotal hlen hi⟩

theorem Hands.right_iff {page : Option Buffer} (h : s.Hands unit buf k page)
    (hoffs : s.offs < unit) :
    (∀ b, page = some b → ∀ i < unit, b i = rangeByte s.offs s.len buf (k * unit + i)) ↔
      (s.len ≠ 0 → s.pages unit ≤ k → s.LastBlank unit buf) := by
  constructor
  · intro hright hlen
    obtain ⟨b, hb⟩ := Option.isSome_iff_exists.mp (h.given hlen)
    rw [← staged_right_iff hoffs hlen]
    intro i hi
    rw [← (h.bytes b hb).2 i hi]
    exact hright b hb i hi
  · intro hblank b hb i hi
    obtain ⟨hlen, hbytes⟩ := h.bytes b hb
    rw [hbytes i hi]
    exact (staged_right_iff hoffs hlen).mpr (hblank hlen) i hi

end Stream

/-! ## The pages handed to the chip -/

structure HandedPage where
  addr : Nat
  data : Option Buffer
  oob : Option Buffer

def handedSingle (nld : Lower D) (ni : Instance) (p : HandedPage) : List HandedPage :=
  if ni.forcedReadOnly nld ∨ p.addr ≥ nld.ba2addr ni.dataBlockCount then []
  else if (physAddr nld ni p.addr).isSome then [p] else []

theorem mem_handedSingle {nld : Lower D} {ni : Instance} {p q : HandedPage}
    (h : q ∈ handedSingle nld ni p) : q = p := by
  unfold handedSingle at h
  split at h
  · cases h
  · split at h
    · exact mem_singleton.mp h
    · cases h

def mtdWriteTraced (nm : NmbmMtd D) (fuel : Nat) (mode : OobMode) (datbuf oobbuf : Buffer)
    (hasDat hasOob : Bool) : Nat → (addr : Nat) → MtdWrite →
    M D (List HandedPage × Int × MtdWrite)
  | 0, _, s => pure ([], 0, s)
  | n + 1, addr, s =>
    if s.dat.len = 0 ∧ s.oob.len = 0 then pure ([], 0, s)
    else do
      let s := s.stage nm mode datbuf oobbuf
      let page : HandedPage := ⟨addr, if hasDat then some s.cache.datcache else none,
        if hasOob then some s.cache.oobcache else none⟩
      let ni ← getNi
      let ret ← writeSinglePage nm.nld fuel addr page.data page.oob mode
      if ret ≠ 0 then pure (handedSingle nm.nld ni page, ret, s)
      else do
        let r ← mtdWriteTraced nm fuel mode datbuf oobbuf hasDat hasOob n
          (addr + nm.nld.writesize) s
        pure (handedSingle nm.nld ni page ++ r.1, r.2)

theorem mtdWritePages_eq (mode : OobMode) (datbuf oobbuf : Buffer) (hasDat hasOob : Bool)
    (n addr : Nat) (s : MtdWrite) :
    mtdWritePages nm fuel mode datbuf oobbuf hasDat hasOob n addr s = (do
      let r ← mtdWriteTraced nm fuel mode datbuf oobbuf hasDat hasOob n addr s
      pure r.2) := by
  induction n generalizing addr s with
  | zero => rfl
  | succ n ih =>
    simp only [mtdWritePages, mtdWriteTraced, ih]
    split
    · simp
    funext w
    -- The instance is read only for the trace.
    simp only [bind_assoc]
    rw [bind_of_run (getNi_run _)]
    refine congrFun (congrArg _ ?_) w
    funext ret
    split <;> simp

def mtdWriteDataPages (nm : NmbmMtd D) (fuel addr : Nat) (ops : OobOps) (cache : MtdCache) :
    M D (List HandedPage × Int × MtdWrite) :=
  mtdWriteTraced nm fuel ops.mode (ops.datbuf.getD fun _ => 0) (ops.oobbuf.getD fun _ => 0)
    (ops.len ≠ 0) (ops.ooblen ≠ 0) (ops.len + ops.ooblen) (nm.pageAddr addr)
    { cache := cache
      dat := ⟨addr % nm.nld.writesize, ops.len, 0⟩
      oob := ⟨ops.ooboffs, ops.ooblen, 0⟩ }

theorem mtdWriteData_eq (addr : Nat) (ops : OobOps) (cache : MtdCache) :
    mtdWriteData nm fuel addr ops cache = (do
      let r ← mtdWriteDataPages nm fuel addr ops cache
      pure r.2) := mtdWritePages_eq ..

theorem writeSinglePage_handed {nld : Lower D} {data oob : Option Buffer} {mode : OobMode} :
    Post (writeSinglePage nld fuel addr data oob mode) (fun ret _ => ret = 0 →
      handedSingle nld w.ni ⟨addr, data, oob⟩ = [⟨addr, data, oob⟩]) w := by
  simp only [writeSinglePage, writeLogicPage, getNi, post_bind, post_read, post_ite, post_pure]
  refine ⟨fun _ hret => absurd hret (by decide), fun hwritable => ⟨fun _ hret =>
    absurd hret (by decide), fun hinside => ?_⟩⟩
  cases hphys : physAddr nld w.ni addr with
  | none => exact post_pure.mpr fun hret => absurd hret (by decide)
  | some paddr =>
    refine .of_forall fun _ _ _ => ?_
    rw [handedSingle, if_neg (not_or.mpr ⟨hwritable, hinside⟩), if_pos (by rw [hphys]; rfl)]

structure PageOf (nm : NmbmMtd D) (mode : OobMode) (dat oob : Stream) (datbuf oobbuf : Buffer)
    (base : Nat) (p : HandedPage) (j : Nat) : Prop where
  addr : p.addr = base + j * nm.nld.writesize
  data : dat.Hands nm.nld.writesize datbuf j p.data
  oob : oob.Hands (nm.maxooblen mode) oobbuf j p.oob

theorem PageOf.unique {mode : OobMode} {dat oob : Stream} {datbuf oobbuf : Buffer} {base j j' : Nat}
    {p : HandedPage} (h : PageOf nm mode dat oob datbuf oobbuf base p j)
    (hws : 0 < nm.nld.writesize) (haddr : p.addr = base + j' * nm.nld.writesize) : j = j' :=
  eq_of_mul_eq_mul_right hws (add_left_cancel (h.addr.symm.trans haddr))

theorem NmbmMtd.maxooblen_le (nm : NmbmMtd D) (mode : OobMode) :
    nm.maxooblen mode ≤ nm.nld.oobsize := by
  cases mode with
  | autoOob => exact nm.oobavail_le
  | placeOob => exact le_refl _
  | raw => exact le_refl _

/-- The pages from number `k` on, of those that data and OOB need. -/
def NmbmMtd.pageAddrs (nm : NmbmMtd D) (mode : OobMode) (dat oob : Stream) (base k : Nat) :
    List Nat :=
  (range' k (max (dat.pages nm.nld.writesize) (oob.pages (nm.maxooblen mode)) - k)).map
    fun j => base + j * nm.nld.writesize

theorem pageAddrs_done {mode : OobMode} {dat oob s s' : Stream} {datbuf oobbuf cache' : Buffer}
    (base : Nat) (hdat : dat.At nm.nld.writesize datbuf k s cache)
    (hoob : oob.At (nm.maxooblen mode) oobbuf k s' cache') (hlen : s.len = 0 ∧ s'.len = 0) :
    nm.pageAddrs mode dat oob base k = [] := by
  rw [NmbmMtd.pageAddrs, Nat.sub_eq_zero_of_le
    (max_le (hdat.done_iff.mp hlen.1) (hoob.done_iff.mp hlen.2))]
  rfl

theorem mtdWriteTraced_pages {mode : OobMode} {dat oob : Stream} {datbuf oobbuf : Buffer}
    {base : Nat} (n k addr : Nat) (s : MtdWrite) (w : World D)
    (haddr : addr = base + k * nm.nld.writesize) (hn : s.dat.len + s.oob.len ≤ n)
    (hdat : dat.At nm.nld.writesize datbuf k s.dat s.cache.datcache)
    (hoob : oob.At (nm.maxooblen mode) oobbuf k s.oob s.cache.oobcache) :
    Post (mtdWriteTraced nm fuel mode datbuf oobbuf (dat.len ≠ 0) (oob.len ≠ 0) n addr s)
      (fun r _ => (∀ p ∈ r.1, ∃ j < max (dat.pages nm.nld.writesize)
          (oob.pages (nm.maxooblen mode)), PageOf nm mode dat oob datbuf oobbuf base p j) ∧
        (r.2.1 = 0 → r.1.map HandedPage.addr = nm.pageAddrs mode dat oob base k)) w := by
  induction n generalizing k addr s w with
  | zero =>
    exact post_pure.mpr ⟨by simp, fun _ => (pageAddrs_done base hdat hoob (by omega)).symm⟩
  | succ n ih =>
    simp only [mtdWriteTraced, post_ite, post_pure, post_bind, getNi, post_read]
    refine ⟨fun hlen => ⟨by simp, fun _ => (pageAddrs_done base hdat hoob hlen).symm⟩,
      fun hmore => ?_⟩
    have htotal := nm.maxooblen_le mode
    have hfirst : PageOf nm mode dat oob datbuf oobbuf base ⟨addr,
          if decide (dat.len ≠ 0) = true then
            some (s.stage nm mode datbuf oobbuf).cache.datcache else none,
          if decide (oob.len ≠ 0) = true then
            some (s.stage nm mode datbuf oobbuf).cache.oobcache else none⟩ k :=
      ⟨haddr, hdat.hands le_rfl, hoob.hands htotal⟩
    have hk : k < max (dat.pages nm.nld.writesize) (oob.pages (nm.maxooblen mode)) := by
      rw [lt_max_iff, ← not_le, ← not_le, ← hdat.done_iff, ← hoob.done_iff]
      tauto
    refine writeSinglePage_handed.mono fun ret w1 hhanded =>
      ⟨fun hret => ⟨fun p hp => ?_, fun hzero => absurd hzero hret⟩, fun hret => ?_⟩
    · obtain rfl := mem_handedSingle hp
      exact ⟨k, hk, hfirst⟩
    have hn' : (s.stage nm mode datbuf oobbuf).dat.len +
        (s.stage nm mode datbuf oobbuf).oob.len ≤ n := by
      have hle : (s.stage nm mode datbuf oobbuf).dat.len ≤ s.dat.len := Stream.next_len_le
      have hle' : (s.stage nm mode datbuf oobbuf).oob.len ≤ s.oob.len := Stream.next_len_le
      by_cases hlen : s.dat.len = 0
      · have hlt := Stream.next_len_lt hoob.offs_lt fun h => hmore ⟨hlen, h⟩
        change (s.stage nm mode datbuf oobbuf).oob.len < s.oob.len at hlt
        omega
      · have hlt := Stream.next_len_lt hdat.offs_lt hlen
        change (s.stage nm mode datbuf oobbuf).dat.len < s.dat.len at hlt
        omega
    refine (ih (k + 1) _ (s.stage nm mode datbuf oobbuf) w1 ?_ hn' (hdat.next le_rfl)
      (hoob.next htotal)).mono fun r _ hr => ⟨fun p hp => ?_, fun hzero => ?_⟩
    · rw [haddr, succ_mul, add_assoc]
    · rcases mem_append.mp hp with hp | hp
      · obtain rfl := mem_handedSingle hp
        exact ⟨k, hk, hfirst⟩
      · exact hr.1 p hp
    · rw [hhanded (not_not.mp hret), map_append, hr.2 hzero, NmbmMtd.pageAddrs,
        NmbmMtd.pageAddrs, ← succ_sub_succ_eq_sub _ k, succ_sub hk, haddr]
      rfl

/-! ## Right pages -/

/-- The page carries the data bytes of its own addresses and the OOB bytes of its own place, and
0xff around them. -/
structure RightOobPage (nm : NmbmMtd D) (addr : Nat) (ops : OobOps) (p : HandedPage) : Prop where
  data : ∀ page, p.data = some page → ∀ i < nm.nld.writesize,
    page i = rangeByte addr ops.len (ops.datbuf.getD fun _ => 0) (p.addr + i)
  oob : ∀ page, p.oob = some page →
    ∀ j, p.addr = addr - addr % nm.nld.writesize + j * nm.nld.writesize →
      ∀ i < nm.maxooblen ops.mode, page i =
        rangeByte ops.ooboffs ops.ooblen (ops.oobbuf.getD fun _ => 0)
          (j * nm.maxooblen ops.mode + i)

def NmbmMtd.dat (nm : NmbmMtd D) (addr : Nat) (ops : OobOps) : Stream :=
  ⟨addr % nm.nld.writesize, ops.len, 0⟩

def OobOps.oob (ops : OobOps) : Stream := ⟨ops.ooboffs, ops.ooblen, 0⟩

theorem NmbmMtd.pageAddr_eq (nm : NmbmMtd D) (h : addr < 4294967296) :
    nm.pageAddr addr = addr - addr % nm.nld.writesize := by
  have hsum := div_add_mod addr nm.nld.writesize
  rw [pageAddr, mod_eq_of_lt h, mul_comm]
  omega

theorem rangeByte_shift (base offs len : Nat) (buf : Buffer) (x : Nat) :
    rangeByte (base + offs) len buf (base + x) = rangeByte offs len buf x := by
  unfold rangeByte
  have hin : (base + offs ≤ base + x ∧ base + x < base + offs + len) ↔
      offs ≤ x ∧ x < offs + len := by omega
  have hsrc : base + x - (base + offs) = x - offs := by omega
  simp only [hin, hsrc]

theorem PageOf.right_iff {ops : OobOps} {p : HandedPage} {j : Nat} (hws : 0 < nm.nld.writesize)
    (hoffs : ops.ooboffs < nm.maxooblen ops.mode)
    (h : PageOf nm ops.mode (nm.dat addr ops) ops.oob (ops.datbuf.getD fun _ => 0)
      (ops.oobbuf.getD fun _ => 0) (addr - addr % nm.nld.writesize) p j) :
    RightOobPage nm addr ops p ↔
      (ops.len ≠ 0 → (nm.dat addr ops).pages nm.nld.writesize ≤ j →
        (nm.dat addr ops).LastBlank nm.nld.writesize (ops.datbuf.getD fun _ => 0)) ∧
      (ops.ooblen ≠ 0 → ops.oob.pages (nm.maxooblen ops.mode) ≤ j →
        ops.oob.LastBlank (nm.maxooblen ops.mode) (ops.oobbuf.getD fun _ => 0)) := by
  have hcol : (nm.dat addr ops).offs < nm.nld.writesize := mod_lt addr hws
  have hown : ∀ i, rangeByte addr ops.len (ops.datbuf.getD fun _ => 0) (p.addr + i) =
      rangeByte (nm.dat addr ops).offs (nm.dat addr ops).len (ops.datbuf.getD fun _ => 0)
        (j * nm.nld.writesize + i) := by
    intro i
    have hshift := rangeByte_shift (addr - addr % nm.nld.writesize) (addr % nm.nld.writesize)
      ops.len (ops.datbuf.getD fun _ => 0) (j * nm.nld.writesize + i)
    rw [Nat.sub_add_cancel (Nat.mod_le addr _)] at hshift
    rw [h.addr, add_assoc]
    exact hshift
  refine Iff.trans ?_ (and_congr (h.data.right_iff hcol) (h.oob.right_iff hoffs))
  constructor
  · intro hright
    exact ⟨fun b hb i hi => (hright.data b hb i hi).trans (hown i),
      fun b hb => hright.oob b hb j h.addr⟩
  · rintro ⟨hdata, hoob⟩
    refine ⟨fun b hb i hi => (hdata b hb i hi).trans (hown i).symm, fun b hb j' hj' => ?_⟩
    obtain rfl := h.unique hws hj'
    exact hoob b hb

/-- Neither data nor OOB runs out before the other, or what runs out ends with a page of 0xff. -/
def NmbmMtd.Matched (nm : NmbmMtd D) (addr : Nat) (ops : OobOps) : Prop :=
  (ops.len ≠ 0 → (nm.dat addr ops).pages nm.nld.writesize < ops.oob.pages (nm.maxooblen ops.mode) →
    (nm.dat addr ops).LastBlank nm.nld.writesize (ops.datbuf.getD fun _ => 0)) ∧
  (ops.ooblen ≠ 0 →
    ops.oob.pages (nm.maxooblen ops.mode) < (nm.dat addr ops).pages nm.nld.writesize →
    ops.oob.LastBlank (nm.maxooblen ops.mode) (ops.oobbuf.getD fun _ => 0))

/-- Each page of the call was handed on once, in order, with data and OOB if the caller gave
any, and is right. -/
structure Delivered (nm : NmbmMtd D) (addr : Nat) (ops : OobOps) (pages : List HandedPage) :
    Prop where
  once : pages.map HandedPage.addr =
    nm.pageAddrs ops.mode (nm.dat addr ops) ops.oob (addr - addr % nm.nld.writesize) 0
  given : ∀ p ∈ pages, (ops.len ≠ 0 → p.data.isSome) ∧ (ops.ooblen ≠ 0 → p.oob.isSome)
  right : ∀ p ∈ pages, RightOobPage nm addr ops p

/-- A call that returns 0 has delivered its data and OOB exactly when the two match; if they do,
no call hands a wrong page to the chip. -/
theorem written_once_iff {ops : OobOps} {cache : MtdCache} {r : List HandedPage × Int × MtdWrite}
    (hws : 0 < nm.nld.writesize) (h32 : addr < 4294967296)
    (haccepted : nm.oobRefused w.ni addr ops = false)
    (hrun : mtdWriteDataPages nm fuel addr ops cache w = some (r, w')) :
    mtdWriteData nm fuel addr ops cache w = some (r.2, w') ∧
      (nm.Matched addr ops → ∀ p ∈ r.1, RightOobPage nm addr ops p) ∧
      (r.2.1 = 0 → (Delivered nm addr ops r.1 ↔ nm.Matched addr ops)) := by
  have hoffs : ops.ooboffs < nm.maxooblen ops.mode := by
    have hrefused := (Bool.or_eq_false_iff.mp haccepted).1
    exact not_le.mp (of_decide_eq_false hrefused)
  have hbase : nm.pageAddr addr = addr - addr % nm.nld.writesize + 0 * nm.nld.writesize := by
    rw [nm.pageAddr_eq h32, Nat.zero_mul, Nat.add_zero]
  have hdat : (nm.dat addr ops).At nm.nld.writesize (ops.datbuf.getD fun _ => 0) 0
      (nm.dat addr ops) cache.datcache := .start (mod_lt addr hws) rfl
  have hoob : ops.oob.At (nm.maxooblen ops.mode) (ops.oobbuf.getD fun _ => 0) 0 ops.oob
      cache.oobcache := .start hoffs rfl
  obtain ⟨hpages, honce⟩ := mtdWriteTraced_pages (ops.len + ops.ooblen) 0 _
    ⟨cache, nm.dat addr ops, ops.oob⟩ w hbase le_rfl hdat hoob r w' hrun
  have hright : nm.Matched addr ops → ∀ p ∈ r.1, RightOobPage nm addr ops p := by
    rintro ⟨hdata, hspare⟩ p hp
    obtain ⟨j, hj, hpage⟩ := hpages p hp
    rw [hpage.right_iff hws hoffs]
    exact ⟨fun hlen hle => hdata hlen (by omega), fun hlen hle => hspare hlen (by omega)⟩
  refine ⟨?_, hright, fun hret => ⟨fun hdelivered => ?_, fun hmatched => ?_⟩⟩
  · rw [mtdWriteData_eq, bind_of_run hrun]
    rfl
  · -- The first page behind the shorter of the two.
    have hbehind : ∀ j < max ((nm.dat addr ops).pages nm.nld.writesize)
        (ops.oob.pages (nm.maxooblen ops.mode)), ∃ p ∈ r.1,
          PageOf nm ops.mode (nm.dat addr ops) ops.oob (ops.datbuf.getD fun _ => 0)
            (ops.oobbuf.getD fun _ => 0) (addr - addr % nm.nld.writesize) p j := by
      intro j hj
      have hmem : addr - addr % nm.nld.writesize + j * nm.nld.writesize ∈
          r.1.map HandedPage.addr := by
        rw [honce hret]
        exact mem_map_of_mem (mem_range'_1.mpr ⟨zero_le j, by omega⟩)
      obtain ⟨p, hp, haddr⟩ := mem_map.mp hmem
      obtain ⟨j', -, hpage⟩ := hpages p hp
      obtain rfl := hpage.unique hws haddr
      exact ⟨p, hp, hpage⟩
    refine ⟨fun hlen hlt => ?_, fun hlen hlt => ?_⟩
    · obtain ⟨p, hp, hpage⟩ := hbehind _ (lt_max_of_lt_right hlt)
      exact ((hpage.right_iff hws hoffs).mp (hdelivered.right p hp)).1 hlen le_rfl
    · obtain ⟨p, hp, hpage⟩ := hbehind _ (lt_max_of_lt_left hlt)
      exact ((hpage.right_iff hws hoffs).mp (hdelivered.right p hp)).2 hlen le_rfl
  · refine ⟨honce hret, fun p hp => ?_, hright hmatched⟩
    obtain ⟨j, -, hpage⟩ := hpages p hp
    exact ⟨hpage.data.given, hpage.oob.given⟩

/-! ## A byte and two pages of OOB -/

def smallMtd : NmbmMtd Flash := ⟨smallChip, 4, by decide⟩

def byteOps (ooblen : Nat) : OobOps where
  mode := .placeOob
  len := 1
  retlen := 0
  ooblen := ooblen
  oobretlen := 0
  ooboffs := 0
  datbuf := some fun _ => 0x55
  oobbuf := some fun _ => 0xaa

def noCache : MtdCache := ⟨fun _ => 0, fun _ => 0⟩

/-- The byte of address 0 is programmed at address 64, too. -/
theorem byte_written_twice :
    smallMtd.oobRefused (fullWorld BLOCK_ST_GOOD).ni 0 (byteOps 8) = false ∧
      ∃ r w', mtdWriteDataPages smallMtd 30 0 (byteOps 8) noCache (fullWorld BLOCK_ST_GOOD) =
          some (r, w') ∧
        mtdWriteData smallMtd 30 0 (byteOps 8) noCache (fullWorld BLOCK_ST_GOOD) =
          some (r.2, w') ∧ r.2.1 = 0 ∧ ¬Delivered smallMtd 0 (byteOps 8) r.1 := by
  have hrun : ∃ r ∈ mtdWriteDataPages smallMtd 30 0 (byteOps 8) noCache (fullWorld BLOCK_ST_GOOD),
      r.1.2.1 = 0 ∧ ∃ p ∈ r.1.1, p.addr = 64 ∧ ∃ page ∈ p.data, page 0 = 0x55 := by
    decide +kernel
  obtain ⟨⟨r, w'⟩, hpages, hret, p, hp, haddr, page, hsome, hbyte⟩ := hrun
  refine ⟨by decide, r, w', hpages, ?_, hret, fun hdelivered => ?_⟩
  · rw [mtdWriteData_eq, bind_of_run hpages]
    rfl
  have hown := (hdelivered.right p hp).data page hsome 0 (by decide)
  rw [hbyte, haddr] at hown
  exact absurd hown (by decide)

theorem byte_written_once :
    ∃ r w', mtdWriteDataPages smallMtd 30 0 (byteOps 4) noCache (fullWorld BLOCK_ST_GOOD) =
        some (r, w') ∧ r.2.1 = 0 ∧ Delivered smallMtd 0 (byteOps 4) r.1 := by
  have hrun : ∃ r ∈ mtdWriteDataPages smallMtd 30 0 (byteOps 4) noCache (fullWorld BLOCK_ST_GOOD),
      r.1.2.1 = 0 := by decide +kernel
  obtain ⟨⟨r, w'⟩, hpages, hret⟩ := hrun
  refine ⟨r, w', hpages, hret, ((written_once_iff (by decide) (by decide) (by decide)
    hpages).2.2 hret).mpr ⟨fun _ hlt => ?_, fun _ hlt => ?_⟩⟩
  all_goals exact absurd hlt (by decide)

end OpenWrt.Nmbm
