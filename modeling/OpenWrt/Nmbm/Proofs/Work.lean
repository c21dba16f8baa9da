import Mathlib.Algebra.Order.Group.Nat
import OpenWrt.Nmbm.Api

/-!
# What the page and block functions change

`Phys` is the relation between the worlds before and after operations on the chip that
leave the instance alone, and `Work` the one before and after management work on a
range of blocks.  Every function below the table procedures has one specification in
these terms.
-/

namespace OpenWrt.Nmbm

open Lib Lib.Prog List

variable {D α : Type}

/-! ## Block states -/

theorem getLsbD_three (k : Nat) : (3#32).getLsbD k = decide (k < 2) := by
  match k with
  | 0 => rfl
  | 1 => rfl
  | k + 2 =>
    have hbit : Nat.testBit 3 (k + 2) = false :=
      Nat.testBit_lt_two_pow (calc 3 < 2 ^ 2 := by decide
        _ ≤ 2 ^ (k + 2) := Nat.pow_le_pow_right (by decide) (by omega))
    simp [BitVec.getLsbD_ofNat, hbit]

theorem unit_bits (w st : BitVec 32) {i j : Nat} (hj : j < 16) :
    ((w &&& ~~~(3#32 <<< (i * 2)) ||| (st &&& 3#32) <<< (i * 2)) >>> (j * 2)) &&& 3#32 =
      if j = i then st &&& 3#32 else (w >>> (j * 2)) &&& 3#32 := by
  apply BitVec.eq_of_getLsbD_eq
  intro k hk
  by_cases hk2 : k < 2
  · have h32 : j * 2 + k < 32 := by omega
    by_cases hij : j = i
    · subst hij
      simp only [BitVec.getLsbD_and, BitVec.getLsbD_or, BitVec.getLsbD_ushiftRight,
        BitVec.getLsbD_shiftLeft, BitVec.getLsbD_not, getLsbD_three, if_true]
      simp [h32, hk2]
    · have hout : decide (j * 2 + k - i * 2 < 2) = false ∨ decide (j * 2 + k < i * 2) := by
        simp only [decide_eq_false_iff_not, decide_eq_true_eq]
        omega
      simp only [BitVec.getLsbD_and, BitVec.getLsbD_or, BitVec.getLsbD_ushiftRight,
        BitVec.getLsbD_shiftLeft, BitVec.getLsbD_not, getLsbD_three, if_neg hij]
      rcases hout with hout | hout
      all_goals
        rw [hout]
        simp [h32]
  · have hbit : (3#32).getLsbD k = false := by rw [getLsbD_three, decide_eq_false hk2]
    split
    all_goals simp only [BitVec.getLsbD_and, hbit, Bool.and_false]

theorem getBlockStateRaw_put (bs : Nat → BitVec 32) (ba ba' : Nat) (st : BitVec 32) :
    getBlockStateRaw (putBlockState bs ba st) ba' =
      if ba' = ba then st &&& BLOCK_ST_MASK else getBlockStateRaw bs ba' := by
  unfold getBlockStateRaw putBlockState
  by_cases hunit : ba' / NMBM_BITMAP_BLOCKS_PER_UNIT = ba / NMBM_BITMAP_BLOCKS_PER_UNIT
  · have hiff : ba' = ba ↔
        ba' % NMBM_BITMAP_BLOCKS_PER_UNIT = ba % NMBM_BITMAP_BLOCKS_PER_UNIT := by
      simp only [NMBM_BITMAP_BLOCKS_PER_UNIT] at hunit ⊢
      omega
    simp only [hunit, Function.update_self, hiff]
    exact unit_bits _ _ (Nat.mod_lt _ (by decide))
  · have hne : ba' ≠ ba := fun h => hunit (by rw [h])
    rw [Function.update_of_ne hunit, if_neg hne]

/-! ## Lawful devices -/

/-- The chip stores data: `mem` is the content of the main areas.  Reads change nothing and,
when they succeed, return what is stored; a write, an erasure and a bad mark change nothing
outside their page or block.  Nothing is said about what they do inside. -/
structure Lawful (nld : Lower D) (mem : D → Buffer) : Prop where
  reset : ∀ d, mem (nld.resetChip d) = mem d
  read : ∀ addr buf oob mode d, mem (nld.readPage addr buf oob mode d).2 = mem d
  readData : ∀ addr oob d, 0 ≤ (nld.readPage addr true oob .placeOob d).1.ret →
    ∀ i < nld.writesize, (nld.readPage addr true oob .placeOob d).1.data i = mem d (addr + i)
  write : ∀ addr buf oob mode d a, a < addr ∨ addr + nld.writesize ≤ a →
    mem (nld.writePage addr buf oob mode d).2 a = mem d a
  erase : ∀ addr d a, a < addr ∨ addr + nld.erasesize ≤ a →
    mem (nld.eraseBlock addr d).2 a = mem d a
  isBad : ∀ f ∈ nld.isBadBlock, ∀ addr d, mem (f addr d).2 = mem d
  markBad : ∀ f ∈ nld.markBadBlock, ∀ addr d a, a < addr ∨ addr + nld.erasesize ≤ a →
    mem (f addr d).2 a = mem d a

/-! ## Operations on the chip -/

/-- Only `page_cache` and the addresses from `lo` to `hi` may have changed. -/
structure Phys (nld : Lower D) (lo hi : Nat) (w w' : World D) : Prop where
  ni : w'.ni = { w.ni with pageCache := w'.ni.pageCache }
  mainTableEnd : w'.mainTableEnd = w.mainTableEnd
  backupTableEnd : w'.backupTableEnd = w.backupTableEnd
  log : w'.log = w.log
  failed : w'.failed = w.failed
  mem : ∀ mem, Lawful nld mem → ∀ a, a < lo ∨ hi ≤ a → mem w'.dev a = mem w.dev a

variable {nld : Lower D} {lo hi lo' hi' : Nat} {w w' w'' : World D}

namespace Phys

theorem refl (w : World D) : Phys nld lo hi w w := ⟨rfl, rfl, rfl, rfl, rfl, fun _ _ _ _ => rfl⟩

theorem trans (h : Phys nld lo hi w w') (h' : Phys nld lo hi w' w'') : Phys nld lo hi w w'' where
  ni := by rw [h'.ni, h.ni]
  mainTableEnd := h'.mainTableEnd.trans h.mainTableEnd
  backupTableEnd := h'.backupTableEnd.trans h.backupTableEnd
  log := h'.log.trans h.log
  failed := h'.failed.trans h.failed
  mem := fun mem hmem a ha => (h'.mem mem hmem a ha).trans (h.mem mem hmem a ha)

theorem mono (h : Phys nld lo hi w w') (hlo : lo' ≤ lo) (hhi : hi ≤ hi') : Phys nld lo' hi' w w' :=
  ⟨h.ni, h.mainTableEnd, h.backupTableEnd, h.log, h.failed, fun mem hmem a ha =>
    h.mem mem hmem a (by omega)⟩

theorem widen (h : Phys nld 0 0 w w') : Phys nld lo hi w w' :=
  ⟨h.ni, h.mainTableEnd, h.backupTableEnd, h.log, h.failed, fun mem hmem a _ =>
    h.mem mem hmem a (.inr (Nat.zero_le a))⟩

theorem mem_eq (h : Phys nld 0 0 w w') {mem : D → Buffer} (hmem : Lawful nld mem) :
    mem w'.dev = mem w.dev := by
  funext a
  exact h.mem mem hmem a (.inr (Nat.zero_le a))

theorem setCache (h : Phys nld lo hi w w') (c : Buffer) :
    Phys nld lo hi w { w' with ni := { w'.ni with pageCache := c } } :=
  ⟨by rw [h.ni], h.mainTableEnd, h.backupTableEnd, h.log, h.failed, h.mem⟩

theorem getBlockState (h : Phys nld lo hi w w') (ba : Nat) :
    w'.ni.getBlockState ba = w.ni.getBlockState ba := by rw [h.ni]; rfl

end Phys

theorem lower_phys {f : D → α × D} {w : World D}
    (hmem : ∀ mem, Lawful nld mem → ∀ a, a < lo ∨ hi ≤ a → mem (f w.dev).2 a = mem w.dev a) :
    Post (lower f) (fun _ w' => Phys nld lo hi w w') w := by
  rw [lower, post_call]
  exact ⟨rfl, rfl, rfl, rfl, rfl, hmem⟩

theorem resetChip_phys (w : World D) : Post (resetChip nld) (fun _ w' => Phys nld 0 0 w w') w := by
  apply lower_phys
  intro mem hmem a _
  rw [hmem.reset]

theorem retry_spec {P : World D → α → Prop} {ok : α → Bool} {op : M D α}
    (hstable : ∀ w w' r, Phys nld lo hi w w' → P w' r → P w r)
    (hop : ∀ w, Post op (fun r w' => Phys nld lo hi w w' ∧ P w r) w) (n : Nat) (w : World D) :
    Post (retry nld ok op n) (fun r w' => Phys nld lo hi w w' ∧ P w r) w := by
  induction n generalizing w
  all_goals
    rw [retry, post_bind]
    refine (hop w).mono ?_
    rintro r w1 ⟨h1, hP⟩
    simp only [post_ite, post_bind, post_pure]
    refine ⟨fun _ => ⟨h1, hP⟩, fun _ => ?_⟩
    refine (resetChip_phys w1).mono ?_
    intro _ w2 h2
    have h12 := h1.trans h2.widen
  · exact ⟨h12, hP⟩
  · rename_i ih _ _
    refine (ih w2).mono ?_
    rintro r' w3 ⟨h3, hP'⟩
    exact ⟨h12.trans h3, hstable w w2 r' h12 hP'⟩

theorem retry_phys {ok : α → Bool} {op : M D α}
    (hop : ∀ w, Post op (fun _ w' => Phys nld lo hi w w') w) (n : Nat) (w : World D) :
    Post (retry nld ok op n) (fun _ w' => Phys nld lo hi w w') w := by
  have hop' : ∀ w, Post op (fun _ w' => Phys nld lo hi w w' ∧ True) w := by
    intro w
    exact (hop w).mono fun _ _ h => ⟨h, trivial⟩
  exact (retry_spec (P := fun _ _ => True) (fun _ _ _ _ _ => trivial) hop' n w).mono
    fun _ _ h => h.1

theorem readPhysPage_phys (addr : Nat) (buf oob : Bool) (mode : OobMode) (w : World D) :
    Post (readPhysPage nld addr buf oob mode) (fun _ w' => Phys nld 0 0 w w') w := by
  apply retry_phys
  intro w
  apply lower_phys
  intro mem hmem a _
  rw [hmem.read]

def ReadsPage (nld : Lower D) (addr : Nat) (w : World D) (r : PageRead) : Prop :=
  ∀ mem, Lawful nld mem → 0 ≤ r.ret → ∀ i < nld.writesize, r.data i = mem w.dev (addr + i)

theorem readPhysPage_spec (addr : Nat) (oob : Bool) (w : World D) :
    Post (readPhysPage nld addr true oob .placeOob)
      (fun r w' => Phys nld 0 0 w w' ∧ ReadsPage nld addr w r) w := by
  apply retry_spec
  · intro w w' r hphys hreads mem hmem hret i hi
    rw [hreads mem hmem hret i hi, hphys.mem_eq hmem]
  intro w
  rw [lower, post_call]
  refine ⟨⟨rfl, rfl, rfl, rfl, rfl, ?_⟩, ?_⟩
  · intro mem hmem a _
    rw [hmem.read]
  · intro mem hmem hret i hi
    exact hmem.readData addr oob w.dev hret i hi

theorem writePhysPage_phys (addr : Nat) (data oob : Option Buffer) (mode : OobMode)
    (w : World D) :
    Post (writePhysPage nld addr data oob mode)
      (fun _ w' => Phys nld addr (addr + nld.writesize) w w') w := by
  simp only [writePhysPage, post_ite, post_pure, post_bind]
  refine ⟨fun _ => .refl w, fun _ => ?_⟩
  apply retry_phys
  intro w
  apply lower_phys
  intro mem hmem a ha
  exact hmem.write addr data oob mode w.dev a ha

theorem erasePhysBlock_phys (addr : Nat) (w : World D) :
    Post (erasePhysBlock nld addr)
      (fun _ w' => Phys nld addr (addr + nld.erasesize) w w') w := by
  simp only [erasePhysBlock, post_ite, post_pure, post_bind]
  refine ⟨fun _ => .refl w, fun _ => ?_⟩
  apply retry_phys
  intro w
  apply lower_phys
  intro mem hmem a ha
  exact hmem.erase addr w.dev a ha

theorem readPageCache_spec (addr : Nat) (w : World D) :
    Post (readPageCache nld addr)
      (fun r w' => Phys nld 0 0 w w' ∧ ReadsPage nld addr w r ∧
        ∀ i < nld.writesize, w'.ni.pageCache i = r.data i) w := by
  rw [readPageCache, post_bind]
  refine (readPhysPage_spec addr false w).mono ?_
  rintro r w1 ⟨h1, hreads⟩
  simp only [modifyNi, post_bind, post_update, post_pure]
  refine ⟨h1.setCache _, hreads, ?_⟩
  intro i hi
  rw [memcpy_inside (by omega), Nat.sub_zero, zero_add]

theorem checkBadPhysBlock_phys (ba : Nat) (w : World D) :
    Post (checkBadPhysBlock nld ba) (fun _ w' => Phys nld 0 0 w w') w := by
  unfold checkBadPhysBlock
  split
  · rename_i f hf
    apply lower_phys
    intro mem hmem a _
    rw [hmem.isBad f hf]
  · rw [post_bind]
    refine (readPhysPage_phys _ _ _ _ w).mono ?_
    intro r w1 h1
    simp only [modifyNi, getNi, post_bind, post_update, post_read, post_pure]
    exact h1.setCache _

theorem writePages_phys (addr n : Nat) (w : World D) (hlo : lo ≤ addr)
    (hhi : addr + n * nld.writesize ≤ hi) :
    Post (writePages nld addr n) (fun _ w' => Phys nld lo hi w w') w := by
  induction n generalizing addr w with
  | zero => exact post_pure.mpr (.refl w)
  | succ n ih =>
    rw [Nat.add_mul] at hhi
    simp only [writePages, getNi, post_bind, post_read]
    refine (writePhysPage_phys _ _ _ _ w).mono ?_
    intro _ w1 h1
    refine (ih (addr + nld.writesize) w1 (by omega) (by omega)).mono ?_
    intro _ w2 h2
    exact (h1.mono hlo (by omega)).trans h2

theorem markPhysBadBlock_phys (ba : Nat) (w : World D) :
    Post (markPhysBadBlock nld ba)
      (fun _ w' => Phys nld (nld.ba2addr ba) (nld.ba2addr ba + nld.erasesize) w w') w := by
  unfold markPhysBadBlock
  rw [post_ite]
  refine ⟨fun _ => post_pure.mpr (.refl w), fun _ => ?_⟩
  split
  · rename_i f hf
    simp only [post_bind, post_pure]
    apply lower_phys
    intro mem hmem a ha
    exact hmem.markBad f hf _ _ a ha
  · refine (writePages_phys (nld.ba2addr ba) nld.pagesPerBlock _ le_rfl
      (Nat.add_le_add_left (Nat.div_mul_le_self _ _) _)).mono ?_
    intro _ w1 h1
    exact ((Phys.refl w).setCache _).trans h1

theorem checkEmptyPages_phys (addr n : Nat) (w : World D) :
    Post (checkEmptyPages nld addr n) (fun _ w' => Phys nld 0 0 w w') w := by
  induction n generalizing addr w with
  | zero => exact post_pure.mpr (.refl w)
  | succ n ih =>
    rw [checkEmptyPages, post_bind]
    refine (readPageCache_spec addr w).mono ?_
    rintro r w1 ⟨h1, -, -⟩
    simp only [post_ite, post_pure]
    refine ⟨fun _ => h1, fun _ => ?_⟩
    exact (ih _ w1).mono fun _ _ h2 => h1.trans h2

theorem eraseBlockAndCheck_phys (ba : Nat) (w : World D) :
    Post (eraseBlockAndCheck nld ba)
      (fun _ w' => Phys nld (nld.ba2addr ba) (nld.ba2addr ba + nld.erasesize) w w') w := by
  rw [eraseBlockAndCheck, post_bind]
  refine (erasePhysBlock_phys _ w).mono ?_
  intro success w1 h1
  simp only [post_ite, post_pure]
  refine ⟨fun _ => h1, fun _ => ⟨fun _ => h1, fun _ => ?_⟩⟩
  exact (checkEmptyPages_phys _ _ w1).mono fun _ _ h2 => h1.trans h2.widen

theorem readDataLoop_phys (n off : Nat) (data : Buffer) (ptr sizeremain : Nat) (w : World D) :
    Post (readDataLoop nld n off data ptr sizeremain) (fun _ w' => Phys nld 0 0 w w') w := by
  induction n generalizing off data ptr sizeremain w with
  | zero => exact post_pure.mpr (.refl w)
  | succ n ih =>
    simp only [readDataLoop, getNi, post_ite, post_bind, post_pure, post_read]
    refine ⟨fun _ => .refl w, fun _ => ⟨fun _ => ?_, fun _ => ?_⟩⟩
    · refine (readPhysPage_phys _ _ _ _ w).mono ?_
      intro r w1 h1
      exact ⟨fun _ => h1, fun _ => (ih _ _ _ _ w1).mono fun _ _ h2 => h1.trans h2⟩
    · refine (readPageCache_spec _ w).mono ?_
      rintro r w1 ⟨h1, -, -⟩
      exact ⟨fun _ => h1, fun _ => (ih _ _ _ _ w1).mono fun _ _ h2 => h1.trans h2⟩

theorem page_between {ws lo hi off : Nat} (hlo : ws ∣ lo) (hhi : ws ∣ hi) (hle : lo ≤ off)
    (hlt : off < hi) : lo ≤ off - off % ws ∧ off - off % ws + ws ≤ hi := by
  rcases hlo with ⟨x, rfl⟩
  rcases hhi with ⟨y, rfl⟩
  have hws : 0 < ws := Nat.pos_of_ne_zero fun h => by simp [h] at hlt
  have hdiv : off - off % ws = ws * (off / ws) := by
    have := Nat.div_add_mod off ws
    omega
  have hx : x ≤ off / ws := (Nat.le_div_iff_mul_le hws).mpr (by rwa [mul_comm])
  have hy : off / ws < y := Nat.div_lt_of_lt_mul hlt
  rw [hdiv]
  refine ⟨Nat.mul_le_mul_left ws hx, ?_⟩
  calc ws * (off / ws) + ws = ws * (off / ws + 1) := by rw [Nat.mul_add, Nat.mul_one]
    _ ≤ ws * y := Nat.mul_le_mul_left ws hy

def OnChip (nld : Lower D) (w : World D) (addr : Nat) (data : Buffer) (ptr size : Nat) : Prop :=
  ∀ mem, Lawful nld mem → ∀ i < size, mem w.dev (addr + i) = data (ptr + i)

theorem writeVerifyLoop_zero (data : Buffer) (n off ptr : Nat) :
    writeVerifyLoop nld data n off ptr 0 = pure true := by
  cases n with
  | zero => rfl
  | succ n => rw [writeVerifyLoop, if_pos rfl]

theorem writeVerifyLoop_spec (data : Buffer) (n off ptr sizeremain : Nat) (w : World D)
    (hws : 0 < nld.writesize) (hn : sizeremain ≤ n) (hlo : nld.writesize ∣ lo)
    (hhi : nld.writesize ∣ hi) (hle : lo ≤ off) (hfit : off + sizeremain ≤ hi) :
    Post (writeVerifyLoop nld data n off ptr sizeremain)
      (fun success w' => Phys nld lo hi w w' ∧
        (success → OnChip nld w' off data ptr sizeremain)) w := by
  induction n generalizing lo off ptr sizeremain w with
  | zero =>
    refine post_pure.mpr ⟨.refl w, fun _ mem _ i hi => ?_⟩
    omega
  | succ n ih =>
    simp only [writeVerifyLoop, modifyNi, getNi, post_ite, post_bind, post_pure, post_update,
      post_read]
    refine ⟨fun hzero => ⟨.refl w, fun _ mem _ i hi => by omega⟩, fun hne => ?_⟩
    have hpage := page_between hlo hhi hle (by omega)
    have hmod := Nat.mod_lt off hws
    generalize hleading : off % nld.writesize = leading at hpage hmod ⊢
    generalize hchunk : min (nld.writesize - leading) sizeremain = chunksize
    have hmodle := Nat.mod_le off nld.writesize
    refine (writePhysPage_phys _ _ _ _ _).mono ?_
    intro success w1 h1
    have h1 : Phys nld lo hi w w1 :=
      ((Phys.refl w).setCache _).trans (h1.mono hpage.1 hpage.2)
    refine ⟨fun _ => ⟨h1, fun h => by cases h⟩, fun _ => ?_⟩
    refine (readPageCache_spec _ w1).mono ?_
    rintro r w2 ⟨h2, hreads, hcache⟩
    refine ⟨fun _ => ⟨h1.trans h2.widen, fun h => by cases h⟩, fun hret => ?_⟩
    refine ⟨fun _ => ⟨h1.trans h2.widen, fun h => by cases h⟩, fun hsame => ?_⟩
    have hfirst : OnChip nld w2 off data ptr chunksize := by
      intro mem hmem i hi
      have hbyte : w2.ni.pageCache (leading + i) = data (ptr + i) :=
        eq_of_slice_eq (not_not.mp hsame) hi
      have hread := hreads mem hmem (by omega) (leading + i) (by omega)
      have haddr : off - leading + (leading + i) = off + i := by omega
      rw [h2.mem_eq hmem, ← hbyte, hcache _ (by omega), hread, haddr]
    have h2 := h1.trans h2.widen
    by_cases hlast : sizeremain - chunksize = 0
    · rw [hlast, writeVerifyLoop_zero, post_pure]
      have hall : sizeremain = chunksize := by omega
      rw [hall]
      exact ⟨h2, fun _ => hfirst⟩
    · have hborder : off + chunksize = off - leading + nld.writesize := by omega
      have hdvd : nld.writesize ∣ off + chunksize := by
        rw [hborder, ← hleading]
        exact Nat.dvd_add (Nat.dvd_sub_mod off) (Nat.dvd_refl _)
      refine (ih (off + chunksize) (ptr + chunksize) (sizeremain - chunksize) w2 (by omega) hdvd
        le_rfl (by omega)).mono ?_
      rintro success w3 ⟨h3, hrest⟩
      refine ⟨h2.trans (h3.mono (by omega) le_rfl), fun hok mem hmem i hi => ?_⟩
      by_cases hin : i < chunksize
      · rw [h3.mem mem hmem _ (by omega), hfirst mem hmem i hin]
      · have hbyte := hrest hok mem hmem (i - chunksize) (by omega)
        have haddr : off + chunksize + (i - chunksize) = off + i := by omega
        have hptr : ptr + chunksize + (i - chunksize) = ptr + i := by omega
        rwa [haddr, hptr] at hbyte

theorem writesize_pos (hes : 0 < nld.erasesize) : 0 < nld.writesize :=
  Nat.pos_of_dvd_of_pos nld.page_dvd hes

theorem writeVerifyData_spec (hes : 0 < nld.erasesize) (ba : Nat) (data : Buffer)
    (ptr : Nat) {size : Nat} (hsize : size ≤ nld.erasesize) (w : World D) :
    Post (writeVerifyData nld (nld.ba2addr ba) data ptr size)
      (fun success w' => Phys nld (nld.ba2addr ba) (nld.ba2addr ba + nld.erasesize) w w' ∧
        (success → OnChip nld w' (nld.ba2addr ba) data ptr size)) w := by
  have hlo : nld.writesize ∣ nld.ba2addr ba := Nat.dvd_mul_left_of_dvd nld.page_dvd ba
  exact writeVerifyLoop_spec data size (nld.ba2addr ba) ptr size w (writesize_pos hes)
    le_rfl hlo (Nat.dvd_add hlo nld.page_dvd) le_rfl (by omega)

/-! ## Management work on blocks -/

structure SameFrame (ni ni' : Instance) : Prop where
  blockMapping : ni'.blockMapping = ni.blockMapping
  dataBlockCount : ni'.dataBlockCount = ni.dataBlockCount
  mgmtStartBa : ni'.mgmtStartBa = ni.mgmtStartBa
  mappingBlocksTopBa : ni'.mappingBlocksTopBa = ni.mappingBlocksTopBa
  signatureBa : ni'.signatureBa = ni.signatureBa

namespace SameFrame

variable {ni ni' ni'' : Instance}

theorem refl (ni : Instance) : SameFrame ni ni := ⟨rfl, rfl, rfl, rfl, rfl⟩

theorem trans (h : SameFrame ni ni') (h' : SameFrame ni' ni'') : SameFrame ni ni'' :=
  ⟨h'.1.trans h.1, h'.2.trans h.2, h'.3.trans h.3, h'.4.trans h.4, h'.5.trans h.5⟩

end SameFrame

/-- The events since `w` are management work on the blocks from `lo` on, below `hi`. -/
def Touches (lo hi : Nat) (w w' : World D) : Prop :=
  ∃ es, w'.log = es ++ w.log ∧ ∀ e ∈ es, ∃ ba ni, e = .touch ba ni ∧ lo ≤ ba ∧ ba < hi ∧
    SameFrame w.ni ni

/-- The good blocks that have failed since `w` are bad now, and no other block has changed its
state. -/
def Fails (w w' : World D) : Prop :=
  ∃ bas, w'.failed = bas ++ w.failed ∧
    (∀ ba ∈ bas, w.ni.getBlockState ba = BLOCK_ST_GOOD ∧ w'.ni.getBlockState ba = BLOCK_ST_BAD) ∧
    ∀ ba, ba ∉ bas → w'.ni.getBlockState ba = w.ni.getBlockState ba

/-- The blocks from `lo` on, below `hi`, may have been erased, written or found bad; the
records of the tables may have changed. -/
structure Mgmt (nld : Lower D) (lo hi : Nat) (w w' : World D) : Prop where
  frame : SameFrame w.ni w'.ni
  log : Touches lo hi w w'
  state : ∀ ba, w'.ni.getBlockState ba = w.ni.getBlockState ba ∨
    lo ≤ ba ∧ ba < hi ∧ w.ni.getBlockState ba = BLOCK_ST_GOOD ∧
      w'.ni.getBlockState ba = BLOCK_ST_BAD
  failed : Fails w w'
  mem : ∀ mem, Lawful nld mem → ∀ a, a < nld.ba2addr lo ∨ nld.ba2addr hi ≤ a →
    mem w'.dev a = mem w.dev a

def Turned (w w' : World D) : Prop :=
  ∃ ba, w.ni.getBlockState ba = BLOCK_ST_GOOD ∧ w'.ni.getBlockState ba = BLOCK_ST_BAD

/-- No block has changed its state but good ones that have gone bad. -/
def Worn (w w' : World D) : Prop :=
  ∀ ba, w'.ni.getBlockState ba = w.ni.getBlockState ba ∨
    w.ni.getBlockState ba = BLOCK_ST_GOOD ∧ w'.ni.getBlockState ba = BLOCK_ST_BAD

structure Work (nld : Lower D) (lo hi : Nat) (w w' : World D) : Prop
    extends Mgmt nld lo hi w w' where
  ni : w'.ni =
    { w.ni with
      pageCache := w'.ni.pageCache
      blockState := w'.ni.blockState
      blockStateChanged := w'.ni.blockStateChanged }
  mainTableEnd : w'.mainTableEnd = w.mainTableEnd
  backupTableEnd : w'.backupTableEnd = w.backupTableEnd
  counted : w'.ni.blockStateChanged = w.ni.blockStateChanged ∨ Turned w w'

theorem Worn.of_eq (h : w'.ni.blockState = w.ni.blockState) : Worn w w' :=
  fun ba => .inl (congrArg (getBlockStateRaw · ba) h)

theorem Worn.trans (h : Worn w w') (h' : Worn w' w'') : Worn w w'' := by
  intro ba
  rcases h' ba with hsame | ⟨hgood, hbad⟩
  · rw [hsame]
    exact h ba
  · rcases h ba with hsame' | ⟨-, hbad'⟩
    · exact .inr ⟨hsame'.symm.trans hgood, hbad⟩
    · rw [hbad'] at hgood
      exact absurd hgood (by decide)

theorem Turned.trans_worn (h : Turned w w') (hworn : Worn w' w'') : Turned w w'' := by
  obtain ⟨ba, hgood, hbad⟩ := h
  refine ⟨ba, hgood, ?_⟩
  rcases hworn ba with hsame | ⟨-, hbad'⟩
  · rw [hsame, hbad]
  · exact hbad'

theorem Worn.trans_turned (hworn : Worn w w') (h : Turned w' w'') : Turned w w'' := by
  obtain ⟨ba, hgood, hbad⟩ := h
  refine ⟨ba, ?_, hbad⟩
  rcases hworn ba with hsame | ⟨hgood', -⟩
  · rw [← hsame, hgood]
  · exact hgood'

theorem Fails.of_eq (hfailed : w'.failed = w.failed)
    (h : ∀ ba, w'.ni.getBlockState ba = w.ni.getBlockState ba) : Fails w w' :=
  ⟨[], hfailed, fun _ hba => absurd hba not_mem_nil, fun ba _ => h ba⟩

theorem Fails.trans (h : Fails w w') (h' : Fails w' w'') : Fails w w'' := by
  obtain ⟨bas, hfailed, hbad, hsame⟩ := h
  obtain ⟨bas', hfailed', hbad', hsame'⟩ := h'
  refine ⟨bas' ++ bas, by rw [hfailed', hfailed, append_assoc], fun ba hba => ?_,
    fun ba hba => ?_⟩
  · by_cases hin : ba ∈ bas
    · have hlater : ba ∉ bas' := fun hin' => by
        have hgood := (hbad' ba hin').1
        rw [(hbad ba hin).2] at hgood
        exact absurd hgood (by decide)
      exact ⟨(hbad ba hin).1, (hsame' ba hlater).trans (hbad ba hin).2⟩
    · have hstates := hbad' ba ((mem_append.mp hba).resolve_right hin)
      exact ⟨(hsame ba hin).symm.trans hstates.1, hstates.2⟩
  · rw [mem_append, not_or] at hba
    exact (hsame' ba hba.1).trans (hsame ba hba.2)

theorem Touches.trans (h : Touches lo hi w w') (h' : Touches lo hi w' w'')
    (hframe : SameFrame w.ni w'.ni) : Touches lo hi w w'' := by
  rcases h with ⟨es, hlog, hes⟩
  rcases h' with ⟨es', hlog', hes'⟩
  refine ⟨es' ++ es, by rw [hlog', hlog, append_assoc], ?_⟩
  intro e he
  rcases mem_append.mp he with he | he
  · rcases hes' e he with ⟨ba, ni, rfl, hlo, hhi, hsame⟩
    exact ⟨ba, ni, rfl, hlo, hhi, hframe.trans hsame⟩
  · exact hes e he

theorem Touches.mono (h : Touches lo hi w w') (hlo : lo' ≤ lo) (hhi : hi ≤ hi') :
    Touches lo' hi' w w' := by
  rcases h with ⟨es, hlog, hes⟩
  refine ⟨es, hlog, ?_⟩
  intro e he
  rcases hes e he with ⟨ba, ni, rfl, hba, hba', hsame⟩
  exact ⟨ba, ni, rfl, hlo.trans hba, hba'.trans_le hhi, hsame⟩

theorem ba2addr_mono (nld : Lower D) {ba ba' : Nat} (h : ba ≤ ba') :
    nld.ba2addr ba ≤ nld.ba2addr ba' :=
  Nat.mul_le_mul_right _ h

theorem ba2addr_succ (nld : Lower D) (ba : Nat) :
    nld.ba2addr (ba + 1) = nld.ba2addr ba + nld.erasesize := by
  rw [Lower.ba2addr, Nat.add_mul, Nat.one_mul]
  rfl

theorem ba2addr_apart (nld : Lower D) {ba ba' : Nat} (h : ba ≠ ba') :
    nld.ba2addr ba + nld.erasesize ≤ nld.ba2addr ba' ∨
      nld.ba2addr ba' + nld.erasesize ≤ nld.ba2addr ba := by
  rw [← ba2addr_succ, ← ba2addr_succ]
  rcases Nat.lt_or_gt_of_ne h with hlt | hlt
  · exact .inl (ba2addr_mono nld hlt)
  · exact .inr (ba2addr_mono nld hlt)

theorem erasesize_pos {ba a : Nat} (h : a < nld.ba2addr ba) : 0 < nld.erasesize := by
  apply Nat.pos_of_ne_zero
  intro hzero
  rw [Lower.ba2addr, hzero] at h
  exact Nat.not_lt_zero a h

namespace Mgmt

theorem of_eq (hframe : SameFrame w.ni w'.ni) (hdev : w'.dev = w.dev) (hlog : w'.log = w.log)
    (hfailed : w'.failed = w.failed) (hstate : w'.ni.blockState = w.ni.blockState) :
    Mgmt nld lo hi w w' where
  frame := hframe
  log := ⟨[], hlog, fun _ he => by cases he⟩
  state := fun ba => .inl (congrArg (getBlockStateRaw · ba) hstate)
  failed := .of_eq hfailed fun ba => congrArg (getBlockStateRaw · ba) hstate
  mem := fun mem _ a _ => by rw [hdev]

theorem refl (w : World D) : Mgmt nld lo hi w w := of_eq (.refl _) rfl rfl rfl rfl

theorem trans (h : Mgmt nld lo hi w w') (h' : Mgmt nld lo hi w' w'') : Mgmt nld lo hi w w'' where
  frame := h.frame.trans h'.frame
  log := h.log.trans h'.log h.frame
  state := by
    intro ba
    rcases h'.state ba with hsame' | ⟨hlo, hhi, hgood, hbad⟩
    · rw [hsame']
      exact h.state ba
    · right
      rcases h.state ba with hsame | ⟨-, -, -, hbad'⟩
      · exact ⟨hlo, hhi, hsame ▸ hgood, hbad⟩
      · rw [hbad'] at hgood
        exact absurd hgood (by decide)
  failed := h.failed.trans h'.failed
  mem := fun mem hmem a ha => (h'.mem mem hmem a ha).trans (h.mem mem hmem a ha)

theorem prepend (h : Mgmt nld lo hi w' w'') (hframe : SameFrame w.ni w'.ni)
    (hdev : w'.dev = w.dev) (hlog : w'.log = w.log) (hfailed : w'.failed = w.failed)
    (hstate : w'.ni.blockState = w.ni.blockState) : Mgmt nld lo hi w w'' :=
  (of_eq hframe hdev hlog hfailed hstate).trans h

theorem mono (h : Mgmt nld lo hi w w') (hlo : lo' ≤ lo) (hhi : hi ≤ hi') :
    Mgmt nld lo' hi' w w' where
  frame := h.frame
  log := h.log.mono hlo hhi
  state := by
    intro ba
    rcases h.state ba with hsame | ⟨hba, hba', hstates⟩
    · exact .inl hsame
    · exact .inr ⟨hlo.trans hba, hba'.trans_le hhi, hstates⟩
  failed := h.failed
  mem := by
    intro mem hmem a ha
    have h1 := ba2addr_mono nld hlo
    have h2 := ba2addr_mono nld hhi
    exact h.mem mem hmem a (by omega)

theorem widen (h : Mgmt nld lo lo w w') : Mgmt nld lo' hi' w w' where
  frame := h.frame
  log := by
    rcases h.log with ⟨es, hlog, hes⟩
    refine ⟨es, hlog, fun e he => ?_⟩
    rcases hes e he with ⟨ba, ni, -, hlo, hhi, -⟩
    omega
  state := by
    intro ba
    rcases h.state ba with hsame | ⟨hlo, hhi, -⟩
    · exact .inl hsame
    · omega
  failed := h.failed
  mem := fun mem hmem a _ => h.mem mem hmem a (lt_or_ge a (nld.ba2addr lo))

theorem state_outside (h : Mgmt nld lo hi w w') {ba : Nat} (hba : ba < lo ∨ hi ≤ ba) :
    w'.ni.getBlockState ba = w.ni.getBlockState ba := by
  rcases h.state ba with hsame | ⟨hlo, hhi, -⟩
  · exact hsame
  · omega

theorem onChip (h : Mgmt nld lo hi w w') {ba ptr size : Nat} {data : Buffer}
    (hba : ba + 1 ≤ lo ∨ hi ≤ ba) (hsize : size ≤ nld.erasesize)
    (hchip : OnChip nld w (nld.ba2addr ba) data ptr size) :
    OnChip nld w' (nld.ba2addr ba) data ptr size := by
  intro mem hmem i hi'
  have hnext := ba2addr_succ nld ba
  have hout : nld.ba2addr ba + i < nld.ba2addr lo ∨ nld.ba2addr hi ≤ nld.ba2addr ba + i := by
    rcases hba with hba | hba
    all_goals
      have := ba2addr_mono nld hba
      omega
  rw [h.mem mem hmem _ hout, hchip mem hmem i hi']

theorem worn (h : Mgmt nld lo hi w w') : Worn w w' := by
  intro ba
  rcases h.state ba with hsame | ⟨-, -, hgood, hbad⟩
  · exact .inl hsame
  · exact .inr ⟨hgood, hbad⟩

end Mgmt

namespace Work

theorem refl (w : World D) : Work nld lo hi w w := ⟨.refl w, rfl, rfl, rfl, Or.inl rfl⟩

section

variable (h : Work nld lo hi w w')

include h

theorem trans (h' : Work nld lo hi w' w'') : Work nld lo hi w w'' where
  toMgmt := h.toMgmt.trans h'.toMgmt
  ni := by rw [h'.ni, h.ni]
  mainTableEnd := h'.mainTableEnd.trans h.mainTableEnd
  backupTableEnd := h'.backupTableEnd.trans h.backupTableEnd
  counted := by
    rcases h.counted with hcount | hturned
    · rcases h'.counted with hcount' | hturned'
      · exact .inl (hcount'.trans hcount)
      · exact .inr (h.worn.trans_turned hturned')
    · exact .inr (hturned.trans_worn h'.worn)

theorem mono (hlo : lo' ≤ lo) (hhi : hi ≤ hi') : Work nld lo' hi' w w' :=
  ⟨h.toMgmt.mono hlo hhi, h.ni, h.mainTableEnd, h.backupTableEnd, h.counted⟩

omit h in
theorem widen (h : Work nld lo lo w w') : Work nld lo' hi' w w' :=
  ⟨h.toMgmt.widen, h.ni, h.mainTableEnd, h.backupTableEnd, h.counted⟩

omit h in
theorem of_phys {ba : Nat}
    (h : Phys nld (nld.ba2addr ba) (nld.ba2addr ba + nld.erasesize) w w') :
    Work nld ba (ba + 1) w w' where
  frame := by
    rw [h.ni]
    exact ⟨rfl, rfl, rfl, rfl, rfl⟩
  log := ⟨[], h.log, fun _ he => by cases he⟩
  state := fun ba => .inl (h.getBlockState ba)
  failed := .of_eq h.failed h.getBlockState
  mem := by
    intro mem hmem a ha
    rw [ba2addr_succ] at ha
    exact h.mem mem hmem a ha
  ni := by rw [h.ni]
  mainTableEnd := h.mainTableEnd
  backupTableEnd := h.backupTableEnd
  counted := .inl (by rw [h.ni])

theorem mainTableBa : w'.ni.mainTableBa = w.ni.mainTableBa := by
  rw [h.ni]

theorem backupTableBa : w'.ni.backupTableBa = w.ni.backupTableBa := by
  rw [h.ni]

theorem mappingBlocksBa : w'.ni.mappingBlocksBa = w.ni.mappingBlocksBa := by rw [h.ni]

theorem isProtected : w'.ni.isProtected = w.ni.isProtected := by
  rw [h.ni]

theorem infoTableCache : w'.ni.infoTableCache = w.ni.infoTableCache := by rw [h.ni]

theorem infoTable : w'.ni.infoTable = w.ni.infoTable := by rw [h.ni]

end

end Work

theorem getBlockState_set (ni : Instance) (ba ba' : Nat) (st : BitVec 32) (n : Nat) :
    Instance.getBlockState
        { ni with blockState := putBlockState ni.blockState ba st, blockStateChanged := n } ba' =
      if ba' = ba then st &&& BLOCK_ST_MASK else ni.getBlockState ba' :=
  getBlockStateRaw_put ..

theorem setBad_work (nld : Lower D) {ba : Nat} (w : World D)
    (hgood : w.ni.getBlockState ba = BLOCK_ST_GOOD) :
    Post (setBlockState ba BLOCK_ST_BAD)
      (fun _ w' => Work nld ba (ba + 1) w w' ∧ w'.ni.getBlockState ba = BLOCK_ST_BAD)
      { w with failed := ba :: w.failed } := by
  simp only [setBlockState, modifyNi, post_update]
  have hset (ba' : Nat) := getBlockState_set w.ni ba ba' BLOCK_ST_BAD
    (if w.ni.getBlockState ba ≠ BLOCK_ST_BAD &&& BLOCK_ST_MASK then w.ni.blockStateChanged + 1
      else w.ni.blockStateChanged)
  have hbad := (hset ba).trans (if_pos rfl)
  have hsame (ba' : Nat) (hne : ba' ≠ ba) := (hset ba').trans (if_neg hne)
  refine ⟨⟨⟨⟨rfl, rfl, rfl, rfl, rfl⟩, ⟨[], rfl, fun _ he => by cases he⟩, fun ba' => ?_,
    ⟨[ba], rfl, fun ba' hba' => ?_, fun ba' hba' => ?_⟩, fun _ _ _ _ => rfl⟩, rfl, rfl, rfl,
    .inr ⟨ba, hgood, hbad⟩⟩, hbad⟩
  · by_cases heq : ba' = ba
    · subst heq
      exact .inr ⟨le_refl _, Nat.lt_succ_self _, hgood, hbad⟩
    · exact .inl (hsame ba' heq)
  · cases mem_singleton.mp hba'
    exact ⟨hgood, hbad⟩
  · exact hsame ba' fun heq => hba' (mem_singleton.mpr heq)

theorem usableBlock_spec (ba : Nat) (w : World D) :
    Post (usableBlock nld ba)
      (fun usable w' => Work nld ba (ba + 1) w w' ∧
        (usable ↔ w'.ni.getBlockState ba = BLOCK_ST_GOOD)) w := by
  simp only [usableBlock, getNi, noteFailed, post_bind, post_read, post_update, post_ite, post_pure]
  refine ⟨fun hstate => ⟨.refl w, by simp [hstate]⟩, fun hstate => ?_⟩
  have hgood := not_not.mp hstate
  refine (checkBadPhysBlock_phys ba w).mono ?_
  intro bad w1 h1
  have hgood1 := (h1.getBlockState ba).trans hgood
  have hwork : Work nld ba (ba + 1) w w1 := .of_phys h1.widen
  refine ⟨fun _ => ?_, fun _ => ⟨hwork, by simp [hgood1]⟩⟩
  refine (setBad_work nld w1 hgood1).mono ?_
  rintro _ w2 ⟨h2, hbad⟩
  refine ⟨hwork.trans h2, ?_⟩
  rw [hbad]
  decide

theorem condemnBlock_spec {ba : Nat} (w : World D)
    (hgood : w.ni.getBlockState ba = BLOCK_ST_GOOD) :
    Post (condemnBlock nld ba)
      (fun _ w' => Work nld ba (ba + 1) w w' ∧ w'.ni.getBlockState ba = BLOCK_ST_BAD)
      { w with failed := ba :: w.failed } := by
  rw [condemnBlock, post_bind]
  refine (markPhysBadBlock_phys ba _).mono ?_
  intro _ w1 h1
  -- It does not matter that the failure is noted before the block is marked on the chip.
  have hfailed : ba :: w.failed = w1.failed := h1.failed.symm
  have hmark : Phys nld (nld.ba2addr ba) (nld.ba2addr ba + nld.erasesize) w
      { w1 with failed := w.failed } :=
    ⟨h1.ni, h1.mainTableEnd, h1.backupTableEnd, h1.log, rfl, h1.mem⟩
  have hset := setBad_work nld _ ((hmark.getBlockState ba).trans hgood)
  rw [hfailed] at hset
  refine hset.mono ?_
  rintro _ w2 ⟨h2, hbad⟩
  exact ⟨(Work.of_phys hmark).trans h2, hbad⟩

theorem touch_work (ba : Nat) (w : World D) :
    Work nld ba (ba + 1) w { w with log := .touch ba w.ni :: w.log } where
  frame := .refl _
  log := ⟨[.touch ba w.ni], rfl, fun _ he =>
    ⟨ba, w.ni, mem_singleton.mp he, le_refl _, Nat.lt_succ_self _, .refl _⟩⟩
  state := fun _ => Or.inl rfl
  failed := .of_eq rfl fun _ => rfl
  mem := fun _ _ _ _ => rfl
  ni := rfl
  mainTableEnd := rfl
  backupTableEnd := rfl
  counted := Or.inl rfl

theorem Work.cons {ba n : Nat} (h : Work nld ba (ba + 1) w w')
    (h' : Work nld (ba + 1) (ba + 1 + n) w' w'') : Work nld ba (ba + (n + 1)) w w'' :=
  (h.mono le_rfl (by omega)).trans (h'.mono (Nat.le_succ _) (by omega))

theorem eraseRangeLoop_work (nld : Lower D) (n ba : Nat) (w : World D) :
    Post (eraseRangeLoop nld n ba) (fun _ w' => Work nld ba (ba + n) w w') w := by
  induction n generalizing ba w with
  | zero => exact post_pure.mpr (.refl w)
  | succ n ih =>
    rw [eraseRangeLoop, post_bind]
    refine (usableBlock_spec ba w).mono ?_
    rintro usable w1 ⟨h1, hgood⟩
    simp only [note, noteFailed, post_ite, post_bind, post_update]
    refine ⟨fun _ => (ih _ w1).mono fun _ _ h => h1.cons h, fun husable => ?_⟩
    rw [Bool.not_eq_true, Bool.not_eq_false'] at husable
    have hgood1 := hgood.mp husable
    have htouch := h1.trans (touch_work ba w1)
    refine (eraseBlockAndCheck_phys ba _).mono ?_
    intro success w2 h2
    have hgood2 := (h2.getBlockState ba).trans hgood1
    have h2 := htouch.trans (.of_phys h2)
    refine ⟨fun _ => (ih _ w2).mono fun _ _ h => h2.cons h, fun _ => ?_⟩
    refine (condemnBlock_spec w2 hgood2).mono ?_
    rintro _ w3 ⟨h3, -⟩
    exact (ih _ w3).mono fun _ _ h => (h2.trans h3).cons h

theorem eraseRange_work {ba limit : Nat} (hle : ba ≤ limit) (w : World D) :
    Post (eraseRange nld ba limit) (fun _ w' => Work nld ba limit w w') w := by
  have hend : ba + (limit - ba) = limit := by omega
  have h := eraseRangeLoop_work nld (limit - ba) ba w
  rwa [hend] at h

end OpenWrt.Nmbm
