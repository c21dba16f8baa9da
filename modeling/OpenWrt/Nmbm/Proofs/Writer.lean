import OpenWrt.Nmbm.Proofs.Work

/-!
# Writing a table around bad blocks

`Stored` says where an image is on the chip: its chunks lie on the good blocks from the
first one on, in order.  A table that `nmbm_write_info_table` reports as written is
stored, and stays stored while management works on other blocks.
-/

namespace OpenWrt.Nmbm

open Lib Lib.Prog

variable {D : Type}

/-- From block `ba` on, the good blocks hold `size` bytes of `data` from `off` on; `endBa` is
the block after the last one. -/
inductive Stored (nld : Lower D) (w : World D) (data : Buffer) :
    (ba off size endBa : Nat) → Prop
  | done {ba off : Nat} : Stored nld w data ba off 0 ba
  | skip {ba off size endBa : Nat} (hsize : size ≠ 0)
      (hbad : w.ni.getBlockState ba ≠ BLOCK_ST_GOOD)
      (hrest : Stored nld w data (ba + 1) off size endBa) : Stored nld w data ba off size endBa
  | chunk {ba off size endBa : Nat} (hsize : size ≠ 0)
      (hgood : w.ni.getBlockState ba = BLOCK_ST_GOOD)
      (hchip : OnChip nld w (nld.ba2addr ba) data off (min size nld.erasesize))
      (hrest : Stored nld w data (ba + 1) (off + min size nld.erasesize)
        (size - min size nld.erasesize) endBa) : Stored nld w data ba off size endBa

variable {nld : Lower D} {lo hi : Nat} {w w' : World D} {data : Buffer}

namespace Stored

variable {ba off size endBa : Nat}

section

variable (h : Stored nld w data ba off size endBa)

include h

theorem le : ba ≤ endBa := by
  induction h with
  | done => exact le_refl _
  | skip _ _ _ ih => omega
  | chunk _ _ _ _ ih => omega

theorem lt (hsize : size ≠ 0) : ba < endBa := by
  cases h with
  | done => exact absurd rfl hsize
  | skip _ _ hrest => exact hrest.le
  | chunk _ _ _ hrest => exact hrest.le

theorem mgmt (hwork : Mgmt nld lo hi w w')
    (hout : endBa ≤ lo ∨ hi ≤ ba) : Stored nld w' data ba off size endBa := by
  induction h with
  | done => exact done
  | @skip ba off size endBa hsize hbad hrest ih =>
    have hle := hrest.le
    refine skip hsize ?_ (ih (by omega))
    rwa [hwork.state_outside (by omega)]
  | @chunk ba off size endBa hsize hgood hchip hrest ih =>
    have hle := hrest.le
    refine chunk hsize ?_ (hwork.onChip (by omega) (min_le_right _ _) hchip) (ih (by omega))
    rwa [hwork.state_outside (by omega)]

theorem of_eq (hdev : w'.dev = w.dev)
    (hstate : ∀ ba, w'.ni.getBlockState ba = w.ni.getBlockState ba) :
    Stored nld w' data ba off size endBa := by
  induction h with
  | done => exact done
  | skip hsize hbad _ ih => exact skip hsize (by rwa [hstate]) ih
  | chunk hsize hgood hchip _ ih =>
    exact chunk hsize (by rwa [hstate]) (by rwa [OnChip, hdev]) ih

end

end Stored

theorem writeChunk_spec (hes : 0 < nld.erasesize) (ba : Nat) (data : Buffer) (ptr : Nat)
    {size : Nat} (hsize : size ≤ nld.erasesize) (w : World D) :
    Post (writeChunk nld ba data ptr size)
      (fun success w' => Work nld ba (ba + 1) w w' ∧
        w'.ni.getBlockState ba = w.ni.getBlockState ba ∧
        (success → OnChip nld w' (nld.ba2addr ba) data ptr size)) w := by
  simp only [writeChunk, note, post_bind, post_update]
  refine (eraseBlockAndCheck_phys ba _).mono ?_
  intro erased w1 h1
  have hstate := h1.getBlockState ba
  have hwork := (touch_work ba w).trans (.of_phys h1)
  simp only [post_ite, post_pure]
  refine ⟨fun _ => ⟨hwork, hstate, fun h => by cases h⟩, fun _ => ?_⟩
  refine (writeVerifyData_spec hes ba data ptr hsize w1).mono ?_
  rintro success w2 ⟨h2, hchip⟩
  exact ⟨hwork.trans (.of_phys h2), (h2.getBlockState ba).trans hstate, hchip⟩

/-- What is known when the writing of an image of `size` bytes ends with `sizeremain` bytes of
it to write from `ba` on.  Before the first chunk its block is still to be found. -/
def Written (nld : Lower D) (data : Buffer) (size : Nat) (w : World D) (n ba sizeremain start : Nat)
    (r : Option (Nat × Nat)) (w' : World D) : Prop :=
  Work nld ba (ba + n) w w' ∧ ∀ s e, r = some (s, e) →
    e ≤ ba + n ∧ Stored nld w' data ba (size - sizeremain) sizeremain e ∧
      (sizeremain = size → ba ≤ s ∧ Stored nld w' data s 0 size e ∧
        w'.ni.getBlockState s = BLOCK_ST_GOOD) ∧
      (sizeremain ≠ size → s = start)

theorem Written.skip {size n ba sizeremain start : Nat} {r : Option (Nat × Nat)}
    {w1 : World D} (hsize : sizeremain ≠ 0) (hwork : Work nld ba (ba + 1) w w1)
    (hbad : w1.ni.getBlockState ba ≠ BLOCK_ST_GOOD)
    (h : Written nld data size w1 n (ba + 1) sizeremain start r w') :
    Written nld data size w (n + 1) ba sizeremain start r w' := by
  refine ⟨hwork.cons h.1, ?_⟩
  intro s e hr
  rcases h.2 s e hr with ⟨he, hstored, hfirst, hother⟩
  refine ⟨by omega, .skip hsize ?_ hstored, ?_, hother⟩
  · rwa [h.1.state_outside (by omega)]
  · intro heq
    rcases hfirst heq with ⟨hs, hfound⟩
    exact ⟨by omega, hfound⟩

theorem writeMgmtLoop_spec (hes : 0 < nld.erasesize) (data : Buffer) {size : Nat}
    (hsize : size ≠ 0) (n ba sizeremain start : Nat) (hle : sizeremain ≤ size) (w : World D) :
    Post (writeMgmtLoop nld data size n ba sizeremain start)
      (Written nld data size w n ba sizeremain start) w := by
  induction n generalizing ba sizeremain start w with
  | zero =>
    rw [writeMgmtLoop, post_pure]
    refine ⟨.refl w, ?_⟩
    intro s e hr
    split at hr
    · rename_i hzero
      cases hr
      subst hzero
      exact ⟨le_refl _, .done, fun h => absurd h.symm hsize, fun _ => rfl⟩
    · cases hr
  | succ n ih =>
    simp only [writeMgmtLoop, noteFailed, post_ite, post_pure, post_bind, post_update]
    refine ⟨fun hzero => ⟨.refl w, ?_⟩, fun hne => ?_⟩
    · intro s e hr
      cases hr
      subst hzero
      exact ⟨by omega, .done, fun h => absurd h.symm hsize, fun _ => rfl⟩
    · refine (usableBlock_spec ba w).mono ?_
      rintro usable w1 ⟨h1, hgood⟩
      refine ⟨fun hunusable => ?_, fun husable => ?_⟩
      · have hbad : w1.ni.getBlockState ba ≠ BLOCK_ST_GOOD := by
          intro h
          rw [hgood.mpr h] at hunusable
          cases hunusable
        exact (ih _ _ _ hle w1).mono fun _ _ h => h.skip hne h1 hbad
      · rw [Bool.not_eq_true', Bool.not_eq_false] at husable
        have hgood1 := hgood.mp husable
        refine (writeChunk_spec hes ba data (size - sizeremain) (min_le_right _ _) w1).mono ?_
        rintro success w2 ⟨h2, hstate, hchip⟩
        have hgood2 := hstate.trans hgood1
        have h12 := h1.trans h2
        refine ⟨fun hok => ?_, fun _ => ?_⟩
        · refine (ih _ _ _ (by omega) w2).mono ?_
          intro r w3 h3
          refine ⟨h12.cons h3.1, ?_⟩
          intro s e hr
          rcases h3.2 s e hr with ⟨he, hrest, hfirst, hother⟩
          have hoff : size - (sizeremain - min sizeremain nld.erasesize) =
              size - sizeremain + min sizeremain nld.erasesize := by omega
          rw [hoff] at hrest
          have hgood3 : w3.ni.getBlockState ba = BLOCK_ST_GOOD := by
            rwa [h3.1.state_outside (by omega)]
          have hstored : Stored nld w3 data ba (size - sizeremain) sizeremain e :=
            .chunk hne hgood3 (h3.1.onChip (by omega) (min_le_right _ _) (hchip hok)) hrest
          have hs := hother (by omega)
          refine ⟨by omega, hstored, ?_, ?_⟩
          · intro heq
            rw [if_pos heq] at hs
            rw [heq, Nat.sub_self] at hstored
            rw [hs]
            exact ⟨le_refl _, hstored, hgood3⟩
          · intro hneq
            rwa [if_neg hneq] at hs
        · refine (condemnBlock_spec w2 hgood2).mono ?_
          rintro _ w3 ⟨h3, hbad⟩
          have hbad' : w3.ni.getBlockState ba ≠ BLOCK_ST_GOOD := by
            rw [hbad]
            decide
          exact (ih _ _ _ hle w3).mono fun _ _ h => h.skip hne (h12.trans h3) hbad'

/-- A table image stored from a good block `s` on, with `e` the block after its end. -/
def TableAt (nld : Lower D) (w : World D) (data : Buffer) (s e : Nat) : Prop :=
  Stored nld w data s 0 nld.infoTableSize e ∧ w.ni.getBlockState s = BLOCK_ST_GOOD

/-- What is known of the worlds before and after a table was to be written in a range. -/
def TableWritten (nld : Lower D) (w : World D) (lo hi : Nat) (r : Option (Nat × Nat))
    (w' : World D) : Prop :=
  Work nld lo hi w w' ∧ ∀ s e, r = some (s, e) →
    lo ≤ s ∧ s < e ∧ e ≤ hi ∧ TableAt nld w' w.ni.infoTableCache s e

theorem infoTableSize_ne_zero (hes : 0 < nld.erasesize) : nld.infoTableSize ≠ 0 := by
  have hws := writesize_pos hes
  have hhead : 0 < nld.stateTableOff := by
    refine Nat.mul_pos (Nat.div_pos ?_ hws) hws
    simp only [Lower.headerSize]
    omega
  unfold Lower.infoTableSize Lower.mappingTableOff
  omega

theorem writeInfoTable_spec (hes : 0 < nld.erasesize) (ba limit : Nat) (w : World D) :
    Post (writeInfoTable nld ba limit) (TableWritten nld w ba limit) w := by
  have hsize := infoTableSize_ne_zero hes
  simp only [writeInfoTable, getNi, post_bind, post_read]
  refine (writeMgmtLoop_spec hes w.ni.infoTableCache hsize (limit - ba) ba nld.infoTableSize 0
    le_rfl w).mono ?_
  rintro r w1 ⟨h1, hr⟩
  by_cases hle : ba ≤ limit
  · have hend : ba + (limit - ba) = limit := by omega
    rw [hend] at h1 hr
    refine ⟨h1, fun s e heq => ?_⟩
    rcases hr s e heq with ⟨he, -, hfirst, -⟩
    rcases hfirst rfl with ⟨hs, hstored, hgood⟩
    exact ⟨hs, hstored.lt hsize, he, hstored, hgood⟩
  · have hend : ba + (limit - ba) = ba := by omega
    rw [hend] at h1 hr
    refine ⟨h1.widen, fun s e heq => ?_⟩
    rcases hr s e heq with ⟨he, hstored, -, -⟩
    have := hstored.lt hsize
    omega

/-! ## Room for a second table -/

theorem walkAsc_bounds {bs : Nat → BitVec 32} {n ba r : Nat} {nblock : Int}
    (h : walkAsc bs n ba nblock = some r) : ba ≤ r ∧ r < ba + n := by
  induction n generalizing ba nblock with
  | zero => cases h
  | succ n ih =>
    rw [walkAsc] at h
    generalize (if getBlockStateRaw bs ba = BLOCK_ST_GOOD then nblock - 1 else nblock) = rest at h
    split at h
    · cases h
      omega
    · have := ih h
      omega

theorem le_of_reserveForTable {ni : Instance} {ba r : Nat}
    (h : reserveForTable nld ni ba = some r) : ba ≤ r := by
  rcases List.exists_of_findSome?_eq_some h with ⟨n, -, hwalk⟩
  exact (walkAsc_bounds hwalk).1

theorem writeTableDown_spec (hes : 0 < nld.erasesize) {lowest : Nat} (fuel writeBa : Nat)
    (w : World D) :
    Post (writeTableDown nld lowest fuel writeBa)
      (TableWritten nld w lowest w.ni.mappingBlocksTopBa) w := by
  induction fuel generalizing writeBa w with
  | zero => exact post_diverge.mpr trivial
  | succ fuel ih =>
    simp only [writeTableDown, getNi, post_ite, post_pure, post_bind, post_read]
    refine ⟨fun _ => ⟨.refl w, fun s e h => by cases h⟩, fun hge => ?_⟩
    refine (writeInfoTable_spec hes writeBa _ w).mono ?_
    rintro r w1 ⟨h1, hr⟩
    have hlow : Work nld lowest w.ni.mappingBlocksTopBa w w1 := h1.mono (by omega) le_rfl
    cases r with
    | some t =>
      refine post_pure.mpr ⟨hlow, fun s e heq => ?_⟩
      rcases hr s e heq with ⟨hs, hrest⟩
      exact ⟨by omega, hrest⟩
    | none =>
      refine (ih _ w1).mono ?_
      rintro r w2 ⟨h2, hr2⟩
      rw [h1.frame.mappingBlocksTopBa] at h2 hr2
      refine ⟨hlow.trans h2, fun s e heq => ?_⟩
      have hcache : w1.ni.infoTableCache = w.ni.infoTableCache := by rw [h1.ni]
      have hfound := hr2 s e heq
      rwa [hcache] at hfound

end OpenWrt.Nmbm
