import OpenWrt.Lib.Buffer
import OpenWrt.Lib.Crc

/-!
# Structures in memory

A field of a structure is an offset from its base and the bytes there.  `putFields` stores
fields one after the other, `HasFields` says that they are in memory.  A checksum over the
first bytes of a structure is itself a field of it, behind what it covers.
-/

namespace OpenWrt.Lib

open List

def halfBytes (big : Bool) (n : Nat) : List UInt8 :=
  let le := [UInt8.ofNat n, UInt8.ofNat (n / 256)]
  if big then le.reverse else le

@[simp] theorem length_halfBytes (big : Bool) (n : Nat) : (halfBytes big n).length = 2 := by
  cases big <;> rfl

abbrev Field := Nat × List UInt8

def putFields (b : Buffer) (base : Nat) (fs : List Field) : Buffer :=
  fs.foldl (fun b f => storeBytes b (base + f.1) f.2) b

/-- The field is not in the `len` bytes from `off` on. -/
def Apart (f : Field) (off len : Nat) : Prop := f.1 + f.2.length ≤ off ∨ off + len ≤ f.1

def HasFields (b : Buffer) (base : Nat) (fs : List Field) : Prop :=
  ∀ f ∈ fs, slice b (base + f.1) f.2.length = f.2

variable {b b' : Buffer} {base base' off len n : Nat} {fs gs : List Field} {f : Field}

theorem slice_putFields (h : ∀ f ∈ fs, Apart f off len) :
    slice (putFields b base fs) (base + off) len = slice b (base + off) len := by
  induction fs generalizing b with
  | nil => rfl
  | cons f fs ih =>
    have hstore : slice (storeBytes b (base + f.1) f.2) (base + off) len =
        slice b (base + off) len := by
      apply slice_storeBytes_outside
      rcases h f mem_cons_self with hle | hle
      · omega
      · omega
    exact (ih fun g hg => h g (mem_cons_of_mem f hg)).trans hstore

theorem putFields_before {a : Nat} (h : a < base) : putFields b base fs a = b a := by
  induction fs generalizing b with
  | nil => rfl
  | cons f fs ih => exact ih.trans (storeBytes_outside (.inl (by omega)))

theorem hasFields_nil : HasFields b base [] := fun _ hf => absurd hf not_mem_nil

theorem hasFields_cons :
    HasFields b base (f :: fs) ↔ slice b (base + f.1) f.2.length = f.2 ∧ HasFields b base fs :=
  forall_mem_cons

theorem hasFields_append :
    HasFields b base (fs ++ gs) ↔ HasFields b base fs ∧ HasFields b base gs :=
  forall_mem_append

theorem HasFields.putFields (h : HasFields b base fs)
    (hapart : ∀ f ∈ fs, ∀ g ∈ gs, Apart g f.1 f.2.length) :
      HasFields (putFields b base gs) base fs := by
  intro f hf
  rw [slice_putFields (hapart f hf)]
  exact h f hf

theorem hasFields_putFields (h : fs.Pairwise fun f g => Apart g f.1 f.2.length) :
    HasFields (putFields b base fs) base fs := by
  induction fs generalizing b with
  | nil => exact hasFields_nil
  | cons f fs ih =>
    obtain ⟨hf, hfs⟩ := pairwise_cons.mp h
    refine hasFields_cons.mpr ⟨?_, ih hfs⟩
    exact (slice_putFields hf).trans (slice_storeBytes b (base + f.1) f.2)

theorem HasFields.put (h : HasFields b base fs) (gs : List Field)
    (hapart : (∀ f ∈ fs, ∀ g ∈ gs, Apart g f.1 f.2.length) ∧
      gs.Pairwise fun f g => Apart g f.1 f.2.length) :
    HasFields (Lib.putFields b base gs) base (fs ++ gs) :=
  hasFields_append.mpr ⟨h.putFields hapart.1, hasFields_putFields hapart.2⟩

theorem HasFields.mono (h : HasFields b base gs) (hsub : ∀ f ∈ fs, f ∈ gs) : HasFields b base fs :=
  fun f hf => h f (hsub f hf)

theorem HasFields.copy (h : HasFields b base fs) (hn : ∀ f ∈ fs, f.1 + f.2.length ≤ n)
    (hcopy : ∀ i < n, b' (base' + i) = b (base + i)) : HasFields b' base' fs := by
  intro f hf
  have hfits := hn f hf
  rw [← h f hf, length_slice]
  apply slice_congr
  intro i hi
  rw [Nat.add_assoc, Nat.add_assoc]
  exact hcopy (f.1 + i) (by omega)

/-! ## Checksums -/

/-- The checksum of the first `len` bytes is stored at `off`. -/
def putCrc (big : Bool) (b : Buffer) (base off len : Nat) : Buffer :=
  putFields b base [(off, wordBytes big (crc32 0 (slice b base len)).toNat)]

def HasCrc (big : Bool) (b : Buffer) (base off len : Nat) : Prop :=
  slice b (base + off) 4 = wordBytes big (crc32 0 (slice b base len)).toNat

variable {big : Bool}

theorem hasCrc_putCrc (h : len ≤ off) : HasCrc big (putCrc big b base off len) base off len := by
  have hcovered : slice (putCrc big b base off len) base len = slice b base len :=
    slice_storeBytes_outside (.inl (Nat.add_le_add_left h base))
  have hstore := slice_storeBytes b (base + off) (wordBytes big (crc32 0 (slice b base len)).toNat)
  rw [length_wordBytes] at hstore
  rw [HasCrc, hcovered]
  exact hstore

theorem HasFields.putCrc (h : HasFields b base fs) (big : Bool) (off len : Nat)
    (hapart : ∀ f ∈ fs, f.1 + f.2.length ≤ off ∨ off + 4 ≤ f.1) :
    HasFields (putCrc big b base off len) base fs := by
  refine h.putFields ?_
  intro f hf g hg
  rw [mem_singleton.mp hg]
  rcases hapart f hf with hle | hle
  · exact .inr hle
  · refine Or.inl ?_
    rw [length_wordBytes]
    exact hle

theorem HasCrc.putFields (h : HasCrc big b base off len) (gs : List Field)
    (hapart : ∀ g ∈ gs, Apart g 0 len ∧ Apart g off 4) :
    HasCrc big (putFields b base gs) base off len := by
  have hcovered : slice (Lib.putFields b base gs) (base + 0) len = slice b (base + 0) len :=
    slice_putFields fun f hf => (hapart f hf).1
  rw [Nat.add_zero] at hcovered
  rw [HasCrc, slice_putFields fun f hf => (hapart f hf).2, hcovered]
  exact h

theorem HasCrc.putCrc {off' len' : Nat} (h : HasCrc big b base off len)
    (hoff : off + 4 ≤ off') (hlen : len ≤ off') :
    HasCrc big (putCrc big b base off' len') base off len := by
  refine h.putFields _ ?_
  intro g hg
  rw [mem_singleton.mp hg]
  exact ⟨.inr (by omega), .inr hoff⟩

theorem HasCrc.copy (h : HasCrc big b base off len) (hlen : len ≤ n) (hoff : off + 4 ≤ n)
    (hcopy : ∀ i < n, b' (base' + i) = b (base + i)) : HasCrc big b' base' off len := by
  have hcovered : slice b' base' len = slice b base len :=
    slice_congr fun i hi => hcopy i (by omega)
  have hcrc : slice b' (base' + off) 4 = slice b (base + off) 4 := by
    apply slice_congr
    intro i hi
    rw [Nat.add_assoc, Nat.add_assoc]
    exact hcopy (off + i) (by omega)
  rw [HasCrc, hcrc, hcovered]
  exact h

end OpenWrt.Lib
