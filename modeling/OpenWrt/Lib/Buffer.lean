import Mathlib.Data.List.GetD
import Mathlib.Logic.Equiv.Basic

/-!
# Byte buffers

A buffer is the function from offsets to bytes; `memset` and `memcpy` are the
C calls on it, `storeBytes` writes a list of bytes, `slice` reads one, and
`word` reads a 32-bit number in either byte order.  The rules below let a proof
look at one offset, or at one slice, at a time.
-/

namespace OpenWrt.Lib

open List

/-- Content of a memory area, by offset. -/
abbrev Buffer := Nat → UInt8

def memset (b : Buffer) (off : Nat) (v : UInt8) (len : Nat) : Buffer :=
  fun a => if off ≤ a ∧ a < off + len then v else b a

def memcpy (b : Buffer) (off : Nat) (src : Buffer) (srcOff len : Nat) : Buffer :=
  fun a => if off ≤ a ∧ a < off + len then src (srcOff + (a - off)) else b a

def swapBytes (b : Buffer) (i j : Nat) : Buffer :=
  fun a => if a = i then b j else if a = j then b i else b a

def slice (b : Buffer) (off len : Nat) : List UInt8 := (range len).map fun i => b (off + i)

def storeBytes (b : Buffer) (off : Nat) (bs : List UInt8) : Buffer :=
  fun a => if off ≤ a ∧ a < off + bs.length then bs.getD (a - off) 0 else b a

def ascii (s : String) : List UInt8 := s.toList.map fun c => UInt8.ofNat c.toNat

def wordBytes (big : Bool) (n : Nat) : List UInt8 :=
  let le := [UInt8.ofNat n, UInt8.ofNat (n / 256), UInt8.ofNat (n / 65536),
    UInt8.ofNat (n / 16777216)]
  if big then le.reverse else le

def half (big : Bool) (b : Buffer) (off : Nat) : Nat :=
  let byte i := (b (off + if big then 1 - i else i)).toNat
  byte 0 + byte 1 * 256

def word (big : Bool) (b : Buffer) (off : Nat) : Nat :=
  let byte i := (b (off + if big then 3 - i else i)).toNat
  byte 0 + byte 1 * 256 + byte 2 * 65536 + byte 3 * 16777216

variable {b src : Buffer} {off srcOff len a i j : Nat} {v : UInt8}
variable {b' : Buffer} {off' : Nat} {bs : List UInt8} {big : Bool}

theorem memset_inside (h : off ≤ a ∧ a < off + len) : memset b off v len a = v := if_pos h

theorem memset_outside (h : a < off ∨ off + len ≤ a) : memset b off v len a = b a :=
  if_neg (by omega)

theorem memcpy_inside (h : off ≤ a ∧ a < off + len) :
    memcpy b off src srcOff len a = src (srcOff + (a - off)) := if_pos h

theorem memcpy_outside (h : a < off ∨ off + len ≤ a) : memcpy b off src srcOff len a = b a :=
  if_neg (by omega)

theorem swapBytes_eq_comp (b : Buffer) (i j : Nat) : swapBytes b i j = b ∘ Equiv.swap i j := by
  funext a
  simp only [swapBytes, Function.comp_apply, Equiv.swap_apply_def]
  split
  · rfl
  · split <;> rfl

@[simp] theorem swapBytes_left : swapBytes b i j i = b j := by simp [swapBytes]

@[simp] theorem swapBytes_right : swapBytes b i j j = b i := by
  simp only [swapBytes]
  split
  · simp_all
  · simp

theorem swapBytes_of_ne (hi : a ≠ i) (hj : a ≠ j) : swapBytes b i j a = b a := by
  simp [swapBytes, hi, hj]

@[simp] theorem swapBytes_swapBytes (b : Buffer) (i j : Nat) :
    swapBytes (swapBytes b i j) i j = b := by
  rw [swapBytes_eq_comp, swapBytes_eq_comp]
  funext a
  simp

theorem swapBytes_of_eq (h : b i = b j) : swapBytes b i j = b := by
  funext a
  simp only [swapBytes]
  split
  · simp_all
  · split <;> simp_all

theorem swapBytes_comp {f : Nat → Nat} {S : Nat → Prop}
    (hf : ∀ x y, S x → S y → f x = f y → x = y) (hi : S i) (hj : S j) (ha : S a) :
    swapBytes b (f i) (f j) (f a) = swapBytes (b ∘ f) i j a := by
  simp only [swapBytes]
  by_cases hai : a = i
  · simp [hai]
  have hfi : f a ≠ f i := fun h => hai (hf a i ha hi h)
  by_cases haj : a = j
  · simp only [haj] at hfi
    simp [haj, if_neg hfi, haj ▸ hai]
  · have hfj : f a ≠ f j := fun h => haj (hf a j ha hj h)
    simp [hai, haj, hfi, hfj]

/-! ## Slices -/

theorem mem_slice {x : UInt8} : x ∈ slice b off len ↔ ∃ i < len, b (off + i) = x := by
  simp [slice]

@[simp] theorem length_slice : (slice b off len).length = len := by simp [slice]

theorem slice_congr (h : ∀ i < len, b (off + i) = b' (off' + i)) :
    slice b off len = slice b' off' len := by
  apply map_congr_left
  intro i hi
  exact h i (mem_range.mp hi)

theorem eq_of_slice_eq (h : slice b off len = slice b' off' len)
    (hi : i < len) : b (off + i) = b' (off' + i) := by
  have hget := congrArg (fun l => l[i]?) h
  simpa [slice, hi] using hget

theorem getD_slice (h : i < len) : (slice b off len).getD i v = b (off + i) := by
  simp [slice, h]

theorem slice_append (b : Buffer) (off m n : Nat) :
    slice b off (m + n) = slice b off m ++ slice b (off + m) n := by
  simp only [slice, range_add, map_append, map_map]
  congr 1
  apply map_congr_left
  intro i _
  simp [Nat.add_assoc]

theorem slice_succ (b : Buffer) (off n : Nat) :
    slice b off (n + 1) = b off :: slice b (off + 1) n := by
  rw [Nat.add_comm n 1, slice_append]
  rfl

theorem storeBytes_inside (h : i < bs.length) : storeBytes b off bs (off + i) = bs.getD i 0 := by
  rw [storeBytes, if_pos (by omega), Nat.add_sub_cancel_left]

theorem storeBytes_outside (h : a < off ∨ off + bs.length ≤ a) : storeBytes b off bs a = b a :=
  if_neg (by omega)

theorem storeBytes_nil (b : Buffer) (off : Nat) : storeBytes b off [] = b := by
  funext a
  exact storeBytes_outside (Nat.lt_or_ge a off)

theorem storeBytes_window (h : b' i = b (j + i)) :
    storeBytes b' off bs i = storeBytes b (j + off) bs (j + i) := by
  by_cases hin : off ≤ i ∧ i < off + bs.length
  · rw [storeBytes, storeBytes, if_pos hin, if_pos (by omega)]
    congr 1
    omega
  · rw [storeBytes, storeBytes, if_neg hin, if_neg (by omega), h]

theorem slice_storeBytes (b : Buffer) (off : Nat) (bs : List UInt8) :
    slice (storeBytes b off bs) off bs.length = bs := by
  apply ext_getElem
  · simp
  · intro i h1 h2
    have hbyte : storeBytes b off bs (off + i) = bs.getD i 0 := storeBytes_inside h2
    simpa [slice, h2] using hbyte

theorem slice_storeBytes_outside (h : srcOff + len ≤ off ∨ off + bs.length ≤ srcOff) :
    slice (storeBytes b off bs) srcOff len = slice b srcOff len := by
  apply slice_congr
  intro i hi
  exact storeBytes_outside (by omega)

theorem slice_storeBytes_middle {head mid tail : List UInt8}
    (h : slice b off (head.length + (mid.length + tail.length)) = head ++ (mid ++ tail))
    (hlen : bs.length = mid.length) :
    slice (storeBytes b (off + head.length) bs) off (head.length + (mid.length + tail.length)) =
      head ++ (bs ++ tail) := by
  rw [slice_append, slice_append] at h ⊢
  obtain ⟨hhead, hrest⟩ := append_inj h length_slice
  obtain ⟨-, htail⟩ := append_inj hrest length_slice
  rw [slice_storeBytes_outside (.inl (Nat.le_refl _)), hhead, ← hlen, slice_storeBytes,
    slice_storeBytes_outside (.inr (Nat.le_refl _)), hlen, htail]

/-! ## 32-bit numbers -/

@[simp] theorem length_wordBytes (big : Bool) (n : Nat) : (wordBytes big n).length = 4 := by
  cases big <;> rfl

theorem word_storeBytes (big : Bool) (b : Buffer) (off : Nat) {n : Nat} (hn : n < 4294967296) :
    word big (storeBytes b off (wordBytes big n)) off = n := by
  have hbyte : ∀ i < 4, storeBytes b off (wordBytes big n) (off + i) =
      (wordBytes big n).getD i 0 := by
    intro i hi
    exact storeBytes_inside (by rwa [length_wordBytes])
  cases big
  · simp only [word, Bool.false_eq_true, if_false]
    rw [hbyte 0 (by omega), hbyte 1 (by omega), hbyte 2 (by omega), hbyte 3 (by omega)]
    simp [wordBytes]
    omega
  · simp only [word, if_true]
    rw [hbyte 3 (by omega), hbyte 2 (by omega), hbyte 1 (by omega), hbyte 0 (by omega)]
    simp [wordBytes]
    omega

theorem slice_storeBytes_word (big : Bool) (b : Buffer) (off n : Nat) :
    slice (storeBytes b off (wordBytes big n)) off 4 = wordBytes big n := by
  have hslice := slice_storeBytes b off (wordBytes big n)
  rwa [length_wordBytes] at hslice

theorem word_lt (big : Bool) (b : Buffer) (off : Nat) : word big b off < 4294967296 := by
  have hbyte (i : Nat) := (b (off + if big then 3 - i else i)).toNat_lt
  have h0 := hbyte 0
  have h1 := hbyte 1
  have h2 := hbyte 2
  have h3 := hbyte 3
  rw [word]
  dsimp only
  omega

theorem word_congr
    (h : ∀ i < 4, b (off + i) = b' (off' + i)) : word big b off = word big b' off' := by
  have h0 := h 0 (by omega)
  rw [Nat.add_zero] at h0
  cases big
  · simp [word, h, h0]
  · simp [word, h, h0]

theorem word_eq_of_bytes {n : Nat} (hn : n < 4294967296)
    (h : ∀ i < 4, b (off + i) = (wordBytes big n).getD i 0) : word big b off = n := by
  rw [← word_storeBytes big b off hn]
  apply word_congr
  intro i hi
  rw [storeBytes_inside (by rwa [length_wordBytes]), h i hi]

theorem word_of_slice {n : Nat} (hn : n < 4294967296) (h : slice b off 4 = wordBytes big n) :
    word big b off = n := by
  apply word_eq_of_bytes hn
  intro i hi
  rw [← h, getD_slice hi]

theorem word_memcpy (h : i + 4 ≤ len) :
    word big (memcpy b off src srcOff len) (off + i) = word big src (srcOff + i) := by
  apply word_congr
  intro j hj
  rw [memcpy_inside (by omega)]
  congr 1
  omega

theorem word_storeBytes_outside (h : srcOff + 4 ≤ off ∨ off + bs.length ≤ srcOff) :
    word big (storeBytes b off bs) srcOff = word big b srcOff := by
  apply word_congr
  intro i hi
  exact storeBytes_outside (by omega)

theorem word_flatMap {ns : List Nat} {rest : List UInt8}
    (hb : ∀ i < 4 * ns.length, b (off + i) = (ns.flatMap (wordBytes big) ++ rest).getD i 0)
    (hns : ∀ n ∈ ns, n < 4294967296) {k : Nat} (hk : k < ns.length) :
    word big b (off + 4 * k) = ns.getD k 0 := by
  induction ns generalizing off k with
  | nil => exact absurd hk (Nat.not_lt_zero k)
  | cons n ns ih =>
    simp only [length_cons, flatMap_cons, append_assoc] at hb hk
    cases k with
    | zero =>
      apply word_eq_of_bytes (hns n mem_cons_self)
      intro i hi
      rw [Nat.add_zero, hb i (by omega), getD_append _ _ _ _ (by rwa [length_wordBytes])]
    | succ k =>
      have hoff : off + 4 * (k + 1) = off + 4 + 4 * k := by omega
      rw [hoff]
      refine ih ?_ (fun m hm => hns m (mem_cons_of_mem n hm)) (by omega)
      intro i hi
      rw [Nat.add_assoc, hb (4 + i) (by omega),
        getD_append_right _ _ _ _ (by rw [length_wordBytes]; omega), length_wordBytes,
        Nat.add_sub_cancel_left]

end OpenWrt.Lib
