import OpenWrt.Lib.Count
import OpenWrt.Mtd.Write
import Mathlib.Tactic.Ring
import Mathlib.Tactic.Linarith

/-!
# Where `mtd write` puts the image

`mtd_write` asks for bad blocks at `e` and erases at `e + part_offset`.  The
results below say when that is harmless: the image lands on the good blocks
exactly when the two questions have the same answer for every erase block the
run passes.
-/

namespace OpenWrt.Mtd

open List

variable {c : Config} {s s' : State}
variable {d : Device} {i k es b j : Nat} {flash : Nat → UInt8} {image : List UInt8}

/-! ## What the run should achieve -/

def Config.base (c : Config) : Nat := c.partOffset / c.dev.erasesize

/-- The erase blocks from `part_offset` on that are good, counted from there. -/
def Config.good (c : Config) (i : Nat) : Bool := !c.dev.bad (c.base + i)

def Config.taken (c : Config) (i : Nat) : Bool := !(c.dev.nandflash && c.dev.bad i)

def Config.blocks (c : Config) (image : List UInt8) : Nat :=
  (image.length + c.dev.erasesize - 1) / c.dev.erasesize

def DevOp.Touches (erasesize : Nat) : DevOp → Nat → Prop
  | .erase off, b => off / erasesize = b
  | .program off len, b => b * erasesize < off + len ∧ off < (b + 1) * erasesize

/-- Erase block `b` holds block number `k` of the image padded with `0xff`. -/
def HoldsBlock (c : Config) (flash : Nat → UInt8) (image : List UInt8) (b k : Nat) : Prop :=
  ∀ j < c.dev.erasesize,
    flash (b * c.dev.erasesize + j) = image.getD (k * c.dev.erasesize + j) 0xff

/-- The good blocks from `part_offset` on, in order, hold the padded image (and
there are enough of them), and no bad block was erased or programmed. -/
structure ImageWritten (c : Config) (image : List UInt8) (s : State) : Prop where
  holds : ∀ i, c.good i = true → Nat.count (fun j => c.good j = true) i < c.blocks image →
    HoldsBlock c s.flash image (c.base + i) (Nat.count (fun j => c.good j = true) i)
  room : ∃ n, Nat.count (fun j => c.good j = true) n = c.blocks image ∧
    ∀ i < n, c.good i = true → (c.base + (i + 1)) * c.dev.erasesize ≤ c.dev.mtdsize
  onlyGood : ∀ op ∈ s.ops, ∀ b, op.Touches c.dev.erasesize b → c.dev.bad b = false

def Env.Readable (env : Env) : Prop := ReadResult.error ∉ env.reads

/-- Whenever `mtd_write` returns 0, the image is where it should be: for every
old content of the device and all answers of the kernel, whatever part of the
image the image check has read before.  `mayFail` says whether a read of the
image may fail, which `mtd_write` takes for the end of the file. -/
def WritesImage (c : Config) (image : List UInt8) (mayFail : Bool) : Prop :=
  ∀ flash env buf rest s, (mayFail = false → env.Readable) → buf.length ≤ c.dev.erasesize →
    buf ++ rest = image → mtdWrite c flash env buf rest = some s → ImageWritten c image s

/-! ## Filling the buffer -/

theorem fillBuf_spec (erasesize : Nat) (rs : List ReadResult) (buf image : List UInt8)
    (hbuf : buf.length ≤ erasesize) (hrs : ReadResult.error ∉ rs) :
    ∃ rs', fillBuf erasesize rs buf image =
        ((buf ++ image).take erasesize, (buf ++ image).drop erasesize, rs') ∧
      ReadResult.error ∉ rs' := by
  induction rs generalizing buf image with
  | nil =>
    refine ⟨[], ?_, by simp⟩
    simp [fillBuf, take_append, drop_append, take_of_length_le hbuf,
      drop_eq_nil_of_le hbuf]
  | cons r rs ih =>
    have hrs' : ReadResult.error ∉ rs := fun h => hrs (by simp [h])
    by_cases hlt : buf.length < erasesize
    · cases r with
      | again =>
        rw [fillBuf, if_pos hlt]
        exact ih buf image hbuf hrs'
      | error => exact absurd (by simp) hrs
      | data n =>
        rw [fillBuf, if_pos hlt]
        by_cases hgot : min (max n 1) (min (erasesize - buf.length) image.length) = 0
        · -- End of file: nothing is left to read.
          have himg : image = [] := length_eq_zero_iff.1 (by omega)
          subst himg
          refine ⟨rs, ?_, hrs'⟩
          simp [take_of_length_le hbuf, drop_eq_nil_of_le hbuf]
        · simp only [if_neg hgot]
          set got := min (max n 1) (min (erasesize - buf.length) image.length)
          have hlen : (buf ++ image.take got).length ≤ erasesize := by
            simp; omega
          obtain ⟨rs', heq, herr⟩ := ih (buf ++ image.take got) (image.drop got) hlen hrs'
          refine ⟨rs', ?_, herr⟩
          rw [heq, append_assoc, take_append_drop]
    · refine ⟨r :: rs, ?_, hrs⟩
      have hfull : buf.length = erasesize := by omega
      simp only [fillBuf, ← hfull]
      simp

@[simp] theorem length_padBuf {erasesize : Nat} {buf : List UInt8}
    (hbuf : buf.length ≤ erasesize) : (padBuf erasesize buf).length = erasesize := by
  simp [padBuf]; omega

theorem getD_padBuf_take (erasesize j : Nat) (image : List UInt8) (hj : j < erasesize) :
    (padBuf erasesize (image.take erasesize)).getD j 0xff = image.getD j 0xff := by
  simp only [padBuf, getD_eq_getElem?_getD]
  by_cases h : j < image.length
  · rw [getElem?_append_left (by simp; omega), getElem?_take_of_lt hj]
  · rw [getElem?_append_right (by simp; omega),
      getElem?_eq_none (by omega : image.length ≤ j), getElem?_replicate]
    split <;> rfl

/-! ## Erasing the next block -/

/-- The counters of the loop after `E` erase blocks have been passed, `k` of
them taken.  The file pointer follows `e` as long as it stays on the device. -/
structure Counters (c : Config) (s : State) (E k : Nat) : Prop where
  e : s.e = E * c.dev.erasesize
  skip : s.skipBadBlocks + k * c.dev.erasesize = E * c.dev.erasesize
  w : s.w = k * c.dev.erasesize
  pos : s.pos = c.partOffset + s.e ∨ c.dev.mtdsize < c.partOffset + s.e

theorem lseek_forward {base pos e step : Nat} (h : pos = base + e ∨ d.mtdsize < base + e) :
    lseek d pos (pos + step) = base + (e + step) ∨ d.mtdsize < base + (e + step) := by
  unfold lseek
  split <;> omega

theorem Counters.next {E : Nat} (h : Counters c s E k) :
    Counters c
      { s with
        skipBadBlocks := s.skipBadBlocks + c.dev.erasesize
        e := s.e + c.dev.erasesize
        pos := lseek c.dev s.pos (s.pos + c.dev.erasesize) } (E + 1) k := by
  have hstep : (E + 1) * c.dev.erasesize = E * c.dev.erasesize + c.dev.erasesize := Nat.succ_mul E _
  refine ⟨?_, ?_, h.w, lseek_forward h.pos⟩
  · rw [h.e, hstep]
  · have hskip := h.skip
    dsimp only
    omega

theorem Counters.needs (hes : 0 < c.dev.erasesize) {E : Nat} (h : Counters c s E k)
    (hbuf : s.buf.length = c.dev.erasesize) :
    s.w + s.buf.length > s.e - s.skipBadBlocks ∧
      ¬ s.w + s.buf.length > s.e + c.dev.erasesize - s.skipBadBlocks := by
  have he := h.e
  have hskip := h.skip
  have hw := h.w
  omega

theorem mtdBlockIsBad_eq_some {r : Bool} (hes : 0 < d.erasesize)
    (h : mtdBlockIsBad d (i * d.erasesize) = some r) : r = (d.nandflash && d.bad i) := by
  unfold mtdBlockIsBad at h
  cases hn : d.nandflash
  · simp_all
  · split at h <;> simp_all

theorem mtdEraseBlock_eq_some {off : Nat} (h : mtdEraseBlock d off s = some s') :
    off + d.erasesize ≤ d.mtdsize ∧
      s' = { s with
        flash := eraseRange s.flash off d.erasesize
        env := { s.env with erases := s.env.erases.tail }
        ops := s.ops ++ [.erase off] } := by
  unfold mtdEraseBlock at h
  split at h
  · rename_i hin
    exact ⟨hin.1, (Option.some.inj h).symm⟩
  · cases h

/-- The state once the erase loop has passed the bad blocks `E .. E'` and erased
block `E'`. -/
structure BlockErased (c : Config) (s s' : State) (E E' : Nat) : Prop where
  le : E ≤ E'
  skipped : ∀ i, E ≤ i → i < E' → c.taken i = false
  taken : c.taken E' = true
  inside : c.partOffset + (E' + 1) * c.dev.erasesize ≤ c.dev.mtdsize
  flash : s'.flash =
    eraseRange s.flash (c.partOffset + E' * c.dev.erasesize) c.dev.erasesize
  pos : s'.pos = c.partOffset + E' * c.dev.erasesize
  e : s'.e = (E' + 1) * c.dev.erasesize
  skip : s'.skipBadBlocks = s.skipBadBlocks + (E' - E) * c.dev.erasesize
  w : s'.w = s.w
  buf : s'.buf = s.buf
  image : s'.image = s.image
  env : s'.env = { s.env with erases := s.env.erases.tail }
  ops : s'.ops = s.ops ++ [.erase (c.partOffset + E' * c.dev.erasesize)]

theorem eraseLoop_sound (hes : 0 < c.dev.erasesize) {E : Nat} (fuel : Nat)
    (hc : Counters c s E k) (hbuf : s.buf.length = c.dev.erasesize)
    (h : eraseLoop c fuel s = some s') : ∃ E', BlockErased c s s' E E' := by
  induction fuel generalizing s E with
  | zero => simp [eraseLoop] at h
  | succ fuel ih =>
    obtain ⟨hneed, hdone⟩ := hc.needs hes hbuf
    rw [eraseLoop, if_pos hneed] at h
    cases hbad : mtdBlockIsBad c.dev s.e with
    | none => simp [hbad] at h
    | some r =>
      have hr : r = (c.dev.nandflash && c.dev.bad E) :=
        mtdBlockIsBad_eq_some hes (by rw [← hc.e]; exact hbad)
      have hstep : (E + 1) * c.dev.erasesize = E * c.dev.erasesize + c.dev.erasesize := by
        ring
      cases r with
      | true =>
        simp only [hbad] at h
        obtain ⟨E', hE⟩ := ih hc.next hbuf h
        refine ⟨E', Nat.le_of_succ_le hE.le, ?_, hE.taken, hE.inside, hE.flash, hE.pos,
          hE.e, ?_, hE.w, hE.buf, hE.image, hE.env, hE.ops⟩
        · intro i hlo hhi
          rcases Nat.lt_or_eq_of_le hlo with hlt | rfl
          · exact hE.skipped i hlt hhi
          · simp [Config.taken, ← hr]
        · have hle := hE.le
          have hsub : (E' - E) * c.dev.erasesize =
              c.dev.erasesize + (E' - (E + 1)) * c.dev.erasesize := by
            rw [show E' - E = (E' - (E + 1)) + 1 by omega]; ring
          rw [hE.skip, hsub, add_assoc]
      | false =>
        simp only [hbad] at h
        cases herase : mtdEraseBlock c.dev (s.e + c.partOffset) s with
        | none => simp [herase] at h
        | some t =>
          obtain ⟨hin, rfl⟩ := mtdEraseBlock_eq_some herase
          simp only [herase] at h
          rw [hc.e] at hin
          have hpos : s.pos = c.partOffset + E * c.dev.erasesize := by
            have hp := hc.pos
            rw [hc.e] at hp
            omega
          have hoff : s.e + c.partOffset = c.partOffset + E * c.dev.erasesize := by
            rw [hc.e, add_comm]
          cases fuel with
          | zero => simp [eraseLoop] at h
          | succ fuel =>
            rw [eraseLoop, if_neg hdone] at h
            cases h
            exact ⟨E, le_rfl, fun i hlo hhi => by omega, by simp [Config.taken, ← hr],
              by omega, by rw [hoff], hpos, by rw [hc.e, hstep], by simp,
              rfl, rfl, rfl, rfl, by rw [hoff]⟩

theorem eraseLoop_complete (hes : 0 < c.dev.erasesize) {E E' : Nat} (fuel : Nat)
    (hc : Counters c s E k) (hbuf : s.buf.length = c.dev.erasesize)
    (henv : s.env.erases = []) (hle : E ≤ E') (htaken : c.taken E')
    (hin : c.partOffset + (E' + 1) * c.dev.erasesize ≤ c.dev.mtdsize)
    (hfuel : E' - E + 2 ≤ fuel) : ∃ s', eraseLoop c fuel s = some s' := by
  induction fuel generalizing s E with
  | zero => omega
  | succ fuel ih =>
    obtain ⟨hneed, hdone⟩ := hc.needs hes hbuf
    have hmono : (E + 1) * c.dev.erasesize ≤ (E' + 1) * c.dev.erasesize :=
      Nat.mul_le_mul_right _ (by omega)
    have hstep : (E + 1) * c.dev.erasesize = E * c.dev.erasesize + c.dev.erasesize := by
      ring
    have hbad : mtdBlockIsBad c.dev s.e = some (c.dev.nandflash && c.dev.bad E) := by
      unfold mtdBlockIsBad
      rw [hc.e, Nat.mul_div_cancel _ hes, if_pos (by omega : E * c.dev.erasesize < c.dev.mtdsize)]
      cases c.dev.nandflash <;> simp
    rw [eraseLoop, if_pos hneed, hbad]
    cases hr : (c.dev.nandflash && c.dev.bad E) with
    | true =>
      have hne : E ≠ E' := by
        rintro rfl
        simp [Config.taken, hr] at htaken
      exact ih hc.next hbuf henv (by omega) (by omega)
    | false =>
      have hroom : s.e + c.partOffset + c.dev.erasesize ≤ c.dev.mtdsize := by
        rw [hc.e]; omega
      simp only [mtdEraseBlock, henv, headD_nil, and_true, if_pos hroom]
      cases fuel with
      | zero => omega
      | succ fuel =>
        rw [eraseLoop, if_neg hdone]
        exact ⟨_, rfl⟩

/-! ## The main loop -/

/-- Loop invariant: `E` erase blocks passed, the `k` taken ones hold the first
`k` blocks of the image and nothing else was touched. -/
structure Progress (c : Config) (flash : Nat → UInt8) (image : List UInt8) (s : State)
    (E k : Nat) : Prop where
  counters : Counters c s E k
  count : Nat.count (fun i => c.taken i = true) E = k
  last : E = 0 ∨ c.taken (E - 1) = true
  rest : s.buf ++ s.image = image.drop (k * c.dev.erasesize)
  started : k * c.dev.erasesize < image.length + c.dev.erasesize
  buf : s.buf.length ≤ c.dev.erasesize
  readable : s.env.Readable
  inside : ∀ i < E, c.taken i = true →
    c.partOffset + (i + 1) * c.dev.erasesize ≤ c.dev.mtdsize
  holds : ∀ i < E, c.taken i = true →
    HoldsBlock c s.flash image (c.base + i) (Nat.count (fun j => c.taken j = true) i)
  others : ∀ i, (i < E → c.taken i = false) → ∀ j < c.dev.erasesize,
    s.flash ((c.base + i) * c.dev.erasesize + j) = flash ((c.base + i) * c.dev.erasesize + j)
  ops : ∀ op ∈ s.ops, ∃ i < E, c.taken i = true ∧
    ∀ b, op.Touches c.dev.erasesize b → b = c.base + i
  erased : ∀ i < E, c.taken i = true → ∃ op ∈ s.ops, op.Touches c.dev.erasesize (c.base + i)

theorem progress_start (flash : Nat → UInt8) (env : Env) (buf rest : List UInt8)
    (hes : 0 < c.dev.erasesize) (henv : env.Readable) (hbuf : buf.length ≤ c.dev.erasesize) :
    Progress c flash (buf ++ rest) (start c flash env buf rest) 0 0 := by
  refine ⟨⟨by simp [start], by simp [start], by simp [start], ?_⟩, by simp, Or.inl rfl,
    by simp [start], by omega, hbuf, henv, by simp, by simp, by simp [start],
      by simp [start], by simp⟩
  show (if c.partOffset > 0 then lseek c.dev 0 c.partOffset else 0) = c.partOffset + 0 ∨
    c.dev.mtdsize < c.partOffset + 0
  unfold lseek
  split <;> [split; skip] <;> omega

theorem ff_and (x : UInt8) : 0xff &&& x = x := UInt8.neg_one_and

theorem block_disjoint {a : Nat} (hj : j < es) (hab : a ≠ b) :
    ¬ (b * es ≤ a * es + j ∧ a * es + j < b * es + es) := by
  rintro ⟨hlo, hhi⟩
  rcases Nat.lt_or_gt_of_ne hab with h | h
  · have : (a + 1) * es ≤ b * es := Nat.mul_le_mul_right _ h
    rw [add_mul] at this
    omega
  · have : (b + 1) * es ≤ a * es := Nat.mul_le_mul_right _ h
    rw [add_mul] at this
    omega

theorem rewrite_other {a : Nat} {data : List UInt8}
    (hlen : data.length = es) (hj : j < es) (hab : a ≠ b) :
    programRange (eraseRange flash (b * es) es) (b * es) data (a * es + j) =
      flash (a * es + j) := by
  unfold programRange eraseRange
  rw [hlen, if_neg (block_disjoint hj hab), if_neg (block_disjoint hj hab)]

theorem rewrite_same {data : List UInt8} (hlen : data.length = es) (hj : j < es) :
    programRange (eraseRange flash (b * es) es) (b * es) data (b * es + j) =
      data.getD j 0xff := by
  unfold programRange eraseRange
  rw [if_pos (by omega), if_pos (by omega), ff_and, Nat.add_sub_cancel_left]

theorem touches_program {b' : Nat} (h : (DevOp.program (b * es) es).Touches es b') : b' = b := by
  obtain ⟨h1, h2⟩ := h
  by_contra hne
  rcases Nat.lt_or_gt_of_ne hne with h | h
  · have : (b' + 1) * es ≤ b * es := Nat.mul_le_mul_right _ h
    omega
  · have : (b + 1) * es ≤ b' * es := Nat.mul_le_mul_right _ h
    rw [add_mul] at this
    omega

def filled (c : Config) (s : State) (rest : List UInt8) (reads : List ReadResult) : State :=
  { s with
    buf := padBuf c.dev.erasesize (rest.take c.dev.erasesize)
    image := rest.drop c.dev.erasesize
    env := { s.env with reads := reads } }

theorem Counters.filled {E : Nat} (h : Counters c s E k) (rest : List UInt8)
    (reads : List ReadResult) : Counters c (filled c s rest reads) E k :=
  ⟨h.e, h.skip, h.w, h.pos⟩

theorem writeBlock_eq_some (hne : c.noErase = false) (h : writeBlock c s = some s') :
    ∃ t, eraseLoop c (c.dev.mtdsize / c.dev.erasesize + 2) s = some t ∧
      t.pos + t.buf.length ≤ c.dev.mtdsize ∧
      s' = { t with
        flash := programRange t.flash t.pos t.buf
        pos := t.pos + t.buf.length
        env := { t.env with writes := t.env.writes.tail }
        ops := t.ops ++ [.program t.pos t.buf.length]
        w := t.w + t.buf.length
        buf := [] } := by
  simp only [writeBlock, hne, Bool.false_eq_true, if_false] at h
  cases he : eraseLoop c (c.dev.mtdsize / c.dev.erasesize + 2) s with
  | none => simp [he] at h
  | some t =>
    simp only [he, writeBuf] at h
    split at h
    · cases h
    rename_i u hu
    split at hu
    · rename_i hin
      cases hu
      exact ⟨t, rfl, hin.1, (Option.some.inj h).symm⟩
    · cases hu

/-- What one turn of the loop does: the bad blocks `E .. E'` are passed, block `E'` is erased and
programmed with the buffer. -/
structure BlockWritten (c : Config) (s s' : State) (E E' : Nat) : Prop where
  le : E ≤ E'
  skipped : ∀ i, E ≤ i → i < E' → c.taken i = false
  taken : c.taken E' = true
  inside : c.partOffset + (E' + 1) * c.dev.erasesize ≤ c.dev.mtdsize
  flash : s'.flash =
    programRange (eraseRange s.flash ((c.base + E') * c.dev.erasesize) c.dev.erasesize)
      ((c.base + E') * c.dev.erasesize) s.buf
  ops : s'.ops = s.ops ++ [.erase ((c.base + E') * c.dev.erasesize),
    .program ((c.base + E') * c.dev.erasesize) c.dev.erasesize]
  buf : s'.buf = []
  image : s'.image = s.image
  reads : s'.env.reads = s.env.reads
  counters : ∀ k, Counters c s E k → Counters c s' (E' + 1) (k + 1)

theorem writeBlock_written (hes : 0 < c.dev.erasesize)
    (halign : c.partOffset = c.base * c.dev.erasesize) (hne : c.noErase = false) {E : Nat}
    (hc : Counters c s E k) (hlen : s.buf.length = c.dev.erasesize)
    (h : writeBlock c s = some s') : ∃ E', BlockWritten c s s' E E' := by
  obtain ⟨t, herase, -, rfl⟩ := writeBlock_eq_some hne h
  obtain ⟨E', hE⟩ := eraseLoop_sound hes _ hc hlen herase
  have htlen : t.buf.length = c.dev.erasesize := by rw [hE.buf, hlen]
  have hpos : t.pos = (c.base + E') * c.dev.erasesize := by
    rw [hE.pos, halign, add_mul]
  refine ⟨E', hE.le, hE.skipped, hE.taken, hE.inside, ?_, ?_, rfl, hE.image, ?_, ?_⟩
  · rw [hE.flash, ← hE.pos, hpos, hE.buf]
  · rw [hE.ops, ← hE.pos, hpos, htlen, append_assoc]
    rfl
  · rw [hE.env]
  · intro k hk
    have hstep : ∀ n, (n + 1) * c.dev.erasesize = n * c.dev.erasesize + c.dev.erasesize :=
      fun n => Nat.succ_mul n _
    refine ⟨hE.e, ?_, ?_, Or.inl ?_⟩
    · have hskip := hk.skip
      have hsub : (E' - E) * c.dev.erasesize + E * c.dev.erasesize = E' * c.dev.erasesize := by
        rw [← add_mul, Nat.sub_add_cancel hE.le]
      rw [hE.skip, hstep, hstep]
      omega
    · rw [hE.w, htlen, hstep, hk.w]
    · rw [hE.pos, htlen, hE.e, hstep, add_assoc]

namespace BlockWritten

variable {E E' : Nat}

section

variable (h : BlockWritten c s s' E E')

include h

theorem taken_cases (hi : i < E' + 1) (ht : c.taken i) : i < E ∨ i = E' := by
  by_contra hno
  have hskipped := h.skipped i (by omega) (by omega)
  rw [hskipped] at ht
  cases ht

theorem count : Nat.count (fun i => c.taken i) E' = Nat.count (fun i => c.taken i) E :=
  Lib.count_of_gap h.le fun i hlo hhi => by simp [h.skipped i hlo hhi]

theorem flash_other (hlen : s.buf.length = c.dev.erasesize)
    (hi : i ≠ E') (hj : j < c.dev.erasesize) :
    s'.flash ((c.base + i) * c.dev.erasesize + j) =
      s.flash ((c.base + i) * c.dev.erasesize + j) := by
  rw [h.flash, rewrite_other hlen hj (by omega)]

theorem flash_same (hlen : s.buf.length = c.dev.erasesize) (hj : j < c.dev.erasesize) :
    s'.flash ((c.base + E') * c.dev.erasesize + j) = s.buf.getD j 0xff := by
  rw [h.flash, rewrite_same hlen hj]

theorem ops_touch (hes : 0 < c.dev.erasesize) {op : DevOp} (hop : op ∈ s'.ops) :
    op ∈ s.ops ∨ ∀ b, op.Touches c.dev.erasesize b → b = c.base + E' := by
  rw [h.ops, mem_append, mem_pair] at hop
  rcases hop with hold | rfl | rfl
  · exact .inl hold
  · refine .inr fun b hb => ?_
    have hb' : (c.base + E') * c.dev.erasesize / c.dev.erasesize = b := hb
    rw [Nat.mul_div_cancel _ hes] at hb'
    exact hb'.symm
  · exact .inr fun b hb => touches_program hb

end

end BlockWritten

section

variable (hes : 0 < c.dev.erasesize)

include hes

section

variable (halign : c.partOffset = c.base * c.dev.erasesize)

include halign

theorem progress_step (hne : c.noErase = false) {E : Nat} {reads : List ReadResult}
    (hp : Progress c flash image s E k) (hreads : ReadResult.error ∉ reads)
    (hrest : image.drop (k * c.dev.erasesize) ≠ [])
    (h : writeBlock c (filled c s (image.drop (k * c.dev.erasesize)) reads) = some s') :
    ∃ E', Progress c flash image s' (E' + 1) (k + 1) := by
  have hlen : (padBuf c.dev.erasesize
      ((image.drop (k * c.dev.erasesize)).take c.dev.erasesize)).length = c.dev.erasesize :=
    length_padBuf (by simp)
  have hklt : k * c.dev.erasesize < image.length := by
    by_contra hge
    exact hrest (drop_eq_nil_of_le (by omega))
  have hstep : (k + 1) * c.dev.erasesize = k * c.dev.erasesize + c.dev.erasesize := Nat.succ_mul k _
  have hc := hp.counters.filled (image.drop (k * c.dev.erasesize)) reads
  obtain ⟨E', hE⟩ := writeBlock_written hes halign hne hc hlen h
  have hle := hE.le
  have hcount := hE.count.trans hp.count
  refine ⟨E', hE.counters k hc, ?_, .inr hE.taken, ?_, ?_, ?_, ?_, ?_, ?_, ?_, ?_, ?_⟩
  · rw [Nat.count_succ, hcount, if_pos hE.taken]
  · rw [hE.buf, hE.image, hstep, ← drop_drop]
    rfl
  · omega
  · rw [hE.buf]
    exact Nat.zero_le _
  · show ReadResult.error ∉ s'.env.reads
    rw [hE.reads]
    exact hreads
  · intro i hi ht
    rcases hE.taken_cases hi ht with hlt | rfl
    · exact hp.inside i hlt ht
    · exact hE.inside
  · intro i hi ht j hj
    rcases hE.taken_cases hi ht with hlt | rfl
    · rw [hE.flash_other hlen (by omega) hj]
      exact hp.holds i hlt ht j hj
    · rw [hE.flash_same hlen hj, hcount]
      refine (getD_padBuf_take c.dev.erasesize j _ hj).trans ?_
      simp []
  · intro i hi j hj
    have hne' : i ≠ E' := by
      rintro rfl
      have hnot := hi (Nat.lt_succ_self _)
      rw [hE.taken] at hnot
      cases hnot
    rw [hE.flash_other hlen hne' hj]
    exact hp.others i (fun hlt => hi (by omega)) j hj
  · intro op hop
    rcases hE.ops_touch hes hop with hold | htouch
    · obtain ⟨i, hi, ht, hb⟩ := hp.ops op hold
      exact ⟨i, by omega, ht, hb⟩
    · exact ⟨E', Nat.lt_succ_self _, hE.taken, htouch⟩
  · intro i hi ht
    rw [hE.ops]
    rcases hE.taken_cases hi ht with hlt | rfl
    · obtain ⟨op, hop, htouch⟩ := hp.erased i hlt ht
      exact ⟨op, mem_append_left _ hop, htouch⟩
    · exact ⟨.erase ((c.base + i) * c.dev.erasesize), by simp, Nat.mul_div_cancel _ hes⟩

omit halign in
omit hes in
theorem fillBuf_progress {E : Nat} (hp : Progress c flash image s E k) :
    ∃ reads, fillBuf c.dev.erasesize s.env.reads s.buf s.image =
        ((image.drop (k * c.dev.erasesize)).take c.dev.erasesize,
          (image.drop (k * c.dev.erasesize)).drop c.dev.erasesize, reads) ∧
      ReadResult.error ∉ reads := by
  rw [← hp.rest]
  exact fillBuf_spec _ _ _ _ hp.buf hp.readable

theorem writeLoop_sound (hne : c.noErase = false) {E : Nat} (fuel : Nat)
    (hp : Progress c flash image s E k) (h : writeLoop c fuel s = some s') :
    ∃ E k, Progress c flash image s' E k ∧ image.length ≤ k * c.dev.erasesize := by
  induction fuel generalizing s E k with
  | zero => simp [writeLoop] at h
  | succ fuel ih =>
    obtain ⟨reads, hfill, hreads⟩ := fillBuf_progress hp
    rw [writeLoop, hfill] at h
    by_cases hrest : image.drop (k * c.dev.erasesize) = []
    · simp only [hrest, take_nil] at h
      cases h
      refine ⟨E, k, ⟨⟨hp.counters.e, hp.counters.skip, hp.counters.w, hp.counters.pos⟩,
        hp.count, hp.last, ?_, hp.started, hp.buf, hreads, hp.inside, hp.holds, hp.others, hp.ops,
        hp.erased⟩, drop_eq_nil_iff.1 hrest⟩
      have hbuf := hp.rest
      rw [hrest] at hbuf ⊢
      simpa using (append_eq_nil_iff.1 hbuf).1
    · have htake : (image.drop (k * c.dev.erasesize)).take c.dev.erasesize ≠ [] := by
        simp [hrest]; omega
      simp only [if_neg htake] at h
      cases hblock : writeBlock c (filled c s (image.drop (k * c.dev.erasesize)) reads) with
      | none => simp [filled] at hblock; simp [hblock] at h
      | some t =>
        obtain ⟨E', hp'⟩ := progress_step hes halign hne hp hreads hrest hblock
        simp only [filled] at hblock
        simp only [hblock] at h
        exact ih hp' h

omit halign in
omit hes in
theorem blocks_eq_of_covered (hlo : k * c.dev.erasesize < image.length + c.dev.erasesize)
    (hhi : image.length ≤ k * c.dev.erasesize) : c.blocks image = k := by
  apply Nat.div_eq_of_lt_le
  · omega
  · rw [add_mul]; omega

theorem mtdWrite_sound (hne : c.noErase = false)
    {env : Env} {buf rest : List UInt8} (henv : env.Readable)
    (hbuf : buf.length ≤ c.dev.erasesize)
    (h : mtdWrite c flash env buf rest = some s) :
    ∃ E, Progress c flash (buf ++ rest) s E (c.blocks (buf ++ rest)) := by
  obtain ⟨E, k, hp, hk⟩ :=
    writeLoop_sound hes halign hne _ (progress_start flash env buf rest hes henv hbuf) h
  rw [blocks_eq_of_covered hp.started hk]
  exact ⟨E, hp⟩

/-! ## Runs in which the kernel refuses nothing -/

/-- The device has room: the first `blocks` erase blocks that look good at `e`
lie on the device at `e + part_offset`. -/
def Config.Fits (c : Config) (image : List UInt8) : Prop :=
  ∃ n, Nat.count (fun j => c.taken j = true) n = c.blocks image ∧
    ∀ i < n, c.taken i = true → (c.base + (i + 1)) * c.dev.erasesize ≤ c.dev.mtdsize

omit halign in
omit hes in
theorem exists_taken_ahead (hfits : c.Fits image) {E : Nat}
    (hcount : Nat.count (fun i => c.taken i) E < c.blocks image) :
    ∃ E' ≥ E, c.taken E' ∧
      (c.base + (E' + 1)) * c.dev.erasesize ≤ c.dev.mtdsize := by
  obtain ⟨n, hcn, hn⟩ := hfits
  by_contra hno
  push Not at hno
  have hEn : E ≤ n :=
    (Nat.lt_of_count_lt_count (p := fun i => c.taken i = true) (by omega)).le
  have hgap := Lib.count_of_gap (p := fun i => c.taken i = true) hEn
    (fun i hlo hhi ht => absurd (hn i hhi ht) (by have := hno i hlo ht; omega))
  omega

theorem writeBlock_complete (hne : c.noErase = false)
    {E E' : Nat} (hc : Counters c s E k) (hbuf : s.buf.length = c.dev.erasesize)
    (herases : s.env.erases = []) (hwrites : s.env.writes = []) (hle : E ≤ E')
    (htaken : c.taken E')
    (hin : (c.base + (E' + 1)) * c.dev.erasesize ≤ c.dev.mtdsize) :
    ∃ s', writeBlock c s = some s' ∧ s'.env.erases = [] ∧ s'.env.writes = [] := by
  have hin' : c.partOffset + (E' + 1) * c.dev.erasesize ≤ c.dev.mtdsize := by
    rw [halign, ← add_mul]; exact hin
  have hblocks : E' + 1 ≤ c.dev.mtdsize / c.dev.erasesize := by
    rw [Nat.le_div_iff_mul_le hes]; omega
  obtain ⟨t, ht⟩ := eraseLoop_complete hes (c.dev.mtdsize / c.dev.erasesize + 2) hc hbuf herases
    hle htaken hin' (by omega)
  obtain ⟨E'', hE⟩ := eraseLoop_sound hes _ hc hbuf ht
  have hroom : t.pos + t.buf.length ≤ c.dev.mtdsize := by
    have := hE.inside
    rw [hE.pos, hE.buf]
    rw [add_mul] at this
    omega
  have hwt : t.env.writes = [] := by rw [hE.env]; exact hwrites
  have het : t.env.erases = [] := by rw [hE.env]; simp [herases]
  have hdone : ∃ s', writeBlock c s = some s' := by
    simp [writeBlock, hne, ht, writeBuf, hwt, hroom]
  obtain ⟨s', hs⟩ := hdone
  obtain ⟨u, hu, -, rfl⟩ := writeBlock_eq_some hne hs
  obtain rfl : t = u := Option.some.inj (ht.symm.trans hu)
  exact ⟨_, hs, het, by simp [hwt]⟩

theorem writeLoop_complete (hne : c.noErase = false) (hfits : c.Fits image) {E : Nat} (fuel : Nat)
    (hp : Progress c flash image s E k) (herases : s.env.erases = [])
    (hwrites : s.env.writes = [])
    (hfuel : image.length - k * c.dev.erasesize < fuel) :
    ∃ s', writeLoop c fuel s = some s' := by
  induction fuel generalizing s E k with
  | zero => omega
  | succ fuel ih =>
    obtain ⟨reads, hfill, hreads⟩ := fillBuf_progress hp
    rw [writeLoop, hfill]
    by_cases hrest : image.drop (k * c.dev.erasesize) = []
    · simp [hrest]
    have htake : (image.drop (k * c.dev.erasesize)).take c.dev.erasesize ≠ [] := by
      simp [hrest]; omega
    simp only [if_neg htake]
    have hklt : k * c.dev.erasesize < image.length := by
      by_contra hge
      exact hrest (drop_eq_nil_of_le (by omega))
    have hk : Nat.count (fun i => c.taken i = true) E < c.blocks image := by
      rw [hp.count]
      unfold Config.blocks
      rw [Nat.lt_iff_add_one_le, Nat.le_div_iff_mul_le hes, add_mul]
      omega
    obtain ⟨E', hle, htaken, hin⟩ := exists_taken_ahead hfits hk
    obtain ⟨t, hblock, het, hwt⟩ := writeBlock_complete hes halign hne
      (hp.counters.filled _ reads) (length_padBuf (by simp)) herases hwrites hle htaken hin
    obtain ⟨E'', hp'⟩ := progress_step hes halign hne hp hreads hrest hblock
    simp only [filled] at hblock
    simp only [hblock]
    exact ih hp' het hwt (by rw [add_mul]; omega)

theorem mtdWrite_complete (hne : c.noErase = false) (hfits : c.Fits image) (flash : Nat → UInt8) :
    ∃ s, mtdWrite c flash {} [] image = some s := by
  have hp := progress_start (c := c) flash {} [] image hes (by simp [Env.Readable]) (by simp)
  exact writeLoop_complete hes halign hne hfits _ hp rfl rfl (by simp)

end

end

/-! ## When the image is where it should be -/

/-- `mtd_block_is_bad` at `e` tells the truth about `e + part_offset`, for every
erase block a successful run passes. -/
def Config.Agrees (c : Config) (image : List UInt8) : Prop :=
  ∀ i, Nat.count (fun j => c.taken j = true) i < c.blocks image → c.taken i = c.good i

theorem Progress.lt_iff {E : Nat} (hp : Progress c flash image s E (c.blocks image)) (i : Nat) :
    i < E ↔ Nat.count (fun j => c.taken j) i < c.blocks image := by
  constructor
  · intro hi
    rcases hp.last with rfl | hlast
    · omega
    · rw [← hp.count]
      calc Nat.count (fun j => c.taken j = true) i
          ≤ Nat.count (fun j => c.taken j = true) (E - 1) := Nat.count_monotone _ (by omega)
        _ < Nat.count (fun j => c.taken j = true) E := Nat.count_strict_mono hlast (by omega)
  · intro hi
    exact Nat.lt_of_count_lt_count (p := fun j => c.taken j = true) (by rw [hp.count]; exact hi)

theorem Progress.fits (halign : c.partOffset = c.base * c.dev.erasesize) {E : Nat}
    (hp : Progress c flash image s E (c.blocks image)) : c.Fits image := by
  refine ⟨E, hp.count, fun i hi ht => ?_⟩
  rw [add_mul, ← halign]
  exact hp.inside i hi ht

theorem Progress.imageWritten (halign : c.partOffset = c.base * c.dev.erasesize) {E : Nat}
    (hp : Progress c flash image s E (c.blocks image)) (hagree : c.Agrees image) :
    ImageWritten c image s := by
  have htaken : ∀ i < E, c.taken i = c.good i := fun i hi => hagree i ((hp.lt_iff i).1 hi)
  have hcount : ∀ i ≤ E, Nat.count (fun j => c.good j = true) i =
      Nat.count (fun j => c.taken j = true) i :=
    fun i hi => Lib.count_congr fun j hj => by rw [htaken j (by omega)]
  refine ⟨?_, ⟨E, by rw [hcount E le_rfl, hp.count], ?_⟩, ?_⟩
  · intro i hgood hi
    have hlt : i < E := by
      by_contra hge
      have hmono : Nat.count (fun j => c.good j = true) E ≤
          Nat.count (fun j => c.good j = true) i := Nat.count_monotone _ (by omega)
      rw [hcount E le_rfl, hp.count] at hmono
      omega
    rw [hcount i hlt.le]
    exact hp.holds i hlt (by rw [htaken i hlt]; exact hgood)
  · intro i hi hgood
    rw [add_mul, ← halign]
    exact hp.inside i hi (by rw [htaken i hi]; exact hgood)
  · intro op hop b hb
    obtain ⟨i, hi, ht, honly⟩ := hp.ops op hop
    have hgood : c.good i := by rw [← htaken i hi]; exact ht
    rw [honly b hb]
    simpa [Config.good] using hgood

theorem uint8_succ_ne (x : UInt8) : x + 1 ≠ x := by
  intro h
  have := congrArg UInt8.toNat h
  simp at this
  omega

theorem agrees_of_written (hes : 0 < c.dev.erasesize)
    (hbase : c.partOffset = c.base * c.dev.erasesize) (hne : c.noErase = false)
    (hfits : c.Fits image)
    (hw : ∀ flash s, mtdWrite c flash {} [] image = some s → ImageWritten c image s) :
    c.Agrees image := by
  by_contra hno
  obtain ⟨i, hi⟩ := not_forall.1 hno
  -- The first block on which the answers differ.
  classical
  have hex : ∃ i, Nat.count (fun j => c.taken j = true) i < c.blocks image ∧
      c.taken i ≠ c.good i := ⟨i, by simpa [Classical.not_imp] using hi⟩
  obtain ⟨hcount, hdiff⟩ := Nat.find_spec hex
  have hmin := fun j (hj : j < Nat.find hex) => Nat.find_min hex hj
  set m := Nat.find hex
  let k := Nat.count (fun j => c.taken j = true) m
  obtain ⟨s, hs⟩ := mtdWrite_complete hes hbase hne hfits
    (fun _ => image.getD (k * c.dev.erasesize) 0xff + 1)
  obtain ⟨E, hp⟩ := mtdWrite_sound hes hbase hne (by simp [Env.Readable]) (by simp) hs
  have hok := hw _ s hs
  have hm : m < E := (hp.lt_iff m).2 hcount
  cases ht : c.taken m with
  | true =>
    -- A bad block was erased.
    have hbad : c.good m = false := by
      cases hg : c.good m
      · rfl
      · exact absurd (ht.trans hg.symm) hdiff
    obtain ⟨op, hop, htouch⟩ := hp.erased m hm ht
    have := hok.onlyGood op hop _ htouch
    simp [Config.good, this] at hbad
  | false =>
    -- A good block was left as it was.
    have hgood : c.good m = true := by
      cases hg : c.good m
      · exact absurd (ht.trans hg.symm) hdiff
      · rfl
    have hsame : Nat.count (fun j => c.good j = true) m = k := by
      refine Lib.count_congr fun j hj => ?_
      have hlt : Nat.count (fun j => c.taken j = true) j < c.blocks image :=
        lt_of_le_of_lt (Nat.count_monotone _ hj.le) hcount
      have hj' := hmin j hj
      simp only [hlt, true_and, not_not] at hj'
      rw [hj']
    have hh := hok.holds m hgood (by rw [hsame]; exact hcount) 0 hes
    rw [hsame, hp.others m (fun _ => ht) 0 hes] at hh
    exact uint8_succ_ne _ hh

theorem blocks_pos (hes : 0 < c.dev.erasesize) (himage : image ≠ []) : 0 < c.blocks image := by
  have hlen := length_pos_iff.mpr himage
  exact Nat.div_pos (by omega) hes

theorem not_imageWritten_start (hes : 0 < c.dev.erasesize) (himage : image ≠ []) (env : Env) :
    ¬ImageWritten c image (start c (fun _ => image.getD 0 0xff + 1) env [] image) := by
  intro hok
  obtain ⟨n, hcount, -⟩ := hok.room
  -- The first good block should hold the first block of the image.
  have hex : ∃ i, c.good i = true := by
    by_contra hno
    have hzero : Nat.count (fun j => c.good j = true) n = 0 :=
      Nat.count_iff_forall_not.mpr fun i _ hi => hno ⟨i, hi⟩
    have hpos := blocks_pos hes himage
    omega
  have hfirst : Nat.count (fun j => c.good j = true) (Nat.find hex) = 0 :=
    Nat.count_iff_forall_not.mpr fun i hi => Nat.find_min hex hi
  have hheld := hok.holds _ (Nat.find_spec hex) (by rw [hfirst]; exact blocks_pos hes himage) 0 hes
  rw [hfirst, Nat.zero_mul] at hheld
  exact uint8_succ_ne _ hheld

theorem fillBuf_nil (erasesize : Nat) (rs : List ReadResult) :
    ∃ rs', fillBuf erasesize rs [] [] = ([], [], rs') := by
  induction rs with
  | nil => exact ⟨[], by simp [fillBuf]⟩
  | cons r rs ih =>
    by_cases hlt : ([] : List UInt8).length < erasesize
    · cases r with
      | again =>
        rw [fillBuf, if_pos hlt]
        exact ih
      | error => exact ⟨rs, by rw [fillBuf, if_pos hlt]⟩
      | data n => exact ⟨rs, by rw [fillBuf, if_pos hlt]; simp⟩
    · exact ⟨r :: rs, by exact if_neg hlt⟩

theorem imageWritten_nil (hes : 0 < c.dev.erasesize) {env : Env}
    (h : mtdWrite c flash env [] [] = some s) : ImageWritten c [] s := by
  obtain ⟨rs, hfill⟩ := fillBuf_nil c.dev.erasesize env.reads
  have hblocks : c.blocks [] = 0 := Nat.div_eq_of_lt (by simp [hes])
  simp only [mtdWrite, writeLoop, start, hfill, if_pos, Option.some.injEq] at h
  subst h
  refine ⟨fun i _ hi => ?_, ⟨0, by simp [hblocks]⟩, fun op hop => by cases hop⟩
  rw [hblocks] at hi
  exact absurd hi (Nat.not_lt_zero _)

/-- `mtd_write` puts the image on the good blocks exactly when no read of a non-empty
image can fail and, for every erase block it passes, the block at `e` and the block at
`e + part_offset` are both bad or both good (or the image cannot be written at all). -/
theorem writesImage_iff (hes : 0 < c.dev.erasesize) (halign : c.dev.erasesize ∣ c.partOffset)
    (hne : c.noErase = false) (image : List UInt8) (mayFail : Bool) :
    WritesImage c image mayFail ↔
      (mayFail = true → image = []) ∧ (c.Fits image → c.Agrees image) := by
  have hbase : c.partOffset = c.base * c.dev.erasesize := (Nat.div_mul_cancel halign).symm
  constructor
  · intro hw
    refine ⟨?_, fun hfits => agrees_of_written hes hbase hne hfits fun flash s hs =>
      hw flash {} [] image s (fun _ => by simp [Env.Readable]) (Nat.zero_le _) rfl hs⟩
    rintro rfl
    by_contra himage
    refine not_imageWritten_start hes himage {} (hw (fun _ => image.getD 0 0xff + 1)
      { reads := [.error] } [] image _ (fun hno => by cases hno) (Nat.zero_le _) rfl ?_)
    simp [mtdWrite, writeLoop, start, fillBuf, hes]
  · rintro ⟨hread, hcond⟩ flash env buf rest s henv hbuf rfl h
    cases mayFail with
    | false =>
      obtain ⟨E, hp⟩ := mtdWrite_sound hes hbase hne (henv rfl) hbuf h
      exact hp.imageWritten hbase (hcond (hp.fits hbase))
    | true =>
      obtain ⟨rfl, rfl⟩ := append_eq_nil_iff.mp (hread rfl)
      exact imageWritten_nil hes h

/-- A NAND device of four blocks whose block 1 is bad, written from its start. -/
theorem writesImage_from_start :
    WritesImage { dev := { mtdsize := 8, erasesize := 2, nandflash := true, bad := (· == 1) } }
      [1, 2, 3] false :=
  (writesImage_iff (by decide) (by decide) rfl [1, 2, 3] false).2
    ⟨fun hno => (by cases hno), fun _ i _ => by simp [Config.taken, Config.good, Config.base]⟩

/-- Block 0 is bad and the image goes to block 1, which is good: block 1 is
skipped and keeps its old content. -/
theorem not_writesImage_at_offset :
    ¬ WritesImage
      { dev := { mtdsize := 8, erasesize := 2, nandflash := true, bad := (· == 0) }
        partOffset := 2 } [1, 2] false := by
  intro h
  have hw := h (fun _ => 0) {} [] [1, 2] _ (fun _ => by simp [Env.Readable]) (by decide) rfl rfl
  have hheld := hw.holds 0 (by decide) (by decide) 0 (by decide)
  exact absurd hheld (by decide)

end OpenWrt.Mtd
