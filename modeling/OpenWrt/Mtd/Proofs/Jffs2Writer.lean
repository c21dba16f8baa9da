import OpenWrt.Mtd.Jffs2

/-!
# The JFFS2 writer

Whatever the writer does, the nodes it makes end up in its buffers in order, at the places that
the layout has for them (`Adds`).  The blocks before the end of the file system stay as they
are, and a buffer that was programmed into an erased block is still there at the end (`Inv`).
Which of them are is a matter of the outcomes of the erases and writes (`Logged`).
-/

namespace OpenWrt.Mtd.Jffs2

open List

variable {p : Partition} {s s' s'' : State}

theorem bind_ok {α β : Type} {x : Except Halt α} {f : α → Except Halt β} {b : β}
    (h : (x >>= f) = .ok b) : ∃ a, x = .ok a ∧ f a = .ok b := by
  cases x with
  | error e => cases h
  | ok a => exact ⟨a, rfl, h⟩

/-! ## Blocks on the device -/

structure Inv (p : Partition) (s : State) : Prop where
  length : s.flash.length = p.blocks.length
  old : ∀ i, i < fsEnd p.blocks → s.flash[i]? = p.blocks[i]?
  first : fsEnd p.blocks ≤ s.pos
  order : s.pos ≤ s.mtdofs
  -- A programmed block is behind the file pointer, so nothing changes it later.
  behind : ∀ o ∈ s.flushes, o.programmed = true → o.pos < s.pos
  placed : ∀ o ∈ s.flushes, o.programmed = true →
    s.flash[o.pos]? = some .other ∨ s.flash[o.pos]? = some (Block.program .erased o.nodes)
  whole : ∀ o ∈ s.flushes, o.programmed = true → o.erased = true → o.pos = o.block →
    s.flash[o.pos]? = some (Block.program .erased o.nodes)

/-- What the outcomes of the erases and writes have to do with the buffers. -/
structure Logged (p : Partition) (erases writes : List Bool) (s : State) : Prop where
  erase : s.erases = erases.drop s.flushes.length
  write : s.writes = writes.drop s.flushes.length
  block : p.nandflash = false → s.mtdofs = fsEnd p.blocks + s.flushes.length
  -- The file pointer stays behind for ever after a write that fails.
  level : s.pos = s.mtdofs ↔ ∀ i < s.flushes.length, p.Takes writes i
  outcome : ∀ j o, s.flushes[j]? = some o →
    ((o.erased = true ∧ o.programmed = true ∧ o.pos = o.block) ↔
      erases.getD j true = true ∧ ∀ i ≤ j, p.Takes writes i)

def entriesAt (j : Nat) (ns : List Node) : List (Nat × Node) :=
  (ns.filter Node.isEntry).map (Prod.mk j)

theorem entriesAt_append (j : Nat) (ns ns' : List Node) :
    entriesAt j (ns ++ ns') = entriesAt j ns ++ entriesAt j ns' := by
  rw [entriesAt, filter_append, map_append]
  rfl

def State.places (s : State) : List (Nat × Node) :=
  (s.flushes.zipIdx.flatMap fun x => entriesAt x.2 x.1.nodes) ++ entriesAt s.flushes.length s.buf

def State.cursor (s : State) : Cursor := ⟨s.flushes.length, s.ofs⟩

/-- The entries in `ns` were made on the way from `s` to `s'`. -/
structure Adds (p : Partition) (s s' : State) (ns : List (Nat × Node)) : Prop where
  places : s'.places = s.places ++ ns
  inv : Inv p s → Inv p s'
  logged : ∀ erases writes, Inv p s → Logged p erases writes s → Logged p erases writes s'

structure Keeps (s s' : State) : Prop where
  ino : s'.lastIno = s.lastIno
  version : s'.lastVersion = s.lastVersion

structure Turns (p : Partition) (s s' : State) (c : Cursor) : Prop
    extends Adds p s s' [], Keeps s s' where
  cursor : s'.cursor = c

theorem Keeps.trans (h : Keeps s s') (h' : Keeps s' s'') : Keeps s s'' :=
  ⟨h'.ino.trans h.ino, h'.version.trans h.version⟩

theorem Adds.trans {ns ns' : List (Nat × Node)} (h : Adds p s s' ns) (h' : Adds p s' s'' ns') :
    Adds p s s'' (ns ++ ns') where
  places := by rw [h'.places, h.places, append_assoc]
  inv hinv := h'.inv (h.inv hinv)
  logged erases writes hinv hlog := h'.logged erases writes (h.inv hinv) (h.logged _ _ hinv hlog)

theorem Turns.trans {c c' : Cursor} (h : Turns p s s' c) (h' : Turns p s' s'' c') :
    Turns p s s'' c' :=
  ⟨h.toAdds.trans h'.toAdds, h.toKeeps.trans h'.toKeeps, h'.cursor⟩

theorem Adds.buffer (ns : List Node) (ofs : Nat) (ino version : UInt32) :
    Adds p s { s with
        buf := s.buf ++ ns, ofs := ofs, lastIno := ino, lastVersion := version }
      (entriesAt s.flushes.length ns) where
  places := by rw [State.places, entriesAt_append, ← append_assoc]; rfl
  inv h := ⟨h.length, h.old, h.first, h.order, h.behind, h.placed, h.whole⟩
  logged _ _ _ h := ⟨h.erase, h.write, h.block, h.level, h.outcome⟩

theorem Adds.quiet (ofs : Nat) (ino version : UInt32) :
    Adds p s { s with ofs := ofs, lastIno := ino, lastVersion := version } [] where
  places := (append_nil _).symm
  inv h := ⟨h.length, h.old, h.first, h.order, h.behind, h.placed, h.whole⟩
  logged _ _ _ h := ⟨h.erase, h.write, h.block, h.level, h.outcome⟩

theorem Turns.refl (p : Partition) (s : State) : Turns p s s s.cursor :=
  ⟨Adds.quiet s.ofs s.lastIno s.lastVersion, ⟨rfl, rfl⟩, rfl⟩

theorem Turns.ofs (s : State) (ofs : Nat) :
    Turns p s { s with ofs := ofs } ⟨s.flushes.length, ofs⟩ :=
  ⟨Adds.quiet ofs s.lastIno s.lastVersion, ⟨rfl, rfl⟩, rfl⟩

theorem skipBadBlocks_spec {fuel : Nat} (h : skipBadBlocks p fuel s = .ok s') :
    ∃ n, s' = { s with mtdofs := s.mtdofs + n, pos := s.pos + n } ∧
      (p.nandflash = true → s.mtdofs + n < p.blocks.length) ∧ (p.nandflash = false → n = 0) := by
  induction fuel generalizing s with
  | zero => cases h
  | succ fuel ih =>
    unfold skipBadBlocks at h
    split at h
    · cases h
    case h_2 bad hbad =>
      unfold mtdBlockIsBad at hbad
      split at h
      case isTrue hskip =>
        obtain ⟨n, hn, hin, hout⟩ := ih h
        have hnand : p.nandflash = true := by
          by_contra hnor
          rw [if_neg hnor, hskip.1] at hbad
          cases hbad
        refine ⟨n + 1, ?_, fun _ => ?_, fun hnor => absurd (hnand.symm.trans hnor) (by decide)⟩
        · rw [hn, Nat.add_comm n 1, ← Nat.add_assoc, ← Nat.add_assoc]
        · have := hin hnand
          dsimp only at this
          omega
      case isFalse =>
        cases h
        refine ⟨0, rfl, fun hnand => ?_, fun _ => rfl⟩
        rw [if_pos hnand] at hbad
        split at hbad
        · assumption
        · cases hbad

theorem Inv.skip (h : Inv p s) (n : Nat) :
    Inv p { s with mtdofs := s.mtdofs + n, pos := s.pos + n } := by
  refine ⟨h.length, h.old, ?_, ?_, ?_, h.placed, h.whole⟩
  · exact Nat.le_add_right_of_le h.first
  · exact Nat.add_le_add_right h.order n
  · intro o ho hprog
    exact Nat.lt_add_right n (h.behind o ho hprog)

theorem mtdEraseBlock_spec (p : Partition) (s : State) :
    ∃ flash, (mtdEraseBlock p s).1 = { s with flash := flash, erases := s.erases.tail } ∧
      flash.length = s.flash.length ∧ (∀ i, i ≠ s.mtdofs → flash[i]? = s.flash[i]?) ∧
      ((mtdEraseBlock p s).2 = true ↔
        s.mtdofs < p.blocks.length ∧ s.erases.headD true = true) ∧
      (s.flash.length = p.blocks.length → (mtdEraseBlock p s).2 →
        flash[s.mtdofs]? = some .erased) := by
  unfold mtdEraseBlock
  split
  case isTrue hok =>
    refine ⟨_, rfl, length_set, ?_, iff_of_true rfl hok, ?_⟩
    · intro i hi
      exact getElem?_set_ne (Ne.symm hi)
    · intro hlength _
      rw [getElem?_set_self]
      omega
  case isFalse hno =>
    refine ⟨_, rfl, rfl, fun _ _ => rfl, iff_of_false Bool.false_ne_true hno, ?_⟩
    intro _ hfalse
    cases hfalse

theorem Block.program_cases (b : Block) (ns : List Node) :
    b.program ns = .other ∨ b.program ns = Block.program .erased ns := by
  cases b with
  | erased => exact Or.inr rfl
  | nodes _ _ => exact Or.inl rfl
  | swapped => exact Or.inl rfl
  | other => exact Or.inl rfl

theorem writeBuf_spec (p : Partition) (s : State) :
    ∃ flash, (writeBuf p s).1 = { s with
        flash := flash
        pos := s.pos + if (writeBuf p s).2 then 1 else 0
        writes := s.writes.tail } ∧
      flash.length = s.flash.length ∧ (∀ i, i ≠ s.pos → flash[i]? = s.flash[i]?) ∧
      ((writeBuf p s).2 = true ↔ s.pos < p.blocks.length ∧ s.writes.headD true = true) ∧
      ((writeBuf p s).2 → s.flash.length = p.blocks.length →
        ∃ b, s.flash[s.pos]? = some b ∧ flash[s.pos]? = some (b.program s.buf)) := by
  unfold writeBuf
  split
  case isTrue hok =>
    refine ⟨_, rfl, length_modify .., ?_, iff_of_true rfl hok, ?_⟩
    · intro i hi
      exact getElem?_modify_ne _ _ (Ne.symm hi)
    · intro _ hlength
      have hlt : s.pos < s.flash.length := by omega
      refine ⟨s.flash[s.pos], getElem?_eq_getElem hlt, ?_⟩
      rw [getElem?_modify_eq, getElem?_eq_getElem hlt]
      rfl
  case isFalse hno =>
    refine ⟨_, rfl, rfl, fun _ _ => rfl, iff_of_false Bool.false_ne_true hno, ?_⟩
    intro hfalse
    cases hfalse

def store (p : Partition) (s : State) : State :=
  { (writeBuf p (mtdEraseBlock p s).1).1 with
    mtdofs := s.mtdofs + 1
    buf := []
    flushes := s.flushes ++ [⟨s.buf, s.mtdofs, s.pos, (mtdEraseBlock p s).2,
      (writeBuf p (mtdEraseBlock p s).1).2⟩] }

theorem store_spec (p : Partition) (s : State) :
    ∃ flash, store p s = { s with
        flash := flash
        pos := s.pos + if (writeBuf p (mtdEraseBlock p s).1).2 then 1 else 0
        mtdofs := s.mtdofs + 1
        buf := []
        erases := s.erases.tail
        writes := s.writes.tail
        flushes := s.flushes ++ [⟨s.buf, s.mtdofs, s.pos, (mtdEraseBlock p s).2,
          (writeBuf p (mtdEraseBlock p s).1).2⟩] } ∧
      flash.length = s.flash.length ∧
      (∀ i, i ≠ s.pos → i ≠ s.mtdofs → flash[i]? = s.flash[i]?) ∧
      ((mtdEraseBlock p s).2 = true ↔
        s.mtdofs < p.blocks.length ∧ s.erases.headD true = true) ∧
      ((writeBuf p (mtdEraseBlock p s).1).2 = true ↔
        s.pos < p.blocks.length ∧ s.writes.headD true = true) ∧
      ((writeBuf p (mtdEraseBlock p s).1).2 → s.flash.length = p.blocks.length →
        (flash[s.pos]? = some .other ∨ flash[s.pos]? = some (Block.program .erased s.buf)) ∧
        ((mtdEraseBlock p s).2 → s.pos = s.mtdofs →
          flash[s.pos]? = some (Block.program .erased s.buf))) := by
  obtain ⟨flash, he, helen, hesame, heiff, heok⟩ := mtdEraseBlock_spec p s
  obtain ⟨flash', hw, hwlen, hwsame, hwiff, hwok⟩ := writeBuf_spec p (mtdEraseBlock p s).1
  rw [he] at hwlen hwsame hwok
  refine ⟨flash', ?_, hwlen.trans helen, ?_, heiff, ?_, ?_⟩
  · rw [store, hw, he]
  · intro i hpos hblock
    rw [hwsame i hpos, hesame i hblock]
  · rw [hwiff, he]
  · intro hprog hlength
    rw [← he] at hwok
    obtain ⟨b, hb, hb'⟩ := hwok hprog (by rw [he]; exact helen.trans hlength)
    rw [he] at hb hb'
    rw [hb']
    refine ⟨(Block.program_cases b s.buf).imp (congrArg some) (congrArg some), ?_⟩
    intro hera hblock
    have herased := heok hlength hera
    rw [← hblock, hb] at herased
    cases herased
    rfl

theorem Inv.store (h : Inv p s) : Inv p (store p s) := by
  obtain ⟨flash, heq, hlen, hsame, -, -, hok⟩ := store_spec p s
  have horder := h.order
  have hbefore : ∀ i, i < s.pos → flash[i]? = s.flash[i]? := by
    intro i hi
    exact hsame i (by omega) (by omega)
  rw [heq]
  constructor
  · exact hlen.trans h.length
  · intro i hi
    exact (hbefore i (Nat.lt_of_lt_of_le hi h.first)).trans (h.old i hi)
  · exact Nat.le_add_right_of_le h.first
  · dsimp only
    split <;> omega
  · intro o ho hprog
    rcases mem_append.mp ho with ho | ho
    · exact Nat.lt_of_lt_of_le (h.behind o ho hprog) (Nat.le_add_right _ _)
    · cases mem_singleton.mp ho
      rw [if_pos hprog]
      exact Nat.lt_succ_self _
  · intro o ho hprog
    rcases mem_append.mp ho with ho | ho
    · have hplaced := h.placed o ho hprog
      rw [← hbefore _ (h.behind o ho hprog)] at hplaced
      exact hplaced
    · cases mem_singleton.mp ho
      exact (hok hprog h.length).1
  · intro o ho hprog hera hblock
    rcases mem_append.mp ho with ho | ho
    · exact (hbefore _ (h.behind o ho hprog)).trans (h.whole o ho hprog hera hblock)
    · cases mem_singleton.mp ho
      exact (hok hprog h.length).2 hera hblock

theorem headD_drop (l : List Bool) (n : Nat) : (l.drop n).headD true = l.getD n true := by
  rw [headD_eq_head?_getD, head?_drop, getD_eq_getElem?_getD]

theorem Logged.takes_succ {erases writes : List Bool} (h : Logged p erases writes s) :
    (∀ i < s.flushes.length + 1, p.Takes writes i) ↔
      s.pos = s.mtdofs ∧ p.Takes writes s.flushes.length := by
  rw [h.level]
  constructor
  · exact fun hle => ⟨fun i hi => hle i (by omega), hle _ (Nat.lt_succ_self _)⟩
  · rintro ⟨hlt, hlast⟩ i hi
    rcases Nat.lt_succ_iff_lt_or_eq.mp hi with hi | rfl
    · exact hlt i hi
    · exact hlast

theorem Logged.store {erases writes : List Bool} {n : Nat} (h : Logged p erases writes s)
    (hinv : Inv p s) (hin : p.nandflash = true → s.mtdofs + n < p.blocks.length)
    (hout : p.nandflash = false → n = 0) :
    Logged p erases writes (store p { s with mtdofs := s.mtdofs + n, pos := s.pos + n }) := by
  obtain ⟨flash, heq, -, -, hera, hprog, -⟩ :=
    store_spec p { s with mtdofs := s.mtdofs + n, pos := s.pos + n }
  have horder := hinv.order
  have herase : s.erases.headD true = erases.getD s.flushes.length true := by
    rw [h.erase, headD_drop]
  have hwrite : s.writes.headD true = writes.getD s.flushes.length true := by
    rw [h.write, headD_drop]
  rw [herase] at hera
  rw [hwrite] at hprog
  -- there is a block for the buffer exactly if `mtdofs` is one
  have hroom : s.mtdofs + n < p.blocks.length ↔
      p.nandflash = true ∨ fsEnd p.blocks + s.flushes.length < p.blocks.length := by
    cases hnand : p.nandflash with
    | false => rw [hout hnand, h.block hnand, or_iff_right Bool.false_ne_true, Nat.add_zero]
    | true => exact iff_of_true (hin hnand) (.inl rfl)
  have htakes : s.pos = s.mtdofs → (p.Takes writes s.flushes.length ↔
      (writeBuf p (mtdEraseBlock p { s with
        mtdofs := s.mtdofs + n, pos := s.pos + n }).1).2 = true) := by
    intro hlevel
    rw [hprog, Partition.Takes, ← hroom, hlevel, and_comm]
  rw [heq]
  refine ⟨?_, ?_, ?_, ?_, ?_⟩
  · rw [h.erase, tail_drop, length_append, length_singleton]
  · rw [h.write, tail_drop, length_append, length_singleton]
  · intro hnor
    rw [h.block hnor, hout hnor, length_append]
    rfl
  · dsimp only
    rw [length_append, length_singleton, h.takes_succ]
    constructor
    · intro hpos
      split at hpos
      · exact ⟨by omega, (htakes (by omega)).mpr ‹_›⟩
      · omega
    · rintro ⟨hlevel, hlast⟩
      rw [if_pos ((htakes hlevel).mp hlast)]
      omega
  · intro j o ho
    dsimp only at ho
    rw [getElem?_append] at ho
    split at ho
    · exact h.outcome j o ho
    obtain ⟨hj, rfl⟩ := List.getElem?_eq_some_iff.mp ho
    rw [length_singleton] at hj
    obtain rfl : j = s.flushes.length := by omega
    rw [getElem_singleton]
    have hle : (∀ i ≤ s.flushes.length, p.Takes writes i) ↔
        ∀ i < s.flushes.length + 1, p.Takes writes i := by
      simp only [Nat.lt_succ_iff]
    rw [hle, h.takes_succ, hera, Nat.add_right_cancel_iff]
    constructor
    · rintro ⟨⟨-, he⟩, hw, hlevel⟩
      exact ⟨he, hlevel, (htakes hlevel).mpr hw⟩
    · rintro ⟨he, hlevel, hlast⟩
      exact ⟨⟨hroom.mpr hlast.2, he⟩, (htakes hlevel).mp hlast, hlevel⟩

theorem flush_spec (h : flush p s = .ok s') :
    Turns p s s' ⟨s.flushes.length + 1, s.ofs⟩ ∧ s'.buf = [] := by
  obtain ⟨s1, hskip, h⟩ := bind_ok h
  obtain ⟨n, rfl, hin, hout⟩ := skipBadBlocks_spec hskip
  replace h : store p { s with mtdofs := s.mtdofs + n, pos := s.pos + n } = s' := by
    cases h
    rfl
  have hinv : Inv p s → Inv p s' := fun hinv => h ▸ (hinv.skip n).store
  have hlogged : ∀ erases writes, Inv p s → Logged p erases writes s →
      Logged p erases writes s' := fun erases writes hinv hlog =>
    h ▸ hlog.store hinv hin hout
  obtain ⟨flash, heq, -⟩ := store_spec p { s with mtdofs := s.mtdofs + n, pos := s.pos + n }
  rw [heq] at h
  cases h
  refine ⟨⟨⟨?_, hinv, hlogged⟩, ⟨rfl, rfl⟩, ?_⟩, rfl⟩
  · rw [State.places, State.places, zipIdx_append]
    simp [entriesAt]
  · rw [State.cursor, length_append, length_singleton]

/-! ## The writer -/

theorem pad_close (h : pad p p.erasesize s = .ok s') :
    Turns p s s' s.cursor.close ∧ (0 < s.ofs → s'.buf = []) := by
  have hpos := p.erasesize_pos
  unfold pad at h
  split at h
  case isTrue hstart =>
    rw [Nat.mod_eq_of_lt hstart.2] at hstart
    cases h
    rw [Cursor.close, if_pos (show s.cursor.ofs = 0 from hstart.1)]
    exact ⟨Turns.refl p s, fun hofs => absurd hstart.1 (by omega)⟩
  case isFalse hmid =>
    have hofs : s.ofs ≠ 0 := by
      intro hzero
      rw [hzero] at hmid
      exact hmid ⟨rfl, hpos⟩
    dsimp only at h
    generalize hfill : (if s.ofs < p.erasesize then s.ofs + (p.erasesize - s.ofs % p.erasesize)
      else s.ofs) = ofs at h
    split at h
    case isTrue => cases h
    case isFalse hle =>
      obtain rfl : ofs = p.erasesize := by
        split at hfill
        case isTrue hlt =>
          rw [Nat.mod_eq_of_lt hlt] at hfill
          omega
        case isFalse => omega
      rw [Nat.mod_self] at h
      obtain ⟨hturns, hbuf⟩ := flush_spec h
      rw [Cursor.close, if_neg (show s.cursor.ofs ≠ 0 from hofs)]
      exact ⟨(Turns.ofs s 0).trans hturns, fun _ => hbuf⟩

theorem pad_align (h : pad p 4 s = .ok s') : Turns p s s' (s.cursor.align p.erasesize) := by
  unfold pad at h
  split at h
  case isTrue hstart =>
    have hround : (s.ofs + 3) / 4 * 4 = s.ofs := by omega
    cases h
    rw [Cursor.align, State.cursor, hround, if_neg (by omega)]
    exact Turns.refl p s
  case isFalse hmid =>
    dsimp only at h
    generalize hfill : (if s.ofs < p.erasesize then s.ofs + (4 - s.ofs % 4) else s.ofs) = ofs at h
    split at h
    case isTrue => cases h
    case isFalse hle =>
      have hround : ofs = p.erasesize ∧ p.erasesize ≤ (s.ofs + 3) / 4 * 4 ∨
          ofs < p.erasesize ∧ (s.ofs + 3) / 4 * 4 = ofs ∧ 0 < ofs := by
        split at hfill <;> omega
      rcases hround with ⟨rfl, hfull⟩ | ⟨hlt, heq, hne⟩
      · rw [Nat.mod_self] at h
        rw [Cursor.align, State.cursor, if_pos hfull]
        exact (Turns.ofs s 0).trans (flush_spec h).1
      · rw [Nat.mod_eq_of_lt hlt, if_neg (by omega)] at h
        cases h
        rw [Cursor.align, State.cursor, heq, if_neg (by omega)]
        exact Turns.ofs s ofs

theorem prepEraseblock_spec (h : prepEraseblock p s = .ok s') : Turns p s s' s.cursor.mark := by
  unfold prepEraseblock at h
  rw [Cursor.mark, State.cursor]
  split at h
  case isTrue hofs =>
    cases h
    rw [if_neg (by dsimp only; omega)]
    exact Turns.refl p s
  case isFalse hofs =>
    split at h
    · cases h
    · cases h
      rw [if_pos (by dsimp only; omega)]
      exact ⟨Adds.buffer [cleanmarker] 12 s.lastIno s.lastVersion, ⟨rfl, rfl⟩, rfl⟩

theorem nextEraseblock_spec (h : nextEraseblock p s = .ok s') :
    Turns p s s' s.cursor.close.mark := by
  obtain ⟨s1, hpad, hprep⟩ := bind_ok h
  obtain ⟨hclose, -⟩ := pad_close hpad
  have hmark := prepEraseblock_spec hprep
  rw [hclose.cursor] at hmark
  exact hclose.trans hmark

theorem onlyIf_spec {cond : Prop} [Decidable cond] {f : State → Except Halt State} {c : Cursor}
    (hf : f s = .ok s' → Turns p s s' c) (h : onlyIf cond f s = .ok s') :
    Turns p s s' (if cond then c else s.cursor) := by
  unfold onlyIf at h
  split at h
  case isTrue hcond =>
    rw [if_pos hcond]
    exact hf h
  case isFalse hcond =>
    cases h
    rw [if_neg hcond]
    exact Turns.refl p s

theorem addData_spec {n : Option Node} {len : Nat} (h : addData p n len s = .ok s') :
    Adds p s s' (entriesAt (s.cursor.fit p.erasesize len).block n.toList) ∧ Keeps s s' ∧
      s'.cursor = (s.cursor.fit p.erasesize len).plus len ∧ len ≤ s'.ofs := by
  obtain ⟨s1, hroom, h⟩ := bind_ok h
  have hfit := onlyIf_spec nextEraseblock_spec hroom
  have hcursor : s1.cursor = s.cursor.fit p.erasesize len := hfit.cursor
  split at h
  · cases h
  · cases h
    rw [← hcursor]
    exact ⟨hfit.toAdds.trans (Adds.buffer n.toList _ _ _), ⟨hfit.ino, hfit.version⟩, rfl,
      Nat.le_add_left _ _⟩

theorem addDirent_spec {name : Name} {type : UInt8} {parent ino : UInt32}
    (h : addDirent p name type parent s = .ok (s', ino)) :
    Adds p s s' [((s.cursor.dirent p.erasesize (direntLen name)).block,
        .dirent ⟨parent, s.lastVersion, s.lastIno + 1, type, name⟩)] ∧
      ino = s.lastIno + 1 ∧ s'.lastIno = s.lastIno + 1 + 1 ∧
      s'.lastVersion = s.lastVersion + 1 ∧
      s'.cursor = ((s.cursor.dirent p.erasesize (direntLen name)).plus
        (direntLen name)).align p.erasesize := by
  obtain ⟨s1, hpad, h⟩ := bind_ok h
  have hclose := onlyIf_spec (fun h => (pad_close h).1) hpad
  obtain ⟨s2, hprep, h⟩ := bind_ok h
  have hmark := prepEraseblock_spec hprep
  rw [hclose.cursor] at hmark
  have hplace := hclose.trans hmark
  have hcursor : s2.cursor = s.cursor.dirent p.erasesize (direntLen name) := hplace.cursor
  split at h
  · cases h
  obtain ⟨s3, hpad3, h⟩ := bind_ok h
  have halign := pad_align hpad3
  cases h
  rw [← hplace.ino, ← hplace.version, ← hcursor]
  refine ⟨?_, rfl, halign.ino, halign.version, halign.cursor⟩
  exact (hplace.toAdds.trans (Adds.buffer [.dirent _] _ _ _)).trans halign.toAdds

def dirInode (ino : UInt32) : RawInode := ⟨ino, 1, 0x41ed, 0, 0, 0, 0, 0, []⟩

theorem addDir_spec {name : Name} {parent ino : UInt32}
    (h : addDir p name parent s = .ok (s', ino)) (c : Cursor)
    (hc : ((s.cursor.dirent p.erasesize (direntLen name)).plus (direntLen name)).align
      p.erasesize = c) :
    Adds p s s' [((s.cursor.dirent p.erasesize (direntLen name)).block,
          .dirent ⟨parent, s.lastVersion, s.lastIno + 1, dtDir, name⟩),
        ((c.dirInode p.erasesize).block, .inode (dirInode (s.lastIno + 1)))] ∧
      ino = s.lastIno + 1 ∧ s'.lastIno = s.lastIno + 1 + 1 ∧
      s'.lastVersion = s.lastVersion + 1 ∧
      s'.cursor = ((c.dirInode p.erasesize).plus inodeSize).align p.erasesize := by
  obtain ⟨⟨s1, ino1⟩, hdirent, h⟩ := bind_ok h
  obtain ⟨hadds1, rfl, hino1, hversion1, hcursor1⟩ := addDirent_spec hdirent
  rw [hc] at hcursor1
  obtain ⟨s2, hpad2, h⟩ := bind_ok h
  have hclose := onlyIf_spec (fun h => (pad_close h).1) hpad2
  obtain ⟨s3, hprep3, h⟩ := bind_ok h
  have hmark := prepEraseblock_spec hprep3
  rw [hclose.cursor] at hmark
  have hplace := hclose.trans hmark
  obtain ⟨s4, hdata4, h⟩ := bind_ok h
  obtain ⟨hadds4, hkeeps4, hcursor4, -⟩ := addData_spec hdata4
  have hfit : s3.cursor.fit p.erasesize inodeSize = c.dirInode p.erasesize := by
    rw [hplace.cursor]
    change Cursor.fit _ _ (Cursor.mark (if p.erasesize - s1.cursor.ofs % _ < _ then _ else _)) = _
    rw [hcursor1]
    rfl
  rw [hfit] at hadds4 hcursor4
  obtain ⟨s5, hpad5, h⟩ := bind_ok h
  have halign := pad_align hpad5
  cases h
  have hkeeps := (hplace.toKeeps.trans hkeeps4).trans halign.toKeeps
  refine ⟨?_, rfl, hkeeps.ino.trans hino1, hkeeps.version.trans hversion1, ?_⟩
  · exact hadds1.trans ((hplace.toAdds.trans hadds4).trans halign.toAdds)
  · rw [halign.cursor, hcursor4]

theorem makeRoom_spec {len : Nat} (h : makeRoom p s = .ok (s', len)) :
    Turns p s s' (s.cursor.room p.erasesize) ∧
      len = p.erasesize - (s.cursor.room p.erasesize).ofs % p.erasesize - inodeSize ∧
      128 < len := by
  unfold makeRoom at h
  rw [Cursor.room]
  split at h
  case isTrue hroom =>
    cases h
    rw [if_pos (show _ < p.erasesize - s.cursor.ofs % p.erasesize from hroom)]
    exact ⟨Turns.refl p s, rfl, by omega⟩
  case isFalse hroom =>
    rw [if_neg (show ¬_ < p.erasesize - s.cursor.ofs % p.erasesize from hroom)]
    obtain ⟨s1, hnext, h⟩ := bind_ok h
    have hturns := nextEraseblock_spec hnext
    split at h
    case isTrue hroom1 =>
      cases h
      rw [← hturns.cursor]
      exact ⟨⟨hturns.toAdds, hturns.toKeeps, rfl⟩, rfl, by omega⟩
    case isFalse => cases h

theorem addDataNode_spec {ri : RawInode} (h : addDataNode p ri s = .ok s') (c : Cursor)
    (hc : s.cursor.data p.erasesize ri.data.length = c) :
    Adds p s s' [(c.block, .inode ri)] ∧ s'.lastIno = s.lastIno ∧ s'.lastVersion = ri.version ∧
      s'.cursor = ((c.plus ri.data.length).align p.erasesize).mark := by
  obtain ⟨s1, hdata1, h⟩ := bind_ok h
  obtain ⟨hadds1, hkeeps1, hcursor1, -⟩ := addData_spec hdata1
  obtain ⟨s2, hdata2, h⟩ := bind_ok h
  obtain ⟨hadds2, hkeeps2, hcursor2, -⟩ := addData_spec hdata2
  have hplace : s1.cursor.fit p.erasesize ri.data.length = c := by
    rw [hcursor1, ← hc]
    rfl
  rw [hplace] at hadds2 hcursor2
  obtain ⟨s3, hpad3, h⟩ := bind_ok h
  have halign := pad_align hpad3
  have hmark := prepEraseblock_spec h
  rw [halign.cursor, hcursor2] at hmark
  have hkeeps := ((hkeeps1.trans hkeeps2).trans halign.toKeeps).trans hmark.toKeeps
  have hversion : Adds p s { s with lastVersion := ri.version } [] :=
    Adds.quiet s.ofs s.lastIno ri.version
  refine ⟨?_, hkeeps.ino, hkeeps.version, hmark.cursor⟩
  exact (hversion.trans hadds1).trans ((hadds2.trans halign.toAdds).trans hmark.toAdds)

/-- The nodes of one file: numbered one after the other, with the file as their
data. -/
structure DataNodes (rs : List RawInode) (ino lastVersion : UInt32) (content : List UInt8) :
    Prop where
  ino : ∀ ri ∈ rs, ri.ino = ino
  version : ∀ j (hj : j < rs.length),
    rs[j].version.toNat = (lastVersion.toNat + 1 + j) % 4294967296
  data : (rs.map RawInode.data).flatten = content

theorem DataNodes.nil (ino lastVersion : UInt32) : DataNodes [] ino lastVersion [] :=
  ⟨fun _ h => absurd h not_mem_nil, fun _ hj => absurd hj (Nat.not_lt_zero _), rfl⟩

theorem DataNodes.cons {rs : List RawInode} (ri : RawInode) {lastVersion : UInt32}
    {content : List UInt8} (hversion : ri.version = lastVersion + 1)
    (h : DataNodes rs ri.ino ri.version content) :
    DataNodes (ri :: rs) ri.ino lastVersion (ri.data ++ content) := by
  have hnat : ri.version.toNat = (lastVersion.toNat + 1) % 4294967296 := by
    rw [hversion]
    rfl
  constructor
  · intro r hr
    rcases mem_cons.mp hr with rfl | hr
    · rfl
    · exact h.ino r hr
  · intro j hj
    cases j with
    | zero => exact hnat
    | succ j =>
      have hj' : j < rs.length := Nat.lt_of_succ_lt_succ hj
      rw [getElem_cons_succ, h.version j hj']
      omega
  · rw [map_cons, flatten_cons, h.data]

theorem addFileLoop_spec {ri : RawInode} {fuel : Nat} {fOffset : UInt32} {content : List UInt8}
    (hfuel : content.length ≤ fuel) (h : addFileLoop p ri fuel fOffset content s = .ok s') :
    ∃ rs : List (Nat × RawInode), Adds p s s' (rs.map fun x => (x.1, .inode x.2)) ∧
      rs.map (fun x => (x.1, x.2.data.length)) =
        dataNodes p.erasesize fuel s.cursor content.length ∧
      DataNodes (rs.map Prod.snd) ri.ino s.lastVersion content := by
  induction fuel generalizing s fOffset content with
  | zero =>
    obtain ⟨⟨s1, len⟩, hroom, h⟩ := bind_ok h
    cases h
    obtain rfl : content = [] := length_eq_zero_iff.mp (Nat.le_zero.mp hfuel)
    exact ⟨[], (makeRoom_spec hroom).1.toAdds, rfl, DataNodes.nil _ _⟩
  | succ fuel ih =>
    obtain ⟨⟨s1, len⟩, hroom, h⟩ := bind_ok h
    obtain ⟨hturns, hlen, hmore⟩ := makeRoom_spec hroom
    dsimp only at h
    have hwbuf : (content.take (min len 4096)).length = min (min len 4096) content.length :=
      length_take
    rw [dataNodes, ← hlen, ← hwbuf]
    split at h
    case isTrue hempty =>
      cases h
      obtain rfl : content = [] := (take_eq_nil_iff.mp hempty).resolve_left (by omega)
      exact ⟨[], hturns.toAdds, by simp, DataNodes.nil _ _⟩
    case isFalse hsome =>
      obtain ⟨s2, hnode, h⟩ := bind_ok h
      have hpos : (content.take (min len 4096)).length ≠ 0 := by
        rwa [ne_eq, length_eq_zero_iff]
      rw [if_neg hpos, ← hturns.cursor]
      obtain ⟨hadds2, -, hversion2, hcursor2⟩ := addDataNode_spec hnode _ rfl
      obtain ⟨rs, hadds3, hsizes, hrs⟩ := ih (by rw [length_drop]; omega) h
      rw [hversion2] at hrs
      rw [hcursor2, length_drop] at hsizes
      refine ⟨(_, _) :: rs, (hturns.toAdds.trans hadds2).trans hadds3, ?_, ?_⟩
      · rw [map_cons, hsizes]
      have hcons := DataNodes.cons { ri with
        version := s1.lastVersion + 1, offset := fOffset, data := content.take (min len 4096) }
        (congrArg (· + 1) hturns.version) hrs
      have hsplit : content.take (min len 4096) ++
          content.drop (content.take (min len 4096)).length = content := by
        rw [length_take]
        rcases Nat.le_total (min len 4096) content.length with hle | hle
        · rw [Nat.min_eq_left hle, take_append_drop]
        · rw [Nat.min_eq_right hle, take_of_length_le hle, drop_length,
            append_nil]
      rw [hsplit] at hcons
      exact hcons

end OpenWrt.Mtd.Jffs2
