import OpenWrt.Mtd.Jffs2Parse

/-!
# The scan of a JFFS2 block ends if no node comes twice

The places that the loop comes to are a walk that the block alone decides.  What it reads is
read at one of these places.
-/

namespace OpenWrt.Mtd.Jffs2.RawBlock

open Lib

variable {b : RawBlock} {dir : List UInt8} {c : Counters}

/-! ## Values and reads -/

@[simp] theorem val_readHalf (off : Nat) : (b.readHalf off).val = half b.big b.buf off := rfl

@[simp] theorem val_readField (off : Nat) : (b.readField off).val = b.field off := rfl

@[simp] theorem val_readByte (off : Nat) : (b.readByte off).val = b.byte off := rfl

def Inside (b : RawBlock) {α : Type} (m : Reads α) : Prop :=
  m.All fun e => e.1 + e.2 ≤ b.erasesize

section Rules

variable {α β : Type} {off : Nat}

@[simp] theorem inside_pure (a : α) : b.Inside (pure a) ↔ True := Traced.all_pure a

theorem inside_bind {m : Reads α} {f : α → Reads β} :
    b.Inside (m >>= f) ↔ b.Inside m ∧ b.Inside (f m.val) := Traced.all_bind

theorem inside_ite {p : Prop} [Decidable p] {m n : Reads α} :
    b.Inside (if p then m else n) ↔ (p → b.Inside m) ∧ (¬p → b.Inside n) := Traced.all_ite

theorem inside_readHalf : b.Inside (b.readHalf off) ↔ off + 2 ≤ b.erasesize := by
  simp [Inside, readHalf]

theorem inside_readField : b.Inside (b.readField off) ↔ off + 4 ≤ b.erasesize := by
  simp [Inside, readField]

theorem inside_readByte : b.Inside (b.readByte off) ↔ off + 1 ≤ b.erasesize := by
  simp [Inside, readByte]

end Rules

theorem inside_strncmp {n off : Nat} :
    b.Inside (b.strncmp n off dir) ↔ (n ≠ 0 → off + b.compared n off dir ≤ b.erasesize) := by
  induction n generalizing off dir with
  | zero => simp [strncmp]
  | succ n ih =>
    cases dir with
    | nil => simp [strncmp, compared, inside_bind, inside_readByte]
    | cons d dir =>
      rw [strncmp, compared, inside_bind, inside_readByte, val_readByte]
      by_cases hstop : b.byte off ≠ d ∨ b.byte off = 0
      · rw [if_pos hstop]
        rcases hstop with hne | hzero
        · simp [hne]
        · by_cases hne : b.byte off ≠ d
          · simp [hne]
          · rw [if_neg hne, if_pos hzero]
            simp
      · obtain ⟨heq, hzero⟩ := not_or.mp hstop
        rw [if_neg hstop, if_neg heq, if_neg hzero, ih]
        cases n with
        | zero => simp [compared]
        | succ n =>
          omega

theorem inside_targetIno {ofs : Nat} {target : UInt32} (hino : ofs + 24 ≤ b.erasesize) :
    b.Inside (b.targetIno dir ofs target) ↔
      (dir ≠ [] → b.field (ofs + 12) = 1 → b.NameInside dir ofs) := by
  by_cases hdir : dir = []
  · simp [targetIno, hdir]
  have hpino : ofs + 12 + 4 ≤ b.erasesize := by omega
  rw [targetIno, if_neg hdir, inside_bind, inside_readField, val_readField]
  by_cases hone : b.field (ofs + 12) = 1
  · have hread : b.Inside (b.readField (ofs + 20)) := inside_readField.mpr (by omega)
    rw [if_neg (not_not_intro hone), rootTarget, inside_bind, inside_readByte, inside_bind,
      inside_strncmp, inside_ite]
    constructor
    · rintro ⟨-, hnsize, hname, -⟩ - -
      exact ⟨hnsize, hname⟩
    · intro h
      obtain ⟨hnsize, hname⟩ := h hdir hone
      exact ⟨hpino, hnsize, hname, fun _ => hread, fun _ => (inside_pure _).mpr trivial⟩
  · rw [if_pos hone]
    constructor
    · intro _ _ h
      exact absurd h hone
    · intro _
      exact ⟨hpino, (inside_pure _).mpr trivial⟩

theorem inside_parseDirent {ofs : Nat} :
    b.Inside (b.parseDirent dir ofs c) ↔ b.DirentInside dir ofs := by
  simp only [parseDirent, inside_bind, inside_readField, inside_pure, and_true]
  constructor
  · rintro ⟨htarget, hino, -⟩
    exact ⟨hino, (inside_targetIno hino).mp htarget⟩
  · rintro ⟨hino, hname⟩
    exact ⟨(inside_targetIno hino).mpr hname, hino, by omega⟩

/-! ## The loop -/

theorem next_eq_none {ofs : UInt32} :
    b.next ofs = none ↔ (ofs.toNat < b.erasesize → ¬b.HasMagic ofs.toNat) := by
  simp [next]

theorem val_of_none {ofs : UInt32} (fuel : Nat) (h : b.next ofs = none) :
    (b.mtdParseJffs2data dir (fuel + 1) ofs c).val = some c := by
  rw [mtdParseJffs2data]
  by_cases hlt : ofs.toNat < b.erasesize
  · have hmagic : half b.big b.buf ofs.toNat ≠ magicBitmask := next_eq_none.mp h hlt
    rw [if_pos hlt, Traced.val_bind, val_readHalf, if_pos hmagic]
    rfl
  · rw [if_neg hlt]
    rfl

theorem val_of_some {ofs ofs' : UInt32} (fuel : Nat) (h : b.next ofs = some ofs') :
    (b.mtdParseJffs2data dir (fuel + 1) ofs c).val =
      (b.mtdParseJffs2data dir fuel ofs' (b.parseNode dir ofs.toNat c).val).val := by
  obtain ⟨⟨hlt, hmagic⟩, hnext⟩ := Option.ite_none_right_eq_some.mp h
  have hnot : ¬half b.big b.buf ofs.toNat ≠ magicBitmask := not_not_intro hmagic
  rw [mtdParseJffs2data, if_pos hlt, Traced.val_bind, val_readHalf, if_neg hnot, Traced.val_bind,
    Traced.val_bind, val_readField, ← Option.some.inj hnext]

theorem ends_iff_walk (fuel : Nat) (ofs : UInt32) (c : Counters) :
    (b.mtdParseJffs2data dir fuel ofs c).val ≠ none ↔ walk b.next ofs fuel = none := by
  induction fuel generalizing ofs c with
  | zero => simp [mtdParseJffs2data, walk]
  | succ fuel ih =>
    cases hnext : b.next ofs with
    | none => simp [val_of_none fuel hnext, walk_succ, hnext]
    | some ofs' => rw [val_of_some fuel hnext, walk_cons hnext, ih]

theorem inside_parseNode {ofs : Nat} :
    b.Inside (b.parseNode dir ofs c) ↔ ofs + 4 ≤ b.erasesize ∧
      (half b.big b.buf (ofs + 2) = nodetypeDirent → b.DirentInside dir ofs) := by
  rw [parseNode, inside_bind, inside_readHalf, inside_ite, inside_parseDirent]
  simp

theorem inside_round {ofs : UInt32} (fuel : Nat) (hlt : ofs.toNat < b.erasesize) :
    b.Inside (b.mtdParseJffs2data dir (fuel + 1) ofs c) ↔
      b.NodeInside dir ofs.toNat ∧ ∀ ofs', b.next ofs = some ofs' →
        b.Inside (b.mtdParseJffs2data dir fuel ofs' (b.parseNode dir ofs.toNat c).val) := by
  rw [mtdParseJffs2data, if_pos hlt, inside_bind, inside_readHalf, val_readHalf]
  by_cases hmagic : b.HasMagic ofs.toNat
  · have hnot : ¬half b.big b.buf ofs.toNat ≠ magicBitmask := not_not_intro hmagic
    rw [if_neg hnot, inside_bind, inside_readField, inside_bind, inside_parseNode,
      show b.next ofs = _ from if_pos ⟨hlt, hmagic⟩]
    constructor
    · rintro ⟨hhalf, htotlen, ⟨-, hdirent⟩, hrest⟩
      refine ⟨⟨hhalf, fun _ => by omega, fun _ => hdirent⟩, ?_⟩
      rintro _ ⟨⟩
      exact hrest
    · rintro ⟨⟨hhalf, htotlen, hdirent⟩, hrest⟩
      have := htotlen hmagic
      exact ⟨hhalf, by omega, ⟨by omega, hdirent hmagic⟩, hrest _ rfl⟩
  · have hnone : b.next ofs = none := next_eq_none.mpr fun _ => hmagic
    have hne : half b.big b.buf ofs.toNat ≠ magicBitmask := hmagic
    rw [if_pos hne, hnone]
    constructor
    · rintro ⟨hhalf, -⟩
      refine ⟨⟨hhalf, fun h => absurd h hmagic, fun h => absurd h hmagic⟩, ?_⟩
      rintro _ ⟨⟩
    · rintro ⟨hnode, -⟩
      exact ⟨hnode.magic, (inside_pure _).mpr trivial⟩

theorem inside_iff_walk (fuel : Nat) (ofs : UInt32) (c : Counters) :
    b.Inside (b.mtdParseJffs2data dir fuel ofs c) ↔
      ∀ n < fuel, ∀ x, walk b.next ofs n = some x → x.toNat < b.erasesize →
        b.NodeInside dir x.toNat := by
  induction fuel generalizing ofs c with
  | zero => simp [mtdParseJffs2data]
  | succ fuel ih =>
    by_cases hlt : ofs.toNat < b.erasesize
    · rw [inside_round fuel hlt]
      constructor
      · rintro ⟨hnode, hrest⟩ n hn x hx hxlt
        cases n with
        | zero =>
          cases hx
          exact hnode
        | succ n =>
          rw [walk_succ] at hx
          obtain ⟨ofs', hnext, hx⟩ := Option.bind_eq_some_iff.mp hx
          exact (ih ofs' _).mp (hrest ofs' hnext) n (Nat.lt_of_succ_lt_succ hn) x hx hxlt
      · intro h
        refine ⟨h 0 (Nat.succ_pos _) ofs rfl hlt, ?_⟩
        intro ofs' hnext
        rw [ih]
        intro n hn x hx hxlt
        exact h (n + 1) (Nat.succ_lt_succ hn) x (by rw [walk_cons hnext, hx]) hxlt
    · have hnone : b.next ofs = none := next_eq_none.mpr fun h => absurd h hlt
      rw [mtdParseJffs2data, if_neg hlt]
      constructor
      · intro _ n _ x hx hxlt
        cases n with
        | zero =>
          cases hx
          exact absurd hxlt hlt
        | succ n =>
          rw [walk_succ, hnone] at hx
          cases hx
      · intro _
        exact (inside_pure _).mpr trivial

/-- The scan ends and stays in the block exactly if no place comes twice and all nodes on the
way are inside as far as they are looked at. -/
theorem parsesSafely_iff (b : RawBlock) (dir : List UInt8) (c : Counters) :
    b.ParsesSafely dir c ↔ NoRepeat b.next 0 ∧
      ∀ n x, walk b.next 0 n = some x → x.toNat < b.erasesize → b.NodeInside dir x.toNat := by
  have hends : (∃ fuel, (b.mtdParseJffs2data dir fuel 0 c).val ≠ none) ↔ NoRepeat b.next 0 := by
    refine Iff.trans ?_ ⟨noRepeat_of_ends, ends_of_noRepeat⟩
    exact exists_congr fun fuel => ends_iff_walk fuel 0 c
  have hinside : (∀ fuel, b.Inside (b.mtdParseJffs2data dir fuel 0 c)) ↔
      ∀ n x, walk b.next 0 n = some x → x.toNat < b.erasesize → b.NodeInside dir x.toNat := by
    constructor
    · intro h n
      exact (inside_iff_walk (n + 1) 0 c).mp (h (n + 1)) n (Nat.lt_succ_self n)
    · intro h fuel
      exact (inside_iff_walk fuel 0 c).mpr fun n _ => h n
  exact and_congr hends hinside

/-! ## The nodes that are found -/

theorem val_strncmp {name : List UInt8} {off : Nat} (hname : slice b.buf off name.length = name)
    (hzero : 0 ∉ name) (hdir : 0 ∉ dir) :
    (b.strncmp name.length off dir).val = strncmpEq name dir := by
  induction name generalizing off dir with
  | nil => rfl
  | cons x name ih =>
      rw [List.length_cons, slice_succ] at hname
      obtain ⟨hx, hname⟩ := List.cons.inj hname
      have hbyte : b.byte off = x := hx
      have hne : x ≠ 0 := fun h => hzero (by rw [h]; exact List.mem_cons_self)
      cases dir with
      | nil => simp [strncmp, strncmpEq, hbyte, hne]
      | cons d dir =>
          have hrest : (b.strncmp name.length (off + 1) dir).val = strncmpEq name dir :=
            ih hname (fun h => hzero (List.mem_cons_of_mem _ h))
              (fun h => hdir (List.mem_cons_of_mem _ h))
          rw [List.length_cons, strncmp, strncmpEq, Traced.val_bind, val_readByte, hbyte]
          by_cases hd : x = d
          · rw [if_neg (not_not_intro hd), if_neg hne, hrest, hd]
            simp
          · simp [hd]

/-- The body of a bind is taken apart before its value is. -/
theorem val_bind_of_eq {α β : Type} {m : Reads α} {f : α → Reads β} {n : Reads β}
    (h : f m.val = n) : (m >>= f).val = n.val := by
  rw [Traced.val_bind, h]

theorem val_targetIno {name : Name} {de : Dirent} {ofs : Nat} {target : UInt32}
    (hdir : 0 ∉ name.bytes) (h : b.NodeAt ofs (.dirent de)) :
    (b.targetIno name.bytes ofs target).val =
      if name.bytes ≠ [] ∧ de.pino = 1 ∧ strncmpEq de.name.bytes name.bytes then de.ino
      else target := by
  obtain ⟨-, hpino, -, hino, hnsize, hname, hzero⟩ := h
  have hread : (b.readField (ofs + 12)).val = de.pino := (val_readField _).trans hpino
  have hcmp := val_strncmp hname hzero hdir
  have hroot : (b.rootTarget name.bytes ofs target).val =
      if strncmpEq de.name.bytes name.bytes then de.ino else target := by
    rw [rootTarget, Traced.val_bind, Traced.val_bind, val_readByte, hnsize, hcmp,
      apply_ite Traced.val, val_readField, hino, Traced.val_pure]
  by_cases hnil : name.bytes = []
  · rw [targetIno, if_pos hnil, if_neg fun h => h.1 hnil, Traced.val_pure]
  by_cases hone : de.pino = 1
  · have hval : (b.targetIno name.bytes ofs target).val =
        (b.rootTarget name.bytes ofs target).val := by
      rw [targetIno, if_neg hnil]
      apply val_bind_of_eq
      exact if_neg (not_not_intro (hread.trans hone))
    rw [hval, hroot]
    simp [hnil, hone]
  · have hval : (b.targetIno name.bytes ofs target).val = (pure target : Reads UInt32).val := by
      rw [targetIno, if_neg hnil]
      apply val_bind_of_eq
      exact if_pos fun heq => hone (hread.symm.trans heq)
    rw [hval, if_neg fun h => hone h.2.1, Traced.val_pure]

/-- A round does what the model on nodes does. -/
theorem val_parseNode {name : Name} {node : Node} {ofs : Nat} (hdir : 0 ∉ name.bytes)
    (h : b.NodeAt ofs node) :
    (b.parseNode name.bytes ofs c).val = Jffs2.parseNode name c node := by
  rw [parseNode, Traced.val_bind, val_readHalf]
  cases node with
  | dirent de =>
      have htarget : (b.targetIno name.bytes ofs c.targetIno).val = _ := val_targetIno hdir h
      obtain ⟨htype, -, hversion, hino, -⟩ := h
      rw [if_pos htype, parseDirent, Traced.val_bind, htarget, Traced.val_bind, val_readField, hino,
        Traced.val_bind, val_readField, hversion]
      rfl
  | inode ri =>
      rw [if_neg h]
      rfl
  | other totlen =>
      rw [if_neg h]
      rfl

/-- On a block that holds nodes the scan is that of the model on nodes. -/
theorem mtdParseJffs2data_holds {name : Name} {nodes : List Node} {ofs : UInt32}
    (hdir : 0 ∉ name.bytes) (h : b.Holds ofs nodes) (c : Counters) :
    (b.mtdParseJffs2data name.bytes (nodes.length + 1) ofs c).val =
      some (Jffs2.mtdParseJffs2data name nodes c) := by
  induction nodes generalizing ofs c with
  | nil => exact val_of_none 0 h
  | cons node nodes ih =>
      obtain ⟨hnode, ofs', hnext, hrest⟩ := h
      rw [List.length_cons, val_of_some _ hnext, val_parseNode hdir hnode, ih hrest]
      rfl

/-! ## A block without end -/

def zeroLength : RawBlock where
  erasesize := 65536
  isInt := by decide
  big := false
  buf := storeBytes (fun _ => 0) 0 [0x85, 0x19]

theorem next_zeroLength : zeroLength.next 0 = some 0 := by decide

theorem not_parsesSafely_zeroLength :
    (∀ fuel, (zeroLength.mtdParseJffs2data [] fuel 0 ⟨0, 0, 1⟩).val = none) ∧
      ¬zeroLength.ParsesSafely [] ⟨0, 0, 1⟩ := by
  have hwalk : ∀ n, walk zeroLength.next 0 n = some 0 := by
    intro n
    induction n with
    | zero => rfl
    | succ n ih => rw [walk_cons next_zeroLength, ih]
  have hnone : ∀ fuel, (zeroLength.mtdParseJffs2data [] fuel 0 ⟨0, 0, 1⟩).val = none := by
    intro fuel
    by_contra hne
    have hend := (ends_iff_walk fuel 0 _).mp hne
    rw [hwalk] at hend
    cases hend
  refine ⟨hnone, ?_⟩
  rintro ⟨⟨fuel, hne⟩, -⟩
  exact hne (hnone fuel)

end OpenWrt.Mtd.Jffs2.RawBlock
