import OpenWrt.Mtd.Proofs.Jffs2Encode

/-!
# JFFS2 nodes are packed legally if the directory entry fits

`Shape` is what the arithmetic of `ofs` needs, `Good` what the nodes need; every step of the
writer keeps the first, and the second unless it stores to an empty buffer without a clean
marker.
-/

namespace OpenWrt.Mtd.Jffs2.Pack

open Lib List UInt32 Nat

variable {t : Target} {s s' : Packer}
variable {b : Buffer} {k x ofs fuel len : Nat} {node : Node} {ri : RawInode}

/-! ## Legal nodes -/

theorem nodeFields_lt {n : Node} : ∀ f ∈ nodeFields t n, f.1 + f.2.length ≤ totlen n := by
  cases n with
  | dirent de =>
    simp [nodeFields, direntFields, direntRest, typeFields, u32, crcBytes, totlen, direntSize]
    omega
  | inode ri =>
    rw [nodeFields_inode]
    intro f hf
    rcases mem_append.mp hf with hf | hf
    · exact le_trans (inodeFields_lt ri f hf) (le_add_right _ _)
    · rw [mem_singleton.mp hf]
      exact le_refl _
  | other totlen => simp [nodeFields]

theorem nodeCrc_lt {n : Node} (h : n.isEntry) :
    12 ≤ totlen n ∧ (nodeCrc n).1 + 4 ≤ totlen n ∧ (nodeCrc n).2 ≤ totlen n := by
  cases n with
  | dirent de =>
    simp only [totlen, nodeCrc, direntSize]
    omega
  | inode ri =>
    simp only [totlen, nodeCrc, inodeSize]
    omega
  | other totlen => cases h

theorem Legal.congr {b' : Buffer} {n : Placed} (h : Legal t b n)
    (hsame : ∀ a < n.pos + totlen n.node, b' a = b a) : Legal t b' n := by
  obtain ⟨hhdr, hcrc, hlen⟩ := nodeCrc_lt h.entry
  have hcopy : ∀ i < totlen n.node, b' (n.pos + i) = b (n.pos + i) :=
    fun i hi => hsame (n.pos + i) (by omega)
  refine ⟨h.entry, h.aligned, h.behind, ?_, h.inside, h.fields.copy nodeFields_lt hcopy,
    h.hdrCrc.copy (by omega) (by omega) hcopy, h.nodeCrc.copy hlen hcrc hcopy⟩
  rw [← h.marker]
  apply slice_congr
  intro i hi
  exact hsame (0 + i) (by omega)

/-! ## Blocks -/

theorem block_current (s : Packer) : s.block s.flushed.length = s.buf := by
  rw [Packer.block, getD_append_right _ _ _ _ le_rfl, Nat.sub_self]
  rfl

theorem block_flushed (h : k < s.flushed.length) (d : Buffer) : s.block k = s.flushed.getD k d := by
  rw [Packer.block, getD_append _ _ _ _ h, getD_eq_getElem _ _ h, getD_eq_getElem _ _ h]

structure Good (t : Target) (s : Packer) : Prop where
  marker : 0 < s.ofs → 12 ≤ s.ofs ∧ slice s.buf 0 12 = cleanmarker t
  legal : ∀ n ∈ s.nodes, Legal t (s.block n.block) n
  here : ∀ n ∈ s.nodes, n.block < s.flushed.length ∨
    n.block = s.flushed.length ∧ n.pos + totlen n.node ≤ s.ofs

theorem Good.advance (h : Good t s) (hflushed : s'.flushed = s.flushed)
    (hnodes : s'.nodes = s.nodes)
    (hofs : s.ofs ≤ s'.ofs) (hbuf : ∀ a < s.ofs, s'.buf a = s.buf a)
    (hmarker : 0 < s'.ofs → 12 ≤ s'.ofs ∧ slice s'.buf 0 12 = cleanmarker t) : Good t s' := by
  refine ⟨hmarker, ?_, ?_⟩
  · intro n hn
    rw [hnodes] at hn
    rcases h.here n hn with hlt | ⟨heq, hend⟩
    · have hlegal := h.legal n hn
      rw [block_flushed hlt s.buf] at hlegal
      rwa [block_flushed (by rwa [hflushed]) s.buf, hflushed]
    · have hlegal := h.legal n hn
      rw [heq, block_current] at hlegal
      rw [heq, ← hflushed, block_current]
      exact hlegal.congr fun a ha => hbuf a (by omega)
  · intro n hn
    rw [hnodes] at hn
    rw [hflushed]
    rcases h.here n hn with hlt | ⟨heq, hend⟩
    · exact .inl hlt
    · exact .inr ⟨heq, hend.trans hofs⟩

theorem Good.flush (h : Good t s) :
    Good t { s with ofs := 0, flushed := s.flushed ++ [s.buf] } := by
  refine ⟨fun hpos => absurd hpos (lt_irrefl 0), ?_, ?_⟩
  · intro n hn
    have hlt : n.block < (s.flushed ++ [s.buf]).length := by
      rw [length_append, length_singleton]
      rcases h.here n hn with hlt | ⟨heq, -⟩
      · omega
      · omega
    have hblock : Packer.block { s with ofs := 0, flushed := s.flushed ++ [s.buf] } n.block =
        s.block n.block := block_flushed hlt s.buf
    rw [hblock]
    exact h.legal n hn
  · intro n hn
    rw [length_append, length_singleton]
    rcases h.here n hn with hlt | ⟨heq, -⟩
    · omega
    · omega

theorem Good.place (h : Good t s) {pos : Nat}
    (hlegal : Legal t s.buf ⟨s.flushed.length, pos, node⟩) (hend : pos + totlen node ≤ s.ofs) :
    Good t (place s pos node) := by
  refine ⟨h.marker, ?_, ?_⟩
  · intro n hn
    rcases mem_append.mp hn with hn | hn
    · exact h.legal n hn
    · rw [mem_singleton.mp hn]
      change Legal t (s.block s.flushed.length) _
      rw [block_current]
      exact hlegal
  · intro n hn
    rcases mem_append.mp hn with hn | hn
    · exact h.here n hn
    · rw [mem_singleton.mp hn]
      exact .inr ⟨rfl, hend⟩

/-! ## Padding -/

structure Shape (t : Target) (s : Packer) : Prop where
  aligned : s.ofs % 4 = 0
  lt : s.ofs < t.erasesize

theorem append_ok {bs : List UInt8} (h : s.ofs + bs.length ≤ t.erasesize) :
    append t bs s = .ok { s with buf := storeBytes s.buf s.ofs bs, ofs := s.ofs + bs.length } := by
  rw [append, store, if_neg (not_lt.mpr h)]
  rfl

theorem Good.append (h : Good t s) (hpos : 0 < s.ofs) (bs : List UInt8) :
    Good t { s with buf := storeBytes s.buf s.ofs bs, ofs := s.ofs + bs.length } := by
  have hbuf : ∀ a < s.ofs, storeBytes s.buf s.ofs bs a = s.buf a :=
    fun a ha => storeBytes_outside (.inl ha)
  refine h.advance rfl rfl (le_add_right _ _) hbuf ?_
  intro _
  obtain ⟨hle, hmarker⟩ := h.marker hpos
  refine ⟨hle.trans (le_add_right _ _), ?_⟩
  rw [← hmarker]
  exact slice_storeBytes_outside (.inl (by omega))

structure Padded (t : Target) (s s' : Packer) (ofs : Nat) : Prop where
  ofs_eq : s'.ofs = ofs
  nodes : s'.nodes = s.nodes
  good : Good t s → Good t s'

theorem wrap_full (h : s.ofs = t.erasesize) : Padded t s (wrap t s) 0 := by
  rw [wrap, if_pos (by rw [h, mod_self])]
  exact ⟨rfl, rfl, Good.flush⟩

theorem wrap_part (hlt : s.ofs < t.erasesize) (hpos : 0 < s.ofs) : wrap t s = s := by
  rw [wrap, mod_eq_of_lt hlt, if_neg (ne_of_gt hpos)]

theorem padded_le (h : x ≤ t.erasesize) : padded x ≤ t.erasesize := by
  have haligned := t.aligned
  unfold padded
  omega

theorem pad_rest {size : Nat} (hpos : 0 < s.ofs) (hlt : s.ofs < t.erasesize)
    (hmod : s.ofs % size ≠ 0) (hle : s.ofs + (size - s.ofs % size) ≤ t.erasesize) :
    ∃ s', pad t size s = .ok s' ∧
      Padded t s s' ((s.ofs + (size - s.ofs % size)) % t.erasesize) := by
  rw [pad, if_neg fun h => hmod h.1, if_pos hlt]
  generalize size - s.ofs % size = k at hle ⊢
  rw [append_ok (by rwa [length_replicate])]
  refine ⟨_, rfl, ?_⟩
  have hgood : Good t s → Good t _ := fun h => h.append hpos (replicate k 0xff)
  rw [length_replicate] at hgood ⊢
  rcases lt_or_eq_of_le hle with hin | hfull
  · rw [wrap_part hin (Nat.add_pos_left hpos k), Nat.mod_eq_of_lt hin]
    exact ⟨rfl, rfl, hgood⟩
  · obtain ⟨hofs, hnodes, hflush⟩ := wrap_full (s := { s with
      buf := storeBytes s.buf s.ofs (replicate k 0xff), ofs := s.ofs + k }) hfull
    rw [hfull, mod_self, ← hfull]
    exact ⟨hofs, hnodes, fun h => hflush (hgood h)⟩

theorem pad_four (hpos : 0 < s.ofs) (hle : s.ofs ≤ t.erasesize) :
    ∃ s', pad t 4 s = .ok s' ∧ Padded t s s' (padded s.ofs % t.erasesize) := by
  have hpadded : padded s.ofs = s.ofs + (4 - s.ofs % 4) % 4 := by
    unfold padded
    omega
  have hend : padded s.ofs ≤ t.erasesize := padded_le hle
  by_cases hlt : s.ofs < t.erasesize
  · by_cases hskip : s.ofs % 4 = 0
    · have hofs : padded s.ofs % t.erasesize = s.ofs := by
        rw [hpadded, hskip]
        exact mod_eq_of_lt hlt
      rw [pad, if_pos ⟨hskip, hlt⟩, hofs]
      exact ⟨s, rfl, rfl, rfl, id⟩
    · have hnext : padded s.ofs = s.ofs + (4 - s.ofs % 4) := by omega
      rw [hnext] at hend ⊢
      exact pad_rest hpos hlt hskip hend
  · have hfull : s.ofs = t.erasesize := le_antisymm hle (not_lt.mp hlt)
    have hofs : padded s.ofs % t.erasesize = 0 := by
      have heq : padded s.ofs = t.erasesize := by omega
      rw [heq, mod_self]
    rw [pad, if_neg fun h => hlt h.2, if_neg hlt, hofs]
    exact ⟨_, rfl, wrap_full hfull⟩

theorem pad_block (hpos : 0 < s.ofs) (hlt : s.ofs < t.erasesize) :
    ∃ s', pad t t.erasesize s = .ok s' ∧ Padded t s s' 0 := by
  have hmod : s.ofs % t.erasesize = s.ofs := mod_eq_of_lt hlt
  have hfull : s.ofs + (t.erasesize - s.ofs % t.erasesize) = t.erasesize := by omega
  have hrest := pad_rest hpos hlt (by omega) (le_of_eq hfull)
  rwa [hfull, mod_self] at hrest

theorem length_cleanmarker (t : Target) : (cleanmarker t).length = 12 := by
  unfold cleanmarker
  cases t.big with
  | false => rfl
  | true => rfl

theorem prepEraseblock_ok (s : Packer) :
    ∃ s', prepEraseblock t s = .ok s' ∧ Padded t s s' (start s.ofs) := by
  have hlarge := t.large
  by_cases hpos : 0 < s.ofs
  · rw [prepEraseblock, if_pos hpos, start, if_pos hpos]
    exact ⟨s, rfl, rfl, rfl, id⟩
  have hzero : s.ofs = 0 := Nat.eq_zero_of_not_pos hpos
  rw [prepEraseblock, if_neg hpos, start, if_neg hpos,
    append_ok (by rw [length_cleanmarker]; omega), length_cleanmarker]
  refine ⟨_, rfl, by rw [hzero], rfl, ?_⟩
  intro h
  refine h.advance rfl rfl (le_add_right _ _) (fun a ha => by omega) ?_
  intro _
  have hstore := slice_storeBytes s.buf 0 (cleanmarker t)
  rw [length_cleanmarker] at hstore
  rw [hzero]
  exact ⟨le_refl 12, hstore⟩

/-! ## Directory entries -/

theorem shape_of_mod (h : s.ofs = padded x % t.erasesize) : Shape t s := by
  have haligned := t.aligned
  have hlarge := t.large
  have hdvd : 4 ∣ t.erasesize := dvd_of_mod_eq_zero haligned
  constructor
  · rw [h, mod_mod_of_dvd _ hdvd, padded, mul_mod_left]
  · rw [h]
    exact mod_lt _ (by omega)

theorem start_aligned (h : Shape t s) : start s.ofs % 4 = 0 := by
  have haligned := h.aligned
  unfold start
  split
  · exact haligned
  · rfl

theorem shape_start (h : s.ofs = start (padded x % t.erasesize)) : Shape t s := by
  have hlarge := t.large
  have hmod : Shape t { s with ofs := padded x % t.erasesize } := shape_of_mod rfl
  have hlt : padded x % t.erasesize < t.erasesize := hmod.lt
  refine ⟨?_, ?_⟩
  · rw [h]
    exact start_aligned hmod
  · rw [h, start]
    split
    · exact hlt
    · omega

theorem start_pos (ofs : Nat) : 0 < start ofs := by
  unfold start
  split
  · assumption
  · decide

/-- The difference in the test for room is negative, a large `size_t`. -/
theorem no_pad (h : s.ofs < t.erasesize) (name : Name) :
    ¬sizeT ((s.ofs : Int) - t.erasesize) < direntSize + name.bytes.length := by
  have hint := t.isInt
  have hshort := name.short
  unfold sizeT direntSize
  omega

theorem Good.put (h : Good t s) (node : Node) (hpos : 0 < s.ofs) (haligned : s.ofs % 4 = 0)
    (hentry : node.isEntry) (hinside : s.ofs + totlen node ≤ t.erasesize)
    (hbefore : ∀ a < s.ofs, b a = s.buf a)
    (hfields : HasFields b s.ofs (nodeFields t node)) (hhdr : HasCrc t.big b s.ofs 8 8)
    (hcrc : HasCrc t.big b s.ofs (nodeCrc node).1 (nodeCrc node).2) (ino version : UInt32) :
    Good t { Pack.place s s.ofs node with
      buf := b, ofs := s.ofs + totlen node, lastIno := ino, lastVersion := version } := by
  obtain ⟨hbehind, hmarker⟩ := h.marker hpos
  have hmarker' : slice b 0 12 = cleanmarker t := by
    rw [← hmarker]
    apply slice_congr
    intro i hi
    exact hbefore (0 + i) (by omega)
  have hadvance : Good t { s with
      buf := b, ofs := s.ofs + totlen node, lastIno := ino, lastVersion := version } :=
    h.advance rfl rfl (le_add_right _ _) hbefore
      fun _ => ⟨hbehind.trans (le_add_right _ _), hmarker'⟩
  exact hadvance.place ⟨hentry, haligned, hbehind, hmarker', hinside, hfields, hhdr, hcrc⟩ le_rfl

def putDirent (t : Target) (s : Packer) (de : Dirent) : Packer :=
  { place s s.ofs (.dirent de) with
    buf := storeDirent t s.buf s.ofs de
    ofs := s.ofs + (direntSize + de.name.bytes.length)
    lastIno := s.lastIno + 1 + 1
    lastVersion := s.lastVersion + 1 }

theorem Good.putDirent (h : Good t s) (hpos : 0 < s.ofs) (haligned : s.ofs % 4 = 0) (de : Dirent)
    (hfits : s.ofs + (direntSize + de.name.bytes.length) ≤ t.erasesize) :
    Good t (putDirent t s de) := by
  obtain ⟨hfields, hhdr, hcrc⟩ := storeDirent_node (t := t) s.buf s.ofs de
  exact h.put (.dirent de) hpos haligned rfl hfits (fun a ha => storeDirent_before de ha) hfields
    hhdr hcrc _ _

theorem addDirent_ok (name : Name) (type : UInt8) (parent : UInt32) (hshape : Shape t s)
    (hfits : start s.ofs + (direntSize + name.bytes.length) ≤ t.erasesize) :
    ∃ s' ino k de, addDirent t name type parent s = .ok (s', ino) ∧
      s'.ofs = padded (start s.ofs + (direntSize + name.bytes.length)) % t.erasesize ∧
      s'.nodes = s.nodes ++ [⟨k, start s.ofs, .dirent de⟩] ∧ (Good t s → Good t s') := by
  obtain ⟨s₁, hprep, hofs, hnodes, hgood⟩ := prepEraseblock_ok (t := t) s
  have hpos : 0 < s₁.ofs := by
    rw [hofs]
    exact start_pos s.ofs
  have haligned : s₁.ofs % 4 = 0 := by
    rw [hofs]
    exact start_aligned hshape
  rw [← hofs] at hfits ⊢
  let de : Dirent := ⟨parent, s₁.lastVersion, s₁.lastIno + 1, type, name⟩
  obtain ⟨s₂, hpad, hofs₂, hnodes₂, hgood₂⟩ := pad_four (t := t) (s := putDirent t s₁ de)
    (hpos.trans_le (le_add_right _ _)) hfits
  refine ⟨s₂, s₁.lastIno + 1, s₁.flushed.length, de, ?_, hofs₂, ?_, ?_⟩
  · rw [addDirent, onlyIf, if_neg (no_pad hshape.lt name)]
    simp only [hprep, bind, Except.bind, if_neg (not_lt.mpr hfits)]
    change (pad t 4 (putDirent t s₁ de)).bind _ = _
    rw [hpad]
    rfl
  · rw [hnodes₂, ← hnodes]
    rfl
  · intro h
    exact hgood₂ ((hgood h).putDirent hpos haligned de hfits)

theorem addDirent_overrun (name : Name) (type : UInt8) (parent : UInt32) (hshape : Shape t s)
    (hlong : t.erasesize < start s.ofs + (direntSize + name.bytes.length)) :
    addDirent t name type parent s = .error .overrun := by
  obtain ⟨s₁, hprep, hofs, -, -⟩ := prepEraseblock_ok (t := t) s
  rw [← hofs] at hlong
  rw [addDirent, onlyIf, if_neg (no_pad hshape.lt name)]
  simp only [hprep, bind, Except.bind, if_pos hlong]

/-! ## Inodes -/

theorem addData_ok (s : Packer) (bs : List UInt8) (h : s.ofs + bs.length ≤ t.erasesize) :
    addData t bs s =
      .ok { s with buf := storeBytes s.buf s.ofs bs, ofs := s.ofs + bs.length } := by
  rw [addData, onlyIf, if_neg (not_lt.mpr h)]
  exact append_ok h

def putInode (s : Packer) (b : Buffer) (ri : RawInode) : Packer :=
  { place s s.ofs (.inode ri) with
    buf := storeBytes (storeBytes s.buf s.ofs (slice b 0 inodeSize)) (s.ofs + inodeSize) ri.data
    ofs := s.ofs + (inodeSize + ri.data.length) }

theorem Good.putInode (h : Good t s) (hpos : 0 < s.ofs) (haligned : s.ofs % 4 = 0)
    (hri : HasInode t b 0 ri)
    (hfits : s.ofs + (inodeSize + ri.data.length) ≤ t.erasesize) : Good t (putInode s b ri) := by
  have hcopy : ∀ i < inodeSize,
      storeBytes (storeBytes s.buf s.ofs (slice b 0 inodeSize)) (s.ofs + inodeSize) ri.data
        (s.ofs + i) = b (0 + i) := by
    intro i hi
    rw [storeBytes_outside (.inl (by omega)), storeBytes_inside (by rwa [length_slice]),
      getD_slice hi]
  have hbefore : ∀ a < s.ofs,
      storeBytes (storeBytes s.buf s.ofs (slice b 0 inodeSize)) (s.ofs + inodeSize) ri.data a =
        s.buf a := by
    intro a ha
    rw [storeBytes_outside (.inl (by omega)), storeBytes_outside (.inl ha)]
  refine h.put (.inode ri) hpos haligned rfl hfits hbefore ?_
    (hri.hdrCrc.copy (by decide) (by decide) hcopy) (hri.nodeCrc.copy (by decide) (by decide) hcopy)
      _ _
  rw [nodeFields_inode, hasFields_append]
  refine ⟨hri.fields.copy (inodeFields_lt ri) hcopy, ?_⟩
  exact hasFields_cons.mpr ⟨slice_storeBytes _ _ _, hasFields_nil⟩

structure Added (t : Target) (s s' : Packer) (node : Node) (ofs : Nat) : Prop where
  ofs_eq : s'.ofs = ofs
  nodes : ∃ k, s'.nodes = s.nodes ++ [⟨k, s.ofs, node⟩]
  good : 0 < s.ofs → Good t s → Good t s'

theorem rbytes_eq (h : s.ofs < t.erasesize) : rbytes t s = t.erasesize - s.ofs := by
  rw [rbytes, mod_eq_of_lt h]

theorem pad_inode (haligned : s.ofs % 4 = 0) (hri : HasInode t b 0 ri)
    (hfits : s.ofs + (inodeSize + ri.data.length) ≤ t.erasesize) :
    ∃ s', pad t 4 (putInode s b ri) = .ok s' ∧
      Added t s s' (.inode ri) (padded (s.ofs + (inodeSize + ri.data.length)) % t.erasesize) := by
  have hpos : 0 < (putInode s b ri).ofs := by
    change 0 < s.ofs + (68 + ri.data.length)
    omega
  obtain ⟨s', hpad, hofs, hnodes, hgood⟩ := pad_four hpos hfits
  refine ⟨s', hpad, hofs, ⟨s.flushed.length, hnodes⟩, ?_⟩
  intro hpos h
  exact hgood (h.putInode hpos haligned hri hfits)

theorem inodeRoom_ok (hshape : Shape t s) :
    ∃ s₁ s₂, onlyIf (rbytes t s < inodeSize) (pad t t.erasesize) s = .ok s₁ ∧
      prepEraseblock t s₁ = .ok s₂ ∧ s₂.ofs % 4 = 0 ∧ 0 < s₂.ofs ∧
      s₂.ofs + inodeSize ≤ t.erasesize ∧ s₂.nodes = s.nodes ∧ (Good t s → Good t s₂) := by
  have hlarge := t.large
  have haligned := hshape.aligned
  have hlt := hshape.lt
  have hroom : ∃ s₁, onlyIf (rbytes t s < inodeSize) (pad t t.erasesize) s = .ok s₁ ∧
      Padded t s s₁ (if t.erasesize - s.ofs < inodeSize then 0 else s.ofs) := by
    rw [onlyIf, rbytes_eq hlt]
    by_cases hsmall : t.erasesize - s.ofs < inodeSize
    · rw [if_pos hsmall, if_pos hsmall]
      unfold inodeSize at hsmall
      exact pad_block (by omega) hlt
    · rw [if_neg hsmall, if_neg hsmall]
      exact ⟨s, rfl, rfl, rfl, id⟩
  obtain ⟨s₁, honly, hofs₁, hnodes₁, hgood₁⟩ := hroom
  obtain ⟨s₂, hprep, hofs₂, hnodes₂, hgood₂⟩ := prepEraseblock_ok (t := t) s₁
  have hofs : s₂.ofs % 4 = 0 ∧ s₂.ofs + inodeSize ≤ t.erasesize := by
    rw [hofs₂, hofs₁]
    unfold start inodeSize
    by_cases hsmall : t.erasesize - s.ofs < 68
    · rw [if_pos hsmall, if_neg (lt_irrefl 0)]
      omega
    · rw [if_neg hsmall]
      split
      · omega
      · omega
  refine ⟨s₁, s₂, honly, hprep, hofs.1, ?_, hofs.2, hnodes₂.trans hnodes₁,
    fun h => hgood₂ (hgood₁ h)⟩
  rw [hofs₂]
  exact start_pos s₁.ofs

theorem putInode_dir (s : Packer) (ino : UInt32) :
    putInode s (dirInode t ino) (dirNode ino) =
      { place s s.ofs (.inode (dirNode ino)) with
        buf := storeBytes s.buf s.ofs (slice (dirInode t ino) 0 inodeSize)
        ofs := s.ofs + inodeSize } := by
  have hnil := storeBytes_nil (storeBytes s.buf s.ofs (slice (dirInode t ino) 0 inodeSize))
    (s.ofs + inodeSize)
  simp only [putInode, dirNode, hnil]
  rfl

theorem addDir_ok (name : Name) (parent : UInt32) (hshape : Shape t s)
    (hfits : start s.ofs + (direntSize + name.bytes.length) ≤ t.erasesize) :
    ∃ s' k k' pos de ino, addDir t name parent s = .ok s' ∧
      s'.nodes = s.nodes ++ [⟨k, start s.ofs, .dirent de⟩] ++ [⟨k', pos, .inode (dirNode ino)⟩] ∧
      (Good t s → Good t s') := by
  obtain ⟨s₁, ino, k, de, hdirent, hofs₁, hnodes₁, hgood₁⟩ :=
    addDirent_ok name dtDir parent hshape hfits
  obtain ⟨s₂, s₃, honly, hprep, haligned, hpos, hroom, hnodes₃, hgood₃⟩ :=
    inodeRoom_ok (shape_of_mod hofs₁)
  obtain ⟨s₄, hpad, -, ⟨k', hnodes₄⟩, hgood₄⟩ :=
    pad_inode haligned (hasInode_dirInode ino) hroom
  rw [putInode_dir] at hpad
  have hdata : addData t (slice (dirInode t ino) 0 inodeSize) s₃ = .ok { s₃ with
      buf := storeBytes s₃.buf s₃.ofs (slice (dirInode t ino) 0 inodeSize)
      ofs := s₃.ofs + inodeSize } := by
    have h := addData_ok (t := t) s₃ (slice (dirInode t ino) 0 inodeSize) (by rwa [length_slice])
    rwa [length_slice] at h
  refine ⟨s₄, k, k', s₃.ofs, de, ino, ?_, ?_, fun h => hgood₄ hpos (hgood₃ (hgood₁ h))⟩
  · simp only [addDir, hdirent, honly, hprep, hdata, bind, Except.bind]
    exact hpad
  · rw [hnodes₄, hnodes₃, hnodes₁]

/-! ## Data nodes -/

theorem nodePos_aligned (hshape : Shape t s) : nodePos t s.ofs % 4 = 0 := by
  have haligned := hshape.aligned
  unfold nodePos
  split
  · exact haligned
  · rfl

theorem makeRoom_ok (hlt : s.ofs < t.erasesize) :
    ∃ s', makeRoom t s = .ok (s', t.erasesize - nodePos t s.ofs - inodeSize) ∧
      Padded t s s' (nodePos t s.ofs) := by
  have hlarge := t.large
  rw [makeRoom, rbytes_eq hlt, nodePos]
  by_cases hroom : inodeSize + 128 < t.erasesize - s.ofs
  · rw [if_pos hroom, if_pos hroom]
    exact ⟨s, rfl, rfl, rfl, id⟩
  rw [if_neg hroom, if_neg hroom]
  unfold inodeSize at hroom ⊢
  obtain ⟨s₁, hpad, hofs₁, hnodes₁, hgood₁⟩ := pad_block (t := t) (s := s) (by omega) hlt
  obtain ⟨s₂, hprep, hofs₂, hnodes₂, hgood₂⟩ := prepEraseblock_ok (t := t) s₁
  rw [hofs₁] at hofs₂
  have hofs : s₂.ofs = 12 := hofs₂
  refine ⟨s₂, ?_, hofs, hnodes₂.trans hnodes₁, fun h => hgood₂ (hgood₁ h)⟩
  have hrbytes : rbytes t s₂ = t.erasesize - 12 := by rw [rbytes_eq (by omega), hofs]
  simp only [nextEraseblock, hpad, hprep, bind, Except.bind, hrbytes]
  rw [if_pos (by omega)]

theorem Good.version (h : Good t s) (version : UInt32) : Good t { s with lastVersion := version } :=
  h.advance rfl rfl le_rfl (fun _ _ => rfl) h.marker

theorem addDataNode_ok (haligned : s.ofs % 4 = 0)
    (hri : HasInode t b 0 ri) (hfits : s.ofs + (inodeSize + ri.data.length) ≤ t.erasesize) :
    ∃ s', addDataNode t b ri s = .ok s' ∧
      Added t s s' (.inode ri)
        (start (padded (s.ofs + (inodeSize + ri.data.length)) % t.erasesize)) := by
  obtain ⟨s₁, hpad, hofs₁, ⟨k, hnodes₁⟩, hgood₁⟩ :=
    pad_inode (s := { s with lastVersion := ri.version }) haligned hri hfits
  obtain ⟨s₂, hprep, hofs₂, hnodes₂, hgood₂⟩ := prepEraseblock_ok (t := t) s₁
  refine ⟨s₂, ?_, by rw [hofs₂, hofs₁], ⟨k, hnodes₂.trans hnodes₁⟩,
    fun hpos h => hgood₂ (hgood₁ hpos (h.version _))⟩
  have hheader := addData_ok (t := t) { s with lastVersion := ri.version } (slice b 0 inodeSize)
    (by rw [length_slice]; change s.ofs + _ ≤ _; omega)
  rw [length_slice] at hheader
  have hdata : addData t ri.data (place { s with
      lastVersion := ri.version
      buf := storeBytes s.buf s.ofs (slice b 0 inodeSize)
      ofs := s.ofs + inodeSize } s.ofs (.inode ri)) =
      .ok (putInode { s with lastVersion := ri.version } b ri) := by
    rw [addData_ok _ _ (by change s.ofs + inodeSize + _ ≤ _; omega)]
    simp only [putInode, place, add_assoc]
  simp only [addDataNode, hheader, bind, Except.bind, Nat.add_sub_cancel, hdata, hpad, hprep]

def chunkExtents : UInt32 → List Nat → List (Nat × Nat)
  | _, [] => []
  | offset, len :: lens => (offset.toNat, len) :: chunkExtents (offset + ofNat len) lens

theorem extents_append {pos : Nat} (h : s'.nodes = s.nodes ++ [⟨k, pos, node⟩]) :
    s'.extents = s.extents ++ (extent node).toList := by
  rw [Packer.extents, h, filterMap_append]
  congr 1

theorem nodeRoom_pos (hlt : ofs < t.erasesize) : 0 < nodeRoom t ofs ∧
    nodePos t ofs + (inodeSize + nodeRoom t ofs) ≤ t.erasesize := by
  have hlarge := t.large
  unfold nodeRoom nodePos inodeSize
  split
  · omega
  · omega

/-- What the loop of `add_file` leaves: its data nodes, the first of them at a known place. -/
structure Filed (t : Target) (s s' : Packer) (fOffset : UInt32) (fuel len : Nat) : Prop where
  extents : s'.extents = s.extents ++ chunkExtents fOffset (dataSizes t fuel s.ofs len)
  mem : ∀ n ∈ s.nodes, n ∈ s'.nodes
  first : 0 < len → ∃ n ∈ s'.nodes, n.pos = nodePos t s.ofs
  good : (len ≠ 0 → 0 < s.ofs) → Good t s → Good t s'

theorem Padded.filed {fOffset : UInt32} (h : Padded t s s' ofs) : Filed t s s' fOffset fuel 0 := by
  have hsizes : dataSizes t fuel s.ofs 0 = [] := by
    cases fuel with
    | zero => rfl
    | succ fuel => exact if_pos rfl
  refine ⟨?_, fun n hn => by rwa [h.nodes], fun hpos => absurd hpos (lt_irrefl 0),
    fun _ => h.good⟩
  rw [hsizes, chunkExtents, append_nil, Packer.extents, h.nodes, Packer.extents]

theorem Filed.cons {s₁ s₂ : Packer} (hlen : 0 < len)
    (hroom : Padded t s s₁ (nodePos t s.ofs)) (hdata : ri.data.length = min (nodeRoom t s.ofs) len)
    (hadd : Added t s₁ s₂ (.inode ri)
      (start (padded (nodePos t s.ofs + (inodeSize + ri.data.length)) % t.erasesize)))
    (hrest : Filed t s₂ s' (ri.offset + ofNat ri.data.length) fuel (len - ri.data.length)) :
    Filed t s s' ri.offset (fuel + 1) len := by
  obtain ⟨k, hnodes⟩ := hadd.nodes
  have hpos₁ : 0 < s.ofs → 0 < s₁.ofs := by
    intro hpos
    rw [hroom.ofs_eq, nodePos]
    split
    · exact hpos
    · decide
  have hpos₂ : 0 < s₂.ofs := by
    rw [hadd.ofs_eq]
    exact start_pos _
  have hne : len ≠ 0 := ne_of_gt hlen
  refine ⟨?_, ?_, ?_,
    fun hpos h => hrest.good (fun _ => hpos₂) (hadd.good (hpos₁ (hpos hne)) (hroom.good h))⟩
  · rw [hrest.extents, extents_append hnodes, Packer.extents, hroom.nodes, hadd.ofs_eq, dataSizes,
      if_neg hne, ← hdata, append_assoc]
    rfl
  · intro n hn
    apply hrest.mem
    rw [hnodes, hroom.nodes]
    exact mem_append_left _ hn
  · intro _
    refine ⟨⟨k, s₁.ofs, .inode ri⟩, hrest.mem _ ?_, hroom.ofs_eq⟩
    rw [hnodes]
    exact mem_append_right _ (mem_singleton_self _)

theorem addFileLoop_ok {fOffset : UInt32}
    {content : List UInt8} (hshape : Shape t s) (hfuel : content.length ≤ fuel)
    (hri : HasFields b 0 (fileFields t ri)) :
    ∃ s', addFileLoop t ri fuel b fOffset content s = .ok s' ∧
      Filed t s s' fOffset fuel content.length := by
  induction fuel generalizing b ri fOffset content s with
  | zero =>
    obtain ⟨s₁, hroom, hpadded⟩ := makeRoom_ok hshape.lt
    rw [le_zero.mp hfuel]
    refine ⟨s₁, ?_, hpadded.filed⟩
    simp only [addFileLoop, hroom, bind, Except.bind, pure, Except.pure]
  | succ fuel ih =>
    obtain ⟨s₁, hroom, hpadded⟩ := makeRoom_ok hshape.lt
    by_cases hnil : content = []
    · rw [hnil]
      refine ⟨s₁, ?_, hpadded.filed⟩
      simp only [addFileLoop, hroom, bind, Except.bind, take_nil, if_true]
    · obtain ⟨hroompos, hroomfits⟩ := nodeRoom_pos (t := t) hshape.lt
      have hlen : 0 < content.length := length_pos_iff.mpr hnil
      let node : RawInode := { ri with
        version := s₁.lastVersion + 1, offset := fOffset, data := content.take (nodeRoom t s.ofs) }
      have hdata : node.data.length = min (nodeRoom t s.ofs) content.length := length_take
      have hne : node.data ≠ [] := by
        rw [← length_pos_iff]
        omega
      have hnode : HasInode t (chunkInode t b node) 0 node := hasInode_chunkInode hri
      have haligned : s₁.ofs % 4 = 0 := by
        rw [hpadded.ofs_eq]
        exact nodePos_aligned hshape
      obtain ⟨s₂, hadd, hadded⟩ :=
        addDataNode_ok haligned hnode (by rw [hpadded.ofs_eq]; omega)
      have hnext : ∃ s', addFileLoop t node fuel (chunkInode t b node)
          (fOffset + ofNat node.data.length) (content.drop node.data.length) s₂ = .ok s' ∧
          Filed t s₂ s' (fOffset + ofNat node.data.length) fuel
            (content.drop node.data.length).length := by
        apply ih (shape_start hadded.ofs_eq) _ (hasFields_append.mp hnode.fields).1
        rw [length_drop]
        omega
      obtain ⟨s₃, hloop, hfiled⟩ := hnext
      rw [length_drop] at hfiled
      rw [hpadded.ofs_eq] at hadded
      refine ⟨s₃, ?_, hfiled.cons hlen hpadded hdata hadded⟩
      simp only [addFileLoop, hroom, bind, Except.bind]
      change (if node.data = [] then _ else (addDataNode t (chunkInode t b node) node s₁).bind
        fun s => addFileLoop t node fuel (chunkInode t b node)
          (fOffset + ofNat node.data.length) (content.drop node.data.length) s) = _
      rw [if_neg hne, hadd]
      exact hloop

/-! ## Coverage -/

theorem tiles_chunkExtents {offset : UInt32} {start : Nat} {lens : List Nat}
    (hoffset : offset = ofNat start) :
    Tiles start (chunkExtents offset lens) (start + lens.sum) ↔
      (lens ≠ [] → start + lens.dropLast.sum < 4294967296) := by
  induction lens generalizing offset start with
  | nil => simp [chunkExtents, Tiles]
  | cons len lens ih =>
    have hnext : offset + ofNat len = ofNat (start + len) := by
      rw [hoffset, ofNat_add]
    have hstart : offset.toNat = start ↔ start < 4294967296 := by
      rw [hoffset, toNat_ofNat']
      omega
    rw [chunkExtents, Tiles, hstart, sum_cons, ← add_assoc, ih hnext]
    cases lens with
    | nil => simp
    | cons len' lens =>
      rw [dropLast_cons_of_ne_nil (cons_ne_nil _ _), sum_cons]
      simp only [ne_eq, reduceCtorEq, not_false_eq_true, forall_const]
      omega

theorem sum_dataSizes (hfuel : len ≤ fuel) (hofs : ofs < t.erasesize) :
    (dataSizes t fuel ofs len).sum = len := by
  induction fuel generalizing ofs len with
  | zero => exact (le_zero.mp hfuel).symm
  | succ fuel ih =>
    rw [dataSizes]
    by_cases hzero : len = 0
    · rw [hzero]
      rfl
    have hroom := (nodeRoom_pos hofs).1
    have hnext : Shape t ⟨start (padded (nodePos t ofs +
        (inodeSize + min (nodeRoom t ofs) len)) % t.erasesize), fun _ => 0, 0, 0, [], []⟩ :=
      shape_start rfl
    rw [if_neg hzero, sum_cons, ih (by omega) hnext.lt]
    omega

theorem dataSizes_ne_nil (hfuel : len ≤ fuel) (hlen : len ≠ 0) : dataSizes t fuel ofs len ≠ [] := by
  cases fuel with
  | zero => exact absurd (le_zero.mp hfuel) hlen
  | succ fuel =>
    rw [dataSizes, if_neg hlen]
    exact cons_ne_nil _ _

/-! ## The calls -/

theorem Ready.shape (h : Ready t s) : Shape t s := ⟨h.aligned, h.inside⟩

theorem Ready.good (h : Ready t s) : Good t s := by
  refine ⟨h.marker, ?_, ?_⟩
  all_goals
    intro n hn
    rw [h.fresh] at hn
    cases hn

theorem Ready.extents (h : Ready t s) : s.extents = [] := by
  rw [Packer.extents, h.fresh]
  rfl

def fileNode (f : File) (ino : UInt32) : RawInode :=
  ⟨ino, 0, f.mode, ofNat f.content.length, f.atime, f.mtime, f.ctime, 0, []⟩

theorem addFile_ok (f : File) (parent : UInt32) (hready : Ready t s)
    (hfits : start s.ofs + (direntSize + f.fname.bytes.length) ≤ t.erasesize) :
    ∃ s₁ s', addFile t f parent s = .ok s' ∧ Good t s₁ ∧ s₁.extents = [] ∧
      s₁.ofs = padded (start s.ofs + (direntSize + f.fname.bytes.length)) % t.erasesize ∧
      (f.opens = false → s' = s₁) ∧
      (f.opens → Filed t s₁ s' 0 f.content.length f.content.length) := by
  obtain ⟨s₁, ino, k, de, hdirent, hofs, hnodes, hgood⟩ :=
    addDirent_ok f.fname dtReg parent hready.shape hfits
  have hextents : s₁.extents = [] := by
    rw [extents_append hnodes, hready.extents]
    rfl
  have hloop : ∃ s', addFileLoop t (fileNode f ino) f.content.length
      (putFields zeroInode 0 (fileFields t (fileNode f ino))) 0 f.content s₁ = .ok s' ∧
      Filed t s₁ s' 0 f.content.length f.content.length :=
    addFileLoop_ok (shape_of_mod hofs) le_rfl
      (hasFields_putFields (by simp [fileFields, typeFields, u32, Apart]))
  obtain ⟨s₂, hloop, hfiled⟩ := hloop
  cases hopens : f.opens with
  | false =>
    refine ⟨s₁, s₁, ?_, hgood hready.good, hextents, hofs, fun _ => rfl,
      fun h => absurd h Bool.false_ne_true⟩
    simp only [addFile, hdirent, hopens]
    rfl
  | true =>
    refine ⟨s₁, s₂, ?_, hgood hready.good, hextents, hofs,
      fun h => absurd h.symm Bool.false_ne_true, fun _ => hfiled⟩
    simp only [addFile, hdirent, hopens]
    exact hloop

theorem direntEnd_le (hready : Ready t s) {op : Op} (h : Packs t op s) :
    op.direntEnd s ≤ t.erasesize := by
  by_contra hlong
  have hlong : t.erasesize < start s.ofs + (direntSize + op.name.bytes.length) := not_le.mp hlong
  obtain ⟨s', hrun, -⟩ := h
  have herror : op.run t s = .error .overrun := by
    cases op with
    | addDirent name type parent =>
      rw [Op.run, addDirent_overrun name type parent hready.shape hlong]
      rfl
    | addDir name parent =>
      rw [Op.run, addDir, addDirent_overrun name dtDir parent hready.shape hlong]
      rfl
    | addFile f parent =>
      rw [Op.run, addFile, addDirent_overrun f.fname dtReg parent hready.shape hlong]
      rfl
  rw [hrun] at herror
  cases herror

theorem padded_pos (h : 0 < x) : 0 < padded x := by
  unfold padded
  omega

theorem Filed.tiles_iff {s₁ : Packer} (h : Filed t s₁ s' 0 len len)
    (hextents : s₁.extents = []) (hlt : s₁.ofs < t.erasesize) (hlen : len ≠ 0) :
    Tiles 0 s'.extents len ↔ (dataSizes t len s₁.ofs len).dropLast.sum < 4294967296 := by
  have htiles : Tiles 0 (chunkExtents 0 (dataSizes t len s₁.ofs len))
      (0 + (dataSizes t len s₁.ofs len).sum) ↔ _ := tiles_chunkExtents rfl
  rw [sum_dataSizes (le_refl len) hlt, zero_add, zero_add] at htiles
  rw [h.extents, hextents, nil_append, htiles]
  exact ⟨fun h => h (dataSizes_ne_nil (le_refl len) hlen), fun h _ => h⟩

theorem packs_of_run {op : Op} (h : op.run t s = .ok s') :
    Packs t op s ↔ (∀ n ∈ s'.nodes, Legal t (s'.block n.block) n) ∧ Tiles 0 s'.extents op.size := by
  constructor
  · rintro ⟨s'', hrun, hpacks⟩
    rw [h] at hrun
    cases hrun
    exact hpacks
  · intro hpacks
    exact ⟨s', h, hpacks⟩

theorem nodePos_zero (t : Target) : nodePos t 0 = 0 := by
  have hlarge := t.large
  exact if_pos (by unfold inodeSize; omega)

theorem addFile_packs_iff (f : File) (parent : UInt32) (hready : Ready t s)
    (hfits : Op.direntEnd (.addFile f parent) s ≤ t.erasesize) :
    Packs t (.addFile f parent) s ↔
      (f.content ≠ [] → FileFits t f (Op.direntEnd (.addFile f parent) s)) := by
  obtain ⟨s₁, s', hrun, hgood, hextents, hofs, hclosed, hopened⟩ := addFile_ok f parent hready hfits
  have hlt : s₁.ofs < t.erasesize := (shape_of_mod hofs).lt
  have hofs : s₁.ofs = padded (Op.direntEnd (.addFile f parent) s) % t.erasesize := hofs
  have hpos : 0 < padded (Op.direntEnd (.addFile f parent) s) :=
    padded_pos (lt_of_lt_of_le (start_pos s.ofs) (le_add_right _ _))
  have hrun : (Op.addFile f parent).run t s = .ok s' := hrun
  rw [packs_of_run hrun]
  constructor
  · rintro ⟨hlegal, htiles⟩ hne
    have hlen : f.content.length ≠ 0 := fun hzero => hne (eq_nil_of_length_eq_zero hzero)
    have hopens : f.opens := by
      by_contra hnot
      rw [hclosed (Bool.eq_false_iff.mpr hnot), hextents] at htiles
      exact hlen (Eq.symm htiles)
    have hfiled := hopened hopens
    have hblock : padded (Op.direntEnd (.addFile f parent) s) < t.erasesize := by
      by_contra hfull
      have heq := le_antisymm (padded_le hfits) (not_lt.mp hfull)
      rw [heq, mod_self] at hofs
      obtain ⟨n, hn, hnpos⟩ := hfiled.first (pos_of_ne_zero hlen)
      have hbehind := (hlegal n hn).behind
      rw [hnpos, hofs, nodePos_zero] at hbehind
      omega
    refine ⟨hopens, hblock, ?_⟩
    rw [mod_eq_of_lt hblock] at hofs
    rw [← hofs]
    exact (hfiled.tiles_iff hextents hlt hlen).mp htiles
  · intro h
    by_cases hnil : f.content = []
    · have hlen : f.content.length = 0 := by rw [hnil, length_nil]
      cases hopens : f.opens with
      | false =>
        rw [hclosed hopens]
        refine ⟨hgood.legal, ?_⟩
        rw [hextents]
        exact hlen.symm
      | true =>
        have hfiled := hopened hopens
        rw [hlen] at hfiled
        refine ⟨(hfiled.good (fun hne => absurd rfl hne) hgood).legal, ?_⟩
        rw [hfiled.extents, hextents]
        exact hlen.symm
    · obtain ⟨hopens, hblock, hoffsets⟩ := h hnil
      have hlen : f.content.length ≠ 0 := fun hzero => hnil (eq_nil_of_length_eq_zero hzero)
      have hfiled := hopened hopens
      rw [mod_eq_of_lt hblock] at hofs
      rw [← hofs] at hoffsets hpos
      exact ⟨(hfiled.good (fun _ => hpos) hgood).legal,
        (hfiled.tiles_iff hextents hlt hlen).mpr hoffsets⟩

/-- Nodes are packed legally exactly if the directory entry fits into the block, and the data
of a file, if it has any, can be read, starts in the block of its entry and at offsets of 32
bits. -/
theorem packs_iff (hready : Ready t s) (op : Op) : Packs t op s ↔ Fits t op s := by
  constructor
  · intro h
    have hfits := direntEnd_le hready h
    refine ⟨hfits, ?_⟩
    rintro f parent rfl
    exact (addFile_packs_iff f parent hready hfits).mp h
  · rintro ⟨hfits, hfile⟩
    cases op with
    | addDirent name type parent =>
      obtain ⟨s', ino, k, de, hok, -, hnodes, hgood⟩ :=
        addDirent_ok name type parent hready.shape hfits
      have hrun : (Op.addDirent name type parent).run t s = .ok s' := by
        rw [Op.run, hok]
        rfl
      rw [packs_of_run hrun, extents_append hnodes, hready.extents]
      exact ⟨(hgood hready.good).legal, rfl⟩
    | addDir name parent =>
      obtain ⟨s', k, k', pos, de, ino, hok, hnodes, hgood⟩ :=
        addDir_ok name parent hready.shape hfits
      have hrun : (Op.addDir name parent).run t s = .ok s' := hok
      have hextents : s'.extents = [(0, 0)] := by
        rw [Packer.extents, hnodes, hready.fresh]
        rfl
      rw [packs_of_run hrun, hextents]
      exact ⟨(hgood hready.good).legal, rfl, rfl⟩
    | addFile f parent => exact (addFile_packs_iff f parent hready hfits).mpr (hfile f parent rfl)

/-! ## Two buffers -/

def smallBlock : Target := ⟨4096, false, rfl, by decide, by decide⟩

def usedBuffer (ofs : Nat) : Packer :=
  ⟨ofs, storeBytes (fun _ => 0xff) 0 (cleanmarker smallBlock), 1, 0, [], []⟩

theorem ready_usedBuffer (haligned : ofs % 4 = 0) (hlt : ofs < 4096)
    (hmarker : 0 < ofs → 12 ≤ ofs) : Ready smallBlock (usedBuffer ofs) := by
  refine ⟨haligned, hlt, fun hpos => ⟨hmarker hpos, ?_⟩, rfl⟩
  exact slice_storeBytes (fun _ => 0xff) 0 (cleanmarker smallBlock)

def smallFile : File := ⟨[47, 97], 0x81a4, 0, 0, 0, true, [1, 2, 3], by decide⟩

theorem packs_smallFile : Ready smallBlock (usedBuffer 0) ∧
    Packs smallBlock (.addFile smallFile 1) (usedBuffer 0) := by
  have hready : Ready smallBlock (usedBuffer 0) :=
    ready_usedBuffer rfl (by decide) (fun hpos => absurd hpos (by decide))
  refine ⟨hready, (packs_iff hready _).mpr ⟨by decide, ?_⟩⟩
  rintro f parent heq -
  cases heq
  exact ⟨rfl, by decide, by decide⟩

/-- In the last 36 bytes of a block there is no room for a directory entry. -/
theorem not_packs_last_bytes : Ready smallBlock (usedBuffer 4060) ∧
    (Op.addFile smallFile 1).run smallBlock (usedBuffer 4060) = .error .overrun ∧
    ¬Packs smallBlock (.addFile smallFile 1) (usedBuffer 4060) := by
  have hready : Ready smallBlock (usedBuffer 4060) :=
    ready_usedBuffer rfl (by decide) (fun _ => by decide)
  have hrun : (Op.addFile smallFile 1).run smallBlock (usedBuffer 4060) = .error .overrun := by
    rfl
  refine ⟨hready, hrun, ?_⟩
  rintro ⟨s', hok, -⟩
  cases hok

end OpenWrt.Mtd.Jffs2.Pack
