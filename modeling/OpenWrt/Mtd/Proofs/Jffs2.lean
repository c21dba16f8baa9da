import Mathlib.Algebra.BigOperators.Group.List.Basic
import Mathlib.Data.List.Sort
import Mathlib.Data.Finset.Card
import OpenWrt.Mtd.Proofs.Jffs2Writer

/-!
# The file that was appended is the one JFFS2 finds

The scan gives the greatest inode number and the greatest version of the old
directory entries.  With the nodes the writer makes from them, the path is a
question about lists of entries: the new entry counts exactly if no old one of
the same parent and name has the greatest version too.
-/

namespace OpenWrt.Mtd.Jffs2

open List

variable {p : Partition} {s : State} {dir : Name} {f : File}
variable {nodes : List Node} {de : Dirent} {rs : List RawInode} {ino pino lastVersion : UInt32}
  {ds ds' : List Dirent} {name : Name}

/-! ## The scan -/

theorem scan_eq {blocks : List Block} {mtdofs first : Nat} {c c' : Counters}
    (h : scan dir blocks mtdofs c = some (first, c')) :
    first = mtdofs + fsEnd blocks ∧ c' = mtdParseJffs2data dir (fileSystem blocks) c := by
  induction blocks generalizing mtdofs c with
  | nil => cases h
  | cons b blocks ih =>
    cases b with
    | nodes n ns =>
      obtain ⟨hfirst, hc⟩ := ih h
      constructor
      · rw [fsEnd]
        omega
      · rw [hc, fileSystem, mtdParseJffs2data, mtdParseJffs2data, mtdParseJffs2data,
          foldl_append]
    | swapped => cases h
    | erased | other =>
      cases h
      exact ⟨rfl, rfl⟩

theorem le_parseNode (dir : Name) (c : Counters) (n : Node) :
    c.lastIno ≤ (parseNode dir c n).lastIno ∧
      c.lastVersion ≤ (parseNode dir c n).lastVersion := by
  cases n with
  | dirent de =>
    dsimp only [parseNode]
    constructor
    all_goals
      split
      · exact UInt32.le_of_lt ‹_›
      · exact UInt32.le_refl _
  | inode ri | other totlen => exact ⟨UInt32.le_refl _, UInt32.le_refl _⟩

theorem le_mtdParseJffs2data (dir : Name) (nodes : List Node) (c : Counters) :
    c.lastIno ≤ (mtdParseJffs2data dir nodes c).lastIno ∧
      c.lastVersion ≤ (mtdParseJffs2data dir nodes c).lastVersion := by
  induction nodes generalizing c with
  | nil => exact ⟨UInt32.le_refl _, UInt32.le_refl _⟩
  | cons n nodes ih =>
    have hnode := le_parseNode dir c n
    have hrest := ih (parseNode dir c n)
    exact ⟨UInt32.le_trans hnode.1 hrest.1, UInt32.le_trans hnode.2 hrest.2⟩

theorem le_of_mem_dirents (h : de ∈ dirents nodes) (c : Counters) :
    de.ino ≤ (mtdParseJffs2data dir nodes c).lastIno ∧
      de.version ≤ (mtdParseJffs2data dir nodes c).lastVersion := by
  induction nodes generalizing c with
  | nil => cases h
  | cons n nodes ih =>
    cases n with
    | dirent d =>
      rcases mem_cons.mp h with rfl | h
      · have hrest := le_mtdParseJffs2data dir nodes (parseNode dir c (.dirent de))
        have hino : de.ino ≤ (parseNode dir c (.dirent de)).lastIno := by
          dsimp only [parseNode]
          split
          · exact UInt32.le_refl _
          · exact UInt32.not_lt.mp ‹_›
        have hversion : de.version ≤ (parseNode dir c (.dirent de)).lastVersion := by
          dsimp only [parseNode]
          split
          · exact UInt32.le_refl _
          · exact UInt32.not_lt.mp ‹_›
        exact ⟨UInt32.le_trans hino hrest.1, UInt32.le_trans hversion hrest.2⟩
      · exact ih h _
    | inode ri => exact ih h _
    | other totlen => exact ih h _

theorem targetIno_root (hdir : dir.bytes = []) (nodes : List Node) (c : Counters) :
    (mtdParseJffs2data dir nodes c).targetIno = c.targetIno := by
  induction nodes generalizing c with
  | nil => rfl
  | cons n nodes ih =>
    refine (ih (parseNode dir c n)).trans ?_
    cases n with
    | dirent de =>
      dsimp only [parseNode]
      rw [if_neg]
      intro h
      exact h.1 hdir
    | inode ri => rfl
    | other totlen => rfl

theorem version_le_scanned (h : de ∈ dirents (fileSystem p.blocks)) :
    de.version ≤ (scanned p dir).lastVersion :=
  (le_of_mem_dirents h _).2

theorem Counters.ino_ne_zero (c : Counters) : c.ino ≠ 0 := by
  unfold Counters.ino
  split
  · decide
  · assumption

theorem ino_le_scanned (dir : Name) (h : de ∈ dirents (fileSystem p.blocks)) :
    de.ino ≤ (scanned p dir).ino := by
  have hle : de.ino ≤ (scanned p dir).lastIno := (le_of_mem_dirents h _).1
  unfold Counters.ino
  split
  case isTrue hzero =>
    rw [hzero] at hle
    exact UInt32.le_trans hle (by decide)
  case isFalse => exact hle

/-! ## One run -/

def fileEntry (f : File) (parent version ino : UInt32) : Dirent :=
  ⟨parent, version, ino, dtReg, f.fname⟩

theorem addFile_spec {s s' : State} {parent : UInt32} {c : Cursor}
    (h : addFile p (some f) parent s = .ok s')
    (hc : s.cursor.dirent p.erasesize (direntLen f.fname) = c) :
    ∃ rs : List (Nat × RawInode),
      Adds p s s' ((c.block, .dirent (fileEntry f parent s.lastVersion (s.lastIno + 1))) ::
        rs.map fun x => (x.1, .inode x.2)) ∧
      rs.map (fun x => (x.1, x.2.data.length)) = dataNodes p.erasesize f.read.length
        ((c.plus (direntLen f.fname)).align p.erasesize) f.read.length ∧
      DataNodes (rs.map Prod.snd) (s.lastIno + 1) (s.lastVersion + 1) f.read := by
  obtain ⟨⟨s1, ino⟩, hdirent, h⟩ := bind_ok h
  obtain ⟨hadds, rfl, -, hversion, hcursor⟩ := addDirent_spec hdirent
  rw [hc] at hadds hcursor
  dsimp only at h
  unfold File.read
  split at h
  case isTrue hopens =>
    obtain ⟨rs, hadds', hsizes, hrs⟩ := addFileLoop_spec le_rfl h
    rw [if_pos hopens, ← hversion, ← hcursor]
    exact ⟨rs, hadds.trans hadds', hsizes, hrs⟩
  case isFalse hopens =>
    cases h
    rw [if_neg hopens]
    exact ⟨[], hadds, rfl, DataNodes.nil _ _⟩

def dirEntry (dir : Name) (version ino : UInt32) : Dirent := ⟨1, version, ino, dtDir, dir⟩

def dirNodes (p : Partition) (dir : Name) : List Node :=
  if (scanned p dir).targetIno = 0 then
    [.dirent (dirEntry dir (scanned p dir).lastVersion ((scanned p dir).ino + 1)),
      .inode (dirInode ((scanned p dir).ino + 1))]
  else []

theorem numbers_made {c : Counters} (ht : c.targetIno = 0) :
    c.numbers = ⟨c.ino + 1, c.lastVersion + 1, c.ino + 1 + 1⟩ := if_pos ht

theorem numbers_found {c : Counters} (ht : c.targetIno ≠ 0) :
    c.numbers = ⟨c.targetIno, c.lastVersion, c.ino⟩ := if_neg ht

theorem State.start_inv (p : Partition) (c : Counters) (erases writes : List Bool) :
    Inv p (State.start p (fsEnd p.blocks) c erases writes) := by
  refine ⟨rfl, fun _ _ => rfl, le_refl _, le_refl _, ?_, ?_, ?_⟩
  all_goals
    intro o ho
    cases ho

theorem State.start_logged (p : Partition) (c : Counters) (erases writes : List Bool) :
    Logged p erases writes (State.start p (fsEnd p.blocks) c erases writes) := by
  refine ⟨rfl, rfl, fun _ => rfl, iff_of_true rfl ?_, ?_⟩
  · intro i hi
    exact absurd hi (Nat.not_lt_zero i)
  · intro j o ho
    cases ho

theorem targetDir_spec {erases writes : List Bool} {s : State} {target : UInt32}
    (h : targetDir p dir (scanned p dir).targetIno
      (State.start p (fsEnd p.blocks) (scanned p dir) erases writes) = .ok (s, target)) :
    ∃ ns, Adds p (State.start p (fsEnd p.blocks) (scanned p dir) erases writes) s ns ∧
      ns.map Prod.fst = dirBlocks p dir ∧ ns.map Prod.snd = dirNodes p dir ∧
      (scanned p dir).numbers = ⟨target, s.lastVersion, s.lastIno⟩ ∧
      s.cursor.dirent p.erasesize (direntLen f.fname) = fileCursor p dir f := by
  unfold targetDir at h
  rw [dirBlocks, dirNodes, fileCursor]
  split at h
  case isTrue ht =>
    obtain ⟨hadds, rfl, hino, hversion, hcursor⟩ := addDir_spec h _ rfl
    rw [if_pos ht, if_pos ht, if_pos ht, numbers_made ht, hino, hversion, hcursor]
    exact ⟨_, hadds, rfl, rfl, rfl, rfl⟩
  case isFalse ht =>
    cases h
    rw [if_neg ht, if_neg ht, if_neg ht, numbers_found ht]
    exact ⟨[], Adds.quiet _ _ _, rfl, rfl, rfl, rfl⟩

structure Run (p : Partition) (dir : Name) (f : File) (erases writes : List Bool) (s : State)
    (rs : List RawInode) : Prop where
  inv : Inv p s
  logged : Logged p erases writes s
  buf : s.buf = []
  blocks : s.places.map Prod.fst = entryBlocks p dir f
  nodes : s.places.map Prod.snd = dirNodes p dir ++
    .dirent (fileEntry f (scanned p dir).numbers.parent (scanned p dir).numbers.version
      ((scanned p dir).numbers.lastIno + 1)) :: rs.map .inode
  sizes : rs.map (fun r => r.data.length) = (fileNodes p dir f).map Prod.snd
  data : DataNodes rs ((scanned p dir).numbers.lastIno + 1)
    ((scanned p dir).numbers.version + 1) f.read

theorem run_spec {erases writes : List Bool}
    (h : mtdWriteJffs2 p (some f) dir erases writes = .ok (0, s)) :
    ∃ rs, Run p dir f erases writes s rs := by
  unfold mtdWriteJffs2 at h
  split at h
  · cases h
  case h_2 first c hscan =>
    obtain ⟨hfirst, hc⟩ := scan_eq hscan
    rw [Nat.zero_add] at hfirst
    rw [hfirst] at h
    rw [hc] at h
    obtain ⟨⟨s1, target⟩, htarget, h⟩ := bind_ok h
    obtain ⟨ns, hadds1, hblocks, hnodes, hnumbers, hcursor⟩ := targetDir_spec (f := f) htarget
    obtain ⟨s2, hfile, h⟩ := bind_ok h
    obtain ⟨rs, hadds2, hsizes, hrs⟩ := addFile_spec hfile hcursor
    obtain ⟨s3, hpad3, h⟩ := bind_ok h
    obtain ⟨hclose, -⟩ := pad_close hpad3
    obtain ⟨s4, hmarker, h⟩ := bind_ok h
    obtain ⟨hadds4, -, -, hofs⟩ := addData_spec hmarker
    obtain ⟨s5, hpad5, h⟩ := bind_ok h
    obtain ⟨hclose5, hbuf⟩ := pad_close hpad5
    cases h
    have hinv := State.start_inv p (scanned p dir) erases writes
    have hadds := (hadds1.trans hadds2).trans
      ((hclose.toAdds.trans hadds4).trans hclose5.toAdds)
    have hplaces : s.places = ns ++ (_ :: rs.map fun x => (x.1, Node.inode x.2)) :=
      hadds.places.trans (append_nil _)
    have hfile := congrArg (map Prod.fst) hsizes
    have hdata := congrArg (map Prod.snd) hsizes
    rw [map_map] at hfile hdata
    refine ⟨rs.map Prod.snd, hadds.inv hinv,
      hadds.logged _ _ hinv (State.start_logged p (scanned p dir) erases writes),
      hbuf (by omega), ?_, ?_, ?_, ?_⟩
    · rw [hplaces, map_append, hblocks, map_cons, map_map, entryBlocks, fileNodes,
        ← hfile]
      rfl
    · rw [hplaces, map_append, hnodes, map_cons, map_map, map_map, hnumbers]
      rfl
    · rw [map_map, fileNodes, ← hdata]
      rfl
    · rw [hnumbers]
      exact hrs

/-! ## The file system after the run -/

theorem fileSystem_take (blocks : List Block) :
    fileSystem (blocks.take (fsEnd blocks)) = fileSystem blocks := by
  induction blocks with
  | nil => rfl
  | cons b blocks ih =>
    cases b with
    | nodes n ns =>
      rw [fsEnd, take_succ_cons, fileSystem, fileSystem, ih]
    | erased => rfl
    | swapped => rfl
    | other => rfl

theorem Inv.fileSystem_old (h : Inv p s) :
    fileSystem (s.flash.take (fsEnd p.blocks)) = fileSystem p.blocks := by
  rw [← fileSystem_take p.blocks]
  apply congrArg
  apply ext_getElem?
  intro i
  rw [getElem?_take, getElem?_take]
  split
  case isTrue hlt => exact h.old i hlt
  case isFalse => rfl

theorem contents_program (ns : List Node) : (Block.program .erased ns).contents = ns := by
  cases ns with
  | nil => rfl
  | cons n ns => rfl

theorem filter_flatMap_congr {fl : List Flush} {g : Flush → List Node}
    (h : ∀ o ∈ fl, (if o.programmed then g o else []).filter Node.isEntry =
      o.nodes.filter Node.isEntry) :
    ((fl.filter (·.programmed)).flatMap g).filter Node.isEntry =
      (fl.flatMap Flush.nodes).filter Node.isEntry := by
  induction fl with
  | nil => rfl
  | cons o fl ih =>
    have hhead := h o mem_cons_self
    have htail := ih fun o' ho' => h o' (mem_cons_of_mem o ho')
    rw [flatMap_cons, filter_append, filter_cons, ← hhead, ← htail]
    cases hprog : o.programmed with
    | false => rfl
    | true => exact filter_append ..

def Written (s : State) : Prop :=
  ∀ o ∈ s.flushes, o.carries = true → o.erased = true ∧ o.programmed = true ∧ o.pos = o.block

theorem filter_of_not_carries {o : Flush} (h : ¬o.carries) : o.nodes.filter Node.isEntry = [] := by
  rw [filter_eq_nil_iff]
  intro n hn hentry
  exact h (any_eq_true.mpr ⟨n, hn, hentry⟩)

theorem Inv.filter_programmed (h : Inv p s) (hw : Written s) {o : Flush} (ho : o ∈ s.flushes) :
    (if o.programmed then (s.flash.getD o.pos .erased).contents else []).filter Node.isEntry =
      o.nodes.filter Node.isEntry := by
  by_cases hcarries : o.carries = true
  · obtain ⟨herased, hprog, hpos⟩ := hw o ho hcarries
    rw [if_pos hprog, getD_eq_getElem?_getD, h.whole o ho hprog herased hpos,
      Option.getD_some, contents_program]
  · rw [filter_of_not_carries hcarries]
    split
    case isTrue hprog =>
      rw [getD_eq_getElem?_getD]
      rcases h.placed o ho hprog with hother | hnodes
      · rw [hother]
        rfl
      · rw [hnodes, Option.getD_some, contents_program]
        exact filter_of_not_carries hcarries
    case isFalse => rfl

theorem State.map_places (hbuf : s.buf = []) :
    s.places.map Prod.snd = (s.flushes.flatMap Flush.nodes).filter Node.isEntry := by
  have hat (j : Nat) (ns : List Node) : (entriesAt j ns).map Prod.snd = ns.filter Node.isEntry := by
    rw [entriesAt, map_map]
    exact map_id _
  have hall (l : List Flush) (k : Nat) : ((l.zipIdx k).flatMap fun x =>
      entriesAt x.2 x.1.nodes).map Prod.snd = (l.flatMap Flush.nodes).filter Node.isEntry := by
    induction l generalizing k with
    | nil => rfl
    | cons o l ih =>
      rw [zipIdx_cons, flatMap_cons, map_append, hat, ih, flatMap_cons,
        filter_append]
  rw [State.places, hbuf, map_append, hall]
  exact append_nil _

/-- A buffer with an entry is one of the places. -/
theorem carries_iff {o : Flush} {j : Nat} (hbuf : s.buf = []) (ho : s.flushes[j]? = some o) :
    o.carries = true ↔ j ∈ s.places.map Prod.fst := by
  have hplaces : s.places = s.flushes.zipIdx.flatMap fun x => entriesAt x.2 x.1.nodes := by
    rw [State.places, hbuf]
    exact append_nil _
  simp only [hplaces, Flush.carries, any_eq_true, entriesAt, mem_map, mem_flatMap,
    mem_filter, Prod.exists]
  constructor
  · rintro ⟨n, hn, hentry⟩
    exact ⟨j, n, ⟨o, j, mk_mem_zipIdx_iff_getElem?.mpr ho, n, ⟨hn, hentry⟩, rfl⟩, rfl⟩
  · rintro ⟨_, n, ⟨o', k, hmem, n', ⟨hn, hentry⟩, heq⟩, rfl⟩
    cases heq
    rw [mk_mem_zipIdx_iff_getElem?, ho, Option.some.injEq] at hmem
    exact ⟨n, hmem ▸ hn, hentry⟩

theorem Run.written_iff {erases writes : List Bool} (h : Run p dir f erases writes s rs) :
    Written s ↔ ∀ j ∈ entryBlocks p dir f,
      erases.getD j true = true ∧ ∀ i ≤ j, p.Takes writes i := by
  rw [← h.blocks]
  constructor
  · intro hw j hj
    obtain ⟨⟨k, n⟩, hmem, rfl⟩ := mem_map.mp hj
    obtain ⟨o, ho⟩ : ∃ o, s.flushes[k]? = some o := by
      rw [State.places, h.buf] at hmem
      obtain ⟨⟨o, i⟩, hzip, hat⟩ := mem_flatMap.mp (append_nil _ ▸ hmem)
      obtain ⟨_, -, heq⟩ := mem_map.mp hat
      cases heq
      exact ⟨o, mk_mem_zipIdx_iff_getElem?.mp hzip⟩
    exact (h.logged.outcome k o ho).mp
      (hw o (mem_of_getElem? ho) ((carries_iff h.buf ho).mpr hj))
  · intro hall o ho hcarries
    obtain ⟨j, hj⟩ := mem_iff_getElem?.mp ho
    exact (h.logged.outcome j o hj).mpr (hall j ((carries_iff h.buf hj).mp hcarries))

theorem dirents_filter (nodes : List Node) :
    dirents (nodes.filter Node.isEntry) = dirents nodes := by
  unfold dirents
  rw [filterMap_filter]
  congr 1
  funext n
  cases n <;> rfl

theorem inodes_filter (nodes : List Node) : inodes (nodes.filter Node.isEntry) = inodes nodes := by
  unfold inodes
  rw [filterMap_filter]
  congr 1
  funext n
  cases n <;> rfl

theorem dirents_append (ns ns' : List Node) : dirents (ns ++ ns') = dirents ns ++ dirents ns' :=
  filterMap_append

theorem inodes_append (ns ns' : List Node) : inodes (ns ++ ns') = inodes ns ++ inodes ns' :=
  filterMap_append

theorem dirents_map_inode (rs : List RawInode) : dirents (rs.map .inode) = [] := by
  induction rs with
  | nil => rfl
  | cons r rs ih => exact ih

theorem inodes_map_inode (rs : List RawInode) : inodes (rs.map .inode) = rs := by
  induction rs with
  | nil => rfl
  | cons r rs ih => exact congrArg (r :: ·) ih

theorem inodesOf_eq_nil (h : NewIno nodes ino) : inodesOf nodes ino = [] := by
  unfold inodesOf
  rw [filter_eq_nil_iff]
  intro ri hri heq
  exact h.2.2.2 ri hri (of_decide_eq_true heq)

/-! ## Entries that count -/

theorem mem_entriesOf :
    de ∈ entriesOf ds pino name ↔ de ∈ ds ∧ de.pino = pino ∧ de.name = name := by
  unfold entriesOf
  rw [mem_filter, decide_eq_true_iff]

theorem entriesOf_append (ds ds' : List Dirent) (pino : UInt32) (name : Name) :
    entriesOf (ds ++ ds') pino name = entriesOf ds pino name ++ entriesOf ds' pino name :=
  filter_append ..

theorem entriesOf_cons (h : de.pino = pino ∧ de.name = name) :
    entriesOf (de :: ds) pino name = de :: entriesOf ds pino name :=
  filter_cons_of_pos (decide_eq_true h)

theorem entriesOf_cons_of_not (h : ¬(de.pino = pino ∧ de.name = name)) :
    entriesOf (de :: ds) pino name = entriesOf ds pino name :=
  filter_cons_of_neg fun htrue => h (of_decide_eq_true htrue)

theorem Current.mem (h : Current ds pino name de) : de ∈ ds ∧ de.pino = pino ∧ de.name = name := by
  obtain ⟨before, after, heq, -⟩ := h
  rw [← mem_entriesOf, heq]
  exact mem_append_right _ mem_cons_self

theorem Current.lt {e : Dirent}
    (h : Current ds pino name de) (he : e ∈ entriesOf ds pino name) (hne : e ≠ de) :
    e.version < de.version := by
  obtain ⟨before, after, heq, hlt⟩ := h
  rw [heq] at he
  apply hlt
  rcases mem_append.mp he with he | he
  · exact mem_append_left _ he
  · rcases mem_cons.mp he with he | he
    · exact absurd he hne
    · exact mem_append_right _ he

theorem Current.of_new (hnew : entriesOf ds' pino name = [de])
    (hold : ∀ e ∈ entriesOf ds pino name, e.version < de.version) :
    Current (ds ++ ds') pino name de := by
  refine ⟨entriesOf ds pino name, [], ?_, ?_⟩
  · rw [entriesOf_append, hnew]
  · rw [append_nil]
    exact hold

theorem Current.outdates (h : Current (ds ++ ds') pino name de) (hnew : de ∉ ds) :
    ∀ e ∈ entriesOf ds pino name, e.version < de.version := by
  intro e he
  apply h.lt
  · rw [entriesOf_append]
    exact mem_append_left _ he
  · intro heq
    rw [heq] at he
    exact hnew (mem_entriesOf.mp he).1

theorem current_append_of_none (h : entriesOf ds' pino name = []) (de : Dirent) :
    Current (ds ++ ds') pino name de ↔ Current ds pino name de := by
  unfold Current
  rw [entriesOf_append, h, append_nil]

/-! ## The order of the data nodes -/

theorem DataNodes.pairwise_rotated {content : List UInt8} (h : DataNodes rs ino lastVersion content)
    (hlen : rs.length ≤ 4294967296) :
    (rs.drop (4294967295 - lastVersion.toNat) ++
      rs.take (4294967295 - lastVersion.toNat)).Pairwise (·.version < ·.version) := by
  have hlast : lastVersion.toNat < 4294967296 := lastVersion.toNat_lt
  rw [pairwise_append]
  refine ⟨?_, ?_, ?_⟩
  · rw [pairwise_iff_getElem]
    intro i j hi hj hij
    rw [length_drop] at hi hj
    rw [UInt32.lt_iff_toNat_lt, getElem_drop, getElem_drop, h.version, h.version]
    omega
  · rw [pairwise_iff_getElem]
    intro i j hi hj hij
    rw [length_take] at hi hj
    rw [UInt32.lt_iff_toNat_lt, getElem_take, getElem_take, h.version, h.version]
    omega
  · intro a ha b hb
    obtain ⟨i, hi, rfl⟩ := getElem_of_mem ha
    obtain ⟨j, hj, rfl⟩ := getElem_of_mem hb
    rw [length_drop] at hi
    rw [length_take] at hj
    rw [UInt32.lt_iff_toNat_lt, getElem_drop, getElem_take, h.version, h.version]
    omega

theorem length_le_of_pairwise {l : List RawInode} (h : l.Pairwise (·.version < ·.version)) :
    l.length ≤ 4294967296 := by
  have hnodup : (l.map fun r => r.version.toNat).Nodup := by
    rw [List.Nodup, pairwise_map]
    refine h.imp ?_
    intro a b hlt
    exact ne_of_lt (UInt32.lt_iff_toNat_lt.mp hlt)
  have hsubset : (l.map fun r => r.version.toNat).toFinset ⊆ Finset.range 4294967296 := by
    intro v hv
    obtain ⟨r, -, rfl⟩ := mem_map.mp (mem_toFinset.mp hv)
    exact Finset.mem_range.mpr r.version.toNat_lt
  have hcard := Finset.card_le_card hsubset
  rw [toFinset_card_of_nodup hnodup, length_map, Finset.card_range] at hcard
  exact hcard

theorem DataNodes.concatenate_iff
    {content : List UInt8} (h : DataNodes rs ino lastVersion content) (expected : List UInt8) :
    Concatenate rs expected ↔ rs.length ≤ 4294967296 ∧
      ((rs.map RawInode.data).drop (4294967295 - lastVersion.toNat) ++
        (rs.map RawInode.data).take (4294967295 - lastVersion.toNat)).flatten = expected := by
  rw [← map_drop, ← map_take, ← map_append]
  have hperm : (rs.drop (4294967295 - lastVersion.toNat) ++
      rs.take (4294967295 - lastVersion.toNat)).Perm rs := by
    refine perm_append_comm.trans ?_
    rw [take_append_drop]
  constructor
  · rintro ⟨l, hl, hsorted, hdata⟩
    have hlen : rs.length ≤ 4294967296 := by
      rw [← hl.length_eq]
      exact length_le_of_pairwise hsorted
    have heq : l = rs.drop (4294967295 - lastVersion.toNat) ++
        rs.take (4294967295 - lastVersion.toNat) := by
      refine List.Perm.eq_of_pairwise ?_ hsorted (h.pairwise_rotated hlen) (hl.trans hperm.symm)
      intro a b _ _ hab hba
      exact absurd (UInt32.lt_trans hab hba) (UInt32.lt_irrefl _)
    rw [← heq]
    exact ⟨hlen, hdata⟩
  · rintro ⟨hlen, hdata⟩
    exact ⟨_, hperm, h.pairwise_rotated hlen, hdata⟩

theorem DataNodes.inOrder_iff (h : DataNodes rs ino lastVersion f.read) :
    Concatenate rs f.content ↔ DataInOrder f (rs.map fun r => r.data.length) lastVersion := by
  have hlengths : rs.map (fun r => r.data.length) = (rs.map RawInode.data).map length :=
    (map_map ..).symm
  unfold DataInOrder
  rw [h.concatenate_iff, flatten_append, hlengths, ← drop_sum_flatten,
    ← take_sum_flatten, h.data, length_map, length_map]
  unfold File.read
  split
  case isTrue hopens => exact (and_iff_right (.inl hopens)).symm
  case isFalse hopens =>
    rw [drop_nil, take_nil]
    constructor
    · rintro ⟨hlen, hcontent⟩
      rw [← hcontent]
      exact ⟨.inr rfl, hlen, by simp⟩
    · rintro ⟨hcontent, hlen, -⟩
      exact ⟨hlen, (hcontent.resolve_left hopens).symm⟩

/-! ## The path -/

theorem not_mem_of_new (h : NewIno nodes de.ino) : de ∉ dirents nodes := by
  intro hmem
  exact h.2.2.1 de hmem rfl

theorem dtReg_ne_dtDir : dtReg ≠ dtDir := by decide

theorem isDir_found_iff (ht : (scanned p dir).targetIno ≠ 0) (ino : UInt32) :
    IsDir (dirents (fileSystem p.blocks) ++
        [fileEntry f (scanned p dir).targetIno (scanned p dir).lastVersion ino]) dir
        (scanned p dir).targetIno ↔
      Found (fileSystem p.blocks) dir f.fname (scanned p dir).targetIno := by
  generalize htarget : (scanned p dir).targetIno = target at ht ⊢
  generalize hentry : fileEntry f target (scanned p dir).lastVersion ino = entry
  have hnone : ¬(target = 1 ∧ f.fname = dir) → entriesOf [entry] 1 dir = [] := by
    intro hne
    rw [← hentry]
    exact entriesOf_cons_of_not hne
  constructor
  · intro hdir hroot
    unfold IsDir at hdir
    rw [if_neg hroot] at hdir
    obtain ⟨dd, hdd, htype, hddino, -⟩ := hdir
    have hne : entry ≠ dd := by
      intro heq
      rw [← heq, ← hentry] at htype
      exact dtReg_ne_dtDir htype
    have hddold : dd ∈ dirents (fileSystem p.blocks) := by
      refine (mem_append.mp hdd.mem.1).resolve_right ?_
      intro hsingle
      exact hne (mem_singleton.mp hsingle).symm
    -- In the directory of its own name the new entry would count, and it is a file.
    have hother : ¬(target = 1 ∧ f.fname = dir) := by
      rintro ⟨htarget1, hname⟩
      have hin : entry ∈ entriesOf (dirents (fileSystem p.blocks) ++ [entry]) 1 dir := by
        rw [mem_entriesOf, ← hentry]
        exact ⟨mem_append_right _ mem_cons_self, htarget1, hname⟩
      have hlt := hdd.lt hin hne
      rw [← hentry] at hlt
      exact absurd (UInt32.lt_of_lt_of_le hlt (version_le_scanned hddold)) (UInt32.lt_irrefl _)
    rw [current_append_of_none (hnone hother)] at hdd
    exact ⟨⟨dd, hdd, htype, hddino⟩, hother⟩
  · intro hfound
    unfold IsDir
    split
    case isTrue hroot =>
      rw [← htarget, scanned, targetIno_root hroot, Counters.start, if_pos hroot]
    case isFalse hroot =>
      obtain ⟨⟨dd, hdd, htype, hddino⟩, hother⟩ := hfound hroot
      refine ⟨dd, ?_, htype, hddino, ht⟩
      rw [current_append_of_none (hnone hother)]
      exact hdd

theorem resolves_append_iff {new : List Dirent} (de : Dirent)
    (hself : entriesOf new de.pino name = [de])
    (hall : ∀ e ∈ new, IsDir (dirents nodes ++ new) dir e.pino → e = de) (ino : UInt32) :
    (Resolves (dirents nodes ++ new) dir name ino ∧ NewIno nodes ino) ↔
      ino = de.ino ∧ IsDir (dirents nodes ++ new) dir de.pino ∧
        Outdates nodes de.pino name de.version ∧ NewIno nodes de.ino := by
  constructor
  · rintro ⟨⟨parent, hdir, e, he, rfl⟩, hnew⟩
    have hold := not_mem_of_new hnew
    obtain ⟨hmem, rfl, -⟩ := he.mem
    obtain rfl := hall e ((mem_append.mp hmem).resolve_left hold) hdir
    exact ⟨rfl, hdir, he.outdates hold, hnew⟩
  · rintro ⟨rfl, hdir, houtdates, hnew⟩
    exact ⟨⟨de.pino, hdir, de, .of_new hself houtdates, rfl⟩, hnew⟩

theorem toNat_add_one (x : UInt32) : (x + 1).toNat = (x.toNat + 1) % 4294967296 :=
  UInt32.toNat_add x 1

theorem add_one_ne_one {x : UInt32} (h : x ≠ 0) : x + 1 ≠ 1 := by
  intro heq
  have hnat : (x + 1).toNat = 1 := congrArg UInt32.toNat heq
  have hlt : x.toNat < 4294967296 := x.toNat_lt
  rw [toNat_add_one] at hnat
  apply h
  apply UInt32.toNat_inj.mp
  change x.toNat = 0
  omega

theorem not_add_one_le {x : UInt32} (h : x + 1 ≠ 0) : ¬x + 1 ≤ x := by
  intro hle
  have hnat := UInt32.le_iff_toNat_le.mp hle
  have hlt : x.toNat < 4294967296 := x.toNat_lt
  rw [toNat_add_one] at hnat
  apply h
  apply UInt32.toNat_inj.mp
  rw [toNat_add_one]
  change _ = 0
  omega

theorem add_one_ne_add_three (x : UInt32) : x + 1 ≠ x + 1 + 1 + 1 := by
  intro heq
  have hnat : (x + 1).toNat = (x + 1 + 1 + 1).toNat := congrArg UInt32.toNat heq
  simp only [toNat_add_one] at hnat
  omega

theorem isDir_made_iff (hroot : dir.bytes ≠ []) (version ino parent : UInt32) :
    IsDir (dirents (fileSystem p.blocks) ++
        [dirEntry dir (scanned p dir).lastVersion ((scanned p dir).ino + 1),
          fileEntry f ((scanned p dir).ino + 1) version ino]) dir parent ↔
      parent = (scanned p dir).ino + 1 ∧ parent ≠ 0 ∧
        Outdates (fileSystem p.blocks) 1 dir (scanned p dir).lastVersion := by
  have hne1 : (scanned p dir).ino + 1 ≠ 1 := add_one_ne_one (scanned p dir).ino_ne_zero
  generalize hdd : dirEntry dir (scanned p dir).lastVersion ((scanned p dir).ino + 1) = dd
  generalize hde : fileEntry f ((scanned p dir).ino + 1) version ino = de
  have hddino : dd.ino = (scanned p dir).ino + 1 := by rw [← hdd]; rfl
  have hself : entriesOf [dd, de] 1 dir = [dd] := by
    rw [← hdd, ← hde]
    refine (entriesOf_cons ⟨rfl, rfl⟩).trans ?_
    exact congrArg (_ :: ·) (entriesOf_cons_of_not fun heq => hne1 heq.1)
  unfold IsDir
  rw [if_neg hroot]
  constructor
  · rintro ⟨d, hd, htype, rfl, hzero⟩
    -- Of the entries for the directory the new one has the greatest version.
    have hddin : dd ∈ entriesOf (dirents (fileSystem p.blocks) ++ [dd, de]) 1 dir := by
      rw [entriesOf_append, hself]
      exact mem_append_right _ mem_cons_self
    obtain rfl : d = dd := by
      by_contra hne
      have hlt := hd.lt hddin (Ne.symm hne)
      rcases mem_append.mp hd.mem.1 with hold | hmem
      · rw [← hdd] at hlt
        exact absurd (UInt32.lt_of_lt_of_le hlt (version_le_scanned hold)) (UInt32.lt_irrefl _)
      · rcases mem_cons.mp hmem with heq | hmem
        · exact hne heq
        · rw [mem_singleton.mp hmem, ← hde] at htype
          exact dtReg_ne_dtDir htype
    have hdold : d ∉ dirents (fileSystem p.blocks) := by
      intro hmem
      have hle := ino_le_scanned dir hmem
      rw [hddino] at hle hzero
      exact not_add_one_le hzero hle
    refine ⟨hddino, hzero, fun e he => ?_⟩
    have hlt := hd.outdates hdold e he
    rw [← hdd] at hlt
    exact hlt
  · rintro ⟨rfl, hzero, houtdates⟩
    refine ⟨dd, Current.of_new hself ?_, ?_, hddino, hzero⟩
    · intro e he
      rw [← hdd]
      exact houtdates e he
    · rw [← hdd]
      rfl

section

variable {erases writes : List Bool} (h : Run p dir f erases writes s rs)

include h

theorem Run.filter_fileSystem (hw : Written s) :
    (s.fileSystem p).filter Node.isEntry =
      (fileSystem p.blocks).filter Node.isEntry ++ s.places.map Prod.snd := by
  rw [State.fileSystem, filter_append, h.inv.fileSystem_old, State.map_places h.buf]
  apply congrArg
  apply filter_flatMap_congr
  intro o ho
  exact h.inv.filter_programmed hw ho

theorem Run.dirents_eq (hw : Written s) :
    dirents (s.fileSystem p) = dirents (fileSystem p.blocks) ++ (dirents (dirNodes p dir) ++
      [fileEntry f (scanned p dir).numbers.parent (scanned p dir).numbers.version
        ((scanned p dir).numbers.lastIno + 1)]) := by
  rw [← dirents_filter, h.filter_fileSystem hw, dirents_append, dirents_filter, h.nodes,
    dirents_append]
  change _ ++ (_ ++ _ :: dirents (rs.map .inode)) = _
  rw [dirents_map_inode]

theorem Run.inodesOf_eq (hw : Written s)
    (hnew : NewIno (fileSystem p.blocks) ((scanned p dir).numbers.lastIno + 1)) :
    inodesOf (s.fileSystem p) ((scanned p dir).numbers.lastIno + 1) = rs := by
  have hinodes : inodes (s.fileSystem p) =
      inodes (fileSystem p.blocks) ++ (inodes (dirNodes p dir) ++ rs) := by
    rw [← inodes_filter, h.filter_fileSystem hw, inodes_append, inodes_filter, h.nodes,
      inodes_append]
    change _ ++ (_ ++ inodes (rs.map .inode)) = _
    rw [inodes_map_inode]
  have hdir : inodesOf (dirNodes p dir) ((scanned p dir).numbers.lastIno + 1) = [] := by
    rw [dirNodes]
    split
    case isTrue ht =>
      rw [numbers_made ht]
      exact filter_cons_of_neg fun heq => add_one_ne_add_three _ (of_decide_eq_true heq)
    case isFalse => rfl
  have hold := inodesOf_eq_nil hnew
  unfold inodesOf at hold hdir ⊢
  rw [hinodes, filter_append, hold, filter_append, hdir, nil_append,
    nil_append, filter_eq_self]
  intro ri hri
  exact decide_eq_true (h.data.ino ri hri)

theorem Run.resolves_iff (hw : Written s) (ino : UInt32) :
    (Resolves (dirents (s.fileSystem p)) dir f.fname ino ∧ NewIno (fileSystem p.blocks) ino) ↔
      ino = (scanned p dir).numbers.lastIno + 1 ∧
        (if (scanned p dir).targetIno = 0 then
          Outdates (fileSystem p.blocks) 1 dir (scanned p dir).lastVersion ∧
            (scanned p dir).ino + 1 ≠ 0
        else Found (fileSystem p.blocks) dir f.fname (scanned p dir).targetIno) ∧
        Outdates (fileSystem p.blocks) (scanned p dir).numbers.parent f.fname
          (scanned p dir).numbers.version ∧
        NewIno (fileSystem p.blocks) ((scanned p dir).numbers.lastIno + 1) := by
  rw [h.dirents_eq hw, dirNodes]
  split
  case isFalse ht =>
    rw [numbers_found ht, ← isDir_found_iff ht ((scanned p dir).ino + 1)]
    exact resolves_append_iff _ (entriesOf_cons ⟨rfl, rfl⟩)
      (fun e he _ => mem_singleton.mp he) ino
  case isTrue ht =>
    have hroot : dir.bytes ≠ [] := by
      intro hnil
      rw [scanned, targetIno_root hnil, Counters.start, if_pos hnil] at ht
      exact absurd ht (by decide)
    have hne1 : (scanned p dir).ino + 1 ≠ 1 := add_one_ne_one (scanned p dir).ino_ne_zero
    rw [numbers_made ht]
    have hdir := isDir_made_iff (p := p) (f := f) hroot ((scanned p dir).lastVersion + 1)
      ((scanned p dir).ino + 1 + 1 + 1)
    refine (resolves_append_iff (fileEntry f ((scanned p dir).ino + 1)
      ((scanned p dir).lastVersion + 1) ((scanned p dir).ino + 1 + 1 + 1)) ?_
      (fun e he hpino => ?_) ino).trans (and_congr_right fun _ => and_congr_left fun _ => ?_)
    · exact (entriesOf_cons_of_not fun heq => hne1 heq.1.symm).trans (entriesOf_cons ⟨rfl, rfl⟩)
    · rcases mem_cons.mp he with rfl | he
      · exact absurd ((hdir _).mp hpino).1.symm hne1
      · exact mem_singleton.mp he
    · refine (hdir _).trans ?_
      exact ⟨fun h => ⟨h.2.2, h.2.1⟩, fun h => ⟨rfl, h.2, h.1⟩⟩

end

def rootDir : Name := ⟨[], by decide⟩

def nameF : Name := ⟨[102], by decide⟩

def nameG : Name := ⟨[103], by decide⟩

def hostFile : File := ⟨[47, 102], 0x81a4, 0, 0, 0, true, [1, 2, 3], by decide⟩

def oneEntry (name : Name) : Partition where
  erasesize := 512
  erasesize_pos := by decide
  nandflash := false
  bad := fun _ => false
  blocks := [.nodes cleanmarker [.dirent ⟨1, 5, 2, dtReg, name⟩], .other, .erased, .erased]

def appendedTo (name : Name) : State where
  flash := [.nodes cleanmarker [.dirent ⟨1, 5, 2, dtReg, name⟩],
    .nodes cleanmarker [.dirent ⟨1, 5, 3, dtReg, nameF⟩,
      .inode ⟨3, 7, 0x81a4, 3, 0, 0, 0, 0, [1, 2, 3]⟩], .other, .erased]
  pos := 3
  mtdofs := 3
  lastIno := 4
  lastVersion := 7
  buf := []
  ofs := 0
  erases := []
  writes := []
  flushes := [⟨[cleanmarker, .dirent ⟨1, 5, 3, dtReg, nameF⟩,
      .inode ⟨3, 7, 0x81a4, 3, 0, 0, 0, 0, [1, 2, 3]⟩], 1, 1, true, true⟩,
    ⟨[], 2, 2, true, true⟩]

end OpenWrt.Mtd.Jffs2
