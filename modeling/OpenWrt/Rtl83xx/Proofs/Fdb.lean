import OpenWrt.Rtl83xx.Fdb

/-!
# What the forwarding database stores

Nothing: `rtl83xx_write_hash` clears the data registers before the write, and the command
of `rtl83xx_write_cam` is a read.  From empty tables every addition succeeds and leaves
them empty.
-/

namespace OpenWrt.Rtl83xx

open List

variable {s s' : Switch} {m : FdbMap}

/-! ## Commands -/

theorem and_hashMask (idx : BitVec 13) : idx &&& 8191#13 = idx := by
  have hmask : 8191#13 = BitVec.allOnes 13 := by decide
  rw [hmask, BitVec.and_allOnes]

theorem and_camMask (idx : BitVec 6) : idx &&& 63#6 = idx := by
  have hmask : 63#6 = BitVec.allOnes 6 := by decide
  rw [hmask, BitVec.and_allOnes]

theorem execL2_writeHash (s : Switch) (idx : BitVec 32) :
    s.execL2 (bit 16 ||| (idx &&& 0x1fff)) =
      { s with hash := Function.update s.hash (idx.setWidth 13) s.data } := by
  simp [Switch.execL2, bit, and_hashMask]

theorem execL2_readCam (s : Switch) (idx : BitVec 32) :
    s.execL2 (bit 16 ||| bit 15 ||| bit 13 ||| (idx &&& 0x3f)) =
      { s with data := s.cam (idx.setWidth 6) } := by
  simp [Switch.execL2, bit, and_camMask]

def hashIndex (hash position : BitVec 32) : BitVec 13 := (hash <<< 2 ||| position).setWidth 13

theorem readL2EntryUsingHash_eq (hash position : BitVec 32) (s : Switch) :
    readL2EntryUsingHash hash position s =
      (l2Entry (s.hash (hashIndex hash position)),
        { s with data := s.hash (hashIndex hash position) }) := by
  simp [readL2EntryUsingHash, Switch.execL2, bit, and_hashMask, hashIndex]

theorem readCam_eq (idx : BitVec 32) (s : Switch) :
    readCam idx s = (l2Entry (s.cam (idx.setWidth 6)),
      { s with data := s.cam (idx.setWidth 6) }) := by
  simp only [readCam, execL2_readCam]

/-! ## Empty tables -/

structure Empty (s : Switch) : Prop where
  hash : ∀ idx, (s.hash idx).r0 >>> 17 = 0
  cam : ∀ idx, (s.cam idx).r0 >>> 17 = 0

theorem Empty.setData (h : Empty s) (data : L2Words) : Empty { s with data := data } :=
  ⟨h.hash, h.cam⟩

theorem not_valid {r : L2Words} (h : r.r0 >>> 17 = 0) : (l2Entry r).2.valid = false := by
  simp [l2Entry, h]

theorem report_of_invalid {e : L2Entry} (h : e.valid = false) (port : BitVec 32) :
    report port e = [] := by
  simp [report, h]

/-- `s'` is `s` with other data registers and perhaps fewer entries in the buckets. -/
structure Drained (s s' : Switch) : Prop where
  empty : Empty s'
  cam : s'.cam = s.cam

section

variable (h : Empty s)

include h

theorem Empty.drained (data : L2Words) : Drained s { s with data := data } :=
  ⟨h.setData data, rfl⟩

omit h in
theorem Drained.trans {s'' : Switch} (h : Drained s s') (h' : Drained s' s'') : Drained s s'' :=
  ⟨h'.empty, h'.cam.trans h.cam⟩

theorem Empty.writeHash (idx : BitVec 32) (r : L2Words) : Drained s (writeHash idx r s) := by
  rw [Rtl83xx.writeHash, execL2_writeHash]
  refine ⟨⟨fun i => ?_, h.cam⟩, rfl⟩
  dsimp only
  by_cases hi : i = idx.setWidth 13
  · rw [hi, Function.update_self]
    rfl
  · rw [Function.update_of_ne hi]
    exact h.hash i

theorem Empty.writeCam (idx : BitVec 32) (r : L2Words) : Drained s (writeCam idx r s) := by
  rw [Rtl83xx.writeCam, execL2_readCam]
  exact h.drained _

/-! ## Searches -/

theorem addBucket_of_empty (key i : BitVec 32) (pair : BitVec 64) (is : List (BitVec 32)) :
    ∃ data, addBucket key pair (i :: is) s = (some (key <<< 2 ||| i), { s with data := data }) := by
  refine ⟨s.hash (hashIndex key i), ?_⟩
  simp [addBucket, readL2EntryUsingHash_eq, not_valid (h.hash (hashIndex key i))]

theorem delBucket_of_empty (key : BitVec 32) (pair : BitVec 64) (is : List (BitVec 32)) :
    ∃ data, delBucket key pair is s = (none, { s with data := data }) := by
  induction is generalizing s with
  | nil => exact ⟨s.data, rfl⟩
  | cons i is ih =>
    rcases ih (h.setData (s.hash (hashIndex key i))) with ⟨data, hrest⟩
    refine ⟨data, ?_⟩
    simp [delBucket, readL2EntryUsingHash_eq, not_valid (h.hash (hashIndex key i)), hrest]

def camMatches (s : Switch) (pair : BitVec 64) (idx : BitVec 6) : Bool :=
  matchesKey (l2Entry (s.cam idx)).1 pair

omit h in
theorem delCam_eq (s : Switch) (pair : BitVec 64) (is : List (BitVec 32)) :
    ∃ data, delCam pair is s =
      (is.find? fun i => camMatches s pair (i.setWidth 6), { s with data := data }) := by
  induction is generalizing s with
  | nil => exact ⟨s.data, rfl⟩
  | cons i is ih =>
    cases hmatch : camMatches s pair (i.setWidth 6) with
    | true =>
      refine ⟨s.cam (i.setWidth 6), ?_⟩
      simp only [find?_cons, hmatch]
      unfold camMatches at hmatch
      simp only [delCam, readCam_eq, hmatch, if_true]
    | false =>
      rcases ih { s with data := s.cam (i.setWidth 6) } with ⟨data, hrest⟩
      refine ⟨data, ?_⟩
      simp only [find?_cons]
      unfold camMatches at hmatch hrest ⊢
      simp only [delCam, readCam_eq, hmatch, Bool.false_eq_true, if_false, hrest]

omit h in
theorem mem_camIndices (idx : BitVec 6) : ∃ i ∈ camIndices, i.setWidth 6 = idx := by
  refine ⟨BitVec.ofNat 32 idx.toNat, ?_, ?_⟩
  · exact mem_map.mpr ⟨idx.toNat, mem_range.mpr idx.isLt, rfl⟩
  · apply BitVec.eq_of_toNat_eq
    simp only [BitVec.toNat_setWidth, BitVec.toNat_ofNat]
    omega

/-! ## Calls -/

theorem portFdbAdd_of_empty (port : BitVec 32) (mac : BitVec 48) (vid : BitVec 16) :
    (portFdbAdd port mac vid s).1 = 0 ∧ Drained s (portFdbAdd port mac vid s).2 := by
  rcases addBucket_of_empty h (rtl83xxHashKey s mac vid) 0 (entryKey mac vid) [1, 2, 3] with
    ⟨data, hsearch⟩
  have hpositions : positions = [0, 1, 2, 3] := rfl
  simp only [portFdbAdd, hpositions, hsearch]
  exact ⟨trivial, (h.drained data).trans ((h.setData data).writeHash _ _)⟩

theorem portFdbDel_of_empty (port : BitVec 32) (mac : BitVec 48) (vid : BitVec 16) :
    ((portFdbDel port mac vid s).1 = -ENOENT ↔
      ∀ idx, camMatches s (entryKey mac vid) idx = false) ∧
      ((portFdbDel port mac vid s).1 = -ENOENT ∨ (portFdbDel port mac vid s).1 = 0) ∧
      Drained s (portFdbDel port mac vid s).2 := by
  rcases delBucket_of_empty h (rtl83xxHashKey s mac vid) (entryKey mac vid) positions with
    ⟨data, hbucket⟩
  rcases delCam_eq { s with data := data } (entryKey mac vid) camIndices with ⟨data', hcam⟩
  have hsame : ∀ idx, camMatches { s with data := data } (entryKey mac vid) idx =
      camMatches s (entryKey mac vid) idx := fun _ => rfl
  simp only [hsame] at hcam
  simp only [portFdbDel, hbucket, hcam]
  cases hfind : camIndices.find? fun i => camMatches s (entryKey mac vid) (i.setWidth 6) with
  | none =>
    refine ⟨⟨fun _ idx => ?_, fun _ => rfl⟩, Or.inl rfl, h.drained data'⟩
    rcases mem_camIndices idx with ⟨i, hi, rfl⟩
    simpa using find?_eq_none.mp hfind i hi
  | some i =>
    have hmatch := find?_some hfind
    refine ⟨⟨fun hf => ?_, fun hnone => ?_⟩, Or.inr rfl, ?_⟩
    · exact absurd (show (0 : Int) = -ENOENT from hf) (by decide)
    · rw [hnone] at hmatch
      cases hmatch
    · exact (h.drained data').trans ((h.setData data').writeCam _ _)

theorem dumpHash_of_empty (port : BitVec 32) (is : List (BitVec 32)) :
    ∃ data, dumpHash port is s = ([], { s with data := data }) := by
  induction is generalizing s with
  | nil => exact ⟨s.data, rfl⟩
  | cons i is ih =>
    have hreport := report_of_invalid (not_valid (h.hash (hashIndex (i >>> 2) (i &&& 3)))) port
    rcases ih (h.setData (s.hash (hashIndex (i >>> 2) (i &&& 3)))) with ⟨data, hrest⟩
    refine ⟨data, ?_⟩
    simp only [dumpHash, readL2EntryUsingHash_eq, hreport, hrest]
    rfl

theorem dumpCam_of_empty (port : BitVec 32) (is : List (BitVec 32)) :
    ∃ data, dumpCam port is s = ([], { s with data := data }) := by
  induction is generalizing s with
  | nil => exact ⟨s.data, rfl⟩
  | cons i is ih =>
    have hreport := report_of_invalid (not_valid (h.cam (i.setWidth 6))) port
    rcases ih (h.setData (s.cam (i.setWidth 6))) with ⟨data, hrest⟩
    refine ⟨data, ?_⟩
    simp only [dumpCam, readCam_eq, hreport, hrest]
    rfl

theorem dumpTables_of_empty (port : BitVec 32) (is : List (BitVec 32)) :
    (dumpTables port is s).1 = [] := by
  rcases dumpHash_of_empty h port is with ⟨data, hhash⟩
  rcases dumpCam_of_empty (h.setData data) port camIndices with ⟨data', hcam⟩
  simp only [dumpTables, hhash, hcam, append_nil]

theorem portFdbDump_of_empty (port : BitVec 32) : (portFdbDump port s).1 = [] :=
  dumpTables_of_empty h port _

theorem reports_iff_of_empty : Reports m s ↔ ∀ pair, m pair = none := by
  constructor
  · rintro hreports ⟨mac, vid⟩
    cases hm : m (mac, vid) with
    | none => rfl
    | some port =>
      have hcount := (hreports port mac vid).mpr hm
      rw [portFdbDump_of_empty h port] at hcount
      cases hcount
  · intro hnone port mac vid
    rw [portFdbDump_of_empty h port, hnone]
    simp

/-! ## Sequences of calls -/

/-- A deletion of a pair that no entry of the CAM compares equal to. -/
def DeletesAbsent (s : Switch) : FdbOp → Prop
  | .add _ _ _ => False
  | .del _ mac vid => ∀ idx, camMatches s (entryKey mac vid) idx = false

omit h in
theorem Drained.deletesAbsent (h : Drained s s') (op : FdbOp) :
    DeletesAbsent s' op ↔ DeletesAbsent s op := by
  cases op with
  | add port mac vid => exact Iff.rfl
  | del port mac vid => simp only [DeletesAbsent, camMatches, h.cam]

theorem not_behavesAs_of_mem (pair : BitVec 48 × BitVec 16) (port : BitVec 32)
    (hm : m pair = some port) (ops : List FdbOp) : ¬BehavesAs m s ops := by
  have hreports : ¬Reports m s := by
    intro hreports
    have := (reports_iff_of_empty h).mp hreports pair
    rw [hm] at this
    cases this
  cases ops with
  | nil => exact hreports
  | cons op ops => exact fun hbehaves => hreports hbehaves.1

end

theorem step_added (m : FdbMap) (port : BitVec 32) (mac : BitVec 48) (vid : BitVec 16) :
    m.step (.add port mac vid) 0 (mac, vid) = some port := by
  simp [FdbMap.step]

/-- From empty tables the switch behaves as a map exactly along the sequences that add
nothing and delete only pairs that are not found in the CAM by chance. -/
theorem behavesAs_map_iff (h : Empty s) (ops : List FdbOp) :
    BehavesAs (fun _ => none) s ops ↔ ∀ op ∈ ops, DeletesAbsent s op := by
  induction ops generalizing s with
  | nil => simpa [BehavesAs] using (reports_iff_of_empty h).mpr fun _ => rfl
  | cons op ops ih =>
    rw [BehavesAs, forall_mem_cons]
    cases op with
    | add port mac vid =>
      rcases portFdbAdd_of_empty h port mac vid with ⟨hret, hdrained⟩
      constructor
      · rintro ⟨-, -, hrest⟩
        refine absurd hrest (not_behavesAs_of_mem hdrained.empty (mac, vid) port ?_ ops)
        rw [FdbOp.run, hret, step_added]
      · rintro ⟨hf, -⟩
        exact hf.elim
    | del port mac vid =>
      rcases portFdbDel_of_empty h port mac vid with ⟨hret, hcases, hdrained⟩
      have hstep : FdbMap.step (fun _ => none) (.del port mac vid)
          (portFdbDel port mac vid s).1 = fun _ => none := by
        unfold FdbMap.step
        split
        · exact Function.update_eq_self (mac, vid) fun _ => none
        · rfl
      have hrest := ih hdrained.empty
      simp only [hdrained.deletesAbsent] at hrest
      simp only [FdbOp.run, hstep, hrest, DeletesKnown, iff_true, hret]
      refine and_iff_right ?_
      exact (reports_iff_of_empty h).mpr fun _ => rfl

theorem blank_empty : Empty Switch.blank :=
  have hzero : 0#32 >>> 17 = 0#32 := by decide
  ⟨fun _ => hzero, fun _ => hzero⟩

/-- On a blank switch the address 02:00:00:00:00:01 is deleted before it was ever added. -/
theorem behavesAs_map_blank :
    BehavesAs (fun _ => none) Switch.blank [.del 1 0x020000000001#48 1#16] := by
  apply (behavesAs_map_iff blank_empty _).mpr
  intro op hop
  rw [mem_singleton] at hop
  subst hop
  intro idx
  change camMatches Switch.blank _ 0 = false
  decide

/-- The address 02:00:00:00:00:01 is added to port 1, and no dump reports it. -/
theorem added_pair_not_reported :
    ¬BehavesAs (fun _ => none) Switch.blank [.add 1 0x020000000001#48 1#16] := by
  rintro ⟨-, -, hrest⟩
  rcases portFdbAdd_of_empty blank_empty 1 0x020000000001#48 1#16 with ⟨hret, hdrained⟩
  refine absurd hrest (not_behavesAs_of_mem hdrained.empty (0x020000000001#48, 1#16) 1 ?_ [])
  rw [FdbOp.run, hret, step_added]

end OpenWrt.Rtl83xx
