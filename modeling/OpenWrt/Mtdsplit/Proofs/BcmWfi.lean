import OpenWrt.Mtdsplit.BcmWfi
import OpenWrt.Mtdsplit.Proofs.Search

/-!
# Searches in a whole flash image

The search for a file goes from block to block and, in a block, along the lengths of the nodes.
It ends exactly if those lengths lead to no place twice, and it reads inside of the block buffer
exactly if the nodes it looks at are inside.
-/

namespace OpenWrt.Mtdsplit.BcmWfi

open Lib Option

variable {big : Bool} {m : Mtd} {name : List UInt8} {want : Bool} {stop start offs : Nat}
  {pos p : UInt32} {valid : Bool} {s : State} {f : File} {kind : Kind}

/-! ## Rounds -/

theorem toNextBlock_next {ρ : Type} (h : (toNextBlock m offs valid : Round State ρ) = .next s) :
    offs + m.erasesize < loffValues ∧ s = .block (offs + m.erasesize) valid := by
  rw [toNextBlock] at h
  split at h
  · rename_i hlt
    exact ⟨hlt, (Round.next.inj h).symm⟩
  · cases h

theorem toNextBlock_room {ρ : Type} (h : offs + m.erasesize < loffValues) :
    (toNextBlock m offs valid : Round State ρ) = .next (.block (offs + m.erasesize) valid) :=
  if_pos h

theorem toNextBlock_ne_done {ρ : Type} {r : ρ} : toNextBlock m offs valid ≠ Round.done r := by
  rw [toNextBlock]
  split
  all_goals exact fun h => by cases h

theorem blockStep_skip (hend : offs < stop) (hskip : Skipped big m offs) :
    findRound big m name want stop (.block offs valid) = toNextBlock m offs valid := by
  rw [findRound, blockStep, if_neg (not_le.mpr hend), if_pos hskip]

theorem blockStep_read (hend : offs < stop) (hskip : ¬Skipped big m offs)
    (hread : m.readError offs m.erasesize = none) :
    findRound big m name want stop (.block offs valid) = .next (.node offs 0 valid) := by
  rw [findRound, blockStep, if_neg (not_le.mpr hend), if_neg hskip, hread]

theorem nodeStep_leave (h : m.erasesize ≤ pos.toNat) :
    findRound big m name want stop (.node offs pos valid) = toNextBlock m offs valid := by
  rw [findRound, nodeStep, if_pos h]

theorem nodeStep_file (h : pos.toNat < m.erasesize)
    (hkind : nodeKind big (block m offs) m.erasesize name pos.toNat = some .file) :
    findRound big m name want stop (.node offs pos valid) = atFile m want offs pos valid := by
  rw [findRound, nodeStep, if_neg (not_le.mpr h), hkind]

theorem nodeStep_go (h : pos.toNat < m.erasesize)
    (hkind : nodeKind big (block m offs) m.erasesize name pos.toNat = some kind)
    (hfile : kind ≠ .file) :
    findRound big m name want stop (.node offs pos valid) =
      .next (.node offs (behind big (block m offs) pos kind) (valid || kind = .openwrt)) := by
  rw [findRound, nodeStep, if_neg (not_le.mpr h), hkind]
  cases kind with
  | file => exact absurd rfl hfile
  | free => rfl
  | openwrt => rfl
  | other => rfl

theorem blockStep_cases (big : Bool) (m : Mtd) (name : List UInt8) (want : Bool)
    (stop offs : Nat) (valid : Bool) :
    (∃ err, err < 0 ∧ findRound big m name want stop (.block offs valid) = .done (.error err)) ∨
      offs < stop ∧ Skipped big m offs ∧
        findRound big m name want stop (.block offs valid) = toNextBlock m offs valid ∨
      offs < stop ∧ ¬Skipped big m offs ∧ m.readError offs m.erasesize = none ∧
        findRound big m name want stop (.block offs valid) = .next (.node offs 0 valid) := by
  by_cases hend : stop ≤ offs
  · exact .inl ⟨- ENOENT, by decide, if_pos hend⟩
  have hend := not_le.mp hend
  by_cases hskip : Skipped big m offs
  · exact .inr (.inl ⟨hend, hskip, blockStep_skip hend hskip⟩)
  cases hread : m.readError offs m.erasesize with
  | none => exact .inr (.inr ⟨hend, hskip, rfl, blockStep_read hend hskip hread⟩)
  | some err =>
    refine .inl ⟨err, readError_neg hread, ?_⟩
    rw [findRound, blockStep, if_neg (not_le.mpr hend), if_neg hskip, hread]

theorem nodeStep_cases (big : Bool) (m : Mtd) (name : List UInt8) (want : Bool)
    (stop offs : Nat) (pos : UInt32) (valid : Bool) :
    m.erasesize ≤ pos.toNat ∧
        findRound big m name want stop (.node offs pos valid) = toNextBlock m offs valid ∨
      pos.toNat < m.erasesize ∧
        nodeKind big (block m offs) m.erasesize name pos.toNat = none ∧
        findRound big m name want stop (.node offs pos valid) = .stuck ∨
      pos.toNat < m.erasesize ∧
        nodeKind big (block m offs) m.erasesize name pos.toNat = some .file ∧
        findRound big m name want stop (.node offs pos valid) = atFile m want offs pos valid ∨
      ∃ kind, pos.toNat < m.erasesize ∧
        nodeKind big (block m offs) m.erasesize name pos.toNat = some kind ∧ kind ≠ .file ∧
        findRound big m name want stop (.node offs pos valid) =
          .next (.node offs (behind big (block m offs) pos kind) (valid || kind = .openwrt)) := by
  by_cases hend : m.erasesize ≤ pos.toNat
  · exact .inl ⟨hend, nodeStep_leave hend⟩
  have hend := not_le.mp hend
  cases hkind : nodeKind big (block m offs) m.erasesize name pos.toNat with
  | none =>
    refine .inr (.inl ⟨hend, rfl, ?_⟩)
    rw [findRound, nodeStep, if_neg (not_le.mpr hend), hkind]
  | some kind =>
    by_cases hfile : kind = .file
    · subst hfile
      exact .inr (.inr (.inl ⟨hend, rfl, nodeStep_file hend hkind⟩))
    · exact .inr (.inr (.inr ⟨kind, hend, rfl, hfile, nodeStep_go hend hkind hfile⟩))

/-! ## The nodes of a block -/

theorem nextNode_some (h : nextNode big m name offs pos = some p) :
    ∃ kind, pos.toNat < m.erasesize ∧
      nodeKind big (block m offs) m.erasesize name pos.toNat = some kind ∧ kind ≠ .file ∧
      p = behind big (block m offs) pos kind := by
  rw [nextNode] at h
  split at h
  · cases h
  rename_i hend
  cases hkind : nodeKind big (block m offs) m.erasesize name pos.toNat with
  | none =>
    rw [hkind] at h
    cases h
  | some kind =>
    rw [hkind] at h
    cases kind with
    | file => cases h
    | free => exact ⟨.free, not_le.mp hend, rfl, by decide, (some.inj h).symm⟩
    | openwrt => exact ⟨.openwrt, not_le.mp hend, rfl, by decide, (some.inj h).symm⟩
    | other => exact ⟨.other, not_le.mp hend, rfl, by decide, (some.inj h).symm⟩

theorem nextNode_none (h : nextNode big m name offs pos = none) :
    m.erasesize ≤ pos.toNat ∨
      nodeKind big (block m offs) m.erasesize name pos.toNat = none ∨
      nodeKind big (block m offs) m.erasesize name pos.toNat = some .file := by
  rw [nextNode] at h
  split at h
  · rename_i hend
    exact .inl hend
  cases hkind : nodeKind big (block m offs) m.erasesize name pos.toNat with
  | none => exact .inr (.inl rfl)
  | some kind =>
    rw [hkind] at h
    cases kind with
    | file => exact .inr (.inr rfl)
    | free => cases h
    | openwrt => cases h
    | other => cases h

theorem walk_nodes (stop : Nat) (want : Bool) {n : Nat}
    (h : walk (nextNode big m name offs) pos n = some p) (valid : Bool) :
    ∃ valid', walk (fun s => (findRound big m name want stop s).next?) (.node offs pos valid) n =
      some (.node offs p valid') := by
  induction n generalizing pos valid with
  | zero =>
    cases h
    exact ⟨valid, rfl⟩
  | succ n ih =>
    rw [walk_succ] at h
    obtain ⟨q, hq, hwalk⟩ := bind_eq_some_iff.mp h
    obtain ⟨kind, hend, hkind, hfile, rfl⟩ := nextNode_some hq
    obtain ⟨valid', hvalid'⟩ := ih hwalk (valid || kind = .openwrt)
    refine ⟨valid', ?_⟩
    rw [walk_cons (next?_eq_some.mpr (nodeStep_go hend hkind hfile))]
    exact hvalid'

theorem read_of_reaches (h : Reaches big m name want stop start (.node offs pos valid)) :
    offs < stop ∧ ¬Skipped big m offs ∧ m.readError offs m.erasesize = none := by
  have hkeeps : ∀ s, Reaches big m name want stop start s → ∀ offs pos valid,
      s = .node offs pos valid →
        offs < stop ∧ ¬Skipped big m offs ∧ m.readError offs m.erasesize = none := by
    intro s hs
    refine hs.keeps (P := fun s => ∀ offs pos valid, s = .node offs pos valid →
      offs < stop ∧ ¬Skipped big m offs ∧ m.readError offs m.erasesize = none) ?_ ?_
    · rintro s s' ih hround offs pos valid rfl
      cases s with
      | block o v =>
        rcases blockStep_cases big m name want stop o v with
          ⟨err, -, h⟩ | ⟨-, -, h⟩ | ⟨hend, hskip, hread, h⟩
        · rw [h] at hround
          cases hround
        · rw [h] at hround
          obtain ⟨-, heq⟩ := toNextBlock_next hround
          cases heq
        · rw [h] at hround
          cases hround
          exact ⟨hend, hskip, hread⟩
      | node o q v =>
        rcases nodeStep_cases big m name want stop o q v with
          ⟨-, h⟩ | ⟨-, -, h⟩ | ⟨-, -, h⟩ | ⟨kind, -, -, -, h⟩
        · rw [h] at hround
          obtain ⟨-, heq⟩ := toNextBlock_next hround
          cases heq
        · rw [h] at hround
          cases hround
        · rw [h, atFile] at hround
          split at hround
          · split at hround
            · cases hround
            · cases hround
          · cases hround
        · rw [h] at hround
          cases hround
          exact ih offs q v rfl
    · intro offs pos valid heq
      cases heq
  exact hkeeps _ h offs pos valid rfl

/-! ## The end of the search -/

theorem atFile_stuck (h : atFile m want offs pos valid = .stuck) :
    valid ∧ fileOf m want offs pos.toNat = none := by
  cases valid with
  | false => cases h
  | true =>
    rw [atFile] at h
    cases hfile : fileOf m want offs pos.toNat with
    | none => exact ⟨rfl, rfl⟩
    | some f =>
      rw [hfile] at h
      cases h

theorem atFile_next? : (atFile m want offs pos valid).next? = none := by
  rw [atFile]
  split
  · split
    · rfl
    · rfl
  · rfl

theorem FindSafe.not_stuck (h : FindSafe big m name want stop start)
    (hs : Reaches big m name want stop start s) : findRound big m name want stop s ≠ .stuck := by
  intro hstuck
  cases s with
  | block offs valid =>
    rcases blockStep_cases big m name want stop offs valid with
      ⟨err, -, hround⟩ | ⟨hend, hskip, hround⟩ | ⟨-, -, -, hround⟩
    · rw [hround] at hstuck
      cases hstuck
    · rw [hround, toNextBlock_room (h.skip offs valid hs hend hskip).2] at hstuck
      cases hstuck
    · rw [hround] at hstuck
      cases hstuck
  | node offs pos valid =>
    rcases nodeStep_cases big m name want stop offs pos valid with
      ⟨hend, hround⟩ | ⟨hend, hkind, -⟩ | ⟨hend, hkind, hround⟩ | ⟨kind, -, -, -, hround⟩
    · rw [hround, toNextBlock_room (h.leave offs pos valid hs hend).2] at hstuck
      cases hstuck
    · obtain ⟨kind, hsome, -⟩ := h.inside offs pos valid hs hend
      rw [hkind] at hsome
      cases hsome
    · obtain ⟨kind, hsome, hfile⟩ := h.inside offs pos valid hs hend
      rw [hkind] at hsome
      cases hsome
      rw [hround] at hstuck
      obtain ⟨hvalid, hnone⟩ := atFile_stuck hstuck
      exact hfile rfl hvalid hnone
    · rw [hround] at hstuck
      cases hstuck

theorem FindSafe.ends_block (h : FindSafe big m name want stop start)
    (hs : Reaches big m name want stop start (.node offs 0 valid)) :
    (∃ n, walk (fun s => (findRound big m name want stop s).next?) (.node offs 0 valid) n = none) ∨
      ∃ n valid', walk (fun s => (findRound big m name want stop s).next?) (.node offs 0 valid) n =
        some (.block (offs + m.erasesize) valid') ∧ Room m offs := by
  obtain ⟨n, hn⟩ := ends_of_noRepeat (h.noRepeat offs valid hs)
  obtain ⟨k, p, -, hp, hlast⟩ := exists_last hn
  obtain ⟨valid', hwalk⟩ := walk_nodes stop want hp valid
  have hp' : Reaches big m name want stop start (.node offs p valid') := by
    obtain ⟨i, hi⟩ := hs
    refine ⟨i + k, ?_⟩
    rw [walk_add, hi, bind_some, hwalk]
  have hdone (hnone : (findRound big m name want stop (.node offs p valid')).next? = none) :
      ∃ n, walk (fun s => (findRound big m name want stop s).next?) (.node offs 0 valid) n = none :=
    ⟨k + 1, by rw [walk, hwalk, bind_some, hnone]⟩
  rcases nodeStep_cases big m name want stop offs p valid' with
    ⟨hend, hround⟩ | ⟨-, -, hround⟩ | ⟨-, -, hround⟩ | ⟨kind, hend, hkind, hfile, -⟩
  · have hroom := h.leave offs p valid' hp' hend
    refine .inr ⟨k + 1, valid', ?_, hroom⟩
    rw [walk, hwalk, bind_some, hround, toNextBlock_room hroom.2]
    rfl
  · exact .inl (hdone (by rw [hround]; rfl))
  · exact .inl (hdone (by rw [hround, atFile_next?]))
  · rcases nextNode_none hlast with hge | hnone | hsome
    · omega
    · rw [hkind] at hnone
      cases hnone
    · rw [hkind] at hsome
      exact absurd (some.inj hsome) hfile

def State.left (stop : Nat) : State → Nat
  | .block offs _ => stop - offs
  | .node .. => 0

theorem FindSafe.ends (h : FindSafe big m name want stop start) :
    ∃ n, walk (fun s => (findRound big m name want stop s).next?) (.block start false) n =
      none := by
  -- the blocks come closer to the end of the image
  refine ends_of_progress Nat.lt_wfRel.wf (State.left stop)
    (fun s => ∃ offs valid, s = .block offs valid ∧ Reaches big m name want stop start s) ?_
    ⟨start, false, rfl, Comes.refl _ _⟩
  rintro s ⟨offs, valid, rfl, hs⟩
  rcases blockStep_cases big m name want stop offs valid with
    ⟨err, -, hround⟩ | ⟨hend, hskip, hround⟩ | ⟨hend, -, -, hround⟩
  · refine .inl ⟨1, ?_⟩
    rw [walk_succ, hround]
    rfl
  · have hroom := h.skip offs valid hs hend hskip
    rw [toNextBlock_room hroom.2] at hround
    refine .inr ⟨1, _, walk_cons (next?_eq_some.mpr hround) 0, ⟨_, _, rfl, hs.tail hround⟩, ?_⟩
    have hpos := hroom.1
    show stop - (offs + m.erasesize) < stop - offs
    omega
  · rcases h.ends_block (hs.tail hround) with ⟨n, hn⟩ | ⟨n, valid', hn, hroom⟩
    · exact .inl ⟨n + 1, (walk_cons (next?_eq_some.mpr hround) n).trans hn⟩
    refine .inr ⟨n + 1, _, (walk_cons (next?_eq_some.mpr hround) n).trans hn, ⟨_, _, rfl, ?_⟩, ?_⟩
    · obtain ⟨i, hi⟩ := hs.tail hround
      refine ⟨i + n, ?_⟩
      rw [walk_add, hi, bind_some, hn]
    · have hpos := hroom.1
      show stop - (offs + m.erasesize) < stop - offs
      omega

theorem findSafe_of_halts (hstop : stop < loffValues)
    (h : Halts fun n => loop (findRound big m name want stop) n (.block start false)) :
    FindSafe big m name want stop start := by
  obtain ⟨hends, hstuck⟩ := halts_loop.mp h
  have hnext {offs : Nat} {valid : Bool} {s : State} (hs : Reaches big m name want stop start s)
      (hround : findRound big m name want stop s = toNextBlock m offs valid) :
      offs + m.erasesize < loffValues := by
    by_contra hlarge
    refine hstuck s hs ?_
    rw [hround, toNextBlock, if_neg hlarge]
  refine ⟨hstop, ?_, ?_, ?_, ?_⟩
  · intro offs pos valid hs hend
    rcases nodeStep_cases big m name want stop offs pos valid with
      ⟨hge, -⟩ | ⟨-, -, hround⟩ | ⟨-, hkind, hround⟩ | ⟨kind, -, hkind, hfile, -⟩
    · omega
    · exact absurd hround (hstuck _ hs)
    · refine ⟨.file, hkind, fun _ hvalid hnone => hstuck _ hs ?_⟩
      rw [hround, atFile, if_pos hvalid, hnone]
    · exact ⟨kind, hkind, fun heq => absurd heq hfile⟩
  · intro offs valid hs
    apply noRepeat_of_ends
    obtain ⟨n, hn⟩ := hs.ends hends
    refine ⟨n, ?_⟩
    by_contra hsome
    obtain ⟨p, hp⟩ := ne_none_iff_exists'.mp hsome
    obtain ⟨valid', hwalk⟩ := walk_nodes stop want hp valid
    rw [hn] at hwalk
    cases hwalk
  · intro offs valid hs hend hskip
    have hround : findRound big m name want stop (.block offs valid) = toNextBlock m offs valid :=
      blockStep_skip hend hskip
    refine ⟨fun hzero => ?_, hnext hs hround⟩
    -- without a size the search stays at the block
    have hstay : findRound big m name want stop (.block offs valid) =
        .next (.block offs valid) := by
      have hlt := hnext hs hround
      rw [hround, toNextBlock_room hlt, hzero, add_zero]
    obtain ⟨n, hn⟩ := hs.ends hends
    rw [walk_stays (next?_eq_some.mpr hstay)] at hn
    cases hn
  · intro offs pos valid hs hend
    have hround : findRound big m name want stop (.node offs pos valid) =
        toNextBlock m offs valid := nodeStep_leave hend
    refine ⟨fun hzero => ?_, hnext hs hround⟩
    -- without a size the search goes back to the block
    obtain ⟨hoffs, hskip, hread⟩ := read_of_reaches hs
    have hback {p : UInt32} : findRound big m name want stop (.node offs p valid) =
        .next (.block offs valid) := by
      have hlt := hnext hs hround
      rw [nodeStep_leave (by omega), toNextBlock_room hlt, hzero, add_zero]
    have hread : findRound big m name want stop (.block offs valid) = .next (.node offs 0 valid) :=
      blockStep_read hoffs hskip hread
    have hrepeat := noRepeat_of_ends ((hs.tail hback).ends hends) 0 2 (by decide)
    rw [walk_cons (next?_eq_some.mpr hread), walk_cons (next?_eq_some.mpr hback)] at hrepeat
    cases hrepeat rfl

theorem findTotal_iff :
    FindTotal big m name want stop start ↔ FindSafe big m name want stop start := by
  rw [FindTotal]
  by_cases hstop : loffValues ≤ stop
  · constructor
    · rintro ⟨r, n, hn⟩
      rw [jffs2FindFile, if_pos hstop] at hn
      cases hn
    · intro h
      exact absurd h.stop_lt (not_lt.mpr hstop)
  · have hloop : jffs2FindFile big m name want stop start =
        fun n => loop (findRound big m name want stop) n (.block start false) := by
      funext n
      rw [jffs2FindFile, if_neg hstop]
    rw [hloop]
    exact ⟨findSafe_of_halts (not_le.mp hstop),
      fun h => halts_loop.mpr ⟨h.ends, fun _ hz => h.not_stuck hz⟩⟩

end OpenWrt.Mtdsplit.BcmWfi
