import Mathlib
import OpenWrt.RouterBoot.Partitions

/-!
# The scan for partitions

A round of the scan fails to read and stays where it is, or goes on to a later block.  It only
comes to an end if each place can be read at some time; and, if offsets wrap around before the
end of the device, if all partitions are found.
-/

namespace OpenWrt.RouterBoot.Partitions

open Lib List

variable {w : SizeT} {big : Bool} {m : Mtd} {s s' : Scan} {parts ps pre post : List DynPart}
  {p q : DynPart} {buf offset tick : Nat}

/-! ## The loop over the table -/

def Skips (buf : Nat) (p : DynPart) : Prop := p.found = true ∨ p.magic ≠ buf

theorem lookParts_skip (h : Skips buf p) :
    lookParts w m buf offset (p :: ps) tick = (lookParts w m buf offset ps tick).behind p :=
  if_pos h

theorem lookParts_skips (h : ∀ p ∈ ps, Skips buf p) :
    lookParts w m buf offset ps tick = ⟨ps, offset, tick, ps.all DynPart.found⟩ := by
  induction ps with
  | nil => rfl
  | cons p ps ih =>
    rw [lookParts_skip (h p mem_cons_self), ih fun q hq => h q (mem_cons_of_mem p hq)]
    rfl

theorem lookParts_append (h : ∀ p ∈ pre, Skips buf p) :
    lookParts w m buf offset (pre ++ ps) tick =
      ⟨pre ++ (lookParts w m buf offset ps tick).parts,
        (lookParts w m buf offset ps tick).offset, (lookParts w m buf offset ps tick).tick,
        pre.all DynPart.found && (lookParts w m buf offset ps tick).allfound⟩ := by
  induction pre with
  | nil => rfl
  | cons p pre ih =>
    rw [cons_append, lookParts_skip (h p mem_cons_self),
      ih fun q hq => h q (mem_cons_of_mem p hq), all_cons,
      Bool.and_assoc]
    rfl

def Ready (m : Mtd) (tick offset : Nat) (p : DynPart) : Prop :=
  p.fixup → ¬m.error tick offset 40 ∧ word true m.flash (offset + 4) ≠ 0

theorem sizeFixup_ready (h : Ready m tick offset p) :
    ∃ q, sizeFixup m tick { p with offset := offset } = some q ∧ q.magic = p.magic ∧
      q.fixup = p.fixup ∧ q.offset = offset ∧
      (q.size = p.size ∨ q.size = word true m.flash (offset + 4)) := by
  rw [sizeFixup, dtbsfixup]
  by_cases hfixup : p.fixup
  · obtain ⟨hread, hsize⟩ := h hfixup
    rw [if_pos hfixup, if_neg hread, if_neg hsize]
    exact ⟨_, rfl, rfl, rfl, rfl, .inr rfl⟩
  · rw [if_neg hfixup]
    exact ⟨_, rfl, rfl, rfl, rfl, .inl rfl⟩

theorem sizeFixup_not_ready (h : ¬Ready m tick offset p) :
    sizeFixup m tick { p with offset := offset } = none := by
  obtain ⟨hfixup, hready⟩ := Classical.not_imp.mp h
  rw [sizeFixup, if_pos hfixup, dtbsfixup]
  by_cases hread : m.error tick offset 40
  · exact if_pos hread
  · have hsize : word true m.flash (offset + 4) = 0 := by
      by_contra hsize
      exact hready ⟨hread, hsize⟩
    rw [if_neg hread, if_pos hsize]

/-- What the loop does with an entry that is looked for, if it is the only one. -/
structure Hit (w : SizeT) (m : Mtd) (offset tick : Nat) (p q : DynPart) (l : Look) : Prop where
  allfound : l.allfound = false
  magic : q.magic = p.magic
  fixup : q.fixup = p.fixup
  place : q.offset = offset
  size : q.size = p.size ∨ q.size = word true m.flash (offset + 4)
  outcome : q.found = true ∧ Ready m tick offset p ∧
        l.offset = (offset + skipped q.size) % w.values ∨
      q.found = false ∧ ¬Ready m tick offset p ∧ l.offset = offset

theorem lookParts_hit (hfound : p.found = false) (hmagic : p.magic = buf)
    (hpost : ∀ q ∈ post, Skips buf q) :
    ∃ q, (lookParts w m buf offset (p :: post) tick).parts = q :: post ∧
      Hit w m offset tick p q (lookParts w m buf offset (p :: post) tick) := by
  have hskip : ¬(p.found = true ∨ p.magic ≠ buf) := by
    rw [hfound]
    rintro (h | h)
    · cases h
    · exact h hmagic
  rw [lookParts, if_neg hskip]
  by_cases hready : Ready m tick offset p
  · obtain ⟨q, hq, hsame, hfix, hofs, hsize⟩ := sizeFixup_ready hready
    rw [hq]
    exact ⟨{ q with found := true }, rfl, rfl, hsame, hfix, hofs, hsize, .inl ⟨rfl, hready, rfl⟩⟩
  · rw [sizeFixup_not_ready hready, lookParts_skips hpost]
    refine ⟨{ p with offset := offset }, rfl, ?_, rfl, rfl, rfl, .inl rfl,
      .inr ⟨hfound, hready, rfl⟩⟩
    exact congrArg (· && post.all DynPart.found) hfound

theorem skips_others (h : Distinct (pre ++ p :: post)) :
    (∀ q ∈ pre, Skips p.magic q) ∧ ∀ q ∈ post, Skips p.magic q := by
  rw [Distinct, map_append, nodup_append] at h
  obtain ⟨-, htail, hapart⟩ := h
  constructor
  · intro q hq
    exact .inr (hapart _ (mem_map_of_mem hq) _ mem_cons_self)
  · intro q hq
    refine .inr fun hsame => (nodup_cons.mp htail).1 ?_
    rw [← hsame]
    exact mem_map_of_mem hq

theorem look_cases (w : SizeT) (big : Bool) (m : Mtd) (h : Distinct s.parts) :
    (∀ p ∈ s.parts, Skips (word big m.flash s.offset) p) ∧
        look w big m s = ⟨s.parts, s.offset, s.tick + 1, s.parts.all DynPart.found⟩ ∨
      ∃ pre p q post, s.parts = pre ++ p :: post ∧ p.found = false ∧
        p.magic = word big m.flash s.offset ∧ (look w big m s).parts = pre ++ q :: post ∧
        Hit w m s.offset (s.tick + 1) p q (look w big m s) := by
  by_cases hskips : ∀ p ∈ s.parts, Skips (word big m.flash s.offset) p
  · exact .inl ⟨hskips, lookParts_skips hskips⟩
  right
  push Not at hskips
  obtain ⟨p, hp, hskip⟩ := hskips
  obtain ⟨hfound, hmagic⟩ := not_or.mp hskip
  have hfound := eq_false_of_ne_true hfound
  have hmagic := not_not.mp hmagic
  obtain ⟨pre, post, hparts⟩ := append_of_mem hp
  obtain ⟨hpre, hpost⟩ := skips_others (hparts ▸ h)
  rw [hmagic] at hpre hpost
  obtain ⟨q, hq, hhit⟩ := lookParts_hit hfound hmagic hpost
  refine ⟨pre, p, q, post, hparts, hfound, hmagic, ?_, ?_⟩
  · rw [look, hparts, lookParts_append hpre]
    exact congrArg (pre ++ ·) hq
  · rw [look, hparts, lookParts_append hpre]
    refine ⟨?_, hhit.magic, hhit.fixup, hhit.place, hhit.size, hhit.outcome⟩
    exact (congrArg (pre.all DynPart.found && ·) hhit.allfound).trans (Bool.and_false _)

/-! ## One round -/

def DynPart.key (p : DynPart) : Nat × Bool := (p.magic, p.fixup)

def unfound (parts : List DynPart) : Nat := parts.countP fun p => !p.found

def FoundIn (parts : List DynPart) (magic : Nat) : Prop :=
  ∀ q ∈ parts, q.magic = magic → q.found = true

theorem findRound_cases (h : findRound w big m s = some s') :
    s.offset < m.size ∧
      (m.error s.tick s.offset 4 ∧ s' = { s with tick := s.tick + 1 } ∨
        ¬m.error s.tick s.offset 4 ∧ (look w big m s).allfound = false ∧
          s' = (look w big m s).scan w) := by
  rw [findRound] at h
  split at h
  · cases h
  rename_i hend
  refine ⟨not_le.mp hend, ?_⟩
  split at h
  · rename_i herror
    exact .inl ⟨herror, (Option.some.inj h).symm⟩
  rename_i herror
  split at h
  · cases h
  · rename_i hall
    exact .inr ⟨herror, eq_false_of_ne_true hall, (Option.some.inj h).symm⟩

theorem parts_cases (hd : Distinct s.parts) (h : findRound w big m s = some s') :
    s'.parts = s.parts ∨
      ∃ pre p q post, s.parts = pre ++ p :: post ∧ p.found = false ∧
        s'.parts = pre ++ q :: post ∧ q.key = p.key ∧ (q.found → IsAt big m s p) ∧
        q.offset = s.offset ∧
        (q.size = p.size ∨ q.size = word true m.flash (s.offset + 4)) := by
  obtain ⟨-, ⟨-, rfl⟩ | ⟨hread, -, rfl⟩⟩ := findRound_cases h
  · exact .inl rfl
  rcases look_cases w big m hd with
    ⟨-, hlook⟩ | ⟨pre, p, q, post, hparts, hfound, hmagic, hlook, hhit⟩
  · rw [hlook]
    exact .inl rfl
  refine .inr ⟨pre, p, q, post, hparts, hfound, hlook, ?_, ?_, hhit.place, hhit.size⟩
  · rw [DynPart.key, DynPart.key, hhit.magic, hhit.fixup]
  · intro hq
    rcases hhit.outcome with ⟨-, hready, -⟩ | ⟨hnot, -⟩
    · exact ⟨hread, hmagic.symm, hready⟩
    · rw [hq] at hnot
      cases hnot

theorem keys_round (hd : Distinct s.parts) (h : findRound w big m s = some s') :
    s'.parts.map DynPart.key = s.parts.map DynPart.key := by
  rcases parts_cases hd h with hsame | ⟨pre, p, q, post, hparts, -, hparts', hkey, -⟩
  · rw [hsame]
  · rw [hparts, hparts', map_append, map_append, map_cons, map_cons, hkey]

theorem foundIn_round {magic : Nat} (hd : Distinct s.parts) (h : findRound w big m s = some s')
    (hfound : FoundIn s.parts magic) : FoundIn s'.parts magic := by
  rcases parts_cases hd h with hsame | ⟨pre, p, q, post, hparts, hnot, hparts', hkey, -⟩
  · rw [hsame]
    exact hfound
  rw [hparts] at hfound
  rw [hparts']
  intro r hr hmagic
  simp only [mem_append, mem_cons] at hr
  rcases hr with hpre | rfl | hpost
  · exact hfound r (by simp [hpre]) hmagic
  · have hp : p.magic = magic := (congrArg Prod.fst hkey).symm.trans hmagic
    have := hfound p (by simp) hp
    rw [hnot] at this
    cases this
  · exact hfound r (by simp [hpost]) hmagic

theorem IsAt.of_key (h : IsAt big m s q) (hkey : p.key = q.key) : IsAt big m s p := by
  have hmagic : p.magic = q.magic := congrArg Prod.fst hkey
  have hfixup : p.fixup = q.fixup := congrArg Prod.snd hkey
  rw [IsAt, hmagic, hfixup]
  exact h

theorem known_round (hd : Distinct s.parts) (h : findRound w big m s = some s')
    (hq : q ∈ s'.parts) (hfound : q.found) :
    ∃ p ∈ s.parts, p.key = q.key ∧ (p.found ∨ IsAt big m s p) := by
  rcases parts_cases hd h with hsame | ⟨pre, p, r, post, hparts, -, hparts', hkey, hat, -⟩
  · exact ⟨q, hsame ▸ hq, rfl, .inl hfound⟩
  rw [hparts]
  simp only [hparts', mem_append, mem_cons] at hq
  rcases hq with hpre | rfl | hpost
  · exact ⟨q, by simp [hpre], rfl, .inl hfound⟩
  · exact ⟨p, by simp, hkey.symm, .inr (hat hfound)⟩
  · exact ⟨q, by simp [hpost], rfl, .inl hfound⟩

theorem eq_of_magic (hd : Distinct parts) (hp : p ∈ parts) (hq : q ∈ parts)
    (h : p.magic = q.magic) : p = q :=
  inj_on_of_nodup_map hd hp hq h

theorem foundIn_of_isAt (hd : Distinct s.parts) (hp : ∃ r ∈ s.parts, r.key = p.key)
    (hat : IsAt big m s p) (h : findRound w big m s = some s') : FoundIn s'.parts p.magic := by
  obtain ⟨hread, hmagic, hready⟩ := hat
  obtain ⟨-, ⟨herror, -⟩ | ⟨-, -, rfl⟩⟩ := findRound_cases h
  · exact absurd herror hread
  rcases look_cases w big m hd with
    ⟨hskips, hlook⟩ | ⟨pre, p', q, post, hparts, -, hmagic', hlook, hhit⟩
  · rw [hlook]
    intro r hr hsame
    exact (hskips r hr).resolve_right (not_not.mpr (hsame.trans hmagic.symm))
  · have hsame : p'.magic = p.magic := hmagic'.trans hmagic
    obtain ⟨r, hr, hkey⟩ := hp
    have hp' : p' ∈ s.parts := hparts ▸ mem_append_right _ mem_cons_self
    obtain rfl : r = p' := eq_of_magic hd hr hp' ((congrArg Prod.fst hkey).trans hsame.symm)
    have hfix : r.fixup = p.fixup := congrArg Prod.snd hkey
    obtain ⟨hpre, hpost⟩ := skips_others (hparts ▸ hd)
    rw [hsame] at hpre hpost
    show FoundIn (look w big m s).parts p.magic
    rw [hlook]
    intro t ht htmagic
    simp only [mem_append, mem_cons] at ht
    rcases ht with ht | rfl | ht
    · exact (hpre t ht).resolve_right (not_not.mpr htmagic)
    · rcases hhit.outcome with ⟨hfound, -⟩ | ⟨-, hnot, -⟩
      · exact hfound
      · exact absurd (fun hfixup => hready (hfix ▸ hfixup)) hnot
    · exact (hpost t ht).resolve_right (not_not.mpr htmagic)

theorem unfound_append (p : DynPart) :
    unfound (pre ++ p :: post) = unfound pre + unfound post + if p.found then 0 else 1 := by
  rw [unfound, countP_append, countP_cons]
  cases p.found with
  | true => rfl
  | false => exact (add_assoc ..).symm

theorem progress_round (hd : Distinct s.parts) (hread : ¬m.error s.tick s.offset 4)
    (h : findRound w big m s = some s') :
    unfound s'.parts < unfound s.parts ∨ unfound s'.parts = unfound s.parts ∧
      s'.offset = (s.offset + RB_BLOCK_SIZE) % w.values := by
  obtain ⟨-, ⟨herror, -⟩ | ⟨-, -, rfl⟩⟩ := findRound_cases h
  · exact absurd herror hread
  rcases look_cases w big m hd with
    ⟨-, hlook⟩ | ⟨pre, p, q, post, hparts, hnot, -, hlook, hhit⟩
  · rw [hlook]
    exact .inr ⟨rfl, rfl⟩
  rw [Look.scan, hlook, hparts, unfound_append, unfound_append, hnot]
  rcases hhit.outcome with ⟨hfound, -⟩ | ⟨hsame, -, hoffset⟩
  · rw [hfound]
    exact .inl (Nat.lt_succ_self _)
  · rw [hsame, hoffset]
    exact .inr ⟨rfl, rfl⟩

theorem block_dvd_values (w : SizeT) : RB_BLOCK_SIZE ∣ w.values := by
  cases w with
  | bits32 => decide
  | bits64 => decide

theorem block_dvd_skipped (size : Nat) : RB_BLOCK_SIZE ∣ skipped size := by
  rw [skipped]
  split
  · exact Dvd.intro_left _ rfl
  · exact dvd_zero _

theorem aligned_round (hd : Distinct s.parts) (h : findRound w big m s = some s')
    (hs : RB_BLOCK_SIZE ∣ s.offset) : RB_BLOCK_SIZE ∣ s'.offset := by
  have hmod {n : Nat} (hn : RB_BLOCK_SIZE ∣ n) : RB_BLOCK_SIZE ∣ n % w.values :=
    (Nat.dvd_mod_iff (block_dvd_values w)).mpr hn
  obtain ⟨-, ⟨-, rfl⟩ | ⟨-, -, rfl⟩⟩ := findRound_cases h
  · exact hs
  rcases look_cases w big m hd with ⟨-, hlook⟩ | ⟨pre, p, q, post, -, -, -, -, hhit⟩
  · rw [hlook]
    exact hmod (dvd_add hs (dvd_refl _))
  rcases hhit.outcome with ⟨-, -, hoffset⟩ | ⟨-, -, hoffset⟩
  · rw [Look.scan, hoffset]
    exact hmod (dvd_add (hmod (dvd_add hs (block_dvd_skipped _))) (dvd_refl _))
  · rw [Look.scan, hoffset]
    exact hmod (dvd_add hs (dvd_refl _))

/-! ## Runs -/

structure Sane (w : SizeT) (parts : List DynPart) (s : Scan) : Prop where
  keys : s.parts.map DynPart.key = parts.map DynPart.key
  aligned : RB_BLOCK_SIZE ∣ s.offset
  offset : s.offset < w.values

theorem Sane.distinct (h : Sane w parts s) (hd : Distinct parts) : Distinct s.parts := by
  have hmagic (l : List DynPart) : l.map DynPart.magic = (l.map DynPart.key).map Prod.fst := by
    rw [map_map]
    rfl
  rw [Distinct, hmagic, h.keys, ← hmagic]
  exact hd

theorem Sane.mem_keys (h : Sane w parts s) {key : Nat × Bool} :
    (∃ p ∈ s.parts, p.key = key) ↔ ∃ p ∈ parts, p.key = key := by
  rw [← mem_map, h.keys, mem_map]

theorem Sane.round (hd : Distinct parts) (hs : Sane w parts s)
    (h : findRound w big m s = some s') : Sane w parts s' where
  keys := (keys_round (hs.distinct hd) h).trans hs.keys
  aligned := aligned_round (hs.distinct hd) h hs.aligned
  offset := by
    obtain ⟨-, ⟨-, rfl⟩ | ⟨-, -, rfl⟩⟩ := findRound_cases h
    · exact hs.offset
    · exact Nat.mod_lt _ (values_pos w)

theorem sane_of_comes (hd : Distinct parts) (h : Comes w big m parts s) : Sane w parts s := by
  obtain ⟨n, hn⟩ := h
  exact walk_keeps (fun a b ha hab => ha.round hd hab) ⟨rfl, dvd_zero _, values_pos w⟩ hn

theorem Comes.trans {n : Nat} (h : Comes w big m parts s)
    (hn : walk (findRound w big m) s n = some s') : Comes w big m parts s' := by
  obtain ⟨k, hk⟩ := h
  refine ⟨k + n, ?_⟩
  rw [walk_add, hk, Option.bind_some, hn]

/-! ## Read errors -/

theorem findRound_error (hend : s.offset < m.size) (h : m.error s.tick s.offset 4) :
    findRound w big m s = some { s with tick := s.tick + 1 } := by
  rw [findRound, if_neg (not_le.mpr hend), if_pos h]

theorem not_ends_of_unreadable (h : Comes w big m parts s) (hs : Unreadable m s) :
    ¬ScanEnds w big m parts := by
  rintro ⟨n, hn⟩
  obtain ⟨k, hk⟩ := h
  have hstep (a : Scan) (ha : Unreadable m a) :
      ∃ b, findRound w big m a = some b ∧ Unreadable m b := by
    refine ⟨_, findRound_error ha.1 (ha.2 _ le_rfl), ha.1, ?_⟩
    intro tick htick
    exact ha.2 tick (Nat.le_of_succ_le htick)
  obtain ⟨b, hb, -⟩ := walk_goes_on hstep hs n
  have hlater : walk (findRound w big m) ⟨0, 0, parts⟩ (k + n) = some b := by
    rw [walk_add, hk, Option.bind_some, hb]
  rw [walk_none_of_le (Nat.le_add_left n k) hn] at hlater
  cases hlater

theorem exists_read (w : SizeT) (big : Bool) (hend : s.offset < m.size) (hs : ¬Unreadable m s) :
    ∃ d, walk (findRound w big m) s d = some { s with tick := s.tick + d } ∧
      ¬m.error (s.tick + d) s.offset 4 := by
  have hread : ∃ d, ¬m.error (s.tick + d) s.offset 4 := by
    by_contra hnone
    push Not at hnone
    refine hs ⟨hend, fun tick htick => ?_⟩
    obtain ⟨d, rfl⟩ := Nat.exists_eq_add_of_le htick
    exact hnone d
  obtain ⟨d, hd, hfirst⟩ : ∃ d, ¬m.error (s.tick + d) s.offset 4 ∧
      ∀ i < d, m.error (s.tick + i) s.offset 4 :=
    ⟨Nat.find hread, Nat.find_spec hread, fun i hi => not_not.mp (Nat.find_min hread hi)⟩
  refine ⟨d, ?_, hd⟩
  clear hd
  induction d with
  | zero => rfl
  | succ d ih =>
    have herror : findRound w big m { s with tick := s.tick + d } =
        some { s with tick := s.tick + (d + 1) } :=
      findRound_error hend (hfirst d (Nat.lt_succ_self d))
    rw [walk, ih fun i hi => hfirst i (Nat.lt_succ_of_lt hi), Option.bind_some, herror]

theorem findRound_all_found (hall : ∀ q ∈ s.parts, q.found) (hend : s.offset < m.size)
    (hok : ¬m.error s.tick s.offset 4) : findRound w big m s = none := by
  have hlook : (look w big m s).allfound := by
    rw [look, lookParts_skips fun q hq => .inl (hall q hq)]
    exact all_eq_true.mpr hall
  rw [findRound, if_neg (not_le.mpr hend), if_neg hok, if_pos hlook]

/-! ## The end of the scan -/

section

variable (hd : Distinct parts) (hread : ∀ s, Comes w big m parts s → ¬Unreadable m s)

include hd hread

theorem ends_of_small (hsize : m.size + RB_BLOCK_SIZE ≤ w.values) : ScanEnds w big m parts := by
  have hwf := (Prod.lex Nat.lt_wfRel Nat.lt_wfRel).wf
  refine ends_of_progress hwf (fun s => (unfound s.parts, m.size - s.offset))
    (Comes w big m parts) ?_ ⟨0, rfl⟩
  intro s hs
  by_cases hend : m.size ≤ s.offset
  · exact .inl ⟨1, if_pos hend⟩
  have hend := not_le.mp hend
  have hsane := sane_of_comes hd hs
  obtain ⟨d, hwalk, hok⟩ := exists_read w big hend (hread s hs)
  cases hround : findRound w big m { s with tick := s.tick + d } with
  | none =>
    refine .inl ⟨d + 1, ?_⟩
    rw [walk, hwalk, Option.bind_some, hround]
  | some s' =>
    have hnext : walk (findRound w big m) s (d + 1) = some s' := by
      rw [walk, hwalk, Option.bind_some, hround]
    refine .inr ⟨d + 1, s', hnext, hs.trans hnext, ?_⟩
    have hprogress : unfound s'.parts < unfound s.parts ∨ unfound s'.parts = unfound s.parts ∧
          s'.offset = (s.offset + RB_BLOCK_SIZE) % w.values :=
      progress_round (s := { s with tick := s.tick + d }) (hsane.distinct hd) hok hround
    rcases hprogress with hless | ⟨hsame, hoffset⟩
    · exact Prod.Lex.left _ _ hless
    · have hgo : s'.offset = s.offset + RB_BLOCK_SIZE := by
        rw [hoffset]
        exact Nat.mod_eq_of_lt (by omega)
      rw [hsame, hgo]
      exact Prod.Lex.right _ (show m.size - (s.offset + 0x1000) < m.size - s.offset by omega)

end

section

variable (hd : Distinct parts)

include hd

theorem foundIn_later {magic n : Nat} (hs : Sane w parts s)
    (hn : walk (findRound w big m) s n = some s') (hfound : FoundIn s.parts magic) :
    FoundIn s'.parts magic := by
  refine (walk_keeps (P := fun a => Sane w parts a ∧ FoundIn a.parts magic) ?_ ⟨hs, hfound⟩ hn).2
  rintro a b ⟨ha, hfa⟩ hab
  exact ⟨ha.round hd hab, foundIn_round (ha.distinct hd) hab hfa⟩

theorem exists_foundIn (hp : p ∈ parts)
    (h : p.found ∨ ∃ s, Comes w big m parts s ∧ IsAt big m s p) :
    ∃ n, ∀ t, walk (findRound w big m) ⟨0, 0, parts⟩ n = some t → FoundIn t.parts p.magic := by
  rcases h with hknown | ⟨s, ⟨k, hk⟩, hat⟩
  · refine ⟨0, fun t ht q hq hsame => ?_⟩
    rw [← Option.some.inj ht] at hq
    rw [eq_of_magic hd hq hp hsame]
    exact hknown
  · refine ⟨k + 1, fun t ht => ?_⟩
    rw [walk, hk] at ht
    have hsane := sane_of_comes hd ⟨k, hk⟩
    exact foundIn_of_isAt (hsane.distinct hd) (hsane.mem_keys.mpr ⟨p, hp, rfl⟩) hat ht

theorem exists_all_foundIn
    (h : ∀ p ∈ ps, ∃ n, ∀ t, walk (findRound w big m) ⟨0, 0, parts⟩ n = some t →
      FoundIn t.parts p.magic) :
    ∃ n, ∀ t, walk (findRound w big m) ⟨0, 0, parts⟩ n = some t →
      ∀ p ∈ ps, FoundIn t.parts p.magic := by
  induction ps with
  | nil => exact ⟨0, fun t _ p hp => absurd hp not_mem_nil⟩
  | cons p ps ih =>
    obtain ⟨i, hi⟩ := h p mem_cons_self
    obtain ⟨j, hj⟩ := ih fun q hq => h q (mem_cons_of_mem p hq)
    refine ⟨max i j, fun t ht q hq => ?_⟩
    rcases mem_cons.mp hq with rfl | hq
    · obtain ⟨s, hs, hlater⟩ := walk_split (le_max_left i j) ht
      exact foundIn_later hd (sane_of_comes hd ⟨i, hs⟩) hlater (hi s hs)
    · obtain ⟨s, hs, hlater⟩ := walk_split (le_max_right i j) ht
      exact foundIn_later hd (sane_of_comes hd ⟨j, hs⟩) hlater (hj s hs q hq)

theorem ends_of_found (hread : ∀ s, Comes w big m parts s → ¬Unreadable m s)
    (hfound : ∀ p ∈ parts, p.found ∨ ∃ s, Comes w big m parts s ∧ IsAt big m s p) :
    ScanEnds w big m parts := by
  obtain ⟨n, hn⟩ := exists_all_foundIn hd fun p hp => exists_foundIn hd hp (hfound p hp)
  cases hs : walk (findRound w big m) ⟨0, 0, parts⟩ n with
  | none => exact ⟨n, hs⟩
  | some s =>
    have hsane := sane_of_comes hd ⟨n, hs⟩
    have hall : ∀ q ∈ s.parts, q.found := by
      intro q hq
      obtain ⟨p, hp, hpq⟩ := hsane.mem_keys.mp ⟨q, hq, rfl⟩
      exact hn s hs p hp q hq (congrArg Prod.fst hpq).symm
    by_cases hend : m.size ≤ s.offset
    · refine ⟨n + 1, ?_⟩
      rw [walk, hs, Option.bind_some, findRound, if_pos hend]
    have hend := not_le.mp hend
    obtain ⟨d, hwalk, hok⟩ := exists_read w big hend (hread s ⟨n, hs⟩)
    have hlast : findRound w big m { s with tick := s.tick + d } = none :=
      findRound_all_found hall hend hok
    refine ⟨n + (d + 1), ?_⟩
    rw [walk_add, hs, Option.bind_some, walk, hwalk, Option.bind_some, hlast]

theorem known_of_comes (h : Comes w big m parts s) (hq : q ∈ s.parts) (hfound : q.found) :
    ∃ p ∈ parts, p.key = q.key ∧
      (p.found ∨ ∃ t, Comes w big m parts t ∧ IsAt big m t p) := by
  obtain ⟨n, hn⟩ := h
  induction n generalizing s q with
  | zero =>
    rw [← Option.some.inj hn] at hq
    exact ⟨q, hq, rfl, .inl hfound⟩
  | succ n ih =>
    obtain ⟨t, ht, hround⟩ := Option.bind_eq_some_iff.mp hn
    have hsane := sane_of_comes hd ⟨n, ht⟩
    obtain ⟨r, hr, hkey, hknown | hat⟩ := known_round (hsane.distinct hd) hround hq hfound
    · obtain ⟨p, hp, hsame, hcases⟩ := ih hr hknown ht
      exact ⟨p, hp, hsame.trans hkey, hcases⟩
    · obtain ⟨p, hp, hsame⟩ := hsane.mem_keys.mp ⟨r, hr, rfl⟩
      exact ⟨p, hp, hsame.trans hkey, .inr ⟨t, ⟨n, ht⟩, hat.of_key hsame⟩⟩

/-- With offsets that wrap around on the device only a full table ends the scan. -/
theorem found_of_ends (hsize : w.values < m.size + RB_BLOCK_SIZE) (h : ScanEnds w big m parts)
    (hp : p ∈ parts) : p.found ∨ ∃ s, Comes w big m parts s ∧ IsAt big m s p := by
  obtain ⟨n, hn⟩ := h
  obtain ⟨k, z, -, hz, hlast⟩ := exists_last hn
  have hsane := sane_of_comes hd ⟨k, hz⟩
  -- the last place is on the device
  have hend : ¬m.size ≤ z.offset := by
    obtain ⟨i, hi⟩ := hsane.aligned
    obtain ⟨j, hj⟩ := block_dvd_values w
    have hoffset := hsane.offset
    rw [RB_BLOCK_SIZE] at hi hj hsize
    omega
  have hall : (look w big m z).allfound := by
    rw [findRound, if_neg hend] at hlast
    split at hlast
    · cases hlast
    split at hlast
    · rename_i hall
      exact hall
    · cases hlast
  have hparts : ∀ q ∈ z.parts, q.found := by
    rcases look_cases w big m (hsane.distinct hd) with
      ⟨-, hlook⟩ | ⟨pre, p', q, post, -, -, -, -, hhit⟩
    · rw [hlook] at hall
      exact all_eq_true.mp hall
    · rw [hhit.allfound] at hall
      cases hall
  obtain ⟨q, hq, hsame⟩ := hsane.mem_keys.mpr ⟨p, hp, rfl⟩
  obtain ⟨r, hr, hrq, hcases⟩ := known_of_comes hd ⟨k, hz⟩ hq (hparts q hq)
  obtain rfl : r = p := eq_of_magic hd hr hp (congrArg Prod.fst (hrq.trans hsame))
  exact hcases

end

/-- The scan ends exactly if each place that it comes to can be read at some time; and, on a
device that reaches into the last block of a `size_t`, if it comes to each partition that it does
not know. -/
theorem scan_ends_iff (w : SizeT) (big : Bool) (m : Mtd) (parts : List DynPart)
    (hd : Distinct parts) :
    ScanEnds w big m parts ↔
      (∀ s, Comes w big m parts s → ¬Unreadable m s) ∧
        (w.values < m.size + RB_BLOCK_SIZE → ∀ p ∈ parts,
          p.found = true ∨ ∃ s, Comes w big m parts s ∧ IsAt big m s p) := by
  constructor
  · intro h
    exact ⟨fun s hs hbad => not_ends_of_unreadable hs hbad h,
      fun hsize p hp => found_of_ends hd hsize h hp⟩
  · rintro ⟨hread, hfound⟩
    rcases lt_or_ge w.values (m.size + RB_BLOCK_SIZE) with hsize | hsize
    · exact ends_of_found hd hread (hfound hsize)
    · exact ends_of_small hd hread hsize

theorem distinct_rbDynparts (big : Bool) : Distinct (rbDynparts big) := by
  cases big with
  | false => decide
  | true => decide

def blankMtd : Mtd := ⟨0x1000, fun _ => 0xFF, fun _ => false⟩

theorem scan_ends_blankMtd : ScanEnds .bits32 false blankMtd (rbDynparts false) := by
  refine (scan_ends_iff .bits32 false blankMtd _ (distinct_rbDynparts false)).mpr ⟨?_, ?_⟩
  · rintro s hs ⟨hend, hbad⟩
    have hend : s.offset < 0x1000 := hend
    obtain ⟨i, hi⟩ := (sane_of_comes (distinct_rbDynparts false) hs).aligned
    rw [RB_BLOCK_SIZE] at hi
    rcases hbad s.tick le_rfl with hshort | hfail
    · have hshort : 0x1000 < s.offset + 4 := hshort
      omega
    · cases hfail
  · intro hsize
    exact absurd hsize (by decide)

def deadMtd : Mtd := ⟨0x1000, fun _ => 0xFF, fun _ => true⟩

theorem not_scan_ends_deadMtd : ¬ScanEnds .bits32 false deadMtd (rbDynparts false) :=
  not_ends_of_unreadable ⟨0, rfl⟩ ⟨by decide, fun _ _ => .inr rfl⟩

end OpenWrt.RouterBoot.Partitions
