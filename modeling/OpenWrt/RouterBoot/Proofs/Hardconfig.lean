import OpenWrt.RouterBoot.Hardconfig
import OpenWrt.RouterBoot.Proofs.RleShort
import OpenWrt.RouterBoot.Proofs.TagFind

/-!
# Calibration data inside its buffers

The payload of the tag is checked against the partition before anything is read.  ERD data is
read inside the partition exactly if its tag is; LZOR data is read inside the temporary buffer
exactly if the RLE data in it ends there.
-/

namespace OpenWrt.RouterBoot

open Lib Nat

variable {k : Kernel} {w : SizeT} {big : Bool} {tagId tofs tlen : Nat} {hc temp : Area}
  {out : Buffer} {head bufend z templen needle : Nat}

/-! ## Lengths -/

theorem skipMagic_eq (h : 4 ≤ tlen) (hlen : tlen < 65536) : skipMagic w tlen = tlen - 4 := by
  have hlarge := values_large w
  have hsum : tlen + w.values - 4 = tlen - 4 + w.values := by omega
  rw [skipMagic, hsum, add_mod_right, mod_eq_of_lt (by omega)]

theorem skipMagic_wrapped (h : tlen < 4) : skipMagic w tlen = w.values - (4 - tlen) := by
  have hlarge := values_large w
  have hsum : tlen + w.values - 4 = w.values - (4 - tlen) := by omega
  rw [skipMagic, hsum, mod_eq_of_lt (by omega)]

theorem skipMagic_end (w : SizeT) (hofs : tofs < 65536) (hlen : tlen < 65536) :
    tofs + tlen = (tofs + 4 + skipMagic w tlen) % w.values := by
  have hlarge := values_large w
  by_cases h : 4 ≤ tlen
  · rw [skipMagic_eq h hlen, mod_eq_of_lt (by omega)]
    omega
  · have hsum : tofs + 4 + (w.values - (4 - tlen)) = tofs + tlen + w.values := by omega
    rw [skipMagic_wrapped (not_le.mp h), hsum, add_mod_right, mod_eq_of_lt (by omega)]

theorem remaining_eq (h : needle ≤ templen) (hlen : templen < w.values) :
    remaining w templen needle = templen - needle := by
  have hsum : templen + w.values - needle = templen - needle + w.values := by omega
  rw [remaining, hsum, add_mod_right, mod_eq_of_lt (by omega)]

theorem remaining_end (h : needle ≤ w.values) (hlen : templen < w.values) :
    templen = (needle + remaining w templen needle) % w.values := by
  have hsum : needle + (templen + w.values - needle) = templen + w.values := by omega
  rw [remaining, add_mod_mod, hsum, add_mod_right, mod_eq_of_lt hlen]

theorem upTo_length (a : Area) (o len : Nat) :
    (a.upTo o len).length = min len (a.size - o) := length_slice

/-! ## Places of a list of nodes -/

theorem meets_le {round : Nat → Nat} (h : Meets round big hc bufend tagId head z) : head ≤ z := by
  obtain ⟨n, hn⟩ := h
  induction n generalizing z with
  | zero => exact le_of_eq (Option.some.inj hn)
  | succ n ih =>
    obtain ⟨p, hp, hnext⟩ := Option.bind_eq_some_iff.mp hn
    exact (ih hp).trans (nextTag_rises hnext).1

theorem alignLen_aligned (len : Nat) : alignLen len % 4 = 0 := by
  rw [alignLen, align4]
  omega

theorem meets_aligned (hhead : head % 4 = 0)
    (h : Meets alignLen big hc bufend tagId head z) : z % 4 = 0 := by
  obtain ⟨n, hn⟩ := h
  induction n generalizing z with
  | zero =>
    rw [← Option.some.inj hn]
    exact hhead
  | succ n ih =>
    obtain ⟨p, hp, hnext⟩ := Option.bind_eq_some_iff.mp hn
    obtain ⟨-, rfl⟩ := passes_of_next hnext
    have hp := ih hp
    have hround := alignLen_aligned (nodeLen (hc.node big p))
    omega

theorem id_of_last (hlast : ¬Passes big hc bufend tagId z) (hend : z < bufend)
    (hread : z + 4 ≤ hc.size) (hnode : hc.node big z ≠ 0) : nodeId (hc.node big z) = tagId := by
  by_contra hid
  exact hlast ⟨hend, hread, hnode, Ne.symm hid⟩

theorem forall_meets_iff {P : Nat → Prop} (hmeets : Meets alignLen big hc bufend tagId head z)
    (hlast : ¬Passes big hc bufend tagId z)
    (hpass : ∀ y, Passes big hc bufend tagId y → P y) :
    (∀ y, Meets alignLen big hc bufend tagId head y → P y) ↔ P z := by
  constructor
  · intro h
    exact h z hmeets
  intro hz y hy
  by_cases hyp : Passes big hc bufend tagId y
  · exact hpass y hyp
  · obtain ⟨m, hm⟩ := hy
    obtain ⟨n, hn⟩ := hmeets
    obtain rfl := last_unique hm (if_neg hyp) hn (if_neg hlast)
    exact hz

theorem ok_ne_overrun {α : Type} (x : α) : (.ok x : Except Halt α) ≠ .error .overrun := by
  intro h
  cases h

/-! ## ERD -/

theorem erdPayload_iff {inbuf inlen ofs len outlen : Nat} :
    erdPayload k hc inbuf inlen out outlen (.ok (ofs, len)) ≠ .error .overrun ↔
      (len ≤ inlen → inbuf + ofs + len ≤ hc.size) := by
  rw [erdPayload, Area.range]
  by_cases hlen : inlen < len
  · rw [if_pos hlen]
    exact ⟨fun _ h => by omega, fun _ => ok_ne_overrun _⟩
  rw [if_neg hlen]
  by_cases hrange : inbuf + ofs + len ≤ hc.size
  · rw [if_pos hrange]
    exact ⟨fun _ _ => hrange, fun _ => ok_ne_overrun _⟩
  · rw [if_neg hrange]
    exact ⟨fun h => absurd rfl h, fun h => absurd (h (not_lt.mp hlen)) hrange⟩

theorem erd_inside_iff (htag : tagId ≠ 0) (hofs : tofs < 65536) (hlen : tlen < 65536) :
    hcWlanDataUnpackErd k tagId hc (tofs + 4) (skipMagic k.w tlen) out RB_ART_SIZE ≠
        .error .overrun ↔ ErdInside k.big tagId hc tofs tlen := by
  obtain ⟨z, hmeets, hlast, hfind⟩ :=
    exists_findEnd k.big hc htag (skipMagic_end k.w hofs hlen)
  have hle := meets_le hmeets
  rw [ErdInside, forall_meets_iff hmeets hlast
    fun y hy _ => ⟨hy.2.1, fun hid => absurd hid.symm hy.2.2.2⟩]
  rw [hcWlanDataUnpackErd, hfind, findEnd]
  by_cases hend : tofs + tlen ≤ z
  · rw [if_pos hend]
    exact ⟨fun _ h => by omega, fun _ => ok_ne_overrun _⟩
  rw [if_neg hend]
  have hend := not_le.mp hend
  by_cases hread : hc.size < z + 4
  · rw [if_pos hread]
    exact ⟨fun h => absurd rfl h, fun h => absurd (h hend).1 (not_le.mpr hread)⟩
  rw [if_neg hread]
  have hread := not_lt.mp hread
  by_cases hnone : hc.node k.big z = 0 ∨ tofs + tlen ≤ z + 4
  · rw [if_pos hnone]
    refine ⟨fun _ _ => ⟨hread, fun hid hmore => ?_⟩, fun _ => ok_ne_overrun _⟩
    rcases hnone with hnull | hnone
    · exact absurd hnull (node_ne_zero htag hid)
    · omega
  · obtain ⟨hnode, hmore⟩ := not_or.mp hnone
    have hid := id_of_last hlast hend hread hnode
    have hplace : (z + 4 - (tofs + 4)) % 65536 = z + 4 - (tofs + 4) :=
      mod_eq_of_lt (by omega)
    have hstart : tofs + 4 + (z + 4 - (tofs + 4)) = z + 4 := by omega
    rw [if_neg hnone, ok_bind, erdPayload_iff, hplace, hstart, skipMagic_eq (by omega) hlen]
    exact ⟨fun h _ => ⟨hread, fun _ _ => h⟩, fun h => (h hend).2 hid (by omega)⟩

/-! ## LZOR -/

theorem needle_unique {needle' : Nat} (h : Needle big temp templen needle)
    (h' : Needle big temp templen needle') : needle = needle' := by
  rcases lt_trichotomy needle needle' with hlt | heq | hgt
  · exact absurd h.2.2.1 (h'.2.2.2 needle hlt h.1)
  · exact heq
  · exact absurd h'.2.2.1 (h.2.2.2 needle' hgt h'.1)

theorem needleLoop_cases {n o : Nat} (hsize : temp.size % 4 = 0) (hpos : 4 ≤ temp.size)
    (htemp : templen ≤ temp.size) (ho : o % 4 = 0) (hstart : o = 0 ∨ o < templen)
    (hbefore : ∀ p < o, p % 4 = 0 → temp.node big p ≠ RB_MAGIC_ERD) (hn : templen < o + n) :
    (∃ needle, Needle big temp templen needle ∧
        needleLoop big temp templen n o = .ok (some (needle + 4))) ∨
      needleLoop big temp templen n o = .ok none ∧
        ∀ needle, ¬Needle big temp templen needle := by
  induction n generalizing o with
  | zero => omega
  | succ n ih =>
    have hread : o + 4 ≤ temp.size := by omega
    rw [needleLoop, Area.read, if_pos hread, ok_bind]
    by_cases hmagic : temp.node big o = RB_MAGIC_ERD
    · rw [if_pos hmagic]
      exact .inl ⟨o, ⟨ho, hstart, hmagic, hbefore⟩, rfl⟩
    rw [if_neg hmagic]
    have hmore : ∀ p < o + 4, p % 4 = 0 → temp.node big p ≠ RB_MAGIC_ERD := by
      intro p hp haligned
      rcases lt_or_ge p o with hlt | hge
      · exact hbefore p hlt haligned
      · obtain rfl : p = o := by omega
        exact hmagic
    by_cases hend : templen ≤ o + 4
    · rw [if_pos hend]
      refine .inr ⟨rfl, ?_⟩
      rintro needle ⟨haligned, hplace, hfound, -⟩
      exact hmore needle (by omega) haligned hfound
    · rw [if_neg hend]
      exact ih (by omega) (.inr (not_le.mp hend)) hmore (by omega)

theorem needle_cases (big : Bool) (bytes : Buffer) (htemp : templen ≤ RB_ART_SIZE) :
    (∃ needle, Needle big ⟨bytes, RB_ART_SIZE⟩ templen needle ∧
        needleLoop big ⟨bytes, RB_ART_SIZE⟩ templen (templen + 1) 0 = .ok (some (needle + 4))) ∨
      needleLoop big ⟨bytes, RB_ART_SIZE⟩ templen (templen + 1) 0 = .ok none ∧
        ∀ needle, ¬Needle big ⟨bytes, RB_ART_SIZE⟩ templen needle :=
  needleLoop_cases (show RB_ART_SIZE % 4 = 0 by decide) (show 4 ≤ RB_ART_SIZE by decide) htemp
    rfl (.inl rfl) (fun p hp => absurd hp (not_lt_zero p)) (by omega)

theorem rleDecodeFrom_upTo_iff {a : Area} {o len : Nat} (hlen : len < 65536) :
    rleDecodeFrom w (a.upTo o len) len RB_ART_SIZE = .error .overrun ↔
      RunsOver (a.upTo o len) len RB_ART_SIZE := by
  have hlarge := values_large w
  have hupTo := upTo_length a o len
  obtain ⟨extra, hextra⟩ : ∃ extra, len = (a.upTo o len).length + extra :=
    Nat.exists_eq_add_of_le (by omega)
  have hmem : (a.upTo o len).length + RB_ART_SIZE ≤ w.values := by
    rw [RB_ART_SIZE]
    omega
  have hdecode : rleDecodeFrom w (a.upTo o len) ((a.upTo o len).length + extra) RB_ART_SIZE =
      .error .overrun ↔ RunsOver (a.upTo o len) ((a.upTo o len).length + extra) RB_ART_SIZE :=
    rleDecodeFrom_overrun_iff hmem (by decide)
  rw [← hextra] at hdecode
  exact hdecode

theorem lzorPayload_iff {templen ofs len : Nat} (hlen : len < 65536) :
    lzorPayload k out RB_ART_SIZE temp needle templen (.ok (ofs, len)) ≠ .error .overrun ↔
      (len ≤ templen → ¬RunsOver (temp.upTo (needle + ofs) len) len RB_ART_SIZE) := by
  rw [lzorPayload]
  by_cases hfits : templen < len
  · rw [if_pos hfits]
    exact ⟨fun _ h => by omega, fun _ => ok_ne_overrun _⟩
  rw [if_neg hfits, ← rleDecodeFrom_upTo_iff (w := k.w) hlen]
  cases rleDecodeFrom k.w (temp.upTo (needle + ofs) len) len RB_ART_SIZE with
  | error halt =>
    cases halt
    exact ⟨fun h => absurd rfl h, fun h => absurd rfl (h (not_lt.mp hfits))⟩
  | ok r => exact ⟨fun _ _ => ok_ne_overrun _, fun _ => ok_ne_overrun _⟩

theorem nodeLen_lt (big : Bool) (a : Area) (o : Nat) : nodeLen (a.node big o) < 65536 := by
  have hlt := word_lt big a.bytes o
  rw [nodeLen, Area.node]
  omega

theorem lzorTag_iff {bytes : Buffer} (htag : tagId ≠ 0) (htemp : templen ≤ RB_ART_SIZE)
    (hneedle : Needle k.big ⟨bytes, RB_ART_SIZE⟩ templen needle) :
    lzorTag k tagId out RB_ART_SIZE ⟨bytes, RB_ART_SIZE⟩ templen (some (needle + 4)) ≠
        .error .overrun ↔
      TempInside k.big tagId ⟨bytes, RB_ART_SIZE⟩ templen := by
  have hlarge := values_large k.w
  have hart : RB_ART_SIZE = 65536 := rfl
  have hfirst := hneedle
  obtain ⟨haligned, hplace, -, -⟩ := hneedle
  have hend : templen = (needle + 4 + remaining k.w templen (needle + 4)) % k.w.values :=
    remaining_end (by omega) (by omega)
  obtain ⟨z, hmeets, hlast, hfind⟩ := exists_findEnd k.big ⟨bytes, RB_ART_SIZE⟩ htag hend
  have hle := meets_le hmeets
  have hz := meets_aligned (by omega) hmeets
  have hlen := nodeLen_lt k.big ⟨bytes, RB_ART_SIZE⟩ z
  have hinside : TempInside k.big tagId ⟨bytes, RB_ART_SIZE⟩ templen ↔
      ∀ y, Meets alignLen k.big ⟨bytes, RB_ART_SIZE⟩ templen tagId (needle + 4) y →
        nodeId (Area.node k.big ⟨bytes, RB_ART_SIZE⟩ y) = tagId → y + 4 < templen →
        nodeLen (Area.node k.big ⟨bytes, RB_ART_SIZE⟩ y) ≤ templen - (needle + 4) →
        ¬RunsOver (Area.upTo ⟨bytes, RB_ART_SIZE⟩ (y + 4)
          (nodeLen (Area.node k.big ⟨bytes, RB_ART_SIZE⟩ y)))
          (nodeLen (Area.node k.big ⟨bytes, RB_ART_SIZE⟩ y)) RB_ART_SIZE := by
    constructor
    · intro h y
      exact h needle y hfirst
    · intro h needle' y hneedle'
      obtain rfl := needle_unique hfirst hneedle'
      exact h y
  rw [hinside, forall_meets_iff hmeets hlast fun y hy hid => absurd hid.symm hy.2.2.2]
  rw [lzorTag, hfind, findEnd]
  by_cases hend : templen ≤ z
  · rw [if_pos hend]
    exact ⟨fun _ _ h => by omega, fun _ => ok_ne_overrun _⟩
  rw [if_neg hend]
  have hend := not_le.mp hend
  have hread : z + 4 ≤ RB_ART_SIZE := by omega
  rw [if_neg (not_lt.mpr hread)]
  by_cases hnone : Area.node k.big ⟨bytes, RB_ART_SIZE⟩ z = 0 ∨ templen ≤ z + 4
  · rw [if_pos hnone]
    refine ⟨fun _ hid hmore => ?_, fun _ => ok_ne_overrun _⟩
    rcases hnone with hnull | hnone
    · exact absurd hnull (node_ne_zero htag hid)
    · omega
  · obtain ⟨hnode, hmore⟩ := not_or.mp hnone
    have hid := id_of_last hlast hend hread hnode
    have hofs : (z + 4 - (needle + 4)) % 65536 = z + 4 - (needle + 4) :=
      mod_eq_of_lt (by omega)
    have hstart : needle + 4 + (z + 4 - (needle + 4)) = z + 4 := by omega
    rw [if_neg hnone, ok_bind, lzorPayload_iff hlen, hofs, hstart,
      remaining_eq (by omega) (by omega)]
    exact ⟨fun h _ _ => h, fun h => h hid (by omega)⟩

theorem lzorUnpack_iff {ret : Int} {bytes : Buffer} (htag : tagId ≠ 0)
    (htemp : templen ≤ RB_ART_SIZE) :
    lzorUnpack k tagId out RB_ART_SIZE (ret, templen, bytes) ≠ .error .overrun ↔
      (ret = 0 ∨ ret = LZO_E_INPUT_NOT_CONSUMED →
        TempInside k.big tagId ⟨bytes, RB_ART_SIZE⟩ templen) := by
  rw [lzorUnpack]
  by_cases hret : ret ≠ 0 ∧ ret ≠ LZO_E_INPUT_NOT_CONSUMED
  · rw [if_pos hret]
    refine ⟨fun _ h => ?_, fun _ => ok_ne_overrun _⟩
    rcases h with h | h
    · exact absurd h hret.1
    · exact absurd h hret.2
  rw [if_neg hret]
  have hret : ret = 0 ∨ ret = LZO_E_INPUT_NOT_CONSUMED := by
    rw [← or_iff_not_and_not] at hret
    exact hret
  rcases needle_cases k.big bytes htemp with ⟨needle, hneedle, hloop⟩ | ⟨hloop, hnone⟩
  · rw [hloop, ok_bind, lzorTag_iff htag htemp hneedle]
    exact ⟨fun h _ => h, fun h => h hret⟩
  · rw [hloop]
    exact ⟨fun _ _ needle z hneedle => absurd hneedle (hnone needle), fun _ => ok_ne_overrun _⟩

theorem hcLzorPrefix_length : hcLzorPrefix.length = 1380 := by
  decide +kernel

theorem lzorInput_eq (h : hcLzorPrefix.length + (tlen - 4) ≤ RB_ART_SIZE) (htlen : 4 ≤ tlen)
    (hend : tofs + tlen ≤ hc.size) :
    lzorInput hc (tofs + 4) (tlen - 4) RB_ART_SIZE =
      .ok (hcLzorPrefix ++ slice hc.bytes (tofs + 4) (tlen - 4)) := by
  have hrange : tofs + 4 + (tlen - 4) ≤ hc.size := by omega
  rw [lzorInput, if_pos h, Area.range, if_pos hrange]
  rfl

theorem lzor_inside_iff (htag : tagId ≠ 0) (hlen : tlen < 65536)
    (hend : tofs + tlen ≤ hc.size) :
    hcWlanDataUnpackLzor k tagId hc (tofs + 4) (skipMagic k.w tlen) out RB_ART_SIZE ≠
        .error .overrun ↔ LzorInside k tagId hc tofs tlen := by
  have hlarge := values_large k.w
  have hprefix := hcLzorPrefix_length
  have hart : RB_ART_SIZE = 65536 := rfl
  rw [hcWlanDataUnpackLzor, LzorInside]
  by_cases hmemory : k.memory
  swap
  · refine ⟨fun _ h => absurd h hmemory, fun _ => ?_⟩
    split
    all_goals exact ok_ne_overrun _
  rw [if_neg (not_not.mpr hmemory)]
  by_cases hshort : tlen < 4
  · -- the length wraps around, and the check of the sum does not see it
    have hsum : k.w.values - (4 - tlen) + hcLzorPrefix.length =
        hcLzorPrefix.length - (4 - tlen) + k.w.values := by omega
    have hinput : lzorInput hc (tofs + 4) (k.w.values - (4 - tlen)) RB_ART_SIZE =
        .error .overrun := if_neg (by omega)
    rw [skipMagic_wrapped hshort, hsum, add_mod_right, mod_eq_of_lt (by omega),
      if_neg (by omega), hinput]
    exact ⟨fun h => absurd rfl h, fun h => absurd (h hmemory).1 (not_le.mpr hshort)⟩
  have htlen := not_lt.mp hshort
  rw [skipMagic_eq htlen hlen, mod_eq_of_lt (by omega)]
  by_cases hfits : RB_ART_SIZE < tlen - 4 + hcLzorPrefix.length
  · rw [if_pos hfits]
    exact ⟨fun _ _ => ⟨htlen, fun _ _ _ h => by omega⟩, fun _ => ok_ne_overrun _⟩
  have hinput : hcLzorPrefix.length + (tlen - 4) ≤ RB_ART_SIZE := by omega
  rw [if_neg hfits, lzorInput_eq hinput htlen hend, ok_bind]
  generalize hcLzorPrefix ++ slice hc.bytes (tofs + 4) (tlen - 4) = input
  have htemp := k.lzo.short input RB_ART_SIZE
  generalize k.lzo.run input RB_ART_SIZE = r at htemp ⊢
  obtain ⟨ret, templen, bytes⟩ := r
  rw [lzorUnpack_iff htag htemp]
  constructor
  · rintro h -
    refine ⟨htlen, ?_⟩
    rintro ret' templen' bytes' - hsame
    cases hsame
    exact h
  · intro h
    exact (h hmemory).2 ret templen bytes hinput rfl

/-! ## The payload of the tag -/

theorem rleDecodeFrom_inside (w : SizeT) (hlen : tlen < 65536) (hend : tofs + tlen ≤ hc.size) :
    rleDecodeFrom w (hc.upTo tofs tlen) tlen RB_ART_SIZE ≠ .error .overrun := by
  have hlarge := values_large w
  have hupTo : (hc.upTo tofs tlen).length = tlen := by
    rw [upTo_length]
    omega
  have hmem : InMemory w (hc.upTo tofs tlen) RB_ART_SIZE := by
    rw [InMemory, RB_ART_SIZE]
    omega
  have hsafe := rleDecode_safe hmem
  rw [Safe, rleDecode, hupTo] at hsafe
  exact hsafe

theorem unpack_inside_iff (htag : tagId ≠ 0) (hofs : tofs < 65536) (hlen : tlen < 65536) :
    hcWlanDataUnpack k tagId hc tofs tlen out RB_ART_SIZE ≠ .error .overrun ↔
      WlanInside k tagId hc tofs tlen := by
  have hlarge := values_large k.w
  rw [hcWlanDataUnpack, mod_eq_of_lt (by omega)]
  by_cases hend : hc.size < tofs + tlen
  · rw [if_pos hend]
    exact ⟨fun _ h => by omega, fun _ => ok_ne_overrun _⟩
  have hend' := not_lt.mp hend
  rw [if_neg hend, Area.read]
  by_cases hread : tofs + 4 ≤ hc.size
  swap
  · rw [if_neg hread]
    exact ⟨fun h => absurd rfl h, fun h => absurd (h hend').1 hread⟩
  rw [if_pos hread, ok_bind]
  by_cases hlzor : hc.node k.big tofs = RB_MAGIC_LZOR
  · have herd : hc.node k.big tofs ≠ RB_MAGIC_ERD := by
      rw [hlzor]
      decide
    rw [if_pos hlzor, lzor_inside_iff htag hlen hend']
    exact ⟨fun h _ => ⟨hread, fun _ => h, fun hmagic => absurd hmagic herd⟩,
      fun h => (h hend').2.1 hlzor⟩
  rw [if_neg hlzor]
  by_cases herd : hc.node k.big tofs = RB_MAGIC_ERD
  · rw [if_pos herd, erd_inside_iff htag hofs hlen]
    exact ⟨fun h _ => ⟨hread, fun hmagic => absurd hmagic hlzor, fun _ => h⟩,
      fun h => (h hend').2.2 herd⟩
  rw [if_neg herd]
  refine ⟨fun _ _ => ⟨hread, fun h => absurd h hlzor, fun h => absurd h herd⟩, fun _ => ?_⟩
  split
  · have hinside := rleDecodeFrom_inside k.w hlen hend'
    cases hrle : rleDecodeFrom k.w (hc.upTo tofs tlen) tlen RB_ART_SIZE with
    | error halt =>
      cases halt
      exact absurd hrle hinside
    | ok r => exact ok_ne_overrun _
  · exact ok_ne_overrun _

/-- Calibration data is unpacked inside the buffers exactly if the payload has room for the
magic number in the partition; LZOR data has room for it in the payload and RLE data that ends
in the temporary buffer; and ERD data has its nodes and the payload of the tag inside the
partition. -/
theorem wlan_inside_iff (k : Kernel) (tagId : Nat) (hc : Area) (tofs tlen : Nat)
    (htag : tagId ≠ 0) (hofs : tofs < 65536) (hlen : tlen < 65536) :
    StaysInside k tagId hc tofs tlen ↔ WlanInside k tagId hc tofs tlen := by
  constructor
  · intro h
    exact (unpack_inside_iff htag hofs hlen).mp (h fun _ => 0)
  · intro h out
    exact (unpack_inside_iff htag hofs hlen).mpr h

def noLzo : Lzo := ⟨fun _ _ => (- 1, 0, fun _ => 0), fun _ _ => zero_le _⟩

def rleConfig : Area :=
  ⟨fun i => [0x48, 0x61, 0x72, 0x64, 0x16, 0, 4, 0, 3, 1, 2, 7].getD i 0, 12⟩

theorem wlan_inside_rleConfig :
    StaysInside ⟨.bits32, false, true, noLzo⟩ RB_WLAN_ERD_ID_SOLO rleConfig 8 4 := by
  refine (wlan_inside_iff _ _ rleConfig 8 4 (by decide) (by decide) (by decide)).mpr ?_
  exact fun _ => ⟨by decide, fun h => absurd h (by decide), fun h => absurd h (by decide)⟩

def shortLzor : Area :=
  ⟨fun i => [0x48, 0x61, 0x72, 0x64, 0x16, 0, 3, 0, 0x4C, 0x5A, 0x4F, 0x52].getD i 0, 16⟩

theorem not_staysInside_shortLzor :
    ¬StaysInside ⟨.bits32, false, true, noLzo⟩ RB_WLAN_ERD_ID_SOLO shortLzor 8 3 := by
  intro h
  have hinside := (unpack_inside_iff (by decide) (by decide) (by decide)).mp (h fun _ => 0)
  have hlzor := (hinside (by decide)).2.1 (by decide)
  exact absurd (hlzor rfl).1 (by decide)

end OpenWrt.RouterBoot
