import Mathlib
import OpenWrt.RouterBoot.Rle

/-!
# The decoder inverts every encoder

An input of two bytes or more starts with a chunk, or with a run byte that promises more
bytes than there are.  A chunk is expanded or refused, and a chunk that passes the check has
room in the output.
-/

namespace OpenWrt.RouterBoot

open Lib List

variable {w : SizeT} {capacity total extra : Nat} {s : Rle} {c : Chunk} {cs : List Chunk}
variable {n k : Nat} {input rest : List UInt8} {byte b : UInt8}

/-! ## Chunks -/

theorem Chunk.expand_le (c : Chunk) : c.expand.length ≤ 128 := by
  cases c with
  | run n byte small =>
    rw [Chunk.expand, length_replicate]
    omega
  | verbatim bytes some few => exact few

theorem Chunk.two_le (c : Chunk) : 2 ≤ c.encode.length := by
  cases c with
  | run n byte small => exact le_refl 2
  | verbatim bytes some few =>
    have := length_pos_iff.mpr some
    rw [Chunk.encode, length_cons]
    omega

theorem Chunk.expand_le_encode (c : Chunk) : c.expand.length ≤ 64 * c.encode.length := by
  cases c with
  | run n byte small =>
    rw [Chunk.expand, Chunk.encode, length_replicate, length_cons, length_singleton]
    omega
  | verbatim bytes some few =>
    rw [Chunk.expand, Chunk.encode, length_cons]
    omega

theorem toNat_ofNat_small (h : n < 256) : (UInt8.ofNat n).toNat = n := by
  rw [UInt8.toNat_ofNat']
  omega

theorem chunk_or_short (h : 2 ≤ input.length) :
    (∃ c rest, input = Chunk.encode c ++ rest) ∨
      ∃ b rest, input = b :: rest ∧ 128 ≤ b.toNat ∧ rest.length < 256 - b.toNat := by
  obtain ⟨b, input, rfl⟩ := exists_cons_of_length_pos (lt_of_lt_of_le Nat.two_pos h)
  have hb := b.toNat_lt
  rw [length_cons] at h
  by_cases hrun : 128 ≤ b.toNat
  · by_cases hlen : input.length < 256 - b.toNat
    · exact .inr ⟨b, input, rfl, hrun, hlen⟩
    left
    have htake : (input.take (256 - b.toNat)).length = 256 - b.toNat := by
      rw [length_take]
      omega
    refine ⟨.verbatim (input.take (256 - b.toNat)) ?_ (by omega),
      input.drop (256 - b.toNat), ?_⟩
    · apply ne_nil_of_length_pos
      omega
    · have hbyte : UInt8.ofNat (256 - (256 - b.toNat)) = b := by
        apply UInt8.toNat_inj.mp
        rw [toNat_ofNat_small (by omega)]
        omega
      rw [Chunk.encode, htake, hbyte, cons_append, take_append_drop]
  · left
    obtain ⟨byte, input, rfl⟩ := exists_cons_of_length_pos (show 0 < input.length by omega)
    refine ⟨.run b.toNat byte (by omega), input, ?_⟩
    have hbyte : UInt8.ofNat b.toNat = b := by
      apply UInt8.toNat_inj.mp
      exact toNat_ofNat_small (by omega)
    rw [Chunk.encode, hbyte]
    rfl

/-! ## The inner loops -/

theorem copyLoop_eq {bytes : List UInt8} (hrest : s.rest = bytes ++ rest)
    (hroom : s.out.length + bytes.length ≤ capacity) :
    copyLoop capacity bytes.length s = .ok { s with rest := rest, out := s.out ++ bytes } := by
  induction bytes generalizing s with
  | nil =>
    rw [nil_append] at hrest
    rw [append_nil, ← hrest]
    rfl
  | cons b bytes ih =>
    rw [length_cons] at hroom
    have hnext : s.next = .ok (b, { s with rest := bytes ++ rest }) := by
      rw [Rle.next, hrest]
      rfl
    have hput : ({ s with rest := bytes ++ rest } : Rle).put capacity b =
        .ok { s with rest := bytes ++ rest, out := s.out ++ [b] } :=
      if_pos (show s.out.length < capacity by omega)
    have hrec : copyLoop capacity bytes.length
        { s with rest := bytes ++ rest, out := s.out ++ [b] } =
        .ok { s with rest := rest, out := s.out ++ [b] ++ bytes } :=
      ih rfl (by rw [length_append, length_singleton]; omega)
    rw [append_assoc] at hrec
    rw [length_cons, copyLoop, hnext]
    exact (congrArg (fun r => r >>= copyLoop capacity bytes.length) hput).trans hrec

theorem fillLoop_eq (hroom : s.out.length + n ≤ capacity) :
    fillLoop capacity byte n s = .ok { s with out := s.out ++ replicate n byte } := by
  induction n generalizing s with
  | zero =>
    rw [replicate_zero, append_nil]
    rfl
  | succ n ih =>
    have hput : s.put capacity byte = .ok { s with out := s.out ++ [byte] } :=
      if_pos (show s.out.length < capacity by omega)
    have hrec : fillLoop capacity byte n { s with out := s.out ++ [byte] } =
        .ok { s with out := s.out ++ [byte] ++ replicate n byte } :=
      ih (by rw [length_append, length_singleton]; omega)
    rw [append_assoc] at hrec
    rw [fillLoop, hput]
    exact hrec

/-! ## The check of the output -/

/-- The state between two chunks of an input of `total` bytes, with an `inlen` of `extra` bytes
more. -/
structure Between (w : SizeT) (capacity total extra : Nat) (s : Rle) : Prop where
  inlen : s.inlen = s.rest.length + extra
  nbytes : s.nbytes = wrapInt s.out.length
  room : s.out.length ≤ capacity
  small : s.out.length + 64 * s.rest.length ≤ 64 * total
  /-- A negative `nbytes` only passes the check for an output as large as the memory. -/
  wide : w = .bits64 → s.out.length < 2147483648 ∨ 18446744071562067968 ≤ capacity

theorem room_of_check (hmem : total + capacity ≤ w.values) (hk : k ≤ 128)
    (hn : n ≤ capacity) (hsmall : n + k ≤ 64 * total)
    (hwide : w = .bits64 → n < 2147483648 ∨ 18446744071562067968 ≤ capacity)
    (hcheck : w.ofInt (wrapInt (n + k : Nat)) ≤ capacity) :
    n + k ≤ capacity ∧
      (w = .bits64 → n + k < 2147483648 ∨ 18446744071562067968 ≤ capacity) := by
  cases w with
  | bits32 =>
    rw [ofInt_wrapInt_bits32] at hcheck
    rw [SizeT.values] at hmem
    exact ⟨by omega, fun h => by cases h⟩
  | bits64 =>
    have hwide := hwide rfl
    rw [SizeT.values] at hmem
    by_cases hpos : n + k < 2147483648
    · rw [ofInt_wrapInt_bits64_pos (by omega)] at hcheck
      exact ⟨by omega, fun _ => .inl hpos⟩
    have hlarge : 18446744071562067968 ≤ capacity := by
      rcases hwide with hlt | hlarge
      · rw [ofInt_wrapInt_bits64_neg (by omega)] at hcheck
        omega
      · exact hlarge
    exact ⟨by omega, fun _ => .inr hlarge⟩

def Rle.after (s : Rle) (c : Chunk) (rest : List UInt8) (extra : Nat) : Rle :=
  ⟨rest, rest.length + extra, wrapInt (s.out.length + c.expand.length : Nat), s.out ++ c.expand⟩

theorem Between.after (h : Between w capacity total extra s) (hmem : total + capacity ≤ w.values)
    (hrest : s.rest = c.encode ++ rest)
    (hcheck : w.ofInt (wrapInt (s.out.length + c.expand.length : Nat)) ≤ capacity) :
    Between w capacity total extra (s.after c rest extra) := by
  have hsmall := h.small
  have hexpand := c.expand_le_encode
  rw [hrest, length_append] at hsmall
  obtain ⟨hroom, hwide⟩ := room_of_check hmem c.expand_le h.room (by omega) h.wide hcheck
  refine ⟨rfl, ?_, ?_, ?_, ?_⟩ <;> rw [Rle.after] <;> dsimp only <;> rw [length_append]
  · exact hroom
  · omega
  · exact hwide

/-! ## One round -/

theorem Rle.next_cons (h : s.rest = b :: rest) : s.next = .ok (b, { s with rest := rest }) := by
  rw [Rle.next, h]

theorem rleRound_eq (h : s.rest = b :: rest) :
    rleRound w capacity s =
      if 128 ≤ b.toNat then copyRun w capacity (256 - b.toNat) { s with rest := rest }
      else fillRun w capacity b.toNat { s with rest := rest } := by
  rw [rleRound, Rle.next_cons h]
  rfl

theorem fillRun_long (h : s.rest = byte :: rest)
    (hlong : (({ s with rest := rest } : Rle).count 2 k).tooLong w capacity) :
    ∃ s', fillRun w capacity k s = .ok (false, s') := by
  refine ⟨({ s with rest := rest } : Rle).count 2 k, ?_⟩
  rw [fillRun, Rle.next_cons h]
  exact if_pos hlong

theorem fillRun_eq (h : s.rest = byte :: rest)
    (hlong : ¬(({ s with rest := rest } : Rle).count 2 k).tooLong w capacity)
    (hroom : s.out.length + k ≤ capacity) :
    fillRun w capacity k s = .ok (true,
      ⟨rest, s.inlen - 2, wrapInt (s.nbytes + k), s.out ++ replicate k byte⟩) := by
  have hfill : fillLoop capacity byte k (({ s with rest := rest } : Rle).count 2 k) =
      .ok ⟨rest, s.inlen - 2, wrapInt (s.nbytes + k), s.out ++ replicate k byte⟩ :=
    fillLoop_eq hroom
  rw [fillRun, Rle.next_cons h]
  refine (if_neg hlong).trans ?_
  rw [hfill]
  rfl

theorem copyRun_long (hlen : k ≤ s.inlen - 1) (hlong : (s.count (1 + k) k).tooLong w capacity) :
    ∃ s', copyRun w capacity k s = .ok (false, s') := by
  refine ⟨s.count (1 + k) k, ?_⟩
  rw [copyRun, if_neg (not_lt.mpr hlen), if_pos hlong]

theorem copyRun_eq {bytes : List UInt8} (h : s.rest = bytes ++ rest)
    (hlen : bytes.length ≤ s.inlen - 1)
    (hlong : ¬(s.count (1 + bytes.length) bytes.length).tooLong w capacity)
    (hroom : s.out.length + bytes.length ≤ capacity) :
    copyRun w capacity bytes.length s = .ok (true,
      ⟨rest, s.inlen - (1 + bytes.length), wrapInt (s.nbytes + bytes.length),
        s.out ++ bytes⟩) := by
  have hcopy : copyLoop capacity bytes.length (s.count (1 + bytes.length) bytes.length) =
      .ok ⟨rest, s.inlen - (1 + bytes.length), wrapInt (s.nbytes + bytes.length),
        s.out ++ bytes⟩ := copyLoop_eq h hroom
  rw [copyRun, if_neg (not_lt.mpr hlen), if_neg hlong, hcopy]
  rfl

theorem Between.wrapInt_add (h : Between w capacity total extra s) (k : Nat) :
    wrapInt (s.nbytes + k) = wrapInt (s.out.length + k : Nat) := by
  rw [h.nbytes, Lib.wrapInt_add, Nat.cast_add]

theorem rleRound_chunk (h : Between w capacity total extra s) (hmem : total + capacity ≤ w.values)
    (hrest : s.rest = c.encode ++ rest) :
    (∃ s', rleRound w capacity s = .ok (false, s')) ∧
        capacity < w.ofInt (wrapInt (s.out.length + c.expand.length : Nat)) ∨
      rleRound w capacity s = .ok (true, s.after c rest extra) ∧
        w.ofInt (wrapInt (s.out.length + c.expand.length : Nat)) ≤ capacity := by
  have hlen : s.inlen = c.encode.length + rest.length + extra := by
    rw [h.inlen, hrest, length_append]
  have hwrap := h.wrapInt_add c.expand.length
  have hafter := h.after hmem hrest
  cases c with
  | run k byte small =>
    have hsize : (Chunk.run k byte small).expand.length = k := length_replicate
    have hk : (UInt8.ofNat k).toNat = k := toNat_ofNat_small (by omega)
    have hinlen : s.inlen - 2 = rest.length + extra := by
      rw [hlen, Chunk.encode, length_cons, length_singleton]
      omega
    rw [hsize] at hwrap
    rw [rleRound_eq hrest, hk, if_neg (not_le.mpr (Nat.lt_succ_of_le small)), hsize, ← hwrap]
    rcases lt_or_ge capacity (w.ofInt (wrapInt (s.nbytes + k))) with hlong | hcheck
    · exact .inl ⟨fillRun_long rfl hlong, hlong⟩
    · have hroom := (hafter (by rw [hsize, ← hwrap]; exact hcheck)).room
      rw [Rle.after, length_append, hsize] at hroom
      have hfill := fillRun_eq (s := { s with rest := byte :: rest }) rfl (not_lt.mpr hcheck) hroom
      rw [Rle.after, hsize, ← hwrap, ← hinlen]
      exact .inr ⟨hfill, hcheck⟩
  | verbatim bytes some few =>
    have hsize : (Chunk.verbatim bytes some few).expand.length = bytes.length := rfl
    have hpos := length_pos_iff.mpr some
    have hk : (UInt8.ofNat (256 - bytes.length)).toNat = 256 - bytes.length :=
      toNat_ofNat_small (by omega)
    have hlarge : 128 ≤ 256 - bytes.length := by omega
    have hrun : 256 - (256 - bytes.length) = bytes.length := by omega
    rw [Chunk.encode, length_cons] at hlen
    have hinlen : s.inlen - (1 + bytes.length) = rest.length + extra := by omega
    have hle : bytes.length ≤ s.inlen - 1 := by omega
    rw [hsize] at hwrap
    rw [rleRound_eq hrest, hk, if_pos hlarge, hrun, hsize, ← hwrap]
    rcases lt_or_ge capacity (w.ofInt (wrapInt (s.nbytes + bytes.length))) with
      hlong | hcheck
    · exact .inl ⟨copyRun_long hle hlong, hlong⟩
    have hroom := (hafter (by rw [hsize, ← hwrap]; exact hcheck)).room
    rw [Rle.after, length_append] at hroom
    have hcopy := copyRun_eq (s := { s with rest := bytes ++ rest }) rfl hle
      (not_lt.mpr hcheck) hroom
    rw [Rle.after, hsize, ← hwrap, ← hinlen]
    exact .inr ⟨hcopy, hcheck⟩

theorem rleRound_short (h : Between w capacity total 0 s)
    (hrest : s.rest = b :: rest) (hrun : 128 ≤ b.toNat) (hshort : rest.length < 256 - b.toNat) :
    ∃ s', rleRound w capacity s = .ok (false, s') := by
  have hinlen : s.inlen - 1 < 256 - b.toNat := by
    rw [h.inlen, hrest, length_cons]
    omega
  refine ⟨({ s with rest := rest } : Rle).count 1 0, ?_⟩
  rw [rleRound_eq hrest, if_pos hrun]
  exact if_pos hinlen

/-! ## The whole input -/

theorem rleLoop_end (h : s.inlen < 2) : rleLoop w capacity n s = .ok (0, s) := by
  cases n with
  | zero => rfl
  | succ n => exact if_pos h

theorem rleLoop_go {s' : Rle} (hlen : 2 ≤ s.inlen) (h : rleRound w capacity s = .ok (true, s')) :
    rleLoop w capacity (n + 1) s = rleLoop w capacity n s' := by
  rw [rleLoop, if_neg (not_lt.mpr hlen), h]
  rfl

theorem rleLoop_fail {s' : Rle} (hlen : 2 ≤ s.inlen) (h : rleRound w capacity s = .ok (false, s')) :
    rleLoop w capacity (n + 1) s = .ok (- ENOSPC, s') := by
  rw [rleLoop, if_neg (not_lt.mpr hlen), h]
  rfl

theorem rleLoop_ok (h : Between w capacity total 0 s)
    (hmem : total + capacity ≤ w.values) : ∃ r, rleLoop w capacity n s = .ok r := by
  induction n generalizing s with
  | zero => exact ⟨_, rfl⟩
  | succ n ih =>
    by_cases hlen : s.inlen < 2
    · exact ⟨_, rleLoop_end hlen⟩
    have hlen := not_lt.mp hlen
    rcases chunk_or_short (h.inlen ▸ hlen) with ⟨c, rest, hrest⟩ | ⟨b, rest, hrest, hrun, hshort⟩
    · rcases rleRound_chunk h hmem hrest with ⟨⟨s', hfail⟩, -⟩ | ⟨hgo, hcheck⟩
      · exact ⟨_, rleLoop_fail hlen hfail⟩
      · rw [rleLoop_go hlen hgo]
        exact ih (h.after hmem hrest hcheck)
    · obtain ⟨s', hfail⟩ := rleRound_short h hrest hrun hshort
      exact ⟨_, rleLoop_fail hlen hfail⟩

theorem ofInt_wrapInt_of_not_overflows (hn : n < w.values) (h : ¬Overflows w n) :
    w.ofInt (wrapInt n) = n := by
  cases w with
  | bits32 =>
    rw [SizeT.values] at hn
    rw [ofInt_wrapInt_bits32, Nat.mod_eq_of_lt hn]
  | bits64 =>
    have hint : n < 2147483648 := not_le.mp fun hle => h ⟨rfl, hle⟩
    rw [ofInt_wrapInt_bits64_pos (by omega)]
    omega

theorem rleLoop_chunks (h : Between w capacity total 0 s)
    (hmem : total + capacity ≤ w.values) (hcap : capacity < w.values)
    (hrest : s.rest = encode cs) (hn : s.rest.length ≤ n) :
    (∃ s', rleLoop w capacity n s = .ok (0, s') ∧ s'.out = s.out ++ expand cs ∧
        Between w capacity total 0 s') ∨
      (∃ s', rleLoop w capacity n s = .ok (- ENOSPC, s')) ∧
        (s.out.length + (expand cs).length ≤ capacity →
          Overflows w (s.out.length + (expand cs).length)) := by
  induction cs generalizing n s with
  | nil =>
    have hlen : s.inlen < 2 := by
      rw [h.inlen, hrest]
      exact Nat.two_pos
    exact .inl ⟨s, rleLoop_end hlen, (append_nil _).symm, h⟩
  | cons c cs ih =>
    have hcons : s.rest = c.encode ++ encode cs := hrest
    have htwo := c.two_le
    have hlen : s.rest.length = c.encode.length + (encode cs).length := by
      rw [hcons, length_append]
    have hinlen : 2 ≤ s.inlen := by
      rw [h.inlen]
      omega
    have hsum : (expand (c :: cs)).length = c.expand.length + (expand cs).length :=
      length_append
    obtain ⟨n, rfl⟩ : ∃ m, n = m + 1 := ⟨n - 1, by omega⟩
    rcases rleRound_chunk h hmem hcons with ⟨⟨s', hfail⟩, hlong⟩ | ⟨hgo, hcheck⟩
    · refine .inr ⟨⟨s', rleLoop_fail hinlen hfail⟩, ?_⟩
      intro hroom
      by_contra hfits
      have hsmall : ¬Overflows w (s.out.length + c.expand.length) :=
        fun hover => hfits ⟨hover.1, by have := hover.2; omega⟩
      rw [ofInt_wrapInt_of_not_overflows (by omega) hsmall] at hlong
      omega
    · rw [rleLoop_go hinlen hgo]
      have hout : s.out ++ expand (c :: cs) = (s.after c (encode cs) 0).out ++ expand cs :=
        (append_assoc ..).symm
      have hcount : s.out.length + (expand (c :: cs)).length =
          (s.after c (encode cs) 0).out.length + (expand cs).length := by
        rw [← length_append, ← length_append, hout]
      rw [hout, hcount]
      exact ih (h.after hmem hcons hcheck) rfl (show (encode cs).length ≤ n by omega)

/-! ## The decoder -/

theorem encode_length {cs : List Chunk} (h : cs ≠ []) : 2 ≤ (encode cs).length := by
  cases cs with
  | nil => exact absurd rfl h
  | cons c cs =>
    have htwo := c.two_le
    have hlen : (encode (c :: cs)).length = c.encode.length + (encode cs).length :=
      length_append
    omega

theorem expand_le_encode (cs : List Chunk) : (expand cs).length ≤ 64 * (encode cs).length := by
  induction cs with
  | nil => exact le_refl 0
  | cons c cs ih =>
    have hc := c.expand_le_encode
    have hexpand : (expand (c :: cs)).length = c.expand.length + (expand cs).length :=
      length_append
    have hencode : (encode (c :: cs)).length = c.encode.length + (encode cs).length :=
      length_append
    omega

theorem between_start (input : List UInt8) :
    Between w capacity input.length extra ⟨input, input.length + extra, 0, []⟩ where
  inlen := rfl
  nbytes := show 0 = wrapInt 0 by decide
  room := Nat.zero_le capacity
  small := Nat.le_of_eq (Nat.zero_add _)
  wide := fun _ => .inl (show 0 < 2147483648 by decide)

theorem rleDecode_eq (h : 2 ≤ input.length) {ret : Int}
    (hloop : rleLoop w capacity input.length ⟨input, input.length, 0, []⟩ = .ok (ret, s)) :
    rleDecode w input capacity = .ok (ret, w.ofInt s.nbytes, s.out) := by
  rw [rleDecode, rleDecodeFrom, if_neg (not_lt.mpr h), hloop]
  rfl

theorem rleDecode_safe (hmem : InMemory w input capacity) : Safe w input capacity := by
  intro hover
  by_cases hlen : input.length < 2
  · rw [rleDecode, rleDecodeFrom, if_pos hlen] at hover
    cases hover
  · obtain ⟨⟨ret, s⟩, hloop⟩ :=
      rleLoop_ok (n := input.length) (w := w) (between_start input) hmem
    rw [rleDecode_eq (not_lt.mp hlen) hloop] at hover
    cases hover

theorem rleDecode_chunks (hcs : cs ≠ []) (hmem : InMemory w (encode cs) capacity) :
    (expand cs).length ≤ capacity ∧ rleDecode w (encode cs) capacity =
        .ok (0, w.ofInt (wrapInt (expand cs).length), expand cs) ∨
      (∃ outlen out, rleDecode w (encode cs) capacity = .ok (- ENOSPC, outlen, out)) ∧
        ((expand cs).length ≤ capacity → Overflows w (expand cs).length) := by
  have hlen := encode_length hcs
  have hcap : capacity < w.values := by
    rw [InMemory] at hmem
    omega
  rcases rleLoop_chunks (w := w) (between_start (encode cs)) hmem hcap rfl le_rfl with
    ⟨s, hok, hout, hs⟩ | ⟨⟨s, hfail⟩, hfits⟩
  · have hout : s.out = expand cs := hout
    have hnbytes := hs.nbytes
    refine .inl ⟨hout ▸ hs.room, ?_⟩
    rw [rleDecode_eq hlen hok, hnbytes, hout]
  · have hout : ([] : List UInt8).length + (expand cs).length = (expand cs).length :=
      zero_add _
    rw [hout] at hfits
    exact .inr ⟨⟨_, _, rleDecode_eq hlen hfail⟩, hfits⟩

theorem decodes_of_fits (hcs : cs ≠ []) (hmem : InMemory w (encode cs) capacity)
    (h : (expand cs).length ≤ capacity → ¬Overflows w (expand cs).length) :
    Decodes w cs capacity := by
  have hlen := encode_length hcs
  rw [Decodes]
  rcases rleDecode_chunks hcs hmem with ⟨hroom, hok⟩ | ⟨hfail, hover⟩
  · rw [if_pos hroom, hok]
    rw [InMemory] at hmem
    rw [ofInt_wrapInt_of_not_overflows (by omega) (h hroom)]
  · rw [if_neg (fun hroom => h hroom (hover hroom))]
    exact hfail

/-- A count that overflows is not what `nbytes` is in the end. -/
theorem ofInt_wrapInt_overflows (h : Overflows w n) (hn : n ≤ 64 * k)
    (hmem : k + n ≤ w.values) : w.ofInt (wrapInt n) ≠ n := by
  obtain ⟨rfl, hlarge⟩ := h
  rw [SizeT.values] at hmem
  by_cases hpos : n % 4294967296 < 2147483648
  · rw [ofInt_wrapInt_bits64_pos hpos]
    omega
  · rw [ofInt_wrapInt_bits64_neg (not_lt.mp hpos)]
    omega

theorem not_decodes_of_overflows (hcs : cs ≠ []) (hmem : InMemory w (encode cs) capacity)
    (hroom : (expand cs).length ≤ capacity) (hover : Overflows w (expand cs).length) :
    ¬Decodes w cs capacity := by
  rw [Decodes, if_pos hroom]
  intro hdecode
  rcases rleDecode_chunks hcs hmem with ⟨-, hok⟩ | ⟨⟨outlen, out, hfail⟩, -⟩
  · rw [hok] at hdecode
    have hlen : w.ofInt (wrapInt (expand cs).length) = (expand cs).length :=
      (Prod.mk.inj (Prod.mk.inj (Except.ok.inj hdecode)).2).1
    rw [InMemory] at hmem
    exact ofInt_wrapInt_overflows hover (expand_le_encode cs) (by omega) hlen
  · rw [hfail] at hdecode
    have hret : - ENOSPC = 0 := congrArg Prod.fst (Except.ok.inj hdecode)
    exact absurd hret (by decide)

/-- Every access is inside the buffers, whatever the input; and chunks are decoded, unless
their expansion fits the output and has more bytes than an `int` can count, on a machine with
a `size_t` of 64 bits. -/
theorem rle_decode_iff (w : SizeT) (capacity : Nat) :
    (∀ input, InMemory w input capacity → Safe w input capacity) ∧
      ∀ cs, cs ≠ [] → InMemory w (encode cs) capacity →
        (Decodes w cs capacity ↔
          ((expand cs).length ≤ capacity → ¬Overflows w (expand cs).length)) := by
  refine ⟨fun input hmem => rleDecode_safe hmem, ?_⟩
  intro cs hcs hmem
  constructor
  · intro hdecode hroom hover
    exact not_decodes_of_overflows hcs hmem hroom hover hdecode
  · exact decodes_of_fits hcs hmem

def fullChunk : Chunk :=
  .verbatim (replicate 128 0) (cons_ne_nil _ _) (le_of_eq length_replicate)

theorem fullChunk_expand : fullChunk.expand.length = 128 := length_replicate

theorem fullChunk_encode : fullChunk.encode.length = 129 :=
  congrArg (· + 1) length_replicate

/-- Verbatim copies of 2 GiB, with an output of that size. -/
theorem not_decodes_two_gib :
    ¬Decodes .bits64 (replicate 16777216 fullChunk) 2147483648 := by
  have hexpand : (expand (replicate 16777216 fullChunk)).length = 2147483648 := by
    rw [expand, length_flatMap, map_replicate, sum_replicate_nat, fullChunk_expand]
  have hencode : (encode (replicate 16777216 fullChunk)).length = 2164260864 := by
    rw [encode, length_flatMap, map_replicate, sum_replicate_nat, fullChunk_encode]
  apply not_decodes_of_overflows
  · intro hnil
    rw [hnil] at hexpand
    exact absurd hexpand (by decide)
  · rw [InMemory, hencode]
    decide
  · exact le_of_eq hexpand
  · exact ⟨rfl, le_of_eq hexpand.symm⟩

end OpenWrt.RouterBoot
