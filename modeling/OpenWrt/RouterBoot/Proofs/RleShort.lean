import OpenWrt.RouterBoot.Proofs.Rle

/-!
# The decoder on an input that is too short

With an `inlen` that is larger than the input the decoder reads behind the input exactly if it
gets to the last chunk and the input ends in it.
-/

namespace OpenWrt.RouterBoot

open Lib List

variable {w : SizeT} {capacity total extra inlen room : Nat} {s : Rle} {c : Chunk}
  {cs : List Chunk} {input rest : List UInt8}

/-! ## Chunks at the start of an input -/

def bodyLen (b : UInt8) : Nat := if 128 ≤ b.toNat then 256 - b.toNat else 1

def expandBody (b : UInt8) (body : List UInt8) : List UInt8 :=
  if 128 ≤ b.toNat then body else replicate b.toNat (body.headD 0)

theorem Chunk.encode_eq (c : Chunk) :
    ∃ b body, c.encode = b :: body ∧ body.length = bodyLen b ∧ c.expand = expandBody b body := by
  cases c with
  | run n byte small =>
    have hn : (UInt8.ofNat n).toNat = n := toNat_ofNat_small (by omega)
    have hsmall : ¬128 ≤ (UInt8.ofNat n).toNat := by omega
    refine ⟨_, _, rfl, ?_, ?_⟩
    · rw [bodyLen, if_neg hsmall]
      rfl
    · rw [expandBody, if_neg hsmall, hn]
      rfl
  | verbatim bytes some few =>
    have hpos := length_pos_iff.mpr some
    have hn : (UInt8.ofNat (256 - bytes.length)).toNat = 256 - bytes.length :=
      toNat_ofNat_small (by omega)
    have hlarge : 128 ≤ (UInt8.ofNat (256 - bytes.length)).toNat := by omega
    refine ⟨_, _, rfl, ?_, ?_⟩
    · rw [bodyLen, if_pos hlarge]
      omega
    · rw [expandBody, if_pos hlarge]
      rfl

theorem Chunk.encode_append_inj {c' : Chunk} {rest' : List UInt8}
    (h : c.encode ++ rest = c'.encode ++ rest') :
    c.encode = c'.encode ∧ c.expand = c'.expand ∧ rest = rest' := by
  obtain ⟨b, body, hencode, hlen, hexpand⟩ := c.encode_eq
  obtain ⟨b', body', hencode', hlen', hexpand'⟩ := c'.encode_eq
  rw [hencode, hencode'] at h
  obtain ⟨rfl, htail⟩ := cons.inj h
  obtain ⟨rfl, rfl⟩ := append_inj htail (hlen.trans hlen'.symm)
  exact ⟨hencode.trans hencode'.symm, hexpand.trans hexpand'.symm, rfl⟩

theorem not_leaves_chunk : ¬Leaves (c.encode ++ rest) inlen room := by
  obtain ⟨b, body, hencode, hlen, -⟩ := c.encode_eq
  rw [hencode, cons_append]
  rintro ⟨-, hnil | ⟨b', hb, hsmall⟩ | ⟨b', bytes, hb, hlarge, hshort, -⟩⟩
  · cases hnil
  · obtain ⟨rfl, htail⟩ := cons.inj hb
    rw [bodyLen, if_neg (by omega)] at hlen
    rw [(append_eq_nil_iff.mp htail).1] at hlen
    cases hlen
  · obtain ⟨rfl, rfl⟩ := cons.inj hb
    rw [bodyLen, if_pos hlarge] at hlen
    rw [length_append] at hshort
    omega

theorem runsOver_chunk (c : Chunk) (rest : List UInt8) (inlen capacity : Nat) :
    RunsOver (c.encode ++ rest) inlen capacity ↔ c.expand.length ≤ capacity ∧
      RunsOver rest (inlen - c.encode.length) (capacity - c.expand.length) := by
  constructor
  · rintro ⟨cs, tail, hinput, hroom, hleaves⟩
    cases cs with
    | nil =>
      rw [encode, flatMap_nil, nil_append] at hinput
      rw [← hinput] at hleaves
      exact absurd hleaves not_leaves_chunk
    | cons c' cs =>
      have hencode : encode (c' :: cs) = c'.encode ++ encode cs := rfl
      have hexpand : expand (c' :: cs) = c'.expand ++ expand cs := rfl
      rw [hencode, append_assoc] at hinput
      obtain ⟨hc, hsame, hrest⟩ := Chunk.encode_append_inj hinput
      rw [hexpand, length_append, ← hsame] at hroom
      rw [hencode, hexpand, length_append, length_append, ← hsame, ← hc,
        Nat.sub_add_eq, Nat.sub_add_eq] at hleaves
      exact ⟨by omega, cs, tail, hrest, by omega, hleaves⟩
  · rintro ⟨hc, cs, tail, hrest, hroom, hleaves⟩
    have hencode : encode (c :: cs) = c.encode ++ encode cs := rfl
    have hexpand : expand (c :: cs) = c.expand ++ expand cs := rfl
    refine ⟨c :: cs, tail, ?_, ?_, ?_⟩
    · rw [hencode, append_assoc, ← hrest]
    · rw [hexpand, length_append]
      omega
    · rw [hencode, hexpand, length_append, length_append, Nat.sub_add_eq, Nat.sub_add_eq]
      exact hleaves

theorem runsOver_no_chunk (h : ∀ c rest, input ≠ Chunk.encode c ++ rest) :
    RunsOver input inlen capacity ↔ Leaves input inlen capacity := by
  constructor
  · rintro ⟨cs, tail, hinput, -, hleaves⟩
    cases cs with
    | nil =>
      rw [hinput]
      exact hleaves
    | cons c cs =>
      have hencode : encode (c :: cs) = c.encode ++ encode cs := rfl
      rw [hencode, append_assoc] at hinput
      exact absurd hinput (h c _)
  · intro hleaves
    exact ⟨[], input, rfl, Nat.zero_le capacity, hleaves⟩

theorem not_runsOver_of_lt (h : inlen < 2) : ¬RunsOver input inlen capacity := by
  rintro ⟨cs, tail, -, -, hlen, -⟩
  omega

/-! ## One round -/

theorem copyLoop_short {run : Nat} (hshort : s.rest.length < run)
    (hroom : s.out.length + run ≤ capacity) : copyLoop capacity run s = .error .overrun := by
  induction run generalizing s with
  | zero => exact absurd hshort (Nat.not_lt_zero _)
  | succ run ih =>
    rw [copyLoop]
    cases hrest : s.rest with
    | nil =>
      rw [Rle.next, hrest]
      rfl
    | cons b rest =>
      have hput : ({ s with rest := rest } : Rle).put capacity b =
          .ok { s with rest := rest, out := s.out ++ [b] } :=
        if_pos (show s.out.length < capacity by omega)
      rw [hrest, length_cons] at hshort
      have hrec := ih (s := { s with rest := rest, out := s.out ++ [b] })
        (show rest.length < run by omega)
        (by rw [length_append, length_singleton]; omega)
      rw [Rle.next_cons hrest]
      exact (congrArg (fun r => r >>= copyLoop capacity run) hput).trans hrec

theorem rleRound_copy {b : UInt8} {bytes : List UInt8} (h : s.rest = b :: bytes)
    (hb : 128 ≤ b.toNat) (hshort : bytes.length < 256 - b.toNat)
    (hroom : w.ofInt (wrapInt (s.nbytes + (256 - b.toNat : Nat))) ≤ capacity ↔
      s.out.length + (256 - b.toNat) ≤ capacity) :
    rleRound w capacity s = .error .overrun ∧ 256 - b.toNat ≤ s.inlen - 1 ∧
        s.out.length + (256 - b.toNat) ≤ capacity ∨
      (∃ s', rleRound w capacity s = .ok (false, s')) ∧
        ¬(256 - b.toNat ≤ s.inlen - 1 ∧ s.out.length + (256 - b.toNat) ≤ capacity) := by
  rw [rleRound_eq h, if_pos hb, copyRun]
  by_cases hlen : s.inlen - 1 < 256 - b.toNat
  · rw [if_pos hlen]
    exact .inr ⟨⟨_, rfl⟩, fun hfits => by omega⟩
  rw [if_neg hlen]
  by_cases hlong : (({ s with rest := bytes } : Rle).count (1 + (256 - b.toNat))
      (256 - b.toNat)).tooLong w capacity
  · rw [if_pos hlong]
    exact .inr ⟨⟨_, rfl⟩, fun hfits => not_le.mpr hlong (hroom.mpr hfits.2)⟩
  have hspace := hroom.mp (not_lt.mp hlong)
  have hcopy : copyLoop capacity (256 - b.toNat)
      (({ s with rest := bytes } : Rle).count (1 + (256 - b.toNat)) (256 - b.toNat)) =
      .error .overrun := copyLoop_short hshort hspace
  rw [if_neg hlong, hcopy]
  exact .inl ⟨rfl, by omega, hspace⟩

/-! ## The whole input -/

theorem check_iff {n : Nat} (hcap : capacity < 2147483648) (hn : n ≤ capacity + 128) :
    w.ofInt (wrapInt n) ≤ capacity ↔ n ≤ capacity := by
  cases w with
  | bits32 =>
    rw [ofInt_wrapInt_bits32]
    omega
  | bits64 =>
    by_cases hpos : n < 2147483648
    · rw [ofInt_wrapInt_bits64_pos (by omega)]
      omega
    · rw [ofInt_wrapInt_bits64_neg (by omega)]
      omega

theorem rleLoop_error {n : Nat} (hlen : 2 ≤ s.inlen)
    (h : rleRound w capacity s = .error .overrun) :
    rleLoop w capacity (n + 1) s = .error .overrun := by
  rw [rleLoop, if_neg (not_lt.mpr hlen), h]
  rfl

theorem rleLoop_ne_error {n : Nat} {s' : Rle} (hlen : 2 ≤ s.inlen)
    (h : rleRound w capacity s = .ok (false, s')) :
    rleLoop w capacity (n + 1) s ≠ .error .overrun := by
  intro hover
  rw [rleLoop_fail hlen h] at hover
  cases hover

theorem rleLoop_no_chunk {n : Nat} (h : Between w capacity total extra s)
    (hcap : capacity < 2147483648) (hlen : 2 ≤ s.inlen)
    (hchunk : ∀ c rest, s.rest ≠ Chunk.encode c ++ rest) :
    rleLoop w capacity (n + 1) s = .error .overrun ↔
      Leaves s.rest s.inlen (capacity - s.out.length) := by
  have hroom := h.room
  cases hrest : s.rest with
  | nil =>
    refine ⟨fun _ => ⟨hlen, .inl rfl⟩, fun _ => rleLoop_error hlen ?_⟩
    rw [rleRound, Rle.next, hrest]
    rfl
  | cons b bytes =>
    have hbyte := b.toNat_lt
    -- two bytes without a chunk are the start of a copy
    have hstart : 1 ≤ bytes.length → 128 ≤ b.toNat ∧ bytes.length < 256 - b.toNat := by
      intro hbytes
      have htwo : 2 ≤ s.rest.length := by
        rw [hrest, length_cons]
        omega
      rcases chunk_or_short htwo with ⟨c, rest, hc⟩ | ⟨b', rest, hb, hlarge, hshort⟩
      · exact absurd hc (hchunk c rest)
      · obtain ⟨rfl, rfl⟩ := cons.inj (hrest.symm.trans hb)
        exact ⟨hlarge, hshort⟩
    by_cases hb : 128 ≤ b.toNat
    · have hshort : bytes.length < 256 - b.toNat := by
        rcases Nat.eq_zero_or_pos bytes.length with hnil | hpos
        · omega
        · exact (hstart hpos).2
      have hcheck := check_iff (w := w) (n := s.out.length + (256 - b.toNat)) hcap (by omega)
      rw [← h.wrapInt_add] at hcheck
      have hleaves : Leaves (b :: bytes) s.inlen (capacity - s.out.length) ↔
          256 - b.toNat ≤ s.inlen - 1 ∧ s.out.length + (256 - b.toNat) ≤ capacity := by
        constructor
        · rintro ⟨-, hnil | ⟨b', hb', hsmall⟩ | ⟨b', bytes', hb', -, -, hrun, hspace⟩⟩
          · cases hnil
          · obtain ⟨rfl, -⟩ := cons.inj hb'
            omega
          · obtain ⟨rfl, -⟩ := cons.inj hb'
            exact ⟨hrun, by omega⟩
        · rintro ⟨hrun, hspace⟩
          exact ⟨hlen, .inr (.inr ⟨b, bytes, rfl, hb, hshort, hrun, by omega⟩)⟩
      rw [hleaves]
      rcases rleRound_copy hrest hb hshort hcheck with ⟨herror, hfits⟩ | ⟨⟨s', hfail⟩, hfits⟩
      · exact ⟨fun _ => hfits, fun _ => rleLoop_error hlen herror⟩
      · exact ⟨fun hover => absurd hover (rleLoop_ne_error hlen hfail),
          fun hover => absurd hover hfits⟩
    · have hnil : bytes = [] := by
        apply eq_nil_of_length_eq_zero
        by_contra hpos
        exact hb (hstart (by omega)).1
      subst hnil
      have hb := not_le.mp hb
      exact ⟨fun _ => ⟨hlen, .inr (.inl ⟨b, rfl, hb⟩)⟩,
        fun _ => rleLoop_error hlen (by rw [rleRound_eq hrest, if_neg (not_le.mpr hb)]; rfl)⟩

theorem rleLoop_overrun_iff {n : Nat} (h : Between w capacity total extra s)
    (hmem : total + capacity ≤ w.values) (hcap : capacity < 2147483648) (hn : s.inlen ≤ n) :
    rleLoop w capacity n s = .error .overrun ↔
      RunsOver s.rest s.inlen (capacity - s.out.length) := by
  induction n generalizing s with
  | zero =>
    have hlen : s.inlen < 2 := by omega
    refine ⟨fun hover => ?_, fun hover => absurd hover (not_runsOver_of_lt hlen)⟩
    cases hover
  | succ n ih =>
    by_cases hlen : s.inlen < 2
    · rw [rleLoop_end hlen]
      refine ⟨fun hover => ?_, fun hover => absurd hover (not_runsOver_of_lt hlen)⟩
      cases hover
    have hlen := not_lt.mp hlen
    by_cases hchunk : ∃ c rest, s.rest = Chunk.encode c ++ rest
    · obtain ⟨c, rest, hrest⟩ := hchunk
      have hroom := h.room
      have htwo := c.two_le
      have hsize := c.expand_le
      have hcheck := check_iff (w := w) (n := s.out.length + c.expand.length) hcap (by omega)
      have hinlen : s.inlen - c.encode.length = rest.length + extra := by
        rw [h.inlen, hrest, length_append]
        omega
      rw [hrest, runsOver_chunk]
      rcases rleRound_chunk h hmem hrest with ⟨⟨s', hfail⟩, hlong⟩ | ⟨hgo, hpass⟩
      · refine ⟨fun hover => absurd hover (rleLoop_ne_error hlen hfail), ?_⟩
        rintro ⟨hspace, -⟩
        omega
      · have hrec := ih (h.after hmem hrest hpass) (show rest.length + extra ≤ n by omega)
        have hout : (s.after c rest extra).out.length = s.out.length + c.expand.length :=
          length_append
        rw [hout, Nat.sub_add_eq] at hrec
        rw [rleLoop_go hlen hgo, hrec, hinlen]
        exact ⟨fun hover => ⟨by omega, hover⟩, fun hover => hover.2⟩
    · have hchunk : ∀ c rest, s.rest ≠ Chunk.encode c ++ rest :=
        fun c rest hrest => hchunk ⟨c, rest, hrest⟩
      rw [runsOver_no_chunk hchunk]
      exact rleLoop_no_chunk h hcap hlen hchunk

theorem rleDecodeFrom_overrun_iff (hmem : input.length + capacity ≤ w.values)
    (hcap : capacity < 2147483648) :
    rleDecodeFrom w input (input.length + extra) capacity = .error .overrun ↔
      RunsOver input (input.length + extra) capacity := by
  rw [rleDecodeFrom]
  by_cases hlen : input.length + extra < 2
  · rw [if_pos hlen]
    refine ⟨fun hover => ?_, fun hover => absurd hover (not_runsOver_of_lt hlen)⟩
    cases hover
  rw [if_neg hlen]
  have hstart : Between w capacity input.length extra ⟨input, input.length + extra, 0, []⟩ :=
    between_start input
  have hloop : rleLoop w capacity (input.length + extra) ⟨input, input.length + extra, 0, []⟩ =
      .error .overrun ↔ RunsOver input (input.length + extra) capacity :=
    rleLoop_overrun_iff hstart hmem hcap le_rfl
  rw [← hloop]
  cases rleLoop w capacity (input.length + extra) ⟨input, input.length + extra, 0, []⟩ with
  | error halt =>
    cases halt
    exact ⟨fun _ => rfl, fun _ => rfl⟩
  | ok r =>
    constructor
    all_goals
      intro hover
      cases hover

end OpenWrt.RouterBoot
