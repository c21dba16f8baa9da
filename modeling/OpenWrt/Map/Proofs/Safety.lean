import Mathlib
import OpenWrt.Map.Mapcalc

/-!
# The accesses and shifts of mapcalc

Which of them are out of range is read off the text, copy by copy; the lengths a rule
may have at each copy follow from the option ranges and the validity test.
-/

namespace OpenWrt.Map

open Lib Lib.Traced

variable {a b : Buffer} {asize bsize n frombits : Nat} {r : Rule}

def Safe {α : Type} (m : Run α) : Prop := All Event.Ok m

@[simp] theorem safe_pure {α : Type} (x : α) : Safe (pure x : Run α) ↔ True := all_pure x

@[simp] theorem safe_bind {α β : Type} {m : Run α} {f : α → Run β} :
    Safe (m >>= f) ↔ Safe m ∧ Safe (f m.val) := all_bind

@[simp] theorem safe_note (e : Event) : Safe (note e) ↔ e.Ok := all_note e

theorem safe_ite {α : Type} {c : Prop} [Decidable c] {m n : Run α} :
    Safe (if c then m else n) ↔ (c → Safe m) ∧ (¬c → Safe n) := all_ite

/-! ## Copies -/

theorem safe_bmemcpy_iff : Safe (bmemcpy asize bsize a b n) ↔ n ≤ 8 * asize ∧ n ≤ 8 * bsize := by
  simp only [bmemcpy, safe_bind, safe_note, safe_ite, safe_pure, Event.Ok, and_true, implies_true]
  omega

/-- The targets have 2 or 4 bytes, so `buf` is large enough for all that is asked for. -/
theorem safe_bmemcpys64_iff (hsize : asize ≤ 4) :
    Safe (bmemcpys64 asize bsize a b frombits n) ↔
      frombits + n < 8 * bsize ∧ n ≤ 8 * asize := by
  simp only [bmemcpys64, safe_bind, safe_note, safe_bmemcpy_iff, Event.Ok]
  omega

/-! ## The options -/

structure Rule.Fresh (r : Rule) : Prop where
  addr4len : r.addr4len = 32
  ipv4addr : r.ipv4addr = fun _ => 0
  psid16 : r.psid16 = fun _ => 0

structure Rule.Bounded (r : Rule) : Prop where
  fresh : r.Fresh
  prefix4len : r.prefix4len ≤ 32
  prefix6len : r.prefix6len ≤ 128
  offset : r.offset ≤ 16
  pdlen : r.pdlen ≤ 128
  psid : r.psid ≤ 65535

theorem intval_le {max d : Int} (value : Option Nat) (hd : d ≤ max) :
    (intval max value).getD d ≤ max := by
  cases value with
  | none => exact hd
  | some v =>
    by_cases hle : toInt v ≤ max
    · have hv : intval max (some v) = some (toInt v) := if_pos hle
      rwa [hv, Option.getD_some]
    · have hv : intval max (some v) = none := if_neg hle
      rwa [hv]

theorem Rule.Bounded.set (h : r.Bounded) (opt : Opt) : (r.set opt).Bounded := by
  obtain ⟨⟨ha, hv4, hp⟩, h4, h6, hoffset, hpdlen, hpsid⟩ := h
  cases opt with
  | prefix4len v => exact ⟨⟨ha, hv4, hp⟩, intval_le v h4, h6, hoffset, hpdlen, hpsid⟩
  | prefix6len v => exact ⟨⟨ha, hv4, hp⟩, h4, intval_le v h6, hoffset, hpdlen, hpsid⟩
  | offset v => exact ⟨⟨ha, hv4, hp⟩, h4, h6, intval_le v hoffset, hpdlen, hpsid⟩
  | pdlen v => exact ⟨⟨ha, hv4, hp⟩, h4, h6, hoffset, intval_le v hpdlen, hpsid⟩
  | psid v => exact ⟨⟨ha, hv4, hp⟩, h4, h6, hoffset, hpdlen, intval_le v hpsid⟩
  | _ => exact ⟨⟨ha, hv4, hp⟩, h4, h6, hoffset, hpdlen, hpsid⟩

theorem parseRule_bounded (opts : List Opt) : (parseRule opts).Bounded := by
  have hfold : ∀ r : Rule, r.Bounded → (opts.foldl Rule.set r).Bounded := by
    induction opts with
    | nil =>
      intro r h
      exact h
    | cons opt opts ih =>
      intro r h
      exact ih _ (h.set opt)
  exact hfold {} ⟨⟨rfl, rfl, rfl⟩, by decide, by decide, by decide, by decide, by decide⟩

theorem defaultOffset_range (lw4o6 legacy : Bool) :
    0 ≤ defaultOffset lw4o6 legacy ∧ defaultOffset lw4o6 legacy ≤ 16 := by
  cases lw4o6 <;> cases legacy <;> decide

theorem Rule.Bounded.defaults (h : r.Bounded) (legacy : Bool) :
    (r.defaults legacy).Bounded ∧ 0 ≤ (r.defaults legacy).offset := by
  obtain ⟨⟨ha, hv4, hp⟩, h4, h6, hoffset, hpdlen, hpsid⟩ := h
  have hrange := defaultOffset_range r.lw4o6 legacy
  have hge : 0 ≤ if r.offset < 0 then defaultOffset r.lw4o6 legacy else r.offset := by omega
  have hle : (if r.offset < 0 then defaultOffset r.lw4o6 legacy else r.offset) ≤ 16 := by omega
  by_cases hlw : r.lw4o6 = true
  · rw [Rule.defaults, if_pos hlw]
    exact ⟨⟨⟨ha, hv4, hp⟩, h4, h6, hle, hpdlen, hpsid⟩, hge⟩
  · rw [Rule.defaults, if_neg hlw]
    exact ⟨⟨⟨ha, hv4, hp⟩, h4, h6, hle, hpdlen, hpsid⟩, hge⟩

/-! ## The delegated prefix -/

/-- A part of the search: only `pd` and `pdlen` change, `pdlen` grows, and every copy on
the way is of at most `pdlen` bits. -/
structure Search (r : Rule) (m : Run Rule) : Prop where
  frame : m.val = { r with pd := m.val.pd, pdlen := m.val.pdlen }
  grows : r.pdlen ≤ m.val.pdlen
  safe : Safe m ↔ m.val.pdlen ≤ 128 ∨ m.val.pdlen = r.pdlen

theorem Search.pure (r : Rule) : Search r (pure r) :=
  ⟨rfl, Int.le_refl _, by simp⟩

theorem Search.bind {m : Run Rule} {f : Rule → Run Rule} (hm : Search r m)
    (hf : Search m.val (f m.val)) : Search r (m >>= f) := by
  refine ⟨?_, Int.le_trans hm.grows hf.grows, ?_⟩
  · rw [val_bind, hf.frame, hm.frame]
  · have hgrows := hm.grows
    have hgrows' := hf.grows
    rw [safe_bind, hm.safe, hf.safe, val_bind]
    omega

theorem matchOne_search (r : Rule) (d : Delegated) : Search r (matchOne r d) := by
  unfold matchOne
  split
  · rename_i hmatch
    refine ⟨rfl, Int.le_of_lt hmatch.1, ?_⟩
    simp only [safe_bind, safe_bmemcpy_iff, safe_pure, val_bind, val_pure, and_true]
    omega
  · split
    · rename_i hmatch
      have hlt := hmatch.2.1
      refine ⟨rfl, Int.le_of_lt hlt, ?_⟩
      simp only [safe_bind, safe_bmemcpy_iff, safe_pure, val_bind, val_pure, and_true]
      omega
    · exact Search.pure r

theorem matchPrefix_search (r : Rule) (ds : List Delegated) : Search r (matchPrefix r ds) := by
  induction ds generalizing r with
  | nil => exact Search.pure r
  | cons d ds ih => exact (matchOne_search r d).bind (ih _)

theorem matchInterface_search (r : Rule) (c : Interface) : Search r (matchInterface r c) := by
  refine (matchPrefix_search r c.prefixes).bind ?_
  split
  · exact matchPrefix_search _ _
  · exact Search.pure _

theorem findPd_search (iface : String) (r : Rule) (cs : List Interface) :
    Search r (findPd iface r cs) := by
  induction cs generalizing r with
  | nil => exact Search.pure r
  | cons c cs ih =>
    unfold findPd
    split
    · exact ih r
    · refine (matchInterface_search r c).bind ?_
      split
      · exact Search.pure _
      · exact ih _

structure Rule.Resolved (r : Rule) : Prop where
  fresh : r.Fresh
  prefix4len : r.prefix4len ≤ 32
  prefix6len : r.prefix6len ≤ 128
  offset : 0 ≤ r.offset ∧ r.offset ≤ 16
  psidlen : 0 ≤ r.psidlen
  psid : r.psid ≤ 65535
  /-- A PSID of no bits was not given. -/
  auto : r.psidlen = 0 → r.psid < 0

theorem Rule.lengths_resolved (hfresh : r.Fresh) (h4 : r.prefix4len ≤ 32) (h6 : r.prefix6len ≤ 128)
    (hoffset : 0 ≤ r.offset ∧ r.offset ≤ 16) (hpsid : r.psid ≤ 65535) : r.lengths.Resolved := by
  obtain ⟨ha, hv4, hp⟩ := hfresh
  have hauto : (-1 : Int) < 0 ∧ (-1 : Int) ≤ 65535 := by decide
  by_cases hpsidlen : r.psidlen ≤ 0
  · rw [Rule.lengths, if_pos hpsidlen]
    exact ⟨⟨ha, hv4, hp⟩, h4, h6, hoffset, Int.le_max_right _ _, hauto.2, fun _ => hauto.1⟩
  · rw [Rule.lengths, if_neg hpsidlen]
    have hpos := Int.not_le.mp hpsidlen
    exact ⟨⟨ha, hv4, hp⟩, h4, h6, hoffset, Int.le_of_lt hpos, hpsid,
      fun hzero => absurd (Int.le_of_eq hzero) hpsidlen⟩

theorem pdlen_lengths (r : Rule) : r.lengths.pdlen = r.pdlen := by
  by_cases hpsidlen : r.psidlen ≤ 0
  · rw [Rule.lengths, if_pos hpsidlen]
  · rw [Rule.lengths, if_neg hpsidlen]

theorem resolve_spec (env : Env) (opts : List Opt) :
    (resolve env opts).val.Resolved ∧
      (Safe (resolve env opts) ↔ (resolve env opts).val.pdlen ≤ 128) := by
  obtain ⟨hbounded, hoffset⟩ := (parseRule_bounded opts).defaults env.legacy
  generalize hr : (parseRule opts).defaults env.legacy = r at hbounded hoffset
  have hsearch : Search r (searchPd env r) := by
    unfold searchPd
    split
    · exact findPd_search _ _ _
    · exact Search.pure r
  have hframe := hsearch.frame
  have hresolve : resolve env opts = searchPd env r >>= fun r => pure r.lengths := by
    rw [resolve, hr]
  rw [hresolve]
  simp only [val_bind, val_pure, safe_bind, safe_pure, and_true, pdlen_lengths]
  constructor
  · apply Rule.lengths_resolved
    · rw [hframe]
      exact ⟨hbounded.fresh.addr4len, hbounded.fresh.ipv4addr, hbounded.fresh.psid16⟩
    · rw [hframe]
      exact hbounded.prefix4len
    · rw [hframe]
      exact hbounded.prefix6len
    · rw [hframe]
      exact ⟨hoffset, hbounded.offset⟩
    · rw [hframe]
      exact hbounded.psid
  · have hpdlen := hbounded.pdlen
    rw [hsearch.safe]
    omega

/-! ## The rule -/

/-- The lengths at the validity test leave every copy and shift in range. -/
structure Rule.Fits (r : Rule) : Prop where
  pdlen : r.pdlen ≤ 128
  psid : r.psid < 0 → 0 ≤ r.pdlen → r.prefix6len + r.ealen < 128
  ipv4 : 0 ≤ r.pdlen ∨ r.ealen = r.psidlen → r.prefix4len < 32 ∧ r.ealen - r.psidlen ≤ 32 ∧
    r.prefix6len + (r.ealen - r.psidlen) < 128
  ports : 0 < r.psidlen → 0 ≤ r.psid ∨ 0 ≤ r.pdlen → 0 ≤ r.pdlen ∨ r.fmr = true →
    r.offset + r.psidlen ≤ 16

structure Rule.Lengths (r : Rule) : Prop where
  prefix4len : 0 ≤ r.prefix4len ∧ r.prefix4len ≤ 32
  prefix6len : 0 ≤ r.prefix6len ∧ r.prefix6len ≤ 128
  offset : 0 ≤ r.offset ∧ r.offset ≤ 16
  psidlen : 0 ≤ r.psidlen ∧ r.psidlen ≤ 16
  ealen : r.psidlen ≤ r.ealen

theorem Rule.Resolved.valid (h : r.Resolved) (hvalid : r.Valid) : r.Lengths := by
  obtain ⟨-, h4, h6, hoffset, hpsidlen, -, -⟩ := h
  unfold Rule.Valid at hvalid
  exact ⟨by omega, by omega, hoffset, by omega, by omega⟩

theorem safe_readPsid_iff (h : r.Lengths) :
    Safe (readPsid r) ↔ (r.psid < 0 → 0 ≤ r.pdlen → r.prefix6len + r.ealen < 128) := by
  obtain ⟨-, h6, -, hpsidlen, healen⟩ := h
  simp only [readPsid, safe_ite, safe_bind, safe_bmemcpys64_iff (Nat.le_of_ble_eq_true rfl : 2 ≤ 4),
    safe_pure, and_true, implies_true]
  omega

theorem readPsid_val (h : r.Lengths) : ∃ psid16 psid,
    (readPsid r).val = { r with psid16, psid } ∧ (0 ≤ psid ↔ 0 ≤ r.psid ∨ 0 ≤ r.pdlen) := by
  have hpsidlen := h.psidlen.1
  unfold readPsid
  split
  all_goals
    rename_i hread
    refine ⟨_, _, rfl, ?_⟩
    omega

theorem safe_alignPsid (h : r.Lengths) : Safe (alignPsid r) := by
  have hpsidlen := h.psidlen
  simp only [alignPsid, safe_ite, safe_bind, safe_note, safe_pure, Event.Ok, and_true, implies_true]
  omega

theorem alignPsid_val (r : Rule) : ∃ psid16 psid,
    (alignPsid r).val = { r with psid16, psid } ∧ (0 ≤ psid ↔ 0 ≤ r.psid) := by
  unfold alignPsid
  split
  · refine ⟨_, _, rfl, ?_⟩
    have hpow : ∀ n : Nat, (0 : Int) < 2 ^ n := fun n => by positivity
    rw [Int.shiftRight_eq_div_pow, mul_nonneg_iff_of_pos_right (hpow _),
      Int.ediv_nonneg_iff_of_pos (by positivity)]
  · exact ⟨_, _, rfl, Iff.rfl⟩

theorem safe_readIpv4_iff (h : r.Lengths) :
    Safe (readIpv4 r) ↔ (0 ≤ r.pdlen ∨ r.ealen = r.psidlen → r.prefix4len < 32 ∧
      r.ealen - r.psidlen ≤ 32 ∧ r.prefix6len + (r.ealen - r.psidlen) < 128) := by
  obtain ⟨h4, h6, -, -, healen⟩ := h
  simp only [readIpv4, safe_ite, safe_bind, safe_bmemcpys64_iff (le_refl 4), safe_note,
    safe_bmemcpy_iff, safe_pure, Event.Ok, and_true, implies_true]
  omega

theorem readIpv4_val (r : Rule) : ∃ ipv4addr addr4len,
    (readIpv4 r).val = { r with ipv4addr, addr4len } := by
  unfold readIpv4
  split
  · exact ⟨_, _, rfl⟩
  · exact ⟨_, _, rfl⟩

theorem safe_makeIpv6_iff (legacy : Bool) (r : Rule) :
    Safe (makeIpv6 legacy r) ↔ r.pdlen ≤ 128 := by
  have hoffset : v4offset legacy + 6 ≤ 16 := by cases legacy <;> decide
  simp only [makeIpv6, safe_ite, safe_bind, safe_note, safe_bmemcpy_iff, safe_pure, Event.Ok,
    and_true, implies_true]
  omega

theorem makeIpv6_val (legacy : Bool) (r : Rule) : ∃ ipv6addr,
    (makeIpv6 legacy r).val = { r with ipv6addr } := by
  unfold makeIpv6
  split
  · exact ⟨_, rfl⟩
  · exact ⟨_, rfl⟩

theorem safe_portset_iff (h : r.Lengths) (k : Nat) :
    Safe (portset r k) ↔ r.offset + r.psidlen ≤ 16 := by
  have hoffset := h.offset
  have hpsidlen := h.psidlen
  simp only [portset, safe_bind, safe_note, safe_pure, Event.Ok, and_true]
  omega

theorem safe_portsetLoop_iff (h : r.Lengths) (n k : Nat) :
    Safe (portsetLoop r (n + 1) k) ↔ r.offset + r.psidlen ≤ 16 := by
  induction n generalizing k with
  | zero => simp [portsetLoop, safe_portset_iff h]
  | succ n ih =>
    rw [portsetLoop, safe_bind, safe_portset_iff h, safe_bind, ih]
    tauto

theorem safe_portsets_iff (h : r.Lengths) :
    Safe (portsets r) ↔ (0 < r.psidlen → 0 ≤ r.psid → r.offset + r.psidlen ≤ 16) := by
  have hoffset := h.offset
  have hturns : ∃ n, 2 ^ r.offset.toNat - (if r.offset = 0 then 0 else 1) = n + 1 := by
    refine Nat.exists_eq_succ_of_ne_zero (Nat.sub_ne_zero_of_lt ?_)
    split
    · exact Nat.two_pow_pos _
    · exact Nat.one_lt_two_pow (by omega)
  obtain ⟨n, hn⟩ := hturns
  simp only [portsets, safe_ite, safe_bind, safe_note, hn, safe_portsetLoop_iff h, safe_pure,
    Event.Ok, and_true, implies_true]
  omega

theorem safe_compute_iff (env : Env) (h : r.Lengths) (hpdlen : r.pdlen ≤ 128) :
    Safe (compute env r) ↔ r.Fits := by
  obtain ⟨psid16, psid, hread, hsign⟩ := readPsid_val h
  obtain ⟨psid16', psid', halign, hsign'⟩ := alignPsid_val { r with psid16, psid }
  obtain ⟨ipv4addr, addr4len, hipv4⟩ := readIpv4_val { r with psid16 := psid16', psid := psid' }
  obtain ⟨ipv6addr, hipv6⟩ := makeIpv6_val env.legacy
    { r with psid16 := psid16', psid := psid', ipv4addr, addr4len }
  have hlengths : ∀ psid16 psid ipv4addr addr4len ipv6addr, Rule.Lengths
      { r with psid16, psid, ipv4addr, addr4len, ipv6addr } :=
    fun _ _ _ _ _ => ⟨h.prefix4len, h.prefix6len, h.offset, h.psidlen, h.ealen⟩
  have hports := safe_portsets_iff (hlengths psid16' psid' ipv4addr addr4len ipv6addr)
  rw [compute, safe_bind, safe_readPsid_iff h, hread, safe_bind,
    iff_true_intro (safe_alignPsid (hlengths psid16 psid r.ipv4addr r.addr4len r.ipv6addr)), halign,
    safe_bind, safe_readIpv4_iff (hlengths psid16' psid' r.ipv4addr r.addr4len r.ipv6addr),
    hipv4, safe_ite, safe_bind, safe_makeIpv6_iff, hipv6, safe_bind, hports]
  simp only [safe_pure, and_true, implies_true, true_and, hpdlen, hsign', hsign]
  constructor
  · rintro ⟨hpsid, hipv4, hports⟩
    refine ⟨hpdlen, hpsid, hipv4, ?_⟩
    intro hpos hsome hprinted
    refine hports ?_ hpos hsome
    rintro ⟨hneg, hfmr⟩
    rcases hprinted with hpd | hfmr'
    · exact absurd hneg (Int.not_lt.mpr hpd)
    · rw [hfmr] at hfmr'
      cases hfmr'
  · intro hfits
    refine ⟨hfits.psid, hfits.ipv4, ?_⟩
    intro hprinted hpos hsome
    refine hfits.ports hpos hsome ?_
    rcases Int.lt_or_le r.pdlen 0 with hneg | hpd
    · right
      cases hfmr : r.fmr with
      | true => rfl
      | false => exact absurd ⟨hneg, hfmr⟩ hprinted
    · exact .inl hpd

/-- The copies and shifts of an accepted rule are in range exactly if its lengths fit. -/
theorem safe_mapRule_iff (env : Env) (opts : List Opt) (hvalid : (resolve env opts).val.Valid) :
    Safe (mapRule env opts) ↔ (resolve env opts).val.Fits := by
  obtain ⟨hresolved, hsafe⟩ := resolve_spec env opts
  rw [mapRule, safe_bind, if_pos hvalid, hsafe]
  constructor
  · rintro ⟨hpdlen, hcompute⟩
    exact (safe_compute_iff env (hresolved.valid hvalid) hpdlen).mp hcompute
  · intro hfits
    exact ⟨hfits.pdlen, (safe_compute_iff env (hresolved.valid hvalid) hfits.pdlen).mpr hfits⟩

/-! ## Two rules -/

def noDump : Env := ⟨false, "wan", []⟩

def mapeOpts : List Opt :=
  [.ealen (some 16), .prefix4len (some 24), .prefix6len (some 40), .pdlen (some 56)]

def lw4o6Opts : List Opt :=
  [.type true, .prefix6len (some 128), .pdlen (some 128)]

theorem safe_mapeOpts : (resolve noDump mapeOpts).val.Valid ∧ Safe (mapRule noDump mapeOpts) := by
  have hvalid : (resolve noDump mapeOpts).val.Valid := by decide
  refine ⟨hvalid, (safe_mapRule_iff noDump mapeOpts hvalid).mpr ⟨?_, ?_, ?_, ?_⟩⟩ <;> decide

/-- The PSID of no bits is read from behind the 16 bytes of `pd`. -/
theorem not_safe_lw4o6Opts :
    (resolve noDump lw4o6Opts).val.Valid ∧ Event.access 16 16 1 ∈ (mapRule noDump lw4o6Opts).log ∧
      ¬Safe (mapRule noDump lw4o6Opts) := by
  have hmem : Event.access 16 16 1 ∈ (mapRule noDump lw4o6Opts).log := by decide
  refine ⟨by decide, hmem, ?_⟩
  intro hsafe
  exact absurd (hsafe _ hmem) (by decide)

end OpenWrt.Map
