import Mathlib
import OpenWrt.Conninfra.Ring

/-!
# Rings are bounded queues

A loop goes through consecutive places of the buffer.  Items that are written there one after
the other are what the last of them are read as, so a ring holds the end of all that came in.
-/

namespace OpenWrt.Conninfra

open Lib List Nat

variable {α : Type} {k : Nat} {r : Ring α} {q : List α}
variable {start n : Nat} {segs : List RingSegment}

/-! ## Segments -/

theorem mod_mod_pow (hk : k < 32) (a : Nat) : a % 4294967296 % 2 ^ k = a % 2 ^ k :=
  mod_mod_of_dvd a (pow_dvd_pow 2 hk.le)

theorem pow_le (hk : k < 32) : 2 ^ k ≤ 2147483648 :=
  Nat.pow_le_pow_right (by decide) (Nat.le_of_lt_succ hk)

theorem ringSegmentPrepare_sz (hk : k < 32) (item : Bool) (start : Nat) {seg : RingSegment}
    (hn : seg.remain < 2147483648) :
    ∃ c ≤ seg.remain, (seg.remain ≠ 0 → 0 < c) ∧ start % 2 ^ k + c ≤ 2 ^ k ∧
      ringSegmentPrepare (2 ^ k) start (asked item seg.remain) seg =
        ⟨start % 2 ^ k, c, if seg.sz ≠ 0 then (seg.dataPos + seg.sz) % 4294967296 else 0,
          seg.remain - c⟩ := by
  have hpow := pow_le hk
  have hasked : asked item seg.remain ≤ seg.remain ∧
      (seg.remain ≠ 0 → 0 < asked item seg.remain) := by
    rw [asked]
    split_ifs <;> omega
  rw [ringSegmentPrepare, and_two_pow_sub_one_eq_mod]
  refine ⟨_, ?_, ?_, ?_, rfl⟩ <;> split_ifs <;> omega

theorem segments_covers (hk : k < 32) (item : Bool) {fuel : Nat} (start d : Nat)
    (seg : RingSegment) (hn : seg.remain < 2147483648) (hfuel : seg.remain < fuel)
    (hstart : start < 4294967296)
    (hd : (if seg.sz ≠ 0 then (seg.dataPos + seg.sz) % 4294967296 else 0) = d)
    (hlt : d + seg.remain < 4294967296) :
    ∃ segs, segments (2 ^ k) item fuel start seg = some segs ∧
      (∀ s ∈ segs, s.ringPt + s.sz ≤ 2 ^ k) ∧
      segs.flatMap RingSegment.places =
        (range seg.remain).map (fun i => ((start + i) % 2 ^ k, d + i)) ∧
      commit start segs = (start + seg.remain) % 4294967296 := by
  induction fuel generalizing start d seg with
  | zero => omega
  | succ fuel ih =>
    obtain ⟨c, hle, hpos, hend, hprepare⟩ := ringSegmentPrepare_sz hk item start hn
    rw [segments, hprepare, hd]
    by_cases hzero : seg.remain = 0
    · rw [if_neg (show ¬c > 0 by omega), hzero]
      refine ⟨[], rfl, by simp, rfl, ?_⟩
      exact (mod_eq_of_lt hstart).symm
    · have hc := hpos hzero
      have hlt' : d + c < 4294967296 := by omega
      obtain ⟨segs, hsegs, hinside, hplaces, hcommit⟩ := ih
        ((start + c) % 4294967296) (d + c) ⟨start % 2 ^ k, c, d, seg.remain - c⟩
        (by dsimp only; omega) (by dsimp only; omega) (mod_lt _ (by decide))
        (by rw [if_pos (ne_of_gt hc), mod_eq_of_lt hlt']) (by dsimp only; omega)
      rw [if_pos hc, hsegs]
      refine ⟨_, rfl, ?_, ?_, ?_⟩
      · intro s hs
        rcases mem_cons.mp hs with rfl | hs
        · exact hend
        · exact hinside s hs
      · rw [flatMap_cons, hplaces, ← add_sub_of_le hle, range_add, map_append,
          map_map, Nat.add_sub_cancel_left]
        congr 1
        · apply map_congr_left
          intro j hj
          have hlt : j < c := mem_range.mp hj
          have hmod : (start + j) % 2 ^ k = start % 2 ^ k + j := by
            rw [← mod_add_mod, mod_eq_of_lt (by omega)]
          rw [hmod]
        · apply map_congr_left
          intro i _
          rw [Function.comp_apply, ← mod_add_mod, mod_mod_pow hk, mod_add_mod,
            add_assoc, add_assoc]
      · change commit ((start + c) % 4294967296) segs = _
        rw [hcommit, mod_add_mod]
        dsimp only
        omega

theorem segments_prepared (hk : k < 32) (item : Bool) {fuel : Nat}
    (hn : n < 2147483648) (hfuel : 2147483648 ≤ fuel) (hstart : start < 4294967296) (out : List α) :
    ∃ segs, segments (2 ^ k) item fuel start (prepared n) = some segs ∧
      Covers (2 ^ k) n ⟨start, segs, out⟩ ∧ commit start segs = (start + n) % 4294967296 := by
  obtain ⟨segs, hsegs, hinside, hplaces, hcommit⟩ := segments_covers hk item start 0
    (prepared n) hn (hn.trans_le hfuel) hstart rfl
    (show 0 + n < 4294967296 by omega)
  refine ⟨segs, hsegs, ⟨hinside, ?_⟩, hcommit⟩
  simpa only [zero_add, prepared] using hplaces

/-! ## Items in the buffer -/

def Keeps (base : Nat → α) (m start : Nat) (l : List α) : Prop :=
  ∀ p < l.length, l.length ≤ p + m → l[p]? = some (base ((start + p) % m))

theorem Keeps.append {base : Nat → α} {m : Nat} {l : List α} (h : Keeps base m start l)
    (hm : 0 < m) (x : α) :
    Keeps (Function.update base ((start + l.length) % m) x) m start (l ++ [x]) := by
  intro p hp hlast
  rw [length_append, length_singleton] at hp hlast
  by_cases hpl : p = l.length
  · rw [hpl, getElem?_concat_length, Function.update_self]
  have hne : (start + p) % m ≠ (start + l.length) % m := by
    intro heq
    have hdvd := (modEq_iff_dvd' (by omega)).mp heq
    have := le_of_dvd (by omega) hdvd
    omega
  rw [getElem?_append_left (by omega), Function.update_of_ne hne]
  exact h p (by omega) (by omega)

theorem Keeps.store {base : Nat → α} {m : Nat} {l data : List α}
    (h : Keeps base m start l) (hm : 0 < m) (hn : n ≤ data.length)
    (hplaces : segs.flatMap RingSegment.places =
      (range n).map fun i => ((start + l.length + i) % m, i)) :
    Keeps (store base data segs) m start (l ++ data.take n) := by
  rw [Conninfra.store, hplaces]
  clear hplaces
  induction n with
  | zero => simpa using h
  | succ n ih =>
    have hlt : n < data.length := hn
    have hnext := (ih (le_of_lt hn)).append hm data[n]
    rw [length_append, length_take_of_le (le_of_lt hlt), ← add_assoc] at hnext
    rw [range_succ]
    simpa [getElem?_eq_getElem hlt] using hnext

theorem Ring.Holds.size (h : r.Holds q) : r.size = q.length := by
  obtain ⟨k, hk, hpow⟩ := h.power
  have hle := h.length_le
  have hread := h.read_lt
  have := pow_le hk
  rw [Ring.size, SizeT.sub, h.write, SizeT.values]
  omega

theorem Ring.Holds.room (h : r.Holds q) :
    SizeT.bits32.sub r.maxSize r.size = r.maxSize - q.length := by
  obtain ⟨k, hk, hpow⟩ := h.power
  have hle := h.length_le
  have := pow_le hk
  rw [h.size, sub_of_le hle]
  rw [SizeT.values]
  omega

theorem Ring.Holds.keeps (h : r.Holds q) : Keeps r.base r.maxSize r.read q :=
  fun p hp _ => h.items p hp

theorem Ring.Holds.load (h : r.Holds q) (hn : n ≤ q.length)
    (hcovers : Covers r.maxSize n (⟨r.read, segs, []⟩ : RingLoop α)) :
    load r.base segs = q.take n := by
  rw [Conninfra.load, hcovers.places, map_map]
  apply ext_getElem
  · rw [length_map, length_range, length_take_of_le hn]
  intro i hi hi'
  have hlt : i < q.length := by
    rw [length_take] at hi'
    omega
  have hitem := h.items i hlt
  rw [getElem?_eq_getElem hlt] at hitem
  simpa using (Option.some.inj hitem).symm

theorem Ring.Holds.drop (h : r.Holds q) (hn : n ≤ q.length) :
    Ring.Holds { r with read := (r.read + n) % 4294967296 } (q.drop n) := by
  obtain ⟨k, hk, hpow⟩ := h.power
  refine ⟨h.power, mod_lt _ (by decide), ?_, ?_, ?_⟩
  · rw [h.write, length_drop]
    dsimp only
    omega
  · rw [length_drop]
    exact le_trans (sub_le _ _) h.length_le
  · intro p hp
    rw [length_drop] at hp
    rw [getElem?_drop, h.items (n + p) (by omega)]
    rw [hpow, ← mod_add_mod _ _ p, mod_mod_pow hk, mod_add_mod, add_assoc]

/-! ## Loops -/

variable {fuel : Nat}

def Refined (r : Ring α) (q : List α) (fuel : Nat) (op : RingOp α) : Prop :=
  ∃ r' l, r.run fuel op = some (r', l) ∧ r'.maxSize = r.maxSize ∧
    r'.Holds (queueStep r.maxSize q op).1 ∧ Covers r.maxSize (queueStep r.maxSize q op).2.1 l ∧
    l.out = (queueStep r.maxSize q op).2.2

theorem Ring.Holds.readLoop (h : r.Holds q) (hfuel : 2147483648 ≤ fuel) (item : Bool) (sz : Nat)
    (hsz : sz < 2147483648) :
    ∃ segs, segments r.maxSize item fuel r.read (prepared (r.readPrepare sz)) = some segs ∧
      Ring.Holds { r with read := commit r.read segs } (q.drop sz) ∧
      Covers r.maxSize (min sz q.length) ⟨r.read, segs, Conninfra.load r.base segs⟩ ∧
      Conninfra.load r.base segs = q.take sz := by
  obtain ⟨k, hk, hpow⟩ := h.power
  have hmin : r.readPrepare sz = min sz q.length := by
    rw [Ring.readPrepare, h.size]
    split <;> omega
  obtain ⟨segs, hsegs, hcovers, hcommit⟩ := segments_prepared hk item (n := min sz q.length)
    (by omega) hfuel h.read_lt ([] : List α)
  rw [← hpow] at hsegs hcovers
  refine ⟨segs, hmin ▸ hsegs, ?_, ⟨hcovers.inside, hcovers.places⟩, ?_⟩
  · rw [hcommit]
    have hdrop := h.drop (min_le_right sz q.length)
    rwa [show q.drop (min sz q.length) = q.drop sz from ?_] at hdrop
    rcases le_total sz q.length with hle | hle
    · rw [min_eq_left hle]
    · rw [min_eq_right hle, drop_length, drop_of_length_le hle]
  · rw [h.load (min_le_right _ _) hcovers, take_eq_take_iff]
    omega

theorem Ring.Holds.written (h : r.Holds q) {data : List α} (hn : n ≤ data.length)
    (hcovers : Covers r.maxSize n (⟨r.write, segs, []⟩ : RingLoop α)) {d : Nat}
    (hd : d ≤ q.length + n) (hroom : q.length + n ≤ d + r.maxSize) :
    Ring.Holds
      { r with
        base := store r.base data segs
        write := (r.write + n) % 4294967296
        read := (r.read + d) % 4294967296 }
      ((q ++ data.take n).drop d) := by
  obtain ⟨k, hk, hpow⟩ := h.power
  have hlen : (q ++ data.take n).length = q.length + n := by
    rw [length_append, length_take_of_le hn]
  have hkeeps := h.keeps.store (hpow ▸ Nat.two_pow_pos k) hn (by
    rw [hcovers.places, h.write]
    apply map_congr_left
    intro i _
    rw [hpow, ← mod_add_mod _ _ i, mod_mod_pow hk, mod_add_mod])
  refine ⟨h.power, mod_lt _ (by decide), ?_, ?_, ?_⟩
  · rw [length_drop, h.write]
    dsimp only
    omega
  · rw [length_drop]
    dsimp only
    omega
  · intro p hp
    rw [length_drop] at hp
    have hitem := hkeeps (d + p) (by omega) (by omega)
    rw [getElem?_drop, hitem]
    rw [hpow, ← mod_add_mod _ _ p, mod_mod_pow hk, mod_add_mod, add_assoc]

theorem Ring.Holds.write_lt (h : r.Holds q) : r.write < 4294967296 := by
  rw [h.write]
  exact mod_lt _ (by decide)

theorem Ring.Holds.run (h : r.Holds q) (hfuel : 2147483648 ≤ fuel) (op : RingOp α)
    (hop : op.size < 2147483648) : Refined r q fuel op := by
  obtain ⟨k, hk, hpow⟩ := h.power
  cases op with
  | write data =>
    have hmin : r.writePrepare data.length = min data.length (r.maxSize - q.length) := by
      rw [Ring.writePrepare, h.room]
      split <;> omega
    obtain ⟨segs, hsegs, hcovers, hcommit⟩ := segments_prepared hk false
      (n := min data.length (r.maxSize - q.length)) (lt_of_le_of_lt (min_le_left _ _) hop)
      hfuel h.write_lt ([] : List α)
    rw [← hpow] at hsegs hcovers
    have hheld := h.written (min_le_left _ _) hcovers (zero_le _)
      (by have := h.length_le; omega)
    have hrun : r.run fuel (.write data) =
        some (⟨store r.base data segs, commit r.write segs, r.read, r.maxSize⟩,
          ⟨r.write, segs, []⟩) := by
      rw [Ring.run, hmin, hsegs]
      rfl
    refine ⟨_, _, hrun, rfl, ?_, hcovers, rfl⟩
    have htake : data.take (min data.length (r.maxSize - q.length)) =
        data.take (r.maxSize - q.length) := take_eq_take_iff.mpr (by omega)
    rw [hcommit]
    rwa [add_zero, mod_eq_of_lt h.read_lt, htake] at hheld
  | overwrite data =>
    obtain ⟨segs, hsegs, hcovers, hcommit⟩ := segments_prepared hk false
      (n := data.length) hop hfuel h.write_lt ([] : List α)
    rw [← hpow] at hsegs hcovers
    have hheld := h.written le_rfl hcovers
      (d := q.length + data.length - r.maxSize) (by omega) (by omega)
    have hread : r.overwritePrepare data.length =
        (r.read + (q.length + data.length - r.maxSize)) % 4294967296 := by
      have hle := h.length_le
      have hread := h.read_lt
      rw [Ring.overwritePrepare, h.room]
      split
      · rw [sub_of_le (by omega), SizeT.values]
        omega
      · omega
    have hrun : r.run fuel (.overwrite data) =
        some (⟨store r.base data segs, commit r.write segs, r.overwritePrepare data.length,
          r.maxSize⟩, ⟨r.write, segs, []⟩) := by
      rw [Ring.run, hsegs]
      rfl
    refine ⟨_, _, hrun, rfl, ?_, hcovers, rfl⟩
    rw [hcommit, hread]
    rwa [take_length] at hheld
  | read sz =>
    obtain ⟨segs, hsegs, hheld, hcovers, hout⟩ := h.readLoop hfuel false sz hop
    exact ⟨_, _, congrArg (Option.bind · _) hsegs, rfl, hheld, hcovers, hout⟩
  | readItems sz =>
    obtain ⟨segs, hsegs, hheld, hcovers, hout⟩ := h.readLoop hfuel true sz hop
    exact ⟨_, _, congrArg (Option.bind · _) hsegs, rfl, hheld, hcovers, hout⟩

/-- Loops on a ring do what the same operations do on a queue of bounded length. -/
theorem ring_refines_queue (h : r.Holds q) (hfuel : 2147483648 ≤ fuel) (ops : List (RingOp α))
    (hops : ∀ op ∈ ops, op.size < 2147483648) :
    ∃ r' log, r.runs fuel ops = some (r', log) ∧ r'.Holds (queueSteps r.maxSize q ops).1 ∧
      List.Forall₂ (fun l moved => Covers r.maxSize moved.1 l ∧ l.out = moved.2) log
        (queueSteps r.maxSize q ops).2 := by
  induction ops generalizing r q with
  | nil => exact ⟨r, [], rfl, h, .nil⟩
  | cons op ops ih =>
    obtain ⟨r', l, hrun, hmax, hheld, hcovers, hout⟩ :=
      h.run hfuel op (hops op mem_cons_self)
    obtain ⟨r'', log, hruns, hheld', hlog⟩ :=
      ih hheld fun op hop => hops op (mem_cons_of_mem _ hop)
    rw [hmax] at hheld' hlog
    refine ⟨r'', l :: log, ?_, hheld', .cons ⟨hcovers, hout⟩ hlog⟩
    rw [Ring.runs, hrun]
    change (r'.runs fuel ops).bind _ = _
    rw [hruns]
    rfl

/-- A ring of two items whose counters are about to wrap. -/
theorem ring_refines_queue_wrap :
    ∃ r' log, Ring.runs 2147483648 ⟨fun _ => 0, 4294967295, 4294967295, 2⟩
        [.overwrite [1, 2, 3], .read 5] = some (r', log) ∧ r'.Holds [] ∧
      List.Forall₂ (fun l moved => Covers 2 moved.1 l ∧ l.out = moved.2) log
        [(3, []), (2, [2, 3])] :=
  ring_refines_queue (q := [])
    ⟨⟨1, by decide, rfl⟩, by decide, rfl, by decide, fun p hp => absurd hp (not_lt_zero p)⟩
    le_rfl [.overwrite [1, 2, 3], .read 5] (by decide)

end OpenWrt.Conninfra
