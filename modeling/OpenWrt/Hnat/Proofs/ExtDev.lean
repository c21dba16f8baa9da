import OpenWrt.Lib.Count
import OpenWrt.Hnat.ExtDev

/-!
# The external devices stay consistent

The references of a device are those of its slots, whatever happens.  A device is in one
slot of `ext_if` in every run in which `extif_set_dev` finds no slot for a device that has
one, and `hnat_release_netdev` leaves nothing behind when there is at most one slot.
-/

namespace OpenWrt.Hnat

open Lib List

variable {c : ExtConfig} {s s' : ExtState} {d : Nat}

/-! ## Taking and putting a slot -/

/-- In `s'` the device has one slot of `ext_if` more, and a reference for it. -/
structure Took (d : Nat) (s s' : ExtState) : Prop where
  held : ∀ x, held s' x = held s x + if x = d then 1 else 0
  refs : ∀ x, s'.refs x = s.refs x + if x = d then 1 else 0
  hooks : s'.wifiHookIf = s.wifiHookIf

def SlotFound (c : ExtConfig) (d : Nat) (tryPrefix alloc : Bool) (s : ExtState) : Prop :=
  extifMatch (c.devName d) s ≠ none ∨
    (tryPrefix ∧ extifPrefixMatch c (c.devName d)) ∧ getExtDeviceNumber s < MAX_EXT_DEVS ∧ alloc

def Named (c : ExtConfig) (s : ExtState) : Prop :=
  ∀ e ∈ s.extIf, ∀ d, e.dev = some d → e.name = c.devName d

theorem devHold_refs (d x : Nat) (s : ExtState) :
    (devHold d s).refs x = s.refs x + if x = d then 1 else 0 := by
  by_cases hx : x = d
  · rw [hx, if_pos rfl]
    exact Function.update_self ..
  · rw [if_neg hx, Int.add_zero]
    exact Function.update_of_ne hx ..

theorem devPut_refs (d x : Nat) (s : ExtState) :
    s.refs x = (devPut d s).refs x + if x = d then 1 else 0 := by
  by_cases hx : x = d
  · have hself : (devPut d s).refs d = s.refs d - 1 := Function.update_self ..
    rw [hx, if_pos rfl, hself, Int.sub_add_cancel]
  · rw [if_neg hx, Int.add_zero]
    exact (Function.update_of_ne hx ..).symm

theorem decide_some_eq (x d : Nat) :
    (if decide (some d = some x) then 1 else 0) = if x = d then 1 else 0 := by
  simp [eq_comm]

theorem extifNewDev_took (hnum : getExtDeviceNumber s < MAX_EXT_DEVS) :
    Took d s (extifNewDev c d s) := by
  have hadd : extifNewDev c d s =
      { devHold d s with extIf := s.extIf ++ [⟨entryName (c.devName d), some d⟩] } := if_pos hnum
  rw [hadd]
  refine ⟨fun x => ?_, fun x => devHold_refs d x s, rfl⟩
  rw [held, countP_append, countP_singleton, decide_some_eq]
  rfl

theorem entryName_devName : entryName (c.devName d) = c.devName d := by
  have := c.devName_lt d
  rw [entryName, take_of_length_le (by omega), String.ofList_toList]

theorem Named.extifNewDev (h : Named c s) : Named c (extifNewDev c d s) := by
  intro e he x hx
  rw [Hnat.extifNewDev, extIfAdd] at he
  split at he
  · rcases mem_append.mp he with he | he
    · exact h e he x hx
    · rw [mem_singleton.mp he] at hx ⊢
      cases hx
      exact entryName_devName
  · exact h e he x hx

theorem extifSetDev_match {i : Nat} {tryPrefix alloc : Bool}
    (hmatch : extifMatch (c.devName d) s = some i) :
    Took d s (extifSetDev c d tryPrefix alloc s) ∧
      (Named c s → Named c (extifSetDev c d tryPrefix alloc s)) := by
  obtain ⟨e, he, hr, hmem, hcount⟩ :=
    countP_modify_findIdx (f := fun e => { e with dev := some d }) hmatch
  rw [Bool.and_eq_true, decide_eq_true_eq, decide_eq_true_eq] at hr
  rw [extifSetDev, hmatch]
  refine ⟨⟨fun x => ?_, fun x => devHold_refs d x s, rfl⟩, fun hnamed e' he' x hx => ?_⟩
  · have := hcount fun e => e.dev = some x
    rw [hr.2, decide_some_eq] at this
    simpa [held, devHold] using this
  · rcases hmem e' he' with hold | rfl
    · exact hnamed e' hold x hx
    · cases hx
      exact hr.1

theorem extifSetDev_cases (c : ExtConfig) (d : Nat) (tryPrefix alloc : Bool) (s : ExtState) :
    extifSetDev c d tryPrefix alloc s = s ∨
      (Took d s (extifSetDev c d tryPrefix alloc s) ∧ SlotFound c d tryPrefix alloc s) := by
  cases hmatch : extifMatch (c.devName d) s with
  | some i => exact .inr ⟨(extifSetDev_match hmatch).1, .inl (by simp [hmatch])⟩
  | none =>
    rw [extifSetDev, hmatch]
    dsimp only
    split
    · rename_i hstarts
      split
      · exact .inl rfl
      rename_i hnum
      split
      · exact .inl rfl
      · rename_i halloc
        exact .inr ⟨extifNewDev_took (not_le.mp hnum), .inr ⟨(Bool.and_eq_true ..).mp hstarts,
          not_le.mp hnum, Bool.eq_true_of_not_eq_false halloc⟩⟩
    · exact .inl rfl

theorem Named.extifSetDev (h : Named c s) (tryPrefix alloc : Bool) :
    Named c (extifSetDev c d tryPrefix alloc s) := by
  cases hmatch : extifMatch (c.devName d) s with
  | some i => exact (extifSetDev_match hmatch).2 h
  | none =>
    rw [Hnat.extifSetDev, hmatch]
    dsimp only
    split
    · split
      · exact h
      · split
        · exact h
        · exact h.extifNewDev
    · exact h

theorem extifPutDev_cases (d : Nat) (s : ExtState) :
    extifPutDev d s = s ∨ Took d (extifPutDev d s) s := by
  rw [extifPutDev]
  split
  · exact .inl rfl
  rename_i i hfind
  obtain ⟨e, he, hr, _, hcount⟩ :=
    countP_modify_findIdx (f := fun e : ExtdevEntry => { e with dev := none }) hfind
  refine .inr ⟨fun x => ?_, fun x => devPut_refs d x _, rfl⟩
  have := hcount fun e => e.dev = some x
  rw [of_decide_eq_true hr, decide_some_eq] at this
  simpa [held, devPut] using this.symm

theorem Named.extifPutDev (h : Named c s) : Named c (extifPutDev d s) := by
  rw [Hnat.extifPutDev]
  split
  · exact h
  rename_i i hfind
  obtain ⟨e, _, _, hmem, _⟩ :=
    countP_modify_findIdx (f := fun e : ExtdevEntry => { e with dev := none }) hfind
  intro e' he' x hx
  rcases hmem e' he' with hold | rfl
  · exact h e' hold x hx
  · cases hx

/-! ## The hook table -/

theorem addWifiHookIf_hooked {i : Nat} (hfind : (s.wifiHookIf.findIdx? fun h => h = none) = some i)
    (x : Nat) : hooked (addWifiHookIf d i s) x = hooked s x + if x = d then 1 else 0 := by
  obtain ⟨h, _, hr, _, hcount⟩ := countP_modify_findIdx (f := fun _ => some d) hfind
  have := hcount fun h => h = some x
  rw [of_decide_eq_true hr, decide_some_eq] at this
  simpa [hooked, addWifiHookIf, devHold] using this

theorem devPut_hooked {i : Nat} (hfind : (s.wifiHookIf.findIdx? fun h => h = some d) = some i)
    (x : Nat) :
    hooked s x = hooked (devPut d { s with wifiHookIf := s.wifiHookIf.modify i fun _ => none }) x +
      if x = d then 1 else 0 := by
  obtain ⟨h, _, hr, _, hcount⟩ := countP_modify_findIdx (f := fun _ => none) hfind
  have := hcount fun h => h = some x
  rw [of_decide_eq_true hr, decide_some_eq] at this
  simpa [hooked, devPut] using this.symm

/-! ## The invariant -/

/-- For a device that is in a slot, `extif_set_dev` is not reached or finds no other. -/
def TakesOnce (c : ExtConfig) (s : ExtState) : ExtOp → Prop
  | .up d guestEn alloc => 0 < held s d → guestSkipped c guestEn d ∨ ¬ SlotFound c d true alloc s
  | .register d guestEn _ => 0 < held s d →
      guestSkipped c guestEn d ∨ some d ∈ s.wifiHookIf ∨ none ∉ s.wifiHookIf ∨
        extifMatch (c.devName d) s = none
  | _ => True

structure ExtInv (c : ExtConfig) (s : ExtState) : Prop where
  named : Named c s
  single : ∀ d, held s d ≤ 1
  refs : ∀ d, s.refs d = held s d + hooked s d

section

variable (h : ExtInv c s)

include h

theorem ExtInv.took (ht : Took d s s') (hnamed : Named c s')
    (hfree : held s d = 0) : ExtInv c s' where
  named := hnamed
  single := by
    intro x
    have := h.single x
    rw [ht.held]
    split
    · rename_i hx
      rw [hx, hfree]
    · exact this
  refs := by
    intro x
    have := h.refs x
    rw [ht.refs, ht.held, hooked, ht.hooks]
    rw [hooked] at this
    split <;> omega

theorem ExtInv.put (ht : Took d s' s) (hnamed : Named c s') : ExtInv c s' where
  named := hnamed
  single := by
    intro x
    have := h.single x
    rw [ht.held] at this
    omega
  refs := by
    intro x
    have := h.refs x
    rw [ht.refs, ht.held, hooked, ht.hooks] at this
    rw [hooked]
    split at this <;> omega

theorem ExtInv.extifPutDev : ExtInv c (extifPutDev d s) := by
  rcases extifPutDev_cases d s with heq | ht
  · rw [heq]
    exact h
  · exact h.put ht h.named.extifPutDev

theorem ExtInv.extifSetDev {tryPrefix alloc : Bool}
    (hfree : 0 < held s d → ¬ SlotFound c d tryPrefix alloc s) :
    ExtInv c (extifSetDev c d tryPrefix alloc s) := by
  rcases extifSetDev_cases c d tryPrefix alloc s with heq | ⟨ht, hfound⟩
  · rw [heq]
    exact h
  · exact h.took ht (h.named.extifSetDev tryPrefix alloc)
      (Nat.eq_zero_of_not_pos fun hpos => hfree hpos hfound)

theorem ExtInv.held_eq_zero (hfind : findExtifFromDevname (c.devName d) s = false) :
    held s d = 0 := by
  rw [held, countP_eq_zero]
  intro e he hdev
  rw [findExtifFromDevname, any_eq_false] at hfind
  exact hfind e he (decide_eq_true (h.named e he d (of_decide_eq_true hdev)))

theorem ExtInv.addWifiHookIf {i : Nat}
    (hfind : (s.wifiHookIf.findIdx? fun h => h = none) = some i) :
    ExtInv c (addWifiHookIf d i s) where
  named := h.named
  single := h.single
  refs := by
    intro x
    have hrefs := h.refs x
    have hheld : held (Hnat.addWifiHookIf d i s) x = held s x := rfl
    have hhold : (Hnat.addWifiHookIf d i s).refs x = s.refs x + if x = d then 1 else 0 :=
      devHold_refs d x s
    rw [addWifiHookIf_hooked hfind]
    split <;> omega

theorem ExtInv.register {guestEn alloc : Bool}
    (hok : TakesOnce c s (.register d guestEn alloc)) :
    ExtInv c (mtkPpeDevRegisterHook c d guestEn alloc s) := by
  rw [mtkPpeDevRegisterHook]
  split
  · exact h
  rename_i hguest
  split
  · exact h
  rename_i hhook
  split
  · exact h
  rename_i i hfind
  split
  · have hroom : none ∈ s.wifiHookIf := by
      obtain ⟨o, hget, ho, _⟩ := countP_modify_findIdx (f := id) hfind
      rw [← of_decide_eq_true ho]
      exact hget
    have hset : ExtInv c (Hnat.extifSetDev c d false alloc s) := by
      refine h.extifSetDev fun hpos hfound => ?_
      have hmatch := (((hok hpos).resolve_left hguest).resolve_left hhook).resolve_left
        (not_not_intro hroom)
      exact hfound.elim (· hmatch) fun hnew => Bool.noConfusion hnew.1.1
    have hhooks : (Hnat.extifSetDev c d false alloc s).wifiHookIf = s.wifiHookIf := by
      rcases extifSetDev_cases c d false alloc s with heq | ⟨ht, _⟩
      · rw [heq]
      · exact ht.hooks
    exact hset.addWifiHookIf (by rw [hhooks]; exact hfind)
  · rename_i hname
    split
    · exact h
    rename_i hnum
    split
    · exact h
    have ht : Took d s (Hnat.extifNewDev c d s) := extifNewDev_took (not_le.mp hnum)
    have hnew := h.took ht h.named.extifNewDev (h.held_eq_zero (Bool.eq_false_of_not_eq_true hname))
    exact hnew.addWifiHookIf (by rw [ht.hooks]; exact hfind)

theorem ExtInv.unregister : ExtInv c (mtkPpeDevUnregisterHook d s) := by
  rw [mtkPpeDevUnregisterHook]
  split
  · exact h.extifPutDev
  rename_i i hfind
  refine ExtInv.extifPutDev ⟨h.named, h.single, fun x => ?_⟩
  have hrefs := h.refs x
  have hput := devPut_refs d x { s with wifiHookIf := s.wifiHookIf.modify i fun _ => none }
  rw [devPut_hooked hfind] at hrefs
  have hheld : held (devPut d { s with wifiHookIf := s.wifiHookIf.modify i fun _ => none }) x =
      held s x := rfl
  dsimp only at hput
  split at hput <;> rename_i hx
  · rw [if_pos hx] at hrefs
    omega
  · rw [if_neg hx] at hrefs
    omega

theorem ExtInv.step (op : ExtOp) (hok : TakesOnce c s op) : ExtInv c (op.run c s) := by
  have hup : ∀ u, ExtInv c { s with isUp := u } := fun u => ⟨h.named, h.single, h.refs⟩
  cases op with
  | up d guestEn alloc =>
    rw [ExtOp.run, netdevUp]
    split
    · exact hup _
    · rename_i hguest
      exact (hup _).extifSetDev fun hpos => (hok hpos).resolve_left hguest
  | goingDown d =>
    rw [ExtOp.run, netdevGoingDown]
    split
    · exact hup _
    · exact (hup _).extifPutDev
  | register d guestEn alloc => exact h.register hok
  | unregister d => exact h.unregister

end

theorem ExtInv.probe (c : ExtConfig) : ExtInv c (hnatProbe c) := by
  have hfold : ∀ (names : List String) (s : ExtState), (ExtInv c s ∧ ∀ e ∈ s.extIf, e.dev = none) →
      ExtInv c (names.foldl (fun s name => extIfAdd ⟨entryName name, none⟩ s) s) := by
    intro names
    induction names with
    | nil => exact fun s h => h.1
    | cons name names ih =>
      intro s ⟨hinv, hnone⟩
      apply ih
      dsimp only [extIfAdd]
      split
      · have hadded : ∀ e ∈ s.extIf ++ [⟨entryName name, none⟩], e.dev = none := by
          simpa [or_imp, forall_and] using hnone
        refine ⟨⟨fun e he x hx => ?_, fun x => ?_, fun x => ?_⟩, hadded⟩
        · rw [hadded e he] at hx
          cases hx
        · simpa [held] using hinv.single x
        · simpa [held, hooked] using hinv.refs x
      · exact ⟨hinv, hnone⟩
  exact hfold _ _ ⟨⟨by simp [Named], by simp [held], by simp [held, hooked, countP_replicate]⟩,
    by simp⟩

theorem extReached_inv (hs : ExtReached c (TakesOnce c) s) : ExtInv c s := by
  induction hs with
  | start => exact .probe c
  | step op _ _ hok ih => exact ih.step op hok

/-! ## Release -/

theorem held_eraseIdx {i : Nat} {e : ExtdevEntry} (hget : s.extIf[i]? = some e) (x : Nat) :
    held s x = held { s with extIf := s.extIf.eraseIdx i } x +
      if e.dev = some x then 1 else 0 := by
  obtain ⟨hi, heq⟩ := List.getElem?_eq_some_iff.mp hget
  rw [held, ← (getElem_cons_eraseIdx_perm hi).countP_eq, countP_cons, heq]
  simp [held]

theorem hnatReleaseFrom_refs (n i : Nat) (s : ExtState)
    (h : ∀ d, s.refs d = held s d + hooked s d) (d : Nat) :
    (hnatReleaseFrom n i s).refs d = held (hnatReleaseFrom n i s) d + hooked s d := by
  induction n generalizing i s with
  | zero => exact h d
  | succ n ih =>
    rw [hnatReleaseFrom]
    split
    · exact h d
    rename_i e hget
    have herase := held_eraseIdx hget
    cases hdev : e.dev with
    | none =>
      apply ih (i + 1) { s with extIf := s.extIf.eraseIdx i }
      intro x
      have := herase x
      rw [hdev] at this
      have hx := h x
      rw [this] at hx
      exact hx
    | some y =>
      apply ih (i + 1) { devPut y s with extIf := s.extIf.eraseIdx i }
      intro x
      have hx := h x
      have hput := devPut_refs y x s
      have hheld := herase x
      rw [hdev] at hheld
      change (devPut y s).refs x = held { s with extIf := s.extIf.eraseIdx i } x + hooked s x
      by_cases hxy : x = y
      · rw [hxy, if_pos rfl, ← hxy] at hheld
        omega
      · rw [if_neg fun heq => hxy (Option.some.inj heq).symm] at hheld
        omega

theorem hnatReleaseFrom_end {n i : Nat} (hi : s.extIf.length ≤ i) : hnatReleaseFrom n i s = s := by
  cases n with
  | zero => rfl
  | succ n => rw [hnatReleaseFrom, getElem?_eq_none hi]

theorem hnatReleaseFrom_length (n i : Nat) (s : ExtState) (hi : i ≤ s.extIf.length) :
    i + (s.extIf.length - i) / 2 ≤ (hnatReleaseFrom n i s).extIf.length := by
  induction n generalizing i s with
  | zero =>
    rw [hnatReleaseFrom]
    omega
  | succ n ih =>
    rw [hnatReleaseFrom]
    split
    · omega
    rename_i e hget
    obtain ⟨hlt, _⟩ := List.getElem?_eq_some_iff.mp hget
    have hround : ∀ s' : ExtState, s'.extIf = s.extIf → i + (s.extIf.length - i) / 2 ≤
          (hnatReleaseFrom n (i + 1) { s' with extIf := s'.extIf.eraseIdx i }).extIf.length := by
      intro s' hs'
      have hlen : (s'.extIf.eraseIdx i).length = s.extIf.length - 1 := by
        rw [hs', length_eraseIdx_of_lt hlt]
      by_cases hlast : i + 1 ≤ s.extIf.length - 1
      · have := ih (i + 1) { s' with extIf := s'.extIf.eraseIdx i } (by rw [hlen]; exact hlast)
        dsimp only at this
        omega
      · rw [hnatReleaseFrom_end (by dsimp only; omega)]
        dsimp only
        omega
    cases e.dev with
    | none => exact hround s rfl
    | some y => exact hround (devPut y s) rfl

theorem hnatReleaseNetdev_nil : (hnatReleaseNetdev s).extIf = [] ↔ s.extIf.length ≤ 1 := by
  constructor
  · intro hnil
    have := hnatReleaseFrom_length MAX_EXT_DEVS 0 s (Nat.zero_le _)
    rw [hnatReleaseNetdev] at hnil
    rw [hnil, length_nil] at this
    omega
  · intro hlen
    rw [hnatReleaseNetdev, MAX_EXT_DEVS, hnatReleaseFrom]
    split
    · rename_i hnone
      exact eq_nil_of_length_eq_zero (Nat.le_zero.mp (getElem?_eq_none_iff.mp hnone))
    rename_i e hget
    have hlast : ∀ s' : ExtState, s'.extIf = s.extIf →
        (hnatReleaseFrom 62 (0 + 1) { s' with extIf := s'.extIf.eraseIdx 0 }).extIf = [] := by
      intro s' hs'
      have hlen' : (s'.extIf.eraseIdx 0).length = 0 := by
        rw [hs', length_eraseIdx]
        split <;> omega
      rw [hnatReleaseFrom_end (by dsimp only; omega)]
      exact eq_nil_of_length_eq_zero hlen'
    cases e.dev with
    | none => exact hlast s rfl
    | some y => exact hlast (devPut y s) rfl

/-- The device table in every run that takes a slot once: a device is in one slot, its
references are those of its slots, and the release is complete when there is one slot. -/
theorem ext_devices_consistent (hs : ExtReached c (TakesOnce c) s) :
    (∀ d, held s d ≤ 1) ∧ (∀ d, s.refs d = held s d + hooked s d) ∧
      (((hnatReleaseNetdev s).extIf = [] ∧ ∀ d, (hnatReleaseNetdev s).refs d = hooked s d) ↔
        s.extIf.length ≤ 1) := by
  have hinv := extReached_inv hs
  refine ⟨hinv.single, hinv.refs, ?_⟩
  rw [hnatReleaseNetdev_nil, and_iff_left_iff_imp]
  intro hlen d
  have hnil := hnatReleaseNetdev_nil.mpr hlen
  have hrefs := hnatReleaseFrom_refs MAX_EXT_DEVS 0 s hinv.refs d
  rw [hnatReleaseNetdev] at hnil ⊢
  rw [hrefs, held, hnil, countP_nil, Int.natCast_zero, Int.zero_add]

/-! ## Fixed runs -/

def wifiConfig : ExtConfig where
  extDevices := []
  extDevicesPrefix := ["ra"]
  devName d := if d = 0 then "ra0" else "apcli0"
  devName_lt d := by split <;> decide

theorem ext_devices_consistent_up :
    ∃ s, ExtReached wifiConfig (TakesOnce wifiConfig) s ∧ held s 0 = 1 ∧ s.refs 0 = 1 ∧
      (hnatReleaseNetdev s).extIf = [] := by
  have h0 : ExtReached wifiConfig (TakesOnce wifiConfig) (hnatProbe wifiConfig) := .start
  have h1 := h0.step (.up 0 true true) rfl fun hpos => absurd hpos (by decide)
  exact ⟨_, h1, by decide +kernel, by decide +kernel,
    ((ext_devices_consistent h1).2.2.mpr (by decide +kernel)).1⟩

/-- A hooked device comes up and takes a second slot; two devices are in the table, and the
release passes one of them over. -/
theorem hooked_device_held_twice :
    (∃ s, ExtReached wifiConfig (fun _ _ => True) s ∧ held s 0 = 2) ∧
      ∃ s, ExtReached wifiConfig (fun _ _ => True) s ∧ (∀ d < 2, held s d ≤ 1) ∧
        (hnatReleaseNetdev s).extIf ≠ [] := by
  have h0 : ExtReached wifiConfig (fun _ _ => True) (hnatProbe wifiConfig) := .start
  have h1 := h0.step (.register 0 true true) trivial trivial
  have h2 := h1.step (.up 0 true true) (show ExtState.isUp _ 0 = false by decide +kernel) trivial
  have h2' := h1.step (.register 1 true true) trivial trivial
  exact ⟨⟨_, h2, by decide +kernel⟩, _, h2', by decide +kernel, by decide +kernel⟩

end OpenWrt.Hnat
