import OpenWrt.Nvram.Proofs.Usable

/-!
# Commits of more than the partition holds

`nvram_set` refuses a value that is longer than the store, but `nvram_commit` finds out only
while it writes that the variables do not fit together.  It leaves a chain at the first
tuple without room, goes on with the next chain, and returns 0.
-/

namespace OpenWrt.Nvram

open Lib List

variable {target : Target} {h : Handle}

/-- What does not fit is refused, with the image and the variables as they were. -/
def NoSilentLoss (target : Target) (h : Handle) : Prop :=
  ¬h.Fits → ∃ c, nvramCommit target h = some c ∧ c.ret ≠ 0 ∧ c.handle.mmap = h.mmap ∧
    nvramGet target c.handle = nvramGet target h

theorem nvramCommit_get (hok : h.Ok target) :
    ∃ c, nvramCommit target h = some c ∧ c.ret = 0 ∧ ∀ name, nvramGet target c.handle name =
      (Chain.find name h.kept).or (Chain.find name (sdramDefaults (sdramWords target h))) := by
  rcases nvramCommit_eq target hok.room with ⟨crc, c, -, hc, hret, hhandle, -, -⟩
  have hreread : h.reread = h.kept := by
    apply reread_of_names
    intro t ht
    exact hok.names _ _ ((mem_tuples_iff hok.table t).mp ((kept_sublist h).mem ht))
  refine ⟨c, hc, hret, fun name => ?_⟩
  simp only [hhandle, nvramGet, hreread]
  exact get_rehashTable (nodup_kept hok.table) _ name

/-- A commit refuses nothing: it returns 0 whether the variables fit or not. -/
theorem noSilentLoss_iff (hreach : Reachable target h) : NoSilentLoss target h ↔ h.Fits := by
  constructor
  · intro hloss
    by_contra hfits
    obtain ⟨c, hc, hret, -⟩ := hloss hfits
    rcases nvramCommit_eq target hreach.inv.room with ⟨-, c', -, hc', hret', -⟩
    rw [hc', Option.some.injEq] at hc
    rw [← hc] at hret
    exact hret hret'
  · intro hfits hnot
    exact absurd hfits hnot

theorem noSilentLoss_one :
    Reachable bcm47xx (blankWith ⟨ascii "1", by decide⟩) ∧
      NoSilentLoss bcm47xx (blankWith ⟨ascii "1", by decide⟩) :=
  have hreach := blankWith_reachable ⟨ascii "1", by decide⟩
  ⟨hreach, (noSilentLoss_iff hreach).mpr (blankWith_fits (by decide))⟩

/-! ## A value that `nvram_set` accepts and no image of 32 KiB has room for -/

theorem blankWith_get {value : CString} (hset : value.length + 1 ≤ 0x8000) :
    nvramGet bcm47xx (blankWith value) nameA = some value := by
  have hupdate := (ok_set (ok_open open_blank) nameA_ok hset).2
  rw [blankWith, hupdate, specStep, Function.update_self]

theorem not_mem_kept_of_long {value : CString} (hset : value.length + 1 ≤ 0x8000)
    (hlong : 0x8000 < value.length + 25) : nameA ∉ Chain.keys (blankWith value).kept := by
  have hok := blankWith_ok hset
  rcases blankWith_size value with ⟨hlength, hoffset⟩
  intro hmem
  obtain ⟨⟨name, written⟩, ht, hname⟩ := mem_map.mp hmem
  obtain rfl : name = nameA := hname
  have hget := (mem_tuples_iff hok.table _).mp ((kept_sublist _).mem ht)
  rw [blankWith_get hset, Option.some.injEq] at hget
  have hroom : (blankWith value).offset + headerSize ≤ (blankWith value).length - 2 := by
    rw [hlength, hoffset]
    decide
  have hle := keptChains_le hroom ((finRange 257).map (blankWith value).nvramHash)
  change _ + (encode (blankWith value).kept).length ≤ _ at hle
  obtain ⟨before, behind, hkept⟩ := mem_iff_append.mp ht
  have hpart : (varBytes (nameA, written)).length ≤ (encode (blankWith value).kept).length := by
    simp only [hkept, encode, flatMap_append, flatMap_cons, length_append]
    omega
  rw [length_varBytes, ← hget] at hpart
  rw [headerSize] at hle
  have hname : nameA.length = 1 := rfl
  simp only at hpart
  omega

theorem lost_of_long {value : CString} (hset : value.length + 1 ≤ 0x8000)
    (hlong : 0x8000 < value.length + 25) :
    ¬(blankWith value).Fits ∧ ∃ c, nvramCommit bcm47xx (blankWith value) = some c ∧ c.ret = 0 ∧
      nvramGet bcm47xx c.handle nameA = none := by
  have hnot := not_mem_kept_of_long hset hlong
  have hok := blankWith_ok hset
  constructor
  · intro hfits
    rw [kept_of_fits hfits] at hnot
    exact hnot (mem_map_of_mem ((mem_tuples_iff hok.table (nameA, value)).mpr
      (blankWith_get hset)))
  · obtain ⟨c, hc, hret, hvars⟩ := nvramCommit_get hok
    refine ⟨c, hc, hret, ?_⟩
    rw [hvars nameA, Chain.find_eq_none_iff.mpr hnot, Option.none_or, Chain.find_eq_none_iff]
    change nameA ∉ sdramNames
    decide

def longValue : CString :=
  ⟨replicate 32750 120, fun hmem => absurd (eq_of_mem_replicate hmem) (by decide)⟩

theorem length_longValue : longValue.length = 32750 := length_replicate

/-- The variable `a` is set, the commit returns 0, and `a` is gone. -/
theorem long_value_lost :
    Reachable bcm47xx (blankWith longValue) ∧ ¬NoSilentLoss bcm47xx (blankWith longValue) ∧
      nvramGet bcm47xx (blankWith longValue) nameA = some longValue ∧
      ∃ c, nvramCommit bcm47xx (blankWith longValue) = some c ∧ c.ret = 0 ∧
        nvramGet bcm47xx c.handle nameA = none := by
  have hset : longValue.length + 1 ≤ 0x8000 := by
    rw [length_longValue]
    decide
  obtain ⟨hfits, c, hc, hret, hgone⟩ := lost_of_long hset (by rw [length_longValue]; decide)
  refine ⟨blankWith_reachable longValue, ?_, blankWith_get hset, c, hc, hret, hgone⟩
  intro hloss
  obtain ⟨c', hc', hret', -⟩ := hloss hfits
  rw [hc, Option.some.injEq] at hc'
  rw [← hc'] at hret'
  exact hret' hret

end OpenWrt.Nvram
