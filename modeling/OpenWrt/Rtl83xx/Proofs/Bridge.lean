import OpenWrt.Rtl83xx.Bridge

/-!
# Isolation of bridged ports

What each operation does to the matrix and to `pm`, bit by bit, and the invariant that
keeps ports of different bridges apart.  A port that leaves a bridge with other members
keeps their bits in its row, and its own bit is set in their `pm`; so the invariant
survives a leave only if the port is the last member, and if it is enabled.
-/

namespace OpenWrt.Rtl83xx

open List

variable {b : Board} {s : Ports} {i j p bridge : Nat}

/-! ## Bits -/

theorem getLsbD_bitULL {n : Nat} (hn : n < 64) (j : Nat) :
    (bitULL n).getLsbD j = decide (j = n) := by
  simp only [bitULL]
  grind

theorem getLsbD_bitUL {n : Nat} (hn : n < 32) (j : Nat) : (bitUL n).getLsbD j = decide (j = n) := by
  simp only [bitUL]
  grind

theorem cpuPort_lt (f : Family) : f.cpuPort < 64 := by cases f <;> decide

theorem getLsbD_setRow (v : BitVec 64) (hj : j ≤ b.family.cpuPort) :
    (setRow b v).getLsbD j = v.getLsbD j := by
  unfold setRow
  cases hf : b.family with
  | rtl8380 =>
    rw [hf] at hj
    have : j < 32 := Nat.lt_of_le_of_lt hj (by decide)
    grind
  | rtl8390 => rfl

/-! ## The matrix -/

def pmBit (s : Ports) (i j : Nat) : Bool := (s i).pm.getLsbD j

section Traffic

variable (source dest : Nat) (v : BitVec 64)

@[simp] theorem trafficSet_same (s : Ports) (i : Nat) :
    (trafficSet b source v s i).enable = (s i).enable ∧
      (trafficSet b source v s i).pm = (s i).pm ∧
      (trafficSet b source v s i).bridgeDev = (s i).bridgeDev := by
  by_cases hi : i = source <;> simp [trafficSet, hi]

@[simp] theorem trafficEnable_same (s : Ports) (i : Nat) :
    (trafficEnable b source dest s i).enable = (s i).enable ∧
      (trafficEnable b source dest s i).pm = (s i).pm ∧
      (trafficEnable b source dest s i).bridgeDev = (s i).bridgeDev := by
  unfold trafficEnable
  cases b.family <;> simp

theorem passes_trafficSet (hj : j ≤ b.family.cpuPort) :
    passes (trafficSet b source v s) i j = if i = source then v.getLsbD j else passes s i j := by
  unfold passes trafficSet
  by_cases hi : i = source
  · rw [if_pos hi, hi, Function.update_self]
    exact getLsbD_setRow v hj
  · rw [if_neg hi, Function.update_of_ne hi]

theorem passes_trafficEnable (hd : dest < 32) (hj : j ≤ b.family.cpuPort) :
    passes (trafficEnable b source dest s) i j =
      (passes s i j || decide (i = source ∧ j = dest)) := by
  have hbits : passes (trafficEnable b source dest s) i j =
      if i = source then (s source).row.getLsbD j || decide (j = dest) else passes s i j := by
    unfold trafficEnable
    split
    · rw [passes_trafficSet _ _ hj, BitVec.getLsbD_or, getLsbD_bitUL hd]
    · rw [passes_trafficSet _ _ hj, BitVec.getLsbD_or, getLsbD_bitULL (by omega)]
  rw [hbits]
  by_cases hi : i = source
  · subst hi
    simp [passes]
  · simp [hi]

theorem passes_trafficDisable (hd : dest < 32) (hj : j ≤ b.family.cpuPort) :
    passes (trafficDisable b source dest s) i j =
      (passes s i j && !decide (i = source ∧ j = dest)) := by
  unfold trafficDisable
  rw [passes_trafficSet _ _ hj, BitVec.getLsbD_and, BitVec.getLsbD_not, getLsbD_bitUL hd]
  have hj64 : j < 64 := Nat.lt_of_le_of_lt hj (cpuPort_lt _)
  by_cases hi : i = source
  · subst hi
    simp [passes, hj64]
  · simp [hi]

end Traffic

/-! ## The fields of a port -/

section Fields

variable (port : Nat) (enable : Bool) (pm : BitVec 64) (dev : Option Nat)

theorem setEnable_eq (s : Ports) (i : Nat) :
    setEnable port enable s i =
      { s i with enable := if i = port then enable else (s i).enable } := by
  by_cases hi : i = port <;> simp [setEnable, hi]

theorem setPm_eq (s : Ports) (i : Nat) :
    setPm port pm s i = { s i with pm := if i = port then pm else (s i).pm } := by
  by_cases hi : i = port <;> simp [setPm, hi]

theorem setBridgeDev_eq (s : Ports) (i : Nat) :
    setBridgeDev port dev s i =
      { s i with bridgeDev := if i = port then dev else (s i).bridgeDev } := by
  by_cases hi : i = port <;> simp [setBridgeDev, hi]

@[simp] theorem passes_setEnable : passes (setEnable port enable s) i j = passes s i j := by
  rw [passes, setEnable_eq, passes]

@[simp] theorem passes_setPm : passes (setPm port pm s) i j = passes s i j := by
  rw [passes, setPm_eq, passes]

@[simp] theorem passes_setBridgeDev : passes (setBridgeDev port dev s) i j = passes s i j := by
  rw [passes, setBridgeDev_eq, passes]

end Fields

/-! ## Enabling and disabling -/

section Operations

variable (huser : b.isUserPort p = true) (hsmall : p < 32) (hj : j ≤ b.family.cpuPort)

include huser in
theorem ne_cpuPort : p ≠ b.family.cpuPort := Nat.ne_of_lt (b.user_lt p huser)

include huser in
theorem portEnable_fields :
    (portEnable b p s i).enable = (if i = p then true else (s i).enable) ∧
      (portEnable b p s i).pm = (s i).pm ∧
      (portEnable b p s i).bridgeDev = (s i).bridgeDev := by
  have hne := ne_cpuPort huser
  simp only [portEnable, if_neg hne, trafficSet_same, trafficEnable_same, setEnable_eq, and_true]

include huser hsmall hj in
theorem passes_portEnable :
    passes (portEnable b p s) i j =
      if i = p then passes s p j || pmBit s p j
      else passes s i j || decide (i = b.family.cpuPort ∧ j = p) := by
  have hne := ne_cpuPort huser
  simp only [portEnable, if_neg hne]
  rw [passes_trafficSet _ _ hj, BitVec.getLsbD_or, (trafficEnable_same ..).2.1]
  have hrow : ((trafficEnable b b.family.cpuPort p (setEnable p true s)) p).row.getLsbD j =
      passes (trafficEnable b b.family.cpuPort p (setEnable p true s)) p j := rfl
  rw [hrow, passes_trafficEnable _ _ hsmall hj, passes_trafficEnable _ _ hsmall hj,
    passes_setEnable, passes_setEnable, setEnable_eq]
  by_cases hi : i = p <;> simp [hi, hne, pmBit]

include huser in
theorem portDisable_fields :
    (portDisable b p s i).enable = (if i = p then false else (s i).enable) ∧
      (portDisable b p s i).pm = (s i).pm ∧
      (portDisable b p s i).bridgeDev = (s i).bridgeDev := by
  simp only [portDisable, huser, Bool.not_true, Bool.false_eq_true, if_false, trafficDisable,
    setEnable_eq, trafficSet_same, and_true]

include huser hsmall hj in
theorem passes_portDisable :
    passes (portDisable b p s) i j =
      if i = p then passes s p j && !pmBit s p j
      else passes s i j && !decide (i = b.family.cpuPort ∧ j = p) := by
  have hne := ne_cpuPort huser
  have hj64 : j < 64 := Nat.lt_of_le_of_lt hj (cpuPort_lt _)
  simp only [portDisable, huser, Bool.not_true, Bool.false_eq_true, if_false, passes_setEnable]
  rw [passes_trafficSet _ _ hj, BitVec.getLsbD_and, BitVec.getLsbD_not]
  have hrow : ((trafficDisable b b.family.cpuPort p s) p).row.getLsbD j =
      passes (trafficDisable b b.family.cpuPort p s) p j := rfl
  have hpm : ((trafficDisable b b.family.cpuPort p s) p).pm = (s p).pm := (trafficSet_same ..).2.1
  rw [hrow, hpm, passes_trafficDisable _ _ hsmall hj, passes_trafficDisable _ _ hsmall hj]
  by_cases hi : i = p <;> simp [hi, hne, hj64, pmBit]

/-! ## Joining -/

theorem isMember_iff :
    isMember b bridge p i s ↔ b.isUserPort i ∧ i ≠ p ∧ (s i).bridgeDev = some bridge := by
  simp [isMember, and_assoc]

structure Joining (b : Board) (bridge p : Nat) (s : Ports) (n : Nat) (t : Ports)
    (portBitmap : BitVec 64) : Prop where
  enable : ∀ i, (t i).enable = (s i).enable
  bridgeDev : ∀ i, (t i).bridgeDev = (s i).bridgeDev
  passes : ∀ i j, j ≤ b.family.cpuPort → passes t i j =
    (passes s i j || decide (i < n ∧ isMember b bridge p i s = true ∧ (s i).enable = true ∧ j = p))
  pm : ∀ i j, pmBit t i j =
    (pmBit s i j || decide (i < n ∧ isMember b bridge p i s = true ∧ j = p))
  bitmap : ∀ j, j ≤ b.family.cpuPort → portBitmap.getLsbD j =
    decide (j = b.family.cpuPort ∨ j < n ∧ isMember b bridge p j s = true)

include hsmall in
theorem Joining.step {n : Nat} {t : Ports} {portBitmap : BitVec 64}
    (h : Joining b bridge p s n t portBitmap) :
    Joining b bridge p s (n + 1) (joinStep b bridge p (t, portBitmap) n).1
      (joinStep b bridge p (t, portBitmap) n).2 := by
  have hmember : isMember b bridge p n t = isMember b bridge p n s := by
    simp only [isMember, h.bridgeDev]
  unfold joinStep
  simp only [hmember]
  cases hm : isMember b bridge p n s with
  | false =>
    simp only [Bool.false_eq_true, if_false]
    have hlt : ∀ i, (i < n + 1 ∧ isMember b bridge p i s = true) ↔
        (i < n ∧ isMember b bridge p i s = true) := by
      intro i
      constructor
      · rintro ⟨hi, hmi⟩
        have : i ≠ n := fun heq => by rw [heq, hm] at hmi; cases hmi
        exact ⟨by omega, hmi⟩
      · exact fun ⟨hi, hmi⟩ => ⟨by omega, hmi⟩
    refine ⟨h.enable, h.bridgeDev, fun i j hj => ?_, fun i j => ?_, fun j hj => ?_⟩
    · rw [h.passes i j hj]
      simp only [← and_assoc, hlt]
    · rw [h.pm i j]
      simp only [← and_assoc, hlt]
    · rw [h.bitmap j hj]
      simp only [hlt]
  | true =>
    simp only [if_true]
    have hn : n < b.family.cpuPort := b.user_lt n (isMember_iff.mp hm).1
    have hlt : ∀ i, i < n + 1 ↔ i < n ∨ i = n := fun i => by omega
    refine ⟨fun i => ?_, fun i => ?_, fun i j hj => ?_, fun i j => ?_, fun j hj => ?_⟩
    · rw [setPm_eq]
      dsimp only
      split
      · rw [(trafficEnable_same ..).1, h.enable]
      · exact h.enable i
    · rw [setPm_eq]
      dsimp only
      split
      · rw [(trafficEnable_same ..).2.2, h.bridgeDev]
      · exact h.bridgeDev i
    · rw [passes_setPm, h.enable]
      cases hen : (s n).enable with
      | true =>
        rw [if_pos rfl, passes_trafficEnable _ _ hsmall hj, h.passes i j hj]
        by_cases hi : i = n
        · subst hi
          simp [hm, hen]
        · simp [hlt, hi]
      | false =>
        rw [if_neg (by decide), h.passes i j hj]
        by_cases hi : i = n
        · subst hi
          simp [hen]
        · simp [hlt, hi]
    · have hpm : ∀ i, ((if (t n).enable = true then trafficEnable b n p t else t) i).pm =
          (t i).pm := by
        intro i
        split
        · exact (trafficEnable_same ..).2.1
        · rfl
      have hbit := h.pm i j
      unfold pmBit at hbit ⊢
      rw [setPm_eq]
      simp only [hpm]
      by_cases hi : i = n
      · subst hi
        rw [if_pos rfl, BitVec.getLsbD_or, hbit, getLsbD_bitULL (by omega)]
        simp [hm]
      · rw [if_neg hi, hbit]
        simp [hlt, hi]
    · rw [BitVec.getLsbD_or, h.bitmap j hj, getLsbD_bitULL (by have := cpuPort_lt b.family; omega)]
      by_cases hjn : j = n
      · subst hjn
        simp [hm]
      · simp [hlt, hjn]

include hsmall in
theorem joinLoop_joining (s : Ports) (n : Nat) :
    Joining b bridge p s n
      ((range n).foldl (joinStep b bridge p) (s, bitULL b.family.cpuPort)).1
      ((range n).foldl (joinStep b bridge p) (s, bitULL b.family.cpuPort)).2 := by
  induction n with
  | zero =>
    refine ⟨fun _ => rfl, fun _ => rfl, fun i j _ => by simp, fun i j => by simp, fun j _ => ?_⟩
    simp [getLsbD_bitULL (cpuPort_lt b.family)]
  | succ n ih =>
    rw [range_succ, foldl_append]
    exact ih.step hsmall

theorem isMember_lt (hm : isMember b bridge p i s) : i < b.family.numPorts := by
  have hlt := b.user_lt i (isMember_iff.mp hm).1
  cases hf : b.family with
  | rtl8380 | rtl8390 => rw [hf] at hlt; exact Nat.lt_succ_of_lt hlt

def addRow (b : Board) (p : Nat) (portBitmap : BitVec 64) (t : Ports) : Ports :=
  if (t p).enable then
    trafficSet b p ((trafficEnable b b.family.cpuPort p t p).row ||| portBitmap)
      (trafficEnable b b.family.cpuPort p t)
  else t

theorem addRow_fields (portBitmap : BitVec 64) (t : Ports) (i : Nat) :
    (addRow b p portBitmap t i).enable = (t i).enable ∧
      (addRow b p portBitmap t i).pm = (t i).pm ∧
      (addRow b p portBitmap t i).bridgeDev = (t i).bridgeDev := by
  unfold addRow
  split
  · simp
  · exact ⟨rfl, rfl, rfl⟩

include huser hsmall hj in
theorem passes_addRow (portBitmap : BitVec 64) (t : Ports) :
    passes (addRow b p portBitmap t) i j =
      (passes t i j || (t p).enable &&
        (decide (i = b.family.cpuPort ∧ j = p) || decide (i = p) && portBitmap.getLsbD j)) := by
  have hne := ne_cpuPort huser
  unfold addRow
  cases (t p).enable with
  | false => simp
  | true =>
    rw [if_pos rfl, passes_trafficSet _ _ hj, BitVec.getLsbD_or]
    have hrow : (trafficEnable b b.family.cpuPort p t p).row.getLsbD j =
        passes (trafficEnable b b.family.cpuPort p t) p j := rfl
    rw [hrow, passes_trafficEnable _ _ hsmall hj, passes_trafficEnable _ _ hsmall hj]
    by_cases hi : i = p <;> simp [hi, hne]

structure Joined (b : Board) (bridge p : Nat) (s t : Ports) : Prop where
  enable : ∀ i, (t i).enable = (s i).enable
  bridgeDev : ∀ i, (t i).bridgeDev = (s i).bridgeDev
  passes : ∀ i j, j ≤ b.family.cpuPort → passes t i j =
    (passes s i j || decide (isMember b bridge p i s = true ∧ (s i).enable = true ∧ j = p) ||
      (s p).enable && (decide (i = b.family.cpuPort ∧ j = p) ||
        decide (i = p) && decide (j = b.family.cpuPort ∨ isMember b bridge p j s = true)))
  pm : ∀ i j, j ≤ b.family.cpuPort → pmBit t i j =
    (pmBit s i j || decide (isMember b bridge p i s = true ∧ j = p) ||
      decide (i = p) && decide (j = b.family.cpuPort ∨ isMember b bridge p j s = true))

include huser hsmall in
theorem portBridgeJoin_joined (s : Ports) : Joined b bridge p s (portBridgeJoin b p bridge s) := by
  have hloop : Joining b bridge p s b.family.numPorts _ _ :=
    joinLoop_joining hsmall s b.family.numPorts
  have hmember : ∀ i, (i < b.family.numPorts ∧ isMember b bridge p i s = true) ↔
      isMember b bridge p i s = true :=
    fun i => ⟨fun h => h.2, fun h => ⟨isMember_lt h, h⟩⟩
  have heq : portBridgeJoin b p bridge s =
      let acc := (range b.family.numPorts).foldl (joinStep b bridge p)
        (s, bitULL b.family.cpuPort)
      setPm p ((addRow b p acc.2 acc.1 p).pm ||| acc.2) (addRow b p acc.2 acc.1) := rfl
  rw [heq]
  generalize (range b.family.numPorts).foldl (joinStep b bridge p)
    (s, bitULL b.family.cpuPort) = acc at hloop
  rcases acc with ⟨t, portBitmap⟩
  dsimp only at hloop ⊢
  have hfields := addRow_fields (b := b) (p := p) portBitmap t
  refine ⟨fun i => ?_, fun i => ?_, fun i j hj => ?_, fun i j hj => ?_⟩
  · rw [setPm_eq]
    exact (hfields i).1.trans (hloop.enable i)
  · rw [setPm_eq]
    exact (hfields i).2.2.trans (hloop.bridgeDev i)
  · rw [passes_setPm, passes_addRow huser hsmall hj, hloop.passes i j hj, hloop.enable,
      hloop.bitmap j hj]
    simp only [← and_assoc, hmember]
  · have hpm := hloop.pm i j
    unfold pmBit at hpm ⊢
    rw [setPm_eq]
    dsimp only
    by_cases hi : i = p
    · subst hi
      rw [if_pos rfl, (hfields i).2.1, BitVec.getLsbD_or, hpm, hloop.bitmap j hj]
      simp only [← and_assoc, hmember, decide_true, Bool.true_and]
    · rw [if_neg hi, (hfields i).2.1, hpm]
      simp only [← and_assoc, hmember, hi, decide_false, Bool.false_and, Bool.or_false]

/-! ## Leaving -/

theorem leaveLoop_lone (hlone : ∀ i, isMember b bridge p i s = false) (portBitmap : BitVec 64)
    (is : List Nat) : is.foldl (leaveStep b bridge p) (s, portBitmap) = (s, portBitmap) := by
  induction is with
  | nil => rfl
  | cons i is ih =>
    rw [foldl_cons]
    have hstep : leaveStep b bridge p (s, portBitmap) i = (s, portBitmap) := by
      simp only [leaveStep, hlone, Bool.false_eq_true, if_false]
    rw [hstep, ih]

structure Left (b : Board) (p : Nat) (s t : Ports) : Prop where
  enable : ∀ i, (t i).enable = (s i).enable
  bridgeDev : ∀ i, (t i).bridgeDev = (s i).bridgeDev
  passes : ∀ i j, j ≤ b.family.cpuPort → passes t i j =
    (passes s i j || (s p).enable && decide (i = p ∧ j = b.family.cpuPort))
  pm : ∀ i j, j ≤ b.family.cpuPort → pmBit t i j =
    (pmBit s i j && !decide (i = p ∧ j = b.family.cpuPort))

theorem portBridgeLeave_left (s : Ports) (hlone : ∀ i, isMember b bridge p i s = false) :
    Left b p s (portBridgeLeave b p bridge s) := by
  have hcpu := getLsbD_bitULL (cpuPort_lt b.family)
  simp only [portBridgeLeave, leaveLoop_lone hlone]
  generalize hu : (if (s p).enable = true then
    trafficSet b p ((s p).row ||| bitULL b.family.cpuPort) s else s) = u
  have hfields : ∀ i, (u i).enable = (s i).enable ∧ (u i).pm = (s i).pm ∧
      (u i).bridgeDev = (s i).bridgeDev := by
    intro i
    rw [← hu]
    split
    · exact trafficSet_same _ _ _ _
    · exact ⟨rfl, rfl, rfl⟩
  refine ⟨fun i => ?_, fun i => ?_, fun i j hj => ?_, fun i j hj => ?_⟩
  · rw [setPm_eq]
    exact (hfields i).1
  · rw [setPm_eq]
    exact (hfields i).2.2
  · rw [passes_setPm, ← hu]
    cases (s p).enable with
    | false => simp
    | true =>
      rw [if_pos rfl, passes_trafficSet _ _ hj, BitVec.getLsbD_or, hcpu]
      by_cases hi : i = p
      · simp [hi, passes]
      · simp [hi]
  · have hj64 : j < 64 := Nat.lt_of_le_of_lt hj (cpuPort_lt _)
    unfold pmBit
    rw [setPm_eq]
    by_cases hi : i = p
    · rw [if_pos hi, (hfields p).2.1, BitVec.getLsbD_and, BitVec.getLsbD_not, hcpu]
      simp [hi, hj64]
    · rw [(hfields i).2.1]
      simp [hi]

end Operations

/-! ## The invariant -/

/-- Every user port has a PHY, so that its row is set up, and fits in 32 bits. -/
structure Wired (b : Board) : Prop where
  phy : ∀ i, b.isUserPort i = true → b.phy i = true
  small : ∀ i, b.isUserPort i = true → i < 32

def sameBridge (s : Ports) (i j : Nat) : Prop :=
  (s i).bridgeDev ≠ none ∧ (s i).bridgeDev = (s j).bridgeDev

structure BridgeInv (b : Board) (s : Ports) : Prop where
  pm : ∀ i j, b.isUserPort i = true → b.isUserPort j = true → i ≠ j →
    (pmBit s i j = true ↔ sameBridge s i j)
  pmCpu : ∀ i, b.isUserPort i = true →
    (pmBit s i b.family.cpuPort = true ↔ (s i).bridgeDev ≠ none)
  row : ∀ i j, b.isUserPort i = true → b.isUserPort j = true → i ≠ j →
    (passes s i j = true ↔ (s i).enable = true ∧ sameBridge s i j)
  rowCpu : ∀ i, b.isUserPort i = true → (s i).enable = true ∨ (s i).bridgeDev = none →
    passes s i b.family.cpuPort = true
  cpuRow : ∀ i, b.isUserPort i = true → (s i).enable = true →
    passes s b.family.cpuPort i = true

theorem BridgeInv.isolated (h : BridgeInv b s) : Isolated b s where
  user := by
    intro i j hi hj hne heni _
    rw [h.row i j hi hj hne]
    exact and_iff_right heni
  toCpu := fun i hi hen => h.rowCpu i hi (Or.inl hen)
  fromCpu := h.cpuRow

theorem user_le (hi : b.isUserPort i) : i ≤ b.family.cpuPort :=
  Nat.le_of_lt (b.user_lt i hi)

theorem passes_setup_user (hw : Wired b) (reset : Nat → BitVec 64) (hi : b.isUserPort i)
    (hj : j ≤ b.family.cpuPort) :
    passes (setup b reset) i j = decide (j = b.family.cpuPort ∨ j = i) := by
  simp only [passes, setup, setupRow, if_pos (b.user_lt i hi), if_pos (hw.phy i hi)]
  rw [getLsbD_setRow _ hj, BitVec.getLsbD_or, getLsbD_bitULL (cpuPort_lt _),
    getLsbD_bitUL (hw.small i hi)]
  simp

theorem getLsbD_phyBitmap (hj : b.phy j) (n : Nat) (hn : n ≤ 64) (hjn : j < n) :
    ((range n).foldl (fun portBitmap i => if b.phy i then portBitmap ||| bitULL i else portBitmap)
      (bitULL b.family.cpuPort)).getLsbD j := by
  induction n with
  | zero => omega
  | succ n ih =>
    rw [range_succ, foldl_append, foldl_cons, foldl_nil]
    by_cases hjeq : j = n
    · subst hjeq
      rw [if_pos hj, BitVec.getLsbD_or, getLsbD_bitULL (by omega)]
      simp
    · have hrest := ih (by omega) (by omega)
      split
      · rw [BitVec.getLsbD_or, hrest, Bool.true_or]
      · exact hrest

theorem passes_setup_cpu (hw : Wired b) (reset : Nat → BitVec 64) (hi : b.isUserPort i) :
    passes (setup b reset) b.family.cpuPort i := by
  have hlt := b.user_lt i hi
  simp only [passes, setup, setupRow, if_neg (Nat.lt_irrefl b.family.cpuPort), if_true]
  rw [getLsbD_setRow _ (user_le hi)]
  exact getLsbD_phyBitmap (hw.phy i hi) _ (Nat.le_of_lt (cpuPort_lt _)) hlt

theorem BridgeInv.setup (hw : Wired b) (reset : Nat → BitVec 64) :
    BridgeInv b (setup b reset) where
  pm := by
    intro i j _ _ _
    simp [pmBit, Rtl83xx.setup, sameBridge]
  pmCpu := by
    intro i _
    simp [pmBit, Rtl83xx.setup]
  row := by
    intro i j hi hj hne
    have hlt := b.user_lt j hj
    rw [passes_setup_user hw reset hi (user_le hj)]
    simp only [decide_eq_true_eq]
    constructor
    · rintro (h | h)
      · omega
      · exact absurd h.symm hne
    · rintro ⟨-, h, -⟩
      exact absurd rfl h
  rowCpu := by
    intro i hi _
    rw [passes_setup_user hw reset hi (Nat.le_refl _)]
    simp
  cpuRow := fun i hi _ => passes_setup_cpu hw reset hi

section Steps

variable (hw : Wired b) (h : BridgeInv b s)

include h in
theorem BridgeInv.enableCpu : BridgeInv b (portEnable b b.family.cpuPort s) := by
  have heq : portEnable b b.family.cpuPort s = setEnable b.family.cpuPort true s := by
    simp only [portEnable, if_true]
  rw [heq]
  constructor
  · simpa only [pmBit, sameBridge, setEnable_eq] using h.pm
  · simpa only [pmBit, setEnable_eq] using h.pmCpu
  · intro i j hi
    simpa only [passes_setEnable, sameBridge, setEnable_eq, if_neg (ne_cpuPort hi)] using
      h.row i j hi
  · intro i hi
    simpa only [passes_setEnable, setEnable_eq, if_neg (ne_cpuPort hi)] using h.rowCpu i hi
  · intro i hi
    simpa only [passes_setEnable, setEnable_eq, if_neg (ne_cpuPort hi)] using h.cpuRow i hi

include h in
theorem BridgeInv.toggle {e : Bool} {t : Ports} (hp : b.isUserPort p)
    (hfields : ∀ i, (t i).enable = (if i = p then e else (s i).enable) ∧ (t i).pm = (s i).pm ∧
      (t i).bridgeDev = (s i).bridgeDev)
    (hpasses : ∀ i j, j ≤ b.family.cpuPort → passes t i j =
      if i = p then bif e then passes s p j || pmBit s p j else passes s p j && !pmBit s p j
      else bif e then passes s i j || decide (i = b.family.cpuPort ∧ j = p)
        else passes s i j && !decide (i = b.family.cpuPort ∧ j = p)) :
    BridgeInv b t := by
  have hcpu := ne_cpuPort hp
  constructor
  · intro i j hi hj hne
    simp only [pmBit, sameBridge, hfields]
    exact h.pm i j hi hj hne
  · intro i hi
    simp only [pmBit, hfields]
    exact h.pmCpu i hi
  · intro i j hi hj hne
    have hrow := h.row i j hi hj hne
    have hpm := h.pm i j hi hj hne
    have hi' := ne_cpuPort hi
    rw [hpasses i j (user_le hj)]
    simp only [sameBridge, hfields] at hrow hpm ⊢
    grind
  · intro i hi hen
    have hrow := h.rowCpu i hi
    have hpm := h.pmCpu i hi
    rw [hpasses i _ (Nat.le_refl _)]
    simp only [hfields] at hen
    grind
  · intro i hi hen
    have hrow := h.cpuRow i hi
    rw [hpasses _ i (user_le hi)]
    simp only [hfields] at hen
    grind

@[simp] theorem setBridgeDev_enable {dev : Option Nat} :
    (setBridgeDev p dev s i).enable = (s i).enable := by
  rw [setBridgeDev_eq]

@[simp] theorem pmBit_setBridgeDev {dev : Option Nat} :
    pmBit (setBridgeDev p dev s) i j = pmBit s i j := by
  rw [pmBit, setBridgeDev_eq, pmBit]

theorem setBridgeDev_bridgeDev {dev : Option Nat} :
    (setBridgeDev p dev s i).bridgeDev = if i = p then dev else (s i).bridgeDev := by
  rw [setBridgeDev_eq]

include hw h in
theorem BridgeInv.join (hp : b.isUserPort p) (hnone : (s p).bridgeDev = none) :
    BridgeInv b (portBridgeJoin b p bridge (setBridgeDev p (some bridge) s)) := by
  have hjoin : Joined b bridge p (setBridgeDev p (some bridge) s) _ :=
    portBridgeJoin_joined hp (hw.small p hp) _
  have hcpu := ne_cpuPort hp
  have hmember : ∀ i, isMember b bridge p i (setBridgeDev p (some bridge) s) = true ↔
      b.isUserPort i = true ∧ i ≠ p ∧ (s i).bridgeDev = some bridge := by
    intro i
    rw [isMember_iff, setBridgeDev_bridgeDev]
    grind
  have hpm := hjoin.pm
  have hpasses := hjoin.passes
  simp only [hmember, passes_setBridgeDev, pmBit_setBridgeDev, setBridgeDev_enable] at hpm hpasses
  constructor
  · intro i j hi hj hne
    have hold := h.pm i j hi hj hne
    have hj' := ne_cpuPort hj
    rw [hpm i j (user_le hj)]
    simp only [sameBridge, hjoin.bridgeDev, setBridgeDev_bridgeDev] at hold ⊢
    grind
  · intro i hi
    have hold := h.pmCpu i hi
    rw [hpm i _ (Nat.le_refl _)]
    simp only [hjoin.bridgeDev, setBridgeDev_bridgeDev]
    grind
  · intro i j hi hj hne
    have hold := h.row i j hi hj hne
    have hi' := ne_cpuPort hi
    have hj' := ne_cpuPort hj
    rw [hpasses i j (user_le hj)]
    simp only [sameBridge, hjoin.enable, hjoin.bridgeDev, setBridgeDev_bridgeDev,
      setBridgeDev_enable] at hold ⊢
    grind
  · intro i hi hen
    have hold := h.rowCpu i hi
    rw [hpasses i _ (Nat.le_refl _)]
    simp only [hjoin.enable, hjoin.bridgeDev, setBridgeDev_bridgeDev, setBridgeDev_enable] at hen
    grind
  · intro i hi hen
    have hold := h.cpuRow i hi
    rw [hpasses _ i (user_le hi)]
    simp only [hjoin.enable, setBridgeDev_enable] at hen
    grind

include h in
theorem BridgeInv.leave (hp : b.isUserPort p) (hsome : (s p).bridgeDev = some bridge)
    (hen : (s p).enable)
    (hlone : ∀ i, b.isUserPort i → i ≠ p → (s i).bridgeDev ≠ some bridge) :
    BridgeInv b (portBridgeLeave b p bridge (setBridgeDev p none s)) := by
  have hno : ∀ i, isMember b bridge p i (setBridgeDev p none s) = false := by
    intro i
    rw [Bool.eq_false_iff]
    intro hm
    rcases isMember_iff.mp hm with ⟨hi, hne, hdev⟩
    rw [setBridgeDev_bridgeDev, if_neg hne] at hdev
    exact hlone i hi hne hdev
  have hleft := portBridgeLeave_left (setBridgeDev p none s) hno
  have hcpu := ne_cpuPort hp
  have hpm := hleft.pm
  have hpasses := hleft.passes
  simp only [passes_setBridgeDev, pmBit_setBridgeDev, setBridgeDev_enable] at hpm hpasses
  constructor
  · intro i j hi hj hne
    have hold := h.pm i j hi hj hne
    have hj' := ne_cpuPort hj
    rw [hpm i j (user_le hj)]
    simp only [sameBridge, hleft.bridgeDev, setBridgeDev_bridgeDev] at hold ⊢
    grind
  · intro i hi
    have hold := h.pmCpu i hi
    rw [hpm i _ (Nat.le_refl _)]
    simp only [hleft.bridgeDev, setBridgeDev_bridgeDev]
    grind
  · intro i j hi hj hne
    have hold := h.row i j hi hj hne
    have hj' := ne_cpuPort hj
    rw [hpasses i j (user_le hj)]
    simp only [sameBridge, hleft.enable, hleft.bridgeDev, setBridgeDev_bridgeDev,
      setBridgeDev_enable] at hold ⊢
    grind
  · intro i hi hen'
    have hold := h.rowCpu i hi
    rw [hpasses i _ (Nat.le_refl _)]
    simp only [hleft.enable, hleft.bridgeDev, setBridgeDev_bridgeDev, setBridgeDev_enable] at hen'
    grind
  · intro i hi hen'
    have hold := h.cpuRow i hi
    rw [hpasses _ i (user_le hi)]
    simp only [hleft.enable, setBridgeDev_enable] at hen'
    grind

end Steps

/-! ## Runs -/

/-- `s` is reached from the setup by calls of the DSA core that meet `ok`. -/
inductive Reached (b : Board) (reset : Nat → BitVec 64) (ok : Ports → PortOp → Prop) : Ports → Prop
  | setup : Reached b reset ok (setup b reset)
  | step {s : Ports} (op : PortOp) (hs : Reached b reset ok s) (hlegal : op.Legal b s)
      (hok : ok s op) : Reached b reset ok (op.run b s)

/-- A port that leaves is enabled and the last user port of its bridge. -/
def LeavesLast (b : Board) (s : Ports) : PortOp → Prop
  | .leave port bridge => (s port).enable = true ∧
      ∀ i, b.isUserPort i = true → i ≠ port → (s i).bridgeDev ≠ some bridge
  | _ => True

theorem BridgeInv.step (hw : Wired b) (h : BridgeInv b s) (op : PortOp) (hlegal : op.Legal b s)
    (hok : LeavesLast b s op) : BridgeInv b (op.run b s) := by
  cases op with
  | enable port =>
    rcases hlegal with hp | rfl
    · exact h.toggle hp (fun i => portEnable_fields hp)
        fun i j hj => passes_portEnable hp (hw.small _ hp) hj
    · exact h.enableCpu
  | disable port =>
    cases hp : b.isUserPort port with
    | true =>
      exact h.toggle hp (fun i => portDisable_fields hp)
        fun i j hj => passes_portDisable hp (hw.small _ hp) hj
    | false =>
      have heq : portDisable b port s = s := by simp [portDisable, hp]
      rw [PortOp.run, heq]
      exact h
  | join port bridge => exact h.join hw hlegal.1 hlegal.2
  | leave port bridge => exact h.leave hlegal.1 hlegal.2 hok.1 hok.2

theorem Reached.inv (hw : Wired b) {reset : Nat → BitVec 64}
    (hreached : Reached b reset (LeavesLast b) s) : BridgeInv b s := by
  induction hreached with
  | setup => exact .setup hw reset
  | step op _ hlegal hok ih => exact ih.step hw op hlegal hok

/-- Bridges are isolated after any calls in which a port leaves a bridge only as its last
member. -/
theorem bridges_isolated (hw : Wired b) {reset : Nat → BitVec 64}
    (hreached : Reached b reset (LeavesLast b) s) : Isolated b s := (hreached.inv hw).isolated

def eightPorts : Board where
  family := .rtl8380
  phy i := i < 8
  isUserPort i := i < 8
  user_lt i hi := Nat.lt_trans (of_decide_eq_true hi) (by decide)

theorem eightPorts_wired : Wired eightPorts :=
  ⟨fun _ hi => hi, fun _ hi => Nat.lt_trans (of_decide_eq_true hi) (by decide)⟩

def bridgedPair : Ports :=
  [PortOp.enable 0, .enable 1, .join 0 7, .join 1 7].foldl (fun s op => op.run eightPorts s)
    (setup eightPorts fun _ => 0)

theorem bridgedPair_reached (ok : Ports → PortOp → Prop)
    (henable : ∀ s p, ok s (.enable p)) (hjoin : ∀ s p bridge, ok s (.join p bridge)) :
    Reached eightPorts (fun _ => 0) ok bridgedPair := by
  have h0 : Reached eightPorts (fun _ => 0) ok (setup eightPorts fun _ => 0) := .setup
  have h1 := h0.step (.enable 0) (Or.inl rfl) (henable _ _)
  have h2 := h1.step (.enable 1) (Or.inl rfl) (henable _ _)
  have h3 := h2.step (.join 0 7) ⟨rfl, by decide⟩ (hjoin _ _ _)
  exact h3.step (.join 1 7) ⟨rfl, by decide⟩ (hjoin _ _ _)

theorem bridges_isolated_pair : Isolated eightPorts bridgedPair :=
  bridges_isolated eightPorts_wired
    (bridgedPair_reached _ (fun _ _ => trivial) fun _ _ _ => trivial)

/-- Port 1 leaves again, and its traffic still reaches port 0. -/
theorem leave_keeps_reach :
    ∃ s, Reached eightPorts (fun _ => 0) (fun _ _ => True) s ∧ ¬Isolated eightPorts s := by
  refine ⟨PortOp.run eightPorts (.leave 1 7) bridgedPair, ?_, fun hiso => ?_⟩
  · exact (bridgedPair_reached _ (fun _ _ => trivial) fun _ _ _ => trivial).step (.leave 1 7)
      ⟨rfl, by decide⟩ trivial
  · have hpass := hiso.user 1 0 rfl rfl (by decide) (by decide) (by decide)
    exact absurd (hpass.mp (by decide)).1 (by decide)

/-! ## What the matrix depends on -/

/-- The matrix has no memory: runs that end with the same ports enabled and in the same bridges
end with the same rows, and the same rows to be put back. -/
theorem matrix_determined (hw : Wired b) {reset reset' : Nat → BitVec 64} {t : Ports}
    (hs : Reached b reset (LeavesLast b) s) (ht : Reached b reset' (LeavesLast b) t)
    (hsame : ∀ i, (s i).enable = (t i).enable ∧ (s i).bridgeDev = (t i).bridgeDev)
    (hi : b.isUserPort i) (hj : b.isUserPort j) (hij : i ≠ j) :
    passes s i j = passes t i j ∧ pmBit s i j = pmBit t i j := by
  have hinv := hs.inv hw
  have hinv' := ht.inv hw
  have hbridge : sameBridge s i j ↔ sameBridge t i j := by
    rw [sameBridge, sameBridge, (hsame i).2, (hsame j).2]
  refine ⟨Bool.eq_iff_iff.mpr ?_, Bool.eq_iff_iff.mpr ?_⟩
  · rw [hinv.row i j hi hj hij, hinv'.row i j hi hj hij, (hsame i).1, hbridge]
  · rw [hinv.pm i j hi hj hij, hinv'.pm i j hi hj hij, hbridge]

theorem matrix_determined_pair :
    passes bridgedPair 0 1 = passes (PortOp.run eightPorts (.enable 0) bridgedPair) 0 1 := by
  have hpair := bridgedPair_reached (LeavesLast eightPorts) (fun _ _ => trivial) fun _ _ _ =>
    trivial
  refine (matrix_determined eightPorts_wired hpair (hpair.step (.enable 0) (.inl rfl) trivial)
    (fun i => ?_) rfl rfl (by decide)).1
  obtain ⟨henable, -, hdev⟩ := portEnable_fields (b := eightPorts) (p := 0) (i := i)
    (s := bridgedPair) rfl
  rw [PortOp.run, henable, hdev]
  by_cases hi : i = 0
  · rw [hi]
    exact ⟨by decide, rfl⟩
  · rw [if_neg hi]
    exact ⟨rfl, rfl⟩

end OpenWrt.Rtl83xx
