import TaseVerifier.Library.Bits
import TaseVerifier.Manager.ForkRequest

/-! Branch identifiers. A branch inside of an interpretation function is known by the block of
the client and, in the top 16 bits, by the index of the branch destination plus one; 0 there
is for the branches outside. -/

namespace TaseVerifier

namespace BranchIds

open Library

/-! ### The source -/

/-- What the identifiers of blocks are looked up in. -/
structure MLBBInfo where
  singleStepping : Bool
  clientIsTetriNET : Bool
  cartridge_heads : BitVec 64 → Bool
  tetrinetFnOffsetMap : BitVec 64 → Option MLBBID
  cartridge_rip_to_ID : BitVec 64 → Option MLBBID

def getMLBBIDSingleStep (rip : BitVec 64) : MLBBID := rip

/-- The first instruction of the block, with the number of addresses left to be tried. -/
def firstIPInBB (cartridge_heads : BitVec 64 → Bool) : ℕ → BitVec 64 → Option (BitVec 64)
  | 0, _ => none
  | tries + 1, currIP =>
    if cartridge_heads currIP then some currIP
    else firstIPInBB cartridge_heads tries (currIP - 1)

/-- There is an exit where the block or its identifier is not found. -/
def getMLBBID (info : MLBBInfo) (rip : BitVec 64) : Option MLBBID :=
  if info.singleStepping then some (getMLBBIDSingleStep rip)
  else do
    let firstIPInBB ← firstIPInBB info.cartridge_heads 900 rip
    if info.clientIsTetriNET then info.tetrinetFnOffsetMap firstIPInBB
    else info.cartridge_rip_to_ID firstIPInBB

def MAX_IR_BRANCH_IDX : ℤ := 65536

def shiftedIRBranchIdx (IRBranchIdx : ℤ) : BitVec 64 :=
  if IRBranchIdx = -1 then 0 else BitVec.ofInt 64 (IRBranchIdx + 1) <<< 48

/-- There is an exit for an index that is too large and for a block's identifier with any of
the top 16 bits set. -/
def getMLBBIDWithIR (info : MLBBInfo) (rip : BitVec 64) (IRBranchIdx : ℤ) : Option MLBBID :=
  if IRBranchIdx > MAX_IR_BRANCH_IDX ∧ IRBranchIdx ≠ -1 then none
  else do
    let BBID ← (if info.singleStepping then some (getMLBBIDSingleStep rip)
      else getMLBBID info rip)
    if BBID >>> 48 ≠ 0 then none else some (shiftedIRBranchIdx IRBranchIdx ||| BBID)

/-! ### The identifiers -/

variable {info : MLBBInfo} {rip rip₁ rip₂ : BitVec 64} {IRBranchIdx i₁ i₂ : ℤ}
  {b₁ b₂ id id₁ id₂ : MLBBID}

theorem shiftRight_eq_zero (b : BitVec 64) : b >>> 48 = 0 ↔ b.toNat < 2 ^ 48 := by
  rw [← BitVec.toNat_inj, BitVec.toNat_ushiftRight, Nat.shiftRight_eq_div_pow]
  simp only [BitVec.ofNat_eq_ofNat, BitVec.toNat_ofNat, Nat.zero_mod]
  omega

/-- The shifted index is that of an index from 0 on also where there is none. -/
theorem shiftedIRBranchIdx_eq (i : ℤ) :
    shiftedIRBranchIdx i = BitVec.ofInt 64 (i + 1) <<< 48 := by
  unfold shiftedIRBranchIdx
  split_ifs with h
  · subst h
    rfl
  · rfl

theorem getMLBBIDWithIR_eq_some :
    getMLBBIDWithIR info rip IRBranchIdx = some id ↔
      IRBranchIdx ≤ MAX_IR_BRANCH_IDX ∧ ∃ BBID, getMLBBID info rip = some BBID ∧
        BBID.toNat < 2 ^ 48 ∧ BitVec.ofInt 64 (IRBranchIdx + 1) <<< 48 ||| BBID = id := by
  have hblock : (if info.singleStepping then some (getMLBBIDSingleStep rip)
      else getMLBBID info rip) = getMLBBID info rip := by
    unfold getMLBBID
    split_ifs <;> rfl
  have hguard : (IRBranchIdx > MAX_IR_BRANCH_IDX ∧ IRBranchIdx ≠ -1) ↔
      ¬IRBranchIdx ≤ MAX_IR_BRANCH_IDX := by
    unfold MAX_IR_BRANCH_IDX
    omega
  unfold getMLBBIDWithIR
  rw [hblock]
  simp only [hguard, shiftedIRBranchIdx_eq, ne_eq, shiftRight_eq_zero]
  by_cases hi : IRBranchIdx ≤ MAX_IR_BRANCH_IDX
  · simp only [hi, not_true_eq_false, if_false, true_and]
    cases getMLBBID info rip with
    | none => simp
    | some BBID =>
      by_cases hb : BBID.toNat < 2 ^ 48
      · simp
      · simp
  · simp [hi]

/-- An identifier as a number: 16 bits of the index plus one, then 48 bits of the block. -/
theorem getMLBBIDWithIR_toNat (hi : -1 ≤ IRBranchIdx)
    (h : getMLBBIDWithIR info rip IRBranchIdx = some id) :
    ∃ BBID, getMLBBID info rip = some BBID ∧ BBID.toNat < 2 ^ 48 ∧
      IRBranchIdx ≤ MAX_IR_BRANCH_IDX ∧
      id.toNat = (IRBranchIdx + 1).toNat % 2 ^ 16 * 2 ^ 48 + BBID.toNat := by
  obtain ⟨hmax, BBID, hblock, hlow, rfl⟩ := getMLBBIDWithIR_eq_some.1 h
  refine ⟨BBID, hblock, hlow, hmax, ?_⟩
  have hidx : (BitVec.ofInt 64 (IRBranchIdx + 1)).toNat = (IRBranchIdx + 1).toNat := by
    unfold MAX_IR_BRANCH_IDX at hmax
    rw [BitVec.toNat_ofInt]
    omega
  rw [Bits.shiftLeft_or_toNat _ _ (by decide) hlow, hidx]

/-- Two identifiers are the same exactly when the blocks are and the indices agree modulo
2^16. -/
theorem getMLBBIDWithIR_eq_iff (hb₁ : getMLBBID info rip₁ = some b₁)
    (hb₂ : getMLBBID info rip₂ = some b₂) (hi₁ : -1 ≤ i₁) (hi₂ : -1 ≤ i₂)
    (h₁ : getMLBBIDWithIR info rip₁ i₁ = some id₁)
    (h₂ : getMLBBIDWithIR info rip₂ i₂ = some id₂) :
    id₁ = id₂ ↔ b₁ = b₂ ∧ (i₁ + 1).toNat % 2 ^ 16 = (i₂ + 1).toNat % 2 ^ 16 := by
  obtain ⟨c₁, hc₁, hlow₁, -, hn₁⟩ := getMLBBIDWithIR_toNat hi₁ h₁
  obtain ⟨c₂, hc₂, hlow₂, -, hn₂⟩ := getMLBBIDWithIR_toNat hi₂ h₂
  obtain rfl : c₁ = b₁ := Option.some.inj (hc₁.symm.trans hb₁)
  obtain rfl : c₂ = b₂ := Option.some.inj (hc₂.symm.trans hb₂)
  rw [← BitVec.toNat_inj, hn₁, hn₂, ← BitVec.toNat_inj]
  omega

/-- Two pairs of a block and an index get different identifiers exactly when they are not one
block with indices 2^16 apart. -/
theorem getMLBBIDWithIR_ne_iff (hb₁ : getMLBBID info rip₁ = some b₁)
    (hb₂ : getMLBBID info rip₂ = some b₂) (hi₁ : -1 ≤ i₁) (hi₂ : -1 ≤ i₂)
    (h₁ : getMLBBIDWithIR info rip₁ i₁ = some id₁)
    (h₂ : getMLBBIDWithIR info rip₂ i₂ = some id₂) (hne : (b₁, i₁) ≠ (b₂, i₂)) :
    id₁ ≠ id₂ ↔ ¬(b₁ = b₂ ∧ (i₁ + 65536 = i₂ ∨ i₂ + 65536 = i₁)) := by
  obtain ⟨-, -, -, hmax₁, -⟩ := getMLBBIDWithIR_toNat hi₁ h₁
  obtain ⟨-, -, -, hmax₂, -⟩ := getMLBBIDWithIR_toNat hi₂ h₂
  unfold MAX_IR_BRANCH_IDX at hmax₁ hmax₂
  rw [ne_eq, getMLBBIDWithIR_eq_iff hb₁ hb₂ hi₁ hi₂ h₁ h₂, not_iff_not]
  refine and_congr_right fun hb => ?_
  have hi : i₁ ≠ i₂ := fun h => hne (by rw [hb, h])
  omega

theorem pair_eq_of_id_eq (hi₁ : -1 ≤ i₁ ∧ i₁ < MAX_IR_BRANCH_IDX - 1)
    (hi₂ : -1 ≤ i₂ ∧ i₂ < MAX_IR_BRANCH_IDX - 1) (h₁ : getMLBBIDWithIR info rip₁ i₁ = some id)
    (h₂ : getMLBBIDWithIR info rip₂ i₂ = some id) :
    (getMLBBID info rip₁, i₁) = (getMLBBID info rip₂, i₂) := by
  obtain ⟨-, b₁, hb₁, -⟩ := getMLBBIDWithIR_eq_some.1 h₁
  obtain ⟨-, b₂, hb₂, -⟩ := getMLBBIDWithIR_eq_some.1 h₂
  obtain ⟨rfl, hidx⟩ := (getMLBBIDWithIR_eq_iff hb₁ hb₂ hi₁.1 hi₂.1 h₁ h₂).1 rfl
  unfold MAX_IR_BRANCH_IDX at hi₁ hi₂
  rw [hb₁, hb₂, Prod.mk.injEq]
  exact ⟨rfl, by omega⟩

theorem branchIds_nodup {dests : List (BitVec 64 × ℤ)} {ids : List MLBBID}
    (hids : List.Forall₂ (fun d id => getMLBBIDWithIR info d.1 d.2 = some id) dests ids)
    (hidx : ∀ d ∈ dests, -1 ≤ d.2 ∧ d.2 < MAX_IR_BRANCH_IDX - 1)
    (hnodup : (dests.map fun d => (getMLBBID info d.1, d.2)).Nodup) : ids.Nodup := by
  induction hids with
  | nil => exact List.nodup_nil
  | @cons d id dests ids hd hids ih =>
    rw [List.map_cons, List.nodup_cons] at hnodup
    refine List.nodup_cons.2 ⟨fun hmem => hnodup.1 ?_, ih (fun d hd => hidx d (by simp [hd]))
      hnodup.2⟩
    obtain ⟨d', hd', hsame⟩ : ∃ d' ∈ dests, getMLBBIDWithIR info d'.1 d'.2 = some id := by
      obtain ⟨j, hlt, rfl⟩ := List.mem_iff_getElem.1 hmem
      have hlt' : j < dests.length := hids.length_eq ▸ hlt
      exact ⟨dests[j], List.getElem_mem hlt', hids.get hlt' hlt⟩
    rw [pair_eq_of_id_eq (hidx d (by simp)) (hidx d' (by simp [hd'])) hd hsame]
    exact List.mem_map_of_mem hd'

/-- Below the end of the range a destination is found again by its identifier. -/
theorem getIdxInVec_branchIds {dests : List (BitVec 64 × ℤ)} {ids : List MLBBID}
    (hids : List.Forall₂ (fun d id => getMLBBIDWithIR info d.1 d.2 = some id) dests ids)
    (hidx : ∀ d ∈ dests, -1 ≤ d.2 ∧ d.2 < MAX_IR_BRANCH_IDX - 1)
    (hnodup : (dests.map fun d => (getMLBBID info d.1, d.2)).Nodup) {j : ℕ}
    (hj : ids[j]? = some id) : getIdxInVec ids id = some j :=
  getIdxInVec_eq (List.count_eq_one_of_mem (branchIds_nodup hids hidx hnodup)
    (List.mem_of_getElem? hj)) hj

/-! ### An index at the end of the range -/

section Runs

/-- Every address is a block of its own. -/
def stepping : MLBBInfo := ⟨true, false, fun _ => false, fun _ => none, fun _ => none⟩

theorem getMLBBIDWithIR_ne_iff_ends :
    (0 : BitVec 64) ≠ 0x0001000000000000 ↔ ¬((0 : BitVec 64) = 0 ∧
      ((-1 : ℤ) + 65536 = 0 ∨ (0 : ℤ) + 65536 = -1)) :=
  have h : getMLBBID stepping 0 = some 0 := rfl
  getMLBBIDWithIR_ne_iff h h (by decide) (by decide) (by decide) (by decide) (by decide)

/-- The last index but one gives the identifier of the branch outside. -/
theorem getMLBBIDWithIR_ends :
    getMLBBID stepping 0x400000 = some 0x400000 ∧ (0x400000 : BitVec 64).toNat < 2 ^ 48 ∧
      ((0x400000, -1) : MLBBID × ℤ) ≠ (0x400000, 65535) ∧
      getMLBBIDWithIR stepping 0x400000 (-1) = some 0x400000 ∧
      getMLBBIDWithIR stepping 0x400000 65535 = some 0x400000 := by
  decide

end Runs

end BranchIds

end TaseVerifier
