import TaseVerifier.Expr.EqSound
import TaseVerifier.Library.BinarySearch
import TaseVerifier.Memory.Resolve

/-! The range of an expression. `getRange` searches for the number of bits that its values
need and then, below that, for the least and the greatest value. -/

namespace TaseVerifier

namespace GetRange

open AddressSpace Library

section Model

variable (solver : Solver) (constraints : List Expr)

/-- A constant does not reach the solver; it is an assertion that the query is boolean. -/
def evaluate (e : Expr) : Option Validity :=
  if e.getWidth = Width.Bool then
    match e with
    | .constant c => some (if c.isTrue then .True else .False)
    | e => solver.computeValidity constraints e
  else none

/-- `Solver::mustBeTrue` with its assertion. -/
def mustHold (e : Expr) : Option Bool :=
  if e.getWidth = Width.Bool then mustBeTrue solver constraints e else none

/-- `ConstantExpr::create`; it is an assertion that the value fits the width. -/
def createConstant (v w : ℕ) : Option Expr :=
  if w ≤ 64 → v < 2 ^ w then some (.alloc v w) else none

/-- It is an assertion that `N` is at most 64. -/
def maxValueOfNBits (N : ℕ) : Option ℕ :=
  if N ≤ 64 then some (if N = 0 then 0 else (2 ^ 64 - 1) >>> (64 - N)) else none

/-- The queries of the three searches. -/
def bitsQuery (e : Expr) (mid : ℕ) : Option Bool := do
  let shift ← createConstant mid e.getWidth
  let zero ← createConstant 0 e.getWidth
  mustHold solver constraints (EqExpr.create (LShrExpr.create e shift) zero)

def minQuery (e : Expr) (mid : ℕ) : Option Bool := do
  let bound ← createConstant mid e.getWidth
  mayBeTrue solver constraints (UleExpr.create e bound)

def maxQuery (e : Expr) (mid : ℕ) : Option Bool := do
  let bound ← createConstant mid e.getWidth
  mustHold solver constraints (UleExpr.create e bound)

def search (probe : ℕ → Option Bool) (fuel lo hi : ℕ) : Option ℕ :=
  BinarySearch.search (2 ^ 64) probe fuel lo hi

def searchRange (fuel : ℕ) (e : Expr) : Option (ℕ × ℕ) := do
  let bits ← search (bitsQuery solver constraints e) fuel 0 e.getWidth
  let zero ← createConstant 0 e.getWidth
  let res ← mayBeTrue solver constraints (EqExpr.create e zero)
  let hi ← maxValueOfNBits bits
  let min ← (if res then some 0 else search (minQuery solver constraints e) fuel 0 hi)
  let max ← search (maxQuery solver constraints e) fuel min hi
  return (min, max)

def getBounds (fuel : ℕ) (e : Expr) : Option (ℕ × ℕ) :=
  if e.getWidth = 1 then do
    match ← evaluate solver constraints e with
    | .True => some (1, 1)
    | .False => some (0, 0)
    | .Unknown => some (0, 1)
  else match e with
    | .constant c => if c.width ≤ 64 then some (c.toNat, c.toNat) else none
    | e => searchRange solver constraints fuel e

/-- `Solver::getRange`, with at most `fuel` rounds of each search. -/
def getRange (fuel : ℕ) (e : Expr) : Option (Expr × Expr) := do
  let (min, max) ← getBounds solver constraints fuel e
  let low ← createConstant min e.getWidth
  let high ← createConstant max e.getWidth
  return (low, high)

end Model

/-- The values that the expression takes under the constraints, as unsigned numbers. -/
def values (cs : List Expr) (e : Expr) : Set ℕ := {n | ∃ v, CanBe cs e v ∧ v.toNat = n}

theorem values_nonempty {cs : List Expr} (hsat : Satisfiable cs) (e : Expr) :
    (values cs e).Nonempty := by
  obtain ⟨σ, hσ⟩ := hsat
  exact ⟨_, e.eval σ, ⟨σ, hσ, rfl⟩, rfl⟩

theorem forall_values {cs : List Expr} {e : Expr} {P : ℕ → Prop} :
    (∀ v ∈ values cs e, P v) ↔ ∀ σ, Satisfies σ cs → P (e.eval σ).toNat := by
  constructor
  · exact fun h σ hσ => h _ ⟨e.eval σ, ⟨σ, hσ, rfl⟩, rfl⟩
  · rintro h _ ⟨_, ⟨σ, hσ, rfl⟩, rfl⟩
    exact h σ hσ

theorem exists_values {cs : List Expr} {e : Expr} {P : ℕ → Prop} :
    (∃ v ∈ values cs e, P v) ↔ ∃ σ, Satisfies σ cs ∧ P (e.eval σ).toNat := by
  constructor
  · rintro ⟨_, ⟨_, ⟨σ, hσ, rfl⟩, rfl⟩, hv⟩
    exact ⟨σ, hσ, hv⟩
  · rintro ⟨σ, hσ, hv⟩
    exact ⟨_, ⟨e.eval σ, ⟨σ, hσ, rfl⟩, rfl⟩, hv⟩

/-! ### The meaning of the queries -/

section Queries

variable {e : Expr} {w : ℕ} (he : e.wellTyped = true) (hw : e.getWidth = w)
include he hw

theorem eval_lt (σ : Assignment) : (e.eval σ).toNat < 2 ^ w := by
  obtain ⟨x, hx⟩ := Expr.eval_mk he hw σ
  rw [hx, APInt.toNat_mk]
  exact x.isLt

theorem wellTyped_alloc {k : BinaryKind} (hk : k.notOnBool = false) (v : ℕ) :
    (Expr.binary k e (.alloc v w)).wellTyped = true :=
  Expr.wellTyped_binary he (Expr.wellTyped_alloc v w) (hw.trans (Expr.getWidth_alloc v w).symm) hk

theorem holds_zero :
    (EqExpr.create e (.alloc 0 w)).isBool = true ∧
      ∀ σ, Holds σ (EqExpr.create e (.alloc 0 w)) ↔ (e.eval σ).toNat = 0 := by
  obtain ⟨hbool, hholds⟩ := holds_of_agrees
    (EqExpr.create_agrees (wellTyped_alloc he hw (k := .Eq) rfl 0)) rfl
  refine ⟨hbool, fun σ => ?_⟩
  obtain ⟨x, hx⟩ := Expr.eval_mk he hw σ
  rw [hholds, hx, Expr.eval_alloc, APInt.ofNat]
  simp [BinaryKind.apply, ← BitVec.toNat_inj]

theorem holds_bound {mid : ℕ} (hmid : mid < 2 ^ w) :
    (UleExpr.create e (.alloc mid w)).isBool = true ∧
      ∀ σ, Holds σ (UleExpr.create e (.alloc mid w)) ↔ (e.eval σ).toNat ≤ mid := by
  obtain ⟨hbool, hholds⟩ := holds_of_agrees
    (UleExpr.create_agrees (wellTyped_alloc he hw (k := .Ule) rfl mid)) rfl
  refine ⟨hbool, fun σ => ?_⟩
  obtain ⟨x, hx⟩ := Expr.eval_mk he hw σ
  rw [hholds, hx, Expr.eval_alloc, APInt.ofNat]
  simp [BinaryKind.apply, BitVec.ule, Nat.mod_eq_of_lt hmid]

theorem holds_bits {mid : ℕ} (hmid : mid < 2 ^ w) :
    (EqExpr.create (LShrExpr.create e (.alloc mid w)) (.alloc 0 w)).isBool = true ∧
      ∀ σ, Holds σ (EqExpr.create (LShrExpr.create e (.alloc mid w)) (.alloc 0 w)) ↔
        (e.eval σ).toNat < 2 ^ mid := by
  have hshr := LShrExpr.create_agrees (wellTyped_alloc he hw (k := .LShr) rfl mid)
  obtain ⟨hbool, hholds⟩ := holds_zero hshr.wellTyped (hshr.getWidth.trans hw)
  refine ⟨hbool, fun σ => ?_⟩
  obtain ⟨x, hx⟩ := Expr.eval_mk he hw σ
  rw [hholds, hshr.eval, Expr.eval_binary, hx, Expr.eval_alloc, APInt.ofNat]
  simp [BinaryKind.apply, Nat.mod_eq_of_lt hmid, Nat.shiftRight_eq_div_pow, Nat.div_eq_zero_iff]

end Queries

theorem createConstant_eq {v w : ℕ} (h : v < 2 ^ w) : createConstant v w = some (.alloc v w) :=
  if_pos fun _ => h

theorem maxValueOfNBits_eq {N : ℕ} (h : N ≤ 64) : maxValueOfNBits N = some (2 ^ N - 1) := by
  have hall : ∀ n < 65, maxValueOfNBits n = some (2 ^ n - 1) := by decide
  exact hall N (by omega)

/-! ### The searches -/

section Searches

variable {solver : Solver} (hs : solver.Ideal) {cs : List Expr} (hsat : Satisfiable cs)
include hs hsat

theorem mustHold_ideal {q : Expr} (hq : q.isBool = true) :
    ∃ b, mustHold solver cs q = some b ∧ (b = true ↔ ∀ σ, Satisfies σ cs → Holds σ q) := by
  obtain ⟨b, hb, hiff⟩ := mustBeTrue_ideal hs hsat q
  exact ⟨b, (if_pos (isBool_iff.1 hq).2).trans hb, hiff⟩

variable {e : Expr} {w : ℕ} (he : e.wellTyped = true) (hw : e.getWidth = w)
include he hw

theorem bitsQuery_ideal {n : ℕ} (hn : n < w) :
    ∃ b, bitsQuery solver cs e n = some b ∧ (b = true ↔ ∀ v ∈ values cs e, v < 2 ^ n) := by
  have hlt : n < 2 ^ w := hn.trans Nat.lt_two_pow_self
  obtain ⟨hbool, hholds⟩ := holds_bits he hw hlt
  obtain ⟨b, hb, hiff⟩ := mustHold_ideal hs hsat hbool
  refine ⟨b, ?_, ?_⟩
  · rw [bitsQuery, hw, createConstant_eq hlt, createConstant_eq (Nat.two_pow_pos w)]
    exact hb
  · rw [hiff, forall_values]
    exact forall₂_congr fun σ _ => hholds σ

theorem minQuery_ideal {n : ℕ} (hn : n < 2 ^ w) :
    ∃ b, minQuery solver cs e n = some b ∧ (b = true ↔ ∃ v ∈ values cs e, v ≤ n) := by
  obtain ⟨hbool, hholds⟩ := holds_bound he hw hn
  obtain ⟨b, hb, hiff⟩ := mayBeTrue_ideal hs hsat hbool
  refine ⟨b, ?_, ?_⟩
  · rw [minQuery, hw, createConstant_eq hn]
    exact hb
  · rw [hiff, exists_values]
    exact exists_congr fun σ => and_congr_right fun _ => hholds σ

theorem maxQuery_ideal {n : ℕ} (hn : n < 2 ^ w) :
    ∃ b, maxQuery solver cs e n = some b ∧ (b = true ↔ ∀ v ∈ values cs e, v ≤ n) := by
  obtain ⟨hbool, hholds⟩ := holds_bound he hw hn
  obtain ⟨b, hb, hiff⟩ := mustHold_ideal hs hsat hbool
  refine ⟨b, ?_, ?_⟩
  · rw [maxQuery, hw, createConstant_eq hn]
    exact hb
  · rw [hiff, forall_values]
    exact forall₂_congr fun σ _ => hholds σ

variable (hw64 : w ≤ 64) {fuel : ℕ} (hfuel : 64 ≤ fuel)
include hw64 hfuel

/-- The first search ends with a number of bits that all values fit. -/
theorem search_bits :
    ∃ bits, search (bitsQuery solver cs e) fuel 0 w = some bits ∧ bits ≤ w ∧
      ∀ v ∈ values cs e, v < 2 ^ bits := by
  have hpow : 2 ^ 64 ≤ 2 ^ fuel := Nat.pow_le_pow_right (by omega) hfuel
  have hall : ∀ v ∈ values cs e, v < 2 ^ w := forall_values.2 fun σ _ => eval_lt he hw σ
  obtain ⟨bits, hbits, hleast⟩ := BinarySearch.search_isLeast
    (p := fun n => ∀ v ∈ values cs e, v < 2 ^ n)
    (fun a b hab ha v hv => (ha v hv).trans_le (Nat.pow_le_pow_right (by omega) hab))
    (Nat.zero_le w) (by omega : w < 2 ^ 64) (fun n _ hn => bitsQuery_ideal hs hsat he hw hn) hall
    (fun n _ => Nat.zero_le n) (by omega : w - 0 < 2 ^ fuel)
  exact ⟨bits, hbits, hleast.2 hall, hleast.1⟩

section Bounded

variable {hi : ℕ} (hhi : hi < 2 ^ w) (hall : ∀ v ∈ values cs e, v ≤ hi)
include hhi hall

theorem search_min :
    ∃ min, search (minQuery solver cs e) fuel 0 hi = some min ∧ IsLeast (values cs e) min := by
  have hpow : 2 ^ 64 ≤ 2 ^ fuel := Nat.pow_le_pow_right (by omega) hfuel
  have hw' : 2 ^ w ≤ 2 ^ 64 := Nat.pow_le_pow_right (by omega) hw64
  obtain ⟨v, hv⟩ := values_nonempty hsat e
  obtain ⟨min, hmin, hleast⟩ := BinarySearch.search_isLeast (p := fun n => ∃ v ∈ values cs e, v ≤ n)
    (fun a b hab ⟨v, hv, hle⟩ => ⟨v, hv, hle.trans hab⟩) (Nat.zero_le hi)
    (by omega : hi < 2 ^ 64) (fun n _ hn => minQuery_ideal hs hsat he hw (by omega))
    ⟨v, hv, hall v hv⟩ (fun n _ => Nat.zero_le n) (by omega : hi - 0 < 2 ^ fuel)
  exact ⟨min, hmin, BinarySearch.isLeast_of_reached hleast⟩

theorem search_max {min : ℕ} (hmin : min ∈ values cs e) :
    ∃ max, search (maxQuery solver cs e) fuel min hi = some max ∧
      IsGreatest (values cs e) max := by
  have hpow : 2 ^ 64 ≤ 2 ^ fuel := Nat.pow_le_pow_right (by omega) hfuel
  have hw' : 2 ^ w ≤ 2 ^ 64 := Nat.pow_le_pow_right (by omega) hw64
  obtain ⟨max, hmax, hleast⟩ := BinarySearch.search_isLeast (p := fun n => ∀ v ∈ values cs e, v ≤ n)
    (fun a b hab ha v hv => (ha v hv).trans hab) (hall min hmin) (by omega : hi < 2 ^ 64)
    (fun n _ hn => maxQuery_ideal hs hsat he hw (by omega)) hall (fun n hn => hn min hmin)
    (by omega : hi - min < 2 ^ fuel)
  exact ⟨max, hmax, BinarySearch.isGreatest_of_bound ⟨min, hmin⟩ hleast⟩

end Bounded

theorem searchRange_exact :
    ∃ min max, searchRange solver cs fuel e = some (min, max) ∧
      IsLeast (values cs e) min ∧ IsGreatest (values cs e) max := by
  obtain ⟨bits, hbits, hle, hlt⟩ := search_bits hs hsat he hw hw64 hfuel
  have hpow : 2 ^ bits ≤ 2 ^ w := Nat.pow_le_pow_right (by omega) hle
  have hpos := Nat.two_pow_pos bits
  have hhi : 2 ^ bits - 1 < 2 ^ w := by omega
  have hall : ∀ v ∈ values cs e, v ≤ 2 ^ bits - 1 := fun v hv => Nat.le_sub_one_of_lt (hlt v hv)
  obtain ⟨hbool, hholds⟩ := holds_zero he hw
  obtain ⟨res, hres, hiff⟩ := mayBeTrue_ideal hs hsat hbool
  obtain ⟨min, hmin, hleast⟩ : ∃ min,
      (if res then some 0 else search (minQuery solver cs e) fuel 0 (2 ^ bits - 1)) = some min ∧
        IsLeast (values cs e) min := by
    cases res with
    | true =>
      obtain ⟨σ, hσ, h0⟩ := hiff.1 rfl
      exact ⟨0, rfl, ⟨e.eval σ, ⟨σ, hσ, rfl⟩, (hholds σ).1 h0⟩, fun v _ => Nat.zero_le v⟩
    | false => exact search_min hs hsat he hw hw64 hfuel hhi hall
  obtain ⟨max, hmax, hgreatest⟩ := search_max hs hsat he hw hw64 hfuel hhi hall hleast.1
  refine ⟨min, max, ?_, hleast, hgreatest⟩
  rw [searchRange, hw, hbits, createConstant_eq (Nat.two_pow_pos w)]
  simp only [Option.bind_eq_bind, Option.bind_some, hres, maxValueOfNBits_eq (hle.trans hw64),
    hmin, hmax]
  rfl

end Searches

/-! ### The range -/

section Range

variable {solver : Solver} (hs : solver.Ideal) {cs : List Expr} (hsat : Satisfiable cs)
  {e : Expr} (he : e.wellTyped = true)
include hs hsat he

omit hs hsat in
/-- A boolean value is the number 1 or 0. -/
theorem toNat_bool (hw : e.getWidth = 1) (σ : Assignment) :
    (Holds σ e → (e.eval σ).toNat = 1) ∧ (¬Holds σ e → (e.eval σ).toNat = 0) := by
  obtain ⟨b, hb⟩ := Expr.eval_bool he hw σ
  rw [Holds, hb, APInt.isTrue_ofBool, APInt.toNat_ofBool]
  cases b <;> decide

omit he in
theorem evaluate_ideal (hw : e.getWidth = 1) :
    evaluate solver cs e = some (validity cs e) := by
  unfold evaluate
  rw [if_pos (show e.getWidth = Width.Bool from hw)]
  split
  next c =>
    obtain ⟨σ, hσ⟩ := hsat
    have hholds (τ : Assignment) : Holds τ (.constant c) ↔ c.isTrue = true := Iff.rfl
    by_cases hc : c.isTrue = true
    · rw [if_pos hc, validity, if_pos fun τ _ => (hholds τ).2 hc]
    · rw [if_neg hc, validity_eq_false ⟨σ, hσ⟩ fun τ _ h => hc ((hholds τ).1 h)]
  next => exact hs.computeValidity cs e hsat

theorem evaluate_bounds (hw : e.getWidth = 1) (fuel : ℕ) :
    ∃ min max, getBounds solver cs fuel e = some (min, max) ∧
      IsLeast (values cs e) min ∧ IsGreatest (values cs e) max := by
  have hbool := toNat_bool he hw
  have hspec := validity_spec cs e
  unfold getBounds
  rw [if_pos hw, evaluate_ideal hs hsat hw]
  obtain ⟨v, hv⟩ := values_nonempty hsat e
  cases hval : validity cs e with
  | True =>
    rw [hval] at hspec
    have hone : ∀ v ∈ values cs e, v = 1 := forall_values.2 fun σ hσ => (hbool σ).1 (hspec σ hσ)
    exact ⟨1, 1, rfl, ⟨hone v hv ▸ hv, fun w hw => (hone w hw).ge⟩,
      ⟨hone v hv ▸ hv, fun w hw => (hone w hw).le⟩⟩
  | False =>
    rw [hval] at hspec
    have hzero : ∀ v ∈ values cs e, v = 0 := forall_values.2 fun σ hσ => (hbool σ).2 (hspec σ hσ)
    exact ⟨0, 0, rfl, ⟨hzero v hv ▸ hv, fun w hw => (hzero w hw).ge⟩,
      ⟨hzero v hv ▸ hv, fun w hw => (hzero w hw).le⟩⟩
  | Unknown =>
    rw [hval] at hspec
    obtain ⟨⟨σ, hσ, h1⟩, τ, hτ, h0⟩ := hspec
    refine ⟨0, 1, rfl, ⟨⟨e.eval τ, ⟨τ, hτ, rfl⟩, (hbool τ).2 h0⟩, fun w _ => Nat.zero_le w⟩,
      ⟨e.eval σ, ⟨σ, hσ, rfl⟩, (hbool σ).1 h1⟩, ?_⟩
    exact forall_values.2 fun σ _ => Nat.le_of_lt_succ (eval_lt he hw σ)

variable (hw64 : e.getWidth ≤ 64) {fuel : ℕ} (hfuel : 64 ≤ fuel)
include hw64 hfuel

theorem getBounds_exact :
    ∃ min max, getBounds solver cs fuel e = some (min, max) ∧
      IsLeast (values cs e) min ∧ IsGreatest (values cs e) max := by
  by_cases hw : e.getWidth = 1
  · exact evaluate_bounds hs hsat he hw fuel
  · unfold getBounds
    rw [if_neg hw]
    split
    next c =>
      rw [if_pos (show c.width ≤ 64 from hw64)]
      obtain ⟨v, hv⟩ := values_nonempty hsat (.constant c)
      have hall : ∀ v ∈ values cs (.constant c), v = c.toNat := forall_values.2 fun _ _ => rfl
      exact ⟨c.toNat, c.toNat, rfl, ⟨hall v hv ▸ hv, fun w hw => (hall w hw).ge⟩,
        ⟨hall v hv ▸ hv, fun w hw => (hall w hw).le⟩⟩
    next => exact searchRange_exact hs hsat he rfl hw64 hfuel

/-- The searches end within 64 rounds, no assertion fails, and what is returned is the least
and the greatest value that the expression takes. -/
theorem getRange_exact :
    ∃ min max, getRange solver cs fuel e =
        some (.alloc min e.getWidth, .alloc max e.getWidth) ∧
      IsLeast (values cs e) min ∧ IsGreatest (values cs e) max := by
  obtain ⟨min, max, hb, hleast, hgreatest⟩ := getBounds_exact hs hsat he hw64 hfuel
  have hall : ∀ v ∈ values cs e, v < 2 ^ e.getWidth := forall_values.2 fun σ _ => eval_lt he rfl σ
  refine ⟨min, max, ?_, hleast, hgreatest⟩
  rw [getRange, hb]
  simp only [Option.bind_eq_bind, Option.bind_some, createConstant_eq (hall min hleast.1),
    createConstant_eq (hall max hgreatest.1)]
  rfl

end Range

section Runs

/-- A byte that is greater than 3. -/
def byte : Expr := .read (.root ⟨"a", 1, 0, []⟩) (.alloc 0 32)

def aboveThree : List Expr := [.binary .Ult (.alloc 3 8) byte]

theorem satisfiable_aboveThree : Satisfiable aboveThree :=
  ⟨fun _ _ => 200, by simp [Satisfies, aboveThree]; decide⟩

theorem getRange_exact_byte :
    ∃ min max, getRange idealSolver aboveThree 64 byte =
        some (.alloc min byte.getWidth, .alloc max byte.getWidth) ∧
      IsLeast (values aboveThree byte) min ∧ IsGreatest (values aboveThree byte) max :=
  getRange_exact idealSolver_ideal satisfiable_aboveThree (by decide) (by decide) le_rfl

end Runs

end GetRange

end TaseVerifier
