import TaseVerifier.Library.Ensures
import TaseVerifier.Solver.Query

/-! The cache of validity answers. An entry is a partial fact about the smaller one of an
expression and its negation, and entries are never replaced. As long as every entry
states a true fact, each answer given from the cache is the true one. -/

namespace TaseVerifier

open Library

/-- `IncompleteSolver::PartialValidity`. -/
inductive PartialValidity where
  /-- The query is provably true. -/
  | MustBeTrue
  /-- The query is provably false. -/
  | MustBeFalse
  /-- A true assignment is known to exist. -/
  | MayBeTrue
  /-- A false assignment is known to exist. -/
  | MayBeFalse
  /-- Both true and false assignments exist. -/
  | TrueOrFalse
  /-- The validity of the query is unknown. -/
  | None
  deriving DecidableEq

namespace CachingSolver

/-- The assertions on the way. -/
inductive Assertion where
  | invalidPartialValidity
  | unreachable
  | cachedMayBeTrue
  deriving DecidableEq

structure State (S : Type) where
  cache : List (Query × PartialValidity)
  solver : S

/-- A failed assertion ends the process; a failed call of the layer below is an answer. -/
abbrev CachingM (S : Type) := StateT (State S) (Except Assertion)

end CachingSolver

open CachingSolver in
def negatePartialValidity : PartialValidity → Except Assertion PartialValidity
  | .MustBeTrue => pure .MustBeFalse
  | .MustBeFalse => pure .MustBeTrue
  | .MayBeTrue => pure .MayBeFalse
  | .MayBeFalse => pure .MayBeTrue
  | .TrueOrFalse => pure .TrueOrFalse
  | .None => throw .invalidPartialValidity

namespace CachingSolver

section Model

variable {S : Type} (impl : SolverImpl S) (before : Expr → Expr → Bool)

/-- The smaller one of the query and its negation, and whether it is the negation. The
order of expressions compares hashes and addresses; any order will do. -/
def canonicalizeQuery (originalQuery : Expr) : Expr × Bool :=
  if before originalQuery originalQuery.createIsZero then (originalQuery, false)
  else (originalQuery.createIsZero, true)

/-- The key of a query. -/
def cacheEntry (q : Query) : Query := { q with expr := (canonicalizeQuery before q.expr).1 }

/-- A result as seen from the other side of a negation. -/
def orient (negationUsed : Bool) (result : PartialValidity) : Except Assertion PartialValidity :=
  if negationUsed then negatePartialValidity result else pure result

def cacheLookup (q : Query) : CachingM S (Option PartialValidity) := do
  let st ← get
  match st.cache.lookup (cacheEntry before q) with
  | none => pure none
  | some stored => do
    let result ← orient (canonicalizeQuery before q.expr).2 stored
    pure (some result)

/-- `unordered_map::insert` leaves an entry that is there alone. -/
def State.insert (key : Query) (result : PartialValidity) (st : State S) : State S :=
  if (st.cache.lookup key).isSome then st else { st with cache := (key, result) :: st.cache }

def cacheInsert (q : Query) (result : PartialValidity) : CachingM S Unit := do
  let cachedResult ← orient (canonicalizeQuery before q.expr).2 result
  modify (State.insert (cacheEntry before q) cachedResult)

/-- A call of the layer below. -/
def call {α : Type} (x : StateM S α) : CachingM S α := fun st =>
  .ok ((x st.solver).1, { st with solver := (x st.solver).2 })

/-- The two cases of `computeValidity` that ask one more question: the answer yes leaves
`must`, with validity `verdict`. -/
def refineValidity (q asked : Query) (must : PartialValidity) (verdict : Validity) :
    CachingM S (Option Validity) := do
  match ← call (impl.computeTruth asked) with
  | none => pure none
  | some true => do
    cacheInsert before q must
    pure (some verdict)
  | some false => do
    cacheInsert before q .TrueOrFalse
    pure (some .Unknown)

def ofValidity : Validity → PartialValidity
  | .True => .MustBeTrue
  | .False => .MustBeFalse
  | .Unknown => .TrueOrFalse

def missValidity (q : Query) : CachingM S (Option Validity) := do
  match ← call (impl.computeValidity q) with
  | none => pure none
  | some result => do
    cacheInsert before q (ofValidity result)
    pure (some result)

def computeValidity (q : Query) : CachingM S (Option Validity) := do
  match ← cacheLookup before q with
  | some .MustBeTrue => pure (some .True)
  | some .MustBeFalse => pure (some .False)
  | some .TrueOrFalse => pure (some .Unknown)
  | some .MayBeTrue => refineValidity impl before q q .MustBeTrue .True
  | some .MayBeFalse => refineValidity impl before q q.negateExpr .MustBeFalse .False
  | some .None => throw .unreachable
  | none => missValidity impl before q

/-- What a call of `computeTruth` learns beyond the cached result. -/
def learned (isValid : Bool) : Option PartialValidity → Except Assertion PartialValidity
  | cached =>
    if isValid then pure .MustBeTrue
    else
      match cached with
      | some .MayBeTrue => pure .TrueOrFalse
      | some _ => throw .cachedMayBeTrue
      | none => pure .MayBeFalse

def missTruth (q : Query) (cached : Option PartialValidity) : CachingM S (Option Bool) := do
  match ← call (impl.computeTruth q) with
  | none => pure none
  | some isValid => do
    let result ← learned isValid cached
    cacheInsert before q result
    pure (some isValid)

def computeTruth (q : Query) : CachingM S (Option Bool) := do
  match ← cacheLookup before q with
  | some .MayBeTrue => missTruth impl before q (some .MayBeTrue)
  | some result => pure (some (result == .MustBeTrue))
  | none => missTruth impl before q none

/-- The calls that use the cache. -/
inductive Call where
  | computeValidity (q : Query)
  | computeTruth (q : Query)

def Call.query : Call → Query
  | .computeValidity q => q
  | .computeTruth q => q

inductive Answer where
  | validity (result : Option Validity)
  | truth (isValid : Option Bool)

def step : Call → CachingM S Answer
  | .computeValidity q => do pure (.validity (← computeValidity impl before q))
  | .computeTruth q => do pure (.truth (← computeTruth impl before q))

/-- The answers to a sequence of calls. -/
def run : List Call → CachingM S (List Answer)
  | [] => pure []
  | c :: calls => do
    let answer ← step impl before c
    let answers ← run calls
    pure (answer :: answers)

end Model

/-! ### The facts behind the entries -/

/-- What a partial validity states about a query. -/
def Says (q : Query) : PartialValidity → Prop
  | .MustBeTrue => q.Valid
  | .MustBeFalse => ∀ σ, Satisfies σ q.constraints → ¬ Holds σ q.expr
  | .MayBeTrue => ∃ σ, Satisfies σ q.constraints ∧ Holds σ q.expr
  | .MayBeFalse => ∃ σ, q.Refutes σ
  | .TrueOrFalse => (∃ σ, Satisfies σ q.constraints ∧ Holds σ q.expr) ∧ ∃ σ, q.Refutes σ
  | .None => False

section Facts

variable {q : Query} {result : PartialValidity} {before : Expr → Expr → Bool}

/-- A fact about the negated query is the negated fact about the query. -/
theorem says_negate (hq : q.Proper) (h : Says q.negateExpr result) :
    ∃ r, negatePartialValidity result = .ok r ∧ Says q r := by
  have hneg := holds_createIsZero hq.isBool
  cases result with
  | None => exact h.elim
  | MustBeTrue => exact ⟨_, rfl, fun σ hσ => (hneg σ).mp (h σ hσ)⟩
  | MustBeFalse => exact ⟨_, rfl, fun σ hσ => not_not.mp fun hn => h σ hσ ((hneg σ).mpr hn)⟩
  | MayBeTrue =>
    obtain ⟨σ, hσ, he⟩ := h
    exact ⟨_, rfl, σ, hσ, (hneg σ).mp he⟩
  | MayBeFalse =>
    obtain ⟨σ, hσ, he⟩ := h
    exact ⟨_, rfl, σ, hσ, not_not.mp fun hn => he ((hneg σ).mpr hn)⟩
  | TrueOrFalse =>
    obtain ⟨⟨σ, hσ, hσe⟩, τ, hτ, hτe⟩ := h
    exact ⟨_, rfl, ⟨τ, hτ, not_not.mp fun hn => hτe ((hneg τ).mpr hn)⟩, σ, hσ, (hneg σ).mp hσe⟩

/-- The same from the other side. -/
theorem says_negateExpr (hq : q.Proper) (h : Says q result) :
    ∃ r, negatePartialValidity result = .ok r ∧ Says q.negateExpr r := by
  have hneg := holds_createIsZero hq.isBool
  cases result with
  | None => exact h.elim
  | MustBeTrue => exact ⟨_, rfl, fun σ hσ hn => (hneg σ).mp hn (h σ hσ)⟩
  | MustBeFalse => exact ⟨_, rfl, fun σ hσ => (hneg σ).mpr (h σ hσ)⟩
  | MayBeTrue =>
    obtain ⟨σ, hσ, he⟩ := h
    exact ⟨_, rfl, σ, hσ, fun hn => (hneg σ).mp hn he⟩
  | MayBeFalse =>
    obtain ⟨σ, hσ, he⟩ := h
    exact ⟨_, rfl, σ, hσ, (hneg σ).mpr he⟩
  | TrueOrFalse =>
    obtain ⟨⟨σ, hσ, hσe⟩, τ, hτ, hτe⟩ := h
    exact ⟨_, rfl, ⟨τ, hτ, (hneg τ).mpr hτe⟩, σ, hσ, fun hn => (hneg σ).mp hn hσe⟩

/-- What the entry of the query states holds of the query, once oriented. -/
theorem says_of_entry (hq : q.Proper) (h : Says (cacheEntry before q) result) :
    ∃ r, orient (canonicalizeQuery before q.expr).2 result = .ok r ∧ Says q r := by
  cases hb : before q.expr q.expr.createIsZero with
  | true =>
    simp only [cacheEntry, canonicalizeQuery, hb, if_true] at h ⊢
    exact ⟨result, rfl, h⟩
  | false =>
    simp only [cacheEntry, canonicalizeQuery, hb] at h ⊢
    exact says_negate hq h

theorem says_entry (hq : q.Proper) (h : Says q result) :
    ∃ r, orient (canonicalizeQuery before q.expr).2 result = .ok r ∧
      Says (cacheEntry before q) r := by
  cases hb : before q.expr q.expr.createIsZero with
  | true =>
    simp only [cacheEntry, canonicalizeQuery, hb, if_true]
    exact ⟨result, rfl, h⟩
  | false =>
    simp only [cacheEntry, canonicalizeQuery, hb]
    exact says_negateExpr hq h

theorem says_ofValidity (q : Query) : Says q (ofValidity (validity q.constraints q.expr)) := by
  have h := validity_spec q.constraints q.expr
  cases hv : validity q.constraints q.expr <;> rw [hv] at h <;> exact h

end Facts

/-! ### Calls keep the entries true -/

/-- Every entry states a fact. -/
def Inv {S : Type} (st : State S) : Prop := ∀ p ∈ st.cache, Says p.1 p.2

section Calls

variable {S : Type} {impl : SolverImpl S} {before : Expr → Expr → Bool} {q : Query} {st : State S}

theorem cacheLookup_ensures (h : Inv st) (hq : q.Proper) :
    Ensures (fun _ => False) (cacheLookup before q) st
      (fun r st' => st' = st ∧ ∀ result, r = some result → Says q result) := by
  refine Ensures.get_bind ?_
  cases hl : st.cache.lookup (cacheEntry before q) with
  | none => exact Ensures.pure ⟨rfl, fun _ hr => by cases hr⟩
  | some stored =>
    obtain ⟨xs, ys, hmem, -⟩ := List.lookup_eq_some_iff.mp hl
    obtain ⟨r, hr, hstates⟩ := says_of_entry hq (h (cacheEntry before q, stored) (by simp [hmem]))
    refine Ensures.bind (Ensures.lift (Q := fun a s => a = r ∧ s = st) hr ⟨rfl, rfl⟩) ?_
    rintro _ _ ⟨rfl, rfl⟩
    exact Ensures.pure ⟨rfl, fun _ hr => Option.some.inj hr ▸ hstates⟩

theorem Inv.insert (h : Inv st) {key : Query} {result : PartialValidity} (hk : Says key result) :
    Inv (st.insert key result) := by
  unfold State.insert
  split_ifs
  · exact h
  · intro p hp
    rcases List.mem_cons.mp hp with rfl | hp
    · exact hk
    · exact h p hp

theorem cacheInsert_ensures (h : Inv st) (hq : q.Proper) {result : PartialValidity}
    (hr : Says q result) :
    Ensures (fun _ => False) (cacheInsert before q result) st (fun _ => Inv) := by
  obtain ⟨r, ho, hstates⟩ : ∃ r, orient (canonicalizeQuery before q.expr).2 result = .ok r ∧
      Says (cacheEntry before q) r := says_entry hq hr
  refine Ensures.bind (Ensures.lift (Q := fun a s => a = r ∧ s = st) ho ⟨rfl, rfl⟩) ?_
  rintro _ _ ⟨rfl, rfl⟩
  exact Ensures.modify (h.insert hstates)

/-- An answer that was learned is stored, then returned. -/
theorem insert_pure_ensures (h : Inv st) (hq : q.Proper) {result : PartialValidity}
    (hr : Says q result) {α : Type} {a : α} {Q : α → Prop} (ha : Q a) :
    Ensures (fun _ => False) (do cacheInsert before q result; pure a) st
      (fun r st' => Inv st' ∧ Q r) :=
  (cacheInsert_ensures h hq hr).bind fun _ _ hst => Ensures.pure ⟨hst, ha⟩

theorem call_ensures (h : Inv st) {α : Type} {x : StateM S α} {Q : α → Prop}
    (hx : ∀ s, Q (x s).1) :
    Ensures (fun _ => False) (call x) st (fun r st' => Inv st' ∧ Q r) :=
  ⟨h, hx st.solver⟩

/-- The answer, if there is one, is the validity of the query; there is one unless the
layer below failed. -/
def ValidityRight (impl : SolverImpl S) (q : Query) (r : Option Validity) : Prop :=
  (∀ v, r = some v → v = validity q.constraints q.expr) ∧ (impl.Decides → r.isSome = true)

def TruthRight (impl : SolverImpl S) (q : Query) (r : Option Bool) : Prop :=
  (∀ b, r = some b → (b = true ↔ q.Valid)) ∧ (impl.Decides → r.isSome = true)

theorem validityRight_some {v : Validity} (h : v = validity q.constraints q.expr) :
    ValidityRight impl q (some v) :=
  ⟨fun _ hv => Option.some.inj hv ▸ h, fun _ => rfl⟩

theorem truthRight_some {b : Bool} (h : b = true ↔ q.Valid) : TruthRight impl q (some b) :=
  ⟨fun _ hb => Option.some.inj hb ▸ h, fun _ => rfl⟩

/-- What the layer below answers about truth. -/
theorem computeTruth_right (ht : impl.Truthful) (hq : q.Proper) (s : S) :
    TruthRight impl q (impl.computeTruth q s).1 :=
  ⟨fun b hb => ht.computeTruth q s b hq hb, fun hd => hd.computeTruth q s hq⟩

theorem computeValidity_right (ht : impl.Truthful) (hq : q.Proper) (s : S) :
    ValidityRight impl q (impl.computeValidity q s).1 :=
  ⟨fun v hv => ht.computeValidity q s v hq hv, fun hd => hd.computeValidity q s hq⟩

/-- The question settles a query of which one side is known to be possible. -/
theorem refineValidity_ensures (ht : impl.Truthful) (h : Inv st) (hq : q.Proper) {asked : Query}
    (ha : asked.Proper) {must : PartialValidity} {verdict : Validity}
    (hyes : asked.Valid → Says q must ∧ verdict = validity q.constraints q.expr)
    (hno : ¬ asked.Valid → Says q .TrueOrFalse) :
    Ensures (fun _ => False) (refineValidity impl before q asked must verdict) st
      (fun r st' => Inv st' ∧ ValidityRight impl q r) := by
  refine (call_ensures h (computeTruth_right ht ha)).bind ?_
  rintro (_ | _ | _) st' ⟨hst, hr⟩
  · exact Ensures.pure ⟨hst, ⟨nofun, hr.2⟩⟩
  · have hboth := hno fun hv => by simpa using (hr.1 false rfl).mpr hv
    have ⟨⟨σ, hσ, hσe⟩, τ, hτ, hτe⟩ := hboth
    exact insert_pure_ensures hst hq hboth
      (validityRight_some (validity_eq_unknown hσ hσe hτ hτe).symm)
  · obtain ⟨hstates, hv⟩ := hyes ((hr.1 true rfl).mp rfl)
    exact insert_pure_ensures hst hq hstates (validityRight_some hv)

theorem missValidity_ensures (ht : impl.Truthful) (h : Inv st) (hq : q.Proper) :
    Ensures (fun _ => False) (missValidity impl before q) st
      (fun r st' => Inv st' ∧ ValidityRight impl q r) := by
  refine (call_ensures h (computeValidity_right ht hq)).bind ?_
  rintro (_ | v) st' ⟨hst, hr⟩
  · exact Ensures.pure ⟨hst, ⟨nofun, hr.2⟩⟩
  · obtain rfl := hr.1 v rfl
    exact insert_pure_ensures hst hq (says_ofValidity q) (validityRight_some rfl)

theorem validity_eq_true (h : q.Valid) : validity q.constraints q.expr = .True := if_pos h

theorem computeValidity_ensures (ht : impl.Truthful) (h : Inv st) (hq : q.Proper) :
    Ensures (fun _ => False) (computeValidity impl before q) st
      (fun r st' => Inv st' ∧ ValidityRight impl q r) := by
  refine (cacheLookup_ensures h hq).bind ?_
  rintro (_ | result) _ ⟨rfl, hr⟩
  · exact missValidity_ensures ht h hq
  have hstates := hr result rfl
  cases result with
  | None => exact hstates.elim
  | MustBeTrue => exact Ensures.pure ⟨h, validityRight_some (validity_eq_true hstates).symm⟩
  | MustBeFalse =>
    exact Ensures.pure ⟨h, validityRight_some (validity_eq_false hq.satisfiable hstates).symm⟩
  | TrueOrFalse =>
    obtain ⟨⟨σ, hσ, hσe⟩, τ, hτ, hτe⟩ := hstates
    exact Ensures.pure ⟨h, validityRight_some (validity_eq_unknown hσ hσe hτ hτe).symm⟩
  | MayBeTrue =>
    refine refineValidity_ensures ht h hq hq (fun hv => ⟨hv, (validity_eq_true hv).symm⟩) ?_
    exact fun hv => ⟨hstates, (q.not_valid_iff).mp hv⟩
  | MayBeFalse =>
    have hneg := holds_createIsZero hq.isBool
    refine refineValidity_ensures ht h hq hq.negateExpr (fun hv => ?_) fun hv => ⟨?_, hstates⟩
    · have hfalse : Says q .MustBeFalse := fun σ hσ => (hneg σ).mp (hv σ hσ)
      exact ⟨hfalse, (validity_eq_false hq.satisfiable hfalse).symm⟩
    · obtain ⟨σ, hσ, he⟩ := (q.negateExpr.not_valid_iff).mp hv
      exact ⟨σ, hσ, not_not.mp fun hn => he ((hneg σ).mpr hn)⟩

theorem missTruth_ensures (ht : impl.Truthful) (h : Inv st) (hq : q.Proper)
    {cached : Option PartialValidity}
    (hc : cached = none ∨ cached = some .MayBeTrue ∧ Says q .MayBeTrue) :
    Ensures (fun _ => False) (missTruth impl before q cached) st
      (fun r st' => Inv st' ∧ TruthRight impl q r) := by
  refine (call_ensures h (computeTruth_right ht hq)).bind ?_
  rintro (_ | isValid) st' ⟨hst, hr⟩
  · exact Ensures.pure ⟨hst, ⟨nofun, hr.2⟩⟩
  have hb := hr.1 isValid rfl
  have hlearned : ∃ r, learned isValid cached = .ok r ∧ Says q r := by
    cases isValid with
    | true => exact ⟨_, rfl, hb.mp rfl⟩
    | false =>
      have hno := (q.not_valid_iff).mp fun hv => by simpa using hb.mpr hv
      rcases hc with rfl | ⟨rfl, hmay⟩
      · exact ⟨_, rfl, hno⟩
      · exact ⟨_, rfl, hmay, hno⟩
  obtain ⟨r, hl, hstates⟩ := hlearned
  refine Ensures.bind (Ensures.lift (Q := fun a s => a = r ∧ s = st') hl ⟨rfl, rfl⟩) ?_
  rintro _ _ ⟨rfl, rfl⟩
  exact insert_pure_ensures hst hq hstates (truthRight_some hb)

theorem computeTruth_ensures (ht : impl.Truthful) (h : Inv st) (hq : q.Proper) :
    Ensures (fun _ => False) (computeTruth impl before q) st
      (fun r st' => Inv st' ∧ TruthRight impl q r) := by
  refine (cacheLookup_ensures h hq).bind ?_
  rintro (_ | result) _ ⟨rfl, hr⟩
  · exact missTruth_ensures ht h hq (.inl rfl)
  have hstates := hr result rfl
  have hno : (∃ σ, q.Refutes σ) → (false = true ↔ q.Valid) := fun hσ =>
    ⟨fun hf => absurd hf (by decide), fun hv => absurd hv ((q.not_valid_iff).mpr hσ)⟩
  cases result with
  | None => exact hstates.elim
  | MustBeTrue => exact Ensures.pure ⟨h, truthRight_some ⟨fun _ => hstates, fun _ => rfl⟩⟩
  | MustBeFalse =>
    obtain ⟨σ, hσ⟩ := hq.satisfiable
    exact Ensures.pure ⟨h, truthRight_some (hno ⟨σ, hσ, hstates σ hσ⟩)⟩
  | TrueOrFalse => exact Ensures.pure ⟨h, truthRight_some (hno hstates.2)⟩
  | MayBeTrue => exact missTruth_ensures ht h hq (.inr ⟨rfl, hstates⟩)
  | MayBeFalse => exact Ensures.pure ⟨h, truthRight_some (hno hstates)⟩

/-- The answer to a call is right. -/
def Right (impl : SolverImpl S) : Call → Answer → Prop
  | .computeValidity q, .validity r => ValidityRight impl q r
  | .computeTruth q, .truth r => TruthRight impl q r
  | _, _ => False

theorem step_ensures (ht : impl.Truthful) (h : Inv st) {c : Call} (hc : c.query.Proper) :
    Ensures (fun _ => False) (step impl before c) st
      (fun answer st' => Inv st' ∧ Right impl c answer) := by
  cases c with
  | computeValidity q =>
    exact (computeValidity_ensures ht h hc).bind fun _ _ hr => Ensures.pure hr
  | computeTruth q => exact (computeTruth_ensures ht h hc).bind fun _ _ hr => Ensures.pure hr

theorem run_ensures (ht : impl.Truthful) (h : Inv st) {calls : List Call}
    (hcs : ∀ c ∈ calls, c.query.Proper) :
    Ensures (fun _ => False) (run impl before calls) st
      (fun answers st' => Inv st' ∧ List.Forall₂ (Right impl) calls answers) := by
  induction calls generalizing st with
  | nil => exact Ensures.pure ⟨h, .nil⟩
  | cons c calls ih =>
    refine (step_ensures ht h (hcs c List.mem_cons_self)).bind fun answer st' ⟨hst, ha⟩ => ?_
    refine (ih hst fun c hc => hcs c (List.mem_cons_of_mem _ hc)).bind fun _ _ ⟨hst', has⟩ => ?_
    exact Ensures.pure ⟨hst', .cons ha has⟩

end Calls

/-- The cache is transparent: over a truthful layer no assertion fails in a sequence of
calls, and each answer is the validity or the truth of its own query. -/
theorem run_transparent {S : Type} (impl : SolverImpl S) (ht : impl.Truthful)
    (before : Expr → Expr → Bool) (s : S) (calls : List Call)
    (hcs : ∀ c ∈ calls, c.query.Proper) :
    ∃ answers st, run impl before calls ⟨[], s⟩ = .ok (answers, st) ∧
      List.Forall₂ (Right impl) calls answers := by
  have h : Ensures (fun _ => False) (run impl before calls) ⟨[], s⟩ _ :=
    run_ensures ht (by simp [Inv]) hcs
  obtain ⟨answers, st, hrun, -, hright⟩ := h.returns
  exact ⟨answers, st, hrun, hright⟩

/-- After a failed proof of `x = 0`, the negated query is answered from the entry it
shares with the first one. -/
theorem run_transparent_negated :
    let isZero := Expr.binary .Eq (.alloc 0 8) (.read (.root ⟨"x", 1, 0, []⟩) (.alloc 0 32))
    ∃ st, run idealImpl (fun _ _ => true)
      [.computeTruth ⟨[], isZero⟩, .computeValidity ⟨[], isZero.createIsZero⟩] ⟨[], ⟨⟩⟩ =
        .ok ([.truth (some false), .validity (some .Unknown)], st) := by
  intro isZero
  have hyes : Holds (fun _ _ => 0#8) isZero := rfl
  have hno : ¬ Holds (fun _ _ => 1#8) isZero := by decide
  have hp : Query.Proper ⟨[], isZero⟩ := ⟨rfl, _, satisfies_nil fun _ _ => 0#8⟩
  obtain ⟨answers, st, hrun, hright⟩ := run_transparent idealImpl idealImpl_truthful
    (fun _ _ => true) ⟨⟩
    [.computeTruth ⟨[], isZero⟩, .computeValidity ⟨[], isZero.createIsZero⟩] (by
      intro c hc
      rcases List.mem_pair.mp hc with rfl | rfl
      · exact hp
      · exact hp.negateExpr)
  refine ⟨st, hrun.trans ?_⟩
  obtain - | ⟨h₁, - | ⟨h₂, - | _⟩⟩ := hright
  next a b =>
  obtain ⟨⟩ | ⟨_ | isValid⟩ := a
  · exact h₁.elim
  · simpa using h₁.2 idealImpl_decides
  obtain ⟨_ | result⟩ | ⟨⟩ := b
  · simpa using h₂.2 idealImpl_decides
  · have hv : validity [] isZero.createIsZero = .Unknown :=
      validity_eq_unknown (satisfies_nil _) ((holds_createIsZero hp.isBool _).mpr hno)
        (satisfies_nil _) fun h => (holds_createIsZero hp.isBool _).mp h hyes
    have hb : isValid = false := by
      refine Bool.eq_false_iff.mpr fun hb => hno ?_
      exact (h₁.1 isValid rfl).mp hb _ (satisfies_nil _)
    rw [hb, h₂.1 result rfl, hv]
  · exact h₂.elim

end CachingSolver

end TaseVerifier
