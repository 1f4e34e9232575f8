import Mathlib.Data.List.TakeWhile
import TaseVerifier.Executor.ToUnique
import TaseVerifier.Expr.Hash
import TaseVerifier.Solver.CanonicalSpec

/-! The values an expression can have, found by asking the solver for one value after
the other and kept in a cache. The cache is keyed by a sum of the hashes of the
canonical query, is written to a text file and read back from it. -/

namespace TaseVerifier

namespace Executor

/-! ### The cache -/

/-- `getNPossibleValuesCache`: the entries in the order of their keys. The values are
constants. -/
abbrev ValuesCache := List (BitVec 32 × List APInt)

namespace ValuesCache

/-- `std::map::insert`: an entry of the same key stays. -/
def insert (key : BitVec 32) (vals : List APInt) : ValuesCache → ValuesCache
  | [] => [(key, vals)]
  | p :: rest =>
    if key < p.1 then (key, vals) :: p :: rest
    else if key = p.1 then p :: rest
    else p :: insert key vals rest

/-- The values under the key, none if there is no entry. -/
def find (key : BitVec 32) (cache : ValuesCache) : List APInt := (cache.lookup key).getD []

end ValuesCache

def getExprConstraintHashKey (hashValue : APInt → BitVec 32) (constraints : List Expr) (e : Expr) :
    BitVec 32 :=
  constraints.foldl (fun hashSum c => hashSum + c.hash hashValue) (e.hash hashValue)

/-! ### The file -/

/-- A decimal number, as `%u` and `%llu` write it. -/
def decimal (n : ℕ) : List Char := Nat.toDigits 10 n

/-- The line of an entry. -/
def printEntry (entry : BitVec 32 × List APInt) : List Char :=
  decimal entry.1.toNat ++ entry.2.flatMap (fun v => ' ' :: decimal v.toNat) ++ ['\n']

def printGetNPossibleValuesCache (cache : ValuesCache) : List Char := cache.flatMap printEntry

/-- What a loop over `std::getline` yields: the pieces that end at a delimiter, and the
rest if there is one. -/
def getlines (delim : Char) : List Char → List (List Char)
  | [] => []
  | c :: cs =>
    if c = delim then [] :: getlines delim cs
    else match getlines delim cs with
      | [] => [[c]]
      | line :: lines => (c :: line) :: lines

/-- `std::stoul`: blanks, then the longest run of digits; it throws where there is none
and where the number is too large. The file has no signs. -/
def stoul (s : List Char) : Option ℕ :=
  let digits := (s.dropWhile Char.isWhitespace).takeWhile Char.isDigit
  let n := Nat.ofDigitChars 10 digits 0
  if digits = [] ∨ 2 ^ 64 ≤ n then none else some n

def loadEntry (line : List Char) : Option (BitVec 32 × List APInt) :=
  match getlines ' ' line with
  | [] => none
  | key :: vals => do
    let key ← stoul key
    let vals ← vals.mapM stoul
    pure (BitVec.ofNat 32 key, vals.map (APInt.ofNat Width.Int64))

/-- The entries of the file go into an empty cache, in their order. -/
def loadGetNPossibleValuesCache (file : List Char) : Option ValuesCache := do
  let entries ← (getlines '\n' file).mapM loadEntry
  pure (entries.foldl (fun cache p => ValuesCache.insert p.1 p.2 cache) [])

/-! ### The values -/

/-- Where the process stops instead of returning. -/
inductive ValuesStop where
  | abort (reason : Abort)
  /-- The solver found no value, or too many values were found. -/
  | exit
  deriving DecidableEq

/-- A returned vector, and whether the enumeration came to its end. -/
inductive Values where
  | all (vals : List APInt)
  | limit (vals : List APInt)
  deriving DecidableEq

structure ValuesQuery where
  constraints : List Expr
  e : Expr
  n : ℤ
  failOnTooBig : Bool

/-- The loop, with `n` rounds left. -/
def enumerate (solver : Solver) (e : Expr) :
    ℕ → List Expr → List APInt → Except ValuesStop Values
  | 0, _, sols => .ok (.limit sols)
  | n + 1, constraints, sols =>
    match solver.getValue constraints e with
    | none => .error .exit
    | some res =>
      let eq := EqExpr.create e (.constant res)
      match solver.mustBeTrue constraints eq with
      | some true => .ok (.all (sols ++ [res]))
      | _ => enumerate solver e n (constraints ++ [NotExpr.create eq]) (sols ++ [res])

/-- The cache of the process and the file it writes; no file is an empty one. -/
structure ValuesState where
  cache : ValuesCache
  file : List Char

section Calls

variable (arrays : ArrayCache) (hashValue : APInt → BitVec 32) (solver : Solver)

def checkGetNPossibleValuesCache (constraints : List Expr) (e : Expr) (cache : ValuesCache) :
    List APInt :=
  if e.getWidth = Width.Int64 then
    cache.find (getExprConstraintHashKey hashValue constraints e)
  else []

def updateGetNPossibleValuesCache (constraints : List Expr) (e : Expr) (vals : List APInt)
    (cache : ValuesCache) : ValuesCache :=
  if e.getWidth = Width.Int64 then
    cache.insert (getExprConstraintHashKey hashValue constraints e) vals
  else cache

/-- The end of a call whose lookup failed, over the canonical query. -/
def finishValues (q : ValuesQuery) (e : Expr) (constraints : List Expr) (s : ValuesState) :
    Values → Except ValuesStop (Values × ValuesState)
  | .all sols => .ok (.all sols, { s with
      cache := updateGetNPossibleValuesCache hashValue constraints e sols s.cache })
  | .limit sols => if q.failOnTooBig then .error .exit else .ok (.limit sols, s)

def getNPossibleValues (q : ValuesQuery) (s : ValuesState) : Except ValuesStop (Values × ValuesState) :=
  match canonicalize arrays q.e q.constraints with
  | .error reason => .error (.abort reason)
  | .ok (e, constraints) =>
    match checkGetNPossibleValuesCache hashValue constraints e s.cache with
    | [] => enumerate solver e q.n.toNat constraints [] >>= finishValues hashValue q e constraints s
    | sols => .ok (.all sols, s)

inductive ValuesOp where
  | getNPossibleValues (q : ValuesQuery)
  | print
  | load

/-- The calls in turn until the process stops, and what they returned. -/
def runValues : List ValuesOp → ValuesState → List (ValuesQuery × Values)
  | [], _ => []
  | .getNPossibleValues q :: ops, s =>
    match getNPossibleValues arrays hashValue solver q s with
    | .error _ => []
    | .ok (vals, s') => (q, vals) :: runValues ops s'
  | .print :: ops, s => runValues ops { s with file := printGetNPossibleValuesCache s.cache }
  | .load :: ops, s =>
    match loadGetNPossibleValuesCache s.file with
    | none => []
    | some cache => runValues ops { s with cache := cache }

end Calls

/-! ### What is printed is read back -/

theorem getlines_append {delim : Char} {line : List Char} (h : delim ∉ line) (rest : List Char) :
    getlines delim (line ++ delim :: rest) = line :: getlines delim rest := by
  induction line with
  | nil => simp [getlines]
  | cons c line ih =>
    rw [List.mem_cons, not_or] at h
    rw [List.cons_append, getlines, if_neg (Ne.symm h.1), ih h.2]

theorem getlines_rest {delim : Char} {line : List Char} (h : delim ∉ line) (hne : line ≠ []) :
    getlines delim line = [line] := by
  induction line with
  | nil => exact absurd rfl hne
  | cons c line ih =>
    rw [List.mem_cons, not_or] at h
    rw [getlines, if_neg (Ne.symm h.1)]
    cases line with
    | nil => rfl
    | cons d line => rw [ih h.2 (List.cons_ne_nil d line)]

theorem isDigit_of_mem_decimal {n : ℕ} {c : Char} (h : c ∈ decimal n) : c.isDigit = true :=
  Nat.isDigit_of_mem_toDigits (by decide) (by decide) h

theorem notMem_decimal {c : Char} (hc : c.isDigit = false) (n : ℕ) : c ∉ decimal n := by
  intro h
  rw [isDigit_of_mem_decimal h] at hc
  cases hc

theorem stoul_decimal {n : ℕ} (h : n < 2 ^ 64) : stoul (decimal n) = some n := by
  have hne : decimal n ≠ [] := Nat.toDigits_ne_nil
  have hdrop : (decimal n).dropWhile Char.isWhitespace = decimal n := by
    obtain ⟨c, cs, hcs⟩ := List.exists_cons_of_ne_nil hne
    have hdigit : c.isDigit = true := isDigit_of_mem_decimal (by rw [hcs]; exact List.mem_cons_self)
    have hblank : c.isWhitespace = false := by
      by_contra hw
      simp only [Bool.not_eq_false, Char.isWhitespace, Bool.or_eq_true, decide_eq_true_eq] at hw
      rcases hw with ((rfl | rfl) | rfl) | rfl <;> cases hdigit
    rw [hcs, List.dropWhile_cons_of_neg (by simp [hblank])]
  have htake : (decimal n).takeWhile Char.isDigit = decimal n :=
    List.takeWhile_eq_self_iff.mpr fun c hc => isDigit_of_mem_decimal hc
  have hval : Nat.ofDigitChars 10 (decimal n) 0 = n := Nat.ofDigitChars_ten_toDigits
  unfold stoul
  simp only [hdrop, htake, hval]
  rw [if_neg]
  rintro (h' | h')
  · exact hne h'
  · omega

theorem mapM_eq_some_map {α β : Type} {f : α → Option β} {g : α → β} {as : List α}
    (h : ∀ a ∈ as, f a = some (g a)) : as.mapM f = some (as.map g) := by
  induction as with
  | nil => rfl
  | cons a as ih =>
    obtain ⟨ha, has⟩ := List.forall_mem_cons.mp h
    rw [List.mapM_cons, ha, ih has]
    rfl

theorem getlines_values (n : ℕ) (vals : List APInt) :
    getlines ' ' (decimal n ++ vals.flatMap (fun v => ' ' :: decimal v.toNat)) =
      decimal n :: vals.map (fun v => decimal v.toNat) := by
  induction vals generalizing n with
  | nil =>
    simp only [List.flatMap_nil, List.append_nil, List.map_nil]
    exact getlines_rest (notMem_decimal rfl n) Nat.toDigits_ne_nil
  | cons v vals ih =>
    rw [List.flatMap_cons, List.cons_append, getlines_append (notMem_decimal rfl n), ih]
    rfl

theorem getlines_printed (cache : ValuesCache) :
    getlines '\n' (printGetNPossibleValuesCache cache) = cache.map fun p =>
      decimal p.1.toNat ++ p.2.flatMap (fun v => ' ' :: decimal v.toNat) := by
  induction cache with
  | nil => rfl
  | cons p cache ih =>
    have hline : '\n' ∉ decimal p.1.toNat ++ p.2.flatMap (fun v => ' ' :: decimal v.toNat) := by
      rw [List.mem_append, List.mem_flatMap, not_or]
      refine ⟨notMem_decimal rfl _, fun ⟨v, _, hv⟩ => ?_⟩
      rcases List.mem_cons.mp hv with hv | hv
      · cases hv
      · exact notMem_decimal rfl _ hv
    rw [printGetNPossibleValuesCache, List.flatMap_cons, printEntry, List.append_assoc,
      List.singleton_append, getlines_append hline]
    exact congrArg _ ih

theorem loadEntry_printed {p : BitVec 32 × List APInt} (h : ∀ v ∈ p.2, v.width = Width.Int64) :
    loadEntry (decimal p.1.toNat ++ p.2.flatMap (fun v => ' ' :: decimal v.toNat)) = some p := by
  have hlt : ∀ v ∈ p.2, v.toNat < 2 ^ 64 := fun v hv => by
    have := v.toNat_lt
    rwa [h v hv] at this
  have hkey : p.1.toNat < 2 ^ 64 := lt_trans p.1.isLt (by decide)
  have hvals : (p.2.map fun v => decimal v.toNat).mapM stoul = some (p.2.map APInt.toNat) := by
    rw [List.mapM_map]
    exact mapM_eq_some_map fun v hv => stoul_decimal (hlt v hv)
  have hback : (p.2.map APInt.toNat).map (APInt.ofNat Width.Int64) = p.2 := by
    rw [List.map_map]
    refine (List.map_congr_left fun v hv => ?_).trans (List.map_id p.2)
    refine APInt.ext_toNat (h v hv).symm ?_
    exact (APInt.toNat_ofNat _ _).trans (Nat.mod_eq_of_lt (hlt v hv))
  rw [loadEntry, getlines_values]
  simp only [stoul_decimal hkey, hvals, Option.bind_eq_bind, Option.bind_some, Option.pure_def,
    hback, BitVec.ofNat_toNat, BitVec.setWidth_eq]

/-- The file that was printed holds the entries of the cache. -/
theorem load_printed {cache : ValuesCache} (h : ∀ p ∈ cache, ∀ v ∈ p.2, v.width = Width.Int64) :
    loadGetNPossibleValuesCache (printGetNPossibleValuesCache cache) =
      some (cache.foldl (fun c p => ValuesCache.insert p.1 p.2 c) []) := by
  have hentries : (getlines '\n' (printGetNPossibleValuesCache cache)).mapM loadEntry = some cache := by
    rw [getlines_printed, List.mapM_map]
    exact (mapM_eq_some_map (g := id) fun p hp => loadEntry_printed (h p hp)).trans
      (congrArg some (List.map_id cache))
  rw [loadGetNPossibleValuesCache, hentries]
  rfl

/-! ### The enumeration -/

/-- The list holds each value `e` can have under the constraints, once. -/
def ExactList (constraints : List Expr) (e : Expr) (vals : List APInt) : Prop :=
  vals.Nodup ∧ ∀ v, v ∈ vals ↔ CanBe constraints e v

theorem ExactList.congr {cs cs' : List Expr} {e e' : Expr} {vals : List APInt}
    (h : ExactList cs e vals) (hv : ∀ v, CanBe cs e v ↔ CanBe cs' e' v) : ExactList cs' e' vals :=
  ⟨h.1, fun v => (h.2 v).trans (hv v)⟩

theorem ExactList.width {cs : List Expr} {e : Expr} {vals : List APInt} (h : ExactList cs e vals)
    (he : e.wellTyped = true) : ∀ v ∈ vals, v.width = e.getWidth := by
  intro v hv
  obtain ⟨σ, -, rfl⟩ := (h.2 v).mp hv
  exact e.width_eval σ he

theorem holds_create_ne {e : Expr} (he : e.wellTyped = true) {σ : Assignment} {v : APInt}
    (hw : v.width = e.getWidth) :
    Holds σ (NotExpr.create (EqExpr.create e (.constant v))) ↔ e.eval σ ≠ v := by
  have hb : (Expr.binary .Eq e (.constant v)).wellTyped = true :=
    Expr.wellTyped_binary he rfl hw.symm rfl
  have ha := EqExpr.create_agrees hb
  have hnot : (Expr.not (EqExpr.create e (.constant v))).wellTyped = true := ha.wellTyped
  rw [Ne, ← holds_create_eq he hw, Holds, Holds, (NotExpr.create_agrees hnot).eval, Expr.eval]
  obtain ⟨b, hb⟩ := Expr.eval_bool ha.wellTyped ha.getWidth σ
  rw [hb]
  cases b <;> decide

/-- The constraints of a round: those of the call, and none of the values found. -/
structure Round (cs cs' : List Expr) (e : Expr) (sols : List APInt) : Prop where
  nodup : sols.Nodup
  canBe : ∀ v ∈ sols, CanBe cs e v
  left : ∀ σ, Satisfies σ cs' ↔ Satisfies σ cs ∧ e.eval σ ∉ sols
  satisfiable : Satisfiable cs'

/-- A finished enumeration is exact; it does not stop the process. -/
theorem enumerate_spec {solver : Solver} (hideal : solver.Ideal) {cs : List Expr} {e : Expr}
    (he : e.wellTyped = true) (n : ℕ) : ∀ {cs' : List Expr} {sols : List APInt},
      Round cs cs' e sols → ∃ vals, enumerate solver e n cs' sols = .ok vals ∧
        ∀ all, vals = .all all → ExactList cs e all := by
  induction n with
  | zero => exact fun _ => ⟨_, rfl, fun all h => by cases h⟩
  | succ n ih =>
    intro cs' sols hr
    obtain ⟨v, hv, τ, hτ, hτv⟩ := hideal.getValue cs' e hr.satisfiable
    obtain ⟨hτcs, hτsols⟩ := (hr.left τ).mp hτ
    have hw : v.width = e.getWidth := hτv ▸ e.width_eval τ he
    obtain ⟨b, hb, hbt⟩ := hideal.mustBeTrue cs' (EqExpr.create e (.constant v)) hr.satisfiable
    have hone : b = true ↔ ∀ σ, Satisfies σ cs' → e.eval σ = v :=
      hbt.trans (forall₂_congr fun σ _ => holds_create_eq he hw)
    have hnodup : (sols ++ [v]).Nodup :=
      List.nodup_append.mpr ⟨hr.nodup, List.nodup_singleton v, fun a ha b hb => by
        rw [List.mem_singleton.mp hb]
        rintro rfl
        exact hτsols (hτv ▸ ha)⟩
    have hcan : ∀ u ∈ sols ++ [v], CanBe cs e u := by
      intro u hu
      rcases List.mem_append.mp hu with hu | hu
      · exact hr.canBe u hu
      · exact ⟨τ, hτcs, hτv.trans (List.mem_singleton.mp hu).symm⟩
    rw [enumerate, hv]
    simp only [hb]
    cases b with
    | true =>
      refine ⟨_, rfl, fun all h => ?_⟩
      cases h
      refine ⟨hnodup, fun u => ⟨hcan u, ?_⟩⟩
      rintro ⟨σ, hσ, rfl⟩
      by_cases hmem : e.eval σ ∈ sols
      · exact List.mem_append_left _ hmem
      · rw [hone.mp rfl σ ((hr.left σ).mpr ⟨hσ, hmem⟩)]
        exact List.mem_append_right _ List.mem_cons_self
    | false =>
      have hleft : ∀ σ, Satisfies σ (cs' ++ [NotExpr.create (EqExpr.create e (.constant v))]) ↔
          Satisfies σ cs ∧ e.eval σ ∉ sols ++ [v] := by
        intro σ
        rw [satisfies_append, satisfies_cons, holds_create_ne he hw, hr.left, List.mem_append,
          List.mem_singleton]
        simp only [satisfies_nil, and_true]
        tauto
      have hmore : ∃ σ, Satisfies σ cs' ∧ e.eval σ ≠ v := by
        by_contra hnone
        push Not at hnone
        exact absurd (hone.mpr hnone) Bool.false_ne_true
      obtain ⟨σ, hσ, hne⟩ := hmore
      refine ih ⟨hnodup, hcan, hleft, σ, (hleft σ).mpr ⟨((hr.left σ).mp hσ).1, ?_⟩⟩
      rw [List.mem_append, List.mem_singleton, not_or]
      exact ⟨((hr.left σ).mp hσ).2, hne⟩

theorem round_first {cs : List Expr} (hsat : Satisfiable cs) (e : Expr) : Round cs cs e [] where
  nodup := List.nodup_nil
  canBe _ h := by cases h
  left σ := by simp
  satisfiable := hsat

/-! ### Runs -/

namespace ValuesCache

theorem mem_insert {key : BitVec 32} {vals : List APInt} {p : BitVec 32 × List APInt} :
    ∀ {cache : ValuesCache}, p ∈ cache.insert key vals → p = (key, vals) ∨ p ∈ cache
  | [], h => .inl (List.mem_singleton.mp h)
  | q :: rest, h => by
    unfold insert at h
    split_ifs at h
    · exact List.mem_cons.mp h
    · exact .inr h
    · rcases List.mem_cons.mp h with rfl | h
      · exact .inr List.mem_cons_self
      · exact (mem_insert h).imp_right (List.mem_cons_of_mem q)

theorem mem_foldl_insert {p : BitVec 32 × List APInt} {entries : List (BitVec 32 × List APInt)} :
    ∀ {cache : ValuesCache},
      p ∈ entries.foldl (fun cache p => ValuesCache.insert p.1 p.2 cache) cache →
      p ∈ entries ∨ p ∈ cache := by
  induction entries with
  | nil => exact fun h => .inr h
  | cons q entries ih =>
    intro cache h
    rcases ih h with h | h
    · exact .inl (List.mem_cons_of_mem q h)
    · rcases mem_insert h with rfl | h
      · exact .inl List.mem_cons_self
      · exact .inr h

theorem mem_of_find {key : BitVec 32} {cache : ValuesCache} (h : cache.find key ≠ []) :
    (key, cache.find key) ∈ cache := by
  unfold find at h ⊢
  cases hl : cache.lookup key with
  | none => simp [hl] at h
  | some vals =>
    obtain ⟨l₁, l₂, heq, -⟩ := List.lookup_eq_some_iff.mp hl
    simp [heq]

end ValuesCache

section Runs

variable (arrays : ArrayCache) (hashValue : APInt → BitVec 32) {solver : Solver}

/-- The queries of the calls. -/
def valuesQueries : List ValuesOp → List ValuesQuery
  | [] => []
  | .getNPossibleValues q :: ops => q :: valuesQueries ops
  | _ :: ops => valuesQueries ops

/-- What the callers promise: well-typed expressions, constraints that can be met. -/
structure ValuesQuery.WellFormed (q : ValuesQuery) : Prop where
  wellTyped : q.e.wellTyped = true
  constraints : ∀ c ∈ q.constraints, c.wellTyped = true
  satisfiable : Satisfiable q.constraints

/-- No array of the query is one of the canonicaliser's own. -/
def ValuesQuery.Clean (q : ValuesQuery) : Prop :=
  arrays.Clean q.e ∧ ∀ c ∈ q.constraints, arrays.Clean c

/-- Queries for 64-bit values that share a key have one canonical form, up to the order
of the constraints. -/
def KeysSeparate (qs : List ValuesQuery) : Prop :=
  ∀ q₁ ∈ qs, ∀ q₂ ∈ qs, ∀ e₁ cs₁ e₂ cs₂,
    canonicalize arrays q₁.e q₁.constraints = .ok (e₁, cs₁) →
    canonicalize arrays q₂.e q₂.constraints = .ok (e₂, cs₂) →
    e₁.getWidth = Width.Int64 → e₂.getWidth = Width.Int64 →
    getExprConstraintHashKey hashValue cs₁ e₁ = getExprConstraintHashKey hashValue cs₂ e₂ →
    e₁ = e₂ ∧ cs₁.Perm cs₂

/-- Each entry holds the values of one of the queries. -/
def Sound (qs : List ValuesQuery) (cache : ValuesCache) : Prop :=
  ∀ p ∈ cache, ∃ q ∈ qs, ∃ e cs, canonicalize arrays q.e q.constraints = .ok (e, cs) ∧
    e.wellTyped = true ∧ e.getWidth = Width.Int64 ∧
    getExprConstraintHashKey hashValue cs e = p.1 ∧ ExactList cs e p.2

/-- The cache is sound, and the file was printed from a sound one. -/
def ValuesState.Inv (qs : List ValuesQuery) (s : ValuesState) : Prop :=
  Sound arrays hashValue qs s.cache ∧
    ∃ cache, Sound arrays hashValue qs cache ∧ s.file = printGetNPossibleValuesCache cache

variable {arrays hashValue} {qs : List ValuesQuery} {s s' : ValuesState} {q : ValuesQuery}

theorem Sound.width {cache : ValuesCache} (h : Sound arrays hashValue qs cache) :
    ∀ p ∈ cache, ∀ v ∈ p.2, v.width = Width.Int64 := by
  intro p hp v hv
  obtain ⟨q, -, e, cs, -, he, hw, -, hex⟩ := h p hp
  exact (hex.width he v hv).trans hw

theorem CanBe.perm {cs cs' : List Expr} (h : cs.Perm cs') (e : Expr) (v : APInt) :
    CanBe cs e v ↔ CanBe cs' e v :=
  exists_congr fun σ => and_congr_left fun _ => forall_congr' fun c => by rw [h.mem_iff]

/-- A step lemma: the call is exact, and keeps the invariant. -/
theorem getNPossibleValues_spec (hideal : solver.Ideal) (hq : q ∈ qs) (hwf : q.WellFormed)
    (hclean : q.Clean arrays) (hkeys : KeysSeparate arrays hashValue qs)
    (hs : s.Inv arrays hashValue qs) {vals : Values}
    (h : getNPossibleValues arrays hashValue solver q s = .ok (vals, s')) :
    s'.Inv arrays hashValue qs ∧ ∀ all, vals = .all all → ExactList q.constraints q.e all := by
  have hcanon := canonicalize_spec hwf.wellTyped hclean.1
    fun c hc => ⟨hwf.constraints c hc, hclean.2 c hc⟩
  unfold getNPossibleValues at h
  rcases hcanon with ⟨e, cs, hok, he, hew, hvals⟩ | herr
  · rw [hok] at h
    have hsat : Satisfiable cs := by
      obtain ⟨σ, hσ⟩ := hwf.satisfiable
      obtain ⟨τ, hτ, -⟩ := (hvals (q.e.eval σ)).mpr ⟨σ, hσ, rfl⟩
      exact ⟨τ, hτ⟩
    simp only at h
    split at h
    next =>
      -- a miss: the values are enumerated, and entered when complete
      obtain ⟨vals', hen, hall⟩ := enumerate_spec hideal he q.n.toNat (round_first hsat e)
      rw [hen] at h
      change finishValues hashValue q e cs s vals' = .ok (vals, s') at h
      unfold finishValues at h
      split at h
      next sols =>
        cases h
        have hex := hall sols rfl
        refine ⟨⟨?_, hs.2⟩, fun all hal => ?_⟩
        · unfold updateGetNPossibleValuesCache
          split_ifs with hw
          · intro p hp
            rcases ValuesCache.mem_insert hp with rfl | hp
            · exact ⟨q, hq, e, cs, hok, he, hw, rfl, hex⟩
            · exact hs.1 p hp
          · exact hs.1
        · cases hal
          exact hex.congr hvals
      next sols =>
        split_ifs at h
        cases h
        exact ⟨hs, fun all hal => by cases hal⟩
    next hhit =>
      -- a hit: the entry is that of a query with the same canonical form
      cases h
      refine ⟨hs, fun all hal => ?_⟩
      cases hal
      unfold checkGetNPossibleValuesCache at hhit ⊢
      split_ifs at hhit ⊢ with hw
      · obtain ⟨q', hq', e', cs', hok', he', hw', hkey, hex⟩ :=
          hs.1 _ (ValuesCache.mem_of_find hhit)
        obtain ⟨rfl, hperm⟩ := hkeys q' hq' q hq e' cs' e cs hok' hok hw' hw hkey
        exact hex.congr fun v => (CanBe.perm hperm e' v).trans (hvals v)
      · exact absurd rfl hhit
  · rw [herr] at h
    cases h

theorem sound_nil : Sound arrays hashValue qs [] := fun _ hp => absurd hp List.not_mem_nil

theorem ValuesState.Inv.print (h : s.Inv arrays hashValue qs) :
    (ValuesState.mk s.cache (printGetNPossibleValuesCache s.cache)).Inv arrays hashValue qs :=
  ⟨h.1, s.cache, h.1, rfl⟩

theorem ValuesState.Inv.load (h : s.Inv arrays hashValue qs) :
    ∃ cache, loadGetNPossibleValuesCache s.file = some cache ∧
      (ValuesState.mk cache s.file).Inv arrays hashValue qs := by
  obtain ⟨-, cache, hcache, hfile⟩ := h
  have hload := load_printed hcache.width
  rw [← hfile] at hload
  refine ⟨_, hload, fun p hp => ?_, cache, hcache, hfile⟩
  rcases ValuesCache.mem_foldl_insert hp with hp | hp
  · exact hcache p hp
  · exact absurd hp List.not_mem_nil

/-- The run lemma, from any state that satisfies the invariant. -/
theorem runValues_inv (hideal : solver.Ideal) (hwf : ∀ q ∈ qs, q.WellFormed)
    (hclean : ∀ q ∈ qs, q.Clean arrays) (hkeys : KeysSeparate arrays hashValue qs)
    (ops : List ValuesOp) : ∀ s : ValuesState, valuesQueries ops ⊆ qs → s.Inv arrays hashValue qs →
      ∀ q vals, (q, Values.all vals) ∈ runValues arrays hashValue solver ops s →
        ExactList q.constraints q.e vals := by
  induction ops with
  | nil => exact fun s _ _ q vals h => absurd h List.not_mem_nil
  | cons op ops ih =>
    intro s hsub hs q vals hmem
    cases op with
    | getNPossibleValues q' =>
      rw [valuesQueries, List.cons_subset] at hsub
      unfold runValues at hmem
      split at hmem
      next => exact absurd hmem List.not_mem_nil
      next vals' s' hcall =>
        obtain ⟨hs', hex⟩ := getNPossibleValues_spec hideal hsub.1 (hwf q' hsub.1)
          (hclean q' hsub.1) hkeys hs hcall
        rcases List.mem_cons.mp hmem with heq | hmem
        · obtain ⟨rfl, rfl⟩ := Prod.mk.inj heq
          exact hex vals rfl
        · exact ih s' hsub.2 hs' q vals hmem
    | print => exact ih _ hsub hs.print q vals hmem
    | load =>
      obtain ⟨cache, hload, hs'⟩ := hs.load
      unfold runValues at hmem
      rw [hload] at hmem
      exact ih _ hsub hs' q vals hmem

/-- In every run whose queries have no canonical arrays and separate keys, each call that
returns below its limit returns the values of its expression under its constraints, each
once. -/
theorem runValues_exact (arrays : ArrayCache) (hashValue : APInt → BitVec 32) (solver : Solver)
    (hideal : solver.Ideal) (ops : List ValuesOp) (hwf : ∀ q ∈ valuesQueries ops, q.WellFormed)
    (hclean : ∀ q ∈ valuesQueries ops, q.Clean arrays)
    (hkeys : KeysSeparate arrays hashValue (valuesQueries ops)) :
    ∀ q vals, (q, Values.all vals) ∈ runValues arrays hashValue solver ops ⟨[], []⟩ →
      vals.Nodup ∧ ∀ v, v ∈ vals ↔ CanBe q.constraints q.e v :=
  runValues_inv hideal hwf hclean hkeys ops _ (List.Subset.refl _)
    ⟨sound_nil, [], sound_nil, rfl⟩

end Runs

/-- A cache whose arrays are told apart by name and size. -/
def plainArrays : ArrayCache := .plain

theorem enumerate_unique {solver : Solver} (hideal : solver.Ideal) {cs : List Expr} {e : Expr}
    {v : APInt} (he : e.wellTyped = true) (hsat : Satisfiable cs)
    (hone : ∀ σ, Satisfies σ cs → e.eval σ = v) (n : ℕ) :
    enumerate solver e (n + 1) cs [] = .ok (.all [v]) := by
  obtain ⟨u, hu, τ, hτ, hτu⟩ := hideal.getValue cs e hsat
  obtain rfl : u = v := hτu.symm.trans (hone τ hτ)
  have hw : u.width = e.getWidth := hτu ▸ e.width_eval τ he
  obtain ⟨b, hb, hbt⟩ := hideal.mustBeTrue cs (EqExpr.create e (.constant u)) hsat
  have hbtrue : b = true := hbt.mpr fun σ hσ => (holds_create_eq he hw).mpr (hone σ hσ)
  rw [enumerate, hu]
  simp only [hb, hbtrue]
  rfl

section Bytes

/-- The extension of a byte of `x` to 64 bits. -/
def extended (k : CastKind) (x : KleeArray) : Expr := .cast k (.read (.root x) (.alloc 0 32)) 64

/-- The byte of `x` is 200. -/
def is200 (x : KleeArray) : Expr := .binary .Eq (.alloc 200 8) (.read (.root x) (.alloc 0 32))

def byteQuery (k : CastKind) : ValuesQuery :=
  ⟨[is200 ⟨"a", 1, 0, []⟩], extended k ⟨"a", 1, 0, []⟩, 100, true⟩

theorem extended_eval (k : CastKind) {x : KleeArray} (hx : x.wellTyped = true) {σ : Assignment}
    (h : Satisfies σ [is200 x]) : (extended k x).eval σ = k.apply (APInt.ofNat 8 200) 64 := by
  have ht : (Expr.read (.root x) (.alloc 0 32)).wellTyped = true := by
    simp [Expr.wellTyped, UpdateList.wellTyped, hx, Expr.alloc, APInt.ofNat, Width.Int32]
  have hb : (is200 x).wellTyped = true := Expr.wellTyped_binary rfl ht rfl rfl
  have heq := (holds_eq hb).mp (h _ List.mem_cons_self)
  rw [extended, Expr.eval, ← heq]
  rfl

theorem byteQuery_wellFormed (k : CastKind) : (byteQuery k).WellFormed where
  wellTyped := by cases k <;> rfl
  constraints := by cases k <;> decide
  satisfiable := ⟨fun _ _ => 200#8, by cases k <;> decide⟩

theorem byteQuery_clean (k : CastKind) : (byteQuery k).Clean plainArrays := by
  have ha : ¬ plainArrays.IsCanonical ⟨"a", 1, 0, []⟩ :=
    plainArrays.not_isCanonical_of_name (by decide)
  have hroots : ∀ e ∈ (byteQuery k).e :: (byteQuery k).constraints,
      ∀ x ∈ e.symbolicRoots, x = ⟨"a", 1, 0, []⟩ := by
    cases k <;> decide
  exact ⟨fun x hx => hroots _ List.mem_cons_self x hx ▸ ha,
    fun c hc x hx => hroots c (List.mem_cons_of_mem _ hc) x hx ▸ ha⟩

theorem byteQuery_canonical (k : CastKind) :
    canonicalize plainArrays (byteQuery k).e (byteQuery k).constraints =
      .ok (extended k ⟨"c_1_1", 1, 0, []⟩, [is200 ⟨"c_1_1", 1, 0, []⟩]) := by
  cases k <;> rfl

/-- The first call finds the one value and enters it. -/
theorem byteQuery_first (hashValue : APInt → BitVec 32) (k : CastKind) (file : List Char) :
    getNPossibleValues plainArrays hashValue idealSolver (byteQuery k) ⟨[], file⟩ =
      .ok (.all [k.apply (APInt.ofNat 8 200) 64], ⟨[(getExprConstraintHashKey hashValue
        [is200 ⟨"c_1_1", 1, 0, []⟩] (extended k ⟨"c_1_1", 1, 0, []⟩),
        [k.apply (APInt.ofNat 8 200) 64])], file⟩) := by
  have hx : (⟨"c_1_1", 1, 0, []⟩ : KleeArray).wellTyped = true := rfl
  have hen : enumerate idealSolver (extended k ⟨"c_1_1", 1, 0, []⟩) 100 [is200 ⟨"c_1_1", 1, 0, []⟩] [] =
      .ok (.all [k.apply (APInt.ofNat 8 200) 64]) :=
    enumerate_unique idealSolver_ideal (by cases k <;> rfl)
      ⟨fun _ _ => 200#8, by decide⟩ (fun σ hσ => extended_eval k hx hσ) 99
  unfold getNPossibleValues
  rw [byteQuery_canonical]
  change enumerate idealSolver _ 100 _ [] >>= _ = _
  rw [hen]
  rfl

end Bytes

/-- Two calls of one query with the cache written and read in between. -/
theorem runValues_exact_reload : ∃ vals,
    let ops := [.getNPossibleValues (byteQuery .ZExt), .print, .load,
      .getNPossibleValues (byteQuery .ZExt)]
    (byteQuery .ZExt, Values.all vals) ∈
      runValues plainArrays (fun _ => 0) idealSolver ops ⟨[], []⟩ ∧
    vals.Nodup ∧ ∀ v, v ∈ vals ↔ CanBe (byteQuery .ZExt).constraints (byteQuery .ZExt).e v := by
  have hmem : ∀ q ∈ valuesQueries [.getNPossibleValues (byteQuery .ZExt), .print, .load,
      .getNPossibleValues (byteQuery .ZExt)], q = byteQuery .ZExt := by
    simp [valuesQueries]
  have hlog : (byteQuery .ZExt, Values.all [CastKind.ZExt.apply (APInt.ofNat 8 200) 64]) ∈
      runValues plainArrays (fun _ => 0) idealSolver [.getNPossibleValues (byteQuery .ZExt), .print,
        .load, .getNPossibleValues (byteQuery .ZExt)] ⟨[], []⟩ := by
    rw [runValues, byteQuery_first]
    exact List.mem_cons_self
  refine ⟨_, hlog, runValues_exact plainArrays (fun _ => 0) idealSolver idealSolver_ideal _
    (fun q hq => hmem q hq ▸ byteQuery_wellFormed .ZExt)
    (fun q hq => hmem q hq ▸ byteQuery_clean .ZExt) ?_ _ _ hlog⟩
  intro q₁ h₁ q₂ h₂ e₁ cs₁ e₂ cs₂ hok₁ hok₂ _ _ _
  rw [hmem q₁ h₁] at hok₁
  rw [hmem q₂ h₂, hok₁] at hok₂
  obtain ⟨rfl, rfl⟩ := Prod.mk.inj (Except.ok.inj hok₂)
  exact ⟨rfl, List.Perm.refl _⟩

/-- The kind of an extension is not in its hash. -/
theorem key_extended (hashValue : APInt → BitVec 32) (cs : List Expr) (x : KleeArray) :
    getExprConstraintHashKey hashValue cs (extended .SExt x) =
      getExprConstraintHashKey hashValue cs (extended .ZExt x) := by
  simp [getExprConstraintHashKey, extended, Expr.hash]

theorem byteQuery_second (hashValue : APInt → BitVec 32) :
    (byteQuery .SExt, Values.all [APInt.ofNat 64 200]) ∈ runValues plainArrays hashValue idealSolver
      [.getNPossibleValues (byteQuery .ZExt), .getNPossibleValues (byteQuery .SExt)] ⟨[], []⟩ := by
  rw [runValues, byteQuery_first]
  refine List.mem_cons_of_mem _ ?_
  have hfind : checkGetNPossibleValuesCache hashValue [is200 ⟨"c_1_1", 1, 0, []⟩]
      (extended .SExt ⟨"c_1_1", 1, 0, []⟩) [(getExprConstraintHashKey hashValue
        [is200 ⟨"c_1_1", 1, 0, []⟩] (extended .ZExt ⟨"c_1_1", 1, 0, []⟩),
        [CastKind.ZExt.apply (APInt.ofNat 8 200) 64])] = [APInt.ofNat 64 200] := by
    rw [checkGetNPossibleValuesCache, if_pos (by decide), key_extended, ValuesCache.find,
      List.lookup_cons_self]
    decide
  rw [runValues, getNPossibleValues, byteQuery_canonical]
  simp only [hfind]
  exact List.mem_cons_self

/-- The sign extension of a byte is answered with the value of its zero extension. -/
theorem runValues_confuses_extensions : ¬ ∃ hashValue, ∀ ops : List ValuesOp,
    (∀ q ∈ valuesQueries ops, q.WellFormed) →
    ∀ q vals, (q, Values.all vals) ∈ runValues plainArrays hashValue idealSolver ops ⟨[], []⟩ →
      vals.Nodup ∧ ∀ v, v ∈ vals ↔ CanBe q.constraints q.e v := by
  rintro ⟨hashValue, hall⟩
  have hwf : ∀ q ∈ valuesQueries [.getNPossibleValues (byteQuery .ZExt),
      .getNPossibleValues (byteQuery .SExt)], q.WellFormed := by
    simp [valuesQueries, byteQuery_wellFormed]
  obtain ⟨-, hvals⟩ := hall _ hwf _ _ (byteQuery_second hashValue)
  obtain ⟨σ, hσ, hv⟩ := (hvals (APInt.ofNat 64 200)).mp List.mem_cons_self
  have heval : (byteQuery .SExt).e.eval σ = CastKind.SExt.apply (APInt.ofNat 8 200) 64 :=
    extended_eval .SExt rfl hσ
  rw [heval] at hv
  exact absurd hv (by decide)

end Executor

end TaseVerifier
