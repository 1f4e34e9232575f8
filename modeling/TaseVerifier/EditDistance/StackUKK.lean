import TaseVerifier.EditDistance.Diagonals

/-! What `EditDistanceStaticUKK` and `EditDistanceDynamicUKK` share: before an entry is
computed, the entries it rests on that are still missing are put on a stack, level by level
down to one where none is missing, and computed from the top of the stack. The two differ in
the table that keeps the entries. -/

namespace TaseVerifier

open Library

namespace EditDistance

/-- The table's operations. A read may change the table. -/
structure TableOps (σ : Type) where
  computed_U : σ → ℤ → ℤ → Option Bool
  U : σ → ℤ → ℤ → Option (ℤ × σ)
  set_U : σ → ℤ → ℤ → ℤ → Option σ

namespace StackUKK

variable {σ : Type} (ops : TableOps σ)

/-- `assert(computed_U(i, j));` -/
def assertComputed (u : σ) (i j : ℤ) : Option Unit := do
  if (← ops.computed_U u i j) then some () else none

/-- The branch of `compute_U` for an entry not computed; `extend` is its last loop. -/
def fromPredecessors (extend : ℤ → ℤ → Option ℤ) (ab d : ℤ) (u : σ) : Option (ℤ × σ) := do
  assertComputed ops u (ab - 1) (d - 1)
  assertComputed ops u ab (d - 1)
  assertComputed ops u (ab + 1) (d - 1)
  let (d1, u) ← ops.U u (ab + 1) (d - 1)
  let (d2, u) ← ops.U u ab (d - 1)
  let (d3, u) ← ops.U u (ab - 1) (d - 1)
  let dist ← extend ab (max d1 (max (d2 + 1) (d3 + 1)))
  some (dist, u)

/-- `for (int j=-i; j<=i; ++j)` with the flag `all_clear` and the stack. -/
def pushLevel (u : σ) (ab d : ℤ) (i : ℕ) (to_compute : List (ℤ × ℤ)) :
    Option (Bool × List (ℤ × ℤ)) :=
  (List.range' 0 (2 * i + 1)).foldlM (fun st (n : ℕ) => do
    let j : ℤ := n - i
    if (← ops.computed_U u (ab + j) (d - i)) then some st
    else some (false, (ab + j, d - i) :: st.2)) (true, to_compute)

/-- `for (int i=1; i<d; ++i)`: `n` rounds from `i` on, with its `break`. -/
def pushLevels (u : σ) (ab d : ℤ) : ℕ → ℕ → List (ℤ × ℤ) → Option (List (ℤ × ℤ))
  | 0, _, to_compute => some to_compute
  | n + 1, i, to_compute => do
    let (all_clear, to_compute) ← pushLevel ops u ab d i to_compute
    if all_clear then some to_compute else pushLevels u ab d n (i + 1) to_compute

variable (compute_U : ℤ → ℤ → σ → Option (ℤ × σ))

/-- `set_U(i, j, compute_U(i, j));` -/
def update (u : σ) (c : ℤ × ℤ) : Option σ := do
  let (dist, u) ← compute_U c.1 c.2 u
  ops.set_U u c.1 c.2 dist

def UKK (ab d : ℤ) (u : σ) : Option (ℤ × σ) := do
  let to_compute ← pushLevels ops u ab d (d - 1).toNat 1 []
  let u ← to_compute.foldlM (update ops compute_U) u
  let (dist, u) ← compute_U ab d u
  let u ← ops.set_U u ab d dist
  some (dist, u)

/-- Which entries a table has, with the invariant under which its operations read and write
them. An entry can be written next to one of the level before. -/
structure Lawful (cap : ℕ) (Inv : σ → Prop) (entry : σ → ℤ → ℕ → Option ℤ) : Prop where
  computed : ∀ {u k} {d : ℕ}, Inv u →
    ops.computed_U u k d = some (decide (d < k.natAbs) || (entry u k d).isSome)
  read : ∀ {u k} {d : ℕ} {v}, Inv u → entry u k d = some v → ops.U u k d = some (v, u)
  outside : ∀ {u k} {d : ℕ}, d < k.natAbs → ops.U u k d = some (INT_MIN, u)
  write : ∀ {u k} {d : ℕ} {v}, Inv u → k.natAbs ≤ d → d ≤ cap → 0 ≤ v →
    (∀ e, d = e + 1 → ∃ k', (entry u k' e).isSome) →
    ∃ u', ops.set_U u k d v = some u' ∧ Inv u' ∧
      ∀ k' d', entry u' k' d' = if k' = k ∧ d' = d then some v else entry u k' d'
  writeOutside : ∀ {u k} {d : ℕ}, Inv u → d < k.natAbs →
    ∃ u', ops.set_U u k d INT_MIN = some u' ∧ Inv u' ∧ entry u' = entry u

variable {ops} {M : ℕ → ℕ → Bool} {cap : ℕ} {Inv : σ → Prop} {entry : σ → ℤ → ℕ → Option ℤ}

/-- Every entry is the frontier of its diagonal. -/
structure Good (M : ℕ → ℕ → Bool) (Inv : σ → Prop) (entry : σ → ℤ → ℕ → Option ℤ) (u : σ) : Prop where
  inv : Inv u
  zero : (entry u 0 0).isSome
  frontier : ∀ {k d v}, entry u k d = some v → k.natAbs ≤ d ∧ Frontier M k d v

/-- The entries one level down that an entry rests on. -/
def Parents (known : ℤ → ℕ → Prop) (k : ℤ) (d : ℕ) : Prop :=
  ∀ e, d = e + 1 → ∀ k' : ℤ, (k - k').natAbs ≤ 1 → k'.natAbs ≤ e → known k' e

def Known (entry : σ → ℤ → ℕ → Option ℤ) (u : σ) (k : ℤ) (d : ℕ) : Prop := (entry u k d).isSome

variable {u : σ} {k ab : ℤ} {d : ℕ}

theorem Good.U (hl : Lawful ops cap Inv entry) (h : Good M Inv entry u)
    (hk : k.natAbs ≤ d → Known entry u k d) :
    ∃ v, ops.U u k d = some (v, u) ∧ Frontier M k d v := by
  by_cases hkd : k.natAbs ≤ d
  · obtain ⟨v, hv⟩ := Option.isSome_iff_exists.1 (hk hkd)
    exact ⟨v, hl.read h.inv hv, (h.frontier hv).2⟩
  · exact ⟨INT_MIN, hl.outside (not_le.1 hkd), frontier_of_lt (not_le.1 hkd) (by decide)⟩

theorem Good.assertComputed (hl : Lawful ops cap Inv entry) (h : Good M Inv entry u)
    (hk : k.natAbs ≤ d → Known entry u k d) : assertComputed ops u k d = some () := by
  have hc : (decide (d < k.natAbs) || (entry u k d).isSome) = true := by
    by_cases hkd : k.natAbs ≤ d
    · rw [hk hkd, Bool.or_true]
    · rw [decide_eq_true (not_le.1 hkd), Bool.true_or]
  unfold StackUKK.assertComputed
  rw [hl.computed h.inv, hc]
  rfl

theorem Good.fromPredecessors (hl : Lawful ops cap Inv entry) (h : Good M Inv entry u)
    {extend : ℤ → ℤ → Option ℤ} (hext : ∀ {k d w}, Launch M k d w →
      ∃ v, extend k w = some v ∧ Frontier M k d v)
    (hk : k.natAbs ≤ d + 1) (hpar : Parents (Known entry u) k (d + 1)) :
    ∃ v, fromPredecessors ops extend k (d + 1 : ℕ) u = some (v, u) ∧ Frontier M k (d + 1) v := by
  have hup := hpar d rfl (k + 1) (by omega)
  have hsame := hpar d rfl k (by omega)
  have hdown := hpar d rfl (k - 1) (by omega)
  obtain ⟨d1, h1, hf1⟩ := h.U hl hup
  obtain ⟨d2, h2, hf2⟩ := h.U hl hsame
  obtain ⟨d3, h3, hf3⟩ := h.U hl hdown
  obtain ⟨v, hv, hf⟩ := hext (Launch.start hf1 hf2 hf3 hk rfl)
  refine ⟨v, ?_, hf⟩
  unfold StackUKK.fromPredecessors
  rw [show ((d + 1 : ℕ) : ℤ) - 1 = d by omega, h.assertComputed hl hup, h.assertComputed hl hsame,
    h.assertComputed hl hdown, h1]
  simp only [Option.bind_eq_bind, Option.bind_some, h2, h3, hv]

theorem exists_parent {e : ℕ} (h : k.natAbs ≤ e + 1) :
    ∃ k' : ℤ, (k - k').natAbs ≤ 1 ∧ k'.natAbs ≤ e := by
  rcases lt_trichotomy k 0 with h | rfl | h
  · exact ⟨k + 1, by omega, by omega⟩
  · exact ⟨0, by decide, Nat.zero_le e⟩
  · exact ⟨k - 1, by omega, by omega⟩

theorem Good.write (hl : Lawful ops cap Inv entry) (h : Good M Inv entry u) {v : ℤ}
    (hk : k.natAbs ≤ d) (hd : d ≤ cap) (hv : Frontier M k d v) (hpar : Parents (Known entry u) k d) :
    ∃ u', ops.set_U u k d v = some u' ∧ Good M Inv entry u' ∧
      ∀ k' d', Known entry u' k' d' ↔ Known entry u k' d' ∨ (k' = k ∧ d' = d) := by
  obtain ⟨u', hs, hinv, hentry⟩ := hl.write h.inv hk hd (hv.first_le hk).1 fun e he => by
    obtain ⟨k', hkk, hk'⟩ := exists_parent (he ▸ hk)
    exact ⟨k', hpar e he k' hkk hk'⟩
  have hknown : ∀ k' d', Known entry u' k' d' ↔ Known entry u k' d' ∨ (k' = k ∧ d' = d) := by
    intro k' d'
    unfold Known
    rw [hentry]
    split_ifs with he
    · simp [he]
    · simp [he]
  refine ⟨u', hs, ⟨hinv, (hknown 0 0).2 (Or.inl h.zero), fun {k' d' v'} he => ?_⟩, hknown⟩
  rw [hentry] at he
  split_ifs at he with heq
  · obtain ⟨rfl, rfl⟩ := heq
    obtain rfl := Option.some.inj he
    exact ⟨hk, hv⟩
  · exact h.frontier he

theorem Good.writeOutside (hl : Lawful ops cap Inv entry) (h : Good M Inv entry u)
    (hk : d < k.natAbs) : ∃ u', ops.set_U u k d INT_MIN = some u' ∧ Good M Inv entry u' := by
  obtain ⟨u', hs, hinv, hentry⟩ := hl.writeOutside h.inv hk
  exact ⟨u', hs, hinv, by rw [hentry]; exact h.zero, fun he => h.frontier (by rwa [hentry] at he)⟩

/-- What `computed_U` answers and `U` then reads. -/
theorem Good.cases (hl : Lawful ops cap Inv entry) (h : Good M Inv entry u) (k : ℤ) (d : ℕ) :
    (d < k.natAbs ∧ ops.computed_U u k d = some true ∧ ops.U u k d = some (INT_MIN, u)) ∨
    (∃ v, k.natAbs ≤ d ∧ ops.computed_U u k d = some true ∧ ops.U u k d = some (v, u) ∧
      Frontier M k d v) ∨
    ∃ e, d = e + 1 ∧ k.natAbs ≤ d ∧ ops.computed_U u k d = some false := by
  rw [hl.computed h.inv]
  by_cases hk : k.natAbs ≤ d
  · rw [decide_eq_false (not_lt.2 hk), Bool.false_or]
    cases hu : entry u k d with
    | some v => exact Or.inr (Or.inl ⟨v, hk, rfl, hl.read h.inv hu, (h.frontier hu).2⟩)
    | none =>
      cases d with
      | zero =>
        obtain rfl : k = 0 := by omega
        exact absurd h.zero (by simp [hu])
      | succ e => exact Or.inr (Or.inr ⟨e, rfl, hk, rfl⟩)
  · rw [decide_eq_true (not_le.1 hk), Bool.true_or]
    exact Or.inl ⟨not_le.1 hk, rfl, hl.outside (not_le.1 hk)⟩

/-- `compute_U` finds the frontier once the entries it rests on are there. -/
def Computes (M : ℕ → ℕ → Bool) (Inv : σ → Prop) (entry : σ → ℤ → ℕ → Option ℤ)
    (compute_U : ℤ → ℤ → σ → Option (ℤ × σ)) : Prop :=
  ∀ {u k} {d : ℕ}, Good M Inv entry u → Parents (Known entry u) k d →
    ∃ v, compute_U k d u = some (v, u) ∧ Frontier M k d v ∧ (d < k.natAbs → v = INT_MIN)

/-- With the entries in `known` the stack can be computed from its top, and the goal holds
at the end. -/
def Leads (cap : ℕ) (goal : (ℤ → ℕ → Prop) → Prop) : (ℤ → ℕ → Prop) → List (ℤ × ℤ) → Prop
  | known, [] => goal known
  | known, c :: cs => ∃ e : ℕ, c.2 = e ∧ c.1.natAbs ≤ e ∧ e ≤ cap ∧ Parents known c.1 e ∧
      Leads cap goal (fun k d => known k d ∨ (k = c.1 ∧ d = e)) cs

theorem Parents.mono {known known' : ℤ → ℕ → Prop} (h : Parents known k d)
    (hle : ∀ k d, known k d → known' k d) : Parents known' k d :=
  fun e he k' hk hk' => hle _ _ (h e he k' hk hk')

theorem Leads.mono {goal : (ℤ → ℕ → Prop) → Prop}
    (hgoal : ∀ known known' : ℤ → ℕ → Prop, (∀ k d, known k d → known' k d) → goal known → goal known')
    {cs : List (ℤ × ℤ)} {known known' : ℤ → ℕ → Prop} (hle : ∀ k d, known k d → known' k d)
    (h : Leads cap goal known cs) : Leads cap goal known' cs := by
  induction cs generalizing known known' with
  | nil => exact hgoal known known' hle h
  | cons c cs ih =>
    obtain ⟨e, he, hc, hcap, hpar, hrest⟩ := h
    exact ⟨e, he, hc, hcap, hpar.mono hle, ih (fun k d hkd => hkd.imp_left (hle k d)) hrest⟩

theorem exists_foldlM_update (hl : Lawful ops cap Inv entry) {compute_U : ℤ → ℤ → σ → Option (ℤ × σ)}
    (hc : Computes M Inv entry compute_U) {goal : (ℤ → ℕ → Prop) → Prop}
    (hgoal : ∀ known known' : ℤ → ℕ → Prop, (∀ k d, known k d → known' k d) → goal known → goal known')
    {cs : List (ℤ × ℤ)} (h : Good M Inv entry u) (hcs : Leads cap goal (Known entry u) cs) :
    ∃ u', cs.foldlM (update ops compute_U) u = some u' ∧ Good M Inv entry u' ∧
      goal (Known entry u') := by
  induction cs generalizing u with
  | nil => exact ⟨u, rfl, h, hcs⟩
  | cons c cs ih =>
    obtain ⟨e, he, hk, hcap, hpar, hrest⟩ := hcs
    obtain ⟨v, hv, hf, -⟩ := hc h hpar
    obtain ⟨u₁, hs, h₁, hknown⟩ := h.write hl hk hcap hf hpar
    obtain ⟨u', hu', h', hg⟩ := ih h₁ (hrest.mono hgoal fun k d hkd => (hknown k d).2 hkd)
    have hupdate : update ops compute_U u c = some u₁ := by
      rw [update, he, hv]
      exact hs
    exact ⟨u', by rw [List.foldlM_cons, hupdate]; exact hu', h', hg⟩

/-- A level puts its missing entries on the stack. -/
theorem Good.pushLevel (hl : Lawful ops cap Inv entry) (h : Good M Inv entry u) (ab : ℤ)
    {i e : ℕ} (he : (d : ℤ) - i = e) (st : List (ℤ × ℤ)) :
    ∃ cells : List (ℤ × ℤ), pushLevel ops u ab d i st = some (cells.isEmpty, cells ++ st) ∧
      (∀ c ∈ cells, c.2 = e ∧ (c.1 - ab).natAbs ≤ i ∧ c.1.natAbs ≤ e) ∧
      ∀ k : ℤ, (k - ab).natAbs ≤ i → k.natAbs ≤ e → Known entry u k e ∨ (k, (e : ℤ)) ∈ cells := by
  obtain ⟨_, hr, cells, rfl, hcells, hall⟩ := exists_foldlM_range' (a := 0) (n := 2 * i + 1)
    (f := fun (st : Bool × List (ℤ × ℤ)) (n : ℕ) => do
      let j : ℤ := n - i
      if (← ops.computed_U u (ab + j) (d - i)) then some st
      else some (false, (ab + j, (d : ℤ) - i) :: st.2))
    (P := fun n st' => ∃ cells : List (ℤ × ℤ), st' = (cells.isEmpty, cells ++ st) ∧
      (∀ c ∈ cells, c.2 = e ∧ (c.1 - ab).natAbs ≤ i ∧ c.1.natAbs ≤ e) ∧
      ∀ k : ℤ, -i ≤ k - ab → k - ab < n - i → k.natAbs ≤ e → Known entry u k e ∨ (k, (e : ℤ)) ∈ cells)
    (fun n st' _ hn hst' => by
      obtain ⟨cells, rfl, hcells, hall⟩ := hst'
      rw [he]
      dsimp only
      rw [hl.computed h.inv, Option.bind_eq_bind, Option.bind_some]
      by_cases hc : (decide (e < (ab + ((n : ℤ) - i)).natAbs) || (entry u (ab + ((n : ℤ) - i)) e).isSome) = true
      · refine ⟨_, if_pos hc, cells, rfl, hcells, fun k h₁ h₂ hk => ?_⟩
        by_cases hkn : k = ab + ((n : ℤ) - i)
        · subst hkn
          rw [decide_eq_false (not_lt.2 hk), Bool.false_or] at hc
          exact Or.inl hc
        · exact hall k h₁ (by push_cast at h₂; omega) hk
      · refine ⟨_, if_neg hc, (ab + ((n : ℤ) - i), (e : ℤ)) :: cells, rfl, fun c hmem => ?_,
          fun k h₁ h₂ hk => ?_⟩
        · rcases List.mem_cons.1 hmem with rfl | hmem
          · have hk := hc ∘ fun hlt => by rw [decide_eq_true hlt, Bool.true_or]
            exact ⟨rfl, by dsimp only; omega, not_lt.1 hk⟩
          · exact hcells c hmem
        · by_cases hkn : k = ab + ((n : ℤ) - i)
          · exact Or.inr (hkn ▸ List.mem_cons_self)
          · exact (hall k h₁ (by push_cast at h₂; omega) hk).imp_right (List.mem_cons_of_mem _))
    (s := (true, st)) ⟨[], rfl, fun c hc => absurd hc List.not_mem_nil, fun k h₁ h₂ => by omega⟩
  exact ⟨cells, hr, hcells, fun k hi hk => hall k (by omega) (by push_cast; omega) hk⟩

theorem leads_append {goal : (ℤ → ℕ → Prop) → Prop}
    (hgoal : ∀ known known' : ℤ → ℕ → Prop, (∀ k d, known k d → known' k d) → goal known → goal known')
    {e : ℕ} {cells st : List (ℤ × ℤ)} {known : ℤ → ℕ → Prop} (he : e ≤ cap)
    (hcells : ∀ c ∈ cells, c.2 = e ∧ c.1.natAbs ≤ e ∧ Parents known c.1 e)
    (hst : Leads cap goal (fun k d => known k d ∨ ((k, (d : ℤ)) ∈ cells)) st) :
    Leads cap goal known (cells ++ st) := by
  induction cells generalizing known with
  | nil => exact hst.mono hgoal fun k d h => h.resolve_right List.not_mem_nil
  | cons c cells ih =>
    obtain ⟨hce, hk, hpar⟩ := hcells c List.mem_cons_self
    refine ⟨e, hce, hk, he, hpar, ih (fun c' hc' => ?_) (hst.mono hgoal fun k d h => ?_)⟩
    · obtain ⟨h₁, h₂, h₃⟩ := hcells c' (List.mem_cons_of_mem c hc')
      exact ⟨h₁, h₂, h₃.mono fun _ _ => Or.inl⟩
    · rcases h with h | h
      · exact Or.inl (Or.inl h)
      · rcases List.mem_cons.1 h with h | h
        · have hk := congrArg Prod.fst h
          have hd := congrArg Prod.snd h
          dsimp only at hk hd
          exact Or.inl (Or.inr ⟨hk, by omega⟩)
        · exact Or.inr h

/-- Once the cone of `ab` is known at level `d - i`, the stack so far leads to the entries
`(ab, d)` rests on. -/
def Reaches (cap : ℕ) (known : ℤ → ℕ → Prop) (ab : ℤ) (d i : ℕ) (st : List (ℤ × ℤ)) : Prop :=
  ∀ known' : ℤ → ℕ → Prop, (∀ k e, known k e → known' k e) →
    (∀ k : ℤ, (k - ab).natAbs ≤ i → k.natAbs ≤ d - i → known' k (d - i)) →
    Leads cap (fun known => Parents known ab d) known' st

theorem parents_goal (known known' : ℤ → ℕ → Prop) (hle : ∀ k d, known k d → known' k d)
    (h : Parents known ab d) : Parents known' ab d := h.mono hle

theorem Good.pushLevels (hl : Lawful ops cap Inv entry) (h : Good M Inv entry u) (hd : d ≤ cap)
    {n i : ℕ} (hi : 1 ≤ i) (hn : i + n = d) {st : List (ℤ × ℤ)}
    (hst : Reaches cap (Known entry u) ab d i st) :
    ∃ st', pushLevels ops u ab d n i st = some st' ∧
      Leads cap (fun known => Parents known ab d) (Known entry u) st' := by
  induction n generalizing i st with
  | zero =>
    refine ⟨st, rfl, hst _ (fun _ _ hk => hk) fun k _ hk => ?_⟩
    obtain rfl : k = 0 := by omega
    rw [show d - i = 0 by omega]
    exact h.zero
  | succ n ih =>
    obtain ⟨cells, hr, hcells, hall⟩ := h.pushLevel hl ab (d := d) (i := i) (e := d - i) (by omega) st
    rw [StackUKK.pushLevels, hr, Option.bind_eq_bind, Option.bind_some]
    dsimp only
    by_cases hc : cells.isEmpty = true
    · obtain rfl := List.isEmpty_iff.1 hc
      exact ⟨st, if_pos hc, hst _ (fun _ _ hk => hk) fun k hki hk =>
        (hall k hki hk).resolve_right List.not_mem_nil⟩
    · rw [if_neg hc]
      refine ih (by omega) (by omega) fun known hle hcone => ?_
      refine leads_append (e := d - i) parents_goal (by omega) (fun c hmem => ?_) ?_
      · obtain ⟨h₁, h₂, h₃⟩ := hcells c hmem
        refine ⟨h₁, h₃, fun e he k' hk hk' => ?_⟩
        obtain rfl : e = d - (i + 1) := by omega
        exact hcone k' (by omega) hk'
      · exact hst _ (fun k e hk => Or.inl (hle k e hk)) fun k hki hk =>
          (hall k hki hk).imp_left (hle k (d - i))

/-- A call finds the frontier of its diagonal, whatever entries the table has. -/
theorem Good.UKK (hl : Lawful ops cap Inv entry) {compute_U : ℤ → ℤ → σ → Option (ℤ × σ)}
    (hc : Computes M Inv entry compute_U) (h : Good M Inv entry u) (hd : d ≤ cap) (ab : ℤ) :
    ∃ v u', UKK ops compute_U ab d u = some (v, u') ∧ Frontier M ab d v ∧ Good M Inv entry u' := by
  obtain ⟨st, hst, hleads⟩ : ∃ st, StackUKK.pushLevels ops u ab d ((d : ℤ) - 1).toNat 1 [] = some st ∧
      Leads cap (fun known => Parents known ab d) (Known entry u) st := by
    cases d with
    | zero => exact ⟨[], rfl, fun e he => absurd he (by omega)⟩
    | succ d =>
      rw [show (((d + 1 : ℕ) : ℤ) - 1).toNat = d by omega]
      refine h.pushLevels hl hd le_rfl (by omega) fun known _ hcone e he k' hk hk' => ?_
      obtain rfl : d = e := by omega
      exact hcone k' (by omega) hk'
  obtain ⟨u₁, hu₁, h₁, hpar⟩ := exists_foldlM_update hl hc parents_goal h hleads
  obtain ⟨v, hv, hf, hout⟩ := hc h₁ hpar
  obtain ⟨u', hu', h'⟩ : ∃ u', ops.set_U u₁ ab d v = some u' ∧ Good M Inv entry u' := by
    by_cases hab : ab.natAbs ≤ d
    · obtain ⟨u', hu', h', -⟩ := h₁.write hl hab hd hf hpar
      exact ⟨u', hu', h'⟩
    · rw [hout (not_le.1 hab)]
      exact h₁.writeOutside hl (not_le.1 hab)
  refine ⟨v, u', ?_, hf, h'⟩
  unfold StackUKK.UKK
  rw [hst, Option.bind_eq_bind, Option.bind_some, hu₁, Option.bind_eq_bind, Option.bind_some, hv]
  simp only [Option.bind_eq_bind, Option.bind_some, hu']

end StackUKK

end EditDistance

end TaseVerifier
