import TaseVerifier.Expr.CreateSound
import TaseVerifier.Memory.AddressSpace
import TaseVerifier.Solver.Query

/-! Resolving a pointer that is not constant. The search starts at one address that the
pointer can have, goes back and then forward from there, and stops where the pointer is known
to lie on the near side of an object's first byte. -/

namespace TaseVerifier

namespace AddressSpace

open ImmutableTree Library

section Model

variable {S : Type*}

/-! ### The queries of the timing solver -/

section Solver

variable (solver : Solver) (constraints : List Expr)

/-- A constant does not reach the solver. -/
def mustBeTrue : Expr → Option Bool
  | .constant c => some c.isTrue
  | e => solver.mustBeTrue constraints e

def mustBeFalse (e : Expr) : Option Bool := mustBeTrue solver constraints e.createIsZero

def mayBeTrue (e : Expr) : Option Bool := (mustBeFalse solver constraints e).map not

/-! ### The search -/

variable (p : Expr) (maxResolutions : ℕ)

/-- The object is added if `p` may point into it. An error returns from `resolve` with the
flag and the list it holds: the search is complete when `p` points into the only object
found, and is given up when a query fails or the limit is reached. -/
def checkObject (o : ObjectPair S) (rl : ResolutionList S) :
    Except (Bool × ResolutionList S) (ResolutionList S) :=
  let inBounds := o.1.getBoundsCheckPointer p
  match mayBeTrue solver constraints inBounds with
  | none => .error (true, rl)
  | some false => .ok rl
  | some true =>
    let rl := rl ++ [o]
    let size := rl.length % 2 ^ 32 -- an `unsigned`
    if size = 1 then
      match mustBeTrue solver constraints inBounds with
      | none => .error (true, rl)
      | some true => .error (false, rl)
      | some false => .ok rl
    else if size = maxResolutions then .error (true, rl)
    else .ok rl

/-- The first loop of `resolve`, in at most `fuel` rounds. -/
def searchBackwards (begin : Iterator (ObjectPair S)) :
    ℕ → Iterator (ObjectPair S) → ResolutionList S →
      Option (Except (Bool × ResolutionList S) (ResolutionList S))
  | 0, _, _ => none
  | fuel + 1, oi, rl =>
    if oi.eq begin then some (.ok rl)
    else do
      let oi ← oi.prev
      let o ← oi.value
      match checkObject solver constraints p maxResolutions o rl with
      | .error r => some (.error r)
      | .ok rl =>
        match mustBeTrue solver constraints (UgeExpr.create p o.1.getBaseExpr) with
        | none => some (.error (true, rl))
        | some true => some (.ok rl)
        | some false => searchBackwards begin fuel oi rl

/-- The second loop of `resolve`, in at most `fuel` rounds. -/
def searchForwards (last : Iterator (ObjectPair S)) :
    ℕ → Iterator (ObjectPair S) → ResolutionList S →
      Option (Except (Bool × ResolutionList S) (ResolutionList S))
  | 0, _, _ => none
  | fuel + 1, oi, rl =>
    if oi.eq last then some (.ok rl)
    else do
      let o ← oi.value
      match mustBeTrue solver constraints (UltExpr.create p o.1.getBaseExpr) with
      | none => some (.error (true, rl))
      | some true => some (.ok rl)
      | some false =>
        match checkObject solver constraints p maxResolutions o rl with
        | .error r => some (.error r)
        | .ok rl => do
          let oi ← oi.next
          searchForwards last fuel oi rl

/-- Whether the search is incomplete, and the objects found, added to `rl`. There is no
timeout. -/
def resolve (objects : MemoryMap S) (fuel : ℕ) (rl : ResolutionList S) :
    Option (Bool × ResolutionList S) :=
  match p with
  | .constant c =>
    match resolveOne objects (BitVec.ofNat 64 c.toNat) with
    | some res => some (false, rl ++ [res])
    | none => some (false, rl)
  | p =>
    match solver.getValue constraints p with
    | none => some (true, rl)
    | some cex => do
      let start ← Iterator.upper_bound address cex.toNat objects
      let begin ← Iterator.begin objects
      match ← searchBackwards solver constraints p maxResolutions begin fuel start rl with
      | .error r => some r
      | .ok rl =>
        match ← searchForwards solver constraints p maxResolutions (Iterator.end' objects)
            fuel start rl with
        | .error r => some r
        | .ok rl => some (false, rl)

end Solver

end Model

/-- Under some assignment that meets the constraints the pointer lies in the object. -/
def MayPointInto (constraints : List Expr) (p : Expr) (mo : MemoryObject) : Prop :=
  ∃ x : BitVec 64, CanBe constraints p ⟨64, x⟩ ∧ mo.Contains x

/-! ### The meaning of the queries -/

section Queries

variable {mo : MemoryObject} {p : Expr} {σ : Assignment} {x : BitVec 64}

/-- A comparison built by its constructor is boolean and holds where the comparison does. -/
theorem holds_of_agrees {k : BinaryKind} {l r e : Expr} (h : Agrees (.binary k l r) e)
    (hk : k.isCmp = true) :
    e.isBool = true ∧ ∀ σ, Holds σ e ↔ (k.apply (l.eval σ) (r.eval σ)).isTrue = true := by
  refine ⟨isBool_iff.mpr ⟨h.wellTyped, ?_⟩, fun σ => ?_⟩
  · rw [h.getWidth]
    simp [Expr.getWidth, hk, Width.Bool]
  · rw [Holds, h.eval, Expr.eval_binary]

theorem eval_getBaseExpr (mo : MemoryObject) (σ : Assignment) :
    mo.getBaseExpr.eval σ = ⟨64, mo.address⟩ := by
  simp [MemoryObject.getBaseExpr, APInt.ofNat, pointerWidth]

variable (ht : p.wellTyped = true) (hw : p.getWidth = 64)
include ht hw

theorem getOffsetExpr_agrees (mo : MemoryObject) :
    Agrees (.binary .Sub p mo.getBaseExpr) (mo.getOffsetExpr p) :=
  SubExpr.create_agrees (w := 64) p mo.getBaseExpr ⟨Expr.wellTyped_binary ht rfl hw rfl, hw⟩

/-- The bounds check holds where the pointer lies in the object. -/
theorem holds_getBoundsCheckPointer (mo : MemoryObject) :
    (mo.getBoundsCheckPointer p).isBool = true ∧
      ∀ {σ x}, p.eval σ = ⟨64, x⟩ → (Holds σ (mo.getBoundsCheckPointer p) ↔ mo.Contains x) := by
  have hoffset := getOffsetExpr_agrees ht hw mo
  have hoff {σ x} (hx : p.eval σ = ⟨64, x⟩) :
      (mo.getOffsetExpr p).eval σ = ⟨64, x - mo.address⟩ := by
    rw [hoffset.eval, Expr.eval_binary, hx, eval_getBaseExpr]
    simp [BinaryKind.apply]
  have hoffw : (mo.getOffsetExpr p).getWidth = 64 := hoffset.getWidth.trans hw
  unfold MemoryObject.getBoundsCheckPointer MemoryObject.getBoundsCheckOffset
  split_ifs with hsize
  · obtain ⟨hbool, hholds⟩ := holds_of_agrees
      (EqExpr.create_agrees (r := .alloc 0 pointerWidth) (Expr.wellTyped_binary hoffset.wellTyped rfl hoffw rfl)) rfl
    refine ⟨hbool, fun {σ x} hx => ?_⟩
    rw [hholds, hoff hx, ← MemoryObject.contains_iff]
    have hzero : x - mo.address = 0#64 ↔ x = mo.address := by
      constructor
      · intro h; bv_omega
      · rintro rfl; simp
    simp [BinaryKind.apply, APInt.ofNat, pointerWidth, hsize, hzero]
  · have hsize' : mo.size ≠ 0#32 := hsize
    obtain ⟨hbool, hholds⟩ := holds_of_agrees
      (UltExpr.create_agrees (r := mo.getSizeExpr) (Expr.wellTyped_binary hoffset.wellTyped rfl hoffw rfl)) rfl
    refine ⟨hbool, fun {σ x} hx => ?_⟩
    rw [hholds, hoff hx, ← MemoryObject.contains_iff]
    simp [BinaryKind.apply, APInt.ofNat, pointerWidth, MemoryObject.getSizeExpr, hsize',
      BitVec.ult, BitVec.lt_def]

theorem holds_uge (mo : MemoryObject) : ∀ {σ x}, p.eval σ = ⟨64, x⟩ →
    (Holds σ (UgeExpr.create p mo.getBaseExpr) ↔ mo.address.toNat ≤ x.toNat) := by
  intro σ x hx
  rw [UgeExpr.create, (holds_of_agrees (UleExpr.create_agrees (l := mo.getBaseExpr)
    (Expr.wellTyped_binary rfl ht hw.symm rfl)) rfl).2, hx, eval_getBaseExpr]
  simp [BinaryKind.apply, BitVec.ule]

theorem holds_ult (mo : MemoryObject) : ∀ {σ x}, p.eval σ = ⟨64, x⟩ →
    (Holds σ (UltExpr.create p mo.getBaseExpr) ↔ x.toNat < mo.address.toNat) := by
  intro σ x hx
  rw [(holds_of_agrees (UltExpr.create_agrees (r := mo.getBaseExpr)
    (Expr.wellTyped_binary ht rfl hw rfl)) rfl).2, hx, eval_getBaseExpr]
  simp [BinaryKind.apply, BitVec.ult]

end Queries

/-! ### The search with an ideal solver -/

section Search

variable {S : Type*} {solver : Solver} (hs : solver.Ideal) {cs : List Expr}
  (hsat : Satisfiable cs)
include hs hsat

theorem mustBeTrue_ideal (e : Expr) :
    ∃ b, mustBeTrue solver cs e = some b ∧ (b = true ↔ ∀ σ, Satisfies σ cs → Holds σ e) := by
  unfold mustBeTrue
  split
  next c =>
    refine ⟨_, rfl, fun h σ _ => h, fun h => ?_⟩
    obtain ⟨σ, hσ⟩ := hsat
    exact h σ hσ
  next => exact hs.mustBeTrue cs e hsat

theorem mayBeTrue_ideal {e : Expr} (he : e.isBool = true) :
    ∃ b, mayBeTrue solver cs e = some b ∧ (b = true ↔ ∃ σ, Satisfies σ cs ∧ Holds σ e) := by
  obtain ⟨b, hb, hiff⟩ := mustBeTrue_ideal hs hsat e.createIsZero
  refine ⟨!b, by rw [mayBeTrue, mustBeFalse, hb]; rfl, ?_⟩
  have hnot : (!b) = true ↔ ¬b = true := by simp
  rw [hnot, hiff]
  push Not
  exact exists_congr fun σ => and_congr_right fun _ => by
    rw [holds_createIsZero he, not_not]

variable {p : Expr} (ht : p.wellTyped = true) (hw : p.getWidth = 64)
include ht hw

/-- A query about the pointer speaks of the addresses it can have. -/
theorem mustBeTrue_pointer {e : Expr} {P : BitVec 64 → Prop}
    (he : ∀ {σ x}, p.eval σ = ⟨64, x⟩ → (Holds σ e ↔ P x)) :
    ∃ b, mustBeTrue solver cs e = some b ∧ (b = true ↔ ∀ x, CanBe cs p ⟨64, x⟩ → P x) := by
  obtain ⟨b, hb, hiff⟩ := mustBeTrue_ideal hs hsat e
  refine ⟨b, hb, hiff.trans ⟨?_, ?_⟩⟩
  · rintro h x ⟨σ, hσ, hx⟩
    exact (he hx).mp (h σ hσ)
  · intro h σ hσ
    obtain ⟨x, hx⟩ := Expr.eval_mk ht hw σ
    exact (he hx).mpr (h x ⟨σ, hσ, hx⟩)

theorem mayBeTrue_bounds (mo : MemoryObject) :
    ∃ b, mayBeTrue solver cs (mo.getBoundsCheckPointer p) = some b ∧
      (b = true ↔ MayPointInto cs p mo) := by
  obtain ⟨hbool, hholds⟩ := holds_getBoundsCheckPointer ht hw mo
  obtain ⟨b, hb, hiff⟩ := mayBeTrue_ideal hs hsat hbool
  refine ⟨b, hb, hiff.trans ⟨?_, ?_⟩⟩
  · rintro ⟨σ, hσ, hσe⟩
    obtain ⟨x, hx⟩ := Expr.eval_mk ht hw σ
    exact ⟨x, ⟨σ, hσ, hx⟩, (hholds hx).mp hσe⟩
  · rintro ⟨x, ⟨σ, hσ, hx⟩, hmo⟩
    exact ⟨σ, hσ, (hholds hx).mpr hmo⟩

/-- One object is added if the pointer may lie in it, and ends the search if it is the first
and the pointer must lie in it. -/
theorem checkObject_cases (o : ObjectPair S) (rl : ResolutionList S)
    (hlen : rl.length + 1 < 2 ^ 32) :
    (¬MayPointInto cs p o.1 ∧ checkObject solver cs p 0 o rl = .ok rl) ∨
      (MayPointInto cs p o.1 ∧ checkObject solver cs p 0 o rl = .ok (rl ++ [o])) ∨
      (MayPointInto cs p o.1 ∧ (∀ x, CanBe cs p ⟨64, x⟩ → o.1.Contains x) ∧
        checkObject solver cs p 0 o rl = .error (false, [o])) := by
  obtain ⟨may, hmay, hmayiff⟩ := mayBeTrue_bounds hs hsat ht hw o.1
  obtain ⟨must, hmust, hmustiff⟩ := mustBeTrue_pointer hs hsat ht hw
    (holds_getBoundsCheckPointer ht hw o.1).2
  have hmod : (rl ++ [o]).length % 2 ^ 32 = rl.length + 1 := by
    rw [List.length_append]
    exact Nat.mod_eq_of_lt hlen
  simp only [checkObject, hmay, hmust, hmod]
  cases may with
  | false => exact .inl ⟨by simpa using hmayiff, rfl⟩
  | true =>
    have hpoints := hmayiff.mp rfl
    refine .inr ?_
    by_cases hfirst : rl.length + 1 = 1
    · rw [if_pos hfirst]
      have hnil : rl = [] := List.length_eq_zero_iff.mp (by omega)
      cases must with
      | false => exact .inl ⟨hpoints, rfl⟩
      | true => exact .inr ⟨hpoints, hmustiff.mp rfl, by rw [hnil]; rfl⟩
    · rw [if_neg hfirst, if_neg (by omega)]
      exact .inl ⟨hpoints, rfl⟩

open Classical in
/-- A loop has gone over the objects `l`: it added those that the pointer may lie in, or found
the one that the pointer must lie in. -/
def Swept (cs : List Expr) (p : Expr) (rl : ResolutionList S) (l : List (ObjectPair S))
    (out : Except (Bool × ResolutionList S) (ResolutionList S)) : Prop :=
  out = .ok (rl ++ l.filter fun o => MayPointInto cs p o.1) ∨
    ∃ o ∈ l, MayPointInto cs p o.1 ∧ (∀ x, CanBe cs p ⟨64, x⟩ → o.1.Contains x) ∧
      out = .error (false, [o])

omit hs hsat ht hw in
theorem Swept.of_none {rl : ResolutionList S} {l : List (ObjectPair S)}
    (h : ∀ o ∈ l, ¬MayPointInto cs p o.1) : Swept cs p rl l (.ok rl) := by
  refine .inl ?_
  rw [List.filter_eq_nil_iff.mpr (by simpa using h), List.append_nil]

omit hs hsat ht hw in
theorem Swept.cons_of_not {rl : ResolutionList S} {o : ObjectPair S} {l : List (ObjectPair S)}
    {out : Except (Bool × ResolutionList S) (ResolutionList S)} (ho : ¬MayPointInto cs p o.1)
    (h : Swept cs p rl l out) : Swept cs p rl (o :: l) out := by
  rcases h with rfl | ⟨o', ho', h⟩
  · exact .inl (by simp [ho])
  · exact .inr ⟨o', List.mem_cons_of_mem o ho', h⟩

omit hs hsat ht hw in
theorem Swept.cons_of_may {rl : ResolutionList S} {o : ObjectPair S} {l : List (ObjectPair S)}
    {out : Except (Bool × ResolutionList S) (ResolutionList S)} (ho : MayPointInto cs p o.1)
    (h : Swept cs p (rl ++ [o]) l out) : Swept cs p rl (o :: l) out := by
  rcases h with rfl | ⟨o', ho', h⟩
  · exact .inl (by simp [ho])
  · exact .inr ⟨o', List.mem_cons_of_mem o ho', h⟩

variable {objects : MemoryMap S} (hord : objects.Ordered address)
  (hl : Layout objects.toList)
include hord hl

omit hs hsat ht hw in
/-- No object before `o` holds the pointer when the pointer is at or behind the first byte
of `o`. -/
theorem not_may_before {pre suf : List (ObjectPair S)} {o : ObjectPair S}
    (hlist : objects.toList = pre ++ o :: suf)
    (hge : ∀ x : BitVec 64, CanBe cs p ⟨64, x⟩ → address o ≤ x.toNat) :
    ∀ a ∈ pre, ¬MayPointInto cs p a.1 := by
  rintro a ha ⟨x, hx, hax⟩
  have hsorted : SortedKeys.Sorted address (pre ++ o :: suf) := hlist ▸ hord
  have hlt := (SortedKeys.sorted_node.mp hsorted).1.2 a ha
  exact hl.not_contains (by rw [hlist]; simp [ha]) (by rw [hlist]; simp) hlt (hge x hx) hax

omit hs hsat ht hw hl in
/-- Nor does `o` or an object behind it when the pointer is before the first byte of `o`. -/
theorem not_may_after {pre suf : List (ObjectPair S)} {o : ObjectPair S}
    (hlist : objects.toList = pre ++ o :: suf)
    (hlt : ∀ x : BitVec 64, CanBe cs p ⟨64, x⟩ → x.toNat < address o) :
    ∀ b ∈ o :: suf, ¬MayPointInto cs p b.1 := by
  rintro b hb ⟨x, hx, hbx⟩
  have hsorted : SortedKeys.Sorted address (pre ++ o :: suf) := hlist ▸ hord
  have hle : address o ≤ address b := by
    rcases List.mem_cons.mp hb with rfl | hb
    · exact le_rfl
    · exact ((SortedKeys.sorted_node.mp hsorted).2.2 b hb).le
  exact ((hlt x hx).trans_le hle).not_ge hbx.address_le

theorem searchBackwards_swept {begin : Iterator (ObjectPair S)}
    (hbegin : Iterator.begin objects = some begin) {l suf : List (ObjectPair S)}
    {oi : Iterator (ObjectPair S)} (hat : Iterator.At objects l.reverse suf oi)
    (rl : ResolutionList S) (hlen : rl.length + l.length < 2 ^ 32) (fuel : ℕ)
    (hfuel : l.length < fuel) :
    ∃ out, searchBackwards solver cs p 0 begin fuel oi rl = some out ∧ Swept cs p rl l out := by
  induction l generalizing suf oi rl fuel with
  | nil =>
    obtain ⟨fuel, rfl⟩ := Nat.exists_eq_add_one_of_ne_zero hfuel.ne'
    have hend : oi.eq begin = true := (hat.eq_begin hbegin).mpr rfl
    exact ⟨.ok rl, by rw [searchBackwards, if_pos hend], .of_none (by simp)⟩
  | cons o l ih =>
    obtain ⟨fuel, rfl⟩ := Nat.exists_eq_add_one_of_ne_zero (Nat.ne_zero_of_lt hfuel)
    have hgo : ¬oi.eq begin = true := by rw [hat.eq_begin hbegin]; simp
    rw [List.reverse_cons] at hat
    obtain ⟨oi', hprev, hat'⟩ := hat.prev
    have hvalue : oi'.value = some o := hat'.value
    obtain ⟨must, hmust, hmustiff⟩ := mustBeTrue_pointer hs hsat ht hw (holds_uge ht hw o.1)
    rw [List.length_cons] at hlen hfuel
    rw [searchBackwards, if_neg hgo]
    simp only [hprev, hvalue, Option.bind_eq_bind, Option.bind_some, hmust]
    -- what happens behind the object does not depend on whether it was added
    have hrest (rl' : ResolutionList S) (hlen' : rl'.length + l.length < 2 ^ 32) :
        ∃ out, (match must with
          | true => some (.ok rl')
          | false => searchBackwards solver cs p 0 begin fuel oi' rl') = some out ∧
            Swept cs p rl' l out := by
      cases must with
      | false => exact ih hat' rl' hlen' fuel (by omega)
      | true =>
        have hnone := not_may_before hord hl hat'.toList_eq (hmustiff.mp rfl)
        exact ⟨.ok rl', rfl, .of_none (by simpa using hnone)⟩
    rcases checkObject_cases hs hsat ht hw o rl (by omega) with
      ⟨hnot, hcheck⟩ | ⟨hmay, hcheck⟩ | ⟨hmay, hin, hcheck⟩
    · obtain ⟨out, hout, hswept⟩ := hrest rl (by omega)
      refine ⟨out, ?_, hswept.cons_of_not hnot⟩
      rw [hcheck]
      cases must <;> exact hout
    · obtain ⟨out, hout, hswept⟩ := hrest (rl ++ [o]) (by simp; omega)
      refine ⟨out, ?_, hswept.cons_of_may hmay⟩
      rw [hcheck]
      cases must <;> exact hout
    · exact ⟨_, by rw [hcheck], .inr ⟨o, List.mem_cons_self, hmay, hin, rfl⟩⟩

omit hl in
theorem searchForwards_swept {l pre : List (ObjectPair S)} {oi : Iterator (ObjectPair S)}
    (hat : Iterator.At objects pre l oi) (rl : ResolutionList S)
    (hlen : rl.length + l.length < 2 ^ 32) (fuel : ℕ) (hfuel : l.length < fuel) :
    ∃ out, searchForwards solver cs p 0 (Iterator.end' objects) fuel oi rl = some out ∧
      Swept cs p rl l out := by
  induction l generalizing pre oi rl fuel with
  | nil =>
    obtain ⟨fuel, rfl⟩ := Nat.exists_eq_add_one_of_ne_zero hfuel.ne'
    have hend : oi.eq (Iterator.end' objects) = true := hat.eq_end.mpr rfl
    exact ⟨.ok rl, by rw [searchForwards, if_pos hend], .of_none (by simp)⟩
  | cons o l ih =>
    obtain ⟨fuel, rfl⟩ := Nat.exists_eq_add_one_of_ne_zero (Nat.ne_zero_of_lt hfuel)
    have hgo : ¬oi.eq (Iterator.end' objects) = true := by rw [hat.eq_end]; simp
    have hvalue : oi.value = some o := hat.value
    obtain ⟨oi', hnext, hat'⟩ := hat.next
    obtain ⟨must, hmust, hmustiff⟩ := mustBeTrue_pointer hs hsat ht hw (holds_ult ht hw o.1)
    rw [List.length_cons] at hlen hfuel
    rw [searchForwards, if_neg hgo]
    simp only [hvalue, Option.bind_eq_bind, Option.bind_some, hmust]
    cases must with
    | true =>
      have hnone := not_may_after hord hat.toList_eq (hmustiff.mp rfl)
      exact ⟨.ok rl, rfl, .of_none hnone⟩
    | false =>
      rcases checkObject_cases hs hsat ht hw o rl (by omega) with
        ⟨hnot, hcheck⟩ | ⟨hmay, hcheck⟩ | ⟨hmay, hin, hcheck⟩
      · obtain ⟨out, hout, hswept⟩ := ih hat' rl (by omega) fuel (by omega)
        refine ⟨out, ?_, hswept.cons_of_not hnot⟩
        simp only [hcheck, hnext, Option.bind_some, hout]
      · obtain ⟨out, hout, hswept⟩ := ih hat' (rl ++ [o]) (by simp; omega) fuel
          (by omega)
        refine ⟨out, ?_, hswept.cons_of_may hmay⟩
        simp only [hcheck, hnext, Option.bind_some, hout]
      · exact ⟨_, by rw [hcheck], .inr ⟨o, List.mem_cons_self, hmay, hin, rfl⟩⟩

omit hs hsat ht hw hord in
/-- The one object that the pointer must lie in is the only one that it may lie in. -/
theorem eq_of_must {o a : ObjectPair S} (ho : o ∈ objects.toList) (ha : a ∈ objects.toList)
    (hin : ∀ x, CanBe cs p ⟨64, x⟩ → o.1.Contains x) (hmay : MayPointInto cs p a.1) : a = o := by
  obtain ⟨x, hx, hax⟩ := hmay
  exact hl.eq_of_contains ha ho hax (hin x hx)

end Search

/-! ### Resolution is exact -/

section Exact

variable {S : Type*} {objects : MemoryMap S}

/-- The objects that the pointer may lie in, each once. -/
def Exact (cs : List Expr) (p : Expr) (objects : MemoryMap S) (rl : ResolutionList S) : Prop :=
  rl.Nodup ∧ ∀ o, o ∈ rl ↔ o ∈ objects.toList ∧ MayPointInto cs p o.1

theorem exact_singleton {cs : List Expr} {p : Expr} (hl : Layout objects.toList)
    {o : ObjectPair S} (ho : o ∈ objects.toList) (hmay : MayPointInto cs p o.1)
    (hin : ∀ x, CanBe cs p ⟨64, x⟩ → o.1.Contains x) : Exact cs p objects [o] := by
  refine ⟨List.nodup_singleton o, fun a => ?_⟩
  rw [List.mem_singleton]
  constructor
  · rintro rfl
    exact ⟨ho, hmay⟩
  · exact fun ⟨ha, hmay'⟩ => eq_of_must hl ho ha hin hmay'

theorem canBe_constant {cs : List Expr} (hsat : Satisfiable cs) (x y : BitVec 64) :
    CanBe cs (.constant ⟨64, x⟩) ⟨64, y⟩ ↔ y = x := by
  constructor
  · rintro ⟨σ, -, h⟩
    cases h
    rfl
  · rintro rfl
    obtain ⟨σ, hσ⟩ := hsat
    exact ⟨σ, hσ, rfl⟩

theorem resolve_constant {solver : Solver} {cs : List Expr} (hsat : Satisfiable cs)
    (hord : objects.Ordered address) (hl : Layout objects.toList) (x : BitVec 64) (fuel : ℕ) :
    ∃ rl, resolve solver cs (.constant ⟨64, x⟩) 0 objects fuel [] = some (false, rl) ∧
      Exact cs (.constant ⟨64, x⟩) objects rl := by
  have hmay (o : ObjectPair S) :
      MayPointInto cs (.constant ⟨64, x⟩) o.1 ↔ o.1.Contains x := by
    simp only [MayPointInto, canBe_constant hsat, exists_eq_left]
  have hone := resolveOne_eq_some hord hl x
  have hx : BitVec.ofNat 64 (APInt.toNat ⟨64, x⟩) = x := by simp
  simp only [resolve, hx]
  cases hres : resolveOne objects x with
  | none =>
    refine ⟨[], rfl, List.nodup_nil, fun o => ?_⟩
    rw [hmay, ← hone, hres]
    simp
  | some res =>
    refine ⟨[res], rfl, List.nodup_singleton res, fun o => ?_⟩
    rw [hmay, ← hone, hres, List.mem_singleton, Option.some.injEq, eq_comm]

open Classical in
/-- The objects found behind and before the start of the search. -/
theorem exact_filter {cs : List Expr} {p : Expr} (hord : objects.Ordered address)
    {pre suf : List (ObjectPair S)} (hlist : objects.toList = pre ++ suf) :
    Exact cs p objects ((pre.reverse.filter fun o => MayPointInto cs p o.1) ++
      suf.filter fun o => MayPointInto cs p o.1) := by
  have hnodup : (pre ++ suf).Nodup := by
    rw [← hlist]
    exact List.Pairwise.imp (fun h => ne_of_apply_ne address h.ne) hord
  have hperm : ((pre.reverse.filter fun o => MayPointInto cs p o.1) ++
      suf.filter fun o => MayPointInto cs p o.1).Perm
        ((pre ++ suf).filter fun o => MayPointInto cs p o.1) := by
    rw [List.filter_append]
    exact ((List.reverse_perm pre).filter _).append_right _
  refine ⟨hperm.nodup_iff.mpr (hnodup.filter _), fun o => ?_⟩
  rw [hperm.mem_iff, List.mem_filter, hlist, decide_eq_true_iff]

/-- With an ideal solver the search is complete and finds just the objects that the pointer may
lie in. -/
theorem resolve_exact_of_layout {solver : Solver} (hs : solver.Ideal) {cs : List Expr}
    (hsat : Satisfiable cs) {p : Expr} (ht : p.wellTyped = true) (hw : p.getWidth = 64)
    (hord : objects.Ordered address) (hbal : objects.WellBalanced)
    (hl : Layout objects.toList) {fuel : ℕ} (hfuel : objects.size < fuel) :
    ∃ rl, resolve solver cs p 0 objects fuel [] = some (false, rl) ∧ Exact cs p objects rl := by
  classical
  by_cases hc : ∃ c, p = .constant c
  · obtain ⟨⟨w, x⟩, rfl⟩ := hc
    obtain rfl : w = 64 := hw
    exact resolve_constant hsat hord hl x fuel
  obtain ⟨v, hv, -⟩ := hs.getValue cs p hsat
  obtain ⟨start, hstart, hat⟩ := Iterator.upper_bound_at v.toNat hbal hord
  obtain ⟨begin, hbegin, -⟩ := Iterator.begin_at hbal
  set pre := SortedKeys.atMost address v.toNat objects.toList
  set suf := SortedKeys.above address v.toNat objects.toList
  have hlist : objects.toList = pre ++ suf := hat.toList_eq
  have hlen : pre.length + suf.length < 2 ^ 31 := by
    have := hl.length_lt
    rwa [hlist, List.length_append] at this
  have hsize : pre.length + suf.length < fuel := by
    have := hfuel
    rwa [Node.size_eq_length, hlist, List.length_append] at this
  obtain ⟨out, hback, hswept⟩ := searchBackwards_swept hs hsat ht hw hord hl hbegin
    (l := pre.reverse) (by rwa [List.reverse_reverse]) [] (by simp; omega) fuel
    (by simp; omega)
  unfold resolve
  split
  next c => exact absurd ⟨c, rfl⟩ hc
  simp only [hv, hstart, hbegin, hback, Option.bind_eq_bind, Option.bind_some]
  rcases hswept with rfl | ⟨o, ho, hmay, hin, rfl⟩
  swap
  · have ho' : o ∈ objects.toList := by rw [hlist]; simpa using .inl (List.mem_reverse.mp ho)
    exact ⟨[o], rfl, exact_singleton hl ho' hmay hin⟩
  have hfound := List.length_filter_le (fun o => decide (MayPointInto cs p o.1)) pre.reverse
  rw [List.length_reverse] at hfound
  obtain ⟨out, hforw, hswept⟩ := searchForwards_swept hs hsat ht hw hord hat
    ([] ++ pre.reverse.filter fun o => MayPointInto cs p o.1)
    (by rw [List.nil_append]; omega) fuel (by omega)
  simp only [hforw, Option.bind_some]
  rcases hswept with rfl | ⟨o, ho, hmay, hin, rfl⟩
  · exact ⟨_, rfl, exact_filter hord hlist⟩
  · have ho' : o ∈ objects.toList := by rw [hlist]; simp [ho]
    exact ⟨[o], rfl, exact_singleton hl ho' hmay hin⟩

/-- Whatever objects were bound and unbound, if those that are left do not overlap, a constant
address is resolved to the object that contains it, if there is one, and any pointer to just
the objects that it may lie in. -/
theorem resolution_exact (ops : List (Op S)) (hl : Layout (run ops).toList) :
    (∀ x o, resolveOne (run ops) x = some o ↔ o ∈ (run ops).toList ∧ o.1.Contains x) ∧
      ∀ solver : Solver, solver.Ideal → ∀ cs, Satisfiable cs →
        ∀ p : Expr, p.wellTyped = true → p.getWidth = pointerWidth →
          ∀ fuel > (run ops).size, ∃ rl,
            resolve solver cs p 0 (run ops) fuel [] = some (false, rl) ∧
              Exact cs p (run ops) rl := by
  obtain ⟨m, hm⟩ := run_holds ops
  exact ⟨resolveOne_eq_some hm.ordered hl, fun solver hs cs hsat p ht hw fuel hfuel =>
    resolve_exact_of_layout hs hsat ht hw hm.ordered hm.balanced hl hfuel⟩

/-- A byte as a pointer, with an object of sixteen bytes and an empty one right behind it. -/
theorem resolution_exact_two :
    let ops : List (Op Unit) := [.bindObject ⟨64, 16, by decide⟩ (), .bindObject ⟨80, 0, by decide⟩ ()]
    let p := Expr.cast .ZExt (.read (.root ⟨"a", 1, 0, []⟩) (.alloc 0 32)) 64
    ∃ rl, resolve idealSolver [] p 0 (run ops) 3 [] = some (false, rl) ∧
      Exact [] p (run ops) rl := by
  intro ops p
  have hlist : (run ops).toList = [(⟨64, 16, by decide⟩, ()), (⟨80, 0, by decide⟩, ())] := by rfl
  have hl : Layout (run ops).toList := by
    rw [hlist]
    refine ⟨List.pairwise_pair.mpr ?_, by simp⟩
    rintro x ⟨⟨hsize, -⟩ | ⟨-, hx⟩, ⟨-, rfl⟩ | ⟨hx', hx''⟩⟩
    · simp at hsize
    · simp at hsize
    · simp at hx
    · simp at hx hx' hx''; omega
  have hsize : (run ops).size = 2 := by rw [Node.size_eq_length, hlist]; rfl
  exact (resolution_exact ops hl).2 idealSolver idealSolver_ideal [] ⟨_, satisfies_nil fun _ _ => 0⟩
    p (by decide +kernel) rfl 3 (by rw [hsize]; decide)

end Exact

end AddressSpace

end TaseVerifier
