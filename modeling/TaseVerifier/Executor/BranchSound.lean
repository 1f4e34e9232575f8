import TaseVerifier.Executor.CVAssignment
import TaseVerifier.Executor.Interpreter
import TaseVerifier.Executor.SymbolicOffset
import TaseVerifier.Library.Branching

/-! Branches divide the path condition: an assignment that meets the condition of a state meets
that of exactly one of the states that it branches into, and all of these can be met. -/

namespace TaseVerifier

namespace Interpreter

open ConstraintManager ExprReplaceVisitor

variable {S : Type} {s s' : ExecutionState S} {condition : Expr} {solver : Solver}

section Fork

variable (hideal : solver.Ideal) (hsat : Satisfiable s.conditions) (hb : BoolAll s.conditions)
  (he : condition.isBool = true)

include hideal hsat

theorem evaluate_ideal :
    evaluate solver s.conditions condition = some (validity s.conditions condition) := by
  unfold evaluate
  split
  next c =>
    obtain ⟨σ, hσ⟩ := hsat
    by_cases hc : c.isTrue = true
    · have hall : ∀ σ, Satisfies σ s.conditions → Holds σ (.constant c) := fun _ _ => hc
      rw [if_pos hc, validity, if_pos hall]
    · have hnone : ∀ σ, Satisfies σ s.conditions → ¬ Holds σ (.constant c) := fun _ _ => hc
      rw [if_neg hc, validity, if_neg fun h => hnone σ hσ (h σ hσ), if_pos hnone]
  next e _ => exact hideal.computeValidity _ _ hsat

include hb he

end Fork

/-! ### Many branches -/

section Switch

variable {M : ExprMemory} {cs : List Expr} {cond : Expr}

/-- The targets of the cases that have been looked at. A target can be reached, and its condition
says that the value is one of its cases; the default condition says that it is none of them. -/
structure Targets (cs : List Expr) (cond : Expr) (seen : List (APInt × ℕ))
    (targets : BranchTargets) (defaultValue : Expr) : Prop where
  nodup : (targets.map Prod.fst).Nodup
  bool : ∀ t ∈ targets, t.2.isBool = true
  feasible : ∀ t ∈ targets, ∃ σ, Satisfies σ cs ∧ Holds σ t.2
  meaning : ∀ t ∈ targets, ∀ σ, Satisfies σ cs →
    (Holds σ t.2 ↔ ∃ c ∈ seen, c.2 = t.1 ∧ cond.eval σ = c.1)
  complete : ∀ c ∈ seen, ∀ σ, Satisfies σ cs → cond.eval σ = c.1 → c.2 ∈ targets.map Prod.fst
  default_bool : defaultValue.isBool = true
  default_meaning : ∀ σ, Holds σ defaultValue ↔ ∀ c ∈ seen, cond.eval σ ≠ c.1

theorem isBool_create_eq {e : Expr} (he : e.wellTyped = true) {v : APInt} (hw : v.width = e.getWidth) :
    (EqExpr.create e (.constant v)).isBool = true := by
  have ha := EqExpr.create_agrees (Expr.wellTyped_binary (k := .Eq) (r := .constant v) he rfl
    hw.symm rfl)
  exact isBool_iff.mpr ⟨ha.wellTyped, ha.getWidth⟩

theorem holds_create_and {l r : Expr} (hl : l.isBool = true) (hr : r.isBool = true) :
    (AndExpr.create l r).isBool = true ∧
      ∀ σ, Holds σ (AndExpr.create l r) ↔ Holds σ l ∧ Holds σ r := by
  obtain ⟨hlt, hlw⟩ := isBool_iff.mp hl
  obtain ⟨hrt, hrw⟩ := isBool_iff.mp hr
  have ha := AndExpr.create_agrees
    (Expr.wellTyped_binary (k := .And) hlt hrt (hlw.trans hrw.symm) rfl)
  refine ⟨isBool_iff.mpr ⟨ha.wellTyped, ha.getWidth.trans hlw⟩, fun σ => ?_⟩
  rw [Holds, ha.eval]
  exact holds_and hlt hrt hlw hrw

section AddTarget

variable {successor : ℕ} {isMatch : Expr} {targets : BranchTargets}

theorem map_fst_addTarget (successor : ℕ) (isMatch : Expr) (targets : BranchTargets) :
    (addTarget successor isMatch targets).map Prod.fst =
      if successor ∈ targets.map Prod.fst then targets.map Prod.fst
      else targets.map Prod.fst ++ [successor] := by
  induction targets with
  | nil => rfl
  | cons p ps ih =>
    unfold addTarget
    split_ifs with hp hmem hmem
    · simp [hp]
    · exact absurd (List.mem_cons.mpr (.inl hp.symm)) hmem
    · have hps : successor ∈ ps.map Prod.fst := (List.mem_cons.mp hmem).resolve_left (Ne.symm hp)
      rw [List.map_cons, ih, if_pos hps, List.map_cons]
    · have hps : successor ∉ ps.map Prod.fst := fun h => hmem (List.mem_cons_of_mem _ h)
      rw [List.map_cons, ih, if_neg hps, List.map_cons, List.cons_append]

/-- A target is an old one of another block, or the one of the block, old or new. -/
theorem mem_addTarget (hn : (targets.map Prod.fst).Nodup) {t : ℕ × Expr}
    (h : t ∈ addTarget successor isMatch targets) :
    (t ∈ targets ∧ t.1 ≠ successor) ∨
      (∃ e, (successor, e) ∈ targets ∧ t = (successor, OrExpr.create isMatch e)) ∨
      successor ∉ targets.map Prod.fst ∧ t = (successor, OrExpr.create isMatch (.alloc 0 1)) := by
  induction targets with
  | nil =>
    obtain rfl := List.mem_singleton.mp h
    exact .inr (.inr ⟨by simp, rfl⟩)
  | cons p ps ih =>
    obtain ⟨hp, hn⟩ := List.nodup_cons.mp hn
    unfold addTarget at h
    split_ifs at h with hps
    · rcases List.mem_cons.mp h with rfl | ht
      · exact .inr (.inl ⟨p.2, by rw [← hps]; exact List.mem_cons_self, rfl⟩)
      · exact .inl ⟨List.mem_cons_of_mem _ ht, fun heq =>
          hp (hps.trans heq.symm ▸ List.mem_map_of_mem ht)⟩
    · rcases List.mem_cons.mp h with rfl | ht
      · exact .inl ⟨List.mem_cons_self, hps⟩
      · rcases ih hn ht with ⟨ht, hne⟩ | ⟨e, he, rfl⟩ | ⟨hnew, rfl⟩
        · exact .inl ⟨List.mem_cons_of_mem _ ht, hne⟩
        · exact .inr (.inl ⟨e, List.mem_cons_of_mem _ he, rfl⟩)
        · refine .inr (.inr ⟨?_, rfl⟩)
          rw [List.map_cons, List.mem_cons, not_or]
          exact ⟨Ne.symm hps, hnew⟩

end AddTarget

section Cases

variable (hideal : solver.Ideal) (hsat : Satisfiable cs) {w : ℕ} (hc : Operand w cond)
  {seen : List (APInt × ℕ)} {targets : BranchTargets} {defaultValue : Expr}

theorem Targets.nil (cs : List Expr) (cond : Expr) : Targets cs cond [] [] (.alloc 1 1) where
  nodup := .nil
  bool := nofun
  feasible := nofun
  meaning := nofun
  complete := nofun
  default_bool := rfl
  default_meaning _ := iff_of_true rfl nofun

include hc

/-- One more case. The target of its block is there if the value can be met. -/
theorem Targets.step (h : Targets cs cond seen targets defaultValue) {c : APInt × ℕ}
    (hw : c.1.width = w) {b : Bool}
    (hb : b = true ↔ ∃ σ, Satisfies σ cs ∧ Holds σ (EqExpr.create cond (.constant c.1))) :
    let isMatch := EqExpr.create cond (.constant c.1)
    Targets cs cond (seen ++ [c]) (if b then addTarget c.2 isMatch targets else targets)
      (AndExpr.create defaultValue isMatch.createIsZero) := by
  intro isMatch
  have hwidth : c.1.width = cond.getWidth := hw.trans hc.2.symm
  have hm : isMatch.isBool = true := isBool_create_eq hc.1 hwidth
  have hholds : ∀ σ, Holds σ isMatch ↔ cond.eval σ = c.1 := fun σ =>
    Executor.holds_create_eq hc.1 hwidth
  obtain ⟨hdb, hdm⟩ := holds_create_and h.default_bool (Expr.isBool_createIsZero hm)
  have hdefault : ∀ σ, Holds σ (AndExpr.create defaultValue isMatch.createIsZero) ↔
      ∀ d ∈ seen ++ [c], cond.eval σ ≠ d.1 := by
    intro σ
    rw [hdm, h.default_meaning, holds_createIsZero hm, hholds, List.forall_mem_append,
      List.forall_mem_singleton]
  have hseen : ∀ (t : ℕ) σ, (∃ d ∈ seen ++ [c], d.2 = t ∧ cond.eval σ = d.1) ↔
      (∃ d ∈ seen, d.2 = t ∧ cond.eval σ = d.1) ∨ c.2 = t ∧ cond.eval σ = c.1 := by
    intro t σ
    simp [or_and_right, exists_or]
  by_cases hbt : b = true
  · rw [if_pos hbt]
    obtain ⟨τ, hτ, hτm⟩ := hb.mp hbt
    have hkeys := map_fst_addTarget c.2 isMatch targets
    refine ⟨?_, fun t ht => ?_, fun t ht => ?_, fun t ht σ hσ => ?_, fun d hd σ hσ hv => ?_, hdb, hdefault⟩
    · rw [hkeys]
      split_ifs with hmem
      · exact h.nodup
      · exact List.nodup_append.mpr ⟨h.nodup, List.nodup_singleton _, fun a ha b hb =>
          (List.mem_singleton.mp hb) ▸ fun heq => hmem (heq ▸ ha)⟩
    · rcases mem_addTarget h.nodup ht with ⟨ht, -⟩ | ⟨e, he, rfl⟩ | ⟨-, rfl⟩
      · exact h.bool t ht
      · exact (holds_or (σ := τ) hm (h.bool _ he)).1
      · exact (holds_or (σ := τ) hm rfl).1
    · rcases mem_addTarget h.nodup ht with ⟨ht, -⟩ | ⟨e, he, rfl⟩ | ⟨-, rfl⟩
      · exact h.feasible t ht
      · exact ⟨τ, hτ, (holds_or hm (h.bool _ he)).2.mpr (.inl hτm)⟩
      · exact ⟨τ, hτ, (holds_or hm rfl).2.mpr (.inl hτm)⟩
    · rw [hseen]
      rcases mem_addTarget h.nodup ht with ⟨ht, hne⟩ | ⟨e, he, rfl⟩ | ⟨hnew, rfl⟩
      · rw [h.meaning t ht σ hσ]
        exact ⟨.inl, fun hor => hor.resolve_right fun hcase => hne hcase.1.symm⟩
      · rw [(holds_or hm (h.bool _ he)).2, hholds, h.meaning _ he σ hσ, or_comm]
        simp
      · rw [(holds_or hm rfl).2, hholds]
        constructor
        · rintro (hv | hfalse)
          · exact .inr ⟨rfl, hv⟩
          · exact absurd hfalse (by simp [Holds, Expr.alloc, APInt.ofNat, APInt.isTrue])
        · rintro (⟨d, hd, hdc, hv⟩ | ⟨-, hv⟩)
          · have hmem := h.complete d hd σ hσ hv
            rw [hdc] at hmem
            exact absurd hmem hnew
          · exact .inl hv
    · rw [hkeys]
      rcases List.mem_append.mp hd with hd | hd
      · have hmem := h.complete d hd σ hσ hv
        split_ifs
        · exact hmem
        · exact List.mem_append_left _ hmem
      · obtain rfl := List.mem_singleton.mp hd
        split_ifs with hmem
        · exact hmem
        · simp
  · rw [if_neg hbt]
    have hnot : ∀ σ, Satisfies σ cs → cond.eval σ ≠ c.1 := fun σ hσ hv =>
      hbt (hb.mpr ⟨σ, hσ, (hholds σ).mpr hv⟩)
    refine ⟨h.nodup, h.bool, h.feasible, fun t ht σ hσ => ?_, fun d hd σ hσ hv => ?_, hdb, hdefault⟩
    · rw [hseen, h.meaning t ht σ hσ]
      exact ⟨.inl, fun hor => hor.resolve_right fun hcase => hnot σ hσ hcase.2⟩
    · rcases List.mem_append.mp hd with hd | hd
      · exact h.complete d hd σ hσ hv
      · obtain rfl := List.mem_singleton.mp hd
        exact absurd hv (hnot σ hσ)

include hideal hsat

end Cases

end Switch

end Interpreter

end TaseVerifier
