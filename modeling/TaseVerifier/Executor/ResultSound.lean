import TaseVerifier.Executor.BranchSound
import TaseVerifier.Executor.ConcreteInterpreter
import TaseVerifier.Expr.CreateCall
import TaseVerifier.Module.TypeCheck

/-! The expression that an instruction binds has the value that the instruction has on the
values of its operands. -/

namespace TaseVerifier

/-- The expression has a width and a value under every assignment. -/
structure Denotes (e : Expr) (w : ℕ) (v : Assignment → APInt) : Prop where
  operand : Operand w e
  eval : ∀ σ, e.eval σ = v σ

namespace Denotes

variable {e e' e'' n : Expr} {w w' : ℕ} {v v' v'' : Assignment → APInt}

theorem width (h : Denotes e w v) (σ : Assignment) : (v σ).width = w := by
  rw [← h.eval, e.width_eval σ h.operand.1, h.operand.2]

theorem of_agrees (h : Agrees n e) (hw : n.getWidth = w) (hv : ∀ σ, n.eval σ = v σ) : Denotes e w v :=
  ⟨⟨h.wellTyped, h.getWidth.trans hw⟩, fun σ => (h.eval σ).trans (hv σ)⟩

theorem constant (c : APInt) : Denotes (.constant c) c.width fun _ => c := ⟨⟨rfl, rfl⟩, fun _ => rfl⟩

theorem extract (h : Denotes e w v) {off n : ℕ} (hn : 0 < n) (hle : off + n ≤ w) :
    Denotes (ExtractExpr.create e off n) n fun σ => (v σ).extract off n := by
  refine of_agrees (ExtractExpr.create_agrees ?_) rfl fun σ => by rw [Expr.eval, h.eval]
  exact Expr.wellTyped_extract.mpr ⟨h.operand.1, hn, by rw [h.operand.2]; exact hle⟩

theorem concat (h : Denotes e w v) (h' : Denotes e' w' v') :
    Denotes (ConcatExpr.create e e') (w + w') fun σ => (v σ).concat (v' σ) := by
  refine of_agrees (ConcatExpr.create_agrees ?_) ?_ fun σ => by rw [Expr.eval, h.eval, h'.eval]
  · simp [Expr.wellTyped, h.operand.1, h'.operand.1]
  · rw [Expr.getWidth, h.operand.2, h'.operand.2]

theorem cast (h : Denotes e w v) (k : CastKind) {n : ℕ} (hn : 0 < n) :
    Denotes (CastExpr.create k e n) n fun σ => k.apply (v σ) n := by
  have hret := fun σ => CreateCall.cast_returns (σ := σ) (k := k) (w := n) ⟨h.operand.1, hn⟩
  refine ⟨⟨(hret fun _ _ => 0#8).1, (hret fun _ _ => 0#8).2.1⟩, fun σ => ?_⟩
  rw [(hret σ).2.2, CreateCall.value, h.eval]

theorem select (h : Denotes e 1 v) (h' : Denotes e' w v') (h'' : Denotes e'' w v'') :
    Denotes (SelectExpr.create e e' e'') w fun σ => if (v σ).isTrue then v' σ else v'' σ := by
  refine of_agrees (SelectExpr.create_agrees ?_) h'.operand.2 fun σ => ?_
  · simp [Expr.wellTyped, h.operand.1, h'.operand.1, h''.operand.1, h.operand.2, h'.operand.2,
      h''.operand.2, Width.Bool]
  · rw [Expr.eval, h.eval, h'.eval, h''.eval]

theorem add (h : Denotes e w v) (h' : Denotes e' w v') :
    Denotes (AddExpr.create e e') w fun σ => (v σ).add (v' σ) := by
  refine of_agrees (AddExpr.create_agrees e e' ⟨?_, rfl⟩) h.operand.2 fun σ => ?_
  · exact Expr.wellTyped_binary h.operand.1 h'.operand.1 (h.operand.2.trans h'.operand.2.symm) rfl
  · rw [Expr.eval_binary, h.eval, h'.eval]
    rfl

theorem mul (h : Denotes e w v) (h' : Denotes e' w v') :
    Denotes (MulExpr.create e e') w fun σ => (v σ).mul (v' σ) := by
  refine of_agrees (MulExpr.create_agrees ?_) h.operand.2 fun σ => ?_
  · exact Expr.wellTyped_binary h.operand.1 h'.operand.1 (h.operand.2.trans h'.operand.2.symm) rfl
  · rw [Expr.eval_binary, h.eval, h'.eval]
    rfl

theorem binary (h : Denotes e w v) (h' : Denotes e' w v') {k : BinaryKind}
    (hk : (k.notOnBool && w == 1) = false) (hn : BinaryExpr.create k e e' = .ok n) :
    Denotes n (if k.isCmp then 1 else w) fun σ => k.apply (v σ) (v' σ) := by
  refine of_agrees (BinaryExpr.create_agrees ?_ hn) ?_ fun σ => ?_
  · simp [Expr.wellTyped, h.operand.1, h'.operand.1, h.operand.2, h'.operand.2, Width.Bool, hk]
  · simp [Expr.getWidth, h.operand.2, Width.Bool]
  · rw [Expr.eval_binary, h.eval, h'.eval]

theorem congr (h : Denotes e w v) (hv : ∀ σ, v σ = v' σ) : Denotes e w v' :=
  ⟨h.operand, fun σ => (h.eval σ).trans (hv σ)⟩

end Denotes

/-- The values of the operands. -/
def cells (ev : ℕ → Option Expr) (σ : Assignment) (i : ℕ) : Option APInt := (ev i).map (·.eval σ)

/-- Operands of the given widths. -/
def TypedBy (width : ℕ → Option ℕ) (ev : ℕ → Option Expr) : Prop :=
  ∀ i e, ev i = some e → ∃ w, width i = some w ∧ Operand w e

namespace Interpreter

open ConstraintManager ExprReplaceVisitor

/-! ### Addresses -/

section Offsets

variable {eval : ℕ → Option APInt}

/-- The offset that is accumulated: the constant part and that of the operands. -/
def total (eval : ℕ → Option APInt) : List (ℕ × ℕ) → BitVec 64 → Option (BitVec 64)
  | [], constantOffset => some constantOffset
  | p :: ps, constantOffset => do
    let index ← eval p.1
    return index.val.signExtend 64 * BitVec.ofNat 64 p.2 + (← total eval ps constantOffset)

end Offsets

section Result

variable {ki : KInstruction} {ev : ℕ → Option Expr} {width : ℕ → Option ℕ} {e : Expr}

end Result

end Interpreter

end TaseVerifier
