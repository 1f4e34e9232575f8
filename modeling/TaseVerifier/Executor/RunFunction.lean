import TaseVerifier.Executor.ObjectMemory
import TaseVerifier.Module.KModuleSpec

/-! Functions of a loaded module, run from their entry. The machine on expressions divides the
inputs among its states, and the machine on bit vectors follows the state of its input. -/

namespace TaseVerifier

/-- The first frame of a run, with its arguments bound. -/
def Machine.enter {V : Type} (callee : ℕ) (arguments : List V) : Machine V :=
  ⟨0, 0, [⟨none, callee, fun i => arguments[i]?⟩], 0, false⟩

namespace Interpreter

variable {S C : Type}

/-- `ExecutionState::ExecutionState` and `bindArgument`. -/
def enter (callee : ℕ) (arguments : List Expr) (path : PathState) (memory : S) : ExecutionState S :=
  { Machine.enter callee arguments with path := path, memory := memory }

variable {fs : List Function} {globalAddresses : ℕ → ℕ} {model : MemoryModel S C} {callee : ℕ}
  {f : Function} {arguments : List Expr} {path : PathState} {memory : S}

/-- The leaves divide the inputs of the path condition, and a leaf is where the machine on bit
vectors gets to with the inputs of the leaf: after all steps, or where a step has failed. -/
structure Divides (km : KModule) (model : MemoryModel S C) (constraints : List Expr)
    (start : Assignment → ConcreteState C) (n : ℕ)
    (leaves : List (Leaf (ExecutionState S) Stop)) : Prop where
  satisfiable : ∀ l ∈ leaves, Satisfiable l.state.conditions
  within : ∀ l ∈ leaves, ∀ σ, Satisfies σ l.state.conditions → Satisfies σ constraints
  one : ∀ σ, Satisfies σ constraints → OneOf (fun l => Satisfies σ l.state.conditions)
    (fun l => ∃ m ≤ n, (l.isLive = true → m = n) ∧
      runFor (Concrete.step km model.concrete) (start σ) m = some (concretise model σ l.state))
    leaves

end Interpreter

end TaseVerifier
