import TaseVerifier.Executor.ResultSound

/-! Symbolic execution against the machine on bit vectors. The states that a state is followed by
divide its path condition, and under each assignment the machine does one step to the state that
the assignment belongs to. -/

namespace TaseVerifier

open ConstraintManager ExprReplaceVisitor

/-- Symbolic memory that stands for a concrete one under every assignment. -/
structure MemoryModel (S C : Type) extends MemoryOps S where
  concrete : ConcreteMemoryOps C
  value : Assignment → S → C
  Valid : S → Prop
  read_spec : ∀ {m m' : S} {address : BitVec 64} {width : ℕ} {e : Expr}, Valid m →
    width ∈ accessWidths → read address width m = some (e, m') →
    Valid m' ∧ Operand width e ∧
      ∀ σ, value σ m' = value σ m ∧ concrete.load address width (value σ m) = some (e.eval σ)
  write_spec : ∀ {m m' : S} {address : BitVec 64} {e : Expr}, Valid m → e.wellTyped = true →
    e.getWidth ∈ storeWidths → write address e m = some m' →
    Valid m' ∧ ∀ σ, concrete.store address (e.eval σ) (value σ m) = some (value σ m')

namespace Machine

variable {V : Type} {km : KModule} {m m' : Machine V}

end Machine

/-- The registers hold expressions of their widths. -/
def StackFrame.Typed (km : KModule) (sf : StackFrame Expr) : Prop :=
  ∃ kf, km.functions[sf.kf]? = some kf ∧ TypedBy kf.registerWidth sf.locals

namespace Interpreter

variable {S C : Type} (km : KModule) (model : MemoryModel S C)

structure Typed (s : ExecutionState S) : Prop where
  frames : ∀ sf ∈ s.stack, sf.Typed km
  bool : BoolAll s.conditions
  satisfiable : Satisfiable s.conditions
  memory : model.Valid s.memory

/-- The state of the machine under an assignment. -/
def concretise (σ : Assignment) (s : ExecutionState S) : ConcreteState C :=
  { s.toMachine.map (Expr.eval σ) with memory := model.value σ s.memory }

/-- What may follow a state. -/
structure Simulated (s : ExecutionState S) (ss : List (ExecutionState S))
    (next : ConcreteState C → Option (ConcreteState C)) : Prop where
  typed : ∀ t ∈ ss, Typed km model t
  back : ∀ t ∈ ss, ∀ σ, Satisfies σ t.conditions → Satisfies σ s.conditions
  one : ∀ σ, Satisfies σ s.conditions → OneOf (fun t => Satisfies σ t.conditions)
    (fun t => next (concretise model σ s) = some (concretise model σ t)) ss

section Steps

variable {km model} {s t : ExecutionState S} {ki : KInstruction} {kf : KFunction} {solver : Solver}
  {M : ExprMemory}

/-- One state follows, under the same path condition. -/
theorem Simulated.singleton {next : ConcreteState C → Option (ConcreteState C)}
    (ht : Typed km model t) (hp : t.path = s.path)
    (hnext : ∀ σ, next (concretise model σ s) = some (concretise model σ t)) :
    Simulated km model s [t] next where
  typed u hu := (List.mem_singleton.mp hu) ▸ ht
  back u hu σ hσ := by
    obtain rfl := List.mem_singleton.mp hu
    rwa [ExecutionState.conditions, ← hp]
  one σ hσ := by
    refine .singleton ?_ (hnext σ)
    rwa [ExecutionState.conditions, hp]

theorem Typed.withMachine (h : Typed km model s) {m : Machine Expr}
    (hm : ∀ sf ∈ m.stack, sf.Typed km) : Typed km model (s.withMachine m) :=
  ⟨hm, h.bool, h.satisfiable, h.memory⟩

end Steps

section Runs

variable {km model} {solver : Solver} {M : ExprMemory}

end Runs

end Interpreter

end TaseVerifier
