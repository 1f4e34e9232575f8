import TaseVerifier.Constraints.PathState
import TaseVerifier.Executor.Machine
import TaseVerifier.Executor.ToUnique
import TaseVerifier.Expr.Compare
import TaseVerifier.Memory.Resolve

/-! `Executor::executeInstruction`. A step has as many successors as there are branches that the
path condition leaves open. Memory is accessed at constant addresses, through operations that
are a parameter. -/

namespace TaseVerifier

/-- Why a step has no successor. -/
inductive Stop where
  | abort (a : Abort)
  /-- An assertion, or an operand that was never bound. -/
  | undefined
  | terminated (message : String)
  | symbolicAddress
  | memoryError
  | queryTimedOut
  deriving DecidableEq

/-- `executeMemoryOperation` at a constant address, for reading a value of a width and for
writing a value; `none` is an address that no object holds. -/
structure MemoryOps (S : Type) where
  read : BitVec 64 → ℕ → S → Option (Expr × S)
  write : BitVec 64 → Expr → S → Option S

namespace Interpreter

structure ExecutionState (S : Type) extends Machine Expr where
  path : PathState
  memory : S

namespace ExecutionState

variable {S : Type} (s : ExecutionState S)

/-- The path condition. -/
def conditions : List Expr := s.path.cons.constraints

def withMachine (m : Machine Expr) : ExecutionState S := { s with toMachine := m }

end ExecutionState

def required {α : Type} : Option α → Except Stop α
  | some a => .ok a
  | none => .error .undefined

def asserted {α : Type} : Except Abort α → Except Stop α
  | .ok a => .ok a
  | .error a => .error (.abort a)

/-! ### Results -/

section Result

variable (ki : KInstruction) (eval : ℕ → Option Expr)

/-- `Expr::createPointer`. -/
def createPointer (v : BitVec 64) : Expr := .constant ⟨64, v⟩

def getElementPtr : Except Stop Expr := do
  let base ← required (eval 0)
  let base ← ki.indices.foldlM (fun base p => do
    let index ← required (eval p.1)
    return AddExpr.create base
      (MulExpr.create (SExtExpr.create index 64) (createPointer (BitVec.ofNat 64 p.2)))) base
  return if ki.offset ≠ 0#64 then AddExpr.create base (createPointer ki.offset) else base

/-- The aggregate with the bits of `val` from `lOffset` on. -/
def insertValue (agg val : Expr) (lOffset : ℕ) : Expr :=
  let rOffset := lOffset + val.getWidth
  let l := ExtractExpr.create agg 0 lOffset
  let r := ExtractExpr.create agg rOffset (agg.getWidth - rOffset)
  if 0 < lOffset then
    if rOffset < agg.getWidth then ConcatExpr.create r (ConcatExpr.create val l)
    else ConcatExpr.create val l
  else if rOffset < agg.getWidth then ConcatExpr.create r val
  else val

/-- `ConcatExpr::createN`, of the elements from the left. -/
def createN : List Expr → Except Stop Expr
  | [] => .error .undefined
  | [e] => .ok e
  | e :: es => do return ConcatExpr.create e (← createN es)

/-- The element at index zero is the leftmost. -/
def insertElement (vec newElt : Expr) (idx numElements eltBits : ℕ) : Except Stop Expr :=
  createN ((List.range numElements).map fun i =>
    if i = idx then newElt
    else ExtractExpr.create vec (eltBits * (numElements - i - 1)) eltBits)

/-- The value that an instruction binds, without the ones on memory and control. -/
def result : Except Stop Expr :=
  match ki.inst.op with
  | .Select => do
    let cond ← required (eval 0)
    let tExpr ← required (eval 1)
    let fExpr ← required (eval 2)
    return SelectExpr.create cond tExpr fExpr
  | .Binary kind => do
    let left ← required (eval 0)
    let right ← required (eval 1)
    asserted (BinaryExpr.create kind left right)
  | .GetElementPtr _ => getElementPtr ki eval
  | .Trunc => do return ExtractExpr.create (← required (eval 0)) 0 ki.inst.width
  | .ZExt | .IntToPtr | .PtrToInt => do
    return ZExtExpr.create (← required (eval 0)) ki.inst.width
  | .SExt => do return SExtExpr.create (← required (eval 0)) ki.inst.width
  | .BitCast => required (eval 0)
  | .InsertValue _ => do
    let agg ← required (eval 0)
    let val ← required (eval 1)
    return insertValue agg val (ki.offset.toNat * 8)
  | .ExtractValue _ => do
    let agg ← required (eval 0)
    return ExtractExpr.create agg (ki.offset.toNat * 8) ki.inst.width
  | .InsertElement numElements eltBits => do
    let vec ← required (eval 0)
    let newElt ← required (eval 1)
    match ← required (eval 2) with
    | .constant idx =>
      if 64 < idx.width then .error .undefined
      else if numElements ≤ idx.toNat then
        .error (.terminated "Out of bounds write when inserting element")
      else insertElement vec newElt idx.toNat numElements eltBits
    | _ => .error (.terminated "InsertElement, support for symbolic index not implemented")
  | .ExtractElement numElements eltBits => do
    let vec ← required (eval 0)
    match ← required (eval 1) with
    | .constant idx =>
      if 64 < idx.width then .error .undefined
      else if numElements ≤ idx.toNat then
        .error (.terminated "Out of bounds read when extracting element")
      else return ExtractExpr.create vec (eltBits * (numElements - idx.toNat - 1)) eltBits
    | _ => .error (.terminated "ExtractElement, support for symbolic index not implemented")
  | .VAArg => .error (.terminated "unexpected VAArg instruction")
  | .ShuffleVector => .error (.terminated "Unexpected ShuffleVector instruction")
  | _ => .error (.terminated "illegal instruction")

end Result

/-! ### Branches -/

variable {S : Type}

def addConstraint (condition : Expr) (s : ExecutionState S) : Except Stop (ExecutionState S) :=
  match condition with
  | .constant c =>
    if c.isTrue then .ok s else .error (.terminated "attempt to add invalid constraint")
  | _ => do return { s with path := ← asserted (s.path.addConstraint condition) }

/-- `TimingSolver::evaluate`. -/
def evaluate (solver : Solver) (constraints : List Expr) : Expr → Option Validity
  | .constant c => some (if c.isTrue then .True else .False)
  | e => solver.computeValidity constraints e

/-- The states in which the condition is true, and in which it is false. -/
def fork (solver : Solver) (condition : Expr) (current : ExecutionState S) :
    Except Stop (Option (ExecutionState S) × Option (ExecutionState S)) :=
  match evaluate solver current.conditions condition with
  | none => .error .queryTimedOut
  | some .True => .ok (some current, none)
  | some .False => .ok (none, some current)
  | some .Unknown => do
    return (some (← addConstraint condition current),
      some (← addConstraint condition.createIsZero current))

/-- One state for each of the conditions. -/
def branch (conditions : List Expr) (s : ExecutionState S) : Except Stop (List (ExecutionState S)) :=
  conditions.mapM fun condition => addConstraint condition s

/-! ### Switches -/

section Switch

/-- A map ordered by its expressions; the first entry of an expression stays. -/
def insertCase (M : ExprMemory) (value : Expr) (successor : ℕ) :
    List (Expr × ℕ) → List (Expr × ℕ)
  | [] => [(value, successor)]
  | p :: ps =>
    match M.order value p.1 with
    | .lt => (value, successor) :: p :: ps
    | .eq => p :: ps
    | .gt => p :: insertCase M value successor ps

def expressionOrder (M : ExprMemory) (cases : List (APInt × ℕ)) : List (Expr × ℕ) :=
  cases.foldl (fun ps c => insertCase M (.constant c.1) c.2 ps) []

/-- The successors in the order in which they are first met, with their conditions. -/
abbrev BranchTargets := List (ℕ × Expr)

def addTarget (successor : ℕ) (isMatch : Expr) : BranchTargets → BranchTargets
  | [] => [(successor, OrExpr.create isMatch (.alloc 0 1))]
  | p :: ps =>
    if p.1 = successor then (successor, OrExpr.create isMatch p.2) :: ps
    else p :: addTarget successor isMatch ps

/-- A default block that cases lead to as well keeps their condition. -/
def addDefault (successor : ℕ) (defaultValue : Expr) (targets : BranchTargets) : BranchTargets :=
  if targets.any (·.1 = successor) then targets else targets ++ [(successor, defaultValue)]

/-- One case after the other; the condition of the default block excludes their values. -/
def caseTargets (solver : Solver) (constraints : List Expr) (cond : Expr) :
    List (Expr × ℕ) → BranchTargets → Expr → Option (BranchTargets × Expr)
  | [], targets, defaultValue => some (targets, defaultValue)
  | (value, successor) :: cases, targets, defaultValue => do
    let isMatch := EqExpr.create cond value
    let defaultValue := AndExpr.create defaultValue isMatch.createIsZero
    let targets :=
      if ← AddressSpace.mayBeTrue solver constraints isMatch then addTarget successor isMatch targets
      else targets
    caseTargets solver constraints cond cases targets defaultValue

def branchTargets (solver : Solver) (constraints : List Expr) (cond : Expr)
    (cases : List (Expr × ℕ)) (default : ℕ) : Option BranchTargets := do
  let (targets, defaultValue) ← caseTargets solver constraints cond cases [] (.alloc 1 1)
  if ← AddressSpace.mayBeTrue solver constraints defaultValue then
    return addDefault default defaultValue targets
  else return targets

/-- `findCaseValue`, or the default block. -/
def caseSuccessor (cases : List (APInt × ℕ)) (default : ℕ) (value : APInt) : ℕ :=
  (cases.lookup value).getD default

end Switch

/-! ### Instructions -/

section Execute

variable (km : KModule) (solver : Solver) (M : ExprMemory) (ops : MemoryOps S)

def eval (ki : KInstruction) (s : ExecutionState S) (index : ℕ) : Option Expr :=
  s.toMachine.eval km .constant ki index

def bindLocal (target : KInstruction) (value : Expr) (s : ExecutionState S) : ExecutionState S :=
  s.withMachine (s.toMachine.bindLocal target value)

def transferToBasicBlock (dst src : ℕ) (s : ExecutionState S) : Except Stop (ExecutionState S) := do
  return s.withMachine (← required (s.toMachine.transferToBasicBlock km dst src))

/-- The operand of a return, coerced to the width of the call. -/
def coerce (caller : KInstruction) (result : Expr) : Expr :=
  if result.getWidth = caller.inst.width then result
  else if caller.inst.op.isSExt then SExtExpr.create result caller.inst.width
  else ZExtExpr.create result caller.inst.width

def returnValue (ki : KInstruction) (s : ExecutionState S) : Except Stop (Option Expr) :=
  if ki.inst.operands.isEmpty then .ok none else some <$> required (eval km ki s 0)

def executeRet (ki : KInstruction) (s : ExecutionState S) : Except Stop (ExecutionState S) := do
  let sf ← required s.stack.head?
  let result ← returnValue km ki s
  let popped := s.toMachine.popFrame
  if s.stack.length ≤ 1 then
    if sf.caller.isSome then .error .undefined
    else return s.withMachine { popped with haltExecution := true }
  else
    let kcaller ← required sf.caller
    let caller ← required ({ popped with pc := kcaller }.ki km)
    let returned := { popped with pc := kcaller + 1 }
    match result with
    | some result =>
      if caller.inst.width = 0 then return s.withMachine returned
      else return s.withMachine (returned.bindLocal caller (coerce caller result))
    | none =>
      let kf ← required (returned.kf km)
      if kf.function.insts.any fun i => i.operands.contains (.inst caller.inst.id) then
        .error (.terminated "return void when caller expected a result")
      else return s.withMachine returned

def executeCall (ki : KInstruction) (callee : ℕ) (s : ExecutionState S) :
    Except Stop (ExecutionState S) := do
  let arguments ← (List.range ki.inst.operands.length).mapM fun j =>
    required (eval km ki s (j + 1))
  let kf ← required km.functions[callee]?
  if arguments.length < kf.numArgs then
    .error (.terminated "calling function with too few arguments")
  else return s.withMachine (s.toMachine.call callee kf.numArgs arguments)

def executeSwitch (ki : KInstruction) (cases : List (APInt × ℕ)) (default : ℕ)
    (s : ExecutionState S) : Except Stop (List (ExecutionState S)) := do
  let cond ← required (eval km ki s 0)
  match Executor.toUnique solver s.conditions cond with
  | .constant c =>
    if 64 < c.width then .error .undefined
    else return [← transferToBasicBlock km (caseSuccessor cases default c) ki.parent s]
  | cond =>
    let targets ← required
      (branchTargets solver s.conditions cond (expressionOrder M cases) default)
    let branches ← branch (targets.map Prod.snd) s
    (targets.zip branches).mapM fun p => transferToBasicBlock km p.1.1 ki.parent p.2

def executeLoad (ki : KInstruction) (s : ExecutionState S) : Except Stop (ExecutionState S) := do
  match ← required (eval km ki s 0) with
  | .constant address =>
    match ops.read (address.val.setWidth 64) ki.inst.width s.memory with
    | some (value, memory) => return bindLocal ki value { s with memory := memory }
    | none => .error .memoryError
  | _ => .error .symbolicAddress

def executeStore (ki : KInstruction) (s : ExecutionState S) : Except Stop (ExecutionState S) := do
  let value ← required (eval km ki s 0)
  match ← required (eval km ki s 1) with
  | .constant address =>
    match ops.write (address.val.setWidth 64) value s.memory with
    | some memory => return { s with memory := memory }
    | none => .error .memoryError
  | _ => .error .symbolicAddress

def executeInstruction (ki : KInstruction) (s : ExecutionState S) :
    Except Stop (List (ExecutionState S)) :=
  match ki.inst.op with
  | .Ret => do return [← executeRet km ki s]
  | .Br dst => do return [← transferToBasicBlock km dst ki.parent s]
  | .CondBr ifTrue ifFalse => do
    let cond ← required (eval km ki s 0)
    let (first, second) ← fork solver cond s
    let second ← second.toList.mapM (transferToBasicBlock km ifFalse ki.parent)
    let first ← first.toList.mapM (transferToBasicBlock km ifTrue ki.parent)
    return first ++ second
  | .Switch cases default => executeSwitch km solver M ki cases default s
  | .Unreachable => .error (.terminated "reached \"unreachable\" instruction")
  | .Call callee _ => do return [← executeCall km ki callee s]
  | .PHI _ => do return [bindLocal ki (← required (eval km ki s s.incomingBBIndex)) s]
  | .Fence => return [s]
  | .Load => do return [← executeLoad km ops ki s]
  | .Store => do return [← executeStore km ops ki s]
  | _ => do return [bindLocal ki (← result ki (eval km ki s)) s]

/-- One round of the loop in `run`, unless the execution has halted. -/
def step (s : ExecutionState S) : Except Stop (List (ExecutionState S)) :=
  if s.haltExecution then .ok [s]
  else do
    let ki ← required (s.toMachine.ki km)
    executeInstruction km solver M ops ki (s.withMachine s.toMachine.stepInstruction)

end Execute

end Interpreter

end TaseVerifier
