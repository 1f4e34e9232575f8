import TaseVerifier.Executor.Machine
import TaseVerifier.Expr.BitField
import TaseVerifier.Expr.Eval

/-! What the instructions mean on bit vectors: the machine on which every register holds a
value. Aggregates and vectors are bit fields, and an address is computed from the types that
its indices go into. -/

namespace TaseVerifier

/-- Reading and writing values of a width in bits. -/
structure ConcreteMemoryOps (C : Type) where
  load : BitVec 64 → ℕ → C → Option APInt
  store : BitVec 64 → APInt → C → Option C

structure ConcreteState (C : Type) extends Machine APInt where
  memory : C

namespace IndexedType

/-- How far an index goes into the type, with the operands from the given one on. -/
def offset (eval : ℕ → Option APInt) (index : ℕ) : IndexedType → Option (BitVec 64)
  | .struct offset => some (BitVec.ofNat 64 offset)
  | .sequential elementSize (some c) => some (c.val.signExtend 64 * BitVec.ofNat 64 elementSize)
  | .sequential elementSize none => do
    return (← eval index).val.signExtend 64 * BitVec.ofNat 64 elementSize

def offsets (eval : ℕ → Option APInt) : ℕ → List IndexedType → Option (BitVec 64)
  | _, [] => some 0#64
  | index, t :: ts => do return (← t.offset eval index) + (← offsets eval (index + 1) ts)

/-- The bit at which a field begins. -/
def field (types : List IndexedType) : Option ℕ := do
  return (← offsets (fun _ => none) 1 types).toNat * 8

end IndexedType

namespace Concrete

section Result

variable (inst : Inst) (eval : ℕ → Option APInt)

def result : Option APInt :=
  match inst.op with
  | .Select => do
    let cond ← eval 0
    let t ← eval 1
    let f ← eval 2
    return if cond.isTrue then t else f
  | .Binary kind => do return kind.apply (← eval 0) (← eval 1)
  | .GetElementPtr types => do
    let base ← eval 0
    return ⟨64, base.val.setWidth 64 + (← IndexedType.offsets eval 1 types)⟩
  | .Trunc | .ZExt | .IntToPtr | .PtrToInt => do return (← eval 0).zext inst.width
  | .SExt => do return (← eval 0).sext inst.width
  | .BitCast => eval 0
  | .InsertValue types => do
    return (← eval 0).replaceBits (← IndexedType.field types) (← eval 1)
  | .ExtractValue types => do
    return (← eval 0).extract (← IndexedType.field types) inst.width
  | .InsertElement numElements eltBits => do
    let idx := (← eval 2).toNat
    if idx < numElements then
      return (← eval 0).replaceBits (eltBits * (numElements - 1 - idx)) (← eval 1)
    else none
  | .ExtractElement numElements eltBits => do
    let idx := (← eval 1).toNat
    if idx < numElements then
      return (← eval 0).extract (eltBits * (numElements - 1 - idx)) eltBits
    else none
  | _ => none

end Result

variable {C : Type} (km : KModule) (ops : ConcreteMemoryOps C)

def eval (ki : KInstruction) (s : ConcreteState C) (index : ℕ) : Option APInt :=
  s.toMachine.eval km id ki index

def withMachine (s : ConcreteState C) (m : Machine APInt) : ConcreteState C :=
  { s with toMachine := m }

def coerce (caller : KInstruction) (result : APInt) : APInt :=
  if result.width = caller.inst.width then result
  else if caller.inst.op.isSExt then result.sext caller.inst.width
  else result.zext caller.inst.width

def returnValue (ki : KInstruction) (s : ConcreteState C) : Option (Option APInt) :=
  if ki.inst.operands.isEmpty then some none else some <$> eval km ki s 0

/-- The caller goes on, with the result bound to the call. -/
def resume (s : ConcreteState C) (caller : KInstruction) (returned : Machine APInt) :
    Option APInt → ConcreteState C
  | some result =>
    if caller.inst.width = 0 then withMachine s returned
    else withMachine s (returned.bindLocal caller (coerce caller result))
  | none => withMachine s returned

def executeRet (ki : KInstruction) (s : ConcreteState C) : Option (ConcreteState C) := do
  let sf ← s.stack.head?
  let result ← returnValue km ki s
  let popped := s.toMachine.popFrame
  if s.stack.length ≤ 1 then return withMachine s { popped with haltExecution := true }
  else
    let kcaller ← sf.caller
    let caller ← { popped with pc := kcaller }.ki km
    return resume s caller { popped with pc := kcaller + 1 } result

def executeLoad (ki : KInstruction) (s : ConcreteState C) : Option (ConcreteState C) := do
  let value ← ops.load ((← eval km ki s 0).val.setWidth 64) ki.inst.width s.memory
  return withMachine s (s.toMachine.bindLocal ki value)

def executeStore (ki : KInstruction) (s : ConcreteState C) : Option (ConcreteState C) := do
  let value ← eval km ki s 0
  return { s with memory := ← ops.store ((← eval km ki s 1).val.setWidth 64) value s.memory }

def executeInstruction (ki : KInstruction) (s : ConcreteState C) : Option (ConcreteState C) :=
  match ki.inst.op with
  | .Ret => executeRet km ki s
  | .Br dst => do return withMachine s (← s.toMachine.transferToBasicBlock km dst ki.parent)
  | .CondBr ifTrue ifFalse => do
    let dst := if (← eval km ki s 0).isTrue then ifTrue else ifFalse
    return withMachine s (← s.toMachine.transferToBasicBlock km dst ki.parent)
  | .Switch cases default => do
    let dst := (cases.lookup (← eval km ki s 0)).getD default
    return withMachine s (← s.toMachine.transferToBasicBlock km dst ki.parent)
  | .Unreachable => none
  | .Call callee _ => do
    let arguments ← (List.range ki.inst.operands.length).mapM fun j => eval km ki s (j + 1)
    let kf ← km.functions[callee]?
    return withMachine s (s.toMachine.call callee kf.numArgs arguments)
  | .PHI _ => do
    return withMachine s (s.toMachine.bindLocal ki (← eval km ki s s.incomingBBIndex))
  | .Fence => some s
  | .Load => executeLoad km ops ki s
  | .Store => executeStore km ops ki s
  | _ => do
    return withMachine s (s.toMachine.bindLocal ki (← result ki.inst (eval km ki s)))

/-- One instruction; `none` where the program has no meaning. A machine that has halted stays
as it is. -/
def step (s : ConcreteState C) : Option (ConcreteState C) :=
  if s.haltExecution then some s
  else do
    executeInstruction km ops (← s.toMachine.ki km) (withMachine s s.toMachine.stepInstruction)

end Concrete

end TaseVerifier
