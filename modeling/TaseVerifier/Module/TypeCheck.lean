import TaseVerifier.Module.KModule

/-! The widths of registers and operands, and a checker for the instructions: the operands have
the widths that an instruction needs, and the register that it binds has the width of its type.
Some well-typed instructions are not executed as they are meant; these are checked for apart. -/

namespace TaseVerifier

def Constant.width : Constant → ℕ
  | .int c => c.width
  | .function _ => 64

namespace BinaryKind

/-- Operands of one width. -/
def check (kind : BinaryKind) (left right result : Option ℕ) : Bool :=
  match left with
  | some w => right == some w && result == some (if kind.isCmp then 1 else w)
  | none => false

end BinaryKind

/-- The widths that objects are read in. -/
def accessWidths : List ℕ := [1, 8, 16, 32, 64]

/-- The widths of stores that can be read back. A word that is stored at an even address is
poisoned with its value in it. -/
def storeWidths : List ℕ := [1, 8, 32, 64]

namespace Inst

variable (inst : Inst) (width : ℕ → Option ℕ)

/-- The arguments that have a formal argument fit it. -/
def checkCall (callee : Function) : Bool :=
  (List.range inst.operands.length).all fun j =>
    (width (j + 1)).isSome && (callee.args.length ≤ j || width (j + 1) == callee.args[j]?)

/-- The values of a switch differ. -/
def checkSwitch (cases : List (APInt × ℕ)) (cond : Option ℕ) : Bool :=
  cond.isSome && decide (cases.map Prod.fst).Nodup && cases.all fun c => cond == some c.1.width

/-- A field that lies inside of the aggregate. -/
def checkField (types : List IndexedType) (field aggregate : Option ℕ) : Bool :=
  match field, aggregate with
  | some f, some a =>
    let (indices, offset) := KModule.computeOffsets types
    indices.isEmpty && decide (0 < f) && decide (offset.toNat * 8 + f ≤ a)
  | _, _ => false

/-- Elements of one width side by side. -/
def checkVector (numElements eltBits : ℕ) (vector element index : Option ℕ) : Bool :=
  decide (0 < eltBits) && vector == some (numElements * eltBits) && element == some eltBits &&
    index.isSome

/-- What an instruction needs of the widths of its operands. -/
def check (fs : List Function) : Bool :=
  let result := inst.width
  match inst.op with
  | .Ret => inst.operands.isEmpty || (width 0).isSome
  | .CondBr _ _ => width 0 == some 1
  | .Switch cases _ => checkSwitch cases (width 0)
  | .Call callee _ => (fs[callee]?.map (inst.checkCall width)).getD true
  | .PHI _ => (List.range inst.operands.length).all fun i => width i == some result
  | .Select => width 0 == some 1 && width 1 == some result && width 2 == some result
  | .Binary kind => kind.check (width 0) (width 1) (some result)
  | .GetElementPtr types => width 0 == some 64 && result == 64 &&
      (KModule.computeOffsets types).1.all fun p => (width p.1).isSome
  | .Trunc => decide (0 < result) && ((width 0).map fun w => decide (result ≤ w)).getD false
  | .ZExt | .SExt | .IntToPtr | .PtrToInt => decide (0 < result) && (width 0).isSome
  | .BitCast => width 0 == some result
  | .Load => width 0 == some 64
  | .Store => width 1 == some 64 && (width 0).isSome
  | .InsertValue types => width 0 == some result && checkField types (width 1) (width 0)
  | .ExtractValue types => checkField types (some result) (width 0)
  | .InsertElement numElements eltBits =>
    checkVector numElements eltBits (width 0) (width 1) (width 2) && width 0 == some result
  | .ExtractElement numElements eltBits =>
    checkVector numElements eltBits (width 0) (some result) (width 1)
  | .Br _ | .Unreachable | .Fence | .ShuffleVector | .VAArg => true

/-- What is no matter of types. A default block that cases lead to as well loses the inputs of no
case, objects are not read and stored to in other widths, and quotients and arithmetic shifts of
booleans are folded to their left operand. -/
def supported : Bool :=
  match inst.op with
  | .Switch cases default => cases.all fun c => c.2 != default
  | .Binary kind => !(kind.notOnBool && width 0 == some 1)
  | .Load => accessWidths.contains inst.width
  | .Store => ((width 0).map storeWidths.contains).getD false
  | _ => true

end Inst

namespace Function

/-- The width of an operand in the function. -/
def valueWidth (f : Function) : Value → Option ℕ
  | .inst id => (f.inst id).map Inst.width
  | .arg no => f.args[no]?
  | .const c => some c.width
  | .block _ => none

def operandWidth (f : Function) (inst : Inst) (i : ℕ) : Option ℕ :=
  inst.operandValues[i]?.bind f.valueWidth

/-- The arguments that are used are arguments of the function. -/
def argsExist (f : Function) : Bool :=
  f.insts.all fun inst => inst.operands.all fun
    | .arg no => decide (no < f.args.length)
    | _ => true

/-- Every instruction is there once, the arguments exist, and the operands have the widths that
the instructions need. -/
def check (fs : List Function) (f : Function) : Bool :=
  decide (f.insts.map Inst.id).Nodup && f.argsExist &&
    f.insts.all fun inst => inst.check (f.operandWidth inst) fs

def supported (f : Function) : Bool := f.insts.all fun inst => inst.supported (f.operandWidth inst)

end Function

namespace KInstruction

/-- The offsets that the instruction has been given. -/
def checkOffsets (ki : KInstruction) : Bool :=
  match ki.inst.op with
  | .GetElementPtr types | .InsertValue types | .ExtractValue types =>
    ki.indices == (KModule.computeOffsets types).1 && ki.offset == (KModule.computeOffsets types).2
  | _ => true

end KInstruction

/-- Arguments, then instructions. -/
def KFunction.registerWidth (kf : KFunction) (r : ℕ) : Option ℕ :=
  if r < kf.numArgs then kf.function.args[r]?
  else kf.instructions[r - kf.numArgs]?.map (·.inst.width)

namespace KModule

variable (km : KModule)

def operandWidth (kf : KFunction) (ki : KInstruction) (i : ℕ) : Option ℕ := do
  let vnumber ← ki.operands[i]?
  if vnumber = -1 then none
  else if vnumber < 0 then return (← km.constants[(-vnumber - 2).toNat]?).width
  else kf.registerWidth vnumber.toNat

def checkInstruction (kf : KFunction) (ki : KInstruction) : Bool :=
  kf.registerWidth ki.dest == some ki.inst.width &&
    (ki.operands.length == ki.inst.operandValues.length && ki.checkOffsets &&
      ki.inst.check (km.operandWidth kf ki) (km.functions.map KFunction.function) &&
        ki.inst.supported (km.operandWidth kf ki))

def checkFunction (kf : KFunction) : Bool :=
  kf.numArgs == kf.function.args.length && kf.instructions.all (km.checkInstruction kf)

def check : Bool := km.functions.all km.checkFunction

variable {km}

end KModule

end TaseVerifier
