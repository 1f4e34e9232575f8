import TaseVerifier.Expr.Syntax

/-! Functions as the interpreter loads them. A `KFunction` lays the instructions of a function
out in one array, gives every argument and every instruction a register, and refers to operands
by number: registers from zero on, entries of the constant table below minus one. -/

namespace TaseVerifier

/-- The constants that operands refer to. -/
inductive Constant where
  | int (value : APInt)
  | function (f : ℕ)
  deriving DecidableEq

/-- `llvm::Value`, as far as it is the operand of an instruction. -/
inductive Value where
  | inst (id : ℕ)
  | arg (no : ℕ)
  | const (c : Constant)
  | block (name : ℕ)
  deriving DecidableEq

/-- A type that an index goes into. A field of a structure is at an offset; the index into a
sequence is the constant here or the operand. -/
inductive IndexedType where
  | struct (offset : ℕ)
  | sequential (elementSize : ℕ) (index : Option APInt)
  deriving DecidableEq

/-- Instructions without those on floating point numbers. Blocks are given by name. -/
inductive Opcode where
  | Ret
  | Br (dst : ℕ)
  | CondBr (ifTrue ifFalse : ℕ)
  | Switch (cases : List (APInt × ℕ)) (default : ℕ)
  | Unreachable
  /-- A call, whose result is extended with its sign if it is too narrow for the caller. -/
  | Call (callee : ℕ) (isSExt : Bool)
  | PHI (incoming : List ℕ)
  | Select
  /-- The arithmetic instructions and `ICmp`, by the kind of expression that they build. -/
  | Binary (kind : BinaryKind)
  | GetElementPtr (types : List IndexedType)
  | Trunc | ZExt | SExt | IntToPtr | PtrToInt | BitCast
  | Load | Store | Fence
  | InsertValue (types : List IndexedType)
  | ExtractValue (types : List IndexedType)
  | InsertElement (numElements eltBits : ℕ)
  | ExtractElement (numElements eltBits : ℕ)
  | ShuffleVector
  | VAArg
  deriving DecidableEq

/-- The result of a call is extended with its sign. -/
def Opcode.isSExt : Opcode → Bool
  | .Call _ isSExt => isSExt
  | _ => false

/-- An instruction; `width` is the width of its type, zero for `void`. -/
structure Inst where
  id : ℕ
  op : Opcode
  operands : List Value
  width : ℕ
  deriving DecidableEq

/-- The operands in their order. The one that is called is at the front. -/
def Inst.operandValues (inst : Inst) : List Value :=
  match inst.op with
  | .Call callee _ => .const (.function callee) :: inst.operands
  | _ => inst.operands

structure BasicBlock where
  name : ℕ
  insts : List Inst
  deriving DecidableEq

/-- The widths of the arguments, and the blocks, of which the first is entered. -/
structure Function where
  args : List ℕ
  blocks : List BasicBlock
  deriving DecidableEq

namespace Function

variable (f : Function)

def insts : List Inst := f.blocks.flatMap BasicBlock.insts

def inst (id : ℕ) : Option Inst := f.insts.find? (·.id = id)

end Function

/-- `indices` and `offset` are those of `KGEPInstruction`. -/
structure KInstruction where
  inst : Inst
  parent : ℕ
  operands : List ℤ
  dest : ℕ
  indices : List (ℕ × ℕ) := []
  offset : BitVec 64 := 0#64

structure KFunction where
  function : Function
  numArgs : ℕ
  numRegisters : ℕ
  basicBlockEntry : List (ℕ × ℕ)
  instructions : List KInstruction

structure KModule where
  functions : List KFunction
  constants : List Constant
  /-- The address of a function. -/
  globalAddresses : ℕ → ℕ

namespace KModule

/-- The number of a constant, in the table with the constant in it. -/
def getConstantID (c : Constant) (constants : List Constant) : ℕ × List Constant :=
  if c ∈ constants then (constants.idxOf c, constants)
  else (constants.length, constants ++ [c])

end KModule

namespace KFunction

/-- `registerMap`, over the instructions in their order behind the arguments. -/
def registerMap (f : Function) (id : ℕ) : ℕ := f.args.length + (f.insts.map Inst.id).idxOf id

def getOperandNum (f : Function) (v : Value) (constants : List Constant) : ℤ × List Constant :=
  match v with
  | .inst id => (registerMap f id, constants)
  | .arg no => (no, constants)
  | .block _ => (-1, constants)
  | .const c =>
    let (id, constants) := KModule.getConstantID c constants
    (-(id + 2 : ℤ), constants)

def getOperandNums (f : Function) : List Value → List Constant → List ℤ × List Constant
  | [], constants => ([], constants)
  | v :: vs, constants =>
    let (n, constants) := getOperandNum f v constants
    let (ns, constants) := getOperandNums f vs constants
    (n :: ns, constants)

def ofInst (f : Function) (parent : ℕ) (inst : Inst) (constants : List Constant) :
    KInstruction × List Constant :=
  let (operands, constants) := getOperandNums f inst.operandValues constants
  ({ inst := inst, parent := parent, operands := operands, dest := registerMap f inst.id },
    constants)

def ofInsts (f : Function) : List (ℕ × Inst) → List Constant → List KInstruction × List Constant
  | [], constants => ([], constants)
  | (parent, inst) :: insts, constants =>
    let (ki, constants) := ofInst f parent inst constants
    let (kis, constants) := ofInsts f insts constants
    (ki :: kis, constants)

/-- The instructions with the blocks that they are in. -/
def placed (f : Function) : List (ℕ × Inst) :=
  f.blocks.flatMap fun b => b.insts.map (b.name, ·)

/-- Where the blocks begin, from the position `n` on. -/
def entries : ℕ → List BasicBlock → List (ℕ × ℕ)
  | _, [] => []
  | n, b :: bs => (b.name, n) :: entries (n + b.insts.length) bs

def ofFunction (f : Function) (constants : List Constant) : KFunction × List Constant :=
  let (instructions, constants) := ofInsts f (placed f) constants
  ({ function := f
     numArgs := f.args.length
     numRegisters := f.args.length + f.insts.length
     basicBlockEntry := entries 0 f.blocks
     instructions := instructions }, constants)

end KFunction

namespace KModule

/-! ### Constant offsets -/

/-- The constant part of an offset, and the operands with the sizes of their elements. -/
def computeOffsetsFrom : ℕ → List IndexedType → List (ℕ × ℕ) → BitVec 64 →
    List (ℕ × ℕ) × BitVec 64
  | _, [], indices, constantOffset => (indices, constantOffset)
  | index, .struct offset :: types, indices, constantOffset =>
    computeOffsetsFrom (index + 1) types indices (constantOffset + BitVec.ofNat 64 offset)
  | index, .sequential elementSize (some c) :: types, indices, constantOffset =>
    let addend := c.val.signExtend 64 * BitVec.ofNat 64 elementSize
    computeOffsetsFrom (index + 1) types indices (constantOffset + addend)
  | index, .sequential elementSize none :: types, indices, constantOffset =>
    computeOffsetsFrom (index + 1) types (indices ++ [(index, elementSize)]) constantOffset

def computeOffsets (types : List IndexedType) : List (ℕ × ℕ) × BitVec 64 :=
  computeOffsetsFrom 1 types [] 0#64

def bindInstructionConstants (ki : KInstruction) : KInstruction :=
  match ki.inst.op with
  | .GetElementPtr types | .InsertValue types | .ExtractValue types =>
    { ki with indices := (computeOffsets types).1, offset := (computeOffsets types).2 }
  | _ => ki

def bindModuleConstants (kf : KFunction) : KFunction :=
  { kf with instructions := kf.instructions.map bindInstructionConstants }

/-- The functions one after the other, with one table of constants. -/
def ofFunctions : List Function → List Constant → List KFunction × List Constant
  | [], constants => ([], constants)
  | f :: fs, constants =>
    let (kf, constants) := KFunction.ofFunction f constants
    let (kfs, constants) := ofFunctions fs constants
    (bindModuleConstants kf :: kfs, constants)

def ofModule (fs : List Function) (globalAddresses : ℕ → ℕ) : KModule :=
  let (functions, constants) := ofFunctions fs []
  { functions := functions, constants := constants, globalAddresses := globalAddresses }

end KModule

end TaseVerifier
