import TaseVerifier.Module.KModule

/-! The registers and the program counter of the interpreter, over any type of values. What is
here looks at no value, and so commutes with maps between values. The program counter and the
callers are positions among the instructions of the frames' functions. -/

namespace TaseVerifier

/-- A frame; the caller is missing in the first frame only. -/
structure StackFrame (V : Type) where
  caller : Option ℕ
  kf : ℕ
  locals : ℕ → Option V

/-- `stack` begins with the frame that was pushed last. -/
structure Machine (V : Type) where
  pc : ℕ
  prevPC : ℕ
  stack : List (StackFrame V)
  incomingBBIndex : ℕ
  haltExecution : Bool

namespace Machine

variable {V W : Type} (km : KModule)

/-- The function of the top frame. -/
def kf (m : Machine V) : Option KFunction := do km.functions[(← m.stack.head?).kf]?

/-- The instruction at the program counter. -/
def ki (m : Machine V) : Option KInstruction := do (← m.kf km).instructions[m.pc]?

def stepInstruction (m : Machine V) : Machine V := { m with prevPC := m.pc, pc := m.pc + 1 }

/-- A cell of the constant table or a register; `none` is an operand that is no value, or a
register without one. -/
def eval (constant : APInt → V) (ki : KInstruction) (index : ℕ) (m : Machine V) : Option V := do
  let vnumber ← ki.operands[index]?
  if vnumber = -1 then none
  else if vnumber < 0 then
    match ← km.constants[(-vnumber - 2).toNat]? with
    | .int c => return constant c
    | .function f => return constant (APInt.ofNat 64 (km.globalAddresses f))
  else (← m.stack.head?).locals vnumber.toNat

def bindLocal (target : KInstruction) (value : V) (m : Machine V) : Machine V :=
  match m.stack with
  | [] => m
  | sf :: stack =>
    { m with stack := { sf with locals := Function.update sf.locals target.dest value } :: stack }

/-- The position of the block, and the index of the block that is left among the incoming
ones of the first `PHI` node. -/
def transferToBasicBlock (dst src : ℕ) (m : Machine V) : Option (Machine V) := do
  let kf ← m.kf km
  let entry ← kf.basicBlockEntry.lookup dst
  let first ← kf.instructions[entry]?
  match first.inst.op with
  | .PHI incoming => return { m with pc := entry, incomingBBIndex := incoming.idxOf src }
  | _ => return { m with pc := entry }

def popFrame (m : Machine V) : Machine V := { m with stack := m.stack.tail }

/-- The call of a function, with its formal arguments bound. -/
def call (callee numFormals : ℕ) (arguments : List V) (m : Machine V) : Machine V :=
  { m with
    pc := 0
    stack := ⟨some m.prevPC, callee, fun i => if i < numFormals then arguments[i]? else none⟩ ::
      m.stack }

end Machine

/-! ### Maps between values -/

def StackFrame.map {V W : Type} (f : V → W) (sf : StackFrame V) : StackFrame W :=
  ⟨sf.caller, sf.kf, fun i => (sf.locals i).map f⟩

def Machine.map {V W : Type} (f : V → W) (m : Machine V) : Machine W :=
  ⟨m.pc, m.prevPC, m.stack.map (StackFrame.map f), m.incomingBBIndex, m.haltExecution⟩

namespace Machine

variable {V W : Type} {km : KModule} (f : V → W) (m : Machine V)

end Machine

end TaseVerifier
