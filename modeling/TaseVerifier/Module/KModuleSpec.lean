import Mathlib.Data.List.Forall2
import TaseVerifier.Executor.Machine
import TaseVerifier.Library.Branching
import TaseVerifier.Module.TypeCheck

/-! A module that has been loaded. The operand numbers stand for the operands, every instruction
has a register of its own, and well-typed functions pass the checker. -/

namespace TaseVerifier

namespace KModule

variable (c : Constant) (constants : List Constant)

theorem getConstantID_extends : constants <+: (getConstantID c constants).2 := by
  unfold getConstantID
  split_ifs
  · exact List.prefix_rfl
  · exact List.prefix_append constants [c]

theorem getConstantID_lookup :
    (getConstantID c constants).2[(getConstantID c constants).1]? = some c := by
  unfold getConstantID
  split_ifs with h
  · exact List.getElem?_idxOf h
  · simp

end KModule

namespace KFunction

variable {f : Function} {constants constants' : List Constant}

/-- A number stands for a value. -/
def Names (f : Function) (constants : List Constant) (n : ℤ) : Value → Prop
  | .inst id => n = registerMap f id
  | .arg no => n = no
  | .block _ => n = -1
  | .const c => ∃ k : ℕ, n = -(k + 2 : ℤ) ∧ constants[k]? = some c

theorem Names.mono (h : constants <+: constants') {n : ℤ} {v : Value} (hn : Names f constants n v) :
    Names f constants' n v := by
  cases v with
  | const c =>
    obtain ⟨k, hk, hc⟩ := hn
    obtain ⟨hlt, -⟩ := List.getElem?_eq_some_iff.mp hc
    obtain ⟨t, rfl⟩ := h
    exact ⟨k, hk, (List.getElem?_append_left hlt).trans hc⟩
  | _ => exact hn

variable (f) (constants)

theorem getOperandNum_extends (v : Value) : constants <+: (getOperandNum f v constants).2 := by
  cases v with
  | const c => exact KModule.getConstantID_extends c constants
  | _ => exact List.prefix_rfl

theorem getOperandNum_names (v : Value) :
    Names f (getOperandNum f v constants).2 (getOperandNum f v constants).1 v := by
  cases v with
  | const c => exact ⟨_, rfl, KModule.getConstantID_lookup c constants⟩
  | _ => rfl

theorem getOperandNums_extends (vs : List Value) :
    constants <+: (getOperandNums f vs constants).2 := by
  induction vs generalizing constants with
  | nil => exact List.prefix_rfl
  | cons v vs ih => exact (getOperandNum_extends f constants v).trans (ih _)

theorem getOperandNums_names (vs : List Value) :
    List.Forall₂ (Names f (getOperandNums f vs constants).2) (getOperandNums f vs constants).1
      vs := by
  induction vs generalizing constants with
  | nil => exact .nil
  | cons v vs ih =>
    have hmono := getOperandNums_extends f (getOperandNum f v constants).2 vs
    exact .cons ((getOperandNum_names f constants v).mono hmono) (ih _)

variable {f} {constants}

/-- An instruction of a loaded function, with its block. -/
structure Translates (f : Function) (constants : List Constant) (p : ℕ × Inst)
    (ki : KInstruction) : Prop where
  inst : ki.inst = p.2
  parent : ki.parent = p.1
  dest : ki.dest = registerMap f p.2.id
  operands : List.Forall₂ (Names f constants) ki.operands p.2.operandValues

theorem Translates.mono (h : constants <+: constants') {p : ℕ × Inst} {ki : KInstruction}
    (ht : Translates f constants p ki) : Translates f constants' p ki :=
  ⟨ht.inst, ht.parent, ht.dest, ht.operands.imp fun _ _ hn => hn.mono h⟩

variable (f) (constants)

theorem ofInsts_extends (ps : List (ℕ × Inst)) : constants <+: (ofInsts f ps constants).2 := by
  induction ps generalizing constants with
  | nil => exact List.prefix_rfl
  | cons p ps ih => exact (getOperandNums_extends f constants p.2.operandValues).trans (ih _)

theorem ofInsts_translates (ps : List (ℕ × Inst)) :
    List.Forall₂ (Translates f (ofInsts f ps constants).2) ps (ofInsts f ps constants).1 := by
  induction ps generalizing constants with
  | nil => exact .nil
  | cons p ps ih =>
    have hfirst : Translates f (ofInst f p.1 p.2 constants).2 p (ofInst f p.1 p.2 constants).1 :=
      ⟨rfl, rfl, rfl, getOperandNums_names f constants p.2.operandValues⟩
    exact .cons (hfirst.mono (ofInsts_extends f _ ps)) (ih _)

theorem map_snd_placed : (placed f).map Prod.snd = f.insts := by
  rw [placed, List.map_flatMap, Function.insts]
  congr 1
  funext b
  simp [List.map_map, Function.comp_def]

variable {f} {constants}

theorem Translates.bindInstructionConstants {p : ℕ × Inst} {ki : KInstruction}
    (ht : Translates f constants p ki) :
    Translates f constants p (KModule.bindInstructionConstants ki) := by
  unfold KModule.bindInstructionConstants
  split <;> exact ⟨ht.inst, ht.parent, ht.dest, ht.operands⟩

theorem checkOffsets_bindInstructionConstants (ki : KInstruction) :
    (KModule.bindInstructionConstants ki).checkOffsets = true := by
  unfold KModule.bindInstructionConstants
  split <;> simp_all [KInstruction.checkOffsets]

end KFunction

namespace KModule

/-- A function that has been loaded. -/
structure Loaded (constants : List Constant) (f : Function) (kf : KFunction) : Prop where
  function : kf.function = f
  numArgs : kf.numArgs = f.args.length
  basicBlockEntry : kf.basicBlockEntry = KFunction.entries 0 f.blocks
  instructions :
    List.Forall₂ (KFunction.Translates f constants) (KFunction.placed f) kf.instructions
  offsets : ∀ ki ∈ kf.instructions, ki.checkOffsets = true

variable {constants constants' : List Constant} {f : Function} {kf : KFunction}

theorem Loaded.mono (h : constants <+: constants') (hl : Loaded constants f kf) :
    Loaded constants' f kf :=
  ⟨hl.function, hl.numArgs, hl.basicBlockEntry, hl.instructions.imp fun _ _ ht => ht.mono h,
    hl.offsets⟩

variable (constants)

theorem loaded_ofFunction (f : Function) :
    Loaded (KFunction.ofFunction f constants).2 f
      (bindModuleConstants (KFunction.ofFunction f constants).1) := by
  refine ⟨rfl, rfl, rfl, ?_, ?_⟩
  · refine List.forall₂_map_right_iff.mpr ?_
    exact (KFunction.ofInsts_translates f constants (KFunction.placed f)).imp
      fun _ _ ht => ht.bindInstructionConstants
  · intro ki hki
    obtain ⟨ki', -, rfl⟩ := List.mem_map.mp hki
    exact KFunction.checkOffsets_bindInstructionConstants ki'

theorem ofFunctions_extends (fs : List Function) : constants <+: (ofFunctions fs constants).2 := by
  induction fs generalizing constants with
  | nil => exact List.prefix_rfl
  | cons f fs ih => exact (KFunction.ofInsts_extends f constants (KFunction.placed f)).trans (ih _)

theorem loaded_ofFunctions (fs : List Function) :
    List.Forall₂ (Loaded (ofFunctions fs constants).2) fs (ofFunctions fs constants).1 := by
  induction fs generalizing constants with
  | nil => exact .nil
  | cons f fs ih => exact .cons ((loaded_ofFunction constants f).mono (ofFunctions_extends _ fs)) (ih _)

variable (fs : List Function) (globalAddresses : ℕ → ℕ)

theorem loaded_ofModule :
    List.Forall₂ (Loaded (ofModule fs globalAddresses).constants) fs
      (ofModule fs globalAddresses).functions :=
  loaded_ofFunctions [] fs

variable {constants}

theorem Loaded.map_inst (hl : Loaded constants f kf) :
    kf.instructions.map KInstruction.inst = f.insts := by
  rw [← KFunction.map_snd_placed]
  have h := hl.instructions
  generalize KFunction.placed f = ps at h
  generalize kf.instructions = kis at h
  induction h with
  | nil => rfl
  | cons ht _ ih => rw [List.map_cons, List.map_cons, ht.inst, ih]

theorem inst_eq_getElem? (id : ℕ) : f.inst id = f.insts[(f.insts.map Inst.id).idxOf id]? := by
  rw [Function.inst]
  induction f.insts with
  | nil => rfl
  | cons i is ih =>
    by_cases hi : i.id = id
    · simp [hi]
    · rw [List.find?_cons_of_neg (by simpa using hi), ih, List.map_cons, List.idxOf_cons_ne _ hi]
      rfl

theorem Loaded.registerWidth_registerMap (hl : Loaded constants f kf) (id : ℕ) :
    kf.registerWidth (KFunction.registerMap f id) = (f.inst id).map Inst.width := by
  rw [KFunction.registerWidth, hl.numArgs, if_neg (by simp [KFunction.registerMap]),
    KFunction.registerMap, Nat.add_sub_cancel_left, inst_eq_getElem?, ← hl.map_inst,
    List.getElem?_map, Option.map_map]
  rfl

theorem Loaded.registerWidth_arg (hl : Loaded constants f kf) {no : ℕ} (hno : no < f.args.length) :
    kf.registerWidth no = f.args[no]? := by
  rw [KFunction.registerWidth, hl.numArgs, if_pos hno, hl.function]

variable {km : KModule}

theorem Loaded.operandWidth_eq (hl : Loaded km.constants f kf) {ki : KInstruction} {i : ℕ} {v : Value}
    {n : ℤ} (hn : ki.operands[i]? = some n) (hv : KFunction.Names f km.constants n v)
    (harg : ∀ no, v = .arg no → no < f.args.length) :
    km.operandWidth kf ki i = f.valueWidth v := by
  simp only [operandWidth, hn, Option.bind_eq_bind, Option.bind_some]
  cases v with
  | inst id =>
    obtain rfl : n = KFunction.registerMap f id := hv
    rw [if_neg (by omega), if_neg (by omega)]
    exact hl.registerWidth_registerMap id
  | arg no =>
    obtain rfl : n = no := hv
    rw [if_neg (by omega), if_neg (by omega)]
    exact hl.registerWidth_arg (harg no rfl)
  | block name =>
    obtain rfl : n = -1 := hv
    rfl
  | const c =>
    obtain ⟨k, rfl, hc⟩ := hv
    have hk : (-(-(k + 2 : ℤ)) - 2).toNat = k := by omega
    rw [if_neg (by omega), if_pos (by omega), hk, hc]
    rfl

theorem inst_of_mem (hids : (f.insts.map Inst.id).Nodup) {inst : Inst} (hi : inst ∈ f.insts) :
    f.inst inst.id = some inst := by
  obtain ⟨k, hk, rfl⟩ := List.getElem_of_mem hi
  have hid : (f.insts.map Inst.id).idxOf f.insts[k].id = k := by
    have h := hids.idxOf_getElem k (by simpa using hk)
    rwa [List.getElem_map] at h
  rw [inst_eq_getElem?, hid, List.getElem?_eq_getElem hk]

/-- Arguments of the function that an instruction uses are there. -/
theorem arg_lt (hf : f.argsExist = true) {inst : Inst} (hi : inst ∈ f.insts) {no : ℕ}
    (hno : Value.arg no ∈ inst.operandValues) : no < f.args.length := by
  have hinst := List.all_eq_true.mp hf inst hi
  have hmem : Value.arg no ∈ inst.operands := by
    unfold Inst.operandValues at hno
    split at hno
    · simpa using hno
    · exact hno
  exact of_decide_eq_true (List.all_eq_true.mp hinst _ hmem)

variable {fs}

theorem Loaded.operandWidths (hl : Loaded km.constants f kf) (hf : f.argsExist = true)
    {p : ℕ × Inst} {ki : KInstruction} (ht : KFunction.Translates f km.constants p ki)
    (hp : p.2 ∈ f.insts) :
    km.operandWidth kf ki = f.operandWidth p.2 := by
  funext i
  rw [Function.operandWidth]
  have hlen := ht.operands.length_eq
  by_cases hi : i < ki.operands.length
  · have hi' : i < p.2.operandValues.length := hlen ▸ hi
    have hn := (List.forall₂_iff_get.mp ht.operands).2 i hi hi'
    rw [List.getElem?_eq_getElem hi', Option.bind_some]
    refine hl.operandWidth_eq (List.getElem?_eq_getElem hi) hn fun no hno => ?_
    refine arg_lt hf hp ?_
    rw [← hno]
    exact List.getElem_mem hi'
  · rw [List.getElem?_eq_none (by omega), operandWidth, List.getElem?_eq_none (by omega)]
    rfl

theorem Loaded.checkFunction (hl : Loaded km.constants f kf) (hf : f.check fs = true)
    (hs : f.supported = true) (hfs : km.functions.map KFunction.function = fs) :
    km.checkFunction kf = true := by
  rw [Function.check, Bool.and_eq_true, Bool.and_eq_true] at hf
  obtain ⟨⟨hids, hargs⟩, hinsts⟩ := hf
  rw [KModule.checkFunction, hl.numArgs, hl.function, beq_self_eq_true, Bool.true_and,
    List.all_eq_true]
  intro ki hki
  obtain ⟨p, hp, ht⟩ := exists_of_mem_right hl.instructions hki
  have hmem : p.2 ∈ f.insts := by
    rw [← KFunction.map_snd_placed]
    exact List.mem_map_of_mem hp
  have hdest : kf.registerWidth ki.dest = some p.2.width := by
    rw [ht.dest, hl.registerWidth_registerMap, inst_of_mem (of_decide_eq_true hids) hmem]
    rfl
  simp only [checkInstruction, Bool.and_eq_true, beq_iff_eq]
  refine ⟨ht.inst ▸ hdest, ⟨⟨?_, hl.offsets ki hki⟩, ?_⟩, ?_⟩
  · rw [ht.operands.length_eq, ht.inst]
  · rw [ht.inst, hl.operandWidths hargs ht hmem, hfs]
    exact List.all_eq_true.mp hinsts p.2 hmem
  · rw [ht.inst, hl.operandWidths hargs ht hmem]
    exact List.all_eq_true.mp hs p.2 hmem

theorem Loaded.names (hl : Loaded km.constants f kf) {ki : KInstruction}
    (hki : ki ∈ kf.instructions) :
    ki.inst ∈ f.insts ∧ ki.dest = KFunction.registerMap f ki.inst.id ∧
      List.Forall₂ (KFunction.Names f km.constants) ki.operands ki.inst.operandValues := by
  obtain ⟨p, hp, ht⟩ := exists_of_mem_right hl.instructions hki
  rw [ht.inst]
  refine ⟨?_, ht.dest, ht.operands⟩
  rw [← KFunction.map_snd_placed]
  exact List.mem_map_of_mem hp

theorem registerMap_inj {id id' : ℕ} (hid : id ∈ f.insts.map Inst.id) :
    KFunction.registerMap f id' = KFunction.registerMap f id ↔ id' = id := by
  rw [KFunction.registerMap, KFunction.registerMap, Nat.add_left_cancel_iff]
  refine ⟨fun h => ?_, fun h => h ▸ rfl⟩
  exact ((List.idxOf_inj hid).mp h.symm).symm

end KModule

/-- What the operands of a function stand for: its arguments, and the values that its
instructions have had so far. -/
structure Environment (V : Type) where
  constant : APInt → V
  globalAddresses : ℕ → ℕ
  arguments : List V
  insts : ℕ → Option V

namespace Environment

variable {V : Type} (env : Environment V)

def value : Value → Option V
  | .inst id => env.insts id
  | .arg no => env.arguments[no]?
  | .block _ => none
  | .const (.int c) => some (env.constant c)
  | .const (.function f) => some (env.constant (APInt.ofNat 64 (env.globalAddresses f)))

def bind (id : ℕ) (v : V) : Environment V := { env with insts := Function.update env.insts id v }

def bindAll (binds : List (KInstruction × V)) : Environment V :=
  binds.foldl (fun env b => env.bind b.1.inst.id b.2) env

/-- The registers hold the environment. -/
structure Holds (f : Function) (locals : ℕ → Option V) : Prop where
  arguments : ∀ no < f.args.length, locals no = env.arguments[no]?
  insts : ∀ id, locals (KFunction.registerMap f id) = env.insts id

variable {env} {f : Function} {locals : ℕ → Option V}

theorem Holds.bind (h : env.Holds f locals) {id : ℕ} (hid : id ∈ f.insts.map Inst.id) (v : V) :
    (env.bind id v).Holds f (Function.update locals (KFunction.registerMap f id) v) := by
  constructor
  · intro no hno
    have hne : no ≠ KFunction.registerMap f id := by
      unfold KFunction.registerMap
      omega
    rw [Function.update_of_ne hne]
    exact h.arguments no hno
  · intro id'
    by_cases heq : id' = id
    · subst heq
      simp [Environment.bind]
    · have hne : KFunction.registerMap f id' ≠ KFunction.registerMap f id :=
        fun hreg => heq ((KModule.registerMap_inj hid).mp hreg)
      rw [Function.update_of_ne hne, h.insts]
      exact (Function.update_of_ne heq _ _).symm

theorem Holds.eval {km : KModule} {kf : KFunction} (h : env.Holds f locals)
    (hg : env.globalAddresses = km.globalAddresses) (hf : f.argsExist = true)
    (hl : KModule.Loaded km.constants f kf) {ki : KInstruction} (hki : ki ∈ kf.instructions)
    (i : ℕ) {m : Machine V} {sf : StackFrame V} (hm : m.stack.head? = some sf)
    (hsf : sf.locals = locals) :
    m.eval km env.constant ki i = ki.inst.operandValues[i]?.bind env.value := by
  obtain ⟨hmem, -, hnames⟩ := hl.names hki
  have hlen := hnames.length_eq
  by_cases hi : i < ki.operands.length
  · have hi' : i < ki.inst.operandValues.length := hlen ▸ hi
    have hn := (List.forall₂_iff_get.mp hnames).2 i hi hi'
    have hv : ki.inst.operandValues[i] ∈ ki.inst.operandValues := List.getElem_mem hi'
    simp only [List.get_eq_getElem] at hn
    rw [List.getElem?_eq_getElem hi', Option.bind_some, Machine.eval,
      List.getElem?_eq_getElem hi]
    generalize ki.inst.operandValues[i] = v at hn hv
    generalize ki.operands[i] = n at hn
    simp only [Option.bind_eq_bind, Option.bind_some, hm, hsf]
    cases v with
    | inst id =>
      obtain rfl : n = KFunction.registerMap f id := hn
      rw [if_neg (by omega), if_neg (by omega)]
      exact h.insts id
    | arg no =>
      obtain rfl : n = no := hn
      rw [if_neg (by omega), if_neg (by omega)]
      exact h.arguments no (KModule.arg_lt hf hmem hv)
    | block name =>
      obtain rfl : n = -1 := hn
      rfl
    | const c =>
      obtain ⟨k, rfl, hc⟩ := hn
      have hk : (-(-(k + 2 : ℤ)) - 2).toNat = k := by omega
      rw [if_neg (by omega), if_pos (by omega), hk, hc]
      cases c with
      | int c => rfl
      | function g => rw [value, hg]; rfl
  · rw [List.getElem?_eq_none (by omega), Machine.eval, List.getElem?_eq_none (by omega)]
    rfl

/-- The environment in which a function is entered. -/
def enter (constant : APInt → V) (globalAddresses : ℕ → ℕ) (arguments : List V) : Environment V :=
  ⟨constant, globalAddresses, arguments, fun _ => none⟩

theorem enter_holds (constant : APInt → V) (globalAddresses : ℕ → ℕ) (arguments : List V) :
    (enter constant globalAddresses arguments).Holds f
      fun r => if r < f.args.length then arguments[r]? else none := by
  constructor
  · intro no hno
    exact if_pos hno
  · intro id
    exact if_neg (by simp [KFunction.registerMap])

end Environment

namespace KModule

variable {V : Type} {km : KModule} {f : Function} {kf : KFunction}

def bindAll (binds : List (KInstruction × V)) (m : Machine V) : Machine V :=
  binds.foldl (fun m b => m.bindLocal b.1 b.2) m

theorem Loaded.bindAll_holds (hl : Loaded km.constants f kf) {env : Environment V}
    {m : Machine V} {sf : StackFrame V} (hm : m.stack.head? = some sf) (henv : env.Holds f sf.locals)
    (binds : List (KInstruction × V)) (hbinds : ∀ b ∈ binds, b.1 ∈ kf.instructions) :
    ∃ sf', (bindAll binds m).stack.head? = some sf' ∧
      (env.bindAll binds).Holds f sf'.locals := by
  induction binds generalizing m sf env with
  | nil => exact ⟨sf, hm, henv⟩
  | cons b binds ih =>
    obtain ⟨hmem, hdest, -⟩ := hl.names (hbinds b List.mem_cons_self)
    obtain ⟨_, _, stack, _, _⟩ := m
    cases stack with
    | nil => cases hm
    | cons sf₀ stack =>
      obtain rfl : sf₀ = sf := Option.some.inj hm
      have hb := henv.bind (List.mem_map_of_mem hmem) b.2
      rw [← hdest] at hb
      exact ih rfl hb fun b hb => hbinds b (List.mem_cons_of_mem _ hb)

/-- The registers of a loaded function are its values: in a frame that has been entered, and
whatever instructions have been given values since, in any order and any number of times, an
operand is what it stands for. -/
theorem eval_bindAll (fs : List Function) (globalAddresses : ℕ → ℕ)
    (hfs : ∀ f ∈ fs, f.argsExist = true) (kf : KFunction)
    (hkf : kf ∈ (ofModule fs globalAddresses).functions) (constant : APInt → V) (m : Machine V)
    (callee : ℕ) (arguments : List V) (binds : List (KInstruction × V))
    (hbinds : ∀ b ∈ binds, b.1 ∈ kf.instructions) (ki : KInstruction)
    (hki : ki ∈ kf.instructions) (i : ℕ) :
    (bindAll binds (m.call callee kf.numArgs arguments)).eval (ofModule fs globalAddresses) constant
        ki i =
      ki.inst.operandValues[i]?.bind
        ((Environment.enter constant globalAddresses arguments).bindAll binds).value := by
  obtain ⟨f, hf, hl⟩ := exists_of_mem_right (loaded_ofModule fs globalAddresses) hkf
  obtain ⟨sf, hsf, hholds⟩ := hl.bindAll_holds (m := m.call callee kf.numArgs arguments) rfl
    (hl.numArgs ▸ Environment.enter_holds constant globalAddresses arguments) binds hbinds
  have hconstant : ∀ env : Environment V, (env.bindAll binds).constant = env.constant ∧
      (env.bindAll binds).globalAddresses = env.globalAddresses := by
    clear hholds hsf hbinds
    induction binds with
    | nil => exact fun env => ⟨rfl, rfl⟩
    | cons b binds ih => exact fun env => ih (env.bind b.1.inst.id b.2)
  obtain ⟨hc, hg⟩ := hconstant (Environment.enter constant globalAddresses arguments)
  have heval := hholds.eval hg (hfs f hf) hl hki i hsf rfl
  rwa [hc] at heval

end KModule

/-! ### A function with a branch -/

/-- `char f(char c) { return c < 7 ? c + 1 : c; }`. -/
def increment : Function where
  args := [8]
  blocks := [
    ⟨0, [⟨0, .Binary .Ult, [.arg 0, .const (.int (.ofNat 8 7))], 1⟩,
      ⟨1, .CondBr 1 2, [.inst 0, .block 2, .block 1], 0⟩]⟩,
    ⟨1, [⟨2, .Binary .Add, [.arg 0, .const (.int (.ofNat 8 1))], 8⟩, ⟨3, .Br 2, [.block 2], 0⟩]⟩,
    ⟨2, [⟨4, .PHI [0, 1], [.arg 0, .inst 2], 8⟩, ⟨5, .Ret, [.inst 4], 0⟩]⟩]

theorem eval_bindAll_increment :
    let km := KModule.ofModule [increment] fun _ => 0
    ∃ kf ∈ km.functions, ∃ add ∈ kf.instructions, ∃ phi ∈ kf.instructions,
      phi.inst.op = .PHI [0, 1] ∧ (KModule.bindAll [(add, 8)]
        (Machine.call 0 kf.numArgs [3] ⟨0, 0, [], 0, false⟩)).eval km APInt.toNat phi 1 = some 8 := by
  intro km
  have hlength : 0 < km.functions.length := by decide
  have hinsts : 4 < km.functions[0].instructions.length := (by decide : 4 < 6)
  have hkf := List.getElem_mem hlength
  have hadd := List.getElem_mem (n := 2) (by omega : 2 < km.functions[0].instructions.length)
  have hphi := List.getElem_mem hinsts
  refine ⟨_, hkf, _, hadd, _, hphi, rfl, ?_⟩
  exact KModule.eval_bindAll [increment] (fun _ => 0)
    (fun f hf => List.mem_singleton.mp hf ▸ (by decide)) _ hkf APInt.toNat
    ⟨0, 0, [], 0, false⟩ 0 [3] [(_, 8)] (fun b hb => List.mem_singleton.mp hb ▸ hadd) _ hphi 1

end TaseVerifier
