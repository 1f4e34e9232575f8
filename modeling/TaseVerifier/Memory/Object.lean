import TaseVerifier.Memory.ObjectState

/-! The state of one memory object, with its masks and its update list. Each byte has its
value in one of three places: the store, the table of known symbolics, or the update
list. The masks come into being when they are first needed, and so does the constant array
at the root of the update list. -/

namespace TaseVerifier

/-- Where an assertion of the object state fails. -/
inductive ObjectState.Failure where
  /-- `invalid bit set in flushMask` -/
  | flushMask
  /-- `unflushed byte without cache value` -/
  | unflushed
  /-- `constant offset passed to symbolic read8`, and to `write8` -/
  | constantOffset
  /-- `Invalid read size!`, `Invalid write size!` -/
  | size
  /-- The process ends: `Memory Object unaligned or with odd number of bytes`. -/
  | unaligned
  deriving DecidableEq

/-- `klee::ObjectState`. The arrays are indexed by offsets; the store is the mapped memory
itself. `writes` are the nodes of the update list from the most recent one, and `root` is
absent until a constant array is made. -/
structure ObjectState where
  address : ℕ
  size : ℕ
  store : ℕ → BitVec 8
  concreteMask : Option (ℕ → Bool)
  flushMask : Option (ℕ → Bool)
  knownSymbolics : Option (ℕ → Option Expr)
  root : Option KleeArray
  writes : List (Expr × Expr)

namespace ObjectState

/-! ### Masks -/

def isByteConcrete (os : ObjectState) (offset : ℕ) : Bool :=
  match os.concreteMask with
  | none => true
  | some mask => mask offset

def isByteFlushed (os : ObjectState) (offset : ℕ) : Bool :=
  match os.flushMask with
  | none => false
  | some mask => !mask offset

/-- `knownSymbolics[offset]`, if there is one. -/
def known (os : ObjectState) (offset : ℕ) : Option Expr := os.knownSymbolics.bind (· offset)

def isByteKnownSymbolic (os : ObjectState) (offset : ℕ) : Bool := (os.known offset).isSome

def markByteConcrete (offset : ℕ) (os : ObjectState) : ObjectState :=
  { os with concreteMask := os.concreteMask.map (Function.update · offset true) }

def markByteSymbolic (offset : ℕ) (os : ObjectState) : ObjectState :=
  { os with concreteMask := some (Function.update (os.concreteMask.getD fun _ => true) offset false) }

def markByteUnflushed (offset : ℕ) (os : ObjectState) : ObjectState :=
  { os with flushMask := os.flushMask.map (Function.update · offset true) }

/-- A mask that is made here has all bytes flushed. -/
def markByteFlushed (offset : ℕ) (os : ObjectState) : ObjectState :=
  { os with
    flushMask := some (match os.flushMask with
      | none => fun _ => false
      | some mask => Function.update mask offset false) }

def setKnownSymbolic (offset : ℕ) (value : Option Expr) (os : ObjectState) : ObjectState :=
  match os.knownSymbolics with
  | some table => { os with knownSymbolics := some (Function.update table offset value) }
  | none =>
    if value.isSome then
      { os with knownSymbolics := some (Function.update (fun _ => none) offset value) }
    else os

/-! ### The update list -/

def extend (index value : Expr) (os : ObjectState) : ObjectState :=
  { os with writes := (index, value) :: os.writes }

/-- The update list over a root. -/
def toUpdates (root : KleeArray) : List (Expr × Expr) → UpdateList
  | [] => .root root
  | (index, value) :: writes => (toUpdates root writes).extend index value

/-- The writes from the oldest one on, as long as they are constant, enter the contents;
the others are returned. -/
def pullConstants : List (Expr × Expr) → List APInt → List APInt × List (Expr × Expr)
  | (.constant index, .constant value) :: writes, contents =>
    pullConstants writes (contents.set index.toNat value)
  | writes, contents => (contents, writes)

/-- `getArrayCache()->CreateArray("const_arr" + utostr(++id), ...)`, for the next id. -/
structure ConstArrays where
  createArray : ℕ → List APInt → KleeArray
  size_createArray : ∀ size contents, (createArray size contents).size = size
  values_createArray : ∀ size contents, (createArray size contents).constantValues = contents

variable (arrays : ConstArrays)

/-- `getUpdates`, with the list it leaves behind. -/
def getUpdates (os : ObjectState) : UpdateList × ObjectState :=
  match os.root with
  | some root => (toUpdates root os.writes, os)
  | none =>
    let (contents, rest) := pullConstants os.writes.reverse
      (List.replicate os.size (APInt.ofNat Width.Int8 0))
    let root := arrays.createArray os.size contents
    (toUpdates root rest.reverse, { os with root := some root, writes := rest.reverse })

/-! ### Flushing -/

/-- `flushMask->unset(offset)`, on a mask that exists. -/
def unsetFlush (offset : ℕ) (os : ObjectState) : ObjectState :=
  { os with flushMask := os.flushMask.map (Function.update · offset false) }

/-- `if (!flushMask) flushMask = new BitArray(size, true)`. -/
def needFlushMask (os : ObjectState) : ObjectState :=
  { os with flushMask := some (os.flushMask.getD fun _ => true) }

/-- One turn of the loop of `flushRangeForRead`. -/
def flushByteForRead (os : ObjectState) (offset : ℕ) : Except Failure ObjectState :=
  if os.isByteFlushed offset then pure os
  else if os.isByteConcrete offset then
    pure (unsetFlush offset (os.extend (.alloc offset 32) (.constant ⟨8, os.store offset⟩)))
  else match os.known offset with
    | some value => pure (unsetFlush offset (os.extend (.alloc offset 32) value))
    | none => throw .flushMask

def flushRangeForRead (rangeBase rangeSize : ℕ) (os : ObjectState) : Except Failure ObjectState :=
  (List.range' rangeBase rangeSize).foldlM flushByteForRead os.needFlushMask

/-- One turn of the loop of `flushRangeForWrite`. -/
def flushByteForWrite (os : ObjectState) (offset : ℕ) : Except Failure ObjectState :=
  if os.isByteFlushed offset then
    -- flushed bytes that are written over still need to be marked out
    if os.isByteConcrete offset then pure (os.markByteSymbolic offset)
    else if os.isByteKnownSymbolic offset then pure (os.setKnownSymbolic offset none)
    else pure os
  else if os.isByteConcrete offset then
    pure (unsetFlush offset
      ((os.extend (.alloc offset 32) (.constant ⟨8, os.store offset⟩)).markByteSymbolic offset))
  else match os.known offset with
    | some value =>
      pure (unsetFlush offset ((os.extend (.alloc offset 32) value).setKnownSymbolic offset none))
    | none => throw .flushMask

def flushRangeForWrite (rangeBase rangeSize : ℕ) (os : ObjectState) : Except Failure ObjectState :=
  (List.range' rangeBase rangeSize).foldlM flushByteForWrite os.needFlushMask

/-! ### Bytes -/

/-- `read8` at a constant offset. -/
def read8 (offset : ℕ) (os : ObjectState) : Except Failure (Expr × ObjectState) :=
  if os.isByteConcrete offset then pure (.constant ⟨8, os.store offset⟩, os)
  else match os.known offset with
    | some value => pure (value, os)
    | none =>
      if os.isByteFlushed offset then
        let (updates, os') := os.getUpdates arrays
        pure (ReadExpr.create updates (.alloc offset 32), os')
      else throw .unflushed

/-- `read8` at a symbolic offset. The range is always the whole object. -/
def read8Symbolic (offset : Expr) (os : ObjectState) : Except Failure (Expr × ObjectState) :=
  if offset.isConstant then throw .constantOffset
  else do
    let os ← os.flushRangeForRead 0 os.size
    let (updates, os') := os.getUpdates arrays
    pure (ReadExpr.create updates (ZExtExpr.create offset Width.Int32), os')

/-- `write8` of a value. -/
def write8 (offset : ℕ) (value : BitVec 8) (os : ObjectState) : ObjectState :=
  markByteUnflushed offset (markByteConcrete offset (setKnownSymbolic offset none
    { os with store := Function.update os.store offset value }))

def write8AsExpr (offset : ℕ) (value : Expr) (os : ObjectState) : ObjectState :=
  markByteUnflushed offset (markByteSymbolic offset (setKnownSymbolic offset (some value) os))

/-- `write8` of an expression at a constant offset. -/
def write8Expr (offset : ℕ) (value : Expr) (os : ObjectState) : ObjectState :=
  match value with
  | .constant c => write8 offset (c.val.setWidth 8) os
  | value => write8AsExpr offset value os

/-- `write8` at a symbolic offset. -/
def write8Symbolic (offset value : Expr) (os : ObjectState) : Except Failure ObjectState :=
  if offset.isConstant then throw .constantOffset
  else do
    let os ← os.flushRangeForWrite 0 os.size
    pure (os.extend (ZExtExpr.create offset Width.Int32) value)

/-! ### Values of several bytes -/

/-- The loop of `read`: the bytes in turn, each put on the left of the ones before. -/
def readBytes (byte : ℕ → ObjectState → Except Failure (Expr × ObjectState)) (numBytes : ℕ)
    (os : ObjectState) : Except Failure (Expr × ObjectState) := do
  let first ← byte 0 os
  (List.range' 1 (numBytes - 1)).foldlM (fun res i => do
    let next ← byte i res.2
    pure (ConcatExpr.create next.1 res.1, next.2)) first

/-- The bytes of the store from an offset on, as one value. -/
def storeValue (os : ObjectState) (offset numBytes : ℕ) : APInt :=
  (List.range' 1 (numBytes - 1)).foldl (fun v i => APInt.concat ⟨8, os.store (offset + i)⟩ v)
    ⟨8, os.store offset⟩

variable (hasTaint : ObjectState → ℕ → ℕ → Bool)

/-- `read` at a constant offset. Bytes in which `tase_buf_has_taint` sees no poison are
taken from the store. -/
def readConstant (offset width : ℕ) (os : ObjectState) : Except Failure (Expr × ObjectState) :=
  if width = Width.Bool then do
    let res ← os.read8 arrays offset
    pure (ExtractExpr.create res.1 0 Width.Bool, res.2)
  else if width % 8 ≠ 0 then throw .size
  else if (width / 8 = 2 ∨ width / 8 = 4 ∨ width / 8 = 8) ∧
      hasTaint os offset (width / 8) = false then
    pure (.constant (os.storeValue offset (width / 8)), os)
  else readBytes (fun i => read8 arrays (offset + i)) (width / 8) os

/-- `read` at a symbolic offset. -/
def readSymbolic (offset : Expr) (width : ℕ) (os : ObjectState) :
    Except Failure (Expr × ObjectState) :=
  if width = Width.Bool then do
    let res ← os.read8Symbolic arrays offset
    pure (ExtractExpr.create res.1 0 Width.Bool, res.2)
  else if width % 8 ≠ 0 then throw .size
  else readBytes (fun i => read8Symbolic arrays (AddExpr.create offset (.alloc i 32))) (width / 8) os

/-- `ObjectState::read`; the offset is cut to 32 bits. -/
def read (offset : Expr) (width : ℕ) (os : ObjectState) : Except Failure (Expr × ObjectState) :=
  match ZExtExpr.create offset Width.Int32 with
  | .constant c => os.readConstant arrays hasTaint c.toNat width
  | offset => os.readSymbolic arrays offset width

/-- `write16`, `write32` and `write64`. -/
def writeValue (offset : ℕ) (c : APInt) (os : ObjectState) : ObjectState :=
  (List.range (c.width / 8)).foldl
    (fun os i => write8 (offset + i) (c.val.extractLsb' (8 * i) 8) os) os

/-- The part of `write` for values that are not constant. -/
def writeExpr (offset : ℕ) (value : Expr) (os : ObjectState) : Except Failure ObjectState :=
  if value.getWidth = Width.Bool then pure (write8Expr offset (ZExtExpr.create value Width.Int8) os)
  else if value.getWidth % 8 ≠ 0 then throw .size
  else pure ((List.range (value.getWidth / 8)).foldl
    (fun os i => write8Expr (offset + i) (ExtractExpr.create value (8 * i) Width.Int8) os) os)

/-- `write` at a constant offset. -/
def writeConstant (offset : ℕ) (value : Expr) (os : ObjectState) : Except Failure ObjectState :=
  match value with
  | .constant c =>
    if c.width = Width.Bool ∨ c.width = Width.Int8 then pure (write8 offset (c.val.setWidth 8) os)
    else if c.width = Width.Int16 ∨ c.width = Width.Int32 ∨ c.width = Width.Int64 then
      pure (writeValue offset c os)
    -- the other powers of two up to 64
    else if c.width = 2 ∨ c.width = 4 then throw .size
    else writeExpr offset (.constant c) os
  | value => writeExpr offset value os

/-- `write` at a symbolic offset. -/
def writeSymbolic (offset value : Expr) (os : ObjectState) : Except Failure ObjectState :=
  if value.getWidth = Width.Bool then write8Symbolic offset (ZExtExpr.create value Width.Int8) os
  else if value.getWidth % 8 ≠ 0 then throw .size
  else (List.range (value.getWidth / 8)).foldlM (fun os i =>
    write8Symbolic (AddExpr.create offset (.alloc i 32)) (ExtractExpr.create value (8 * i) Width.Int8)
      os) os

/-- `ObjectState::write`; the offset is cut to 32 bits. -/
def write (offset value : Expr) (os : ObjectState) : Except Failure ObjectState :=
  match ZExtExpr.create offset Width.Int32 with
  | .constant c => os.writeConstant c.toNat value
  | offset => os.writeSymbolic offset value

/-! ### Poison -/

/-- The two bytes from an offset on, as native code reads them. -/
def word (os : ObjectState) (offset : ℕ) : BitVec 16 := os.store (offset + 1) ++ os.store offset

/-- `*(uint16_t *) addr = value`, at an offset of the object. -/
def setWord (offset : ℕ) (value : BitVec 16) (os : ObjectState) : ObjectState :=
  let store := Function.update os.store offset (value.extractLsb' 0 8)
  { os with store := Function.update store (offset + 1) (value.extractLsb' 8 8) }

/-- Both bytes of a word are kept as expressions, and the word is poisoned. -/
def poisonPair (offset : ℕ) (os : ObjectState) : Except Failure ObjectState := do
  let b₁ ← os.read8 arrays offset
  let b₂ ← b₁.2.read8 arrays (offset + 1)
  pure (setWord offset poisonVal (write8AsExpr (offset + 1) b₂.1 (write8AsExpr offset b₁.1 b₂.2)))

def isNice (os : ObjectState) (offset : ℕ) : Bool :=
  os.isByteConcrete offset && !os.isByteFlushed offset

/-- All words are poisoned. -/
def poisonAll (os : ObjectState) : ObjectState :=
  (List.range (os.size / 2)).foldl (fun os i => setWord (2 * i) poisonVal os) os

/-- The words in the middle of a value that is not constant. -/
def poisonMiddle (offset : ℕ) (value : Expr) (twoByteAligned : Bool) (os : ObjectState) :
    Except Failure ObjectState :=
  if value.isConstant then pure os
  else if value.getWidth = Width.Int16 then
    -- the bytes are not kept as expressions here
    pure (if twoByteAligned then setWord offset poisonVal os else os)
  else if value.getWidth = Width.Int32 then
    if twoByteAligned then do
      let os ← os.poisonPair arrays offset
      os.poisonPair arrays (offset + 2)
    else os.poisonPair arrays (offset + 1)
  else if value.getWidth = Width.Int64 then
    if twoByteAligned then
      (List.range 4).foldlM (fun os i => poisonPair arrays (offset + 2 * i) os) os
    else (List.range 3).foldlM (fun os i => poisonPair arrays (offset + 2 * i + 1) os) os
  else pure os

/-- The word of an end, unless both its bytes are concrete and not flushed. -/
def poisonEnd (atEnd : Bool) (offset : ℕ) (os : ObjectState) : Except Failure ObjectState :=
  if atEnd ∧ ¬ (os.isNice offset ∧ os.isNice (offset + 1)) then os.poisonPair arrays offset
  else pure os

/-- `applyPsnOnWrite` at a constant offset. -/
def applyPsnOnWriteConstant (firstOff : ℕ) (value : Expr) (os : ObjectState) :
    Except Failure ObjectState :=
  let width := value.getWidth
  if ¬ (width = Width.Bool ∨ width = Width.Int8 ∨ width = Width.Int16 ∨ width = Width.Int32 ∨
      width = Width.Int64) then throw .size
  else do
    let endOff := firstOff + (if width = Width.Bool then 1 else width / 8) - 1
    let firstAddr := os.address + firstOff
    let endAddr := os.address + endOff
    let twoByteAligned := firstAddr % 2 = 0 ∧ endAddr % 2 = 1
    let os ← os.poisonMiddle arrays firstOff value twoByteAligned
    let os ← os.poisonEnd arrays (firstAddr % 2 = 1) (firstOff - 1)
    os.poisonEnd arrays (endAddr % 2 = 0) endOff

/-- `ObjectState::applyPsnOnWrite`. -/
def applyPsnOnWrite (offset value : Expr) (os : ObjectState) : Except Failure ObjectState :=
  match ZExtExpr.create offset Width.Int32 with
  | .constant c => os.applyPsnOnWriteConstant arrays c.toNat value
  | _ => if os.size % 2 ≠ 0 ∨ os.address % 2 ≠ 0 then throw .unaligned else pure os.poisonAll

/-- `ObjectState::applyPsnOnRead`; the offset is not cut. -/
def applyPsnOnRead (offset : Expr) (os : ObjectState) : Except Failure ObjectState :=
  if offset.isConstant then pure os
  else (List.range os.size).foldlM (fun os i => do
    let byteVal ← os.read8 arrays i
    pure (write8AsExpr i byteVal.1 byteVal.2)) os

/-! ### New objects -/

/-- An object with concrete contents. -/
def ofContents (address size : ℕ) (store : ℕ → BitVec 8) : ObjectState :=
  ⟨address, size, store, none, none, none, none, []⟩

/-- One turn of the loop of `makeSymbolic`. -/
def makeByteSymbolic (os : ObjectState) (offset : ℕ) : ObjectState :=
  markByteFlushed offset (setKnownSymbolic offset none (markByteSymbolic offset os))

/-- `makeSymbolic`, of an object without updates. -/
def makeSymbolic (os : ObjectState) : ObjectState := (List.range os.size).foldl makeByteSymbolic os

/-- An object with symbolic contents, over cleared memory. -/
def ofArray (address size : ℕ) (array : KleeArray) : ObjectState :=
  makeSymbolic ⟨address, size, fun _ => 0, none, none, none, some array, []⟩

def applyPsnOnMakeSymbolic (os : ObjectState) : Except Failure ObjectState :=
  if os.address % 2 ≠ 0 ∨ os.size % 2 ≠ 0 then throw .unaligned else pure os.poisonAll

end ObjectState

end TaseVerifier
