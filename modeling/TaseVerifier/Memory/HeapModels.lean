import TaseVerifier.Memory.MapBuf
import TaseVerifier.Memory.ObjectFlat
import TaseVerifier.Memory.ObjectPoison

/-! The models of `malloc`, `calloc` and `realloc`, from their concrete arguments on. With
`bufferGuard` a block of the host has two words of poison around the buffer that is returned;
the buffer is mapped by `tase_map_buf`. -/

namespace TaseVerifier.HeapModels

structure Config where
  bufferGuard : Bool
  roundUpHeapAllocations : Bool

/-- Native memory, and which addresses the process has mapped. -/
structure Native where
  byte : ℕ → BitVec 8
  mapped : ℕ → Bool

/-- The allocator of the host: the block returned, and native memory afterwards. -/
structure Host where
  malloc : ℕ → Native → ℕ × Native
  calloc : ℕ → ℕ → Native → ℕ × Native
  realloc : ℕ → ℕ → Native → ℕ × Native
  free : ℕ → Native → Native

/-- `concreteStore` of a bound object is the native memory from its address on; `rax` is what
the guest finds as the result. `reads` is no part of the process: it lists the addresses whose
bytes the models themselves have read, which they do in `memcpy` only. -/
structure Heap where
  native : Native
  objects : List ObjectState
  heap_guard_map : List (ℕ × ℕ)
  rax : ℕ
  reads : List ℕ

namespace Heap

def extents (h : Heap) : MapBuf.MemoryMap := h.objects.map fun os => ⟨os.address, os.size⟩

/-- An object with its store. -/
def view (h : Heap) (os : ObjectState) : ObjectState :=
  { os with store := fun i => h.native.byte (os.address + i) }

def resolveOne (h : Heap) (address : ℕ) : Option ObjectState :=
  (MapBuf.resolveOne h.extents address).bind fun mo =>
    h.objects.find? fun os => os.address = mo.address

def unbindObject (os : ObjectState) (h : Heap) : Heap :=
  { h with objects := h.objects.filter fun o => o.address ≠ os.address }

/-- An object at the same address is replaced. -/
def bindObject (os : ObjectState) (h : Heap) : Heap :=
  { h with objects := (h.objects.filter fun o => o.address ≠ os.address) ++ [os] }

/-- The parameter for the size is an `unsigned`. -/
def addExternalObject (addr size : ℕ) (h : Heap) : Heap :=
  h.bindObject (.ofContents addr (size % 2 ^ 32) fun i => h.native.byte (addr + i))

def addExternalObjectCheck (addr size : ℕ) (h : Heap) : Heap × Bool :=
  if (h.resolveOne addr).isSome then (h, false) else (h.addExternalObject addr size, true)

def tase_map_buf (addr size : ℕ) (h : Heap) : Heap × Bool :=
  h.addExternalObjectCheck addr (MapBuf.roundedSize size)

/-- `*(uint16_t *) addr = value`. -/
def setWord (addr : ℕ) (value : BitVec 16) (h : Heap) : Heap :=
  let byte := Function.update h.native.byte addr (value.extractLsb' 0 8)
  { h with native.byte := Function.update byte ((addr + 1) % 2 ^ 64) (value.extractLsb' 8 8) }

/-- A byte that is not mapped ends the process. -/
def memcpy (dst src n : ℕ) (h : Heap) : Option Heap :=
  if ∀ i < n, h.native.mapped (src + i) ∧ h.native.mapped (dst + i) then
    some { h with
      native.byte := fun a =>
        if dst ≤ a ∧ a < dst + n then h.native.byte (src + (a - dst)) else h.native.byte a
      reads := (List.range n).map (src + ·) ++ h.reads }
  else none

/-- `heap_guard_map.insert`, which keeps the entry of a key that is there. -/
def insertGuard (returnedBuf res : ℕ) (h : Heap) : Heap :=
  if (h.heap_guard_map.lookup returnedBuf).isSome then h
  else { h with heap_guard_map := (returnedBuf, res) :: h.heap_guard_map }

/-- The block `res` with a buffer of `size` bytes in it, and poison at its edges. -/
def guardBlock (res size : ℕ) (h : Heap) : Heap :=
  let returnedBuf := (res + 2 + 8) % 2 ^ 64
  let h := h.insertGuard returnedBuf res
  let h := (h.tase_map_buf returnedBuf ((size + 6) % 2 ^ 64)).1
  let h := h.setWord res poisonVal
  let endAddr := (res + 2 + 8 + size + 8) % 2 ^ 64
  let h := h.setWord endAddr poisonVal
  { h with rax := returnedBuf }

end Heap

def roundUp (input multiple : ℕ) : ℕ :=
  if input % multiple = 0 then input else (input / multiple + 1) * multiple % 2 ^ 64

def Config.round (cfg : Config) (size : ℕ) : ℕ :=
  if cfg.roundUpHeapAllocations then roundUp size 8 else size

variable (cfg : Config) (host : Host)

def model_malloc (sizeArg : ℕ) (h : Heap) : Heap :=
  let sizeArg := cfg.round sizeArg
  if cfg.bufferGuard then
    let (buf, native) := host.malloc ((sizeArg + 20) % 2 ^ 64) h.native
    { h with native }.guardBlock buf sizeArg
  else
    let (buf, native) := host.malloc sizeArg h.native
    { ({ h with native }.tase_map_buf buf sizeArg).1 with rax := buf }

/-- The sizes are not rounded here. -/
def model_calloc (nmemb size : ℕ) (h : Heap) : Heap :=
  if cfg.bufferGuard then
    let (res, native) := host.calloc ((nmemb + (4 + 16)) % 2 ^ 64) size h.native
    { h with native }.guardBlock res (nmemb * size % 2 ^ 64)
  else
    let (res, native) := host.calloc nmemb size h.native
    { ({ h with native }.tase_map_buf res (size * nmemb % 2 ^ 64)).1 with rax := res }

/-- The part of `realloc` with guards that follows the mapping of the new buffer. The process
exits when the pointer does not resolve. -/
def copyAndFree (ptrIn sizeIn : ℕ) (h : Heap) : Option Heap := do
  let h ← h.memcpy h.rax ptrIn sizeIn
  let translatedPtrIn := (h.heap_guard_map.lookup ptrIn).getD ptrIn
  let h := { h with heap_guard_map := h.heap_guard_map.filter fun e => e.1 ≠ ptrIn }
  let os ← h.resolveOne ptrIn
  let h := h.unbindObject os
  return { h with native := host.free translatedPtrIn h.native }

/-- With guards: the bytes go to a new block, and the old object and block go away. -/
def reallocGuarded (ptrIn sizeIn : ℕ) (h : Heap) : Option Heap :=
  let (res, native) := host.malloc ((2 + 8 + sizeIn + 8 + 2) % 2 ^ 64) h.native
  let h := { h with native }.guardBlock res sizeIn
  if ptrIn = 0 then some h else copyAndFree host ptrIn sizeIn h

/-- Without guards: the host moves the bytes or keeps them in place. -/
def reallocPlain (ptr size : ℕ) (h : Heap) : Option Heap := do
  let (res, native) := host.realloc ptr size h.native
  let size := cfg.round size
  let h := { h with native, rax := res }
  if ptr = 0 then return (h.tase_map_buf res size).1
  else if res ≠ ptr then do
    let os ← h.resolveOne ptr
    return (h.unbindObject os).addExternalObject res size
  else do
    let os ← h.resolveOne res
    -- a smaller buffer in the same place keeps its object
    if size ≤ os.size then return h
    else return (h.unbindObject os).addExternalObject res size

def model_realloc (ptr size : ℕ) (h : Heap) : Option Heap :=
  if cfg.bufferGuard then reallocGuarded host ptr size h else reallocPlain cfg host ptr size h

/-! ### Resolving an address -/

namespace Heap

variable {h h' : Heap} {os : ObjectState} {x : ℕ}

theorem memcpy_spec {dst src n : ℕ} (hc : h.memcpy dst src n = some h') :
    h' = { h with
      native.byte := fun a =>
        if dst ≤ a ∧ a < dst + n then h.native.byte (src + (a - dst)) else h.native.byte a
      reads := (List.range n).map (src + ·) ++ h.reads } ∧
      ∀ i < n, h.native.mapped (src + i) ∧ h.native.mapped (dst + i) := by
  rw [memcpy] at hc
  split_ifs at hc with hm
  exact ⟨(Option.some.inj hc).symm, hm⟩

/-- The object that starts last at or before `x`, and covers it. -/
theorem resolveOne_eq (hmem : os ∈ h.objects) (hle : os.address ≤ x)
    (hlt : x < os.address + os.size) (hlast : ∀ o ∈ h.objects, o.address ≤ x →
      o.address ≤ os.address ∧ (o.address = os.address → o = os)) :
    h.resolveOne x = some os := by
  have hext : (⟨os.address, os.size⟩ : MapBuf.MemoryObject) ∈ h.extents :=
    List.mem_map.mpr ⟨os, hmem, rfl⟩
  obtain ⟨mo, hmo⟩ := MapBuf.exists_lookup_previous hext hle
  obtain ⟨hmem', hle', hmax⟩ := MapBuf.lookup_previous_spec hmo
  obtain ⟨o, ho, rfl⟩ := List.mem_map.mp hmem'
  have hge : os.address ≤ o.address := hmax _ hext hle
  obtain ⟨hle'', huniq⟩ := hlast o ho hle'
  obtain rfl := huniq (le_antisymm hle'' hge)
  rw [resolveOne, MapBuf.resolveOne, hmo]
  dsimp only
  rw [if_pos (.inr (by omega)), Option.bind_some]
  cases hf : h.objects.find? fun p => p.address = o.address with
  | none =>
    have := List.find?_eq_none.mp hf o hmem
    simp at this
  | some q =>
    have hq := List.mem_of_find?_eq_some hf
    have hqa := List.find?_some hf
    rw [decide_eq_true_eq] at hqa
    rw [(hlast q hq (hqa.trans_le hle)).2 hqa]

/-- What is found starts last, and an object that starts there covers the address. -/
theorem resolveOne_some (hr : h.resolveOne x = some os) : os ∈ h.objects ∧ os.address ≤ x ∧
    (∀ o ∈ h.objects, o.address ≤ x → o.address ≤ os.address) ∧
    ∃ o ∈ h.objects, o.address = os.address ∧
      ((o.size = 0 ∧ x = o.address) ∨ x < o.address + o.size) := by
  obtain ⟨mo, hmo, hf⟩ := Option.bind_eq_some_iff.mp hr
  rw [MapBuf.resolveOne] at hmo
  split at hmo
  · cases hmo
  next mo' hp =>
    obtain ⟨hmem, hle, hmax⟩ := MapBuf.lookup_previous_spec hp
    split at hmo
    next hc =>
      obtain rfl : mo' = mo := Option.some.inj hmo
      obtain ⟨o, ho, rfl⟩ := List.mem_map.mp hmem
      have ha := List.find?_some hf
      rw [decide_eq_true_eq] at ha
      refine ⟨List.mem_of_find?_eq_some hf, ha ▸ hle, fun p hp hpx => ?_, o, ho, ha.symm, ?_⟩
      · exact ha ▸ hmax _ (List.mem_map.mpr ⟨p, hp, rfl⟩) hpx
      · dsimp only at hc hle
        exact hc.imp_right fun h => by omega
    · cases hmo

theorem resolveOne_none (hno : ∀ o ∈ h.objects, o.address ≤ x →
    ¬(o.size = 0 ∧ x = o.address) ∧ o.address + o.size ≤ x) : h.resolveOne x = none := by
  rw [resolveOne, MapBuf.resolveOne]
  cases hmo : MapBuf.lookup_previous h.extents x with
  | none => rfl
  | some mo =>
    obtain ⟨hmem, hle, -⟩ := MapBuf.lookup_previous_spec hmo
    obtain ⟨o, ho, rfl⟩ := List.mem_map.mp hmem
    obtain ⟨hz, hend⟩ := hno o ho hle
    dsimp only
    rw [if_neg]
    · rfl
    · rintro (⟨h0, he⟩ | hlt)
      · exact hz ⟨h0, he⟩
      · dsimp only at hle hlt
        omega

end Heap

end TaseVerifier.HeapModels
