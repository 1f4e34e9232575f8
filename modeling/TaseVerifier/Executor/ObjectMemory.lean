import TaseVerifier.Executor.InterpreterSound
import TaseVerifier.Memory.PoisonValue
import TaseVerifier.Memory.Resolve

/-! Memory as the objects of an address space, accessed by `executeMemoryOperation` at constant
addresses, without `optimizeConstMemOps`. Under an assignment it is an array of bytes for every
object. -/

namespace TaseVerifier

open AddressSpace ImmutableTree Library
open ObjectState hiding address

namespace ObjectMemory

/-- An object state with the flag that `setReadOnly` sets. -/
structure BoundState extends ObjectState where
  readOnly : Bool

section Model

variable (arrays : ConstArrays) (hasTaint : ObjectState → ℕ → ℕ → Bool)

/-- The object that holds all bytes of an access. -/
def access {S : Type} (address : BitVec 64) (bytes : ℕ) (objects : MemoryMap S) :
    Option (ObjectPair S) := do
  let op ← resolveOne objects address
  if (address + BitVec.ofNat 64 bytes).toNat ≤ op.1.address.toNat + op.1.size.toNat then some op
  else none

def offset (mo : MemoryObject) (address : BitVec 64) : Expr := .constant ⟨64, address - mo.address⟩

/-- `getWriteable` asserts that the object is not read-only, and is called on reads too. -/
def read (address : BitVec 64) (width : ℕ) (objects : MemoryMap BoundState) :
    Option (Expr × MemoryMap BoundState) := do
  let op ← access address (numBytes width) objects
  match op.2.read arrays hasTaint (offset op.1 address) width with
  | .ok r =>
    if op.2.readOnly then none
    else match r.2.applyPsnOnRead arrays (offset op.1 address) with
      | .ok os => some (r.1, bindObject objects op.1 { op.2 with toObjectState := os })
      | .error _ => none
  | .error _ => none

def write (address : BitVec 64) (value : Expr) (objects : MemoryMap BoundState) :
    Option (MemoryMap BoundState) := do
  let op ← access address (numBytes value.getWidth) objects
  if op.2.readOnly then none
  else match op.2.write (offset op.1 address) value >>=
      applyPsnOnWrite arrays (offset op.1 address) value with
    | .ok os => some (bindObject objects op.1 { op.2 with toObjectState := os })
    | .error _ => none

end Model

/-- The object at an address, with its bytes. -/
abbrev Bytes := BitVec 64 → Option (MemoryObject × (ℕ → BitVec 8))

instance (mo : MemoryObject) (x : BitVec 64) : Decidable (mo.Contains x) :=
  inferInstanceAs (Decidable (_ ∨ _))

namespace Bytes

variable (bytes : Bytes)

def access (address : BitVec 64) (n : ℕ) : Option (MemoryObject × (ℕ → BitVec 8)) := do
  let o ← bytes address
  if (address + BitVec.ofNat 64 n).toNat ≤ o.1.address.toNat + o.1.size.toNat then some o else none

def load (address : BitVec 64) (width : ℕ) : Option APInt := do
  let o ← bytes.access address (numBytes width)
  return flatRead o.2 (address - o.1.address).toNat width

def store (address : BitVec 64) (value : APInt) : Option Bytes := do
  let o ← bytes.access address (numBytes value.width)
  return fun x => if o.1.Contains x
    then some (o.1, flatWrite o.2 (address - o.1.address).toNat value) else bytes x

end Bytes

/-- The bytes that an object has; behind its end there is nothing. -/
def visible (σ : Assignment) (os : ObjectState) (i : ℕ) : BitVec 8 :=
  if i < os.size then os.contents σ i else 0#8

def value (σ : Assignment) (objects : MemoryMap BoundState) : Bytes := fun x =>
  (resolveOne objects x).map fun op => (op.1, visible σ op.2.toObjectState)

/-- A valid state of the size of its object, which consists of whole words and does not reach
the last bytes of the address space. -/
structure Placed (op : ObjectPair BoundState) : Prop where
  valid : op.2.Valid
  size : op.2.size = op.1.size.toNat
  address_even : op.2.address % 2 = 0
  size_even : op.2.size % 2 = 0
  bound : op.1.address.toNat + op.1.size.toNat + 8 < 2 ^ 64

/-- Objects in their order that do not overlap. -/
structure Valid (objects : MemoryMap BoundState) : Prop where
  ordered : objects.Ordered address
  layout : Layout objects.toList
  states : ∀ op ∈ objects.toList, Placed op

/-! ### Objects that are bound again -/

section Bind

variable {S : Type} {objects : MemoryMap S} {op : ObjectPair S}

/-- A bound object keeps its place. -/
theorem toList_bindObject (ho : objects.Ordered address) (hop : op ∈ objects.toList) (os : S) :
    ∃ l r, objects.toList = l ++ op :: r ∧
      (bindObject objects op.1 os).toList = l ++ (op.1, os) :: r := by
  obtain ⟨l, r, hlist⟩ := List.append_of_mem hop
  refine ⟨l, r, hlist, ?_⟩
  have hs := ho
  rw [Node.Ordered, hlist] at hs
  have hkey : address (op.1, os) = address op := rfl
  rw [bindObject, Node.toList_replace _ ho, hlist, hkey, SortedKeys.below_node_eq hs,
    SortedKeys.above_node_eq hs]

variable (ho : objects.Ordered address) (hop : op ∈ objects.toList) (os : S)
include ho hop

theorem ordered_bindObject : (bindObject objects op.1 os).Ordered address := by
  obtain ⟨l, r, hlist, hlist'⟩ := toList_bindObject ho hop os
  rw [Node.Ordered, SortedKeys.Sorted, hlist', ← List.pairwise_map (f := address)]
  rw [Node.Ordered, SortedKeys.Sorted, hlist, ← List.pairwise_map (f := address)] at ho
  simpa [address] using ho

variable (hl : Layout objects.toList)
include hl

theorem layout_bindObject : Layout (bindObject objects op.1 os).toList := by
  obtain ⟨l, r, hlist, hlist'⟩ := toList_bindObject ho hop os
  obtain ⟨hd, hlen⟩ := hl
  rw [hlist] at hd hlen
  refine ⟨?_, by rw [hlist']; simpa using hlen⟩
  rw [hlist', ← List.pairwise_map (f := Prod.fst) (R := fun a b : MemoryObject => ∀ x,
    ¬(a.Contains x ∧ b.Contains x))]
  rw [← List.pairwise_map (f := Prod.fst) (R := fun a b : MemoryObject => ∀ x,
    ¬(a.Contains x ∧ b.Contains x))] at hd
  simpa using hd

/-- The addresses of the object lead to its new state, and all others to where they led. -/
theorem resolveOne_bindObject (x : BitVec 64) : resolveOne (bindObject objects op.1 os) x =
    if op.1.Contains x then some (op.1, os) else resolveOne objects x := by
  obtain ⟨l, r, hlist, hlist'⟩ := toList_bindObject ho hop os
  have hord := ordered_bindObject ho hop os
  have hlay := layout_bindObject ho hop os hl
  split_ifs with hx
  · rw [resolveOne_eq_some hord hlay, hlist']
    exact ⟨by simp, hx⟩
  · refine Option.ext fun o => ?_
    rw [resolveOne_eq_some hord hlay, resolveOne_eq_some ho hl,
      hlist, hlist']
    refine and_congr_left fun hox => ?_
    have hne : o ≠ op := fun h => hx (h ▸ hox)
    have hne' : o ≠ (op.1, os) := fun h => hx (by rw [h] at hox; exact hox)
    simp [hne, hne']

end Bind

/-! ### Bytes under an assignment -/

section Access

variable {σ : Assignment} {os os' : ObjectState} {objects : MemoryMap BoundState}
  {x : BitVec 64} {op : ObjectPair BoundState}

theorem represents_visible (hv : os.Valid) : Represents σ os (visible σ os) := fun i hi => by
  rw [visible, if_pos hi]
  exact represents_contents hv i hi

/-- The visible bytes are those of any array that the object has the bytes of. -/
theorem visible_eq {m : ℕ → BitVec 8} (hv : os.Valid) (h : Represents σ os m)
    (hout : ∀ i, os.size ≤ i → m i = 0#8) : visible σ os = m := by
  funext i
  by_cases hi : i < os.size
  · have hval := (represents_visible hv i hi).symm.trans (h i hi)
    simpa using hval
  · rw [visible, if_neg hi, hout i (not_lt.mp hi)]

theorem visible_same (hv' : os'.Valid) (h : SameValues os os') (hv : os.Valid) :
    visible σ os' = visible σ os :=
  visible_eq hv' ((represents_visible hv).same h) fun i hi => by
    rw [visible, if_neg (by rw [← h.size]; exact not_lt.mpr hi)]

theorem flatWrite_of_le {m : ℕ → BitVec 8} {o i : ℕ} {v : APInt} (h : o + numBytes v.width ≤ i) :
    flatWrite m o v i = m i := by
  suffices hn : ∀ n, o + n ≤ i →
      (List.range n).foldl (fun m k => Function.update m (o + k) (flatByte v k)) m i = m i from hn _ h
  intro n
  induction n with
  | zero => exact fun _ => rfl
  | succ n ih =>
    intro hle
    rw [List.range_succ, List.foldl_append, List.foldl_cons, List.foldl_nil,
      Function.update_of_ne (by omega), ih (by omega)]

/-- An access stays inside of its object. -/
theorem access_spec (h : Valid objects) {n : ℕ} (hn : 0 < n) (hn8 : n ≤ 8)
    (ha : access x n objects = some op) :
    resolveOne objects x = some op ∧ op ∈ objects.toList ∧ op.1.Contains x ∧
      (x - op.1.address).toNat + n ≤ op.2.size := by
  obtain ⟨op', hres, ha⟩ := Option.bind_eq_some_iff.mp ha
  split_ifs at ha with hle
  cases ha
  obtain ⟨hmem, hx⟩ := (resolveOne_eq_some h.ordered h.layout x op).mp hres
  have hsize := (h.states op hmem).size
  have hend := (h.states op hmem).bound
  have hxlt : x.toNat ≤ op.1.address.toNat + op.1.size.toNat := by
    rcases hx with ⟨-, rfl⟩ | ⟨-, hlt⟩
    · exact Nat.le_add_right ..
    · exact hlt.le
  rw [BitVec.toNat_add, BitVec.toNat_ofNat, Nat.mod_eq_of_lt (by omega : n < 2 ^ 64),
    Nat.mod_eq_of_lt (by omega)] at hle
  have hge := hx.address_le
  refine ⟨hres, hmem, hx, ?_⟩
  rw [BitVec.toNat_sub_of_le hge, hsize]
  omega

theorem isAccessWidth_of_mem {w : ℕ} (h : w ∈ accessWidths) : IsAccessWidth w := by
  simp only [accessWidths, List.mem_cons, List.not_mem_nil, or_false] at h
  exact h

theorem numBytes_le {w : ℕ} (h : w ∈ accessWidths) : numBytes w ≤ 8 := by
  simp only [accessWidths, List.mem_cons, List.not_mem_nil, or_false] at h
  rcases h with rfl | rfl | rfl | rfl | rfl <;> decide

theorem mem_accessWidths_of_storeWidths {w : ℕ} (h : w ∈ storeWidths) : w ∈ accessWidths := by
  simp only [storeWidths, List.mem_cons, List.not_mem_nil, or_false] at h
  rcases h with rfl | rfl | rfl | rfl <;> decide

theorem ne_int16_of_storeWidths {w : ℕ} (h : w ∈ storeWidths) : w ≠ Width.Int16 := by
  rintro rfl
  revert h
  decide

/-- A write at a constant offset leaves the object where it is. -/
theorem address_write {offset value : Expr} {c : APInt} (hw : IsAccessWidth value.getWidth)
    (hc : ZExtExpr.create offset Width.Int32 = .constant c) (h : os.write offset value = .ok os') :
    os'.address = os.address := by
  rw [ObjectState.write, hc] at h
  simp only [writeConstant_eq hw] at h
  cases h
  exact (frame_writeBytes _ _).address

/-- The constant offset is what is left of it in 32 bits. -/
theorem offset_bounds {w : ℕ} (hv : os.Valid) (hw : IsAccessWidth w) {mo : MemoryObject}
    (hin : (x - mo.address).toNat + numBytes w ≤ os.size) (c : APInt)
    (hc : ZExtExpr.create (offset mo x) Width.Int32 = .constant c) :
    c.toNat + numBytes w ≤ os.size := by
  have hcut := @cut_of_inBounds (offset mo x) rfl _ w hv.size_lt hw (fun _ _ => 0#8) hin
  rw [hc] at hcut
  have hval : c.toNat = (x - mo.address).toNat := hcut
  rwa [hval]

/-- An access width in bytes ends inside of the object. -/
theorem cut_bounds {w : ℕ} (hv : os.Valid) (hw : IsAccessWidth w) {mo : MemoryObject}
    (hin : (x - mo.address).toNat + numBytes w ≤ os.size) :
    ∃ c, ZExtExpr.create (offset mo x) Width.Int32 = .constant c ∧
      c.toNat + numBytes w ≤ os.size := by
  obtain ⟨c, hc⟩ := zext_constant ⟨64, x - mo.address⟩ Width.Int32
  exact ⟨c, hc, offset_bounds hv hw hin c hc⟩

/-- Binding the object again with a state of its place. -/
theorem Valid.bindObject (h : Valid objects) (hop : op ∈ objects.toList)
    (hs : SameObject os os') (hsize : os.size = op.2.size) (haddr : os.address = op.2.address) :
    Valid (bindObject objects op.1 { op.2 with toObjectState := os' }) := by
  obtain ⟨l, r, hlist, hlist'⟩ := toList_bindObject h.ordered hop { op.2 with toObjectState := os' }
  refine ⟨ordered_bindObject h.ordered hop _, layout_bindObject h.ordered hop _ h.layout,
    fun o ho => ?_⟩
  have hstates := h.states
  rw [hlist] at hstates
  rw [hlist'] at ho
  rcases List.mem_append.mp ho with ho | ho
  · exact hstates o (List.mem_append_left _ ho)
  · rcases List.mem_cons.mp ho with rfl | ho
    · have hp := hstates op (by simp)
      have hsame := hs.same.size.trans hsize
      have hplace := hs.address.trans haddr
      exact ⟨hs.valid, hsame.trans hp.size, by rw [hplace]; exact hp.address_even,
        by rw [hsame]; exact hp.size_even, hp.bound⟩
    · exact hstates o (List.mem_append_right _ (List.mem_cons_of_mem _ ho))

theorem value_bindObject (h : Valid objects) (hop : op ∈ objects.toList) (b : BoundState) :
    value σ (AddressSpace.bindObject objects op.1 b) = fun y =>
      if op.1.Contains y then some (op.1, visible σ b.toObjectState) else value σ objects y := by
  funext y
  rw [value, resolveOne_bindObject h.ordered hop b h.layout]
  split_ifs <;> rfl

theorem access_value {n : ℕ} (ha : access x n objects = some op) :
    (value σ objects).access x n = some (op.1, visible σ op.2.toObjectState) := by
  obtain ⟨op', hres, ha⟩ := Option.bind_eq_some_iff.mp ha
  split_ifs at ha with hle
  cases ha
  rw [Bytes.access, value, hres]
  exact if_pos hle

variable {arrays : ConstArrays} {hasTaint : ObjectState → ℕ → ℕ → Bool}

theorem read_spec (ht : TaintSound hasTaint) (h : Valid objects) {w : ℕ} (hw : w ∈ accessWidths)
    {e : Expr} {objects' : MemoryMap BoundState}
    (hr : read arrays hasTaint x w objects = some (e, objects')) :
    Valid objects' ∧ Operand w e ∧ ∀ σ, value σ objects' = value σ objects ∧
      (value σ objects).load x w = some (e.eval σ) := by
  obtain ⟨op, ha, hr⟩ := Option.bind_eq_some_iff.mp hr
  have haw := isAccessWidth_of_mem hw
  obtain ⟨hres, hmem, hx, hin⟩ := access_spec h (numBytes_pos haw) (numBytes_le hw) ha
  have hv := (h.states op hmem).valid
  obtain ⟨e', os', hread, hreads⟩ := @read_reads arrays hasTaint op.2.toObjectState (offset op.1 x) w
    ht hv rfl rfl haw (offset_bounds hv haw hin)
  rw [hread] at hr
  simp only at hr
  split_ifs at hr
  cases hr
  have hsame : SameObject op.2.toObjectState os' :=
    ⟨hreads.valid, hreads.same, (sameStore_read hread).address⟩
  refine ⟨h.bindObject hmem hsame rfl rfl, ⟨hreads.wellTyped, hreads.getWidth⟩,
    fun σ => ⟨?_, ?_⟩⟩
  · rw [value_bindObject h hmem, visible_same hreads.valid hreads.same hv]
    funext y
    split_ifs with hy
    · rw [value, (resolveOne_eq_some h.ordered h.layout y op).mpr ⟨hmem, hy⟩]
      rfl
    · rfl
  · have heval : e.eval σ = flatRead (visible σ op.2.toObjectState) (x - op.1.address).toNat w :=
      (hreads.eval σ hin).trans (valueAt_eq (represents_visible hv) haw hin)
    rw [Bytes.load, access_value ha, heval]
    rfl

theorem write_spec (h : Valid objects) {e : Expr} (he : e.wellTyped = true)
    (hw : e.getWidth ∈ storeWidths) {objects' : MemoryMap BoundState}
    (hr : write arrays x e objects = some objects') :
    Valid objects' ∧ ∀ σ, (value σ objects).store x (e.eval σ) = some (value σ objects') := by
  obtain ⟨op, ha, hr⟩ := Option.bind_eq_some_iff.mp hr
  have hw' := mem_accessWidths_of_storeWidths hw
  have haw := isAccessWidth_of_mem hw'
  obtain ⟨hres, hmem, hx, hin⟩ := access_spec h (numBytes_pos haw) (numBytes_le hw') ha
  have hp := h.states op hmem
  obtain ⟨c, hc, hcin⟩ := cut_bounds hp.valid haw hin
  obtain ⟨os₁, hwrite, hwrites⟩ := @write_writes op.2.toObjectState (offset op.1 x) e hp.valid rfl
    rfl he haw (offset_bounds hp.valid haw hin)
  have haddr : os₁.address = op.2.address := address_write haw hc hwrite
  obtain ⟨os₂, hpsn, hs⟩ := @sameObject_applyPsnOnWrite arrays os₁ e (offset op.1 x) c hwrites.valid
    (haddr ▸ hp.address_even) (by rw [hwrites.size]; exact hp.size_even) hc haw
    (ne_int16_of_storeWidths hw) (by rwa [hwrites.size])
  split_ifs at hr
  rw [hwrite] at hr
  simp only [bind, Except.bind, hpsn] at hr
  cases hr
  refine ⟨h.bindObject hmem hs hwrites.size haddr, fun σ => ?_⟩
  have hwidth := e.width_eval σ he
  rw [Bytes.store, hwidth, access_value ha, value_bindObject h hmem]
  have hvis : visible σ os₂ =
      flatWrite (visible σ op.2.toObjectState) (x - op.1.address).toNat (e.eval σ) := by
    rw [visible_same hs.valid hs.same hwrites.valid]
    refine visible_eq hwrites.valid (hwrites.represents σ hin _ (represents_visible hp.valid))
      fun i hi => ?_
    rw [hwrites.size] at hi
    rw [flatWrite_of_le (by rw [hwidth]; omega), visible, if_neg (not_lt.mpr hi)]
  rw [hvis]
  rfl

end Access

/-- The objects of an address space as a memory. -/
def model (arrays : ConstArrays) (hasTaint : ObjectState → ℕ → ℕ → Bool)
    (ht : TaintSound hasTaint) : MemoryModel (MemoryMap BoundState) Bytes where
  read := read arrays hasTaint
  write := write arrays
  concrete := ⟨fun x w b => b.load x w, fun x v b => b.store x v⟩
  value := value
  Valid := Valid
  read_spec h hw hr := read_spec ht h hw hr
  write_spec h he hw hr := write_spec h he hw hr

end ObjectMemory

end TaseVerifier
