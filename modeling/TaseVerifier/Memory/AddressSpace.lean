import TaseVerifier.ADT.ImmutableTreeMap
import TaseVerifier.Expr.Create

/-! The bound objects of an address space stand in a search tree in the order of their
addresses. The last object that does not start behind a constant address is the only one
that the address can belong to. -/

namespace TaseVerifier

namespace AddressSpace

open ImmutableTree Library

/-- `Context::get().getPointerWidth()`. -/
def pointerWidth : ℕ := 64

/-- The fields that resolution reads. An object ends within the address space. -/
structure MemoryObject where
  address : BitVec 64
  size : BitVec 32
  fits : address.toNat + size.toNat ≤ 2 ^ 64

namespace MemoryObject

variable (mo : MemoryObject)

def getBaseExpr : Expr := .alloc mo.address.toNat pointerWidth

def getSizeExpr : Expr := .alloc mo.size.toNat pointerWidth

def getOffsetExpr (pointer : Expr) : Expr := SubExpr.create pointer mo.getBaseExpr

def getBoundsCheckOffset (offset : Expr) : Expr :=
  if mo.size = 0 then EqExpr.create offset (.alloc 0 pointerWidth)
  else UltExpr.create offset mo.getSizeExpr

def getBoundsCheckPointer (pointer : Expr) : Expr :=
  mo.getBoundsCheckOffset (mo.getOffsetExpr pointer)

end MemoryObject

section Model

variable {S : Type*}

/-- An object and its state, of which resolution reads nothing. -/
abbrev ObjectPair (S : Type*) := MemoryObject × S

abbrev ResolutionList (S : Type*) := List (ObjectPair S)

/-- Objects in the order of `MemoryObjectLT`. -/
abbrev MemoryMap (S : Type*) := Node (ObjectPair S)

/-- What `MemoryObjectLT` compares. -/
def address (o : ObjectPair S) : ℕ := o.1.address.toNat

def bindObject (objects : MemoryMap S) (mo : MemoryObject) (os : S) : MemoryMap S :=
  objects.replace address (mo, os)

def unbindObject (objects : MemoryMap S) (mo : MemoryObject) : MemoryMap S :=
  objects.remove address mo.address.toNat

/-- How an address space comes about. -/
inductive Op (S : Type*) where
  | bindObject (mo : MemoryObject) (os : S)
  | unbindObject (mo : MemoryObject)

def Op.apply (objects : MemoryMap S) : Op S → MemoryMap S
  | bindObject mo os => AddressSpace.bindObject objects mo os
  | unbindObject mo => AddressSpace.unbindObject objects mo

def run (ops : List (Op S)) : MemoryMap S := ops.foldl Op.apply .terminator

/-- The first `resolveOne`, of a constant address. -/
def resolveOne (objects : MemoryMap S) (address : BitVec 64) : Option (ObjectPair S) :=
  match objects.lookup_previous AddressSpace.address address.toNat with
  | some res =>
    if (res.1.size = 0 ∧ address = res.1.address) ∨
        address - res.1.address < res.1.size.setWidth 64 then some res
    else none
  | none => none

end Model

/-! ### What resolution is for -/

namespace MemoryObject

/-- The addresses that belong to an object. An empty object has its own. -/
def Contains (mo : MemoryObject) (x : BitVec 64) : Prop :=
  (mo.size = 0 ∧ x = mo.address) ∨
    (mo.address.toNat ≤ x.toNat ∧ x.toNat < mo.address.toNat + mo.size.toNat)

variable {mo : MemoryObject} {x : BitVec 64}

theorem contains_address (mo : MemoryObject) : mo.Contains mo.address := by
  by_cases h : mo.size = 0
  · exact .inl ⟨h, rfl⟩
  · have hpos : mo.size.toNat ≠ 0 := fun h' => h (BitVec.eq_of_toNat_eq h')
    exact .inr ⟨le_rfl, by omega⟩

theorem Contains.address_le (h : mo.Contains x) : mo.address.toNat ≤ x.toNat := by
  rcases h with ⟨-, rfl⟩ | h
  · exact le_rfl
  · exact h.1

/-- An object that starts lower and does not reach the first byte of another has nothing
behind it. -/
theorem Contains.lt_of_disjoint (h : mo.Contains x) (other : MemoryObject)
    (hlt : mo.address.toNat < other.address.toNat)
    (hd : ∀ x, ¬(mo.Contains x ∧ other.Contains x)) : x.toNat < other.address.toNat := by
  by_contra hge
  rcases h with ⟨-, rfl⟩ | ⟨-, hx⟩
  · exact hge hlt
  · exact hd other.address ⟨.inr ⟨hlt.le, by omega⟩, other.contains_address⟩

/-- The test of `resolveOne`, which relies on the wrap-around of addresses below the object. -/
theorem contains_iff : (mo.size = 0 ∧ x = mo.address) ∨ x - mo.address < mo.size.setWidth 64 ↔
    mo.Contains x := by
  have hfits := mo.fits
  have hx := x.isLt
  have ha := mo.address.isLt
  have hz := mo.size.isLt
  refine or_congr_right ?_
  rw [BitVec.lt_def, BitVec.toNat_sub, BitVec.toNat_setWidth,
    Nat.mod_eq_of_lt (hz.trans (by decide))]
  constructor
  · intro h
    by_cases hle : mo.address.toNat ≤ x.toNat
    · exact ⟨hle, by omega⟩
    · omega
  · rintro ⟨hle, hlt⟩
    omega

end MemoryObject

/-- What the allocations promise: no address belongs to two objects, and there are no more
objects than `MemoryObject::counter`, an `int`, can number. -/
structure Layout {S : Type*} (objects : List (ObjectPair S)) : Prop where
  disjoint : objects.Pairwise fun a b => ∀ x, ¬(a.1.Contains x ∧ b.1.Contains x)
  length_lt : objects.length < 2 ^ 31

section Objects

variable {S : Type*} {objects : MemoryMap S}

theorem run_holds (ops : List (Op S)) : ∃ m, (run ops).Holds address m := by
  have hstep {n : MemoryMap S} (op : Op S) (hn : ∃ m, n.Holds address m) :
      ∃ m, (op.apply n).Holds address m := by
    obtain ⟨m, hn⟩ := hn
    cases op with
    | bindObject mo os => exact ⟨_, (ImmutableTree.Op.onTree_holds (.replace (mo, os)) hn).1⟩
    | unbindObject mo =>
      exact ⟨_, (ImmutableTree.Op.onTree_holds (.remove mo.address.toNat) hn).1⟩
  have hrun {n : MemoryMap S} (hn : ∃ m, n.Holds address m) :
      ∃ m, (ops.foldl Op.apply n).Holds address m := by
    induction ops generalizing n with
    | nil => exact hn
    | cons op ops ih => exact ih (hstep op hn)
  exact hrun ⟨_, Node.holds_empty⟩

theorem Layout.eq_of_contains {l : List (ObjectPair S)} (hl : Layout l) {a b : ObjectPair S}
    (ha : a ∈ l) (hb : b ∈ l) {x : BitVec 64} (hax : a.1.Contains x) (hbx : b.1.Contains x) :
    a = b := by
  by_contra hne
  have hsymm : Std.Symm fun a b : ObjectPair S => ∀ x, ¬(a.1.Contains x ∧ b.1.Contains x) :=
    ⟨fun _ _ h x hx => h x hx.symm⟩
  exact List.Pairwise.forall hl.disjoint ha hb hne x ⟨hax, hbx⟩

/-- Of two objects in order, the first has nothing behind the first byte of the second. -/
theorem Layout.not_contains {l : List (ObjectPair S)} (hl : Layout l) {a b : ObjectPair S}
    (ha : a ∈ l) (hb : b ∈ l) (hlt : address a < address b) {x : BitVec 64}
    (hx : address b ≤ x.toNat) : ¬a.1.Contains x := by
  intro hax
  refine (hax.lt_of_disjoint b.1 hlt fun y hy => ?_).not_ge hx
  obtain rfl := hl.eq_of_contains ha hb hy.1 hy.2
  exact hlt.ne rfl

/-- A constant address is found in the object that it belongs to, if there is one. -/
theorem resolveOne_eq_some (hord : objects.Ordered address) (hl : Layout objects.toList)
    (x : BitVec 64) (o : ObjectPair S) :
    resolveOne objects x = some o ↔ o ∈ objects.toList ∧ o.1.Contains x := by
  have hprev {res : ObjectPair S} :
      objects.lookup_previous address x.toNat = some res ↔
        (res ∈ objects.toList ∧ address res ≤ x.toNat) ∧
          ∀ u ∈ objects.toList, address u ≤ x.toNat → address u ≤ address res := by
    rw [Node.lookup_previous_eq _ hord, SortedKeys.atMost,
      SortedKeys.getLast_eq_some (hord.filter _)]
    simp [List.mem_filter]
  unfold resolveOne
  constructor
  · intro h
    split at h
    next res hres =>
      split_ifs at h with htest
      cases h
      exact ⟨(hprev.mp hres).1.1, MemoryObject.contains_iff.mp htest⟩
    next => cases h
  · rintro ⟨ho, hox⟩
    have hle : address o ≤ x.toNat := hox.address_le
    cases hres : objects.lookup_previous address x.toNat with
    | none =>
      rw [Node.lookup_previous_eq _ hord, List.getLast?_eq_none_iff] at hres
      exact absurd (List.mem_filter.mpr ⟨ho, by simpa using hle⟩) (List.eq_nil_iff_forall_not_mem.mp hres o)
    | some res =>
      obtain ⟨⟨hmem, hresx⟩, hmax⟩ := hprev.mp hres
      rcases (hmax o ho hle).eq_or_lt with heq | hlt
      · obtain rfl := hord.eq_of_key_eq ho hmem heq
        exact if_pos (MemoryObject.contains_iff.mpr hox)
      · exact absurd hox (hl.not_contains ho hmem hlt hresx)

end Objects

end AddressSpace

end TaseVerifier
