import Mathlib.Algebra.Group.Nat.Defs
import Mathlib.Data.List.MinMax
import Mathlib.Data.List.Pairwise

/-! Mapping buffers into the address space. `tase_map_buf` rounds a size up to eight bytes
and binds a new object unless the first address already lies in one. -/

namespace TaseVerifier

namespace MapBuf

structure MemoryObject where
  address : ℕ
  size : ℕ
  deriving DecidableEq

def MemoryObject.Covers (mo : MemoryObject) (x : ℕ) : Prop :=
  mo.address ≤ x ∧ x < mo.address + mo.size

instance (mo : MemoryObject) (x : ℕ) : Decidable (mo.Covers x) :=
  inferInstanceAs (Decidable (_ ∧ _))

/-- The bound objects, keyed by address. -/
abbrev MemoryMap := List MemoryObject

/-- The object with the last address that is not above the given one. -/
def lookup_previous (objects : MemoryMap) (address : ℕ) : Option MemoryObject :=
  (objects.filter fun mo => mo.address ≤ address).argmax MemoryObject.address

def resolveOne (objects : MemoryMap) (address : ℕ) : Option MemoryObject :=
  match lookup_previous objects address with
  | none => none
  | some mo =>
    if (mo.size = 0 ∧ address = mo.address) ∨ address - mo.address < mo.size then some mo
    else none

/-- An object at the same address is replaced. -/
def bindObject (objects : MemoryMap) (mo : MemoryObject) : MemoryMap :=
  objects.filter (fun o => o.address ≠ mo.address) ++ [mo]

/-- The parameter for the size is an `unsigned`. -/
def addExternalObjectCheck (objects : MemoryMap) (addr size : ℕ) : MemoryMap × Bool :=
  if (resolveOne objects addr).isSome then (objects, false)
  else (bindObject objects ⟨addr, size % 2 ^ 32⟩, true)

def roundedSize (size : ℕ) : ℕ :=
  if size % 8 ≠ 0 then
    let nsize := 8 * (size / 8)
    if nsize < size then (nsize + 8) % 2 ^ 64 else nsize
  else size

def tase_map_buf (objects : MemoryMap) (addr size : ℕ) : MemoryMap × Bool :=
  addExternalObjectCheck objects addr (roundedSize size)

/-! ### What mapping is for -/

/-- A number of bytes rounded up to a multiple of eight. -/
def roundUp (size : ℕ) : ℕ := (size + 7) / 8 * 8

/-- A call whose rounded range does not wrap around the address space. -/
structure MapCall where
  addr : ℕ
  size : ℕ
  addr_lt : addr < 2 ^ 64
  fits : addr + roundUp size ≤ 2 ^ 64

namespace MapCall

/-- An address of the call's rounded range. -/
def InRange (c : MapCall) (x : ℕ) : Prop := c.addr ≤ x ∧ x < c.addr + roundUp c.size

instance (c : MapCall) (x : ℕ) : Decidable (c.InRange x) :=
  inferInstanceAs (Decidable (_ ∧ _))

def apply (c : MapCall) (objects : MemoryMap) : MemoryMap × Bool :=
  tase_map_buf objects c.addr c.size

/-- The range shares an address with a bound object. -/
def Overlaps (c : MapCall) (objects : MemoryMap) : Prop :=
  ∃ mo ∈ objects, ∃ x, mo.Covers x ∧ c.InRange x

/-- The first address lies in a bound object, or no bound object starts behind it inside
the range. -/
def Safe (c : MapCall) (objects : MemoryMap) : Prop :=
  (∃ mo ∈ objects, mo.Covers c.addr) ∨
    ∀ mo ∈ objects, ¬(c.addr < mo.address ∧ mo.address < c.addr + roundUp c.size)

end MapCall

def NoOverlap (objects : MemoryMap) : Prop :=
  objects.Pairwise fun a b => ∀ x, ¬(a.Covers x ∧ b.Covers x)

/-- Along the calls the objects stay disjoint, and each call returns false exactly when
its range overlaps a bound object. -/
def RunCorrect (objects : MemoryMap) : List MapCall → Prop
  | [] => NoOverlap objects
  | c :: calls => NoOverlap objects ∧ ((c.apply objects).2 = false ↔ c.Overlaps objects) ∧
      RunCorrect (c.apply objects).1 calls

/-- Each call is safe in the address space that it meets. -/
def AllSafe (objects : MemoryMap) : List MapCall → Prop
  | [] => True
  | c :: calls => c.Safe objects ∧ AllSafe (c.apply objects).1 calls

/-! ### Resolving an address -/

theorem roundedSize_eq (size : ℕ) (h : roundUp size < 2 ^ 64) : roundedSize size = roundUp size := by
  unfold roundedSize roundUp at *
  dsimp only
  split_ifs
  · omega
  · omega
  · omega

variable {objects : MemoryMap}

/-- NoOverlap objects, none of which is empty. -/
structure Good (objects : MemoryMap) : Prop where
  disjoint : NoOverlap objects
  nonempty : ∀ mo ∈ objects, 0 < mo.size

theorem NoOverlap.eq_of_covers (h : NoOverlap objects) {a b : MemoryObject} (ha : a ∈ objects)
    (hb : b ∈ objects) {x : ℕ} (hax : a.Covers x) (hbx : b.Covers x) : a = b := by
  by_contra hne
  have hsymm : Std.Symm fun a b : MemoryObject => ∀ x, ¬(a.Covers x ∧ b.Covers x) :=
    ⟨fun _ _ h x hx => h x hx.symm⟩
  exact List.Pairwise.forall h ha hb hne x ⟨hax, hbx⟩

theorem lookup_previous_spec {address : ℕ} {mo : MemoryObject}
    (h : lookup_previous objects address = some mo) :
    mo ∈ objects ∧ mo.address ≤ address ∧
      ∀ o ∈ objects, o.address ≤ address → o.address ≤ mo.address := by
  have hmem : mo ∈ objects.filter fun mo => mo.address ≤ address := List.argmax_mem h
  rw [List.mem_filter, decide_eq_true_eq] at hmem
  refine ⟨hmem.1, hmem.2, fun o ho hle => ?_⟩
  refine List.le_of_mem_argmax (List.mem_filter.mpr ⟨ho, ?_⟩) h
  rwa [decide_eq_true_eq]

theorem exists_lookup_previous {address : ℕ} {mo : MemoryObject} (h : mo ∈ objects)
    (hle : mo.address ≤ address) : ∃ o, lookup_previous objects address = some o := by
  have hmem : mo ∈ objects.filter fun mo => mo.address ≤ address :=
    List.mem_filter.mpr ⟨h, by rwa [decide_eq_true_eq]⟩
  rw [← Option.ne_none_iff_exists']
  intro hnone
  rw [lookup_previous, List.argmax_eq_none] at hnone
  rw [hnone] at hmem
  cases hmem

/-- Among nonempty disjoint objects the last one below an address is the only one that can
cover it. -/
theorem Good.resolveOne_isSome (h : Good objects) (address : ℕ) :
    (resolveOne objects address).isSome ↔ ∃ mo ∈ objects, mo.Covers address := by
  unfold resolveOne
  constructor
  · intro hr
    split at hr
    · cases hr
    next mo hp =>
      obtain ⟨hmem, hle, -⟩ := lookup_previous_spec hp
      have := h.nonempty mo hmem
      split at hr
      next hc => exact ⟨mo, hmem, hle, by omega⟩
      · cases hr
  · rintro ⟨mo, hmem, hcov⟩
    obtain ⟨p, hp⟩ := exists_lookup_previous hmem hcov.1
    obtain ⟨hpm, hple, hlast⟩ := lookup_previous_spec hp
    have hpos := h.nonempty p hpm
    have hstart := hlast mo hmem hcov.1
    obtain rfl : p = mo := by
      refine h.disjoint.eq_of_covers hpm hmem (x := p.address) ⟨le_refl _, by omega⟩ ⟨hstart, ?_⟩
      exact lt_of_le_of_lt hple hcov.2
    have := hcov.2
    rw [hp]
    dsimp only
    rw [if_pos (.inr (by omega))]
    rfl

/-! ### One call -/

theorem Good.apply_false (h : Good objects) (c : MapCall) :
    (c.apply objects).2 = false ↔ ∃ mo ∈ objects, mo.Covers c.addr := by
  rw [← h.resolveOne_isSome, MapCall.apply, tase_map_buf, addExternalObjectCheck]
  split <;> simp_all

/-- The rounded size, cut to an `unsigned`, is not zero. -/
def MapCall.Sized (c : MapCall) : Prop := roundUp c.size % 2 ^ 32 ≠ 0

theorem MapCall.Sized.roundUp_pos {c : MapCall} (hc : c.Sized) : 0 < roundUp c.size := by
  unfold MapCall.Sized at hc
  omega

/-- A call returns what it should exactly when it is safe. -/
theorem Good.apply_correct_iff (h : Good objects) {c : MapCall} (hc : c.Sized) :
    ((c.apply objects).2 = false ↔ c.Overlaps objects) ↔ c.Safe objects := by
  rw [h.apply_false]
  have hpos := hc.roundUp_pos
  constructor
  · intro hiff
    by_cases hcov : ∃ mo ∈ objects, mo.Covers c.addr
    · exact .inl hcov
    · refine .inr fun mo hmem hin => hcov (hiff.mpr ⟨mo, hmem, mo.address, ⟨le_refl _, ?_⟩, ?_⟩)
      · have := h.nonempty mo hmem
        omega
      · exact ⟨hin.1.le, hin.2⟩
  · intro hsafe
    constructor
    · rintro ⟨mo, hmem, hcov⟩
      exact ⟨mo, hmem, c.addr, hcov, le_refl _, by omega⟩
    · rintro ⟨mo, hmem, x, hx, hin⟩
      obtain hcov | hnone := hsafe
      · exact hcov
      · have hno := hnone mo hmem
        have := hx.1
        have := hx.2
        have := hin.1
        have := hin.2
        exact ⟨mo, hmem, by omega, by omega⟩

theorem Good.apply (h : Good objects) {c : MapCall} (hc : c.Sized) (hsafe : c.Safe objects) :
    Good (c.apply objects).1 := by
  have hret := (h.apply_correct_iff hc).mpr hsafe
  have hlt : roundUp c.size < 2 ^ 64 := by
    have := c.fits
    unfold MapCall.Sized at hc
    omega
  have hres : ((c.apply objects).2 = false ∧ (c.apply objects).1 = objects) ∨
      ((c.apply objects).2 = true ∧
        (c.apply objects).1 = bindObject objects ⟨c.addr, roundUp c.size % 2 ^ 32⟩) := by
    rw [MapCall.apply, tase_map_buf, addExternalObjectCheck, roundedSize_eq _ hlt]
    split
    · exact .inl ⟨rfl, rfl⟩
    · exact .inr ⟨rfl, rfl⟩
  obtain ⟨-, hsame⟩ | ⟨htrue, hbind⟩ := hres
  · rwa [hsame]
  · rw [hbind]
    have hno : ¬c.Overlaps objects := fun ho => by
      rw [hret.mpr ho] at htrue
      cases htrue
    have hmod := Nat.mod_le (roundUp c.size) (2 ^ 32)
    constructor
    · refine List.pairwise_append.mpr ⟨h.disjoint.filter _, List.pairwise_singleton _ _, ?_⟩
      intro a ha b hb x hx
      rw [List.mem_singleton] at hb
      subst hb
      have hlt : x < c.addr + roundUp c.size % 2 ^ 32 := hx.2.2
      exact hno ⟨a, List.mem_of_mem_filter ha, x, hx.1, hx.2.1, by omega⟩
    · intro mo hmo
      rw [bindObject, List.mem_append, List.mem_singleton] at hmo
      obtain hmo | rfl := hmo
      · exact h.nonempty mo (List.mem_of_mem_filter hmo)
      · exact Nat.pos_of_ne_zero hc

/-! ### Whole runs -/

theorem Good.runCorrect_iff (h : Good objects) {calls : List MapCall}
    (hs : ∀ c ∈ calls, c.Sized) : RunCorrect objects calls ↔ AllSafe objects calls := by
  induction calls generalizing objects with
  | nil => exact ⟨fun _ => trivial, fun _ => h.disjoint⟩
  | cons c calls ih =>
    have hc := hs c List.mem_cons_self
    have htail : ∀ c' ∈ calls, c'.Sized := fun c' hc' => hs c' (List.mem_cons_of_mem c hc')
    rw [RunCorrect, AllSafe, h.apply_correct_iff hc]
    constructor
    · rintro ⟨-, hsafe, hrun⟩
      exact ⟨hsafe, (ih (h.apply hc hsafe) htail).mp hrun⟩
    · rintro ⟨hsafe, hrest⟩
      exact ⟨h.disjoint, hsafe, (ih (h.apply hc hsafe) htail).mpr hrest⟩

/-- From an empty address space, a run of calls with usable sizes is correct exactly when
no call's range runs from a free address into an object that starts behind it. -/
theorem map_runCorrect_iff {calls : List MapCall}
    (hs : ∀ c ∈ calls, roundUp c.size % 2 ^ 32 ≠ 0) :
    RunCorrect [] calls ↔ AllSafe [] calls :=
  Good.runCorrect_iff ⟨List.Pairwise.nil, by simp⟩ hs

/-- Two buffers next to each other, the second of eleven bytes. -/
def twoBuffers : List MapCall := [⟨16, 8, by decide, by decide⟩, ⟨24, 11, by decide, by decide⟩]

theorem twoBuffers_correct : RunCorrect [] twoBuffers := by
  refine (map_runCorrect_iff (by decide)).mpr ⟨.inr (by simp), .inr ?_, trivial⟩
  decide

/-- A buffer that starts below another one and runs into it. -/
def runInto : List MapCall := [⟨16, 8, by decide, by decide⟩, ⟨8, 16, by decide, by decide⟩]

theorem runInto_not_correct : ¬RunCorrect [] runInto := by
  rintro ⟨-, -, -, hret, -⟩
  have htrue : (MapCall.apply ⟨8, 16, by decide, by decide⟩
      (MapCall.apply ⟨16, 8, by decide, by decide⟩ []).1).2 = true := by decide
  have hfalse := hret.mpr ⟨⟨16, 8⟩, by decide, 16, by decide, by decide⟩
  rw [htrue] at hfalse
  cases hfalse

end MapBuf

end TaseVerifier
