import Mathlib.Tactic.IntervalCases
import TaseVerifier.Memory.GuardedHeap

/-! What `model_realloc` keeps of a buffer. The bytes of native memory are moved, but a new
object has no expressions: a byte whose value is not in native memory is lost unless the old
object stays. -/

namespace TaseVerifier.HeapModels

namespace Heap

variable (arrays : ObjectState.ConstArrays)

/-- The byte at an address, as the object there reads it. -/
def readByte (h : Heap) (addr : ℕ) : Option Expr :=
  (h.resolveOne addr).bind fun os =>
    if addr - os.address < os.size then
      ((h.view os).read8 arrays (addr - os.address)).toOption.map Prod.fst
    else none

/-- The first `n` bytes of the returned buffer have the values that those of the old one had. -/
def Keeps (h h' : Heap) (ptr n : ℕ) : Prop :=
  ∀ i < n, ∃ e e', h.readByte arrays (ptr + i) = some e ∧
    h'.readByte arrays (h'.rax + i) = some e' ∧ ∀ σ, e'.eval σ = e.eval σ

/-- What the models have read on the way from `h` to `h'` lies in the `n` bytes from `ptr` on. -/
def ReadsWithin (h h' : Heap) (ptr n : ℕ) : Prop :=
  ∃ reads, h'.reads = reads ++ h.reads ∧ ∀ a ∈ reads, ptr ≤ a ∧ a < ptr + n

/-- An object is bound, and no other one has a byte in the first `len` addresses from its
start on. -/
structure Alone (h : Heap) (os : ObjectState) (len : ℕ) : Prop where
  mem : os ∈ h.objects
  others : ∀ o ∈ h.objects, o ≠ os → ∀ x, os.address ≤ x → x < os.address + len →
    o.address ≠ x ∧ ¬(o.address ≤ x ∧ x < o.address + o.size)

variable {arrays} {h h' : Heap} {os : ObjectState} {len i : ℕ}

theorem Alone.resolveOne (ha : h.Alone os len) (hi : i < len) (hs : i < os.size) :
    h.resolveOne (os.address + i) = some os := by
  have hother : ∀ o ∈ h.objects, o ≠ os → o.address ≤ os.address + i →
      o.address < os.address := by
    intro o ho hne hle
    by_contra hge
    exact (ha.others o ho hne o.address (by omega) (by omega)).1 rfl
  refine resolveOne_eq ha.mem (Nat.le_add_right _ _) (by omega) fun o ho hle => ?_
  by_cases hne : o = os
  · exact ⟨hne ▸ le_rfl, fun _ => hne⟩
  · have hlt := hother o ho hne hle
    exact ⟨hlt.le, fun he => absurd he (Nat.ne_of_lt hlt)⟩

variable (arrays) in
theorem Alone.readByte (ha : h.Alone os len) (hi : i < len) (hs : i < os.size) :
    h.readByte arrays (os.address + i) =
      ((h.view os).read8 arrays i).toOption.map Prod.fst := by
  rw [Heap.readByte, ha.resolveOne hi hs, Option.bind_some, Nat.add_sub_cancel_left, if_pos hs]

variable (arrays) in
theorem Alone.readByte_none (ha : h.Alone os len) (hi : i < len) (hs : os.size ≤ i) :
    h.readByte arrays (os.address + i) = none := by
  rw [Heap.readByte]
  cases hr : h.resolveOne (os.address + i) with
  | none => rfl
  | some o =>
    obtain ⟨ho, -, -, p, hp, hpa, hcov⟩ := resolveOne_some hr
    have hin : ∀ q ∈ h.objects, q ≠ os → q.address ≠ os.address + i ∧
        ¬(q.address ≤ os.address + i ∧ os.address + i < q.address + q.size) :=
      fun q hq hne => ha.others q hq hne _ (Nat.le_add_right _ _) (by omega)
    have hpos : p = os := by
      by_contra hne
      have := hin p hp hne
      have := (resolveOne_some hr).2.1
      omega
    have hoo : o = os := by
      by_contra hne
      have := (ha.others o ho hne os.address le_rfl (by omega)).1
      rw [hpos] at hpa
      exact this hpa.symm
    rw [Option.bind_some, hoo, Nat.add_sub_cancel_left, if_neg (not_lt.mpr hs)]

/-! ### The value of a byte -/

/-- The byte of the poison that lies at an offset. -/
def poisonByte (i : ℕ) : BitVec 8 := poisonVal.extractLsb' (8 * (i % 2)) 8

/-- Each of the first `n` bytes is concrete, or has the value of the poison over it. -/
def Stored (h : Heap) (os : ObjectState) (n : ℕ) : Prop :=
  ∀ i < n, os.isByteConcrete i = true ∨ ∀ σ, (h.view os).value σ i = ⟨8, poisonByte i⟩

theorem value_of_concrete (hc : os.isByteConcrete i = true) (σ : Assignment) :
    os.value σ i = ⟨8, os.store i⟩ := by
  rw [ObjectState.value, ObjectState.cacheExpr, if_pos hc]
  rfl

/-- A byte that is not concrete lies under poison. -/
theorem store_of_not_concrete (ht : os.Tase) (hi : i < os.size)
    (hc : os.isByteConcrete i = false) : os.store i = poisonByte i := by
  have hp : os.isBytePoison i = true := by
    by_contra hne
    rw [(ht.of_unpoisoned i hi (Bool.eq_false_iff.mpr hne)).1] at hc
    cases hc
  rw [ObjectState.isBytePoison, beq_iff_eq, ObjectState.word] at hp
  rw [poisonByte, ← hp]
  rcases Nat.mod_two_eq_zero_or_one i with h0 | h1
  · rw [h0, Nat.sub_zero, Nat.mul_zero]
    exact (BitVec.extractLsb'_append_eq_right).symm
  · rw [h1, Nat.mul_one, show i - 1 + 1 = i by omega]
    exact (BitVec.extractLsb'_append_eq_left).symm

theorem view_store (h : Heap) (os : ObjectState) (i : ℕ) :
    (h.view os).store i = h.native.byte (os.address + i) := rfl

/-- The byte of native memory is the value of the byte. -/
theorem stored_iff (ht : (h.view os).Tase) {n : ℕ} (hn : n ≤ os.size) :
    h.Stored os n ↔ ∀ i < n, ∀ σ, (h.view os).value σ i =
      ⟨8, h.native.byte (os.address + i)⟩ := by
  refine forall₂_congr fun i hi => ?_
  by_cases hc : os.isByteConcrete i = true
  · have hv : ∀ σ, (h.view os).value σ i = ⟨8, h.native.byte (os.address + i)⟩ :=
      value_of_concrete hc
    exact ⟨fun _ => hv, fun _ => .inl hc⟩
  · have hs := store_of_not_concrete ht (i := i) (by exact hi.trans_le hn)
      (Bool.eq_false_iff.mpr hc)
    rw [view_store] at hs
    rw [hs]
    exact ⟨fun h => h.resolve_left hc, .inr⟩

/-! ### Old and new objects -/

/-- Reading a byte depends on native memory at that byte alone. -/
theorem read8_view (hb : h'.native.byte (os.address + i) = h.native.byte (os.address + i)) :
    ((h'.view os).read8 arrays i).toOption.map Prod.fst =
      ((h.view os).read8 arrays i).toOption.map Prod.fst := by
  have hc : ∀ h : Heap, (h.view os).isByteConcrete i = os.isByteConcrete i := fun _ => rfl
  have hk : ∀ h : Heap, (h.view os).known i = os.known i := fun _ => rfl
  have hf : ∀ h : Heap, (h.view os).isByteFlushed i = os.isByteFlushed i := fun _ => rfl
  have hu : ((h'.view os).getUpdates arrays).1 = ((h.view os).getUpdates arrays).1 := by
    unfold ObjectState.getUpdates
    simp only [view]
    cases os.root <;> rfl
  unfold ObjectState.read8
  rw [hc, hc, hk, hk, hf, hf, view_store, view_store, hb]
  cases os.isByteConcrete i with
  | true => rfl
  | false =>
    cases os.known i with
    | some value => rfl
    | none =>
      cases os.isByteFlushed i with
      | true => exact congrArg (fun u => some (ReadExpr.create u (.alloc i 32))) hu
      | false => rfl

variable (arrays) in
/-- Before the call each byte reads as its value. -/
theorem Alone.reads (ha : h.Alone os os.size) (hv : (h.view os).Valid) (hi : i < os.size) :
    ∃ e, h.readByte arrays (os.address + i) = some e ∧
      ∀ σ, e.eval σ = (h.view os).value σ i := by
  obtain ⟨e, os', he, hr⟩ := @ObjectState.read8_reads arrays _ _ hv hi
  exact ⟨e, by rw [ha.readByte arrays hi hi, he]; rfl, fun σ => hr.eval σ trivial⟩

/-- An object that stays keeps its bytes. -/
theorem keeps_of_same {n : ℕ} (ha : h.Alone os os.size) (hv : (h.view os).Valid)
    (hn : n ≤ os.size) (ha' : h'.Alone os os.size) (hrax : h'.rax = os.address)
    (hb : ∀ i < n, h'.native.byte (os.address + i) = h.native.byte (os.address + i)) :
    Keeps arrays h h' os.address n := by
  intro i hi
  have his := hi.trans_le hn
  obtain ⟨e, he, -⟩ := ha.reads arrays hv his
  refine ⟨e, e, he, ?_, fun _ => rfl⟩
  rw [hrax, ha'.readByte arrays his his, read8_view (hb i hi), ← ha.readByte arrays his his, he]

variable (arrays) in
/-- A new object keeps the bytes that fit it and are in native memory. -/
theorem keeps_new_iff {n a m : ℕ} {store : ℕ → BitVec 8} (ha : h.Alone os os.size)
    (hv : (h.view os).Valid) (ht : (h.view os).Tase) (hn : n ≤ os.size)
    (ha' : h'.Alone (.ofContents a m store) n) (hrax : h'.rax = a)
    (hb : ∀ i < n, h'.native.byte (a + i) = h.native.byte (os.address + i)) :
    Keeps arrays h h' os.address n ↔ n ≤ m ∧ h.Stored os n := by
  have hnew : ∀ i < n, i < m → h'.readByte arrays (h'.rax + i) =
      some (.constant ⟨8, h.native.byte (os.address + i)⟩) := by
    intro i hi him
    have hread := ha'.readByte arrays hi him
    rw [hrax, ← hb i hi]
    exact hread
  rw [stored_iff ht hn]
  constructor
  · intro hk
    have hm : n ≤ m := by
      by_contra hlt
      obtain ⟨-, e', -, he', -⟩ := hk m (by omega)
      have hnone := ha'.readByte_none arrays (i := m) (by omega) le_rfl
      rw [hrax] at he'
      rw [show a + m = (ObjectState.ofContents a m store).address + m from rfl, hnone] at he'
      cases he'
    refine ⟨hm, fun i hi σ => ?_⟩
    obtain ⟨e, e', he, he', heq⟩ := hk i hi
    obtain ⟨e₀, he₀, hval⟩ := ha.reads arrays hv (hi.trans_le hn)
    obtain rfl : e₀ = e := Option.some.inj (he₀.symm.trans he)
    rw [hnew i hi (hi.trans_le hm)] at he'
    obtain rfl := Option.some.inj he'
    rw [← hval, ← heq]
    rfl
  · rintro ⟨hm, hs⟩ i hi
    obtain ⟨e, he, hval⟩ := ha.reads arrays hv (hi.trans_le hn)
    refine ⟨e, _, he, hnew i hi (hi.trans_le hm), fun σ => ?_⟩
    rw [hval, hs i hi σ]
    rfl

/-- In disjoint objects each has its addresses to itself. -/
theorem alone_of_good (hg : MapBuf.Good h.extents) (hos : os ∈ h.objects) :
    h.Alone os os.size := by
  refine ⟨hos, fun o ho hne x hx hx' => ?_⟩
  have hext : ∀ p ∈ h.objects, (⟨p.address, p.size⟩ : MapBuf.MemoryObject) ∈ h.extents :=
    fun p hp => List.mem_map.mpr ⟨p, hp, rfl⟩
  have hinj : h.objects.Pairwise fun a b => a.address ≠ b.address := by
    refine (List.pairwise_map.mp hg.disjoint).imp_of_mem fun {a b} ha hb hab he => ?_
    have hposa := hg.nonempty _ (hext a ha)
    have hposb := hg.nonempty _ (hext b hb)
    dsimp only at hposa hposb
    exact hab a.address ⟨⟨le_rfl, by dsimp only; omega⟩, he.ge, by dsimp only; omega⟩
  have haddr : o.address ≠ os.address := fun he => hne <| by
    by_contra hne'
    have hsymm : Std.Symm fun a b : ObjectState => a.address ≠ b.address := ⟨fun _ _ h => h.symm⟩
    exact List.Pairwise.forall hinj ho hos hne' he
  have hpos := hg.nonempty _ (hext o ho)
  have hcov : ∀ y, ¬((o.address ≤ y ∧ y < o.address + o.size) ∧
      os.address ≤ y ∧ y < os.address + os.size) := by
    rintro y ⟨hy, hy'⟩
    have he := hg.disjoint.eq_of_covers (hext o ho) (hext os hos) (x := y) hy hy'
    exact haddr (congrArg MapBuf.MemoryObject.address he)
  refine ⟨fun he => hcov x ⟨⟨he.le, ?_⟩, hx, hx'⟩, fun hc => hcov x ⟨hc, hx, hx'⟩⟩
  dsimp only at hpos
  omega

end Heap

/-! ### The call -/

variable {cfg : Config} {host : Host} {h h' : Heap} {os : ObjectState} {oldSize size : ℕ}

/-- A mapped buffer of `oldSize` bytes in the object `os`, which keeps the invariants. -/
structure Buffer (h : Heap) (os : ObjectState) (oldSize : ℕ) : Prop where
  good : MapBuf.Good h.extents
  mem : os ∈ h.objects
  mapped : ∀ i < oldSize, h.native.mapped (os.address + i) = true
  not_null : os.address ≠ 0
  valid : (h.view os).Valid
  tase : (h.view os).Tase
  size_le : oldSize ≤ os.size

/-- The host's `malloc` returns a new block that is mapped, and leaves the old buffer; `free`
of another block leaves the new one. -/
structure MallocOk (host : Host) (h : Heap) (os : ObjectState) (oldSize size : ℕ) (res : ℕ)
    (native : Native) : Prop where
  call : host.malloc ((2 + 8 + size + 8 + 2) % 2 ^ 64) h.native = (res, native)
  block : h.FreshBlock res ((size + 20) % 2 ^ 64)
  bytes : ∀ i < oldSize, native.byte (os.address + i) = h.native.byte (os.address + i)
  keeps_mapped : ∀ a, h.native.mapped a = true → native.mapped a = true
  mapped : ∀ a, res ≤ a → a < res + (size + 20) % 2 ^ 64 → native.mapped a = true
  mapped_lt : ∀ a, native.mapped a = true → a < 2 ^ 64
  free : ∀ p n a, p ≠ res → res ≤ a → a < res + (size + 20) % 2 ^ 64 →
    (host.free p n).byte a = n.byte a

/-- The host's `realloc` keeps the block in place or moves it to new memory, with its bytes. -/
structure ReallocOk (host : Host) (h : Heap) (os : ObjectState) (oldSize size : ℕ) (res : ℕ)
    (native : Native) : Prop where
  call : host.realloc os.address size h.native = (res, native)
  fresh : res ≠ os.address → ∀ o ∈ h.objects, ∀ x, res ≤ x → x < res + size →
    o.address ≠ x ∧ ¬(o.address ≤ x ∧ x < o.address + o.size)
  bytes : ∀ i < min oldSize size, native.byte (res + i) = h.native.byte (os.address + i)

theorem Buffer.alone (hb : Buffer h os oldSize) : h.Alone os os.size :=
  Heap.alone_of_good hb.good hb.mem

/-- The old object is still found at the old pointer, and is unbound. -/
theorem copyAndFree_eq {res n : ℕ} {h₁ : Heap} {new : ObjectState} (hb : Buffer h os oldSize)
    (hf : h.FreshBlock res n) (hn : 10 < n) (ho : h₁.objects = h.objects ++ [new])
    (hnew : new.address = res + 10) : copyAndFree host os.address size h₁ =
      (h₁.memcpy h₁.rax os.address size).map fun h₂ => {
        native := host.free ((h₁.heap_guard_map.lookup os.address).getD os.address) h₂.native
        objects := (h.objects ++ [new]).filter fun o => o.address ≠ os.address
        heap_guard_map := h₁.heap_guard_map.filter fun e => e.1 ≠ os.address
        rax := h₁.rax
        reads := h₂.reads } := by
  have hpos := hb.good.nonempty _ (List.mem_map.mpr ⟨os, hb.mem, rfl⟩)
  rw [copyAndFree]
  cases hc : h₁.memcpy h₁.rax os.address size with
  | none => rfl
  | some h₂ =>
    obtain ⟨rfl, -⟩ := Heap.memcpy_spec hc
    have hres : ∀ g native reads, (⟨native, h.objects ++ [new], g, h₁.rax, reads⟩ : Heap).resolveOne
        os.address = some os := by
      intro g native reads
      refine Heap.resolveOne_eq (List.mem_append_left _ hb.mem) le_rfl
        (by dsimp only at hpos; omega) fun o hmem hle => ⟨hle, fun he => ?_⟩
      rcases List.mem_append.mp hmem with h' | h'
      · by_contra hne
        exact (hb.alone.others o h' hne os.address le_rfl (by dsimp only at hpos; omega)).1 he
      · rw [List.mem_singleton.mp h', hnew] at he
        exact absurd he.symm (hf.fresh os hb.mem (res + 10) (by omega) (by omega)).1
    simp only [Option.bind_eq_bind, Option.bind_some, ho, hres, Option.map_some,
      Heap.unbindObject]
    rfl

/-- With guards, a call whose copy stays in mapped memory leaves a new object alone in the new
block. -/
theorem reallocGuarded_spec {res : ℕ} {native : Native} (hb : Buffer h os oldSize)
    (hm : MallocOk host h os oldSize size res native) (hs : size + 20 < 2 ^ 64) :
    (∀ h', reallocGuarded host os.address size h = some h' →
      ∀ i < size, native.mapped (os.address + i) = true) ∧
    ((∀ i < size, native.mapped (os.address + i) = true) →
      ∃ h' store, reallocGuarded host os.address size h = some h' ∧ h'.rax = res + 10 ∧
        h'.Alone (.ofContents (res + 10) (Heap.guardedSize size) store) (min oldSize size) ∧
        (∀ i < min oldSize size, h'.native.byte (res + 10 + i) =
          h.native.byte (os.address + i)) ∧
        h'.reads = (List.range size).map (os.address + ·) ++ h.reads) := by
  have hmod : (size + 20) % 2 ^ 64 = size + 20 := Nat.mod_eq_of_lt hs
  obtain ⟨hcall, hblock, hbytes, -, hmapped, -, hfree⟩ := hm
  rw [hmod] at hblock hmapped hfree
  have hf' : ({ h with native } : Heap).FreshBlock res (size + 20) :=
    ⟨hblock.pos, hblock.unguarded, hblock.aligned, hblock.fits, hblock.fresh⟩
  have hg := Heap.guardBlock_spec hf' le_rfl
  obtain ⟨store, hobj⟩ := hg.objects
  have hrun : reallocGuarded host os.address size h =
      copyAndFree host os.address size (({ h with native } : Heap).guardBlock res size) := by
    rw [reallocGuarded, hcall]
    exact if_neg hb.not_null
  rw [hrun]
  generalize ({ h with native } : Heap).guardBlock res size = h₁ at hg hobj
  have hrax := hg.rax
  have hnm : h₁.native.mapped = native.mapped := hg.mapped
  have hreads : h₁.reads = h.reads := hg.reads
  rw [copyAndFree_eq hb hblock (by omega) hobj rfl]
  constructor
  · intro h' h'run i hi
    obtain ⟨h₂, hcpy, -⟩ := Option.map_eq_some_iff.mp h'run
    exact hnm ▸ ((Heap.memcpy_spec hcpy).2 i hi).1
  · intro hsrc
    have hcpy : ∀ i < size, h₁.native.mapped (os.address + i) = true ∧
        h₁.native.mapped (h₁.rax + i) = true := fun i hi =>
      ⟨hnm ▸ hsrc i hi, by rw [hnm, hrax]; exact hmapped _ (by omega) (by omega)⟩
    rw [Heap.memcpy, if_pos hcpy, Option.map_some]
    refine ⟨_, store, rfl, hrax, ⟨?_, ?_⟩, ?_, by rw [hreads]⟩
    · refine List.mem_filter.mpr ⟨List.mem_append_right _ (List.mem_singleton_self _), ?_⟩
      rw [decide_eq_true_eq]
      exact fun he => (hblock.fresh os hb.mem (res + 10) (by omega) (by omega)).1 he.symm
    · intro o ho hne x hx hx'
      rcases List.mem_append.mp (List.mem_of_mem_filter ho) with h' | h'
      · have hx : res + 10 ≤ x := hx
        have hx' : x < res + 10 + min oldSize size := hx'
        exact hblock.fresh o h' x (by omega) (by omega)
      · exact absurd (List.mem_singleton.mp h') hne
    · intro i hi
      have hio : i < oldSize := hi.trans_le (min_le_left _ _)
      have his : i < size := hi.trans_le (min_le_right _ _)
      -- the source is no byte of the block
      have hout : ∀ x, res ≤ x → x < res + (size + 20) → os.address + i ≠ x := by
        rintro x hx hx' rfl
        have := hb.size_le
        exact (hblock.fresh os hb.mem _ hx hx').2 ⟨Nat.le_add_right _ _, by omega⟩
      have htr : (h₁.heap_guard_map.lookup os.address).getD os.address ≠ res := by
        refine Request.translated_ne hblock.unguarded hg.guards ?_ ?_
        · exact (hblock.fresh os hb.mem (res + 10) (by omega) (by omega)).1
        · exact (hblock.fresh os hb.mem res (by omega) (by omega)).1
      rw [hfree _ _ _ htr (by omega) (by omega)]
      dsimp only
      rw [hrax, if_pos (by omega), Nat.add_sub_cancel_left, hg.other]
      · exact hbytes i hio
      · by_contra hin
        exact hout (os.address + i) (by omega) (by omega) rfl

/-- The old object and its place in the address space, after the host's call. -/
theorem Buffer.resolveOne (hb : Buffer h os oldSize) {native : Native} {rax : ℕ} :
    ({ h with native, rax } : Heap).resolveOne os.address = some os := by
  have ha : ({ h with native, rax } : Heap).Alone os os.size := ⟨hb.mem, hb.alone.others⟩
  have hpos := hb.good.nonempty _ (List.mem_map.mpr ⟨os, hb.mem, rfl⟩)
  exact ha.resolveOne (i := 0) hpos hpos

/-- Without guards, a buffer that shrinks in place keeps its object; any other leaves a new
object alone at the bytes that are kept. -/
theorem reallocPlain_spec {res : ℕ} {native : Native} (hb : Buffer h os oldSize)
    (hr : ReallocOk host h os oldSize size res native) :
    (res = os.address ∧ cfg.round size ≤ os.size ∧
      reallocPlain cfg host os.address size h = some { h with native, rax := res }) ∨
    (¬(res = os.address ∧ cfg.round size ≤ os.size) ∧
      ∃ h' store, reallocPlain cfg host os.address size h = some h' ∧ h'.rax = res ∧
        h'.native = native ∧ h'.reads = h.reads ∧
        h'.Alone (.ofContents res (cfg.round size % 2 ^ 32) store) (min oldSize size)) := by
  have hadd : ∀ o ∈ ((h.objects.filter fun o => o.address ≠ os.address).filter
      fun o => o.address ≠ res), o ∈ h.objects ∧ o.address ≠ os.address := by
    intro o ho
    obtain ⟨ho, hne⟩ := List.mem_filter.mp (List.mem_of_mem_filter ho)
    exact ⟨ho, by simpa using hne⟩
  have hnew : ∀ h' : Heap, ∀ store, h'.objects =
      ((h.objects.filter fun o => o.address ≠ os.address).filter fun o => o.address ≠ res) ++
        [.ofContents res (cfg.round size % 2 ^ 32) store] →
      h'.Alone (.ofContents res (cfg.round size % 2 ^ 32) store) (min oldSize size) := by
    intro h' store hobj
    refine ⟨hobj ▸ List.mem_append_right _ (List.mem_singleton_self _), ?_⟩
    intro o ho hne x hx hx'
    have hx : res ≤ x := hx
    have hx' : x < res + min oldSize size := hx'
    rcases List.mem_append.mp (hobj ▸ ho) with h₁ | h₁
    · obtain ⟨hmem, haddr⟩ := hadd o h₁
      by_cases hres : res = os.address
      · have := hb.size_le
        exact hb.alone.others o hmem (fun he => haddr (he ▸ rfl)) x (by omega) (by omega)
      · exact hr.fresh hres o hmem x hx (by omega)
    · exact absurd (List.mem_singleton.mp h₁) hne
  have hrun : reallocPlain cfg host os.address size h =
      if res ≠ os.address then
        some ((({ h with native, rax := res } : Heap).unbindObject os).addExternalObject res
          (cfg.round size))
      else if cfg.round size ≤ os.size then some { h with native, rax := res }
      else some ((({ h with native, rax := res } : Heap).unbindObject os).addExternalObject res
          (cfg.round size)) := by
    rw [reallocPlain, hr.call]
    dsimp only
    rw [if_neg hb.not_null]
    split_ifs with hne hle
    · rw [hb.resolveOne]
      rfl
    · rw [not_not.mp hne, hb.resolveOne]
      exact if_pos hle
    · rw [not_not.mp hne, hb.resolveOne]
      exact if_neg hle
  by_cases hsame : res = os.address ∧ cfg.round size ≤ os.size
  · exact .inl ⟨hsame.1, hsame.2, by rw [hrun, if_neg (not_not.mpr hsame.1), if_pos hsame.2]⟩
  · refine .inr ⟨hsame, (({ h with native, rax := res } : Heap).unbindObject os).addExternalObject
      res (cfg.round size), fun i => native.byte (res + i), ?_, rfl, rfl, rfl, hnew _ _ rfl⟩
    rw [hrun]
    split_ifs with hne hle
    · rfl
    · exact absurd ⟨not_not.mp hne, hle⟩ hsame
    · rfl

/-- When the call keeps the bytes and reads none outside the buffer. -/
def Preserved (cfg : Config) (h : Heap) (os : ObjectState) (oldSize size res : ℕ) : Prop :=
  if cfg.bufferGuard then
    size + 20 < 2 ^ 64 ∧ size ≤ oldSize ∧ size ≤ Heap.guardedSize size ∧ h.Stored os size
  else res = os.address ∧ cfg.round size ≤ os.size ∨
    min oldSize size ≤ cfg.round size % 2 ^ 32 ∧ h.Stored os (min oldSize size)

/-- A request whose block wraps around is copied to no avail. -/
theorem reallocGuarded_overflow {res : ℕ} {native : Native} (hb : Buffer h os oldSize)
    (hm : MallocOk host h os oldSize size res native) (hs : ¬size + 20 < 2 ^ 64) :
    reallocGuarded host os.address size h = none := by
  obtain ⟨hcall, hblock, -, -, -, hlt, -⟩ := hm
  have hpos := hblock.pos
  have haligned := hblock.aligned
  have hfits := hblock.fits
  have hptr : (res + 2 + 8) % 2 ^ 64 = res + 10 := by omega
  have hcopy : (({ h with native } : Heap).guardBlock res size).memcpy (res + 10) os.address
      size = none := by
    rw [Heap.memcpy, if_neg]
    intro hmap
    have hlast := hlt _ (Heap.guardBlock_mapped _ _ _ ▸ (hmap (size - 1) (by omega)).2)
    omega
  have hrax : (({ h with native } : Heap).guardBlock res size).rax = res + 10 := hptr
  rw [reallocGuarded, hcall]
  refine (if_neg hb.not_null).trans ?_
  rw [copyAndFree, hrax, hcopy]
  rfl

/-- The copy reads as many bytes as the new buffer has. -/
theorem readsWithin_iff (hreads : h'.reads = (List.range size).map (os.address + ·) ++ h.reads) :
    h.ReadsWithin h' os.address oldSize ↔ size ≤ oldSize := by
  constructor
  · rintro ⟨reads, hr, hin⟩
    obtain rfl := List.append_cancel_right (hreads.symm.trans hr)
    by_contra hlt
    have := hin (os.address + oldSize)
      (List.mem_map.mpr ⟨oldSize, List.mem_range.mpr (by omega), rfl⟩)
    omega
  · intro hle
    refine ⟨_, hreads, fun a ha => ?_⟩
    obtain ⟨i, hi, rfl⟩ := List.mem_map.mp ha
    have := List.mem_range.mp hi
    omega

theorem readsWithin_of_eq (hreads : h'.reads = h.reads) (ptr n : ℕ) : h.ReadsWithin h' ptr n :=
  ⟨[], hreads, by simp⟩

/-- A `realloc` keeps the first bytes of a buffer, as many as the old and the new size have in
common, and reads no byte outside it, if and only if its object stays or their values are in
native memory, and with guards the buffer does not grow. -/
theorem realloc_keeps_iff (arrays : ObjectState.ConstArrays) (cfg : Config) (host : Host)
    (h : Heap) (os : ObjectState) (oldSize size res : ℕ) (native : Native)
    (hb : Buffer h os oldSize)
    (hm : cfg.bufferGuard = true → MallocOk host h os oldSize size res native)
    (hr : cfg.bufferGuard = false → ReallocOk host h os oldSize size res native) :
    (∃ h', model_realloc cfg host os.address size h = some h' ∧
      Heap.Keeps arrays h h' os.address (min oldSize size) ∧
      h.ReadsWithin h' os.address oldSize) ↔
      Preserved cfg h os oldSize size res := by
  have hn : min oldSize size ≤ os.size := (min_le_left _ _).trans hb.size_le
  rw [Preserved, model_realloc]
  cases hguard : cfg.bufferGuard with
  | true =>
    rw [if_pos rfl, if_pos rfl]
    by_cases hs : size + 20 < 2 ^ 64
    · obtain ⟨hsrc, hrun⟩ := reallocGuarded_spec hb (hm hguard) hs
      have hiff : ∀ h', reallocGuarded host os.address size h = some h' →
          (Heap.Keeps arrays h h' os.address (min oldSize size) ∧
            h.ReadsWithin h' os.address oldSize ↔
          size ≤ oldSize ∧ size ≤ Heap.guardedSize size ∧ h.Stored os size) := by
        intro h₁ he₁
        obtain ⟨h', store, he, hrax, halone, hbytes, hreads⟩ := hrun (hsrc h₁ he₁)
        obtain rfl : h' = h₁ := Option.some.inj (he.symm.trans he₁)
        rw [Heap.keeps_new_iff arrays hb.alone hb.valid hb.tase hn halone hrax hbytes,
          readsWithin_iff hreads]
        constructor
        · rintro ⟨hkept, hle⟩
          rw [min_eq_right hle] at hkept
          exact ⟨hle, hkept⟩
        · rintro ⟨hle, hkept⟩
          rw [min_eq_right hle]
          exact ⟨hkept, hle⟩
      constructor
      · rintro ⟨h', he, hk⟩
        exact ⟨hs, (hiff h' he).mp hk⟩
      · rintro ⟨-, hle, hkept⟩
        have hmap : ∀ i < size, native.mapped (os.address + i) = true := fun i hi =>
          (hm hguard).keeps_mapped _ (hb.mapped i (hi.trans_le hle))
        obtain ⟨h', -, he, -⟩ := hrun hmap
        exact ⟨h', he, (hiff h' he).mpr ⟨hle, hkept⟩⟩
    · rw [reallocGuarded_overflow hb (hm hguard) hs]
      constructor
      · rintro ⟨_, he, -⟩
        cases he
      · exact fun hp => absurd hp.1 hs
  | false =>
    rw [if_neg Bool.false_ne_true, if_neg Bool.false_ne_true]
    have hr := hr hguard
    obtain ⟨hres, hle, he⟩ | ⟨hne, h', store, he, hrax, hnat, hreads, halone⟩ :=
      reallocPlain_spec hb hr
    · refine ⟨fun _ => .inl ⟨hres, hle⟩, fun _ => ⟨_, he, ?_, readsWithin_of_eq rfl _ _⟩⟩
      refine Heap.keeps_of_same hb.alone hb.valid hn ⟨hb.mem, hb.alone.others⟩ hres ?_
      intro i hi
      exact hres ▸ hr.bytes i hi
    · have hk := Heap.keeps_new_iff arrays hb.alone hb.valid hb.tase hn halone hrax
        (fun i hi => hnat ▸ hr.bytes i hi)
      rw [or_iff_right hne, ← hk]
      constructor
      · rintro ⟨h₁, he₁, hk₁, -⟩
        exact Option.some.inj (he.symm.trans he₁) ▸ hk₁
      · exact fun hk₁ => ⟨h', he, hk₁, readsWithin_of_eq hreads _ _⟩

/-! ### A buffer under poison -/

/-- A symbolic byte, and a constant that was moved out of native memory with it. -/
def poisonedObject : ObjectState where
  address := 16
  size := 2
  store := fun _ => 0
  concreteMask := some fun _ => false
  flushMask := none
  knownSymbolics := some fun i =>
    some (if i = 0 then .read (.root ⟨"a", 1, 0, []⟩) (.alloc 0 32) else .constant ⟨8, 0x41⟩)
  root := none
  writes := []

def poisonedNative : Native := ⟨fun a => poisonVal.extractLsb' (8 * (a % 2)) 8, fun _ => true⟩

def poisonedHeap : Heap := ⟨poisonedNative, [poisonedObject], [], 0, []⟩

/-- A host that moves a block to 32, with all of native memory as it was. -/
def movingHost : Host where
  malloc _ n := (32, n)
  calloc _ _ n := (32, n)
  realloc _ _ n := (32, n)
  free _ n := n

def plainConfig : Config := ⟨false, true⟩

theorem buffer_poisoned : Buffer poisonedHeap poisonedObject 2 where
  good := ⟨List.pairwise_singleton _ _, by decide⟩
  mem := List.mem_singleton_self _
  mapped _ _ := rfl
  not_null := by decide
  valid := by
    refine ⟨by decide, by decide, fun i hi e he => ?_, fun w hw => (by cases hw),
      fun root hr => (by cases hr), fun i _ hf => (by cases hf)⟩
    obtain rfl := Option.some.inj he
    have hi : i < 2 := hi
    interval_cases i
    · exact ⟨by decide, by decide⟩
    · exact ⟨by decide, by decide⟩
  tase := by decide
  size_le := le_rfl

theorem reallocOk_moving : ReallocOk movingHost poisonedHeap poisonedObject 2 2 32
    poisonedNative where
  call := rfl
  fresh _ o ho x hx _ := by
    obtain rfl := List.mem_singleton.mp ho
    have ha : poisonedObject.address = 16 := rfl
    have hs : poisonedObject.size = 2 := rfl
    omega
  bytes i hi := by
    have hi : i < 2 := hi
    interval_cases i <;> rfl

/-- A host that keeps a block in place. -/
def stayingHost : Host := { movingHost with realloc := fun p _ n => (p, n) }

/-- A buffer that stays keeps its bytes, poisoned as they are. -/
theorem realloc_keeps_iff_poisoned : ∃ h', model_realloc ⟨false, false⟩ stayingHost 16 2
      poisonedHeap = some h' ∧ Heap.Keeps ObjectState.constArray poisonedHeap h' 16 1 ∧
      poisonedHeap.ReadsWithin h' 16 1 :=
  (realloc_keeps_iff ObjectState.constArray ⟨false, false⟩ stayingHost poisonedHeap poisonedObject 1 2
    16 poisonedNative ⟨buffer_poisoned.good, buffer_poisoned.mem, fun _ _ => rfl,
      buffer_poisoned.not_null, buffer_poisoned.valid, buffer_poisoned.tase, by decide⟩
    (fun h => by cases h) fun _ => ⟨rfl, fun h => absurd rfl h, fun _ _ => rfl⟩).mpr
    (.inl ⟨rfl, by decide⟩)

/-- The block moves, and the constant reads as the poison that lay over it. -/
theorem realloc_poisoned_lost :
    ¬∀ (arrays : ObjectState.ConstArrays) (cfg : Config) (host : Host) (h : Heap)
      (os : ObjectState) (oldSize size res : ℕ) (native : Native), Buffer h os oldSize →
      (cfg.bufferGuard = true → MallocOk host h os oldSize size res native) →
      (cfg.bufferGuard = false → ReallocOk host h os oldSize size res native) →
      ∃ h', model_realloc cfg host os.address size h = some h' ∧
        Heap.Keeps arrays h h' os.address (min oldSize size) ∧
        h.ReadsWithin h' os.address oldSize := by
  intro hall
  have hb := buffer_poisoned
  obtain ⟨h₁, he₁, hk, -⟩ := hall ObjectState.constArray plainConfig movingHost poisonedHeap
    poisonedObject 2 2 32 poisonedNative hb (fun h => by cases h) fun _ => reallocOk_moving
  obtain ⟨hres, -⟩ | ⟨-, h', store, he, hrax, hnat, -, halone⟩ :=
    reallocPlain_spec hb reallocOk_moving
  · exact absurd hres (by decide)
  · obtain rfl : h' = h₁ := Option.some.inj (he.symm.trans he₁)
    obtain ⟨-, hstored⟩ := (Heap.keeps_new_iff ObjectState.constArray hb.alone hb.valid hb.tase
      le_rfl halone hrax fun i hi => hnat ▸ reallocOk_moving.bytes i hi).mp hk
    rcases hstored 1 (by decide) with hc | hv
    · exact absurd hc (by decide)
    · have hval : (⟨8, 0x41⟩ : APInt) = ⟨8, Heap.poisonByte 1⟩ := hv fun _ _ => 0
      exact absurd hval (by decide)

end TaseVerifier.HeapModels
