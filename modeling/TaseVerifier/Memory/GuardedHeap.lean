import TaseVerifier.Memory.HeapModels

/-! Where the buffer, its object and the poison lie in a guarded block. -/

namespace TaseVerifier.HeapModels

/-- A request to the heap; `realloc` has the old pointer. -/
inductive Request where
  | malloc (size : ℕ)
  | calloc (nmemb size : ℕ)
  | realloc (ptr size : ℕ)

namespace Request

variable (cfg : Config) (host : Host) (h : Heap)

/-- The bytes that are asked for. -/
def bytes : Request → ℕ
  | malloc size => size
  | calloc nmemb size => nmemb * size
  | realloc _ size => size

/-- The bytes that room is made for. -/
def room : Request → ℕ
  | malloc size => if cfg.roundUpHeapAllocations then (size + 7) / 8 * 8 else size
  | calloc nmemb size => nmemb * size
  | realloc _ size => size

/-- The size of the block that the host is asked for. -/
def blockSize : Request → ℕ
  | calloc nmemb size => (nmemb + 20) * size
  | r => r.room cfg + 20

/-- No size of the request leaves 64 bits. -/
def NoOverflow : Request → Prop
  | calloc nmemb size => nmemb + 20 < 2 ^ 64 ∧ (nmemb + 20) * size < 2 ^ 64
  | r => r.room cfg + 20 < 2 ^ 64

instance (r : Request) : Decidable (r.NoOverflow cfg) :=
  match r with
  | malloc _ => inferInstanceAs (Decidable (_ < _))
  | calloc _ _ => inferInstanceAs (Decidable (_ ∧ _))
  | realloc _ _ => inferInstanceAs (Decidable (_ < _))

/-- What the host returns. -/
def hostCall : Request → ℕ × Native
  | malloc size => host.malloc ((cfg.round size + 20) % 2 ^ 64) h.native
  | calloc nmemb size => host.calloc ((nmemb + (4 + 16)) % 2 ^ 64) size h.native
  | realloc _ size => host.malloc ((2 + 8 + size + 8 + 2) % 2 ^ 64) h.native

def handle : Request → Option Heap
  | malloc size => some (model_malloc cfg host size h)
  | calloc nmemb size => some (model_calloc cfg host nmemb size h)
  | realloc ptr size => model_realloc cfg host ptr size h

end Request

namespace Heap

/-- The host's block is new: not one of the guarded blocks, at a multiple of 16, inside the
address space, and without a byte of a bound object. -/
structure FreshBlock (h : Heap) (block size : ℕ) : Prop where
  pos : 0 < block
  unguarded : ∀ e ∈ h.heap_guard_map, e.2 ≠ block
  aligned : block % 16 = 0
  fits : block + size < 2 ^ 64
  fresh : ∀ o ∈ h.objects, ∀ x, block ≤ x → x < block + size →
    o.address ≠ x ∧ ¬(o.address ≤ x ∧ x < o.address + o.size)

/-- The word at an address holds the poison. -/
def Poisoned (h : Heap) (a : ℕ) : Prop :=
  h.native.byte a = poisonVal.extractLsb' 0 8 ∧ h.native.byte (a + 1) = poisonVal.extractLsb' 8 8

/-- A word of poison: in the block, at an even address, and outside the object. -/
structure Guards (h : Heap) (os : ObjectState) (block size a : ℕ) : Prop where
  poisoned : h.Poisoned a
  inside : block ≤ a ∧ a + 2 ≤ block + size
  even : a % 2 = 0
  apart : a + 2 ≤ os.address ∨ os.address + os.size ≤ a

/-- The object at the returned buffer contains the bytes asked for and lies in the block, and
so do two words of poison around it. -/
structure LaidOut (h : Heap) (block size bytes room : ℕ) : Prop where
  object : ∃ os ∈ h.objects, os.address = h.rax ∧ bytes ≤ os.size ∧ block ≤ os.address ∧
    os.address + os.size ≤ block + size ∧ h.Guards os block size block ∧
    h.Guards os block size (block + 18 + room)

variable {h : Heap} {res size : ℕ}

/-! ### A guarded block -/

/-- The object that is mapped for a buffer of `size` bytes in the block `res`. -/
def guardedSize (size : ℕ) : ℕ := MapBuf.roundUp (size + 6) % 2 ^ 32

theorem resolveOne_fresh {n : ℕ} (hf : h.FreshBlock res n) {h' : Heap}
    (ho' : h'.objects = h.objects) {x : ℕ} (hx : res ≤ x) (hx' : x < res + n) :
    h'.resolveOne x = none := by
  refine resolveOne_none fun o ho hle => ?_
  obtain ⟨hne, hcov⟩ := hf.fresh o (ho' ▸ ho) x hx hx'
  exact ⟨fun h0 => hne h0.2.symm, by omega⟩

/-- At an address where nothing is bound the new object comes beside the others. -/
theorem tase_map_buf_fresh {addr : ℕ} (hnone : h.resolveOne addr = none)
    (hne : ∀ o ∈ h.objects, o.address ≠ addr) (size : ℕ) :
    (h.tase_map_buf addr size).1 = { h with objects := h.objects ++
      [.ofContents addr (MapBuf.roundedSize size % 2 ^ 32) fun i =>
        h.native.byte (addr + i)] } := by
  have hfilter : h.objects.filter (fun o => o.address ≠ addr) = h.objects := by
    rw [List.filter_eq_self]
    intro o ho
    rw [decide_eq_true_eq]
    exact hne o ho
  rw [tase_map_buf, addExternalObjectCheck, hnone, if_neg (by simp), addExternalObject, bindObject]
  exact congrArg (fun l => ({ h with objects := l ++ _ } : Heap)) hfilter

theorem roundedSize_eq (hs : size + 20 < 2 ^ 64) :
    MapBuf.roundedSize ((size + 6) % 2 ^ 64) = MapBuf.roundUp (size + 6) := by
  rw [Nat.mod_eq_of_lt (by omega)]
  refine MapBuf.roundedSize_eq _ ?_
  unfold MapBuf.roundUp
  omega

theorem tase_map_buf_native (addr size : ℕ) (h : Heap) :
    (h.tase_map_buf addr size).1.native = h.native := by
  rw [tase_map_buf, addExternalObjectCheck]
  split_ifs <;> rfl

theorem guardBlock_mapped (res size : ℕ) (h : Heap) :
    (h.guardBlock res size).native.mapped = h.native.mapped := by
  simp only [guardBlock, setWord, tase_map_buf_native, insertGuard]
  split_ifs <;> rfl

/-- In a new block the mapped object is bound beside the others, and the words at the edges
are poisoned. -/
structure GuardedBlock (h h' : Heap) (res size : ℕ) : Prop where
  objects : ∃ store, h'.objects = h.objects ++ [.ofContents (res + 10) (guardedSize size) store]
  rax : h'.rax = res + 10
  mapped : h'.native.mapped = h.native.mapped
  reads : h'.reads = h.reads
  first : h'.Poisoned res
  last : h'.Poisoned (res + 18 + size)
  guards : ∀ e ∈ h'.heap_guard_map, e = (res + 10, res) ∨ e ∈ h.heap_guard_map
  other : ∀ a, (a < res ∨ res + size + 20 ≤ a ∨ res + 10 ≤ a ∧ a < res + 10 + size) →
    h'.native.byte a = h.native.byte a

theorem insertGuard_eq (res : ℕ) (h : Heap) : ∃ g, h.insertGuard (res + 10) res =
    { h with heap_guard_map := g } ∧ ∀ e ∈ g, e = (res + 10, res) ∨ e ∈ h.heap_guard_map := by
  rw [insertGuard]
  split_ifs
  · exact ⟨_, rfl, fun e he => .inr he⟩
  · exact ⟨_, rfl, fun e he => List.mem_cons.mp he⟩

theorem guardBlock_spec {n : ℕ} (hf : h.FreshBlock res n) (hn : size + 20 ≤ n) :
    GuardedBlock h (h.guardBlock res size) res size := by
  have hfits := hf.fits
  have hpos := hf.pos
  have hptr : (res + 2 + 8) % 2 ^ 64 = res + 10 := by omega
  have hend : (res + 2 + 8 + size + 8) % 2 ^ 64 = res + 18 + size := by omega
  have hres₁ : (res + 1) % 2 ^ 64 = res + 1 := by omega
  have hend₁ : (res + 18 + size + 1) % 2 ^ 64 = res + 18 + size + 1 := by omega
  have hsize : MapBuf.roundedSize ((size + 6) % 2 ^ 64) = MapBuf.roundUp (size + 6) :=
    roundedSize_eq (by omega)
  obtain ⟨g, hg, hmem⟩ := insertGuard_eq res h
  have hmap := tase_map_buf_fresh (h := { h with heap_guard_map := g })
    (resolveOne_fresh (x := res + 10) hf rfl (by omega) (by omega))
    (fun o ho => (hf.fresh o ho (res + 10) (by omega) (by omega)).1) ((size + 6) % 2 ^ 64)
  rw [hsize] at hmap
  obtain ⟨byte, hbyte⟩ : ∃ byte : ℕ → BitVec 8, byte =
      Function.update (Function.update (Function.update (Function.update h.native.byte
        res (poisonVal.extractLsb' 0 8)) (res + 1) (poisonVal.extractLsb' 8 8))
        (res + 18 + size) (poisonVal.extractLsb' 0 8))
        (res + 18 + size + 1) (poisonVal.extractLsb' 8 8) := ⟨_, rfl⟩
  have heq : h.guardBlock res size = {
      heap_guard_map := g
      rax := res + 10
      objects := h.objects ++ [.ofContents (res + 10) (guardedSize size)
        fun i => h.native.byte (res + 10 + i)]
      native := ⟨byte, h.native.mapped⟩
      reads := h.reads } := by
    simp only [guardBlock, hptr, hg, hmap, setWord, hend, hres₁, hend₁, hbyte, guardedSize]
  rw [heq]
  -- the edges lie apart from each other and from the buffer
  refine ⟨⟨_, rfl⟩, rfl, rfl, rfl, ⟨?_, ?_⟩, ⟨?_, ?_⟩, hmem, fun a ha => ?_⟩
  · change byte res = _
    rw [hbyte, Function.update_of_ne (by omega), Function.update_of_ne (by omega),
      Function.update_of_ne (by omega), Function.update_self]
  · change byte (res + 1) = _
    rw [hbyte, Function.update_of_ne (by omega), Function.update_of_ne (by omega),
      Function.update_self]
  · change byte (res + 18 + size) = _
    rw [hbyte, Function.update_of_ne (by omega), Function.update_self]
  · change byte (res + 18 + size + 1) = _
    rw [hbyte, Function.update_self]
  · change byte a = _
    rw [hbyte, Function.update_of_ne (by omega), Function.update_of_ne (by omega),
      Function.update_of_ne (by omega), Function.update_of_ne (by omega)]

/-- One object is bound at the buffer, and the words at the edges are poisoned. -/
structure Placed (h : Heap) (res room : ℕ) : Prop where
  rax : h.rax = res + 10
  bound : ∃ os ∈ h.objects, os.address = res + 10
  size : ∀ os ∈ h.objects, os.address = res + 10 → os.size = guardedSize room
  first : h.Poisoned res
  last : h.Poisoned (res + 18 + room)

theorem GuardedBlock.placed {h' : Heap} {n : ℕ} (hf : h.FreshBlock res n) (hn : 10 < n)
    (hg : GuardedBlock h h' res size) : h'.Placed res size where
  rax := hg.rax
  bound := by
    obtain ⟨store, ho⟩ := hg.objects
    exact ⟨_, ho ▸ List.mem_append_right _ (List.mem_singleton_self _), rfl⟩
  size os hos ha := by
    obtain ⟨store, ho⟩ := hg.objects
    rcases List.mem_append.mp (ho ▸ hos) with h' | h'
    · exact absurd ha (hf.fresh os h' (res + 10) (by omega) (by omega)).1
    · rw [List.mem_singleton.mp h']
      rfl
  first := hg.first
  last := hg.last

/-- The rounded buffer keeps clear of the second word of poison for two residues only. -/
theorem Placed.laidOut_iff {n bytes room : ℕ} (h₁ : h.Placed res room) (ha : res % 16 = 0)
    (hn : room + 20 ≤ n) (hb : bytes ≤ room ∧ room < bytes + 8) :
    h.LaidOut res n bytes room ↔
      (room % 8 = 0 ∨ room % 8 = 2) ∧ MapBuf.roundUp (room + 6) < 2 ^ 32 := by
  have hup : MapBuf.roundUp (room + 6) = (room + 6 + 7) / 8 * 8 := rfl
  have hsize : guardedSize room = (room + 6 + 7) / 8 * 8 % 2 ^ 32 := rfl
  constructor
  · rintro ⟨os, hos, haddr, hbytes, -, -, -, hg⟩
    rw [h₁.rax] at haddr
    have hos := h₁.size os hos haddr
    have heven := hg.even
    have hin := hg.inside
    have hap := hg.apart
    omega
  · rintro ⟨hres, hlt⟩
    obtain ⟨os, hos, haddr⟩ := h₁.bound
    have hsz := h₁.size os hos haddr
    exact ⟨os, hos, haddr.trans h₁.rax.symm, by omega, by omega, by omega,
      ⟨h₁.first, by omega, by omega, by omega⟩, ⟨h₁.last, by omega, by omega, by omega⟩⟩

end Heap

/-! ### Requests -/

theorem roundUp_eq {size : ℕ} (hs : (size + 7) / 8 * 8 < 2 ^ 64) :
    roundUp size 8 = (size + 7) / 8 * 8 := by
  unfold roundUp
  split_ifs
  · omega
  · omega

namespace Request

variable {cfg : Config} {host : Host} {h h' : Heap} {r : Request}

/-- A pointer that is passed back to `realloc` lies in a bound object. -/
def Valid (h : Heap) : Request → Prop
  | realloc ptr _ => ptr = 0 ∨ (h.resolveOne ptr).isSome
  | _ => True

/-- The room is 0 or 2 modulo 8, its object has a size of 32 bits, and no elements are empty. -/
def Suited (cfg : Config) (r : Request) : Prop :=
  (r.room cfg % 8 = 0 ∨ r.room cfg % 8 = 2) ∧ MapBuf.roundUp (r.room cfg + 6) < 2 ^ 32 ∧
    ∀ nmemb, r ≠ calloc nmemb 0

theorem bytes_room (hno : r.NoOverflow cfg) :
    r.bytes ≤ r.room cfg ∧ r.room cfg < r.bytes + 8 := by
  cases r with
  | malloc size =>
    rw [bytes, room]
    split_ifs <;> omega
  | calloc nmemb size => exact ⟨le_rfl, Nat.lt_add_of_pos_right (by decide)⟩
  | realloc ptr size => exact ⟨le_rfl, Nat.lt_add_of_pos_right (by decide)⟩

theorem round_eq {size : ℕ} (hno : (malloc size).NoOverflow cfg) :
    cfg.round size = (malloc size).room cfg := by
  have hno : (malloc size).room cfg + 20 < 2 ^ 64 := hno
  rw [room] at hno ⊢
  rw [Config.round]
  split_ifs at hno ⊢
  · exact roundUp_eq (by omega)
  · rfl

theorem room_le_blockSize (hr : ∀ nmemb, r ≠ calloc nmemb 0) :
    r.room cfg + 20 ≤ r.blockSize cfg := by
  cases r with
  | malloc size => exact le_rfl
  | calloc nmemb size =>
    have hpos : 0 < size := Nat.pos_of_ne_zero fun h0 => hr nmemb (h0 ▸ rfl)
    rw [room, blockSize, Nat.add_mul]
    omega
  | realloc ptr size => exact le_rfl

/-- The old pointer still resolves to an old object. -/
theorem old_ne_new {res n ptr : ℕ} {h₂ : Heap} {old os : ObjectState}
    (hf : h.FreshBlock res n) (hn : 10 < n)
    (hobj : ∀ o ∈ h.objects, o ∈ h₂.objects) (hold : h.resolveOne ptr = some old)
    (hos : h₂.resolveOne ptr = some os) : os.address ≠ res + 10 := by
  intro he
  obtain ⟨-, hle, hmax, -⟩ := Heap.resolveOne_some hos
  obtain ⟨-, hle', -, o, ho, ha, hcov⟩ := Heap.resolveOne_some hold
  obtain ⟨hne, hcov'⟩ := hf.fresh o ho (res + 10) (by omega) (by omega)
  have := hmax o (hobj o ho) (by omega)
  omega

/-- What is freed is not the new block. -/
theorem translated_ne {res ptr : ℕ} {old new : List (ℕ × ℕ)} (ho : ∀ e ∈ old, e.2 ≠ res)
    (hn : ∀ e ∈ new, e = (res + 10, res) ∨ e ∈ old) (hp : ptr ≠ res + 10) (hp' : ptr ≠ res) :
    (new.lookup ptr).getD ptr ≠ res := by
  cases hl : new.lookup ptr with
  | none => exact hp'
  | some v =>
    obtain ⟨l₁, l₂, rfl, -⟩ := List.lookup_eq_some_iff.mp hl
    rcases hn (ptr, v) (by simp) with he | he
    · exact absurd (congrArg Prod.fst he) hp
    · exact ho _ he

/-- The rest of a `realloc` leaves the new object and the poison. -/
theorem reallocGuarded_placed {ptr size : ℕ} (hv : (realloc ptr size).Valid h)
    (hno : size + 20 < 2 ^ 64)
    (hf : h.FreshBlock (host.malloc (size + 20) h.native).1 (size + 20))
    (hfree : ∀ p n a, p ≠ (host.malloc (size + 20) h.native).1 →
      (host.malloc (size + 20) h.native).1 ≤ a →
      a < (host.malloc (size + 20) h.native).1 + (size + 20) →
      (host.free p n).byte a = n.byte a)
    (hrun : reallocGuarded host ptr size h = some h') :
    h'.Placed (host.malloc (size + 20) h.native).1 size := by
  have hsize : (2 + 8 + size + 8 + 2) % 2 ^ 64 = size + 20 := by omega
  rw [reallocGuarded, hsize] at hrun
  obtain ⟨⟨res, native⟩, hcall⟩ : ∃ p, p = host.malloc (size + 20) h.native := ⟨_, rfl⟩
  rw [← hcall] at hf hfree hrun ⊢
  dsimp only at hf hfree hrun ⊢
  have hfits := hf.fits
  have hf' : ({ h with native } : Heap).FreshBlock res (size + 20) :=
    ⟨hf.pos, hf.unguarded, hf.aligned, hf.fits, hf.fresh⟩
  have hg := Heap.guardBlock_spec hf' (le_refl (size + 20))
  have hp := hg.placed hf' (by omega)
  generalize ({ h with native } : Heap).guardBlock res size = h₁ at hg hp hrun
  split_ifs at hrun with h0
  · obtain rfl : h₁ = h' := Option.some.inj hrun
    exact hp
  · have hres : (h.resolveOne ptr).isSome := hv.resolve_left h0
    obtain ⟨old, hold⟩ := Option.isSome_iff_exists.mp hres
    have hout : ∀ x, res ≤ x → x < res + (size + 20) → ptr ≠ x := by
      rintro x hx hx' rfl
      rw [Heap.resolveOne_fresh hf rfl hx hx'] at hold
      cases hold
    simp only [copyAndFree, Option.bind_eq_bind, Option.bind_eq_some_iff] at hrun
    obtain ⟨h₂, hcpy, os, hos, heq⟩ := hrun
    obtain ⟨rfl, -⟩ := Heap.memcpy_spec hcpy
    have hne : os.address ≠ res + 10 := by
      obtain ⟨store, hobj⟩ := hg.objects
      refine old_ne_new hf (by omega) (fun o ho => ?_) hold hos
      exact hobj ▸ List.mem_append_left _ ho
    have hfr : ∀ a, res ≤ a → a < res + (size + 20) → ¬(res + 10 ≤ a ∧ a < res + 10 + size) →
        h'.native.byte a = h₁.native.byte a := by
      intro a ha ha' hbuf
      obtain rfl := Option.some.inj heq
      refine (hfree _ _ a ?_ ha ha').trans ?_
      · exact translated_ne hf.unguarded hg.guards (hout _ (by omega) (by omega))
          (hout _ (by omega) (by omega))
      · rw [hp.rax]
        exact if_neg hbuf
    obtain rfl := Option.some.inj heq
    refine ⟨hp.rax, ?_, fun o ho => hp.size o (List.mem_of_mem_filter ho), ?_, ?_⟩
    · obtain ⟨n, hn, hna⟩ := hp.bound
      exact ⟨n, List.mem_filter.mpr ⟨hn, by simpa [hna] using hne.symm⟩, hna⟩
    · exact ⟨(hfr _ (by omega) (by omega) (by omega)).trans hp.first.1,
        (hfr _ (by omega) (by omega) (by omega)).trans hp.first.2⟩
    · exact ⟨(hfr _ (by omega) (by omega) (by omega)).trans hp.last.1,
        (hfr _ (by omega) (by omega) (by omega)).trans hp.last.2⟩

/-- The block of a request, in the state that the request leaves. -/
theorem handle_placed (hguard : cfg.bufferGuard = true) (hv : r.Valid h)
    (hno : r.NoOverflow cfg) (hr : ∀ nmemb, r ≠ calloc nmemb 0)
    (hf : h.FreshBlock (r.hostCall cfg host h).1 (r.blockSize cfg))
    (hfree : ∀ p n a, p ≠ (r.hostCall cfg host h).1 → (r.hostCall cfg host h).1 ≤ a →
      a < (r.hostCall cfg host h).1 + r.blockSize cfg → (host.free p n).byte a = n.byte a)
    (hrun : r.handle cfg host h = some h') :
    h'.Placed (r.hostCall cfg host h).1 (r.room cfg) := by
  have hle : r.room cfg + 20 ≤ r.blockSize cfg := room_le_blockSize hr
  have hnew : ∀ native, ({ h with native } : Heap).FreshBlock (r.hostCall cfg host h).1
      (r.blockSize cfg) := fun native => ⟨hf.pos, hf.unguarded, hf.aligned, hf.fits, hf.fresh⟩
  cases r with
  | malloc size =>
    have hg := Heap.guardBlock_spec (hnew ((malloc size).hostCall cfg host h).2) hle
    obtain rfl := Option.some.inj hrun
    rw [model_malloc, if_pos hguard, round_eq hno]
    have hcall : (malloc size).hostCall cfg host h =
        host.malloc (((malloc size).room cfg + 20) % 2 ^ 64) h.native := by
      rw [hostCall, round_eq hno]
    rw [hcall] at hg ⊢
    exact hg.placed (hcall ▸ hnew _) (by omega)
  | calloc nmemb size =>
    have hg := Heap.guardBlock_spec (hnew ((calloc nmemb size).hostCall cfg host h).2) hle
    have hmod : nmemb * size % 2 ^ 64 = (calloc nmemb size).room cfg := by
      have hlt : (nmemb + 20) * size < 2 ^ 64 := hno.2
      rw [Nat.add_mul] at hlt
      exact Nat.mod_eq_of_lt (by omega)
    obtain rfl := Option.some.inj hrun
    rw [model_calloc, if_pos hguard, hmod]
    exact hg.placed (hnew _) (by omega)
  | realloc ptr size =>
    have hno : size + 20 < 2 ^ 64 := hno
    have hcall : (realloc ptr size).hostCall cfg host h = host.malloc (size + 20) h.native := by
      rw [hostCall, show (2 + 8 + size + 8 + 2) % 2 ^ 64 = size + 20 by omega]
    rw [hcall] at hf hfree ⊢
    rw [handle, model_realloc, if_pos hguard] at hrun
    exact reallocGuarded_placed hv hno hf hfree hrun

end Request

open Request in
/-- With guards, what a request leaves is laid out safely if and only if the request suits the
rounding. -/
theorem guarded_layout_iff (cfg : Config) (host : Host) (h h' : Heap) (r : Request)
    (hguard : cfg.bufferGuard = true) (hv : r.Valid h) (hno : r.NoOverflow cfg)
    (hf : h.FreshBlock (r.hostCall cfg host h).1 (r.blockSize cfg))
    (hfree : ∀ p n a, p ≠ (r.hostCall cfg host h).1 → (r.hostCall cfg host h).1 ≤ a →
      a < (r.hostCall cfg host h).1 + r.blockSize cfg → (host.free p n).byte a = n.byte a)
    (hrun : r.handle cfg host h = some h') :
    h'.LaidOut (r.hostCall cfg host h).1 (r.blockSize cfg) r.bytes (r.room cfg) ↔
      r.Suited cfg := by
  by_cases hr : ∀ nmemb, r ≠ calloc nmemb 0
  · have hp := handle_placed hguard hv hno hr hf hfree hrun
    rw [hp.laidOut_iff hf.aligned (room_le_blockSize hr) (bytes_room hno), Suited]
    exact ⟨fun h => ⟨h.1, h.2, hr⟩, fun h => ⟨h.1, h.2.1⟩⟩
  · -- a block for empty elements has no room for the poison
    push Not at hr
    obtain ⟨nmemb, rfl⟩ := hr
    constructor
    · rintro ⟨os, -, -, -, -, -, hg, -⟩
      have hin : _ ∧ _ + 2 ≤ _ + (nmemb + 20) * 0 := hg.inside
      omega
    · exact fun hs => absurd rfl (hs.2.2 nmemb)

/-- Guards and rounding, as the program is set up. -/
def guardedConfig : Config := ⟨true, true⟩

/-- A host whose first block is at 16. -/
def firstBlock : Host where
  malloc _ n := (16, n)
  calloc _ _ n := (16, n)
  realloc _ _ n := (16, n)
  free _ n := n

def emptyHeap : Heap := ⟨⟨fun _ => 0, fun _ => true⟩, [], [], 0, []⟩

theorem freshBlock_emptyHeap (size : ℕ) (hs : size < 2 ^ 32) :
    emptyHeap.FreshBlock 16 size :=
  ⟨by decide, by simp [emptyHeap], by decide, by omega, by simp [emptyHeap]⟩

theorem guarded_layout_malloc :
    (model_malloc guardedConfig firstBlock 9 emptyHeap).LaidOut 16 36 9 16 ↔
      (Request.malloc 9).Suited guardedConfig :=
  guarded_layout_iff guardedConfig firstBlock emptyHeap _ (.malloc 9) rfl trivial (by decide)
    (freshBlock_emptyHeap 36 (by decide)) (fun _ _ _ _ _ _ => rfl) rfl

/-- `realloc(NULL, 4)`: the block has 24 bytes, and the object of 16 bytes begins at its tenth. -/
theorem realloc_four_not_laidOut :
    ¬∀ (cfg : Config) (host : Host) (h h' : Heap) (r : Request), cfg.bufferGuard = true →
      r.Valid h → r.NoOverflow cfg →
      h.FreshBlock (r.hostCall cfg host h).1 (r.blockSize cfg) →
      (∀ p n a, p ≠ (r.hostCall cfg host h).1 → (r.hostCall cfg host h).1 ≤ a →
        a < (r.hostCall cfg host h).1 + r.blockSize cfg → (host.free p n).byte a = n.byte a) →
      r.handle cfg host h = some h' →
      h'.LaidOut (r.hostCall cfg host h).1 (r.blockSize cfg) r.bytes (r.room cfg) := by
  intro hall
  obtain ⟨h', hrun⟩ : ∃ h', (Request.realloc 0 4).handle guardedConfig firstBlock emptyHeap =
      some h' := ⟨_, rfl⟩
  have hf := freshBlock_emptyHeap 24 (by decide)
  have hv : (Request.realloc 0 4).Valid emptyHeap := Or.inl rfl
  obtain ⟨os, hos, haddr, -, -, hend, -⟩ := hall guardedConfig firstBlock emptyHeap h'
    (.realloc 0 4) rfl hv (by decide) hf (fun _ _ _ _ _ _ => rfl) hrun
  have hp := Request.handle_placed rfl hv (by decide) (fun _ h => by cases h) (by exact hf)
    (fun _ _ _ _ _ _ => rfl) hrun
  have hsize := hp.size os hos (haddr.trans hp.rax)
  rw [hsize, haddr, hp.rax] at hend
  exact absurd hend (by decide)

end TaseVerifier.HeapModels
