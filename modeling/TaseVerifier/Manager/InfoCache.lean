import Mathlib.Data.List.Range
import TaseVerifier.Library.Bits
import TaseVerifier.Library.Ranges

/-! The cache for the `pinfo` structs of the running workers, in `API_Scout` and
`API_Alt`. The free slots are the clear bits of one word; an allocation takes the
lowest. The size of a slot is computed in words of eight bytes, but its address in
bytes. -/

namespace TaseVerifier

open Library

/-- The two copies differ in the type of `cache_size`: `int` and `size_t`. -/
inductive WorkerApi where
  | Scout | Alt
  deriving DecidableEq

/-- What the cache is created with. `pinfo_bytes` is the `int` of the API's user. -/
structure InfoCache where
  api : WorkerApi
  MAX_RUNNING_WORKERS : ℕ
  pinfo_bytes : ℕ
  info_cache : ℕ
  one_le : 1 ≤ pinfo_bytes
  lt : pinfo_bytes < 2 ^ 31

namespace InfoCache

/-- A call returns, leaves the process, or does what C++ leaves undefined: it overflows an
`int` or shifts one by its width or more. -/
inductive Outcome (α : Type) where
  | returned (a : α)
  | exit
  | undefined
  deriving DecidableEq

def cache_size (c : InfoCache) : ℤ :=
  match c.api with
  | .Scout => (BitVec.ofNat 32 (c.MAX_RUNNING_WORKERS * c.pinfo_bytes)).toInt
  | .Alt => (c.MAX_RUNNING_WORKERS * c.pinfo_bytes % 2 ^ 64 : ℕ)

def slot_size (c : InfoCache) : ℕ :=
  if c.pinfo_bytes % 8 = 0 then c.pinfo_bytes / 8 else c.pinfo_bytes / 8 + 1

/-- The slots that the loop of `alloc_in_cache` looks at. -/
def slotCount (c : InfoCache) : ℕ := (c.cache_size.tdiv (c.slot_size * 8)).toNat

/-- `0x1<<x`, an `int` that is widened to 64 bits with its sign. -/
def bit (x : ℕ) : BitVec 64 := (1#32 <<< x).signExtend 64

/-- The loop of `alloc_in_cache` from `x` on, with `n` slots to go. -/
def allocLoop (c : InfoCache) (slots : BitVec 64) : ℕ → ℕ → Outcome (BitVec 64 × ℕ)
  | 0, _ => .exit
  | n + 1, x =>
    if 32 ≤ x then .undefined
    else if slots &&& bit x = 0 then
      if 2 ^ 31 ≤ x * c.slot_size then .undefined
      else .returned (slots ||| bit x, c.info_cache + x * c.slot_size)
    else c.allocLoop slots n (x + 1)

def alloc_in_cache (c : InfoCache) (slots : BitVec 64) : Outcome (BitVec 64 × ℕ) :=
  if 2 ^ 31 ≤ c.slot_size * 8 then .undefined else c.allocLoop slots c.slotCount 0

def dealloc_in_cache (c : InfoCache) (slots : BitVec 64) (pinfo : ℕ) : Outcome (BitVec 64) :=
  let slot := (pinfo - c.info_cache) / c.slot_size
  if 32 ≤ slot then .undefined else .returned (slots ^^^ bit slot)

/-! ### Runs -/

/-- A pointer that was handed out, with the bits of `slots` that were set for it. -/
structure Held where
  pinfo : ℕ
  slot : BitVec 64
  deriving DecidableEq

structure State where
  slots : BitVec 64
  held : List Held
  deriving DecidableEq

def State.init : State := ⟨0, []⟩

/-- A call of the manager; `dealloc i` is for the pointer held at place `i`. -/
inductive Call where
  | alloc
  | dealloc (i : ℕ)

def step (c : InfoCache) (s : State) : Call → Outcome State
  | .alloc =>
    match c.alloc_in_cache s.slots with
    | .returned (slots, pinfo) => .returned ⟨slots, ⟨pinfo, slots ^^^ s.slots⟩ :: s.held⟩
    | .exit => .exit
    | .undefined => .undefined
  | .dealloc i =>
    match s.held[i]? with
    | none => .returned s
    | some h =>
      match c.dealloc_in_cache s.slots h.pinfo with
      | .returned slots => .returned ⟨slots, s.held.eraseIdx i⟩
      | .exit => .exit
      | .undefined => .undefined

/-- The held ranges are apart and in the cache, and a release would clear the bits that
were set for the pointer and no others. -/
structure Good (c : InfoCache) (s : State) : Prop where
  apart : (s.held.map Held.pinfo).Pairwise (Apart c.pinfo_bytes)
  lower : ∀ h ∈ s.held, c.info_cache ≤ h.pinfo
  upper : ∀ h ∈ s.held, (h.pinfo + c.pinfo_bytes : ℤ) ≤ c.info_cache + c.cache_size
  frees : ∀ h ∈ s.held, s.slots &&& h.slot = h.slot ∧
    c.dealloc_in_cache s.slots h.pinfo = .returned (s.slots &&& ~~~h.slot)

/-- Every state of the run is good, and no call is undefined. -/
def Safe (c : InfoCache) (s : State) : List Call → Prop
  | [] => c.Good s
  | call :: calls => c.Good s ∧
    match c.step s call with
    | .returned s' => c.Safe s' calls
    | .exit => True
    | .undefined => False

/-- An allocation finds the cache empty or full, or the slots are of one byte and fewer are
held than the 32 that `slots` tells apart. -/
def Fits (c : InfoCache) (s : State) : Call → Prop
  | .alloc => c.slot_size * 8 < 2 ^ 31 ∧
    (s.held = [] ∨ c.slotCount ≤ s.held.length ∨ c.pinfo_bytes = 1 ∧ s.held.length < 32)
  | .dealloc _ => True

/-- Every call of the run fits. -/
def AllFit (c : InfoCache) (s : State) : List Call → Prop
  | [] => True
  | call :: calls => c.Fits s call ∧
    match c.step s call with
    | .returned s' => c.AllFit s' calls
    | _ => True

/-! ### The word of slots -/

theorem getLsbD_bit {x i : ℕ} (hx : x < 32) (hi : i < 64) :
    (bit x).getLsbD i = decide (min i 31 = x) := by
  rw [bit, BitVec.getLsbD_signExtend, BitVec.msb_eq_getLsbD_last]
  simp only [BitVec.getLsbD_shiftLeft, BitVec.getLsbD_one]
  grind

variable {c : InfoCache}

theorem slot_size_pos : 0 < c.slot_size := by
  have := c.one_le
  unfold slot_size
  split_ifs <;> omega

theorem pinfo_bytes_le : c.pinfo_bytes ≤ 8 * c.slot_size := by
  unfold slot_size
  split_ifs <;> omega

/-- Only slots of one byte are as large as what they are for. -/
theorem pinfo_bytes_le_slot_size_iff : c.pinfo_bytes ≤ c.slot_size ↔ c.pinfo_bytes = 1 := by
  have := c.one_le
  unfold slot_size
  split_ifs <;> omega

/-- A slot that the loop looks at ends inside the cache. -/
theorem slot_le_cache_size {x : ℕ} (hx : x < c.slotCount) :
    ((x * c.slot_size + c.pinfo_bytes : ℕ) : ℤ) ≤ c.cache_size := by
  have hs : (0 : ℤ) < c.slot_size * 8 := by exact_mod_cast Nat.mul_pos slot_size_pos (by decide)
  have hn : 0 ≤ c.cache_size := by
    by_contra hneg
    have htd : 0 ≤ (-c.cache_size).tdiv (c.slot_size * 8) := Int.tdiv_nonneg (by omega) hs.le
    rw [Int.neg_tdiv] at htd
    rw [slotCount] at hx
    omega
  have hq : (x : ℤ) + 1 ≤ c.cache_size / (c.slot_size * 8) := by
    have := hx
    rw [slotCount, Int.tdiv_eq_ediv_of_nonneg hn] at this
    omega
  have hmul := (Int.le_ediv_iff_mul_le hs).mp hq
  have hle := pinfo_bytes_le (c := c)
  have hxs : (0 : ℤ) ≤ x * c.slot_size := by positivity
  push_cast
  have : (c.pinfo_bytes : ℤ) ≤ 8 * c.slot_size := by exact_mod_cast hle
  linarith

/-- What is held while the slot `x` is. -/
def entry (c : InfoCache) (x : ℕ) : Held := ⟨c.info_cache + x * c.slot_size, bit x⟩

/-- The slots `xs` are held, and the word of slots says so. Bit 31 stands for the whole
upper half of the word. -/
structure Tracks (c : InfoCache) (s : State) (xs : List ℕ) : Prop where
  held : s.held = xs.map c.entry
  nodup : xs.Nodup
  lt : ∀ x ∈ xs, x < 32
  lt_slotCount : ∀ x ∈ xs, x < c.slotCount
  bits : ∀ i, i < 64 → (s.slots.getLsbD i = true ↔ min i 31 ∈ xs)

theorem Tracks.init : Tracks c State.init [] where
  held := rfl
  nodup := .nil
  lt := nofun
  lt_slotCount := nofun
  bits i hi := by simp [State.init]

/-- `x` is the lowest slot that is not among `xs`. -/
def FirstFree (xs : List ℕ) (x : ℕ) : Prop := x ∉ xs ∧ ∀ y < x, y ∈ xs

/-- How `alloc_in_cache` ends while the slots `xs` are held. -/
def AllocSpec (c : InfoCache) (slots : BitVec 64) (xs : List ℕ) : Outcome (BitVec 64 × ℕ) → Prop
  | .returned r => ∃ x < 32, x < c.slotCount ∧ FirstFree xs x ∧
      r = (slots ||| bit x, c.info_cache + x * c.slot_size)
  | .exit => ∀ x < c.slotCount, x ∈ xs
  | .undefined => 32 < c.slotCount ∧ (∀ x < 32, x ∈ xs) ∨
      ∃ x < 32, x < c.slotCount ∧ FirstFree xs x ∧ 2 ^ 31 ≤ x * c.slot_size

section Slots

variable {s : State} {xs : List ℕ} (h : Tracks c s xs)

include h

theorem Tracks.free_iff {x : ℕ} (hx : x < 32) : s.slots &&& bit x = 0 ↔ x ∉ xs := by
  constructor
  · intro h0 hmem
    have hb := (h.bits x (by omega)).mpr (by rwa [Nat.min_eq_left (by omega)])
    have hand := congrArg (BitVec.getLsbD · x) h0
    simp only [BitVec.getLsbD_and, hb, getLsbD_bit hx (show x < 64 by omega)] at hand
    simp at hand
    omega
  · intro hmem
    refine BitVec.eq_of_getLsbD_eq fun i hi => ?_
    rw [BitVec.getLsbD_and, getLsbD_bit hx hi]
    have := h.bits i hi
    grind

theorem Tracks.allocLoop_spec {n x : ℕ} (hn : x + n = c.slotCount) (hx : ∀ y < x, y ∈ xs) :
    AllocSpec c s.slots xs (c.allocLoop s.slots n x) := by
  induction n generalizing x with
  | zero => exact fun y hy => hx y (by omega)
  | succ n ih =>
    unfold allocLoop
    split_ifs with h32 hfree hlarge
    · exact .inl ⟨by have := fun hlt => h.lt x (hx x hlt); omega, fun y hy => hx y (by omega)⟩
    · have hx32 : x < 32 := by omega
      exact .inr ⟨x, hx32, by omega, ⟨(h.free_iff hx32).mp hfree, hx⟩, hlarge⟩
    · have hx32 : x < 32 := by omega
      exact ⟨x, hx32, by omega, ⟨(h.free_iff hx32).mp hfree, hx⟩, rfl⟩
    · have hheld : x ∈ xs := by
        by_contra hmem
        exact hfree ((h.free_iff (by omega)).mpr hmem)
      refine ih (by omega) fun y hy => ?_
      obtain hy | rfl := Nat.lt_succ_iff_lt_or_eq.mp hy
      · exact hx y hy
      · exact hheld

theorem Tracks.alloc_spec (hs : c.slot_size * 8 < 2 ^ 31) :
    AllocSpec c s.slots xs (c.alloc_in_cache s.slots) := by
  rw [alloc_in_cache, if_neg (by omega)]
  exact h.allocLoop_spec (Nat.zero_add _) nofun

/-- A free slot is entered by setting its bits. -/
theorem Tracks.alloc {x : ℕ} (hx : x < 32) (hcount : x < c.slotCount) (hfree : x ∉ xs) :
    Tracks c ⟨s.slots ||| bit x, ⟨c.info_cache + x * c.slot_size,
      (s.slots ||| bit x) ^^^ s.slots⟩ :: s.held⟩ (x :: xs) where
  held := by
    have hbit := Bits.or_xor_of_and_eq_zero ((h.free_iff hx).mpr hfree)
    simp only [hbit, h.held, List.map_cons, entry]
  nodup := List.nodup_cons.mpr ⟨hfree, h.nodup⟩
  lt := List.forall_mem_cons.mpr ⟨hx, h.lt⟩
  lt_slotCount := List.forall_mem_cons.mpr ⟨hcount, h.lt_slotCount⟩
  bits i hi := by
    rw [BitVec.getLsbD_or, Bool.or_eq_true, h.bits i hi, getLsbD_bit hx hi, decide_eq_true_eq,
      List.mem_cons, or_comm]

/-- The slot is computed back from the pointer, and its bits are set. -/
theorem Tracks.dealloc_in_cache {x : ℕ} (hx : x ∈ xs) :
    c.dealloc_in_cache s.slots (c.entry x).pinfo = .returned (s.slots ^^^ bit x) := by
  have hslot : ((c.entry x).pinfo - c.info_cache) / c.slot_size = x := by
    rw [entry, Nat.add_sub_cancel_left, Nat.mul_div_cancel _ slot_size_pos]
  have := h.lt x hx
  rw [InfoCache.dealloc_in_cache, hslot, if_neg (by omega)]

theorem Tracks.and_bit {x : ℕ} (hx : x ∈ xs) : s.slots &&& bit x = bit x := by
  refine BitVec.eq_of_getLsbD_eq fun i hi => ?_
  rw [BitVec.getLsbD_and, getLsbD_bit (h.lt x hx) hi]
  have := h.bits i hi
  grind

/-- A release enters a slot as free by toggling its bits, which are all set. -/
theorem Tracks.dealloc {i x : ℕ} (hx : xs[i]? = some x) :
    Tracks c ⟨s.slots ^^^ bit x, s.held.eraseIdx i⟩ (xs.eraseIdx i) where
  held := by rw [h.held, List.eraseIdx_map]
  nodup := h.nodup.eraseIdx i
  lt y hy := h.lt y (List.mem_of_mem_eraseIdx hy)
  lt_slotCount y hy := h.lt_slotCount y (List.mem_of_mem_eraseIdx hy)
  bits j hj := by
    have hmem : x ∈ xs := List.mem_of_getElem? hx
    have hy : ∀ y, y ∈ xs.eraseIdx i ↔ y ≠ x ∧ y ∈ xs := by
      obtain ⟨hi, rfl⟩ := List.getElem?_eq_some_iff.mp hx
      rw [← h.nodup.erase_getElem i hi]
      exact fun y => h.nodup.mem_erase_iff
    rw [BitVec.getLsbD_xor, getLsbD_bit (h.lt x hmem) hj, hy]
    have := h.bits j hj
    grind

end Slots

/-! ### One call -/

theorem le_length_of_forall_mem {xs : List ℕ} {n : ℕ} (hn : ∀ x < n, x ∈ xs) :
    n ≤ xs.length := by
  have hsub : List.range n ⊆ xs := fun x hx => hn x (List.mem_range.mp hx)
  simpa using (List.subperm_of_subset List.nodup_range hsub).length_le

section Step

variable {s : State} {xs : List ℕ} (h : Tracks c s xs)
  (hone : c.pinfo_bytes ≠ 1 → ∀ x ∈ xs, x = 0)

include h

theorem Tracks.length_held : s.held.length = xs.length := by
  rw [h.held, List.length_map]

theorem Tracks.length_le {n : ℕ} (hn : ∀ x ∈ xs, x < n) : xs.length ≤ n := by
  have hsub : xs ⊆ List.range n := fun x hx => List.mem_range.mpr (hn x hx)
  simpa using (List.subperm_of_subset h.nodup hsub).length_le

/-- As many slots as there are below `n` are all of them. -/
theorem Tracks.mem_of_length {n : ℕ} (hn : ∀ x ∈ xs, x < n) (hlen : n ≤ xs.length) {x : ℕ}
    (hx : x < n) : x ∈ xs := by
  have hsub : xs ⊆ List.range n := fun x hx => List.mem_range.mpr (hn x hx)
  have hperm := (List.subperm_of_subset h.nodup hsub).perm_of_length_le (by simpa using hlen)
  exact hperm.mem_iff.mpr (List.mem_range.mpr hx)

include hone

theorem Tracks.good : Good c s where
  apart := by
    rw [h.held, List.map_map, List.pairwise_map]
    refine h.nodup.imp_of_mem fun {a b} ha hb hab => ?_
    by_cases hp : c.pinfo_bytes = 1
    · have hs := (pinfo_bytes_le_slot_size_iff (c := c)).mpr hp
      simp only [Apart, Function.comp, entry]
      obtain hlt | hlt := Nat.lt_or_gt_of_ne hab
      · have := Nat.mul_le_mul_right c.slot_size hlt
        rw [Nat.succ_mul] at this
        omega
      · have := Nat.mul_le_mul_right c.slot_size hlt
        rw [Nat.succ_mul] at this
        omega
    · exact absurd ((hone hp a ha).trans (hone hp b hb).symm) hab
  lower := by
    rw [h.held]
    exact List.forall_mem_map.mpr fun x _ => Nat.le_add_right _ _
  upper := by
    rw [h.held]
    refine List.forall_mem_map.mpr fun x hx => ?_
    have := slot_le_cache_size (h.lt_slotCount x hx)
    simp only [entry]
    push_cast at this ⊢
    linarith
  frees := by
    rw [h.held]
    refine List.forall_mem_map.mpr fun x hx => ⟨h.and_bit hx, ?_⟩
    rw [h.dealloc_in_cache hx, Bits.xor_of_and_eq (h.and_bit hx)]
    rfl

/-- A call that fits keeps the slots tracked. -/
theorem Tracks.step_fits {call : Call} (hfit : c.Fits s call) :
    match c.step s call with
    | .returned s' => ∃ xs', Tracks c s' xs' ∧ (c.pinfo_bytes ≠ 1 → ∀ x ∈ xs', x = 0)
    | .exit => True
    | .undefined => False := by
  cases call with
  | alloc =>
    obtain ⟨hs, hfit⟩ := hfit
    have hspec := h.alloc_spec hs
    rw [h.length_held, h.held, List.map_eq_nil_iff] at hfit
    -- a slot that is taken is slot 0 or of one byte, at an offset that is no overflow
    have htaken : ∀ x < 32, x < c.slotCount → FirstFree xs x →
        x * c.slot_size < 2 ^ 31 ∧ (c.pinfo_bytes ≠ 1 → ∀ y ∈ x :: xs, y = 0) := by
      intro x hx32 hcount hfree
      obtain rfl | hfull | ⟨hp, -⟩ := hfit
      · have hx : x = 0 := by
          by_contra hpos
          exact absurd (hfree.2 0 (Nat.pos_of_ne_zero hpos)) nofun
        subst hx
        exact ⟨by omega, fun _ => by simp⟩
      · exact absurd (h.mem_of_length h.lt_slotCount hfull hcount) hfree.1
      · have hsize : c.slot_size = 1 := by
          unfold slot_size
          rw [hp]
          rfl
        exact ⟨by rw [hsize]; omega, fun hne => absurd hp hne⟩
    simp only [step]
    cases hx : c.alloc_in_cache s.slots with
    | exit => trivial
    | undefined =>
      rw [hx] at hspec
      obtain ⟨hcount, hall⟩ | ⟨x, hx32, hcount, hfree, hlarge⟩ := hspec
      · have hlen := le_length_of_forall_mem hall
        have hle := h.length_le h.lt
        obtain rfl | hfull | ⟨-, hlt⟩ := hfit
        · exact absurd hlen (by decide)
        · omega
        · omega
      · have := (htaken x hx32 hcount hfree).1
        omega
    | returned r =>
      rw [hx] at hspec
      obtain ⟨x, hx32, hcount, hfree, rfl⟩ := hspec
      exact ⟨x :: xs, h.alloc hx32 hcount hfree.1, (htaken x hx32 hcount hfree).2⟩
  | dealloc i =>
    simp only [step]
    cases hi : s.held[i]? with
    | none => exact ⟨xs, h, hone⟩
    | some e =>
      rw [h.held, List.getElem?_map, Option.map_eq_some_iff] at hi
      obtain ⟨x, hx, rfl⟩ := hi
      simp only [h.dealloc_in_cache (List.mem_of_getElem? hx)]
      exact ⟨_, h.dealloc hx, fun hp y hy => hone hp y (List.mem_of_mem_eraseIdx hy)⟩

/-- One that does not is undefined or hands out a range that overlaps another. -/
theorem Tracks.step_not_fits {call : Call} (hfit : ¬ c.Fits s call) :
    match c.step s call with
    | .returned s' => ¬ c.Good s'
    | .exit => False
    | .undefined => True := by
  cases call with
  | dealloc i => exact absurd trivial hfit
  | alloc =>
    simp only [step]
    by_cases hs : c.slot_size * 8 < 2 ^ 31
    · have hspec := h.alloc_spec hs
      simp only [Fits, hs, true_and, h.held, List.length_map, List.map_eq_nil_iff, not_or,
        not_and, not_le, not_lt] at hfit
      obtain ⟨hne, hroom, hword⟩ := hfit
      cases hx : c.alloc_in_cache s.slots with
      | undefined => trivial
      | exit =>
        rw [hx] at hspec
        have := le_length_of_forall_mem hspec
        omega
      | returned r =>
        rw [hx] at hspec
        obtain ⟨x, hx32, hcount, hfree, rfl⟩ := hspec
        have hp : c.pinfo_bytes ≠ 1 := fun hp =>
          hfree.1 (h.mem_of_length h.lt (hword hp) hx32)
        -- slot 0 is the one held, so that slot 1 is taken
        obtain ⟨y, hy⟩ := List.exists_mem_of_ne_nil xs hne
        obtain rfl := hone hp y hy
        have hx1 : x = 1 := by
          have h0 : x ≠ 0 := fun h0 => hfree.1 (h0 ▸ hy)
          have h2 : ¬ 1 < x := fun h1 => absurd (hone hp 1 (hfree.2 1 h1)) (by decide)
          omega
        subst hx1
        intro hgood
        have hapart := hgood.apart
        rw [List.map_cons, List.pairwise_cons] at hapart
        have h0 := hapart.1 (c.entry 0).pinfo (by
          rw [h.held, List.map_map]
          exact List.mem_map_of_mem hy)
        have := (pinfo_bytes_le_slot_size_iff (c := c)).not.mpr hp
        have := c.one_le
        simp only [Apart, entry] at h0
        omega
    · rw [alloc_in_cache, if_pos (by omega)]
      trivial

end Step

/-- A run keeps the held ranges apart and in the cache, and each release frees the slot of
its pointer, exactly when every call fits. -/
theorem safe_iff_allFit (c : InfoCache) (calls : List Call) :
    c.Safe State.init calls ↔ c.AllFit State.init calls := by
  have hrun : ∀ (calls : List Call) {s xs}, Tracks c s xs →
      (c.pinfo_bytes ≠ 1 → ∀ x ∈ xs, x = 0) → (c.Safe s calls ↔ c.AllFit s calls) := by
    intro calls
    induction calls with
    | nil => exact fun h hone => iff_of_true (h.good hone) trivial
    | cons call calls ih =>
      intro s xs h hone
      simp only [Safe, AllFit, h.good hone, true_and]
      by_cases hfit : c.Fits s call
      · have hstep := h.step_fits hone hfit
        simp only [hfit, true_and]
        cases hs : c.step s call with
        | exit => trivial
        | undefined =>
          rw [hs] at hstep
          exact hstep.elim
        | returned s' =>
          rw [hs] at hstep
          obtain ⟨xs', h', hone'⟩ := hstep
          exact ih h' hone'
      · have hstep := h.step_not_fits hone hfit
        simp only [hfit, false_and, iff_false]
        cases hs : c.step s call with
        | exit =>
          rw [hs] at hstep
          exact hstep.elim
        | undefined => exact id
        | returned s' =>
          rw [hs] at hstep
          intro hsafe
          cases calls <;> simp only [Safe] at hsafe
          · exact hstep hsafe
          · exact hstep hsafe.1
  exact hrun calls Tracks.init nofun

/-- Two workers with a `pinfo` of eight bytes each: the second pointer is one byte after
the first. -/
theorem alloc_in_cache_overlaps :
    ¬ Safe ⟨.Scout, 2, 8, 4096, by decide, by decide⟩ State.init [.alloc, .alloc] := by
  intro h
  have hfirst : step ⟨.Scout, 2, 8, 4096, by decide, by decide⟩ State.init .alloc =
      .returned ⟨1, [⟨4096, 1⟩]⟩ := by decide
  have hsecond : step ⟨.Scout, 2, 8, 4096, by decide, by decide⟩ ⟨1, [⟨4096, 1⟩]⟩ .alloc =
      .returned ⟨3, [⟨4097, 2⟩, ⟨4096, 1⟩]⟩ := by decide
  simp only [Safe, hfirst, hsecond] at h
  exact absurd h.2.2.apart (by decide)

end InfoCache

end TaseVerifier
