import Mathlib.Data.List.Nodup
import Mathlib.Data.Option.Basic
import TaseVerifier.Library.Reading

/-! Multipass assignments and their transport between workers. `serializeAssignments`
writes the bindings into shared memory, `deserializeAssignments` reads them there and adds
them to another assignment. Memory is the list of bytes from the buffer's address on;
an access past its end faults, and an error exit of the source is `none` as well. -/

namespace TaseVerifier

open Library

/-- A symbolic array. The array cache keeps one object for each name and size, so the
two stand for the pointer. -/
structure SymArray where
  name : List Byte
  size : ℕ
  deriving DecidableEq

/-- `bindings` in the order of iteration, which is that of the keys' addresses. Every
bound array's name is known, and a known name leads to a bound array of that name. -/
structure CVAssignment where
  bindings : List (SymArray × List Byte)
  name_bindings : List (List Byte × SymArray)
  nodup : (bindings.map Prod.fst).Nodup
  named : ∀ a ∈ bindings.map Prod.fst, a.name ∈ name_bindings.map Prod.fst
  bound : ∀ p ∈ name_bindings, p.2.name = p.1 ∧ p.2 ∈ bindings.map Prod.fst

namespace CVAssignment

def empty : CVAssignment where
  bindings := []
  name_bindings := []
  nodup := List.nodup_nil
  named := by simp
  bound := by simp

/-- `std::map::insert`: a key that is there keeps its value. `before` orders the keys. -/
def insertNew {κ β : Type} [DecidableEq κ] (before : κ → κ → Bool) (k : κ) (v : β)
    (l : List (κ × β)) : List (κ × β) :=
  if k ∈ l.map Prod.fst then l else
    l.takeWhile (fun p => before p.1 k) ++ (k, v) :: l.dropWhile (fun p => before p.1 k)

section insertNew

variable {κ β : Type} [DecidableEq κ] {before : κ → κ → Bool} {k : κ} {v : β} {l : List (κ × β)}

theorem insertNew_of_mem (h : k ∈ l.map Prod.fst) : insertNew before k v l = l := if_pos h

theorem insertNew_perm (h : k ∉ l.map Prod.fst) : (insertNew before k v l).Perm ((k, v) :: l) := by
  rw [insertNew, if_neg h]
  refine List.perm_middle.trans ?_
  rw [List.takeWhile_append_dropWhile]

theorem keys_insertNew {x : κ} :
    x ∈ (insertNew before k v l).map Prod.fst ↔ x = k ∨ x ∈ l.map Prod.fst := by
  by_cases h : k ∈ l.map Prod.fst
  · rw [insertNew_of_mem h]
    exact ⟨.inr, fun hx => hx.elim (fun hk => hk ▸ h) id⟩
  · rw [((insertNew_perm h).map Prod.fst).mem_iff, List.map_cons, List.mem_cons]

theorem nodup_insertNew (h : (l.map Prod.fst).Nodup) :
    ((insertNew before k v l).map Prod.fst).Nodup := by
  by_cases hk : k ∈ l.map Prod.fst
  · rwa [insertNew_of_mem hk]
  · rw [((insertNew_perm hk).map Prod.fst).nodup_iff, List.map_cons, List.nodup_cons]
    exact ⟨hk, h⟩

end insertNew

section addBindings

/-! `addr` is the address at which the cache holds an array. -/

variable (addr : SymArray → ℕ)

/-- One round of `addBindings`. -/
def addBinding (cv : CVAssignment) (p : SymArray × List Byte) : CVAssignment where
  bindings := insertNew (fun a b => addr a < addr b) p.1 p.2 cv.bindings
  name_bindings := insertNew (fun s t => s < t) p.1.name p.1 cv.name_bindings
  nodup := nodup_insertNew cv.nodup
  named := by
    intro a ha
    rw [keys_insertNew] at ha ⊢
    exact ha.imp (fun h => by rw [h]) (cv.named a)
  bound := by
    intro q hq
    rw [keys_insertNew]
    by_cases hn : p.1.name ∈ cv.name_bindings.map Prod.fst
    · rw [insertNew_of_mem hn] at hq
      exact (cv.bound q hq).imp id .inr
    · rw [(insertNew_perm hn).mem_iff, List.mem_cons] at hq
      obtain rfl | hq := hq
      · exact ⟨rfl, .inl rfl⟩
      · exact (cv.bound q hq).imp id .inr

theorem bindings_addBinding (cv : CVAssignment) (p : SymArray × List Byte) :
    (addBinding addr cv p).bindings =
      insertNew (fun a b => addr a < addr b) p.1 p.2 cv.bindings := rfl

def addBindings (cv : CVAssignment) (objects : List SymArray) (values : List (List Byte)) :
    CVAssignment :=
  (objects.zip values).foldl (addBinding addr) cv

end addBindings

/-- The value bound to the array of a name. -/
def getBindings (cv : CVAssignment) (name : List Byte) : Option (List Byte) :=
  (cv.name_bindings.lookup name).bind fun a => cv.bindings.lookup a

/-! ### The writer -/

def ID_string_size : ℕ := 384

/-- Memory from the buffer's address on, divided at `itrPtr`. -/
structure Cursor where
  behind : List Byte
  ahead : List Byte

namespace Cursor

/-- Bytes are stored at `itrPtr`, which then points behind them. -/
def store (c : Cursor) (bytes : List Byte) : Option Cursor :=
  if bytes.length ≤ c.ahead.length then
    some ⟨c.behind ++ bytes, c.ahead.drop bytes.length⟩
  else none

/-- `itrPtr` moves over a byte that keeps its value. -/
def skip (c : Cursor) : Option Cursor :=
  match c.ahead with
  | [] => none
  | b :: ahead => some ⟨c.behind ++ [b], ahead⟩

end Cursor

/-- The two bytes of a `uint16_t` in memory. -/
def uint16Bytes (n : BitVec 16) : List Byte := [n.setWidth 8, (n >>> 8).setWidth 8]

/-- What `strncpy(dst, src, n)` stores: the string up to its terminator, filled up with
zeros. -/
def strncpy (src : List Byte) (n : ℕ) : List Byte :=
  let s := (src.takeWhile (· != 0#8)).take n
  s ++ List.replicate (n - s.length) 0#8

/-- The lengths are cut to `uint16_t`. -/
def storeRecord (c : Cursor) (p : SymArray × List Byte) : Option Cursor := do
  guard (¬p.1.name.length > 0xFFFFFFFF)
  let nameSize := BitVec.ofNat 16 p.1.name.length
  let c ← c.store (uint16Bytes nameSize)
  guard (¬p.2.length > 0xFFFFFFFF)
  let dataSize := BitVec.ofNat 16 p.2.length
  let c ← c.store (uint16Bytes dataSize)
  let c ← c.store (p.1.name.take nameSize.toNat)
  c.store (p.2.take dataSize.toNat)

/-- The memory after the call. The number of bytes is compared with `bufSize` as
`uint64_t` and does not count the footer. -/
def serializeAssignments (cv : CVAssignment) (curr_unique_log_ID buf : List Byte)
    (bufSize : BitVec 32) : Option (List Byte) := do
  guard (¬cv.bindings.length > 0xFFFFFFFF)
  let assignments := BitVec.ofNat 16 cv.bindings.length
  let c : Cursor := ⟨[], buf⟩
  let c ← c.store [123]
  let c ← c.store (uint16Bytes assignments)
  let c ← c.store (strncpy curr_unique_log_ID (ID_string_size - 1))
  let c ← c.skip
  let c ← cv.bindings.foldlM storeRecord c
  let last ← c.store [210]
  guard (¬c.behind.length > (bufSize.signExtend 64).toNat)
  return last.behind ++ last.ahead

/-! ### The reader -/

def takeByte : Reader Byte Byte := fun mem =>
  match mem with
  | [] => none
  | b :: mem => some (b, mem)

def takeBytes (n : ℕ) : Reader Byte {l : List Byte // l.length = n} := takeByte.many n

def takeUint16 : Reader Byte (BitVec 16) := do
  let lo ← takeByte
  let hi ← takeByte
  return lo.setWidth 16 + (hi.setWidth 16 <<< 8)

/-- The name is what `std::string` makes of the zero-terminated copy. -/
def takeRecord : Reader Byte (SymArray × List Byte) := do
  let nameSize ← takeUint16
  let dataSize ← takeUint16
  let tmpBuf ← takeBytes nameSize.toNat
  let data ← takeBytes dataSize.toNat
  return (⟨tmpBuf.1.takeWhile (· != 0#8), dataSize.toNat⟩, data.1)

/-- The records of a buffer and the name of the log of the worker that wrote it. That
name is copied without its last byte into `nameTmpBuf`, behind which `stack` lies. -/
def takeAssignments (stack : List Byte) : Reader Byte (List (SymArray × List Byte) × List Byte) := do
  let magic ← takeByte
  guard (magic = 123)
  let numRecords ← takeUint16
  let id ← takeBytes (ID_string_size - 1)
  let _ ← takeByte
  let records ← takeRecord.many numRecords.toNat
  let footer ← takeByte
  guard (footer = 210)
  return (records.1, (strncpy id.1 (ID_string_size - 1) ++ stack).takeWhile (· != 0#8))

/-- The assignment after the call and the new `prev_worker_ID`. -/
def deserializeAssignments (addr : SymArray → ℕ) (stack mem : List Byte) (CV : CVAssignment) :
    Option (CVAssignment × List Byte) :=
  (takeAssignments stack mem).map fun r =>
    (CV.addBindings addr (r.1.1.map Prod.fst) (r.1.1.map Prod.snd), r.1.2)

/-! ### Values by name -/

section lookup

variable {κ β : Type} [BEq κ] [LawfulBEq κ] {l : List (κ × β)} {k : κ} {v : β}

theorem mem_of_lookup (h : l.lookup k = some v) : (k, v) ∈ l := by
  obtain ⟨l₁, l₂, rfl, -⟩ := List.lookup_eq_some_iff.mp h
  simp

theorem exists_lookup (h : k ∈ l.map Prod.fst) : ∃ v, l.lookup k = some v := by
  rw [← Option.isSome_iff_exists, List.lookup_isSome_iff]
  obtain ⟨p, hp, rfl⟩ := List.mem_map.mp h
  exact ⟨p, hp, by simp⟩

theorem lookup_of_mem (hn : (l.map Prod.fst).Nodup) (h : (k, v) ∈ l) : l.lookup k = some v := by
  obtain ⟨v', hv'⟩ := exists_lookup (List.mem_map_of_mem h)
  have hp := List.inj_on_of_nodup_map hn h (mem_of_lookup hv') rfl
  rw [hv', (Prod.mk.inj hp).2]

end lookup

theorem mem_of_getBindings {cv : CVAssignment} {name d : List Byte}
    (h : cv.getBindings name = some d) : ∃ a, (a, d) ∈ cv.bindings ∧ a.name = name := by
  obtain ⟨a, ha, hd⟩ := Option.bind_eq_some_iff.mp h
  exact ⟨a, mem_of_lookup hd, (cv.bound _ (mem_of_lookup ha)).1⟩

/-- The names of the bound arrays differ. -/
def DistinctNames (l : List (SymArray × List Byte)) : Prop := (l.map fun p => p.1.name).Nodup

instance : DecidablePred DistinctNames := fun _ => inferInstanceAs (Decidable (List.Nodup _))

theorem DistinctNames.eq_of_mem {l : List (SymArray × List Byte)} (h : DistinctNames l)
    {p q : SymArray × List Byte} (hp : p ∈ l) (hq : q ∈ l) (hn : p.1.name = q.1.name) : p = q :=
  List.inj_on_of_nodup_map h hp hq hn

theorem getBindings_eq_some_iff {cv : CVAssignment} (h : DistinctNames cv.bindings)
    {name d : List Byte} :
    cv.getBindings name = some d ↔ ∃ a, (a, d) ∈ cv.bindings ∧ a.name = name := by
  refine ⟨mem_of_getBindings, ?_⟩
  rintro ⟨a, hmem, rfl⟩
  obtain ⟨a', ha'⟩ := exists_lookup (cv.named a (List.mem_map_of_mem hmem))
  obtain ⟨hn, hb⟩ := cv.bound _ (mem_of_lookup ha')
  obtain ⟨⟨_, d'⟩, hmem', rfl⟩ := List.mem_map.mp hb
  obtain ⟨rfl, rfl⟩ := Prod.mk.inj (h.eq_of_mem hmem' hmem hn)
  exact Option.bind_eq_some_iff.mpr ⟨_, ha', lookup_of_mem cv.nodup hmem'⟩

/-! ### Added bindings -/

theorem zip_fst_snd {κ β : Type} (l : List (κ × β)) :
    (l.map Prod.fst).zip (l.map Prod.snd) = l := by
  rw [List.zip_map', List.map_id']

theorem bindings_foldl_addBinding (addr : SymArray → ℕ) {l : List (SymArray × List Byte)}
    {cv : CVAssignment} (h : ((cv.bindings ++ l).map Prod.fst).Nodup) :
    (l.foldl (addBinding addr) cv).bindings.Perm (cv.bindings ++ l) := by
  induction l generalizing cv with
  | nil => simp
  | cons p l ih =>
    have hp : p.1 ∉ cv.bindings.map Prod.fst := by
      intro hmem
      rw [List.map_append, List.map_cons] at h
      exact (List.nodup_append.mp h).2.2 _ hmem _ List.mem_cons_self rfl
    have hperm : ((addBinding addr cv p).bindings ++ l).Perm (cv.bindings ++ p :: l) := by
      rw [bindings_addBinding]
      exact ((insertNew_perm hp).append_right l).trans List.perm_middle.symm
    refine (ih ?_).trans hperm
    rwa [(hperm.map Prod.fst).nodup_iff]

theorem mem_foldl_addBinding (addr : SymArray → ℕ) {l : List (SymArray × List Byte)}
    {cv : CVAssignment} {p : SymArray × List Byte}
    (h : p ∈ (l.foldl (addBinding addr) cv).bindings) : p ∈ cv.bindings ∨ p ∈ l := by
  induction l generalizing cv with
  | nil => exact .inl h
  | cons q l ih =>
    obtain hb | hl := ih h
    · rw [bindings_addBinding] at hb
      by_cases hq : q.1 ∈ cv.bindings.map Prod.fst
      · rw [insertNew_of_mem hq] at hb
        exact .inl hb
      · rw [(insertNew_perm hq).mem_iff, List.mem_cons] at hb
        exact hb.symm.imp id fun hpq => by rw [hpq]; exact List.mem_cons_self
    · exact .inr (List.mem_cons_of_mem q hl)

/-! ### The image in memory -/

def recordBytes (p : SymArray × List Byte) : List Byte :=
  uint16Bytes (BitVec.ofNat 16 p.1.name.length) ++ uint16Bytes (BitVec.ofNat 16 p.2.length) ++
    p.1.name.take (BitVec.ofNat 16 p.1.name.length).toNat ++
    p.2.take (BitVec.ofNat 16 p.2.length).toNat

/-- What the writer leaves; `b` is the byte it skips. -/
def imageBytes (cv : CVAssignment) (curr_unique_log_ID : List Byte) (b : Byte) : List Byte :=
  [123] ++ uint16Bytes (BitVec.ofNat 16 cv.bindings.length) ++
    strncpy curr_unique_log_ID (ID_string_size - 1) ++ [b] ++
    cv.bindings.flatMap recordBytes ++ [210]

theorem Cursor.behind_store {c c' : Cursor} {bytes : List Byte} (h : c.store bytes = some c') :
    c'.behind = c.behind ++ bytes := by
  unfold Cursor.store at h
  split at h
  · rw [← Option.some.inj h]
  · cases h

theorem Cursor.behind_skip {c c' : Cursor} (h : c.skip = some c') :
    ∃ b, c'.behind = c.behind ++ [b] := by
  unfold Cursor.skip at h
  split at h
  · cases h
  · exact ⟨_, by rw [← Option.some.inj h]⟩

theorem behind_storeRecord {c c' : Cursor} {p : SymArray × List Byte}
    (h : storeRecord c p = some c') : c'.behind = c.behind ++ recordBytes p := by
  simp only [storeRecord, Option.bind_eq_bind, Option.bind_eq_some_iff] at h
  obtain ⟨-, -, c₁, h₁, -, -, c₂, h₂, c₃, h₃, h₄⟩ := h
  rw [Cursor.behind_store h₄, Cursor.behind_store h₃, Cursor.behind_store h₂,
    Cursor.behind_store h₁, recordBytes]
  simp only [List.append_assoc]

theorem behind_storeRecords {l : List (SymArray × List Byte)} {c c' : Cursor}
    (h : l.foldlM storeRecord c = some c') : c'.behind = c.behind ++ l.flatMap recordBytes := by
  induction l generalizing c with
  | nil =>
    obtain rfl : c = c' := by simpa using h
    simp
  | cons p l ih =>
    rw [List.foldlM_cons, Option.bind_eq_bind, Option.bind_eq_some_iff] at h
    obtain ⟨c₁, h₁, h⟩ := h
    rw [ih h, behind_storeRecord h₁, List.flatMap_cons, List.append_assoc]

theorem serializeAssignments_image {cv : CVAssignment} {id buf : List Byte} {bufSize : BitVec 32}
    {mem : List Byte} (h : serializeAssignments cv id buf bufSize = some mem) :
    ∃ b rest, mem = imageBytes cv id b ++ rest := by
  simp only [serializeAssignments, Option.bind_eq_bind, Option.bind_eq_some_iff] at h
  obtain ⟨-, -, c₁, h₁, c₂, h₂, c₃, h₃, c₄, h₄, c₅, h₅, c₆, h₆, -, -, hm⟩ := h
  obtain ⟨b, hb⟩ := Cursor.behind_skip h₄
  refine ⟨b, c₆.ahead, ?_⟩
  rw [← Option.some.inj hm, Cursor.behind_store h₆, behind_storeRecords h₅, hb,
    Cursor.behind_store h₃, Cursor.behind_store h₂, Cursor.behind_store h₁]
  simp only [imageBytes, List.append_assoc, List.nil_append]

/-! ### Reading the image -/

theorem reads_byte (b : Byte) : Reads takeByte [b] b := fun _ => rfl

theorem reads_bytes {n : ℕ} {l : List Byte} (h : l.length = n) : Reads (takeBytes n) l ⟨l, h⟩ := by
  have hm := Reads.many (fun b => [b]) (fun b (_ : b ∈ l) => reads_byte b) h
  rwa [show (l.flatMap fun b => [b]) = l by simp] at hm

theorem reads_uint16 (n : BitVec 16) : Reads takeUint16 (uint16Bytes n) n := by
  have hn : (n.setWidth 8).setWidth 16 + (((n >>> 8).setWidth 8).setWidth 16 <<< 8) = n := by
    apply BitVec.eq_of_toNat_eq
    simp only [BitVec.toNat_add, BitVec.toNat_shiftLeft, BitVec.toNat_setWidth,
      BitVec.toNat_ushiftRight, Nat.shiftLeft_eq, Nat.shiftRight_eq_div_pow]
    have := n.isLt
    omega
  have h : Reads takeUint16 (uint16Bytes n)
      ((n.setWidth 8).setWidth 16 + (((n >>> 8).setWidth 8).setWidth 16 <<< 8)) :=
    (reads_byte _).bind (reads_byte _).bind_pure
  rwa [hn] at h

/-- The record that is read for a binding: the array has the size of its data. -/
def restored (p : SymArray × List Byte) : SymArray × List Byte := (⟨p.1.name, p.2.length⟩, p.2)

theorem toNat_ofNat16 {n : ℕ} (h : n < 2 ^ 16) : (BitVec.ofNat 16 n).toNat = n := by
  rw [BitVec.toNat_ofNat]
  exact Nat.mod_eq_of_lt h

theorem reads_record {p : SymArray × List Byte} (hnul : 0#8 ∉ p.1.name)
    (hname : p.1.name.length < 2 ^ 16) (hdata : p.2.length < 2 ^ 16) :
    Reads takeRecord (recordBytes p) (restored p) := by
  have hn := toNat_ofNat16 hname
  have hd := toNat_ofNat16 hdata
  have hr : restored p = (⟨p.1.name.takeWhile (· != 0#8), (BitVec.ofNat 16 p.2.length).toNat⟩,
      p.2) := by rw [takeWhile_bne hnul, hd, restored]
  have hb : recordBytes p = uint16Bytes (BitVec.ofNat 16 p.1.name.length) ++
      (uint16Bytes (BitVec.ofNat 16 p.2.length) ++ (p.1.name ++ p.2)) := by
    rw [recordBytes, hn, hd, List.take_length, List.take_length, List.append_assoc,
      List.append_assoc]
  rw [hr, hb]
  exact (reads_uint16 _).bind ((reads_uint16 _).bind ((reads_bytes hn.symm).bind
    (reads_bytes hd.symm).bind_pure))

/-- An assignment whose counts all fit in the `uint16_t` fields of the image. -/
def Fits (cv : CVAssignment) : Prop :=
  cv.bindings.length < 2 ^ 16 ∧
    ∀ p ∈ cv.bindings, p.1.name.length < 2 ^ 16 ∧ p.2.length < 2 ^ 16

theorem strncpy_length (src : List Byte) (n : ℕ) : (strncpy src n).length = n := by
  simp only [strncpy, List.length_append, List.length_replicate, List.length_take]
  omega

theorem reads_assignments {cv : CVAssignment} (hnul : ∀ p ∈ cv.bindings, 0#8 ∉ p.1.name)
    (hfit : cv.Fits) (stack id : List Byte) (b : Byte) :
    Reads (takeAssignments stack) (imageBytes cv id b) (cv.bindings.map restored,
      (strncpy (strncpy id (ID_string_size - 1)) (ID_string_size - 1) ++ stack).takeWhile
        (· != 0#8)) := by
  have hrec : Reads (takeRecord.many (BitVec.ofNat 16 cv.bindings.length).toNat)
      (cv.bindings.flatMap recordBytes) ⟨cv.bindings.map restored, by
        rw [List.length_map, toNat_ofNat16 hfit.1]⟩ := by
    have hb : cv.bindings.flatMap recordBytes = (cv.bindings.map restored).flatMap recordBytes := by
      rw [List.flatMap_map]
      rfl
    rw [hb]
    refine Reads.many _ ?_ _
    intro p hp
    obtain ⟨q, hq, rfl⟩ := List.mem_map.mp hp
    obtain ⟨hn, hd⟩ := hfit.2 q hq
    exact reads_record (hnul q hq) hn hd
  simp only [imageBytes, List.append_assoc]
  refine (reads_byte _).bind ((Reads.check rfl).bind ?_)
  refine (reads_uint16 _).bind ((reads_bytes (strncpy_length _ _)).bind ((reads_byte _).bind
    (hrec.bind ?_)))
  exact (reads_byte _).bind (u := []) ((Reads.check rfl).bind (Reads.pure _))

/-! ### What can be read at all -/

theorem returns_byte : Returns takeByte fun _ _ => True := by
  intro mem b rest h
  cases mem with
  | nil => cases h
  | cons b' mem =>
    obtain ⟨rfl, rfl⟩ := Prod.mk.inj (Option.some.inj h)
    exact ⟨1, by rw [List.length_cons, Nat.add_comm], trivial⟩

theorem returns_bytes (n : ℕ) : Returns (takeBytes n) fun _ _ => True :=
  (Returns.many (fun _ => 0) (fun _ => True)
    (returns_byte.mono fun _ _ _ => ⟨Nat.zero_le _, trivial⟩) n).mono fun _ _ _ => trivial

theorem returns_uint16 : Returns takeUint16 fun _ _ => True :=
  returns_byte.bind fun _ _ _ => returns_byte.bind fun _ _ _ => Returns.pure trivial

theorem returns_record : Returns takeRecord fun _ p =>
    p.1.name.length < 2 ^ 16 ∧ p.2.length < 2 ^ 16 := by
  refine returns_uint16.bind fun _ nameSize _ => returns_uint16.bind fun _ dataSize _ =>
    (returns_bytes _).bind fun _ tmpBuf _ => (returns_bytes _).bind fun _ data _ =>
      Returns.pure ⟨?_, ?_⟩
  · have hle := (List.takeWhile_prefix (l := tmpBuf.1) (· != 0#8)).length_le
    have := nameSize.isLt
    have := tmpBuf.2
    dsimp only
    omega
  · dsimp only
    rw [data.2]
    exact dataSize.isLt

theorem returns_assignments (stack : List Byte) : Returns (takeAssignments stack) fun _ r =>
    r.1.length < 2 ^ 16 ∧ ∀ p ∈ r.1, p.1.name.length < 2 ^ 16 ∧ p.2.length < 2 ^ 16 := by
  refine returns_byte.bind fun _ _ _ => (Returns.check _).bind fun _ _ _ =>
    returns_uint16.bind fun _ n _ => (returns_bytes _).bind fun _ _ _ =>
    returns_byte.bind fun _ _ _ => (Returns.many (fun _ => 0) _
      (returns_record.mono fun _ _ h => ⟨Nat.zero_le _, h⟩) _).bind fun _ records hr =>
    returns_byte.bind fun _ _ _ => (Returns.check _).bind fun _ _ _ => Returns.pure ⟨?_, hr.2⟩
  dsimp only
  rw [records.2]
  exact n.isLt

/-! ### The round trip -/

/-- Read into an empty assignment, the memory gives every name the value it has in `cv`. -/
def RestoredFrom (cv : CVAssignment) (addr : SymArray → ℕ) (stack mem : List Byte) : Prop :=
  ∃ cv' id, deserializeAssignments addr stack mem empty = some (cv', id) ∧
    ∀ name, cv'.getBindings name = cv.getBindings name

theorem restoredFrom_of_fits {cv : CVAssignment} (hdist : DistinctNames cv.bindings)
    (hnul : ∀ p ∈ cv.bindings, 0#8 ∉ p.1.name) (hfit : cv.Fits) (addr : SymArray → ℕ)
    (stack id rest : List Byte) (b : Byte) :
    cv.RestoredFrom addr stack (imageBytes cv id b ++ rest) := by
  have hr := reads_assignments hnul hfit stack id b rest
  refine ⟨_, _, by rw [deserializeAssignments, hr, Option.map_some], ?_⟩
  intro name
  have hdist' : DistinctNames (cv.bindings.map restored) := by
    unfold DistinctNames
    rw [List.map_map]
    exact hdist
  have hkeys : ((cv.bindings.map restored).map Prod.fst).Nodup :=
    List.Nodup.of_map SymArray.name (by rwa [List.map_map])
  have hperm : ((cv.bindings.map restored).foldl (addBinding addr) empty).bindings.Perm
      (cv.bindings.map restored) := bindings_foldl_addBinding addr hkeys
  apply Option.ext
  intro d
  dsimp only
  rw [addBindings, zip_fst_snd, getBindings_eq_some_iff hdist, getBindings_eq_some_iff]
  · simp only [hperm.mem_iff, List.mem_map]
    constructor
    · rintro ⟨_, ⟨⟨a, d'⟩, hmem, heq⟩, rfl⟩
      obtain ⟨rfl, rfl⟩ := Prod.mk.inj heq
      exact ⟨a, hmem, rfl⟩
    · rintro ⟨a, hmem, rfl⟩
      exact ⟨_, ⟨(a, d), hmem, rfl⟩, rfl⟩
  · exact (hperm.map fun p : SymArray × List Byte => p.1.name).nodup_iff.mpr hdist'

/-- Each name that is bound must have been read, and what is read fits. -/
theorem fits_of_restoredFrom {cv : CVAssignment} (hdist : DistinctNames cv.bindings)
    {addr : SymArray → ℕ} {stack mem : List Byte} (h : cv.RestoredFrom addr stack mem) :
    cv.Fits := by
  obtain ⟨cv', id, hd, hsame⟩ := h
  obtain ⟨⟨⟨records, name⟩, rest⟩, hr, heq⟩ := Option.map_eq_some_iff.mp hd
  obtain ⟨rfl, -⟩ := Prod.mk.inj heq
  obtain ⟨-, -, hlen, hfit⟩ := returns_assignments stack _ _ _ hr
  rw [addBindings, zip_fst_snd] at hsame
  have hread : ∀ p ∈ cv.bindings, ∃ q ∈ records, q.1.name = p.1.name ∧ q.2 = p.2 := by
    intro p hp
    have hg := (getBindings_eq_some_iff hdist).mpr ⟨p.1, hp, rfl⟩
    rw [← hsame] at hg
    obtain ⟨a, hmem, hname⟩ := mem_of_getBindings hg
    obtain hnil | hmem := mem_foldl_addBinding addr hmem
    · cases hnil
    · exact ⟨_, hmem, hname, rfl⟩
  constructor
  · have hsub : cv.bindings.map (fun p => p.1.name) ⊆ records.map fun p => p.1.name := by
      intro n hn
      obtain ⟨p, hp, rfl⟩ := List.mem_map.mp hn
      obtain ⟨q, hq, hqn, -⟩ := hread p hp
      exact List.mem_map.mpr ⟨q, hq, hqn⟩
    have hle := (List.subperm_of_subset hdist hsub).length_le
    rw [List.length_map, List.length_map] at hle
    exact hle.trans_lt hlen
  · intro p hp
    obtain ⟨q, hq, hqn, hqd⟩ := hread p hp
    rw [← hqn, ← hqd]
    exact hfit q hq

/-- A buffer written without an error exit restores the assignment exactly when the number
of arrays, each name's length and each value's length are below `2^16`. -/
theorem restoredFrom_iff {cv : CVAssignment} (hdist : DistinctNames cv.bindings)
    (hnul : ∀ p ∈ cv.bindings, 0#8 ∉ p.1.name) {id buf : List Byte} {bufSize : BitVec 32}
    {mem : List Byte} (h : serializeAssignments cv id buf bufSize = some mem)
    (addr : SymArray → ℕ) (stack : List Byte) :
    cv.RestoredFrom addr stack mem ↔ cv.bindings.length < 2 ^ 16 ∧
      ∀ p ∈ cv.bindings, p.1.name.length < 2 ^ 16 ∧ p.2.length < 2 ^ 16 := by
  obtain ⟨b, rest, rfl⟩ := serializeAssignments_image h
  exact ⟨fits_of_restoredFrom hdist, fun hfit => restoredFrom_of_fits hdist hnul hfit addr stack
    id rest b⟩

/-- One array `x` with the given value. -/
def single (data : List Byte) : CVAssignment :=
  empty.addBindings (fun _ => 0) [⟨[120], data.length⟩] [data]

/-- An assignment of one array of two bytes is restored. -/
theorem single_restored : ∃ mem, serializeAssignments (single [5, 6]) [82] (List.replicate 400 0) 400
    = some mem ∧ (single [5, 6]).RestoredFrom (fun _ => 0) [] mem := by
  have h : (serializeAssignments (single [5, 6]) [82] (List.replicate 400 0) 400).isSome := by
    decide +kernel
  obtain ⟨mem, hmem⟩ := Option.isSome_iff_exists.mp h
  exact ⟨mem, hmem, (restoredFrom_iff (by decide) (by decide) hmem _ _).mpr (by decide)⟩

theorem bindings_single (data : List Byte) :
    (single data).bindings = [(⟨[120], data.length⟩, data)] := rfl

/-- `2^16` bytes are stored like none. -/
theorem storeRecord_wide (c : Cursor) (name : List Byte) (m n : ℕ) :
    storeRecord c (⟨name, m⟩, List.replicate (2 ^ 16) 0) = storeRecord c (⟨name, n⟩, []) := by
  have h16 : BitVec.ofNat 16 (2 ^ 16) = BitVec.ofNat 16 0 := by decide
  have hle : ¬2 ^ 16 > 0xFFFFFFFF := by decide
  have hle' : ¬0 > 0xFFFFFFFF := by decide
  simp only [storeRecord, List.length_replicate, List.length_nil, h16, hle, hle']
  rfl

/-- A value of `2^16` bytes is written with the length 0, and without an error exit. -/
theorem wide_not_restored : ∃ mem,
    serializeAssignments (single (List.replicate (2 ^ 16) 0)) [82] (List.replicate 400 0) 400 =
      some mem ∧ ¬(single (List.replicate (2 ^ 16) 0)).RestoredFrom (fun _ => 0) [] mem := by
  have hsame : serializeAssignments (single (List.replicate (2 ^ 16) 0)) [82]
      (List.replicate 400 0) 400 = serializeAssignments (single []) [82] (List.replicate 400 0) 400 := by
    simp only [serializeAssignments, bindings_single, List.foldlM_cons, storeRecord_wide _ _ _ 0,
      List.length_cons, List.length_nil]
    rfl
  have hsome : (serializeAssignments (single []) [82] (List.replicate 400 0) 400).isSome := by
    decide +kernel
  obtain ⟨mem, hmem⟩ := Option.isSome_iff_exists.mp hsome
  refine ⟨mem, hsame.trans hmem, ?_⟩
  intro hr
  have hdist : DistinctNames (single (List.replicate (2 ^ 16) 0)).bindings := by
    rw [bindings_single]
    exact List.nodup_singleton _
  have hfit := (fits_of_restoredFrom hdist hr).2 _ (by rw [bindings_single]; exact List.mem_cons_self)
  have hlen := hfit.2
  rw [List.length_replicate] at hlen
  exact absurd hlen (lt_irrefl _)

/-! ### Where the writes go -/

/-- The place of the footer, behind the header, the name of the log and the records. -/
def footerOffset (cv : CVAssignment) : ℕ :=
  3 + ID_string_size + (cv.bindings.flatMap recordBytes).length

/-- Memory that ends with the buffer is enough for the call. -/
def WritesInside (cv : CVAssignment) (curr_unique_log_ID buf : List Byte) (bufSize : BitVec 32) :
    Prop :=
  (serializeAssignments cv curr_unique_log_ID (buf.take bufSize.toInt.toNat) bufSize).isSome = true

instance (cv : CVAssignment) (id buf : List Byte) (bufSize : BitVec 32) :
    Decidable (cv.WritesInside id buf bufSize) :=
  inferInstanceAs (Decidable (_ = true))

/-- The step moves `itrPtr` over `n` bytes, and faults when there are fewer. -/
def Advances (f : Cursor → Option Cursor) (n : ℕ) : Prop :=
  ∀ c, (c.ahead.length < n → f c = none) ∧
    (n ≤ c.ahead.length → ∃ c', f c = some c' ∧ c'.behind.length = c.behind.length + n ∧
      c'.ahead.length = c.ahead.length - n)

theorem advances_store (bytes : List Byte) : Advances (·.store bytes) bytes.length := by
  refine fun c => ⟨fun h => if_neg (by omega), fun h => ⟨_, if_pos h, ?_, ?_⟩⟩
  · rw [List.length_append]
  · rw [List.length_drop]

theorem advances_skip : Advances Cursor.skip 1 := by
  rintro ⟨behind, ahead⟩
  cases ahead with
  | nil => exact ⟨fun _ => rfl, fun h => absurd h (by simp)⟩
  | cons b ahead =>
    refine ⟨fun h => absurd h (by simp), fun _ => ⟨_, rfl, ?_, ?_⟩⟩
    · rw [List.length_append, List.length_singleton]
    · rw [List.length_cons, Nat.add_sub_cancel]

theorem Advances.bind {f g : Cursor → Option Cursor} {m n : ℕ} (hf : Advances f m)
    (hg : Advances g n) : Advances (fun c => (f c).bind g) (m + n) := by
  intro c
  by_cases hm : c.ahead.length < m
  · refine ⟨fun _ => ?_, fun h => absurd h (by omega)⟩
    dsimp only
    rw [(hf c).1 hm, Option.bind_none]
  · obtain ⟨c₁, h₁, hb₁, ha₁⟩ := (hf c).2 (Nat.le_of_not_lt hm)
    simp only [h₁, Option.bind_some]
    refine ⟨fun h => (hg c₁).1 (by omega), fun h => ?_⟩
    obtain ⟨c₂, h₂, hb₂, ha₂⟩ := (hg c₁).2 (by omega)
    exact ⟨c₂, h₂, by omega, by omega⟩

/-- The lengths that the checks of the writer let through. -/
def Admitted (cv : CVAssignment) : Prop :=
  cv.bindings.length ≤ 0xFFFFFFFF ∧
    ∀ p ∈ cv.bindings, p.1.name.length ≤ 0xFFFFFFFF ∧ p.2.length ≤ 0xFFFFFFFF

theorem advances_storeRecord {p : SymArray × List Byte} (hn : p.1.name.length ≤ 0xFFFFFFFF)
    (hd : p.2.length ≤ 0xFFFFFFFF) : Advances (storeRecord · p) (recordBytes p).length := by
  have h := (advances_store (uint16Bytes (BitVec.ofNat 16 p.1.name.length))).bind
    ((advances_store (uint16Bytes (BitVec.ofNat 16 p.2.length))).bind
      ((advances_store (p.1.name.take (BitVec.ofNat 16 p.1.name.length).toNat)).bind
        (advances_store (p.2.take (BitVec.ofNat 16 p.2.length).toNat))))
  have hlen : (recordBytes p).length = (uint16Bytes (BitVec.ofNat 16 p.1.name.length)).length +
      ((uint16Bytes (BitVec.ofNat 16 p.2.length)).length +
        ((p.1.name.take (BitVec.ofNat 16 p.1.name.length).toNat).length +
          (p.2.take (BitVec.ofNat 16 p.2.length).toNat).length)) := by
    simp only [recordBytes, List.length_append, Nat.add_assoc]
  have hn' : ¬p.1.name.length > 0xFFFFFFFF := Nat.not_lt.mpr hn
  have hd' : ¬p.2.length > 0xFFFFFFFF := Nat.not_lt.mpr hd
  intro c
  rw [hlen]
  simpa only [storeRecord, guard, hn', hd', not_false_eq_true, if_true, Option.bind_eq_bind,
    Option.pure_def, Option.bind_some] using h c

theorem advances_storeRecords {l : List (SymArray × List Byte)}
    (h : ∀ p ∈ l, p.1.name.length ≤ 0xFFFFFFFF ∧ p.2.length ≤ 0xFFFFFFFF) :
    Advances (l.foldlM storeRecord ·) (l.flatMap recordBytes).length := by
  induction l with
  | nil => exact fun c => ⟨fun h => absurd h (Nat.not_lt_zero _), fun _ => ⟨c, rfl, rfl, rfl⟩⟩
  | cons p l ih =>
    obtain ⟨hn, hd⟩ := h p List.mem_cons_self
    rw [List.flatMap_cons, List.length_append]
    exact (advances_storeRecord hn hd).bind (ih fun q hq => h q (List.mem_cons_of_mem p hq))

/-- The steps of the writer before the footer. -/
def storeBody (cv : CVAssignment) (curr_unique_log_ID : List Byte) (c : Cursor) : Option Cursor :=
  (c.store [123]).bind fun c =>
    (c.store (uint16Bytes (BitVec.ofNat 16 cv.bindings.length))).bind fun c =>
      (c.store (strncpy curr_unique_log_ID (ID_string_size - 1))).bind fun c =>
        c.skip.bind fun c => cv.bindings.foldlM storeRecord c

theorem advances_storeBody {cv : CVAssignment} (h : cv.Admitted) (id : List Byte) :
    Advances (cv.storeBody id) cv.footerOffset := by
  have hstep := (advances_store [123]).bind
    ((advances_store (uint16Bytes (BitVec.ofNat 16 cv.bindings.length))).bind
      ((advances_store (strncpy id (ID_string_size - 1))).bind
        (advances_skip.bind (advances_storeRecords h.2))))
  have hlen : cv.footerOffset = [(123 : Byte)].length +
      ((uint16Bytes (BitVec.ofNat 16 cv.bindings.length)).length +
        ((strncpy id (ID_string_size - 1)).length +
          (1 + (cv.bindings.flatMap recordBytes).length))) := by
    rw [strncpy_length, footerOffset]
    change 3 + 384 + _ = 1 + (2 + (383 + (1 + _)))
    omega
  rw [hlen]
  exact hstep

theorem admitted_of_foldlM {l : List (SymArray × List Byte)} {c c' : Cursor}
    (h : l.foldlM storeRecord c = some c') :
    ∀ p ∈ l, p.1.name.length ≤ 0xFFFFFFFF ∧ p.2.length ≤ 0xFFFFFFFF := by
  induction l generalizing c with
  | nil => exact fun p hp => absurd hp List.not_mem_nil
  | cons p l ih =>
    rw [List.foldlM_cons, Option.bind_eq_bind, Option.bind_eq_some_iff] at h
    obtain ⟨c₁, h₁, h⟩ := h
    simp only [storeRecord, Option.bind_eq_bind, Option.bind_eq_some_iff] at h₁
    obtain ⟨_, hn, -, -, _, hd, -⟩ := h₁
    rw [Option.guard_eq_some'] at hn hd
    exact List.forall_mem_cons.mpr ⟨⟨Nat.not_lt.mp hn, Nat.not_lt.mp hd⟩, ih h⟩

/-- The call returns when the lengths pass their checks, memory reaches over the footer, and
the place of the footer is not above the size of the buffer, read as unsigned. -/
theorem serializeAssignments_isSome {cv : CVAssignment} {id buf : List Byte}
    {bufSize : BitVec 32} :
    (serializeAssignments cv id buf bufSize).isSome = true ↔ cv.Admitted ∧
      cv.footerOffset < buf.length ∧ cv.footerOffset ≤ (bufSize.signExtend 64).toNat := by
  constructor
  · intro h
    obtain ⟨mem, hmem⟩ := Option.isSome_iff_exists.mp h
    simp only [serializeAssignments, Option.bind_eq_bind, Option.bind_eq_some_iff] at hmem
    obtain ⟨_, hg, c₁, h₁, c₂, h₂, c₃, h₃, c₄, h₄, c₅, h₅, c₆, h₆, _, hb, -⟩ := hmem
    rw [Option.guard_eq_some'] at hg hb
    have hadm : cv.Admitted := ⟨Nat.not_lt.mp hg, admitted_of_foldlM h₅⟩
    have hadv := advances_storeBody hadm id ⟨[], buf⟩
    have hrun : cv.storeBody id ⟨[], buf⟩ = some c₅ := by
      simp only [storeBody, h₁, h₂, h₃, h₄, h₅, Option.bind_some]
    have hle : cv.footerOffset ≤ buf.length := by
      by_contra hlt
      rw [hadv.1 (Nat.lt_of_not_le hlt)] at hrun
      cases hrun
    obtain ⟨c', hc', hbehind, hahead⟩ := hadv.2 hle
    obtain rfl : c₅ = c' := Option.some.inj (hrun.symm.trans hc')
    have hroom : 1 ≤ c₅.ahead.length := by
      by_contra hlt
      have hnone := (advances_store [210] c₅).1 (Nat.lt_of_not_le hlt)
      dsimp only at hnone
      rw [hnone] at h₆
      cases h₆
    change cv.footerOffset ≤ buf.length at hle
    simp only [List.length_nil, Nat.zero_add] at hbehind
    dsimp only at hahead
    exact ⟨hadm, by omega, by omega⟩
  · rintro ⟨hadm, hlt, hle⟩
    obtain ⟨c₅, hrun, hbehind, hahead⟩ :=
      (advances_storeBody hadm id ⟨[], buf⟩).2 (Nat.le_of_lt hlt)
    simp only [List.length_nil, Nat.zero_add] at hbehind
    dsimp only at hahead
    obtain ⟨c₆, h₆, -⟩ := (advances_store [210] c₅).2 (by
      rw [List.length_singleton]
      omega)
    have hg : ¬cv.bindings.length > 0xFFFFFFFF := Nat.not_lt.mpr hadm.1
    have hb : ¬c₅.behind.length > (bufSize.signExtend 64).toNat := by omega
    simp only [storeBody, Option.bind_eq_some_iff] at hrun
    obtain ⟨c₁, h₁, c₂, h₂, c₃, h₃, c₄, h₄, h₅⟩ := hrun
    simp only [serializeAssignments, guard, hg, hb, not_false_eq_true, if_true,
      Option.bind_eq_bind, Option.pure_def, Option.bind_some, h₁, h₂, h₃, h₄, h₅, h₆,
      Option.isSome_some]

/-- A call that returns has written inside the buffer exactly when the size of the buffer is
not negative and the records do not end where the buffer does. -/
theorem writesInside_iff {cv : CVAssignment} {id buf : List Byte} {bufSize : BitVec 32}
    {mem : List Byte} (h : serializeAssignments cv id buf bufSize = some mem) :
    cv.WritesInside id buf bufSize ↔
      0 ≤ bufSize.toInt ∧ (cv.footerOffset : ℤ) ≠ bufSize.toInt := by
  obtain ⟨hadm, hlt, hle⟩ := serializeAssignments_isSome.mp (by rw [h, Option.isSome_some])
  rw [WritesInside, serializeAssignments_isSome, List.length_take]
  have hint : (bufSize.signExtend 64).toInt = bufSize.toInt :=
    BitVec.toInt_signExtend_of_le (by decide)
  have hcases := BitVec.toInt_eq_toNat_cond (bufSize.signExtend 64)
  have hbound := BitVec.toInt_lt (x := bufSize)
  rw [hint] at hcases
  constructor
  · rintro ⟨-, hlt', -⟩
    omega
  · rintro ⟨h0, hne⟩
    refine ⟨hadm, ?_, hle⟩
    split at hcases
    · omega
    · have := (bufSize.signExtend 64).isLt
      omega

/-- The footer of one array of one byte is at 393, the last place of a buffer of 394 bytes. -/
theorem single_writesInside : (single [5]).WritesInside [82] (List.replicate 400 0) 394 := by
  have h : (serializeAssignments (single [5]) [82] (List.replicate 400 0) 394).isSome := by
    decide +kernel
  obtain ⟨mem, hmem⟩ := Option.isSome_iff_exists.mp h
  exact (writesInside_iff hmem).mpr (by decide)

/-- The call returns for a buffer that ends before the footer. -/
theorem single_writesOutside :
    (∃ mem, serializeAssignments (single [5]) [82] (List.replicate 400 0) 393 = some mem) ∧
      ¬(single [5]).WritesInside [82] (List.replicate 400 0) 393 := by
  rw [← Option.isSome_iff_exists]
  decide +kernel

end CVAssignment

end TaseVerifier
