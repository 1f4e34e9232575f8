import Mathlib.Algebra.Order.BigOperators.Group.List
import TaseVerifier.Library.Reading

/-! The KTest file format: `kTest_toFile` and `kTest_fromFile`. A file is its list of
bytes; the writer appends to it and the reader takes from its front. Both sides follow
`fwrite` and `fread`, which move no item when the item size is zero. -/

namespace TaseVerifier

open Library

namespace KTest

/-- A C string by its bytes before the terminator. -/
structure CString where
  bytes : List Byte
  nulFree : 0#8 ∉ bytes
  deriving DecidableEq

namespace CString

/-- The string that starts at a buffer: its bytes up to the first terminator. -/
def ofBuffer (buf : List Byte) : CString :=
  ⟨buf.takeWhile (· != 0#8), fun h => by simpa using List.mem_takeWhile_imp h⟩

theorem ofBuffer_bytes (s : CString) : ofBuffer s.bytes = s := by
  have h : s.bytes.takeWhile (· != 0#8) = s.bytes := takeWhile_bne s.nulFree
  cases s
  simp only [ofBuffer, h]

theorem ofBuffer_length_le (buf : List Byte) : (ofBuffer buf).bytes.length ≤ buf.length :=
  (List.takeWhile_prefix _).length_le

end CString

/-- `struct timeval`. -/
structure Timeval where
  tv_sec : BitVec 64
  tv_usec : BitVec 64
  deriving DecidableEq

/-- `numBytes` is the length of `bytes`; it is an `unsigned`. -/
structure KTestObject where
  name : CString
  timestamp : Timeval
  bytes : List Byte
  numBytes_lt : bytes.length < 2 ^ 32
  deriving DecidableEq

end KTest

open KTest

/-- `numArgs` and `numObjects` are the lengths of the two lists. -/
structure KTest where
  version : BitVec 32
  args : List CString
  numArgs_lt : args.length < 2 ^ 32
  symArgvs : BitVec 32
  symArgvLen : BitVec 32
  objects : List KTestObject
  numObjects_lt : objects.length < 2 ^ 32
  deriving DecidableEq

namespace KTest

/-! ### The writer -/

/-- `fwrite(data, size, 1, f) == 1`, with `size` the length of `data`. -/
def fwrite (f data : List Byte) : Option (List Byte) :=
  if data.length = 0 then none else some (f ++ data)

def bytesOfUint32 (value : BitVec 32) : List Byte :=
  [(value >>> 24).setWidth 8, (value >>> 16).setWidth 8, (value >>> 8).setWidth 8,
    value.setWidth 8]

def write_uint32 (f : List Byte) (value : BitVec 32) : Option (List Byte) :=
  fwrite f (bytesOfUint32 value)

/-- `unsigned len = strlen(value)`. -/
def write_string (f : List Byte) (value : CString) : Option (List Byte) := do
  let len := BitVec.ofNat 32 value.bytes.length
  let f ← write_uint32 f len
  fwrite f (value.bytes.take len.toNat)

def KTEST_VERSION : BitVec 32 := 4

def kTest_getCurrentVersion : BitVec 32 := KTEST_VERSION

/-- `"KTEST"` -/
def KTEST_MAGIC : List Byte := [75, 84, 69, 83, 84]

/-- `"BOUT\n"` -/
def BOUT_MAGIC : List Byte := [66, 79, 85, 84, 10]

def KTEST_MAGIC_SIZE : ℕ := 5

/-- One round of the writer's object loop. -/
def write_object (f : List Byte) (o : KTestObject) : Option (List Byte) := do
  let f ← write_string f o.name
  let f ← write_uint32 f (BitVec.ofNat 32 o.bytes.length)
  fwrite f o.bytes

/-- The file that is written, or `none` where the function returns 0. -/
def kTest_toFile (bo : KTest) : Option (List Byte) := do
  let f ← fwrite [] KTEST_MAGIC
  let f ← write_uint32 f KTEST_VERSION
  let f ← write_uint32 f (BitVec.ofNat 32 bo.args.length)
  let f ← bo.args.foldlM write_string f
  let f ← write_uint32 f bo.symArgvs
  let f ← write_uint32 f bo.symArgvLen
  let f ← write_uint32 f (BitVec.ofNat 32 bo.objects.length)
  bo.objects.foldlM write_object f

/-! ### The reader -/

/-- `fread(data, size, 1, f) == 1`. -/
def fread (size : ℕ) : Reader Byte {data : List Byte // data.length = size} := fun f =>
  if h : size = 0 ∨ f.length < size then none
  else some (⟨f.take size, by rw [List.length_take]; omega⟩, f.drop size)

/-- The reader of a value that the source computes from `size` bytes in `int`. -/
def intOfBytes (data : List Byte) : BitVec 32 :=
  data.foldl (fun v b => (v <<< 8) + b.setWidth 32) 0

def read_uint32 : Reader Byte (BitVec 32) := do
  let data ← fread 4
  return intOfBytes data.1

/-- The eight bytes are put together in `int`, whose value is then extended. -/
def read_uint64 : Reader Byte (BitVec 64) := do
  let data ← fread 8
  return (intOfBytes data.1).signExtend 64

/-- At `len = 2^32 - 1` the buffer for `len + 1` bytes is empty and the bytes are read
past its end. -/
def read_string : Reader Byte CString := do
  let len ← read_uint32
  guard (len + 1 ≠ 0)
  let buf ← fread len.toNat
  return .ofBuffer buf.1

def kTest_checkHeader : Reader Byte Unit := do
  let header ← fread KTEST_MAGIC_SIZE
  guard (header.1 = KTEST_MAGIC ∨ header.1 = BOUT_MAGIC)

def read_timestamp (version : BitVec 32) : Reader Byte Timeval :=
  if 4 ≤ version then do
    let sec ← read_uint64
    let usec ← read_uint64
    return ⟨sec, usec⟩
  else
    return ⟨0, 0⟩

theorem isLt_of_count {α : Type} {n : BitVec 32} (l : {l : List α // l.length = n.toNat}) :
    l.1.length < 2 ^ 32 := by rw [l.2]; exact n.isLt

def read_bytes (numBytes : BitVec 32) :
    Reader Byte {bytes : List Byte // bytes.length = numBytes.toNat} :=
  if h : numBytes = 0 then return ⟨[], by rw [h]; rfl⟩ else fread numBytes.toNat

/-- One round of the reader's object loop. -/
def read_object (version : BitVec 32) : Reader Byte KTestObject := do
  let name ← read_string
  let timestamp ← read_timestamp version
  let numBytes ← read_uint32
  let bytes ← read_bytes numBytes
  return ⟨name, timestamp, bytes.1, isLt_of_count bytes⟩

def read_symArgs (version : BitVec 32) : Reader Byte (BitVec 32 × BitVec 32) :=
  if 2 ≤ version then do
    let symArgvs ← read_uint32
    let symArgvLen ← read_uint32
    return (symArgvs, symArgvLen)
  else
    return (0, 0)

/-- What is read once the version is known. -/
def read_fields (version : BitVec 32) : Reader Byte KTest := do
  let numArgs ← read_uint32
  let args ← read_string.many numArgs.toNat
  let sym ← read_symArgs version
  let numObjects ← read_uint32
  let objects ← (read_object version).many numObjects.toNat
  return {
    version := version
    args := args.1
    numArgs_lt := isLt_of_count args
    symArgvs := sym.1
    symArgvLen := sym.2
    objects := objects.1
    numObjects_lt := isLt_of_count objects }

def read_kTest : Reader Byte KTest := do
  kTest_checkHeader
  let version ← read_uint32
  guard (¬kTest_getCurrentVersion < version)
  read_fields version

/-- What follows the last object in the file is not looked at. -/
def kTest_fromFile (file : List Byte) : Option KTest :=
  (read_kTest file).map Prod.fst

/-- The file of a value can be written, and reading it gives the value back. -/
def RoundTrips (bo : KTest) : Prop :=
  ∃ file, kTest_toFile bo = some file ∧ kTest_fromFile file = some bo

/-! ### What is written -/

def stringBytes (s : CString) : List Byte :=
  bytesOfUint32 (BitVec.ofNat 32 s.bytes.length) ++
    s.bytes.take (BitVec.ofNat 32 s.bytes.length).toNat

def objectBytes (o : KTestObject) : List Byte :=
  stringBytes o.name ++ bytesOfUint32 (BitVec.ofNat 32 o.bytes.length) ++ o.bytes

/-- All bytes after the version. -/
def fieldBytes (bo : KTest) : List Byte :=
  bytesOfUint32 (BitVec.ofNat 32 bo.args.length) ++ bo.args.flatMap stringBytes ++
    bytesOfUint32 bo.symArgvs ++ bytesOfUint32 bo.symArgvLen ++
    bytesOfUint32 (BitVec.ofNat 32 bo.objects.length) ++ bo.objects.flatMap objectBytes

def fileBytes (bo : KTest) : List Byte :=
  KTEST_MAGIC ++ bytesOfUint32 KTEST_VERSION ++ fieldBytes bo

theorem fwrite_eq_some {f data g : List Byte} :
    fwrite f data = some g ↔ data ≠ [] ∧ g = f ++ data := by
  unfold fwrite
  split
  next h => simp [List.length_eq_zero_iff.mp h]
  next h => simp [show data ≠ [] from fun hd => h (by rw [hd]; rfl), eq_comm]

theorem write_uint32_eq (f : List Byte) (v : BitVec 32) :
    write_uint32 f v = some (f ++ bytesOfUint32 v) :=
  fwrite_eq_some.mpr ⟨List.cons_ne_nil _ _, rfl⟩

theorem writes_string :
    Writes write_string (fun s => s.bytes.length % 2 ^ 32 ≠ 0) stringBytes := by
  intro f s g
  simp only [write_string, write_uint32_eq, Option.bind_eq_bind, Option.bind_some,
    fwrite_eq_some, stringBytes, BitVec.toNat_ofNat, List.append_assoc, ne_eq,
    List.eq_nil_iff_length_eq_zero]
  have h : (s.bytes.take (s.bytes.length % 2 ^ 32)).length = 0 ↔
      s.bytes.length % 2 ^ 32 = 0 := by
    rw [List.length_take]
    omega
  rw [h]

theorem writes_object : Writes write_object
    (fun o => o.name.bytes.length % 2 ^ 32 ≠ 0 ∧ o.bytes ≠ []) objectBytes := by
  intro f o g
  simp only [write_object, Option.bind_eq_bind, Option.bind_eq_some_iff, writes_string _ _ _,
    write_uint32_eq, Option.some.injEq, fwrite_eq_some, objectBytes]
  constructor
  · rintro ⟨_, ⟨hn, rfl⟩, _, rfl, hb, rfl⟩
    exact ⟨⟨hn, hb⟩, by simp only [List.append_assoc]⟩
  · rintro ⟨⟨hn, hb⟩, rfl⟩
    exact ⟨_, ⟨hn, rfl⟩, _, rfl, hb, by simp only [List.append_assoc]⟩

theorem kTest_toFile_eq_some {bo : KTest} {file : List Byte} :
    kTest_toFile bo = some file ↔
      (∀ a ∈ bo.args, a.bytes.length % 2 ^ 32 ≠ 0) ∧
      (∀ o ∈ bo.objects, o.name.bytes.length % 2 ^ 32 ≠ 0 ∧ o.bytes ≠ []) ∧
      file = fileBytes bo := by
  have hm : fwrite [] KTEST_MAGIC = some KTEST_MAGIC := rfl
  simp only [kTest_toFile, hm, write_uint32_eq, Option.bind_eq_bind, Option.bind_some,
    Option.bind_eq_some_iff, writes_string.foldlM, writes_object.foldlM, fileBytes, fieldBytes]
  constructor
  · rintro ⟨_, ⟨ha, rfl⟩, ho, rfl⟩
    exact ⟨ha, ho, by simp only [List.append_assoc]⟩
  · rintro ⟨ha, ho, rfl⟩
    exact ⟨_, ⟨ha, rfl⟩, ho, by simp only [List.append_assoc]⟩

/-! ### What is read back -/

/-- A string whose length, and the length of its buffer, fit in an `unsigned`. -/
def CString.Fits (s : CString) : Prop := s.bytes ≠ [] ∧ s.bytes.length + 1 < 2 ^ 32

theorem reads_fread {n : ℕ} {data : List Byte} (h : data.length = n) (hn : n ≠ 0) :
    Reads (fread n) data ⟨data, h⟩ := by
  intro rest
  have hl : ¬(n = 0 ∨ (data ++ rest).length < n) := by
    rw [List.length_append]
    omega
  unfold fread
  rw [dif_neg hl]
  simp [← h]

theorem intOfBytes_bytesOfUint32 (v : BitVec 32) : intOfBytes (bytesOfUint32 v) = v := by
  apply BitVec.eq_of_toNat_eq
  simp only [intOfBytes, bytesOfUint32, List.foldl_cons, List.foldl_nil, BitVec.toNat_add,
    BitVec.toNat_shiftLeft, BitVec.toNat_setWidth, BitVec.toNat_ushiftRight, Nat.shiftLeft_eq,
    Nat.shiftRight_eq_div_pow]
  have := v.isLt
  omega

theorem reads_uint32 (v : BitVec 32) : Reads read_uint32 (bytesOfUint32 v) v := by
  have hl : (bytesOfUint32 v).length = 4 := rfl
  have h := (reads_fread hl (by decide)).bind_pure (f := fun data => intOfBytes data.1)
  rwa [intOfBytes_bytesOfUint32] at h

theorem toNat_ofNat_of_lt {n : ℕ} (h : n < 2 ^ 32) : (BitVec.ofNat 32 n).toNat = n := by
  rw [BitVec.toNat_ofNat]
  exact Nat.mod_eq_of_lt h

theorem reads_string {s : CString} (h : s.Fits) : Reads read_string (stringBytes s) s := by
  obtain ⟨hne, hlt⟩ := h
  have hn := toNat_ofNat_of_lt (show s.bytes.length < 2 ^ 32 by omega)
  unfold stringBytes read_string
  rw [hn, List.take_length]
  refine (reads_uint32 _).bind ?_
  have hw : BitVec.ofNat 32 s.bytes.length + 1 ≠ 0 := by
    intro hz
    have := congrArg BitVec.toNat hz
    rw [BitVec.toNat_add, hn] at this
    change (s.bytes.length + 1) % 2 ^ 32 = 0 at this
    omega
  refine (Reads.check hw).bind (u := s.bytes) ?_
  have hb := reads_fread hn.symm (by rw [hn]; exact fun h0 => hne (List.length_eq_zero_iff.mp h0))
  have hr := hb.bind_pure (f := fun buf => CString.ofBuffer buf.1)
  rwa [CString.ofBuffer_bytes] at hr

theorem reads_header : Reads kTest_checkHeader KTEST_MAGIC () := by
  have hl : KTEST_MAGIC.length = KTEST_MAGIC_SIZE := rfl
  exact (reads_fread hl (by decide)).bind (Reads.check (.inl rfl))

/-- From a file that starts as the writer's do, the reader goes on with version 4. -/
theorem read_kTest_fileBytes (bo : KTest) :
    read_kTest (fileBytes bo) = read_fields KTEST_VERSION (fieldBytes bo) := by
  unfold read_kTest fileBytes
  have hv : ¬kTest_getCurrentVersion < KTEST_VERSION := by decide
  rw [List.append_assoc, reads_header.bind_append, (reads_uint32 _).bind_append]
  exact (Reads.check hv).bind_append (fieldBytes bo)

/-- With no object and every argument of a size that fits, the fields are read back. -/
theorem reads_fields {bo : KTest} (hv : bo.version = KTEST_VERSION) (ho : bo.objects = [])
    (ha : ∀ a ∈ bo.args, a.Fits) : Reads (read_fields KTEST_VERSION) (fieldBytes bo) bo := by
  obtain ⟨version, args, hna, symArgvs, symArgvLen, objects, hno⟩ := bo
  dsimp only at hv ho ha
  subst hv
  have hargs := Reads.many stringBytes (fun a h => reads_string (ha a h)) (toNat_ofNat_of_lt hna).symm
  have hsym : Reads (read_symArgs KTEST_VERSION)
      (bytesOfUint32 symArgvs ++ bytesOfUint32 symArgvLen) (symArgvs, symArgvLen) :=
    (reads_uint32 _).bind (reads_uint32 _).bind_pure
  have hobjs : Reads ((read_object KTEST_VERSION).many (BitVec.ofNat 32 objects.length).toNat)
      (objects.flatMap objectBytes) ⟨objects, (toNat_ofNat_of_lt hno).symm⟩ :=
    Reads.many _ (by simp [ho]) (toNat_ofNat_of_lt hno).symm
  simp only [fieldBytes, List.append_assoc]
  rw [← List.append_assoc (bytesOfUint32 symArgvs)]
  exact (reads_uint32 _).bind (hargs.bind (hsym.bind ((reads_uint32 _).bind hobjs.bind_pure)))

/-! ### How much is read

A file of version 4 holds sixteen bytes of timestamp for each object that is read. -/

def stringSize (s : CString) : ℕ := 4 + s.bytes.length

def objectSize (o : KTestObject) : ℕ := stringSize o.name + 20 + o.bytes.length

theorem returns_fread (n : ℕ) : Returns (fread n) fun k _ => k = n ∧ n ≠ 0 := by
  intro s data s' h
  unfold fread at h
  split at h
  · cases h
  · next hn =>
    obtain ⟨rfl, rfl⟩ := Prod.mk.inj (Option.some.inj h)
    exact ⟨n, by rw [List.length_drop]; omega, rfl, fun h0 => hn (.inl h0)⟩

theorem returns_uint32 : Returns read_uint32 fun n _ => n = 4 :=
  (returns_fread 4).bind fun _ _ h => Returns.pure h.1

theorem returns_uint64 : Returns read_uint64 fun n _ => n = 8 :=
  (returns_fread 8).bind fun _ _ h => Returns.pure h.1

theorem returns_string :
    Returns read_string fun n s => stringSize s ≤ n ∧ s.bytes.length + 1 < 2 ^ 32 := by
  refine returns_uint32.bind fun n len hn => (Returns.check _).bind fun k _ hk =>
    (returns_fread _).bind fun m buf hm => Returns.pure ?_
  have hle := CString.ofBuffer_length_le buf.1
  rw [buf.2] at hle
  have hlen : len.toNat + 1 ≠ 2 ^ 32 := by
    intro h
    apply hk.2
    apply BitVec.eq_of_toNat_eq
    rw [BitVec.toNat_add]
    change (len.toNat + 1) % 2 ^ 32 = 0
    omega
  have := len.isLt
  unfold stringSize
  omega

theorem returns_timestamp : Returns (read_timestamp KTEST_VERSION) fun n _ => n = 16 :=
  returns_uint64.bind fun n _ hn => returns_uint64.bind fun m _ hm => Returns.pure (by omega)

theorem returns_bytes (v : BitVec 32) : Returns (read_bytes v) fun n l => n = l.1.length := by
  unfold read_bytes
  split
  · exact Returns.pure rfl
  · exact (returns_fread _).mono fun n l h => h.1.trans l.2.symm

theorem returns_object :
    Returns (read_object KTEST_VERSION) fun n o => objectSize o ≤ n ∧ True := by
  refine returns_string.bind fun n name hn => returns_timestamp.bind fun m _ hm =>
    returns_uint32.bind fun k _ hk => (returns_bytes _).bind fun j bytes hj =>
      Returns.pure ⟨?_, trivial⟩
  change stringSize name + 20 + bytes.1.length ≤ _
  omega

def fieldSize (bo : KTest) : ℕ :=
  16 + (bo.args.map stringSize).sum + (bo.objects.map objectSize).sum

theorem returns_fields : Returns (read_fields KTEST_VERSION) fun n bo =>
    bo.version = KTEST_VERSION ∧ fieldSize bo ≤ n ∧ ∀ a ∈ bo.args, a.bytes.length + 1 < 2 ^ 32 := by
  have hsym : Returns (read_symArgs KTEST_VERSION) fun n _ => n = 8 :=
    returns_uint32.bind fun n _ hn => returns_uint32.bind fun m _ hm => Returns.pure (by omega)
  refine returns_uint32.bind fun n _ hn => (Returns.many _ _ returns_string _).bind fun m args hm =>
    hsym.bind fun k _ hk => returns_uint32.bind fun j _ hj =>
      (Returns.many _ _ returns_object _).bind fun i objects hi => Returns.pure ⟨rfl, ?_, hm.2⟩
  change 16 + (args.1.map stringSize).sum + (objects.1.map objectSize).sum ≤ _
  omega

/-! ### What is written is shorter -/

theorem stringBytes_length (s : CString) :
    (stringBytes s).length = 4 + s.bytes.length % 2 ^ 32 := by
  have := Nat.mod_le s.bytes.length (2 ^ 32)
  simp only [stringBytes, List.length_append, List.length_take, BitVec.toNat_ofNat]
  change 4 + _ = _
  omega

theorem objectBytes_length (o : KTestObject) : (objectBytes o).length + 16 ≤ objectSize o := by
  have := Nat.mod_le o.name.bytes.length (2 ^ 32)
  simp only [objectBytes, objectSize, stringSize, List.length_append, stringBytes_length]
  change _ + 4 + _ + 16 ≤ _
  omega

theorem flatMap_objectBytes_length (l : List KTestObject) :
    (l.flatMap objectBytes).length + 16 * l.length ≤ (l.map objectSize).sum := by
  induction l with
  | nil => rfl
  | cons o l ih =>
    have := objectBytes_length o
    simp only [List.flatMap_cons, List.length_append, List.map_cons, List.sum_cons,
      List.length_cons]
    omega

theorem flatMap_stringBytes_length (l : List CString) :
    (l.flatMap stringBytes).length ≤ (l.map stringSize).sum := by
  induction l with
  | nil => rfl
  | cons s l ih =>
    have := Nat.mod_le s.bytes.length (2 ^ 32)
    simp only [List.flatMap_cons, List.length_append, List.map_cons, List.sum_cons,
      stringBytes_length, stringSize] at ih ⊢
    omega

theorem fieldBytes_length (bo : KTest) :
    (fieldBytes bo).length + 16 * bo.objects.length ≤ fieldSize bo := by
  have ha := flatMap_stringBytes_length bo.args
  have ho := flatMap_objectBytes_length bo.objects
  simp only [fieldBytes, fieldSize, List.length_append]
  change 4 + _ + 4 + 4 + 4 + _ + _ ≤ _
  omega

/-- The writer leaves out the timestamps that the reader takes for each object, and both
treat an empty string as a failure. -/
theorem roundTrips_iff (bo : KTest) :
    RoundTrips bo ↔ bo.version = 4 ∧ bo.objects = [] ∧ ∀ a ∈ bo.args, a.Fits := by
  constructor
  · rintro ⟨file, hw, hr⟩
    obtain ⟨ha, -, rfl⟩ := kTest_toFile_eq_some.mp hw
    rw [kTest_fromFile, read_kTest_fileBytes, Option.map_eq_some_iff] at hr
    obtain ⟨⟨bo', rest⟩, hr, hbo⟩ := hr
    obtain rfl : bo = bo' := hbo.symm
    obtain ⟨n, hn, hv, hsize, hargs⟩ := returns_fields _ _ _ hr
    have hlen := fieldBytes_length bo
    refine ⟨hv, List.length_eq_zero_iff.mp (by omega), fun a hmem => ⟨?_, hargs a hmem⟩⟩
    intro h0
    exact ha a hmem (by rw [h0]; rfl)
  · rintro ⟨hv, ho, ha⟩
    refine ⟨fileBytes bo, kTest_toFile_eq_some.mpr ⟨?_, by simp [ho], rfl⟩, ?_⟩
    · intro a hmem
      obtain ⟨hne, hlt⟩ := ha a hmem
      have := List.length_pos_iff.mpr hne
      rw [Nat.mod_eq_of_lt (by omega)]
      omega
    · rw [kTest_fromFile, read_kTest_fileBytes, (reads_fields hv ho ha).whole]
      rfl

/-- One recorded message of one byte: it is written, and its file cannot be read. -/
def oneMessage : KTest where
  version := 4
  args := []
  numArgs_lt := by decide
  symArgvs := 0
  symArgvLen := 0
  objects := [⟨⟨[99, 50, 115], by decide⟩, ⟨1, 0⟩, [7], by decide⟩]
  numObjects_lt := by decide

theorem oneMessage_not_read :
    kTest_toFile oneMessage = some (fileBytes oneMessage) ∧
      kTest_fromFile (fileBytes oneMessage) = none ∧ ¬RoundTrips oneMessage := by
  have hw : kTest_toFile oneMessage = some (fileBytes oneMessage) := rfl
  have hr : kTest_fromFile (fileBytes oneMessage) = none := rfl
  refine ⟨hw, hr, ?_⟩
  rintro ⟨file, hf, hb⟩
  obtain rfl := Option.some.inj (hw.symm.trans hf)
  rw [hr] at hb
  cases hb

end KTest

end TaseVerifier
