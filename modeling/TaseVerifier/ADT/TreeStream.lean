import Mathlib.Data.List.Induction
import TaseVerifier.Library.Reading

/-! Tree streams. All streams of a writer share one file of records: a block of bytes of
one stream, or the fork of a stream from its parent. A record starts with two words, the
stream and a tag; the top bit of the tag tells a fork from a block, the rest is the new
stream or the block's size. `readStream` finds the line of a stream's ancestors in a first
pass over the file and collects their bytes in a second. -/

namespace TaseVerifier

open Library

namespace TreeStream

abbrev Word := BitVec 32

abbrev TreeStreamID := Word

def bufferSize : ℕ := 4 * 4096

/-- `buffer` is its first `bufferCount` bytes; `output` is the file as it stands once the
output stream is flushed. -/
structure TreeStreamWriter where
  buffer : List Byte
  lastID : TreeStreamID
  output : List Byte
  ids : TreeStreamID

/-- A word as it lies in memory. -/
def wordBytes (v : Word) : List Byte :=
  [v.setWidth 8, (v >>> 8).setWidth 8, (v >>> 16).setWidth 8, (v >>> 24).setWidth 8]

def forkBit : Word := 1 <<< 31

namespace TreeStreamWriter

/-- A writer on an empty file. -/
def new : TreeStreamWriter where
  buffer := []
  lastID := 0
  output := []
  ids := 1

def flushBuffer (w : TreeStreamWriter) : TreeStreamWriter :=
  if w.buffer.length ≠ 0 then
    { w with
      output := w.output ++ wordBytes w.lastID ++ wordBytes (BitVec.ofNat 32 w.buffer.length) ++
        w.buffer
      buffer := [] }
  else w

/-- The new stream's parent; 0 opens a root. -/
def openAt (w : TreeStreamWriter) (os : TreeStreamID) : TreeStreamWriter × TreeStreamID :=
  let w := w.flushBuffer
  ({ w with
      ids := w.ids + 1
      output := w.output ++ wordBytes os ++ wordBytes (w.ids ||| forkBit) },
    w.ids)

/-- `size + bufferCount` does not wrap for the sizes that can be written. -/
def write (w : TreeStreamWriter) (os : TreeStreamID) (s : List Byte) : TreeStreamWriter :=
  let w := if w.buffer.length ≠ 0 ∧ (os ≠ w.lastID ∨ s.length + w.buffer.length > bufferSize) then
    w.flushBuffer else w
  if w.buffer.length ≠ 0 then
    { w with buffer := w.buffer ++ s }
  else if s.length < bufferSize then
    { w with lastID := os, buffer := s }
  else
    { w with output := w.output ++ wordBytes os ++ wordBytes (BitVec.ofNat 32 s.length) ++ s }

def flush (w : TreeStreamWriter) : TreeStreamWriter := w.flushBuffer

end TreeStreamWriter

/-! ### The reader -/

/-- The word that lies in four bytes of memory. -/
def wordOf (b₀ b₁ b₂ b₃ : Byte) : Word :=
  b₀.setWidth 32 + b₁.setWidth 32 <<< 8 + b₂.setWidth 32 <<< 16 + b₃.setWidth 32 <<< 24

/-- The two words at the start of a record. -/
def readWords : List Byte → Option (Word × Word × List Byte)
  | a₀ :: a₁ :: a₂ :: a₃ :: b₀ :: b₁ :: b₂ :: b₃ :: rest =>
    some (wordOf a₀ a₁ a₂ a₃, wordOf b₀ b₁ b₂ b₃, rest)
  | _ => none

theorem readWords_length {is : List Byte} {id tag : Word} {rest : List Byte}
    (h : readWords is = some (id, tag, rest)) : rest.length < is.length := by
  unfold readWords at h
  split at h
  · obtain ⟨-, -, rfl⟩ := by simpa using h
    simp only [List.length_cons]
    omega
  · cases h

/-- The loop that puts a stream's ancestors on `roots`, the vector's back first. A stream
without a parent in the map fails an assertion; with more rounds than entries the loop is
on a cycle and goes on for ever. -/
def ancestors (parents : List (Word × Word)) : ℕ → Word → List Word → Option (List Word)
  | 0, _, _ => none
  | fuel + 1, id, roots =>
    if id = 0 then some roots else
      match parents.lookup id with
      | none => none
      | some parent => ancestors parents fuel parent (id :: roots)

/-- The first pass. At the end of the file the two words are undefined and the assertion
of the next round fails. -/
def findRoots (streamID : TreeStreamID) (parents : List (Word × Word)) (is : List Byte) :
    Option (List Word) :=
  match h : readWords is with
  | none => none
  | some (id, tag, rest) =>
    if tag &&& forkBit ≠ 0 then
      let child := tag ^^^ forkBit
      if child = streamID then ancestors parents (parents.length + 1) id [child]
      else
        -- `std::map::insert` keeps an entry that is there
        findRoots streamID
          (if (parents.lookup child).isSome then parents else (child, id) :: parents) rest
    else findRoots streamID parents (rest.drop tag.toNat)
  termination_by is.length
  decreasing_by
    · exact readWords_length h
    · exact Nat.lt_of_le_of_lt (by rw [List.length_drop]; omega) (readWords_length h)

/-- The second pass, with the back of `roots` first. Past the end of the file `get`
returns `EOF`. -/
def collect (roots : List Word) (is : List Byte) : List Byte :=
  match h : readWords is with
  | none => []
  | some (id, tag, rest) =>
    if tag &&& forkBit ≠ 0 then
      let child := tag ^^^ forkBit
      if roots.head? = some id ∧ roots.tail.head? = some child then collect roots.tail rest
      else collect roots rest
    else if roots.head? = some id then
      rest.take tag.toNat ++ List.replicate (tag.toNat - rest.length) 0xff#8 ++
        collect roots (rest.drop tag.toNat)
    else collect roots (rest.drop tag.toNat)
  termination_by is.length
  decreasing_by
    all_goals first
      | exact readWords_length h
      | exact Nat.lt_of_le_of_lt (by rw [List.length_drop]; omega) (readWords_length h)

/-- The bytes of a stream and the writer, which has been flushed. -/
def TreeStreamWriter.readStream (w : TreeStreamWriter) (streamID : TreeStreamID) :
    Option (List Byte × TreeStreamWriter) :=
  if 0 < streamID ∧ streamID < w.ids then
    let w := w.flush
    (findRoots streamID [] w.output).map fun roots => (collect roots w.output, w)
  else none

/-! ### What the streams hold -/

/-- The bytes of each stream, the stream with the ID `k + 1` at place `k`. -/
abbrev Streams := List (List Byte)

/-- The bytes of a stream; there are none above the roots. -/
def content (t : Streams) (id : ℕ) : List Byte := ([] :: t).getD id []

inductive Op where
  | openRoot
  | openChild (os : TreeStreamID)
  | write (os : TreeStreamID) (s : List Byte)
  | flush

namespace Op

def step (w : TreeStreamWriter) : Op → TreeStreamWriter
  | .openRoot => (w.openAt 0).1
  | .openChild os => (w.openAt os).1
  | .write os s => w.write os s
  | .flush => w.flush

/-- A new stream starts with the bytes its parent has. -/
def specStep (t : Streams) : Op → Streams
  | .openRoot => t ++ [[]]
  | .openChild os => t ++ [content t os.toNat]
  | .write os s => t.modify (os.toNat - 1) (· ++ s)
  | .flush => t

/-- Only streams that have been opened are forked or written to. -/
def Enabled (t : Streams) : Op → Prop
  | .openChild os => 0 < os.toNat ∧ os.toNat ≤ t.length
  | .write os s => 0 < os.toNat ∧ os.toNat ≤ t.length ∧ s.length < 2 ^ 31
  | _ => True

end Op

instance (t : Streams) (op : Op) : Decidable (op.Enabled t) :=
  match op with
  | .openRoot => isTrue trivial
  | .openChild _ => inferInstanceAs (Decidable (_ ∧ _))
  | .write _ _ => inferInstanceAs (Decidable (_ ∧ _ ∧ _))
  | .flush => isTrue trivial

def run (w : TreeStreamWriter) (ops : List Op) : TreeStreamWriter := ops.foldl Op.step w

def specRun (t : Streams) (ops : List Op) : Streams := ops.foldl Op.specStep t

def EnabledAll (t : Streams) : List Op → Prop
  | [] => True
  | op :: ops => op.Enabled t ∧ EnabledAll (op.specStep t) ops

/-! ### Records -/

inductive Record where
  | fork (id child : Word)
  | data (id : Word) (bytes : List Byte)

namespace Record

def encode : Record → List Byte
  | .fork id child => wordBytes id ++ wordBytes (child ||| forkBit)
  | .data id bytes => wordBytes id ++ wordBytes (BitVec.ofNat 32 bytes.length) ++ bytes

def apply (t : Streams) : Record → Streams
  | .fork id _ => t ++ [content t id.toNat]
  | .data id bytes => t.modify (id.toNat - 1) (· ++ bytes)

/-- Forks come in the order of the new streams, and all IDs and sizes leave the top bit
of a word free. -/
def Valid (t : Streams) : Record → Prop
  | .fork id child => id.toNat ≤ t.length ∧ child.toNat = t.length + 1 ∧ child.toNat < 2 ^ 31
  | .data id bytes => 0 < id.toNat ∧ id.toNat ≤ t.length ∧ bytes.length < 2 ^ 31

end Record

/-- The streams that a file of records describes. -/
def replay (t : Streams) (log : List Record) : Streams := log.foldl Record.apply t

def ValidLog (t : Streams) : List Record → Prop
  | [] => True
  | r :: log => r.Valid t ∧ ValidLog (r.apply t) log

theorem replay_append (t : Streams) (log log' : List Record) :
    replay t (log ++ log') = replay (replay t log) log' := List.foldl_append

theorem validLog_append {t : Streams} {log log' : List Record} :
    ValidLog t (log ++ log') ↔ ValidLog t log ∧ ValidLog (replay t log) log' := by
  induction log generalizing t with
  | nil => simp [ValidLog, replay]
  | cons r log ih =>
    rw [List.cons_append, ValidLog, ValidLog, ih, and_assoc]
    rfl

/-! ### The writer keeps a log -/

namespace TreeStreamWriter

/-- The block that is still in the buffer. -/
def pending (w : TreeStreamWriter) : List Record :=
  if w.buffer.length ≠ 0 then [.data w.lastID w.buffer] else []

/-- The file is a log of valid records, and with the buffered block it describes `t`. -/
structure Keeps (w : TreeStreamWriter) (t : Streams) (log : List Record) : Prop where
  output : w.output = log.flatMap Record.encode
  valid : ValidLog [] (log ++ w.pending)
  replay : replay [] (log ++ w.pending) = t
  ids : w.ids.toNat = t.length + 1
  small : w.buffer.length ≤ bufferSize

theorem keeps_new : new.Keeps [] [] where
  output := rfl
  valid := trivial
  replay := rfl
  ids := rfl
  small := Nat.zero_le _

variable {w : TreeStreamWriter} {t : Streams} {log : List Record}

theorem buffer_flushBuffer (w : TreeStreamWriter) : w.flushBuffer.buffer = [] := by
  unfold flushBuffer
  split
  · rfl
  next h => exact List.length_eq_zero_iff.mp (not_not.mp h)

theorem pending_of_nil (h : w.buffer = []) : w.pending = [] := by
  rw [pending, h]
  rfl

theorem Keeps.flushBuffer (h : w.Keeps t log) : w.flushBuffer.Keeps t (log ++ w.pending) := by
  have hids : w.flushBuffer.ids = w.ids := by
    unfold TreeStreamWriter.flushBuffer
    split <;> rfl
  have hout : w.flushBuffer.output = (log ++ w.pending).flatMap Record.encode := by
    rw [List.flatMap_append, ← h.output]
    unfold TreeStreamWriter.flushBuffer pending
    split <;> simp [Record.encode]
  have hpend := pending_of_nil (buffer_flushBuffer w)
  exact {
    output := hout
    valid := by rw [hpend, List.append_nil]; exact h.valid
    replay := by rw [hpend, List.append_nil]; exact h.replay
    ids := by rw [hids]; exact h.ids
    small := by rw [buffer_flushBuffer]; exact Nat.zero_le _ }

/-- A record is written behind an empty buffer. -/
theorem Keeps.record (h : w.Keeps t log) (hb : w.buffer = []) {r : Record} (hr : r.Valid t)
    {w' : TreeStreamWriter} (hout : w'.output = w.output ++ r.encode) (hb' : w'.buffer = [])
    (hids : w'.ids.toNat = (r.apply t).length + 1) : w'.Keeps (r.apply t) (log ++ [r]) := by
  have hv := h.valid
  have ht := h.replay
  rw [pending_of_nil hb, List.append_nil] at hv ht
  exact {
    output := by rw [hout, h.output, List.flatMap_append, List.flatMap_singleton]
    valid := by
      rw [pending_of_nil hb', List.append_nil, validLog_append, ht]
      exact ⟨hv, hr, trivial⟩
    replay := by
      rw [pending_of_nil hb', List.append_nil, replay_append, ht]
      rfl
    ids := hids
    small := by rw [hb']; exact Nat.zero_le _ }

theorem Keeps.openAt (h : w.Keeps t log) {os : TreeStreamID} (hos : os.toNat ≤ t.length)
    (hfew : t.length + 1 < 2 ^ 31) :
    ∃ log', (w.openAt os).1.Keeps (t ++ [content t os.toNat]) log' := by
  have hf := h.flushBuffer
  refine ⟨_, hf.record (buffer_flushBuffer w) (r := .fork os w.flushBuffer.ids)
    ⟨hos, hf.ids, by rw [hf.ids]; exact hfew⟩ ?_ (buffer_flushBuffer w) ?_⟩
  · simp [TreeStreamWriter.openAt, Record.encode]
  · have hids := hf.ids
    simp only [TreeStreamWriter.openAt, Record.apply, BitVec.toNat_add, hids, List.length_append,
      List.length_singleton]
    change (t.length + 1 + 1) % 2 ^ 32 = _
    omega

/-- The buffered block grows. -/
theorem Keeps.append (h : w.Keeps t log) (hb : w.buffer.length ≠ 0) {s : List Byte}
    (hfit : s.length + w.buffer.length ≤ bufferSize) :
    { w with buffer := w.buffer ++ s }.Keeps (t.modify (w.lastID.toNat - 1) (· ++ s)) log := by
  have hp : w.pending = [.data w.lastID w.buffer] := if_pos hb
  have hp' : { w with buffer := w.buffer ++ s }.pending = [.data w.lastID (w.buffer ++ s)] := by
    rw [pending, if_pos]
    simp only [List.length_append]
    omega
  obtain ⟨hlog, ⟨hpos, hle, -⟩, -⟩ := validLog_append.mp (hp ▸ h.valid)
  have ht := h.replay
  rw [hp, replay_append] at ht
  exact {
    output := h.output
    valid := by
      rw [hp', validLog_append]
      refine ⟨hlog, ⟨hpos, hle, ?_⟩, trivial⟩
      rw [List.length_append]
      unfold bufferSize at hfit
      omega
    replay := by
      rw [hp', replay_append, ← ht]
      change (TreeStream.replay [] log).modify _ (· ++ (w.buffer ++ s)) =
        ((TreeStream.replay [] log).modify _ (· ++ w.buffer)).modify _ (· ++ s)
      rw [List.modify_modify_eq]
      congr 1
      funext l
      exact (List.append_assoc l w.buffer s).symm
    ids := by rw [List.length_modify]; exact h.ids
    small := by
      change (w.buffer ++ s).length ≤ bufferSize
      rw [List.length_append]
      omega }

theorem modify_append_nil (t : Streams) (i : ℕ) : t.modify i (· ++ []) = t := by
  have h : (fun l : List Byte => l ++ []) = id := funext List.append_nil
  rw [h, List.modify_id]

/-- A block is put into the empty buffer. -/
theorem Keeps.fill (h : w.Keeps t log) (hb : w.buffer = []) {os : TreeStreamID} {s : List Byte}
    (hos : 0 < os.toNat ∧ os.toNat ≤ t.length) (hfit : s.length < bufferSize) :
    { w with lastID := os, buffer := s }.Keeps (t.modify (os.toNat - 1) (· ++ s)) log := by
  have hv := h.valid
  have ht := h.replay
  rw [pending_of_nil hb, List.append_nil] at hv ht
  have hids : w.ids.toNat = (t.modify (os.toNat - 1) (· ++ s)).length + 1 := by
    rw [List.length_modify]
    exact h.ids
  by_cases hs : s = []
  · subst hs
    rw [modify_append_nil]
    have hp' : { w with lastID := os, buffer := [] }.pending = [] := rfl
    exact ⟨h.output, by rwa [hp', List.append_nil], by rwa [hp', List.append_nil], h.ids,
      Nat.zero_le _⟩
  · have hp' : { w with lastID := os, buffer := s }.pending = [.data os s] :=
      if_pos fun h0 => hs (List.length_eq_zero_iff.mp h0)
    refine ⟨h.output, ?_, ?_, hids, Nat.le_of_lt hfit⟩
    · rw [hp', validLog_append, ht]
      refine ⟨hv, ⟨hos.1, hos.2, ?_⟩, trivial⟩
      unfold bufferSize at hfit
      omega
    · rw [hp', replay_append, ht]
      rfl

theorem Keeps.write (h : w.Keeps t log) {os : TreeStreamID} {s : List Byte}
    (hos : 0 < os.toNat ∧ os.toNat ≤ t.length) (hs : s.length < 2 ^ 31) :
    ∃ log', (w.write os s).Keeps (t.modify (os.toNat - 1) (· ++ s)) log' := by
  -- with the buffer empty, the block is buffered or goes to the file at once
  have hempty : ∀ {w : TreeStreamWriter} {log : List Record}, w.Keeps t log → w.buffer = [] →
      ∃ log', (if s.length < bufferSize then { w with lastID := os, buffer := s } else
        { w with output := w.output ++ wordBytes os ++ wordBytes (BitVec.ofNat 32 s.length) ++ s }
        ).Keeps (t.modify (os.toNat - 1) (· ++ s)) log' := by
    intro w log h hb
    split
    next hfit => exact ⟨_, h.fill hb hos hfit⟩
    next =>
      refine ⟨_, h.record hb (r := .data os s) ⟨hos.1, hos.2, hs⟩ ?_ hb ?_⟩
      · simp [Record.encode]
      · rw [Record.apply, List.length_modify]
        exact h.ids
  unfold TreeStreamWriter.write
  split
  next hc =>
    rw [if_neg (by rw [buffer_flushBuffer]; simp)]
    exact hempty h.flushBuffer (buffer_flushBuffer w)
  next hc =>
    by_cases hb : w.buffer.length ≠ 0
    · rw [if_pos hb]
      simp only [not_and, not_or, not_not] at hc
      obtain ⟨rfl, hfit⟩ := hc hb
      exact ⟨_, h.append hb (Nat.not_lt.mp hfit)⟩
    · rw [if_neg hb]
      exact hempty h (List.length_eq_zero_iff.mp (not_not.mp hb))

end TreeStreamWriter

/-- The number of streams that the operations open. -/
def opens (ops : List Op) : ℕ := ops.countP fun
  | .openRoot => true
  | .openChild _ => true
  | _ => false

open TreeStreamWriter in
theorem step_keeps {w : TreeStreamWriter} {t : Streams} {log : List Record} (h : w.Keeps t log)
    {op : Op} (hop : op.Enabled t) (hfew : t.length + opens [op] < 2 ^ 31) :
    ∃ log', (op.step w).Keeps (op.specStep t) log' := by
  cases op with
  | openRoot => exact h.openAt (Nat.zero_le _) hfew
  | openChild os => exact h.openAt hop.2 hfew
  | write os s => exact h.write ⟨hop.1, hop.2.1⟩ hop.2.2
  | flush => exact ⟨_, h.flushBuffer⟩

theorem length_specStep (t : Streams) (op : Op) :
    (op.specStep t).length = t.length + opens [op] := by
  cases op <;> simp [Op.specStep, opens]

theorem run_keeps {w : TreeStreamWriter} {t : Streams} {log : List Record} (h : w.Keeps t log)
    {ops : List Op} (hops : EnabledAll t ops) (hfew : t.length + opens ops < 2 ^ 31) :
    ∃ log', (run w ops).Keeps (specRun t ops) log' := by
  induction ops generalizing w t log with
  | nil => exact ⟨log, h⟩
  | cons op ops ih =>
    have hsplit : opens ([op] ++ ops) = opens [op] + opens ops := List.countP_append
    rw [List.singleton_append] at hsplit
    obtain ⟨log', h'⟩ := step_keeps h hops.1 (by omega)
    exact ih h' hops.2 (by rw [length_specStep]; omega)

/-! ### Records in the file -/

theorem wordOf_wordBytes (v : Word) :
    wordOf (v.setWidth 8) ((v >>> 8).setWidth 8) ((v >>> 16).setWidth 8) ((v >>> 24).setWidth 8) =
      v := by
  apply BitVec.eq_of_toNat_eq
  simp only [wordOf, BitVec.toNat_add, BitVec.toNat_shiftLeft, BitVec.toNat_setWidth,
    BitVec.toNat_ushiftRight, Nat.shiftLeft_eq, Nat.shiftRight_eq_div_pow]
  have := v.isLt
  omega

theorem readWords_words (id tag : Word) (rest : List Byte) :
    readWords (wordBytes id ++ wordBytes tag ++ rest) = some (id, tag, rest) := by
  simp only [wordBytes, List.cons_append, List.nil_append, readWords, wordOf_wordBytes]

theorem forkBit_eq : forkBit = BitVec.twoPow 32 31 := by decide

theorem getLsbD_of_lt {v : Word} (h : v.toNat < 2 ^ 31) : v.getLsbD 31 = false :=
  Nat.testBit_lt_two_pow h

theorem tag_fork (child : Word) : (child ||| forkBit) &&& forkBit ≠ 0 := by
  rw [forkBit_eq, BitVec.and_twoPow]
  simp

theorem tag_xor {child : Word} (h : child.toNat < 2 ^ 31) :
    (child ||| forkBit) ^^^ forkBit = child := by
  apply BitVec.eq_of_getLsbD_eq
  intro i hi
  have h31 := getLsbD_of_lt h
  by_cases hi31 : i = 31
  · subst hi31
    simp only [BitVec.getLsbD_xor, BitVec.getLsbD_or, h31, forkBit_eq, BitVec.getLsbD_twoPow]
    rfl
  · simp [forkBit_eq, BitVec.getLsbD_twoPow, Ne.symm hi31]

theorem tag_data {n : ℕ} (h : n < 2 ^ 31) :
    ¬BitVec.ofNat 32 n &&& forkBit ≠ 0 ∧ (BitVec.ofNat 32 n).toNat = n := by
  have hn : (BitVec.ofNat 32 n).toNat = n := by
    rw [BitVec.toNat_ofNat]
    exact Nat.mod_eq_of_lt (by omega)
  refine ⟨?_, hn⟩
  rw [forkBit_eq, BitVec.and_twoPow, getLsbD_of_lt (by rwa [hn])]
  simp

/-- A round of the first pass, on the two words of a record. -/
theorem findRoots_words (s id tag : Word) (parents : List (Word × Word)) (rest : List Byte) :
    findRoots s parents (wordBytes id ++ wordBytes tag ++ rest) =
      if tag &&& forkBit ≠ 0 then
        if tag ^^^ forkBit = s then
          ancestors parents (parents.length + 1) id [tag ^^^ forkBit]
        else
          findRoots s (if (parents.lookup (tag ^^^ forkBit)).isSome then parents
            else (tag ^^^ forkBit, id) :: parents) rest
      else findRoots s parents (rest.drop tag.toNat) := by
  rw [findRoots]
  split
  next h' => rw [readWords_words] at h'; cases h'
  next id' tag' rest' h' =>
    rw [readWords_words] at h'
    obtain ⟨rfl, rfl, rfl⟩ := by simpa using h'
    rfl

/-- A round of the second pass. -/
theorem collect_words (id tag : Word) (roots : List Word) (rest : List Byte) :
    collect roots (wordBytes id ++ wordBytes tag ++ rest) =
      if tag &&& forkBit ≠ 0 then
        if roots.head? = some id ∧ roots.tail.head? = some (tag ^^^ forkBit) then
          collect roots.tail rest
        else collect roots rest
      else if roots.head? = some id then
        rest.take tag.toNat ++ List.replicate (tag.toNat - rest.length) 0xff#8 ++
          collect roots (rest.drop tag.toNat)
      else collect roots (rest.drop tag.toNat) := by
  rw [collect]
  split
  next h' => rw [readWords_words] at h'; cases h'
  next id' tag' rest' h' =>
    rw [readWords_words] at h'
    obtain ⟨rfl, rfl, rfl⟩ := by simpa using h'
    rfl

theorem findRoots_fork {s id child : Word} (h : child.toNat < 2 ^ 31)
    (parents : List (Word × Word)) (rest : List Byte) :
    findRoots s parents (Record.encode (.fork id child) ++ rest) =
      if child = s then ancestors parents (parents.length + 1) id [child] else
        findRoots s (if (parents.lookup child).isSome then parents else (child, id) :: parents)
          rest := by
  rw [Record.encode, findRoots_words, if_pos (tag_fork child), tag_xor h]

theorem findRoots_data {s id : Word} {bytes : List Byte} (h : bytes.length < 2 ^ 31)
    (parents : List (Word × Word)) (rest : List Byte) :
    findRoots s parents (Record.encode (.data id bytes) ++ rest) = findRoots s parents rest := by
  obtain ⟨hbit, hlen⟩ := tag_data h
  rw [Record.encode, List.append_assoc _ bytes, findRoots_words, if_neg hbit, hlen, List.drop_left]

theorem collect_fork {id child : Word} (h : child.toNat < 2 ^ 31) (roots : List Word)
    (rest : List Byte) :
    collect roots (Record.encode (.fork id child) ++ rest) =
      if roots.head? = some id ∧ roots.tail.head? = some child then collect roots.tail rest
      else collect roots rest := by
  rw [Record.encode, collect_words, if_pos (tag_fork child), tag_xor h]

theorem collect_data {id : Word} {bytes : List Byte} (h : bytes.length < 2 ^ 31)
    (roots : List Word) (rest : List Byte) :
    collect roots (Record.encode (.data id bytes) ++ rest) =
      (if roots.head? = some id then bytes else []) ++ collect roots rest := by
  obtain ⟨hbit, hlen⟩ := tag_data h
  have hz : bytes.length - (bytes ++ rest).length = 0 := by
    rw [List.length_append]
    omega
  rw [Record.encode, List.append_assoc _ bytes, collect_words, if_neg hbit, hlen, List.drop_left,
    List.take_left, hz]
  split <;> simp

/-! ### Forks of a valid log -/

/-- The number of streams after a log. -/
def streamCount (log : List Record) : ℕ := (replay [] log).length

theorem streamCount_append_singleton (log : List Record) (r : Record) :
    streamCount (log ++ [r]) = streamCount log +
      match r with
      | .fork _ _ => 1
      | .data _ _ => 0 := by
  rw [streamCount, replay_append]
  cases r <;> simp [replay, Record.apply, streamCount]

theorem fork_bounds {log : List Record} (h : ValidLog [] log) {p c : Word}
    (hmem : Record.fork p c ∈ log) : p.toNat < c.toNat ∧ c.toNat ≤ streamCount log := by
  induction log using List.reverseRecOn with
  | nil => cases hmem
  | append_singleton log r ih =>
    obtain ⟨hlog, hr, -⟩ := validLog_append.mp h
    rw [List.mem_append, List.mem_singleton] at hmem
    rw [streamCount_append_singleton]
    obtain hmem | rfl := hmem
    · have := ih hlog hmem
      omega
    · obtain ⟨hp, hc, -⟩ := hr
      change p.toNat ≤ streamCount log at hp
      change c.toNat = streamCount log + 1 at hc
      dsimp only
      omega

theorem fork_unique {log : List Record} (h : ValidLog [] log) {p q c : Word}
    (hp : Record.fork p c ∈ log) (hq : Record.fork q c ∈ log) : p = q := by
  induction log using List.reverseRecOn with
  | nil => cases hp
  | append_singleton log r ih =>
    obtain ⟨hlog, hr, -⟩ := validLog_append.mp h
    -- the last fork is the only one for the newest stream
    have hnew : ∀ {a b d : Word}, Record.fork a d ∈ log → r = .fork b d → False := by
      rintro a b d hmem rfl
      have := (fork_bounds hlog hmem).2
      have hd : d.toNat = streamCount log + 1 := hr.2.1
      omega
    rw [List.mem_append, List.mem_singleton] at hp hq
    obtain hp | hp := hp <;> obtain hq | hq := hq
    · exact ih hlog hp hq
    · exact (hnew hp hq.symm).elim
    · exact (hnew hq hp.symm).elim
    · exact (Record.fork.inj (hp.trans hq.symm)).1

theorem fork_exists {log : List Record} (h : ValidLog [] log) {c : Word} (h0 : 0 < c.toNat)
    (hle : c.toNat ≤ streamCount log) : ∃ p, Record.fork p c ∈ log := by
  induction log using List.reverseRecOn with
  | nil => exact absurd hle (Nat.not_le.mpr h0)
  | append_singleton log r ih =>
    obtain ⟨hlog, hr, -⟩ := validLog_append.mp h
    by_cases hc : c.toNat ≤ streamCount log
    · obtain ⟨p, hp⟩ := ih hlog hc
      exact ⟨p, List.mem_append_left _ hp⟩
    · rw [streamCount_append_singleton] at hle
      cases r with
      | data id bytes => exact absurd hle hc
      | fork p d =>
        have hd : d.toNat = streamCount log + 1 := hr.2.1
        have hcd : c = d := BitVec.eq_of_toNat_eq (by dsimp only at hle; omega)
        exact ⟨p, by rw [hcd]; simp⟩

/-! ### The first pass -/

/-- The line of a stream's ancestors, the oldest first. -/
structure Lineage (log : List Record) (roots : List Word) (s : Word) : Prop where
  root : ∃ r, roots.head? = some r ∧ Record.fork 0 r ∈ log
  linked : roots.IsChain fun a b => Record.fork a b ∈ log
  last : roots.getLast? = some s

/-- The map of the first pass holds the forks it has seen. -/
structure Known (parents : List (Word × Word)) (pre : List Record) : Prop where
  length : parents.length = streamCount pre
  lookup : ∀ c p, parents.lookup c = some p ↔ Record.fork p c ∈ pre

theorem ancestors_lineage {parents : List (Word × Word)} {pre log : List Record} {s : Word}
    (hv : ValidLog [] pre) (hk : Known parents pre) (hsub : ∀ r ∈ pre, r ∈ log) {fuel : ℕ} {id : Word}
    {roots : List Word} {a : Word} (hfuel : id.toNat < fuel) (hid : id.toNat ≤ streamCount pre)
    (ha : roots.head? = some a) (hfork : Record.fork id a ∈ log)
    (hlinked : roots.IsChain fun a b => Record.fork a b ∈ log) (hlast : roots.getLast? = some s) :
    ∃ roots', ancestors parents fuel id roots = some roots' ∧ Lineage log roots' s := by
  induction fuel generalizing id roots a with
  | zero => exact absurd hfuel (Nat.not_lt_zero _)
  | succ fuel ih =>
    rw [ancestors]
    by_cases h0 : id = 0
    · subst h0
      exact ⟨roots, if_pos rfl, ⟨a, ha, hfork⟩, hlinked, hlast⟩
    · rw [if_neg h0]
      have hpos : 0 < id.toNat := Nat.pos_of_ne_zero fun hz => h0 (BitVec.eq_of_toNat_eq hz)
      obtain ⟨p, hp⟩ := fork_exists hv hpos hid
      rw [(hk.lookup id p).mpr hp]
      have hb := fork_bounds hv hp
      refine ih (a := id) (by omega) (by omega) rfl (hsub _ hp) ?_ ?_
      · obtain ⟨b, roots, rfl⟩ : ∃ b l, roots = b :: l := by
          cases roots with
          | nil => cases ha
          | cons b l => exact ⟨b, l, rfl⟩
        obtain rfl : b = a := Option.some.inj ha
        exact List.isChain_cons_cons.mpr ⟨hfork, hlinked⟩
      · cases roots with
        | nil => cases ha
        | cons b l => exact hlast

namespace Known

variable {parents : List (Word × Word)} {pre : List Record} {p c : Word}

theorem data (h : Known parents pre) (id : Word) (bytes : List Byte) :
    Known parents (pre ++ [.data id bytes]) where
  length := by
    rw [streamCount_append_singleton]
    exact h.length
  lookup c p := by
    rw [h.lookup]
    simp

/-- The newest stream is not in the map. -/
theorem lookup_new (h : Known parents pre) (hv : ValidLog [] pre)
    (hc : c.toNat = streamCount pre + 1) : parents.lookup c = none := by
  cases hl : parents.lookup c with
  | none => rfl
  | some q =>
    have := (fork_bounds hv ((h.lookup c q).mp hl)).2
    omega

theorem fork (h : Known parents pre) (hv : ValidLog [] pre) (hc : c.toNat = streamCount pre + 1) :
    Known ((c, p) :: parents) (pre ++ [.fork p c]) where
  length := by
    rw [streamCount_append_singleton, ← h.length]
    rfl
  lookup d q := by
    rw [List.lookup_cons, List.mem_append, List.mem_singleton, Record.fork.injEq, ← h.lookup]
    by_cases hd : d = c
    · subst hd
      simp [h.lookup_new hv hc, eq_comm]
    · have hbeq : (d == c) = false := beq_eq_false_iff_ne.mpr hd
      simp [hbeq, hd]

end Known

theorem findRoots_lineage {s : Word} (post pre : List Record) (parents : List (Word × Word))
    (hv : ValidLog [] (pre ++ post)) (hk : Known parents pre) (hlt : streamCount pre < s.toNat)
    (hle : s.toNat ≤ streamCount (pre ++ post)) :
    ∃ roots, findRoots s parents (post.flatMap Record.encode) = some roots ∧
      Lineage (pre ++ post) roots s := by
  induction post generalizing pre parents with
  | nil =>
    rw [List.append_nil] at hle
    omega
  | cons r post ih =>
    have happ : pre ++ r :: post = (pre ++ [r]) ++ post := by simp
    obtain ⟨hpre, hr, -⟩ := validLog_append.mp hv
    have hcount := streamCount_append_singleton pre r
    rw [happ] at hv hle ⊢
    rw [List.flatMap_cons]
    cases r with
    | data id bytes =>
      rw [findRoots_data hr.2.2]
      exact ih _ _ hv (hk.data id bytes) (by rw [hcount]; exact hlt) hle
    | fork p c =>
      obtain ⟨hp, hc, hsmall⟩ := hr
      change p.toNat ≤ streamCount pre at hp
      change c.toNat = streamCount pre + 1 at hc
      rw [findRoots_fork hsmall]
      split
      next hcs =>
        subst hcs
        refine ancestors_lineage hpre hk (fun r hr => by simp [hr]) ?_ hp rfl (by simp)
          (List.IsChain.singleton c) rfl
        rw [hk.length]
        omega
      next hcs =>
        have hne : c.toNat ≠ s.toNat := fun he => hcs (BitVec.eq_of_toNat_eq he)
        rw [hk.lookup_new hpre hc]
        exact ih _ _ hv (hk.fork hpre hc) (by rw [hcount]; dsimp only; omega) hle

/-! ### The second pass -/

section content

variable {t : Streams} {k : ℕ}

theorem content_zero (t : Streams) : content t 0 = [] := rfl

theorem content_append (h : k ≤ t.length) (x : List Byte) :
    content (t ++ [x]) k = content t k := by
  unfold content
  rw [List.getD_eq_getElem?_getD, List.getD_eq_getElem?_getD, ← List.cons_append,
    List.getElem?_append_left (by rw [List.length_cons]; omega)]

theorem content_new (t : Streams) (x : List Byte) : content (t ++ [x]) (t.length + 1) = x := by
  simp [content]

theorem content_of_lt (h : t.length < k) : content t k = [] := by
  unfold content
  rw [List.getD_eq_getElem?_getD, List.getElem?_eq_none (by rw [List.length_cons]; omega)]
  rfl

theorem content_modify (h0 : 0 < k) (hk : k ≤ t.length) (bytes : List Byte) (j : ℕ) :
    content (t.modify (k - 1) (· ++ bytes)) j =
      content t j ++ if j = k then bytes else [] := by
  cases j with
  | zero => simp [content_zero, Nat.ne_of_lt h0]
  | succ j =>
    have hj : j + 1 = k ↔ k - 1 = j := by omega
    simp only [content, List.getD_eq_getElem?_getD, hj]
    by_cases hjk : k - 1 = j
    · have hlt : j < t.length := by omega
      simp [hjk, hlt]
    · simp [hjk]

end content

/-- Where the second pass stands: at the youngest ancestor that has been opened. -/
structure Stands (log pre : List Record) (a : Word) (younger : List Word) (s : Word) : Prop where
  opened : a.toNat ≤ streamCount pre ∨ Record.fork 0 a ∈ log
  ahead : ∀ b, younger.head? = some b → streamCount pre < b.toNat
  linked : (a :: younger).IsChain fun a b => Record.fork a b ∈ log
  last : (a :: younger).getLast? = some s

theorem le_of_linked {log : List Record} (hv : ValidLog [] log) {a s : Word} {younger : List Word}
    (h : (a :: younger).IsChain fun a b => Record.fork a b ∈ log)
    (hs : (a :: younger).getLast? = some s) : a.toNat ≤ s.toNat := by
  induction younger generalizing a with
  | nil =>
    obtain rfl : a = s := by simpa using hs
    exact Nat.le_refl _
  | cons b younger ih =>
    obtain ⟨hab, hb⟩ := List.isChain_cons_cons.mp h
    have := (fork_bounds hv hab).1
    have := ih hb (by rwa [List.getLast?_cons_cons] at hs)
    omega

namespace Stands

variable {log pre : List Record} {a b p c s : Word} {younger : List Word}

theorem data (h : Stands log pre a younger s) (id : Word) (bytes : List Byte) :
    Stands log (pre ++ [.data id bytes]) a younger s := by
  have hcount := streamCount_append_singleton pre (.data id bytes)
  exact ⟨by rw [hcount]; exact h.opened, by rw [hcount]; exact h.ahead, h.linked, h.last⟩

/-- The walk goes down to the stream that is forked here. -/
theorem descend (hv : ValidLog [] log) (hb : b.toNat = streamCount pre + 1)
    (h : Stands log pre a (b :: younger) s) : Stands log (pre ++ [.fork a b]) b younger s := by
  have hcount := streamCount_append_singleton pre (.fork a b)
  obtain ⟨-, hlinked⟩ := List.isChain_cons_cons.mp h.linked
  refine ⟨.inl (by rw [hcount]; exact Nat.le_of_eq hb), ?_, hlinked, ?_⟩
  · intro d hd
    cases younger with
    | nil => cases hd
    | cons d' younger =>
      obtain rfl : d' = d := by simpa using hd
      have := (fork_bounds hv (List.isChain_cons_cons.mp hlinked).1).1
      rw [hcount]
      dsimp only
      omega
  · have hlast := h.last
    rwa [List.getLast?_cons_cons] at hlast

/-- Another stream is forked: the next ancestor is still ahead. -/
theorem stay (hv : ValidLog [] log) (hmem : Record.fork p c ∈ log)
    (hc : c.toNat = streamCount pre + 1)
    (hstay : ¬ ((a :: younger).head? = some p ∧ (a :: younger).tail.head? = some c))
    (h : Stands log pre a younger s) : Stands log (pre ++ [.fork p c]) a younger s := by
  have hcount := streamCount_append_singleton pre (.fork p c)
  refine ⟨h.opened.imp (fun h => by rw [hcount]; dsimp only; omega) id, ?_, h.linked, h.last⟩
  intro b hb
  have hlt := h.ahead b hb
  have hne : b.toNat ≠ c.toNat := by
    intro heq
    obtain rfl : b = c := BitVec.eq_of_toNat_eq heq
    apply hstay
    cases younger with
    | nil => cases hb
    | cons b' younger =>
      obtain rfl : b' = b := by simpa using hb
      have hab := (List.isChain_cons_cons.mp h.linked).1
      rw [fork_unique hv hab hmem]
      exact ⟨rfl, rfl⟩
  rw [hcount]
  dsimp only
  omega

/-- A fork leaves the contents of the stream as they were; one that opens it starts it empty. -/
theorem content_fork (hv : ValidLog [] log) (hmem : Record.fork p c ∈ log)
    (hc : c.toNat = streamCount pre + 1) (h : Stands log pre a younger s) :
    content (replay [] pre ++ [content (replay [] pre) p.toNat]) a.toNat =
      content (replay [] pre) a.toNat := by
  obtain hle | hroot := h.opened
  · exact content_append hle _
  · by_cases hac : a = c
    · subst hac
      have hnone : content (replay [] pre) a.toNat = [] :=
        content_of_lt (by change streamCount pre < _; omega)
      rw [hnone, fork_unique hv hmem hroot, hc]
      exact content_new (replay [] pre) _
    · have hne : a.toNat ≠ c.toNat := fun he => hac (BitVec.eq_of_toNat_eq he)
      by_cases hle : a.toNat ≤ streamCount pre
      · exact content_append hle _
      · rw [content_of_lt (Nat.not_le.mp hle), content_of_lt]
        rw [List.length_append, List.length_singleton]
        change streamCount pre + 1 < _
        omega

/-- At the end of the log the walk is at the stream itself. -/
theorem eq_of_end (hv : ValidLog [] log) (hs : s.toNat ≤ streamCount log)
    (h : Stands log log a younger s) : a = s ∧ younger = [] := by
  cases younger with
  | nil => exact ⟨by simpa using h.last, rfl⟩
  | cons b younger =>
    have hlt := h.ahead b rfl
    have hlast := h.last
    rw [List.getLast?_cons_cons] at hlast
    have := le_of_linked hv (List.isChain_cons_cons.mp h.linked).2 hlast
    omega

end Stands

theorem collect_content {s : Word} (post pre : List Record) {a : Word}
    {younger : List Word} (hv : ValidLog [] (pre ++ post))
    (hst : Stands (pre ++ post) pre a younger s) (hs : s.toNat ≤ streamCount (pre ++ post)) :
    content (replay [] pre) a.toNat ++ collect (a :: younger) (post.flatMap Record.encode) =
      content (replay [] (pre ++ post)) s.toNat := by
  induction post generalizing pre a younger with
  | nil =>
    rw [List.append_nil] at hs hv hst ⊢
    obtain ⟨rfl, rfl⟩ := hst.eq_of_end hv hs
    have hnil : collect [a] [] = [] := by
      rw [collect]
      rfl
    rw [List.flatMap_nil, hnil, List.append_nil]
  | cons r post ih =>
    have happ : pre ++ r :: post = (pre ++ [r]) ++ post := by simp
    obtain ⟨-, hr, -⟩ := validLog_append.mp hv
    have hmem : r ∈ (pre ++ [r]) ++ post := by simp
    rw [happ] at hv hs hst ⊢
    have hreplay : replay [] (pre ++ [r]) = r.apply (replay [] pre) := by
      rw [replay_append]
      rfl
    rw [List.flatMap_cons]
    cases r with
    | data id bytes =>
      rw [collect_data hr.2.2, ← ih _ hv (hst.data id bytes) hs, hreplay, Record.apply,
        content_modify hr.1 hr.2.1, List.append_assoc]
      congr 2
      have hiff : (a :: younger).head? = some id ↔ a.toNat = id.toNat := by
        rw [List.head?_cons, Option.some.injEq]
        exact ⟨congrArg _, BitVec.eq_of_toNat_eq⟩
      simp only [hiff]
    | fork p c =>
      obtain ⟨hp, hc, hsmall⟩ := hr
      change c.toNat = streamCount pre + 1 at hc
      rw [collect_fork hsmall]
      split
      next hpop =>
        obtain ⟨ha, hb⟩ := hpop
        obtain rfl : a = p := by simpa using ha
        cases younger with
        | nil => cases hb
        | cons b younger =>
          obtain rfl : b = c := by simpa using hb
          rw [List.tail_cons, ← ih _ hv (hst.descend hv hc) hs, hreplay, Record.apply, hc]
          congr 1
          exact (content_new (replay [] pre) _).symm
      next hstay =>
        rw [← ih _ hv (hst.stay hv hmem hc hstay) hs, hreplay, Record.apply,
          hst.content_fork hv hmem hc]

/-! ### Reading what was written -/

/-- The two passes over the file of a valid log. -/
theorem read_log {log : List Record} (hv : ValidLog [] log) {id : Word} (h0 : 0 < id.toNat)
    (hid : id.toNat ≤ streamCount log) :
    ∃ roots, findRoots id [] (log.flatMap Record.encode) = some roots ∧
      collect roots (log.flatMap Record.encode) = content (replay [] log) id.toNat := by
  obtain ⟨roots, hroots, hline⟩ := findRoots_lineage log [] [] hv
    ⟨rfl, by simp⟩ h0 hid
  rw [List.nil_append] at hline
  obtain ⟨r, hr, hroot⟩ := hline.root
  obtain ⟨younger, rfl⟩ : ∃ younger, roots = r :: younger := by
    cases roots with
    | nil => cases hr
    | cons a l => exact ⟨l, by rw [Option.some.inj hr]⟩
  have hst : Stands ([] ++ log) [] r younger id := by
    refine ⟨.inr hroot, ?_, hline.linked, hline.last⟩
    intro b hb
    cases younger with
    | nil => cases hb
    | cons b' younger =>
      obtain rfl : b' = b := by simpa using hb
      have := (fork_bounds hv (List.isChain_cons_cons.mp hline.linked).1).1
      exact Nat.lt_of_le_of_lt (Nat.zero_le _) this
  have hc := collect_content log [] hv hst hid
  have hpos : 0 < r.toNat := Nat.lt_of_le_of_lt (Nat.zero_le _) (fork_bounds hv hroot).1
  rw [content_of_lt (t := replay [] []) hpos, List.nil_append, List.nil_append] at hc
  exact ⟨_, hroots, hc⟩

theorem readStream_keeps {w : TreeStreamWriter} {t : Streams} {log : List Record}
    (h : w.Keeps t log) {id : TreeStreamID} (h0 : 0 < id.toNat) (hid : id.toNat ≤ t.length) :
    (w.readStream id).map Prod.fst = some (content t id.toNat) := by
  have hf := h.flushBuffer
  have hlog := hf.valid
  have ht := hf.replay
  rw [TreeStreamWriter.pending_of_nil (TreeStreamWriter.buffer_flushBuffer w),
    List.append_nil] at hlog ht
  obtain ⟨roots, hroots, hc⟩ := read_log hlog h0 (by rwa [streamCount, ht])
  have hrange : 0 < id ∧ id < w.ids := by
    constructor
    · exact BitVec.lt_def.mpr h0
    · rw [BitVec.lt_def, h.ids]
      omega
  rw [← hf.output] at hroots hc
  simp only [TreeStreamWriter.readStream, if_pos hrange, TreeStreamWriter.flush, hroots, hc, ht,
    Option.map_some]

/-- While fewer than `2^31` streams are open, each stream is read with the bytes its
ancestors had at the forks and the bytes written to it since. -/
theorem readStream_run (ops : List Op) (hops : EnabledAll [] ops) (hfew : opens ops < 2 ^ 31)
    {id : TreeStreamID} (h0 : 0 < id.toNat) (hid : id.toNat ≤ (specRun [] ops).length) :
    ((run .new ops).readStream id).map Prod.fst = some (content (specRun [] ops) id.toNat) := by
  obtain ⟨log, h⟩ := run_keeps TreeStreamWriter.keeps_new hops (by rwa [List.length_nil, Nat.zero_add])
  exact readStream_keeps h h0 hid

/-- A root with two bytes, a fork of it, and one more byte in each. -/
def forkOnce : List Op := [.openRoot, .write 1 [1, 2], .openChild 1, .write 1 [3], .write 2 [4]]

theorem readStream_forkOnce :
    ((run .new forkOnce).readStream 2).map Prod.fst = some [1, 2, 4] :=
  readStream_run forkOnce ⟨trivial, by decide, by decide, by decide, by decide, trivial⟩
    (by decide) (by decide) (by decide)

/-- No fork record names a stream whose ID has the top bit. -/
theorem findRoots_high {s : Word} (h : s.getLsbD 31 = true) (parents : List (Word × Word))
    (is : List Byte) : findRoots s parents is = none := by
  induction hn : is.length using Nat.strong_induction_on generalizing is parents with
  | _ n ih =>
    rw [findRoots]
    split
    next => rfl
    next id tag rest h' =>
      have hlen := readWords_length h'
      split
      next hfork =>
        have hbit : tag.getLsbD 31 = true := by
          rw [forkBit_eq, BitVec.and_twoPow] at hfork
          by_contra hb
          rw [if_neg hb] at hfork
          exact hfork rfl
        have hchild : (tag ^^^ forkBit).getLsbD 31 = false := by
          rw [BitVec.getLsbD_xor, hbit, forkBit_eq, BitVec.getLsbD_twoPow]
          rfl
        have hne : tag ^^^ forkBit ≠ s := by
          intro heq
          rw [heq, h] at hchild
          cases hchild
        simp only [if_neg hne]
        exact ih _ (by omega) _ _ rfl
      next =>
        refine ih _ ?_ _ _ rfl
        rw [List.length_drop]
        omega

theorem enabledAll_roots (n : ℕ) (t : Streams) : EnabledAll t (List.replicate n .openRoot) := by
  induction n generalizing t with
  | zero => trivial
  | succ n ih => exact ⟨trivial, ih _⟩

theorem specRun_roots (n : ℕ) (t : Streams) :
    specRun t (List.replicate n .openRoot) = t ++ List.replicate n [] := by
  induction n generalizing t with
  | zero => simp [specRun]
  | succ n ih =>
    rw [List.replicate_succ, List.replicate_succ]
    change specRun (t ++ [[]]) (List.replicate n .openRoot) = _
    rw [ih, List.append_assoc, List.singleton_append]

/-- The stream with the ID `2^31` is open and cannot be read. -/
theorem readStream_too_many :
    EnabledAll [] (List.replicate (2 ^ 31) .openRoot) ∧
      (BitVec.ofNat 32 (2 ^ 31)).toNat ≤ (specRun [] (List.replicate (2 ^ 31) .openRoot)).length ∧
      (run .new (List.replicate (2 ^ 31) .openRoot)).readStream (BitVec.ofNat 32 (2 ^ 31)) = none := by
  refine ⟨enabledAll_roots _ _, ?_, ?_⟩
  · rw [specRun_roots, List.nil_append, List.length_replicate]
    decide
  · unfold TreeStreamWriter.readStream
    split
    · simp only [findRoots_high (s := BitVec.ofNat 32 (2 ^ 31)) (by decide), Option.map_none]
    · rfl

end TreeStream

end TaseVerifier
