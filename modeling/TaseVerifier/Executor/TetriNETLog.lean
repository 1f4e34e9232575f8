import Mathlib.Data.List.Infix
import Mathlib.Data.List.Forall2
import Mathlib.Data.Option.Basic
import TaseVerifier.Executor.TrainingCluster

/-! TetriNET logs. `loadTetriNETLogs` takes the kind of a record from what occurs anywhere
in its line, and `printTetriNETLogToFile` writes a log back with a mark for each kind. -/

namespace TaseVerifier

namespace TetriNETLog

open TrainingCluster (formatS)

/-! ### The loader -/

/-- Doubles as texts: `stod`, which throws where it finds no number or one out of range, and
`"%lf"`. What is printed is a number to `stod`, without a space or a newline. -/
structure DoubleText (D : Type) where
  stod : List Char → Option D
  formatLf : D → List Char
  stod_formatLf : ∀ d, (stod (formatLf d)).isSome = true
  plain : ∀ d, ∀ c ∈ formatLf d, c ≠ ' ' ∧ c ≠ '\n'

inductive TetriNETMsgType
  | puC2S | sbC2S | lvlC2S | otherC2S | S2C | INPUT
  deriving DecidableEq

structure TetriNETLogRecord (D : Type) where
  type : TetriNETMsgType
  msg : List Char
  timeStamp : D
  deriving DecidableEq

/-- The index of the first occurrence. -/
def find (pat : List Char) : List Char → Option ℕ
  | [] => if pat = [] then some 0 else none
  | c :: s => if pat <+: c :: s then some 0 else (find pat s).map (· + 1)

def contains (pat : String) (line : List Char) : Bool := (find pat.toList line).isSome

/-- A position behind the end throws. -/
def substr (pos : ℕ) (s : List Char) : Option (List Char) :=
  if pos ≤ s.length then some (s.drop pos) else none

def c2sType (line : List Char) : TetriNETMsgType :=
  if contains "p 1" line then .puC2S
  else if contains "sb " line then .sbC2S
  else if contains "lvl " line then .lvlC2S
  else .otherC2S

def typeOf (line : List Char) : Option TetriNETMsgType :=
  if contains "C2S" line then some (c2sType line)
  else if contains "S2C" line then some .S2C
  else if contains "INPUT" line then some .INPUT
  else none

/-- Without a colon `npos + 2` is 1. -/
def msgOf (line : List Char) : Option (List Char) :=
  substr (((find ":".toList line).map (· + 2)).getD 1) line

/-- The lines that `getline` returns one after the other. -/
def getlines : List Char → List (List Char)
  | [] => []
  | c :: s =>
    if c = '\n' then [] :: getlines s
    else match getlines s with
      | [] => [[c]]
      | line :: lines => (c :: line) :: lines

section Load

variable {D : Type} (T : DoubleText D)

def loadRecord (line timeLine : List Char) : Option (TetriNETLogRecord D) := do
  let type ← typeOf line
  let msg ← msgOf line
  guard (contains "seconds" timeLine)
  let timeStamp ← T.stod (timeLine.takeWhile (· != ' '))
  return ⟨type, msg, timeStamp⟩

/-- After a last line without a newline the stream is at its end, and `getline` leaves the line
as it is; else it clears it. -/
def loadRecords (ended : Bool) : List (List Char) → Option (List (TetriNETLogRecord D))
  | [] => some []
  | [line] => (loadRecord T line (if ended then [] else line)).map ([·])
  | line :: timeLine :: lines => do
    let currRecord ← loadRecord T line timeLine
    let records ← loadRecords ended lines
    return currRecord :: records

/-- The first two lines are the initial command and its time. -/
def loadTetriNETLogs (file : List Char) : Option (List (TetriNETLogRecord D)) :=
  if file = [] then none
  else loadRecords T (file.getLast? == some '\n') ((getlines file).drop 2)

end Load

/-! ### The printer -/

def tetriLogRecordIsC2S (type : TetriNETMsgType) : Bool :=
  type == .puC2S || type == .sbC2S || type == .lvlC2S || type == .otherC2S

def mark (type : TetriNETMsgType) : String :=
  if tetriLogRecordIsC2S type then "C2S MSG: "
  else if type = .S2C then "S2C MSG: "
  else "INPUT: "

section Print

variable {D : Type} (T : DoubleText D)

def printRecord (r : TetriNETLogRecord D) : List Char :=
  (mark r.type).toList ++ formatS r.msg ++ ['\n'] ++
    (T.formatLf r.timeStamp ++ " seconds".toList ++ ['\n'])

/-- The records are counted by an `int`. A file name other than `NONE` was given. -/
def printTetriNETLogToFile (tlog : List (TetriNETLogRecord D)) : Option (List Char) :=
  if tlog.length < 2 ^ 31 then
    some ("SYNTH LOG".toList ++ ['\n'] ++ ("0.0 seconds".toList ++ ['\n']) ++
      tlog.flatMap (printRecord T))
  else none

end Print

/-! ### Marks and types -/

theorem contains_iff {pat : String} {line : List Char} :
    contains pat line = true ↔ pat.toList <:+: line := by
  unfold contains
  generalize pat.toList = p
  induction line with
  | nil => simp [find]
  | cons c s ih =>
    rw [List.infix_cons_iff, ← ih, find]
    split_ifs with h <;> simp [h]

section Marks

variable (type : TetriNETMsgType) (text : List Char)

theorem contains_mark {pat : String} (h : pat = "p 1" ∨ pat = "sb " ∨ pat = "lvl ") :
    contains pat ((mark type).toList ++ text) = contains pat text := by
  rw [Bool.eq_iff_iff, contains_iff, contains_iff]
  obtain rfl | rfl | rfl := h <;> cases type <;>
    simp [mark, tetriLogRecordIsC2S, List.infix_cons_iff]

/-- No mark reaches into a pattern that tells the C2S messages apart. -/
theorem c2sType_mark : c2sType ((mark type).toList ++ text) = c2sType text := by
  rw [c2sType, contains_mark type text (.inl rfl), contains_mark type text (.inr (.inl rfl)),
    contains_mark type text (.inr (.inr rfl)), c2sType]

theorem isC2S_c2sType (line : List Char) : tetriLogRecordIsC2S (c2sType line) = true := by
  unfold c2sType
  split_ifs <;> rfl

theorem mark_of_isC2S {type : TetriNETMsgType} (h : tetriLogRecordIsC2S type = true) :
    mark type = "C2S MSG: " := by
  rw [mark, if_pos h]

theorem typeOf_c2s (h : tetriLogRecordIsC2S type = true) :
    typeOf ((mark type).toList ++ text) = some (c2sType text) := by
  have hc : contains "C2S" ((mark type).toList ++ text) = true := by
    rw [contains_iff, mark_of_isC2S h]
    exact ⟨[], " MSG: ".toList ++ text, by simp⟩
  rw [typeOf, if_pos hc, c2sType_mark]

theorem typeOf_S2C : typeOf ((mark .S2C).toList ++ text) =
    some (if contains "C2S" text then c2sType text else .S2C) := by
  have hc : contains "C2S" ((mark .S2C).toList ++ text) = contains "C2S" text := by
    rw [Bool.eq_iff_iff, contains_iff, contains_iff]
    simp [mark, tetriLogRecordIsC2S, List.infix_cons_iff]
  have hs : contains "S2C" ((mark .S2C).toList ++ text) = true := by
    rw [contains_iff]
    exact ⟨[], " MSG: ".toList ++ text, by simp [mark, tetriLogRecordIsC2S]⟩
  rw [typeOf, hc, c2sType_mark, if_pos hs]
  split_ifs <;> rfl

theorem typeOf_INPUT : typeOf ((mark .INPUT).toList ++ text) =
    some (if contains "C2S" text then c2sType text
      else if contains "S2C" text then .S2C else .INPUT) := by
  have hc : ∀ pat : String, pat = "C2S" ∨ pat = "S2C" →
      contains pat ((mark .INPUT).toList ++ text) = contains pat text := by
    intro pat hpat
    rw [Bool.eq_iff_iff, contains_iff, contains_iff]
    obtain rfl | rfl := hpat <;> simp [mark, tetriLogRecordIsC2S, List.infix_cons_iff]
  have hi : contains "INPUT" ((mark .INPUT).toList ++ text) = true := by
    rw [contains_iff]
    exact ⟨[], ": ".toList ++ text, by simp [mark, tetriLogRecordIsC2S]⟩
  rw [typeOf, hc _ (.inl rfl), hc _ (.inr rfl), c2sType_mark, if_pos hi]
  split_ifs <;> rfl

/-- The type is the one that the marked line of the message is read as. -/
def Settled : Prop := typeOf ((mark type).toList ++ text) = some type

/-- A second reading finds the type of the first. -/
theorem settled_of_typeOf {type' : TetriNETMsgType}
    (h : typeOf ((mark type).toList ++ text) = some type') : Settled type' text := by
  by_cases ht : tetriLogRecordIsC2S type = true
  · rw [typeOf_c2s type text ht] at h
    obtain rfl := Option.some.inj h
    exact typeOf_c2s _ text (isC2S_c2sType text)
  · have hsettled : Settled (c2sType text) text := typeOf_c2s _ text (isC2S_c2sType text)
    cases type with
    | puC2S | sbC2S | lvlC2S | otherC2S => exact absurd rfl ht
    | S2C =>
      rw [typeOf_S2C] at h
      obtain rfl := Option.some.inj h
      split_ifs with hc
      · exact hsettled
      · rw [Settled, typeOf_S2C, if_neg hc]
    | INPUT =>
      rw [typeOf_INPUT] at h
      obtain rfl := Option.some.inj h
      split_ifs with hc hs
      · exact hsettled
      · rw [Settled, typeOf_S2C, if_neg hc]
      · rw [Settled, typeOf_INPUT, if_neg hc, if_neg hs]

theorem typeOf_mark : ∃ type', typeOf ((mark type).toList ++ text) = some type' := by
  by_cases ht : tetriLogRecordIsC2S type = true
  · exact ⟨_, typeOf_c2s type text ht⟩
  · cases type with
    | puC2S | sbC2S | lvlC2S | otherC2S => exact absurd rfl ht
    | S2C => exact ⟨_, typeOf_S2C text⟩
    | INPUT => exact ⟨_, typeOf_INPUT text⟩

/-- The first colon is the one of the mark. -/
theorem msgOf_mark : msgOf ((mark type).toList ++ text) = some text := by
  cases type <;> simp [msgOf, mark, tetriLogRecordIsC2S, find, List.cons_prefix_cons, substr]

/-- A line of one of the three kinds. -/
def Marked (line : List Char) : Prop :=
  ∃ text, line = "C2S MSG: ".toList ++ text ∨ line = "S2C MSG: ".toList ++ text ∨
    line = "INPUT: ".toList ++ text

theorem Marked.exists_mark {line : List Char} (h : Marked line) :
    ∃ type text, line = (mark type).toList ++ text := by
  obtain ⟨text, rfl | rfl | rfl⟩ := h
  · exact ⟨.otherC2S, text, rfl⟩
  · exact ⟨.S2C, text, rfl⟩
  · exact ⟨.INPUT, text, rfl⟩

theorem newline_notMem_mark : '\n' ∉ (mark type).toList := by
  cases type <;> decide

end Marks

/-! ### Lines -/

theorem getlines_append {line : List Char} (h : '\n' ∉ line) (rest : List Char) :
    getlines (line ++ '\n' :: rest) = line :: getlines rest := by
  induction line with
  | nil => rfl
  | cons c line ih =>
    rw [List.mem_cons, not_or] at h
    rw [List.cons_append, getlines, if_neg (Ne.symm h.1), ih h.2]

theorem newline_notMem_getlines {file : List Char} : ∀ line ∈ getlines file, '\n' ∉ line := by
  induction file with
  | nil => simp [getlines]
  | cons c file ih =>
    rw [getlines]
    split_ifs with hc
    · rw [List.forall_mem_cons]
      exact ⟨List.not_mem_nil, ih⟩
    · cases hl : getlines file with
      | nil => simpa using Ne.symm hc
      | cons line lines =>
        rw [hl, List.forall_mem_cons] at ih
        rw [List.forall_mem_cons, List.mem_cons, not_or]
        exact ⟨⟨Ne.symm hc, ih.1⟩, ih.2⟩

/-- The lines of the records, between those of their times. -/
def recordLines : List (List Char) → List (List Char)
  | [] => []
  | [line] => [line]
  | line :: _ :: lines => line :: recordLines lines

section Records

variable {D : Type} {T : DoubleText D}

theorem loadRecord_eq_some {line timeLine : List Char} {r : TetriNETLogRecord D}
    (h : loadRecord T line timeLine = some r) :
    typeOf line = some r.type ∧ msgOf line = some r.msg := by
  simp only [loadRecord, Option.bind_eq_bind, Option.bind_eq_some_iff, Option.pure_def,
    Option.some.injEq] at h
  obtain ⟨type, htype, msg, hmsg, -, -, time, -, rfl⟩ := h
  exact ⟨htype, hmsg⟩

/-- A record as the loader leaves it. -/
def Loaded (r : TetriNETLogRecord D) : Prop := Settled r.type r.msg ∧ '\n' ∉ r.msg

theorem loaded_of_loadRecord {line timeLine : List Char} {r : TetriNETLogRecord D}
    (hm : Marked line) (hl : '\n' ∉ line) (h : loadRecord T line timeLine = some r) : Loaded r := by
  obtain ⟨type, text, rfl⟩ := hm.exists_mark
  obtain ⟨htype, hmsg⟩ := loadRecord_eq_some h
  rw [msgOf_mark] at hmsg
  obtain rfl := Option.some.inj hmsg
  exact ⟨settled_of_typeOf type _ htype, fun h => hl (List.mem_append_right _ h)⟩

theorem loaded_of_loadRecords {ended : Bool} {lines : List (List Char)}
    {tlog : List (TetriNETLogRecord D)}
    (hm : ∀ line ∈ recordLines lines, Marked line) (hl : ∀ line ∈ lines, '\n' ∉ line)
    (h : loadRecords T ended lines = some tlog) : ∀ r ∈ tlog, Loaded r := by
  induction lines using recordLines.induct generalizing tlog with
  | case1 =>
    obtain rfl := Option.some.inj h
    simp
  | case2 line =>
    rw [loadRecords, Option.map_eq_some_iff] at h
    obtain ⟨r, hr, rfl⟩ := h
    rw [List.forall_mem_singleton]
    exact loaded_of_loadRecord (hm line List.mem_cons_self) (hl line List.mem_cons_self) hr
  | case3 line timeLine lines ih =>
    simp only [loadRecords, Option.bind_eq_bind, Option.bind_eq_some_iff, Option.pure_def,
      Option.some.injEq] at h
    obtain ⟨r, hr, rs, hrs, rfl⟩ := h
    rw [recordLines, List.forall_mem_cons] at hm
    rw [List.forall_mem_cons, List.forall_mem_cons] at hl
    rw [List.forall_mem_cons]
    exact ⟨loaded_of_loadRecord hm.1 hl.1 hr, ih hm.2 hl.2.2 hrs⟩

/-! ### A log that was printed -/

/-- What is read back of a printed record: the message up to a zero character. -/
def ReadBack (r r' : TetriNETLogRecord D) : Prop :=
  r'.msg = formatS r.msg ∧ (formatS r.msg = r.msg → r'.type = r.type)

theorem loadRecord_printed {r : TetriNETLogRecord D} (hr : Loaded r) :
    ∃ r', loadRecord T ((mark r.type).toList ++ formatS r.msg)
      (T.formatLf r.timeStamp ++ " seconds".toList) = some r' ∧ ReadBack r r' := by
  obtain ⟨type, htype⟩ := typeOf_mark r.type (formatS r.msg)
  obtain ⟨time, htime⟩ := Option.isSome_iff_exists.mp (T.stod_formatLf r.timeStamp)
  have hsec : contains "seconds" (T.formatLf r.timeStamp ++ " seconds".toList) = true := by
    rw [contains_iff]
    exact ⟨T.formatLf r.timeStamp ++ [' '], [], by simp⟩
  have htoken : (T.formatLf r.timeStamp ++ " seconds".toList).takeWhile (· != ' ') =
      T.formatLf r.timeStamp := by
    rw [List.takeWhile_append_of_pos fun c hc => bne_iff_ne.mpr (T.plain _ c hc).1]
    simp
  refine ⟨⟨type, formatS r.msg, time⟩, ?_, rfl, fun h => ?_⟩
  · rw [loadRecord, htype, msgOf_mark, hsec, htoken, htime]
    rfl
  · rw [h, hr.1] at htype
    exact (Option.some.inj htype).symm

/-- The two lines of a record. -/
theorem getlines_printRecord {r : TetriNETLogRecord D} (hr : Loaded r) (rest : List Char) :
    getlines (printRecord T r ++ rest) = ((mark r.type).toList ++ formatS r.msg) ::
      (T.formatLf r.timeStamp ++ " seconds".toList) :: getlines rest := by
  have hline : '\n' ∉ (mark r.type).toList ++ formatS r.msg := by
    rw [List.mem_append, not_or]
    exact ⟨newline_notMem_mark _, fun h => hr.2 ((List.takeWhile_prefix _).subset h)⟩
  have htime : '\n' ∉ T.formatLf r.timeStamp ++ " seconds".toList := by
    rw [List.mem_append, not_or]
    exact ⟨fun h => (T.plain _ _ h).2 rfl, by decide⟩
  have hsplit : printRecord T r ++ rest = ((mark r.type).toList ++ formatS r.msg) ++
      '\n' :: ((T.formatLf r.timeStamp ++ " seconds".toList) ++ '\n' :: rest) := by
    simp [printRecord]
  rw [hsplit, getlines_append hline, getlines_append htime]

theorem loadRecords_printed {tlog : List (TetriNETLogRecord D)} (h : ∀ r ∈ tlog, Loaded r)
    (ended : Bool) :
    ∃ tlog', loadRecords T ended (getlines (tlog.flatMap (printRecord T))) = some tlog' ∧
      List.Forall₂ ReadBack tlog tlog' := by
  induction tlog with
  | nil => exact ⟨[], rfl, .nil⟩
  | cons r tlog ih =>
    rw [List.forall_mem_cons] at h
    obtain ⟨r', hr', hback⟩ := loadRecord_printed (T := T) h.1
    obtain ⟨tlog', htlog', hbacks⟩ := ih h.2
    refine ⟨r' :: tlog', ?_, .cons hback hbacks⟩
    rw [List.flatMap_cons, getlines_printRecord h.1, loadRecords, hr', htlog']
    rfl

/-- What is compared: the times are left aside. -/
def TetriNETLogRecord.content (r : TetriNETLogRecord D) : TetriNETMsgType × List Char :=
  (r.type, r.msg)

/-- The log is written, and loading what was written gives the same records. -/
def Survives (T : DoubleText D) (tlog : List (TetriNETLogRecord D)) : Prop :=
  ∃ text, printTetriNETLogToFile T tlog = some text ∧
    ∃ tlog', loadTetriNETLogs T text = some tlog' ∧
      tlog'.map TetriNETLogRecord.content = tlog.map TetriNETLogRecord.content

theorem formatS_eq_self_iff {s : List Char} : formatS s = s ↔ '\x00' ∉ s := by
  rw [formatS, List.takeWhile_eq_self_iff]
  simp only [bne_iff_ne, ne_eq]
  exact ⟨fun h hm => h _ hm rfl, fun h c hc hz => h (hz ▸ hc)⟩

theorem content_readBack_iff {tlog tlog' : List (TetriNETLogRecord D)}
    (h : List.Forall₂ ReadBack tlog tlog') :
    tlog'.map TetriNETLogRecord.content = tlog.map TetriNETLogRecord.content ↔
      ∀ r ∈ tlog, '\x00' ∉ r.msg := by
  induction h with
  | nil => simp
  | cons hr _ ih =>
    rw [List.map_cons, List.map_cons, List.cons.injEq, ih, List.forall_mem_cons,
      ← formatS_eq_self_iff]
    refine and_congr_left fun _ => ⟨fun hc => ?_, fun hs => ?_⟩
    · rw [← hr.1]
      exact congrArg Prod.snd hc
    · exact Prod.ext (hr.2 hs) (hr.1.trans hs)

/-- The printed log can be loaded, record by record. -/
theorem load_printed {tlog : List (TetriNETLogRecord D)} (h : ∀ r ∈ tlog, Loaded r)
    {text : List Char} (htext : printTetriNETLogToFile T tlog = some text) :
    ∃ tlog', loadTetriNETLogs T text = some tlog' ∧ List.Forall₂ ReadBack tlog tlog' := by
  unfold printTetriNETLogToFile at htext
  split_ifs at htext
  have hsplit : text = "SYNTH LOG".toList ++ '\n' :: ("0.0 seconds".toList ++ '\n' ::
      tlog.flatMap (printRecord T)) := by
    rw [← Option.some.inj htext]
    simp
  have hne : text ≠ [] := by simp [hsplit]
  have hlines : (getlines text).drop 2 = getlines (tlog.flatMap (printRecord T)) := by
    rw [hsplit, getlines_append (by decide), getlines_append (by decide)]
    rfl
  rw [loadTetriNETLogs, if_neg hne, hlines]
  exact loadRecords_printed h _

/-- A loaded log survives exactly when no message has a zero character, at which the printer
stops, and its number of records is in the range of the counter. -/
theorem rewritten_survives_iff (T : DoubleText D) (file : List Char)
    (tlog : List (TetriNETLogRecord D)) (hload : loadTetriNETLogs T file = some tlog)
    (hmarked : ∀ line ∈ recordLines ((getlines file).drop 2), Marked line) :
    Survives T tlog ↔ tlog.length < 2 ^ 31 ∧ ∀ r ∈ tlog, '\x00' ∉ r.msg := by
  have hloaded : ∀ r ∈ tlog, Loaded r := by
    unfold loadTetriNETLogs at hload
    split_ifs at hload
    exact loaded_of_loadRecords hmarked
      (fun line hline => newline_notMem_getlines line (List.mem_of_mem_drop hline)) hload
  constructor
  · rintro ⟨text, htext, tlog', htlog', hsame⟩
    obtain ⟨tlog'', htlog'', hback⟩ := load_printed hloaded htext
    obtain rfl := Option.some.inj (htlog'.symm.trans htlog'')
    refine ⟨?_, (content_readBack_iff hback).mp hsame⟩
    unfold printTetriNETLogToFile at htext
    split_ifs at htext with hlen
    exact hlen
  · rintro ⟨hlen, hzero⟩
    obtain ⟨text, htext⟩ : ∃ text, printTetriNETLogToFile T tlog = some text := by
      rw [printTetriNETLogToFile, if_pos hlen]
      exact ⟨_, rfl⟩
    obtain ⟨tlog', htlog', hback⟩ := load_printed hloaded htext
    exact ⟨text, htext, tlog', htlog', (content_readBack_iff hback).mpr hzero⟩

end Records

/-- Times that are whole microseconds, as `"%lf"` prints them. -/
def micros : DoubleText ℕ where
  stod s :=
    let whole := s.takeWhile Char.isDigit
    let frac := (s.drop (whole.length + 1)).takeWhile Char.isDigit
    if whole = [] then none
    else some (Nat.ofDigitChars 10 whole 0 * 10 ^ 6 +
      Nat.ofDigitChars 10 ((frac ++ List.replicate 6 '0').take 6) 0)
  formatLf t :=
    Nat.toDigits 10 (t / 10 ^ 6) ++ '.' :: (Nat.toDigits 10 (10 ^ 6 + t % 10 ^ 6)).drop 1
  stod_formatLf t := by
    have hdigits : ∀ c ∈ Nat.toDigits 10 (t / 10 ^ 6), c.isDigit = true :=
      fun _ h => Nat.isDigit_of_mem_toDigits (by decide) (by decide) h
    rw [List.takeWhile_append_of_pos hdigits]
    simp [Char.isDigit]
  plain t c hc := by
    have hdigit : ∀ n, c ∈ Nat.toDigits 10 n → c ≠ ' ' ∧ c ≠ '\n' := by
      intro n h
      have hc := Nat.isDigit_of_mem_toDigits (by decide) (by decide) h
      constructor <;> rintro rfl <;> cases hc
    rw [List.mem_append, List.mem_cons] at hc
    obtain h | rfl | h := hc
    · exact hdigit _ h
    · decide
    · exact hdigit _ (List.mem_of_mem_drop h)

/-- A server message that names the other direction is read as a C2S record, and stays one. -/
theorem rewritten_survives_otherMark :
    ∃ tlog, loadTetriNETLogs micros
        "cmd\n0.0 seconds\nS2C MSG: sb C2S: 1\n0.5 seconds\n".toList = some tlog ∧
      tlog.map TetriNETLogRecord.content = [(.sbC2S, "sb C2S: 1".toList)] ∧
      (∀ line ∈ recordLines ((getlines
        "cmd\n0.0 seconds\nS2C MSG: sb C2S: 1\n0.5 seconds\n".toList).drop 2), Marked line) ∧
      (Survives micros tlog ↔ tlog.length < 2 ^ 31 ∧ ∀ r ∈ tlog, '\x00' ∉ r.msg) := by
  have hload : loadTetriNETLogs micros
      "cmd\n0.0 seconds\nS2C MSG: sb C2S: 1\n0.5 seconds\n".toList =
        some [⟨.sbC2S, "sb C2S: 1".toList, 500000⟩] := by decide
  have hmarked : ∀ line ∈ recordLines ((getlines
      "cmd\n0.0 seconds\nS2C MSG: sb C2S: 1\n0.5 seconds\n".toList).drop 2), Marked line := by
    have hlines : recordLines ((getlines
        "cmd\n0.0 seconds\nS2C MSG: sb C2S: 1\n0.5 seconds\n".toList).drop 2) =
          ["S2C MSG: ".toList ++ "sb C2S: 1".toList] := by decide
    rw [hlines, List.forall_mem_singleton]
    exact ⟨_, .inr (.inl rfl)⟩
  exact ⟨_, hload, rfl, hmarked, rewritten_survives_iff micros _ _ hload hmarked⟩

/-- A message with a zero character is cut there. -/
theorem rewritten_cuts_zero :
    let file := "cmd\n0.0 seconds\nINPUT: a\x00b\n0.5 seconds\n".toList
    (∀ line ∈ recordLines ((getlines file).drop 2), Marked line) ∧
      ∃ tlog, loadTetriNETLogs micros file = some tlog ∧ ¬ Survives micros tlog := by
  intro file
  have hlines : recordLines ((getlines file).drop 2) =
      ["INPUT: ".toList ++ ['a', '\x00', 'b']] := by decide
  have hload : loadTetriNETLogs micros file = some [⟨.INPUT, ['a', '\x00', 'b'], 500000⟩] := by
    decide
  refine ⟨?_, _, hload, ?_⟩
  · rw [hlines, List.forall_mem_singleton]
    exact ⟨_, .inr (.inr rfl)⟩
  · rintro ⟨text, htext, tlog', htlog', hsame⟩
    have hprint : printTetriNETLogToFile micros [⟨.INPUT, ['a', '\x00', 'b'], 500000⟩] =
        some "SYNTH LOG\n0.0 seconds\nINPUT: a\n0.500000 seconds\n".toList := by decide
    obtain rfl := Option.some.inj (hprint.symm.trans htext)
    have hreload : loadTetriNETLogs micros
        "SYNTH LOG\n0.0 seconds\nINPUT: a\n0.500000 seconds\n".toList =
          some [⟨.INPUT, ['a'], 500000⟩] := by decide
    obtain rfl := Option.some.inj (hreload.symm.trans htlog')
    revert hsame
    decide

end TetriNETLog

end TaseVerifier
