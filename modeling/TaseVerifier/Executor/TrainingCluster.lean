import Mathlib.Data.List.TakeWhile
import Mathlib.Algebra.BigOperators.Group.List.Basic
import TaseVerifier.Library.Reading

/-! Training clusters of the Mavlink verification. `resetAndWriteCluster` appends the
message, the kind of its end and the execution fragment to a text file, and
`loadMavlinkTrainingCluster` reads the fragment of the first record back through a line
buffer of fixed size. -/

namespace TaseVerifier

open Library

namespace TrainingCluster

abbrev BlockID := BitVec 64

/-! ### The writer -/

/-- `"%lu"` -/
def formatLu (v : BlockID) : List Char := Nat.toDigits 10 v.toNat

/-- `"%x"` -/
def formatX (b : Byte) : List Char := Nat.toDigits 16 b.toNat

/-- `"%s"` of a string object's `c_str()`. -/
def formatS (s : List Char) : List Char := s.takeWhile (· != '\x00')

structure ClusterState where
  callCtr : ℕ
  cluster_log : List Char
  execution_fragment : List BlockID

/-- The line of the branches. -/
def fragmentLine (fragment : List BlockID) : List Char :=
  fragment.flatMap fun v => formatLu v ++ [',']

/-- The first call opens the file and empties it. Without a branch the access to
`execution_fragment[0]` is out of range. -/
def resetAndWriteCluster (msg : List Byte) (clusterEndType : List Char) (s : ClusterState) :
    Option ClusterState :=
  match s.execution_fragment with
  | [] => none
  | first :: _ => some {
      callCtr := s.callCtr + 1
      cluster_log := (if s.callCtr = 0 then [] else s.cluster_log) ++
        ((msg.flatMap fun b => formatX b ++ [',']) ++ ['\n']) ++
        (formatLu first ++ [','] ++ formatS clusterEndType ++ [','] ++ ['\n']) ++
        (fragmentLine s.execution_fragment ++ ['\n']) ++ ['\n']
      execution_fragment := [] }

/-! ### The reader -/

/-- The characters up to the next newline are dropped; at the end of the file the loop
goes on for ever. -/
def skipLine : List Char → Option (List Char)
  | [] => none
  | c :: s => if c = '\n' then some s else skipLine s

def upToNewline : List Char → List Char
  | [] => []
  | c :: s => if c = '\n' then [c] else c :: upToNewline s

/-- At most `n - 1` characters, up to and with the first newline; nothing is stored at the
end of the file. -/
def fgets (n : ℕ) (s : List Char) : Option (List Char) :=
  if s = [] then none else some (upToNewline (s.take (n - 1)))

/-- The next token between commas and what is left behind it. -/
def strtok (s : List Char) : Option (List Char × List Char) :=
  match s.dropWhile (· == ',') with
  | [] => none
  | c :: t => some (c :: t.takeWhile (· != ','), (t.dropWhile (· != ',')).drop 1)

def isspace (c : Char) : Bool := c == ' ' || (0x09 ≤ c.toNat && c.toNat ≤ 0x0d)

/-- `sscanf(tok, "%lu", &v)` on a `v` that holds 0: a sign may stand before the digits, a
value out of range becomes the largest one, and without a digit nothing is stored. -/
def sscanfLu (tok : List Char) : BlockID :=
  let s := tok.dropWhile isspace
  let neg := s.head? = some '-'
  let s := if s.head? = some '-' ∨ s.head? = some '+' then s.drop 1 else s
  let v := Nat.ofDigitChars 10 (s.takeWhile Char.isDigit) 0
  if 2 ^ 64 ≤ v then BitVec.allOnes 64 else
    if neg then -BitVec.ofNat 64 v else BitVec.ofNat 64 v

theorem strtok_length {s tok rest : List Char} (h : strtok s = some (tok, rest)) :
    rest.length < s.length := by
  unfold strtok at h
  split at h
  · cases h
  next c t hs =>
    obtain ⟨-, rfl⟩ := Prod.mk.inj (Option.some.inj h)
    have h₁ := (List.dropWhile_suffix (l := s) (· == ',')).length_le
    have h₂ := (List.dropWhile_suffix (l := t) (· != ',')).length_le
    rw [hs, List.length_cons] at h₁
    rw [List.length_drop]
    omega

/-- The loop over the tokens; 0 marks a token without a number. -/
def scanTokens (s : List Char) : List BlockID :=
  match h : strtok s with
  | none => []
  | some (tok, rest) =>
    let currBBID := sscanfLu tok
    if currBBID ≠ 0 then currBBID :: scanTokens rest else scanTokens rest
  termination_by s.length
  decreasing_by all_goals exact strtok_length h

def lineSize : ℕ := 10000

def loadMavlinkTrainingCluster (file : List Char) : Option (List BlockID) := do
  let s ← skipLine file
  let s ← skipLine s
  let line ← fgets lineSize s
  return scanTokens (line.takeWhile (· != '\x00'))

/-! ### Tokens that are numerals -/

def AllDigits (s : List Char) : Prop := ∀ c ∈ s, c.isDigit

theorem allDigits_formatLu (v : BlockID) : AllDigits (formatLu v) :=
  fun _ h => Nat.isDigit_of_mem_toDigits (by decide) (by decide) h

theorem AllDigits.bne {s : List Char} (h : AllDigits s) {b : Char} (hb : b.isDigit = false) :
    ∀ c ∈ s, (c != b) = true := by
  intro c hc
  rw [bne_iff_ne]
  rintro rfl
  rw [h _ hc] at hb
  cases hb

/-- A character that is a digit is neither white space nor a sign. -/
theorem isspace_of_isDigit {c : Char} (h : c.isDigit) : isspace c = false := by
  rw [Char.isDigit, Bool.and_eq_true, decide_eq_true_eq, decide_eq_true_eq] at h
  have h₁ : 48 ≤ c.toNat := by simpa using UInt32.le_iff_toNat_le.mp h.1
  have hne : (c == ' ') = false := by
    rw [beq_eq_false_iff_ne]
    rintro rfl
    exact absurd h₁ (by decide)
  rw [isspace, hne, Bool.false_or, Bool.and_eq_false_iff]
  right
  rw [decide_eq_false_iff_not]
  omega

theorem sscanfLu_digits {s : List Char} (h : AllDigits s) :
    sscanfLu s = if 2 ^ 64 ≤ Nat.ofDigitChars 10 s 0 then BitVec.allOnes 64
      else BitVec.ofNat 64 (Nat.ofDigitChars 10 s 0) := by
  have hall : s.takeWhile Char.isDigit = s := List.takeWhile_eq_self_iff.mpr h
  cases s with
  | nil => rfl
  | cons c t =>
    have hc := h c List.mem_cons_self
    have hspace : (c :: t).dropWhile isspace = c :: t := by
      rw [List.dropWhile_cons, isspace_of_isDigit hc]
      rfl
    have hm : c ≠ '-' := by rintro rfl; cases hc
    have hp : c ≠ '+' := by rintro rfl; cases hc
    simp only [sscanfLu, hspace, List.head?_cons, Option.some.injEq, hm, hp, or_self, if_false,
      hall]

theorem sscanfLu_formatLu (v : BlockID) : sscanfLu (formatLu v) = v := by
  rw [sscanfLu_digits (allDigits_formatLu v), formatLu, Nat.ofDigitChars_ten_toDigits,
    if_neg (Nat.not_le.mpr v.isLt), BitVec.ofNat_toNat, BitVec.setWidth_eq]

/-- Part of a numeral is a smaller number. -/
theorem sscanfLu_prefix {v : BlockID} {p q : List Char} (h : formatLu v = p ++ q) (hq : q ≠ [])
    (hv : v ≠ 0) : sscanfLu p ≠ v := by
  have hval : Nat.ofDigitChars 10 (p ++ q) 0 = v.toNat := by
    rw [← h, formatLu, Nat.ofDigitChars_ten_toDigits]
  rw [Nat.ofDigitChars_append, Nat.ofDigitChars_eq_ofDigitChars_zero] at hval
  have hp : AllDigits p := fun c hc => allDigits_formatLu v c (by rw [h]; simp [hc])
  have hten : 10 ≤ 10 ^ q.length := by
    have := Nat.pow_le_pow_right (show 0 < 10 by decide) (List.length_pos_iff.mpr hq)
    simpa using this
  have hle : 10 * Nat.ofDigitChars 10 p 0 ≤ v.toNat := by
    rw [← hval]
    exact (Nat.mul_le_mul_right _ hten).trans (Nat.le_add_right _ _)
  have hpos : v.toNat ≠ 0 := fun h0 => hv (BitVec.eq_of_toNat_eq h0)
  have hlt := v.isLt
  rw [sscanfLu_digits hp, if_neg (by omega)]
  intro heq
  have := congrArg BitVec.toNat heq
  rw [BitVec.toNat_ofNat, Nat.mod_eq_of_lt (by omega)] at this
  omega

/-! ### Scanning a line -/

/-- What one token adds to the branches. -/
def scanned (tok : List Char) : List BlockID := if sscanfLu tok ≠ 0 then [sscanfLu tok] else []

theorem scanTokens_of_strtok {s tok rest : List Char} (h : strtok s = some (tok, rest)) :
    scanTokens s = scanned tok ++ scanTokens rest := by
  rw [scanTokens]
  split
  next h' => rw [h'] at h; cases h
  next tok' rest' h' =>
    obtain ⟨rfl, rfl⟩ := Prod.mk.inj (Option.some.inj (h.symm.trans h'))
    by_cases hz : sscanfLu tok ≠ 0
    · simp only [scanned, if_pos hz, List.singleton_append]
    · simp only [scanned, if_neg hz, List.nil_append]

theorem scanTokens_of_none {s : List Char} (h : strtok s = none) : scanTokens s = [] := by
  rw [scanTokens]
  split
  next => rfl
  next h' => rw [h'] at h; cases h

theorem strtok_digits {tok : List Char} (h : AllDigits tok) (hne : tok ≠ []) (rest : List Char) :
    strtok (tok ++ ',' :: rest) = some (tok, rest) ∧ strtok tok = some (tok, []) := by
  obtain ⟨c, t, rfl⟩ := List.exists_cons_of_ne_nil hne
  have hall := h.bne (b := ',') (by decide)
  have hc : (c == ',') = false := by simpa using hall c List.mem_cons_self
  have ht : ∀ x ∈ t, (x != ',') = true := fun x hx => hall x (List.mem_cons_of_mem c hx)
  constructor
  · simp [strtok, hc, List.takeWhile_append_of_pos ht, List.dropWhile_append_of_pos ht]
  · have hd : t.dropWhile (· != ',') = [] := List.dropWhile_eq_nil_iff.mpr ht
    have htk : t.takeWhile (· != ',') = t := List.takeWhile_eq_self_iff.mpr ht
    simp [strtok, hc, hd, htk]

theorem scanTokens_newline : scanTokens ['\n'] = [] := by
  have h : strtok ['\n'] = some (['\n'], []) := by decide
  rw [scanTokens_of_strtok h, scanTokens_of_none (by decide)]
  decide

theorem zero_not_mem_scanTokens (s : List Char) : 0 ∉ scanTokens s := by
  induction hn : s.length using Nat.strong_induction_on generalizing s with
  | _ n ih =>
    cases h : strtok s with
    | none => rw [scanTokens_of_none h]; exact List.not_mem_nil
    | some p =>
      rw [scanTokens_of_strtok h, List.mem_append, not_or]
      refine ⟨?_, ih _ (hn ▸ strtok_length h) _ rfl⟩
      unfold scanned
      split
      next hne => simpa using Ne.symm hne
      next => exact List.not_mem_nil

theorem formatLu_ne_nil (v : BlockID) : formatLu v ≠ [] := Nat.toDigits_ne_nil

theorem scanned_formatLu (v : BlockID) : scanned (formatLu v) = [v].filter (· ≠ 0) := by
  rw [scanned, sscanfLu_formatLu]
  by_cases h : v = 0
  · subst h
    rfl
  · rw [if_pos h, List.filter_cons_of_pos (by rwa [decide_eq_true_eq]), List.filter_nil]

theorem scanTokens_fragmentLine (fragment : List BlockID) (rest : List Char) :
    scanTokens (fragmentLine fragment ++ rest) = fragment.filter (· ≠ 0) ++ scanTokens rest := by
  induction fragment with
  | nil => rfl
  | cons v fragment ih =>
    have hs := (strtok_digits (allDigits_formatLu v) (formatLu_ne_nil v)
      (fragmentLine fragment ++ rest)).1
    have hl : fragmentLine (v :: fragment) ++ rest =
        formatLu v ++ ',' :: (fragmentLine fragment ++ rest) := by
      simp [fragmentLine]
    rw [hl, scanTokens_of_strtok hs, ih, scanned_formatLu, ← List.append_assoc,
      ← List.filter_append, List.singleton_append]

theorem fragmentLine_cons (v : BlockID) (fragment : List BlockID) :
    fragmentLine (v :: fragment) = formatLu v ++ ',' :: fragmentLine fragment := by
  simp [fragmentLine]

theorem scanTokens_digits {tok : List Char} (h : AllDigits tok) (hne : tok ≠ []) :
    scanTokens tok = scanned tok := by
  rw [scanTokens_of_strtok (strtok_digits h hne []).2, scanTokens_of_none rfl, List.append_nil]

/-- A line that loses only its last comma is scanned like the whole line. -/
theorem scanTokens_dropLast (fragment : List BlockID) :
    scanTokens ((fragmentLine fragment).take ((fragmentLine fragment).length - 1)) =
      fragment.filter (· ≠ 0) := by
  rcases fragment.eq_nil_or_concat' with rfl | ⟨init, v, rfl⟩
  · exact scanTokens_of_none rfl
  · have hl : fragmentLine (init ++ [v]) = (fragmentLine init ++ formatLu v) ++ [','] := by
      simp [fragmentLine]
    rw [hl, List.length_append, List.length_singleton, Nat.add_sub_cancel, List.take_left,
      scanTokens_fragmentLine, scanTokens_digits (allDigits_formatLu v) (formatLu_ne_nil v),
      scanned_formatLu, List.filter_append]

/-- A line that loses more is scanned to something else. -/
theorem scanTokens_take_ne {fragment : List BlockID} {n : ℕ}
    (h : n + 1 < (fragmentLine fragment).length) :
    scanTokens ((fragmentLine fragment).take n) ≠ fragment := by
  induction fragment generalizing n with
  | nil => exact absurd h (Nat.not_lt_zero _)
  | cons v fragment ih =>
    intro heq
    have hv : v ≠ 0 := by
      rintro rfl
      exact zero_not_mem_scanTokens _ (heq ▸ List.mem_cons_self)
    rw [fragmentLine_cons] at h heq
    rw [List.length_append, List.length_cons] at h
    by_cases hn : (formatLu v).length < n
    · -- the first numeral and its comma are kept
      obtain ⟨m, rfl⟩ : ∃ m, n = (formatLu v).length + (m + 1) := ⟨n - (formatLu v).length - 1, by omega⟩
      rw [List.take_length_add_append, List.take_succ_cons,
        scanTokens_of_strtok (strtok_digits (allDigits_formatLu v) (formatLu_ne_nil v) _).1,
        scanned, sscanfLu_formatLu, if_pos hv, List.singleton_append] at heq
      exact ih (by omega) (List.cons.inj heq).2
    · rw [List.take_append_of_le_length (by omega)] at heq
      have hd : AllDigits ((formatLu v).take n) := fun c hc =>
        allDigits_formatLu v c (List.mem_of_mem_take hc)
      by_cases hz : (formatLu v).take n = []
      · rw [hz, scanTokens_of_none rfl] at heq
        cases heq
      rw [scanTokens_digits hd hz] at heq
      have hone : sscanfLu ((formatLu v).take n) = v ∧ fragment = [] := by
        unfold scanned at heq
        split at heq
        · obtain ⟨h₁, h₂⟩ := List.cons.inj heq
          exact ⟨h₁, h₂.symm⟩
        · cases heq
      obtain ⟨hval, rfl⟩ := hone
      refine sscanfLu_prefix (List.take_append_drop n _).symm ?_ hv hval
      intro hnil
      rw [List.drop_eq_nil_iff] at hnil
      simp [fragmentLine] at h
      omega

/-! ### The line buffer -/

theorem skipLine_append {l : List Char} (h : '\n' ∉ l) (s : List Char) :
    skipLine (l ++ '\n' :: s) = some s := by
  induction l with
  | nil => rfl
  | cons c l ih =>
    rw [List.mem_cons, not_or] at h
    rw [List.cons_append, skipLine, if_neg (Ne.symm h.1)]
    exact ih h.2

theorem upToNewline_of_not_mem {l : List Char} (h : '\n' ∉ l) : upToNewline l = l := by
  induction l with
  | nil => rfl
  | cons c l ih =>
    rw [List.mem_cons, not_or] at h
    rw [upToNewline, if_neg (Ne.symm h.1), ih h.2]

theorem upToNewline_append {l : List Char} (h : '\n' ∉ l) (s : List Char) :
    upToNewline (l ++ '\n' :: s) = l ++ ['\n'] := by
  induction l with
  | nil => rfl
  | cons c l ih =>
    rw [List.mem_cons, not_or] at h
    rw [List.cons_append, upToNewline, if_neg (Ne.symm h.1), ih h.2, List.cons_append]

theorem not_mem_fragmentLine {c : Char} (hd : c.isDigit = false) (hc : c ≠ ',')
    (fragment : List BlockID) : c ∉ fragmentLine fragment := by
  intro h
  obtain ⟨v, -, hv⟩ := List.mem_flatMap.mp h
  rw [List.mem_append, List.mem_singleton] at hv
  obtain hv | rfl := hv
  · rw [allDigits_formatLu v c hv] at hd
    cases hd
  · exact hc rfl

/-- What the buffer holds of a line of branches and what follows it. -/
theorem fgets_fragmentLine (fragment : List BlockID) (rest : List Char) :
    fgets lineSize (fragmentLine fragment ++ '\n' :: rest) =
      some (if (fragmentLine fragment).length < lineSize - 1 then fragmentLine fragment ++ ['\n']
        else (fragmentLine fragment).take (lineSize - 1)) := by
  have hn : '\n' ∉ fragmentLine fragment := not_mem_fragmentLine (by decide) (by decide) _
  rw [fgets, if_neg (by simp)]
  split
  next h =>
    obtain ⟨m, hm⟩ : ∃ m, lineSize - 1 = (fragmentLine fragment).length + (m + 1) :=
      ⟨lineSize - 1 - (fragmentLine fragment).length - 1, by omega⟩
    rw [hm, List.take_length_add_append, List.take_succ_cons, upToNewline_append hn]
  next h =>
    rw [List.take_append_of_le_length (by omega),
      upToNewline_of_not_mem fun h' => hn (List.mem_of_mem_take h')]

/-- The fragment that is loaded from a line of branches. -/
def loadedLine (fragment : List BlockID) : List BlockID :=
  scanTokens (if (fragmentLine fragment).length < lineSize - 1 then fragmentLine fragment ++ ['\n']
    else (fragmentLine fragment).take (lineSize - 1))

theorem load_record {l₁ l₂ : List Char} (h₁ : '\n' ∉ l₁) (h₂ : '\n' ∉ l₂)
    (fragment : List BlockID) (rest : List Char) :
    loadMavlinkTrainingCluster
      (l₁ ++ '\n' :: (l₂ ++ '\n' :: (fragmentLine fragment ++ '\n' :: rest))) =
      some (loadedLine fragment) := by
  have hz : '\x00' ∉ fragmentLine fragment := not_mem_fragmentLine (by decide) (by decide) _
  have hline : ∀ l : List Char, '\x00' ∉ l → l.takeWhile (· != '\x00') = l := by
    intro l hl
    rw [List.takeWhile_eq_self_iff]
    intro c hc
    rw [bne_iff_ne]
    rintro rfl
    exact hl hc
  simp only [loadMavlinkTrainingCluster, skipLine_append h₁, skipLine_append h₂,
    fgets_fragmentLine, Option.bind_eq_bind, Option.bind_some]
  rw [hline]
  · rfl
  · split
    · simp [hz]
    · exact fun h => hz (List.mem_of_mem_take h)

/-- Branches with the ID 0 are dropped, and so is all that the buffer cannot hold. -/
theorem loadedLine_eq_iff (fragment : List BlockID) :
    loadedLine fragment = fragment ↔
      0 ∉ fragment ∧ (fragmentLine fragment).length ≤ lineSize := by
  have hfilter : fragment.filter (· ≠ 0) = fragment ↔ 0 ∉ fragment := by
    rw [List.filter_eq_self]
    constructor
    · intro h hmem
      exact of_decide_eq_true (h 0 hmem) rfl
    · intro h v hv
      rw [decide_eq_true_eq]
      rintro rfl
      exact h hv
  unfold loadedLine
  split
  next h =>
    rw [scanTokens_fragmentLine, scanTokens_newline, List.append_nil, hfilter]
    exact ⟨fun h0 => ⟨h0, by omega⟩, And.left⟩
  next h =>
    by_cases hlt : lineSize - 1 + 1 < (fragmentLine fragment).length
    · have hne := scanTokens_take_ne hlt
      constructor
      · exact fun heq => absurd heq hne
      · rintro ⟨-, hle⟩
        unfold lineSize at *
        omega
    · have hle : (fragmentLine fragment).length ≤ lineSize := by
        unfold lineSize at *
        omega
      have hscan : scanTokens ((fragmentLine fragment).take (lineSize - 1)) =
          fragment.filter (· ≠ 0) := by
        obtain hl | hl : lineSize - 1 = (fragmentLine fragment).length ∨
            lineSize - 1 = (fragmentLine fragment).length - 1 := by
          unfold lineSize at *
          omega
        · have ha := scanTokens_fragmentLine fragment []
          rw [List.append_nil] at ha
          rw [hl, List.take_length, ha, scanTokens_of_none rfl, List.append_nil]
        · rw [hl, scanTokens_dropLast]
      rw [hscan, hfilter]
      exact ⟨fun h0 => ⟨h0, hle⟩, And.left⟩

/-! ### The round trip -/

/-- The fragment is written, and a file that goes on with `more` gives it back. -/
def ReadsBack (msg : List Byte) (clusterEndType : List Char) (s : ClusterState)
    (more : List Char) : Prop :=
  ∃ s', resetAndWriteCluster msg clusterEndType s = some s' ∧
    loadMavlinkTrainingCluster (s'.cluster_log ++ more) = some s.execution_fragment

theorem newline_not_mem_formatX (b : Byte) : '\n' ∉ formatX b := by
  have h : ∀ n < 256, '\n' ∉ Nat.toDigits 16 n := by decide +kernel
  exact h b.toNat b.isLt

theorem newline_not_mem_message (msg : List Byte) :
    '\n' ∉ msg.flatMap fun b => formatX b ++ [','] := by
  intro h
  obtain ⟨b, -, hb⟩ := List.mem_flatMap.mp h
  rw [List.mem_append, List.mem_singleton] at hb
  exact hb.elim (newline_not_mem_formatX b) (by decide)

theorem newline_not_mem_type (v : BlockID) {clusterEndType : List Char}
    (h : '\n' ∉ clusterEndType) :
    '\n' ∉ formatLu v ++ [','] ++ formatS clusterEndType ++ [','] := by
  have hv : '\n' ∉ formatLu v := fun hm => absurd (allDigits_formatLu v _ hm) (by decide)
  have hs : '\n' ∉ formatS clusterEndType := fun hm =>
    h ((List.takeWhile_prefix _).subset hm)
  simp [hv, hs]

theorem fragmentLine_length (fragment : List BlockID) : (fragmentLine fragment).length =
    (fragment.map fun v => (formatLu v).length + 1).sum := by
  rw [fragmentLine, List.length_flatMap]
  simp

/-- The log that the first call leaves, seen by the reader. -/
theorem load_first {s : ClusterState} (hfirst : s.callCtr = 0) (hne : s.execution_fragment ≠ [])
    (msg : List Byte) {clusterEndType : List Char} (hend : '\n' ∉ clusterEndType)
    (more : List Char) : ∃ s', resetAndWriteCluster msg clusterEndType s = some s' ∧
      loadMavlinkTrainingCluster (s'.cluster_log ++ more) =
        some (loadedLine s.execution_fragment) := by
  obtain ⟨ctr, log, fragment⟩ := s
  obtain ⟨v, fragment, rfl⟩ := List.exists_cons_of_ne_nil hne
  dsimp only at hfirst
  subst hfirst
  refine ⟨_, rfl, ?_⟩
  have h := load_record (newline_not_mem_message msg) (newline_not_mem_type v hend)
    (v :: fragment) ('\n' :: more)
  rw [← h]
  simp

/-- A first record is read back exactly when no ID in it is 0 and its line of branches,
numerals and commas, has at most 10000 characters. -/
theorem readsBack_iff {s : ClusterState} (hfirst : s.callCtr = 0)
    (hne : s.execution_fragment ≠ []) (msg : List Byte) {clusterEndType : List Char}
    (hend : '\n' ∉ clusterEndType) (more : List Char) :
    ReadsBack msg clusterEndType s more ↔ 0 ∉ s.execution_fragment ∧
      (s.execution_fragment.map fun v => (formatLu v).length + 1).sum ≤ 10000 := by
  obtain ⟨s', hw, hl⟩ := load_first hfirst hne msg hend more
  rw [← fragmentLine_length]
  refine Iff.trans ?_ (loadedLine_eq_iff s.execution_fragment)
  constructor
  · rintro ⟨t, ht, hr⟩
    obtain rfl := Option.some.inj (hw.symm.trans ht)
    exact Option.some.inj (hl.symm.trans hr)
  · intro heq
    exact ⟨s', hw, hl.trans (congrArg some heq)⟩

/-- A fragment of two branches that is read back. -/
theorem readsBack_two : ReadsBack [0xfe, 9] ['R', 'T'] ⟨0, [], [12, 345]⟩ [] :=
  (readsBack_iff rfl (by decide) _ (by decide) []).mpr ⟨by decide, by decide⟩

/-- The block with the ID 0 is lost. -/
theorem zero_not_readBack : ¬ReadsBack [0xfe, 9] ['R', 'T'] ⟨0, [], [0, 345]⟩ [] := by
  obtain ⟨s', hw, hl⟩ := load_first (s := ⟨0, [], [0, 345]⟩) rfl (by decide) [0xfe, 9]
    (show '\n' ∉ ['R', 'T'] by decide) []
  rintro ⟨t, ht, hr⟩
  obtain rfl := Option.some.inj (hw.symm.trans ht)
  have heq := (loadedLine_eq_iff _).mp (Option.some.inj (hl.symm.trans hr))
  exact heq.1 List.mem_cons_self

end TrainingCluster

end TaseVerifier
