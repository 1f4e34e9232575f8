import Mathlib.Data.List.DropRight
import TaseVerifier.Executor.TetriNETLog

/-! Synthetic logs. `makeTetriNETSynthLog` puts other keys in the place of the ones that led
to a partial update. It finds them by two walks back from the update: the tail starts behind
the last input record, the head ends at the next record that is no input. -/

namespace TaseVerifier

namespace SynthLog

open TetriNETLog

variable {D : Type}

def isInput (r : TetriNETLogRecord D) : Bool := r.type == .INPUT

def isPartialUpdate (r : TetriNETLogRecord D) : Bool := r.type == .puC2S

/-! ### The source -/

/-- The index of partial update `msgIdx` among the records from index `i` on, before which
there are `currC2SMsgCtr` updates; 0 where there is none. -/
def msgLoop (msgIdx : ℤ) : List (TetriNETLogRecord D) → ℕ → ℕ → ℕ
  | [], _, _ => 0
  | curr :: rest, i, currC2SMsgCtr =>
    if isPartialUpdate curr then
      if (currC2SMsgCtr : ℤ) = msgIdx then i
      else msgLoop msgIdx rest (i + 1) (currC2SMsgCtr + 1)
    else msgLoop msgIdx rest (i + 1) currC2SMsgCtr

/-- The walk to `headEndIDX`; none where it indexes outside of the log. -/
def headWalk (log : List (TetriNETLogRecord D)) : ℕ → Bool → Option ℕ
  | 0, _ => none
  | walkBackCtr + 1, hasSeenINPUT => do
    let curr ← log[walkBackCtr]?
    if hasSeenINPUT then
      if isInput curr then headWalk log walkBackCtr true else some walkBackCtr
    else headWalk log walkBackCtr (isInput curr)

/-- The walk to `tailStartIDX`. -/
def tailWalk (log : List (TetriNETLogRecord D)) : ℕ → ℕ → Option ℕ
  | 0, _ => none
  | walkBackCtr + 1, tailStartIDX => do
    let curr ← log[walkBackCtr]?
    if isInput curr then some tailStartIDX else tailWalk log walkBackCtr (tailStartIDX - 1)

section

variable [Zero D]

def keyRecord (key : ℤ) : TetriNETLogRecord D := ⟨.INPUT, (toString key).toList, 0⟩

/-- The keys and the records of the tail are counted by an `int`. -/
def makeTetriNETSynthLog (tetriMsgLog : List (TetriNETLogRecord D)) (msgIdx : ℤ)
    (nextKeys : List ℤ) : Option (List (TetriNETLogRecord D)) := do
  let idxOfMsg := msgLoop msgIdx tetriMsgLog 0 0
  let headEndIDX ← headWalk tetriMsgLog idxOfMsg false
  guard (nextKeys.length < 2 ^ 31)
  let middle := nextKeys.map keyRecord
  let tailStartIDX ← tailWalk tetriMsgLog idxOfMsg idxOfMsg
  guard (tetriMsgLog.length < 2 ^ 31)
  return tetriMsgLog.take (headEndIDX + 1) ++ middle ++ tetriMsgLog.drop tailStartIDX

end

/-! ### The two walks -/

section Walks

variable (l R : List (TetriNETLogRecord D))

theorem headWalk_step (r : TetriNETLogRecord D) (seen : Bool) :
    headWalk (l ++ r :: R) (l.length + 1) seen =
      if seen && !isInput r then some l.length
      else headWalk (l ++ r :: R) l.length (seen || isInput r) := by
  have hr : (l ++ r :: R)[l.length]? = some r := by simp
  rw [headWalk, hr]
  cases seen <;> cases hi : isInput r <;> simp [hi]

theorem tailWalk_step (r : TetriNETLogRecord D) (t : ℕ) :
    tailWalk (l ++ r :: R) (l.length + 1) t =
      if isInput r then some t else tailWalk (l ++ r :: R) l.length (t - 1) := by
  have hr : (l ++ r :: R)[l.length]? = some r := by simp
  rw [tailWalk, hr]
  rfl

theorem headWalk_others {C : List (TetriNETLogRecord D)} (hC : ∀ r ∈ C, isInput r = false) :
    headWalk (l ++ (C ++ R)) (l.length + C.length) false =
      headWalk (l ++ (C ++ R)) l.length false := by
  induction C using List.reverseRecOn generalizing R with
  | nil => rfl
  | append_singleton C r ih =>
    have hlog : l ++ (C ++ [r] ++ R) = l ++ C ++ r :: R := by simp
    have hlen : l.length + (C ++ [r]).length = (l ++ C).length + 1 := by simp; omega
    have hr : isInput r = false := hC r (by simp)
    rw [hlog, hlen, headWalk_step, hr, List.length_append]
    simpa using ih (r :: R) fun s hs => hC s (by simp [hs])

theorem headWalk_inputs {B : List (TetriNETLogRecord D)} (hB : ∀ r ∈ B, isInput r = true) :
    headWalk (l ++ (B ++ R)) (l.length + B.length) true =
      headWalk (l ++ (B ++ R)) l.length true := by
  induction B using List.reverseRecOn generalizing R with
  | nil => rfl
  | append_singleton B r ih =>
    have hlog : l ++ (B ++ [r] ++ R) = l ++ B ++ r :: R := by simp
    have hlen : l.length + (B ++ [r]).length = (l ++ B).length + 1 := by simp; omega
    have hr : isInput r = true := hB r (by simp)
    rw [hlog, hlen, headWalk_step, hr, List.length_append]
    simpa using ih (r :: R) fun s hs => hB s (by simp [hs])

theorem tailWalk_others {C : List (TetriNETLogRecord D)} (hC : ∀ r ∈ C, isInput r = false) :
    tailWalk (l ++ (C ++ R)) (l.length + C.length) (l.length + C.length) =
      tailWalk (l ++ (C ++ R)) l.length l.length := by
  induction C using List.reverseRecOn generalizing R with
  | nil => rfl
  | append_singleton C r ih =>
    have hlog : l ++ (C ++ [r] ++ R) = l ++ C ++ r :: R := by simp
    have hlen : l.length + (C ++ [r]).length = (l ++ C).length + 1 := by simp; omega
    have hr : isInput r = false := hC r (by simp)
    rw [hlog, hlen, tailWalk_step, hr, List.length_append]
    simpa using ih (r :: R) fun s hs => hC s (by simp [hs])

/-- The head walk ends with the last record before the last run of inputs. -/
theorem headWalk_lastRun {B C : List (TetriNETLogRecord D)} (hB : ∀ r ∈ B, isInput r = true)
    (hne : B ≠ []) (hC : ∀ r ∈ C, isInput r = false)
    (hl : ∀ h : l ≠ [], isInput (l.getLast h) = false) :
    headWalk (l ++ B ++ C ++ R) (l ++ B ++ C).length false =
      if l = [] then none else some (l.length - 1) := by
  rw [List.append_assoc (l ++ B), List.length_append, headWalk_others (l ++ B) R hC]
  obtain ⟨B, r, rfl⟩ : ∃ B' r, B = B' ++ [r] :=
    ⟨B.dropLast, B.getLast hne, (List.dropLast_append_getLast hne).symm⟩
  have hlog : l ++ (B ++ [r]) ++ (C ++ R) = l ++ B ++ r :: (C ++ R) := by simp
  have hlen : (l ++ (B ++ [r])).length = (l ++ B).length + 1 := by simp; omega
  have hr : isInput r = true := hB r (by simp)
  rw [hlog, hlen, headWalk_step, hr]
  simp only [Bool.false_and, Bool.false_eq_true, if_false, Bool.false_or]
  rw [List.append_assoc, List.length_append,
    headWalk_inputs l (r :: (C ++ R)) fun s hs => hB s (by simp [hs])]
  rcases List.eq_nil_or_concat l with rfl | ⟨l, s, rfl⟩
  · rfl
  · have hs : isInput s = false := by simpa using hl (by simp)
    simpa [hs] using headWalk_step l (B ++ r :: (C ++ R)) s true

/-- The tail walk ends behind the last run of inputs. -/
theorem tailWalk_lastRun {B C : List (TetriNETLogRecord D)} (hB : ∀ r ∈ B, isInput r = true)
    (hne : B ≠ []) (hC : ∀ r ∈ C, isInput r = false) :
    tailWalk (l ++ B ++ C ++ R) (l ++ B ++ C).length (l ++ B ++ C).length =
      some (l ++ B).length := by
  rw [List.append_assoc (l ++ B), List.length_append, tailWalk_others (l ++ B) R hC]
  obtain ⟨B, r, rfl⟩ : ∃ B' r, B = B' ++ [r] :=
    ⟨B.dropLast, B.getLast hne, (List.dropLast_append_getLast hne).symm⟩
  have hlog : l ++ (B ++ [r]) ++ (C ++ R) = l ++ B ++ r :: (C ++ R) := by simp
  have hlen : (l ++ (B ++ [r])).length = (l ++ B).length + 1 := by simp; omega
  rw [hlog, hlen, tailWalk_step, hB r (by simp)]
  rfl

end Walks

theorem msgLoop_partialUpdate {l rest : List (TetriNETLogRecord D)} {pu : TetriNETLogRecord D}
    (hpu : isPartialUpdate pu = true) (i c : ℕ) :
    msgLoop ((c + l.countP isPartialUpdate : ℕ) : ℤ) (l ++ pu :: rest) i c = i + l.length := by
  induction l generalizing i c with
  | nil => simp [msgLoop, hpu]
  | cons r l ih =>
    rw [List.cons_append, msgLoop, List.countP_cons, List.length_cons]
    by_cases hr : isPartialUpdate r = true
    · have hc : (c : ℤ) ≠ ((c + (l.countP isPartialUpdate + 1) : ℕ) : ℤ) := by omega
      have := ih (i + 1) (c + 1)
      simp only [hr, if_true, if_neg hc]
      rw [show c + (l.countP isPartialUpdate + 1) = c + 1 + l.countP isPartialUpdate by omega, this]
      omega
    · simp only [hr, if_false, Bool.false_eq_true, Nat.add_zero]
      rw [ih (i + 1) c]
      omega

/-! ### The keys of one message -/

/-- The records of the log around the interval between partial update `msgIdx` and the one
before it, or the start of the log. -/
structure IntervalOf (log : List (TetriNETLogRecord D)) (msgIdx : ℕ)
    (before interval after : List (TetriNETLogRecord D)) : Prop where
  log_eq : log = before ++ interval ++ after
  after_head : ∃ pu rest, after = pu :: rest ∧ isPartialUpdate pu = true
  before_last : ∀ h : before ≠ [], isPartialUpdate (before.getLast h) = true
  before_count : before.countP isPartialUpdate = msgIdx
  interval_none : ∀ r ∈ interval, isPartialUpdate r = false

/-- A log with the given keys for the inputs of the interval, and everything else as it was. -/
def KeysReplaced (nextKeys : List ℤ) (before interval after : List (TetriNETLogRecord D))
    (result : Option (List (TetriNETLogRecord D))) : Prop :=
  ∃ interval', result = some (before ++ interval' ++ after) ∧
    interval'.filter (fun r => !isInput r) = interval.filter (fun r => !isInput r) ∧
    (interval'.filter isInput).map (·.msg) = nextKeys.map fun key => (toString key).toList

/-- The inputs stand next to each other, with a record before them. -/
def OneSeries (before interval : List (TetriNETLogRecord D)) : Prop :=
  ∃ first keys last, interval = first ++ keys ++ last ∧ before ++ first ≠ [] ∧
    (∀ r ∈ first, isInput r = false) ∧ (∀ r ∈ keys, isInput r = true) ∧
    ∀ r ∈ last, isInput r = false

theorem isInput_of_isPartialUpdate {r : TetriNETLogRecord D} (h : isPartialUpdate r = true) :
    isInput r = false := by
  simp only [isPartialUpdate, beq_iff_eq] at h
  simp [isInput, h]

theorem filter_none {p : TetriNETLogRecord D → Bool} {l : List (TetriNETLogRecord D)}
    (h : ∀ r ∈ l, p r = false) : l.filter p = [] :=
  List.filter_eq_nil_iff.2 fun r hr => by simp [h r hr]

/-- Every list with an input in it has a last series of inputs. -/
theorem exists_lastRun {l : List (TetriNETLogRecord D)} (h : ∃ r ∈ l, isInput r = true) :
    ∃ A B C, l = A ++ B ++ C ∧ B ≠ [] ∧ (∀ r ∈ B, isInput r = true) ∧
      (∀ r ∈ C, isInput r = false) ∧ ∀ hA : A ≠ [], isInput (A.getLast hA) = false := by
  set q := l.rdropWhile fun r => !isInput r with hq
  have hl : q ++ l.rtakeWhile (fun r => !isInput r) = l :=
    List.rdropWhile_append_rtakeWhile
  have hne : q ≠ [] := by
    intro h0
    obtain ⟨r, hr, hi⟩ := h
    have := (List.rdropWhile_eq_nil_iff).1 (hq ▸ h0) r hr
    simp [hi] at this
  have hlast : isInput (q.getLast hne) = true := by
    simpa using List.rdropWhile_last_not (fun r => !isInput r) l hne
  refine ⟨q.rdropWhile isInput, q.rtakeWhile isInput, l.rtakeWhile fun r => !isInput r, ?_, ?_,
    fun r hr => List.mem_rtakeWhile_imp hr, fun r hr => ?_, fun hA => ?_⟩
  · rw [List.rdropWhile_append_rtakeWhile, hl]
  · intro h0
    exact List.rtakeWhile_eq_nil_iff.1 h0 hne hlast
  · simpa using List.mem_rtakeWhile_imp hr
  · simpa using List.rdropWhile_last_not isInput q hA

section Result

variable [Zero D] {log before interval after A B C : List (TetriNETLogRecord D)} {msgIdx : ℕ}

/-- What comes out, by the last series `B` of inputs in the interval. -/
theorem makeTetriNETSynthLog_lastRun (hi : IntervalOf log msgIdx before interval after)
    (hABC : interval = A ++ B ++ C) (hne : B ≠ []) (hB : ∀ r ∈ B, isInput r = true)
    (hC : ∀ r ∈ C, isInput r = false) (hA : ∀ h : A ≠ [], isInput (A.getLast h) = false)
    (nextKeys : List ℤ) :
    makeTetriNETSynthLog log msgIdx nextKeys =
      if before ++ A ≠ [] ∧ nextKeys.length < 2 ^ 31 ∧ log.length < 2 ^ 31 then
        some (before ++ (A ++ nextKeys.map keyRecord ++ C) ++ after)
      else none := by
  obtain ⟨pu, rest, rfl, hpu⟩ := hi.after_head
  have hlog : log = before ++ A ++ B ++ C ++ pu :: rest := by rw [hi.log_eq, hABC]; simp
  have hcount : (before ++ A ++ B ++ C).countP isPartialUpdate = msgIdx := by
    have h0 : interval.countP isPartialUpdate = 0 :=
      List.countP_eq_zero.2 fun r hr => by simp [hi.interval_none r hr]
    have h1 : before ++ A ++ B ++ C = before ++ interval := by rw [hABC]; simp
    rw [h1, List.countP_append, h0, hi.before_count]
    rfl
  have hidx : msgLoop msgIdx log 0 0 = (before ++ A ++ B ++ C).length := by
    have hloop : msgLoop ((0 + (before ++ A ++ B ++ C).countP isPartialUpdate : ℕ) : ℤ)
        (before ++ A ++ B ++ C ++ pu :: rest) 0 0 = 0 + (before ++ A ++ B ++ C).length :=
      msgLoop_partialUpdate hpu 0 0
    rwa [Nat.zero_add, hcount, ← hlog, Nat.zero_add] at hloop
  have hlast : ∀ h : before ++ A ≠ [], isInput ((before ++ A).getLast h) = false := by
    intro h
    by_cases hA0 : A = []
    · subst hA0
      simpa using isInput_of_isPartialUpdate (hi.before_last (by simpa using h))
    · rw [List.getLast_append_of_ne_nil _ hA0]
      exact hA hA0
  have hhead := headWalk_lastRun (before ++ A) (pu :: rest) hB hne hC hlast
  have htail := tailWalk_lastRun (before ++ A) (pu :: rest) hB hne hC
  rw [← hlog, ← hidx] at hhead htail
  rw [makeTetriNETSynthLog, hhead, htail]
  by_cases h0 : before ++ A = []
  · simp [h0]
  · have hpos : 0 < (before ++ A).length := List.length_pos_of_ne_nil h0
    have htake : log.take ((before ++ A).length - 1 + 1) = before ++ A := by
      rw [Nat.sub_add_cancel hpos, hlog, List.append_assoc, List.append_assoc (before ++ A),
        List.take_left]
    have hdrop : log.drop (before ++ A ++ B).length = C ++ pu :: rest := by
      rw [hlog, List.append_assoc (before ++ A ++ B), List.drop_left]
    rw [if_neg h0]
    simp only [Option.bind_eq_bind, Option.bind_some, htake, hdrop, guard, ne_eq, h0,
      not_false_eq_true, true_and]
    by_cases hk : nextKeys.length < 2 ^ 31
    · by_cases hn : log.length < 2 ^ 31
      · simp only [hk, hn, and_self, if_true]
        simp
      · simp only [hk, hn, and_false, if_true, if_false]
        rfl
    · simp only [hk, false_and, if_false]
      rfl

theorem filter_keyRecord (nextKeys : List ℤ) :
    (nextKeys.map (keyRecord (D := D))).filter isInput = nextKeys.map keyRecord := by
  refine List.filter_eq_self.2 fun r hr => ?_
  obtain ⟨key, -, rfl⟩ := List.mem_map.1 hr
  rfl

/-- The keys are replaced exactly where they stand in one series and the counters hold. -/
theorem makeTetriNETSynthLog_iff (hi : IntervalOf log msgIdx before interval after)
    (hin : ∃ r ∈ interval, isInput r = true) (nextKeys : List ℤ) :
    KeysReplaced nextKeys before interval after (makeTetriNETSynthLog log msgIdx nextKeys) ↔
      OneSeries before interval ∧ nextKeys.length < 2 ^ 31 ∧ log.length < 2 ^ 31 := by
  constructor
  · rintro ⟨interval', hrun, -, hmsgs⟩
    obtain ⟨A, B, C, hABC, hne, hB, hC, hA⟩ := exists_lastRun hin
    rw [makeTetriNETSynthLog_lastRun hi hABC hne hB hC hA] at hrun
    split_ifs at hrun with hcond
    have hint : interval' = A ++ nextKeys.map keyRecord ++ C :=
      (List.append_cancel_left (List.append_cancel_right (Option.some.inj hrun))).symm
    -- an input before the last series is one more than the keys
    have hlen : (A.filter isInput).length = 0 := by
      have := congrArg List.length hmsgs
      rw [hint, List.filter_append, List.filter_append, filter_keyRecord, filter_none hC] at this
      simpa using this
    refine ⟨⟨A, B, C, hABC, hcond.1, fun r hr => ?_, hB, hC⟩, hcond.2⟩
    simpa using List.filter_eq_nil_iff.1 (List.length_eq_zero_iff.1 hlen) r hr
  · rintro ⟨⟨A, B, C, hABC, h0, hA, hB, hC⟩, hk, hn⟩
    have hne : B ≠ [] := by
      rintro rfl
      obtain ⟨r, hr, hri⟩ := hin
      rcases List.mem_append.1 (by simpa [hABC] using hr) with hr | hr
      · exact absurd hri (by simp [hA r hr])
      · exact absurd hri (by simp [hC r hr])
    have hlast : ∀ h : A ≠ [], isInput (A.getLast h) = false :=
      fun h => hA _ (List.getLast_mem h)
    refine ⟨A ++ nextKeys.map keyRecord ++ C, ?_, ?_, ?_⟩
    · rw [makeTetriNETSynthLog_lastRun hi hABC hne hB hC hlast, if_pos ⟨h0, hk, hn⟩]
    · have hmid : (nextKeys.map (keyRecord (D := D))).filter (fun r => !isInput r) = [] := by
        refine filter_none fun r hr => ?_
        obtain ⟨key, -, rfl⟩ := List.mem_map.1 hr
        rfl
      have hold : B.filter (fun r => !isInput r) = [] :=
        filter_none fun r hr => by simp [hB r hr]
      rw [hABC]
      simp only [List.filter_append, hmid, hold]
    · simp only [List.filter_append, filter_keyRecord, filter_none hA, filter_none hC,
        List.nil_append, List.append_nil, List.map_map]
      rfl

end Result

section Runs

def update : List (TetriNETLogRecord ℕ) := [⟨.puC2S, [], 4⟩]

/-- A message of the server and two keys lead to the update. -/
def adjacentKeys : List (TetriNETLogRecord ℕ) :=
  [⟨.S2C, [], 0⟩, ⟨.INPUT, ['1'], 1⟩, ⟨.INPUT, ['2'], 3⟩]

theorem makeTetriNETSynthLog_adjacentKeys :
    OneSeries [] adjacentKeys ∧ KeysReplaced [3] [] adjacentKeys update
      (makeTetriNETSynthLog (adjacentKeys ++ update) (0 : ℕ) [3]) := by
  have hinterval : IntervalOf (adjacentKeys ++ update) 0 [] adjacentKeys update :=
    ⟨rfl, ⟨_, _, rfl, rfl⟩, fun h => absurd rfl h, rfl, by decide⟩
  have hone : OneSeries [] adjacentKeys :=
    ⟨adjacentKeys.take 1, adjacentKeys.drop 1, [], rfl, List.cons_ne_nil _ _, by decide, by decide,
      by decide⟩
  refine ⟨hone, ?_⟩
  exact (makeTetriNETSynthLog_iff hinterval (by decide) [3]).mpr ⟨hone, by decide, by decide⟩

/-- A key, a message of the server and a key lead to the update. -/
def interleavedKeys : List (TetriNETLogRecord ℕ) :=
  [⟨.S2C, [], 0⟩, ⟨.INPUT, ['1'], 1⟩, ⟨.S2C, [], 2⟩, ⟨.INPUT, ['2'], 3⟩]

/-- The first key is still there. -/
theorem makeTetriNETSynthLog_interleavedKeys :
    IntervalOf (interleavedKeys ++ update) 0 [] interleavedKeys update ∧
      (∃ r ∈ interleavedKeys, isInput r = true) ∧
      ¬KeysReplaced [3] [] interleavedKeys update
        (makeTetriNETSynthLog (interleavedKeys ++ update) (0 : ℕ) [3]) := by
  refine ⟨⟨rfl, ⟨_, _, rfl, rfl⟩, fun h => absurd rfl h, rfl, by decide⟩, by decide, ?_⟩
  rintro ⟨interval', hrun, -, hmsgs⟩
  have hint : interval' = interleavedKeys.take 3 ++ [keyRecord 3] :=
    (List.append_cancel_right (Option.some.inj hrun)).symm
  have := congrArg List.length hmsgs
  rw [hint] at this
  exact absurd this (by decide)

end Runs

end SynthLog

end TaseVerifier
