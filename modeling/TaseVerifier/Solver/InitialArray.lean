import Mathlib.Data.List.Nodup
import TaseVerifier.Expr.Syntax

/-! The array variables of the solver builders. Both builders keep a table from array
objects to solver terms and name a new variable by the array's name, cut to fit in 32
characters, and the number of arrays already in the table. The solver tells variables
apart by name and sort. -/

namespace TaseVerifier

/-- An array with the widths of its indices and its values. -/
structure SolverArray extends KleeArray where
  domain : ℕ
  range : ℕ
  deriving DecidableEq

/-- The solver terms that stand for an initial array. -/
inductive ArrayTerm where
  | variable (name : List Char) (indexWidth valueWidth : ℕ)
  | write (array : ArrayTerm) (index : ℕ) (value : APInt)
  deriving DecidableEq

/-- The variable under the writes, as the solver identifies it. -/
def ArrayTerm.root : ArrayTerm → List Char × ℕ × ℕ
  | .variable name indexWidth valueWidth => (name, indexWidth, valueWidth)
  | .write array _ _ => array.root

/-- `_arr_hash`, with the entries in the order in which they were made. -/
abbrev ArrayHash := List (SolverArray × ArrayTerm)

namespace InitialArray

def itostr (n : ℕ) : List Char := Nat.toDigits 10 n

/-- What is kept of a name in front of an identifier of the given length. -/
def cutName (name : List Char) (uid_length : ℕ) : List Char :=
  name.take (if name.length > 32 - uid_length then 32 - uid_length else name.length)

def uniqueName (name : List Char) (size : ℕ) : List Char :=
  cutName name (itostr size).length ++ itostr size

/-- The new variable, with the values of a constant array written into it. -/
def newArray (root : SolverArray) (size : ℕ) : ArrayTerm :=
  root.constantValues.zipIdx.foldl (fun t p => t.write p.2 p.1)
    (.variable (uniqueName root.name.toList size) root.domain root.range)

/-- The body that the two builders share. -/
def initialArray (h : ArrayHash) (root : SolverArray) : ArrayHash × ArrayTerm :=
  match h.lookup root with
  | some array_expr => (h, array_expr)
  | none => (h ++ [(root, newArray root h.length)], newArray root h.length)

end InitialArray

def Z3Builder.getInitialArray := InitialArray.initialArray

def STPBuilder.getInitialArray := InitialArray.initialArray

inductive SolverBuilder where
  | Z3 | STP

def SolverBuilder.getInitialArray :
    SolverBuilder → ArrayHash → SolverArray → ArrayHash × ArrayTerm
  | .Z3 => Z3Builder.getInitialArray
  | .STP => STPBuilder.getInitialArray

namespace InitialArray

/-- The table after a sequence of calls on one builder. -/
def run (b : SolverBuilder) (roots : List SolverArray) : ArrayHash :=
  roots.foldl (fun h root => (b.getInitialArray h root).1) []

/-- Different arrays have different solver variables. -/
def Distinct (h : ArrayHash) : Prop :=
  ∀ p ∈ h, ∀ q ∈ h, p.1 ≠ q.1 → p.2.root ≠ q.2.root

instance (h : ArrayHash) : Decidable (Distinct h) :=
  inferInstanceAs (Decidable (∀ p ∈ h, ∀ q ∈ h, p.1 ≠ q.1 → p.2.root ≠ q.2.root))

/-- The arrays of a sequence, each at the place of its first request. -/
def firstRequests (roots : List SolverArray) : List SolverArray :=
  roots.foldl (fun l root => if root ∈ l then l else l ++ [root]) []

/-- The `j`-th array's number takes over the digits that end the `i`-th array's name. -/
def Clash (l : List SolverArray) (i j : ℕ) : Prop :=
  ∃ a ∈ l[i]?, ∃ b ∈ l[j]?, a.domain = b.domain ∧ a.range = b.range ∧ ∃ digits,
    itostr j = digits ++ itostr i ∧
    cutName a.name.toList (itostr i).length = cutName b.name.toList (itostr j).length ++ digits

/-! ### Numerals -/

theorem itostr_injective {i j : ℕ} (h : itostr i = itostr j) : i = j := by
  have hv := congrArg (fun s => Nat.ofDigitChars 10 s 0) h
  simpa only [itostr, Nat.ofDigitChars_ten_toDigits] using hv

theorem itostr_length_mono {i j : ℕ} (h : i ≤ j) : (itostr i).length ≤ (itostr j).length := by
  have hpos : 0 < (itostr j).length := Nat.length_toDigits_pos
  have hj := (Nat.length_toDigits_le_iff (by decide) hpos).mp (Nat.le_refl (itostr j).length)
  exact (Nat.length_toDigits_le_iff (by decide) hpos).mpr (Nat.lt_of_le_of_lt h hj)

theorem uniqueName_eq_iff {n m : List Char} {i j : ℕ} (h : i < j) :
    uniqueName n i = uniqueName m j ↔ ∃ digits, itostr j = digits ++ itostr i ∧
      cutName n (itostr i).length = cutName m (itostr j).length ++ digits := by
  unfold uniqueName
  rw [List.append_eq_append_iff]
  constructor
  · rintro (⟨t, -, ht⟩ | ⟨t, hn, ht⟩)
    · -- the shorter numeral cannot end in the longer one
      have hlen := congrArg List.length ht
      rw [List.length_append] at hlen
      have hmono := itostr_length_mono (Nat.le_of_lt h)
      have hnil : t = [] := List.length_eq_zero_iff.mp (by omega)
      rw [hnil, List.nil_append] at ht
      exact absurd (itostr_injective ht) (Nat.ne_of_lt h)
    · exact ⟨t, ht, hn⟩
  · rintro ⟨t, ht, hn⟩
    exact .inr ⟨t, hn, ht⟩

/-! ### The table -/

theorem root_writes (values : List (APInt × ℕ)) (t : ArrayTerm) :
    (values.foldl (fun t p => t.write p.2 p.1) t).root = t.root := by
  induction values generalizing t with
  | nil => rfl
  | cons p values ih => exact ih (t.write p.2 p.1)

theorem root_newArray (a : SolverArray) (size : ℕ) :
    (newArray a size).root = (uniqueName a.name.toList size, a.domain, a.range) :=
  root_writes _ _

/-- The table of a list of arrays, numbered by their places. -/
def table (l : List SolverArray) : ArrayHash := l.mapIdx fun i a => (a, newArray a i)

theorem mem_table {l : List SolverArray} {p : SolverArray × ArrayTerm} :
    p ∈ table l ↔ ∃ i a, l[i]? = some a ∧ p = (a, newArray a i) := by
  rw [table, List.mem_mapIdx]
  constructor
  · rintro ⟨i, hi, rfl⟩
    exact ⟨i, l[i], List.getElem?_eq_getElem hi, rfl⟩
  · rintro ⟨i, a, ha, rfl⟩
    obtain ⟨hi, rfl⟩ := List.getElem?_eq_some_iff.mp ha
    exact ⟨i, hi, rfl⟩

/-- The table has an entry for each array of the list. -/
theorem lookup_table_eq_none {l : List SolverArray} {root : SolverArray} :
    (table l).lookup root = none ↔ root ∉ l := by
  rw [List.lookup_eq_none_iff]
  constructor
  · intro h hmem
    obtain ⟨i, hi, rfl⟩ := List.getElem_of_mem hmem
    have hp := h _ (mem_table.mpr ⟨i, _, List.getElem?_eq_getElem hi, rfl⟩)
    simp at hp
  · intro h p hp
    obtain ⟨i, a, ha, rfl⟩ := mem_table.mp hp
    have hne : root ≠ a := by
      rintro rfl
      exact h (List.mem_of_getElem? ha)
    simpa using hne

theorem step_table (b : SolverBuilder) (l : List SolverArray) (root : SolverArray) :
    (b.getInitialArray (table l) root).1 = table (if root ∈ l then l else l ++ [root]) := by
  have hb : b.getInitialArray = initialArray := by cases b <;> rfl
  rw [hb, initialArray]
  cases hl : (table l).lookup root with
  | none =>
    rw [if_neg (lookup_table_eq_none.mp hl), table, table, List.mapIdx_concat, List.length_mapIdx]
  | some t =>
    have hmem : root ∈ l := by
      by_contra h
      rw [lookup_table_eq_none.mpr h] at hl
      cases hl
    rw [if_pos hmem]

theorem run_eq (b : SolverBuilder) (roots : List SolverArray) :
    run b roots = table (firstRequests roots) := by
  have h : ∀ l, roots.foldl (fun h root => (b.getInitialArray h root).1) (table l) =
      table (roots.foldl (fun l root => if root ∈ l then l else l ++ [root]) l) := by
    induction roots with
    | nil => exact fun l => rfl
    | cons root roots ih =>
      intro l
      rw [List.foldl_cons, List.foldl_cons, step_table, ih]
  exact h []

theorem nodup_firstRequests (roots : List SolverArray) : (firstRequests roots).Nodup := by
  have h : ∀ l : List SolverArray, l.Nodup →
      (roots.foldl (fun l root => if root ∈ l then l else l ++ [root]) l).Nodup := by
    induction roots with
    | nil => exact fun l hl => hl
    | cons root roots ih =>
      intro l hl
      rw [List.foldl_cons]
      apply ih
      split
      · exact hl
      next hm => exact List.Nodup.append hl (List.nodup_singleton root) (by simpa using hm)
  exact h [] List.nodup_nil

theorem mem_firstRequests {roots : List SolverArray} {a : SolverArray} :
    a ∈ firstRequests roots ↔ a ∈ roots := by
  have h : ∀ l : List SolverArray,
      a ∈ roots.foldl (fun l root => if root ∈ l then l else l ++ [root]) l ↔
        a ∈ l ∨ a ∈ roots := by
    induction roots with
    | nil => simp
    | cons root roots ih =>
      intro l
      rw [List.foldl_cons, ih]
      split
      next hm =>
        rw [List.mem_cons]
        refine or_congr_right' fun hl => ⟨.inr, fun h => h.resolve_left ?_⟩
        rintro rfl
        exact hl hm
      next => rw [List.mem_append, List.mem_singleton, List.mem_cons, or_assoc]
  rw [firstRequests, h, List.mem_nil_iff, false_or]

/-- The term of an array that was passed in the session is in the table. -/
theorem mem_run {b : SolverBuilder} {roots : List SolverArray} {a : SolverArray}
    (ha : a ∈ roots) : (a, (b.getInitialArray (run b roots) a).2) ∈ run b roots := by
  have hb : b.getInitialArray = initialArray := by cases b <;> rfl
  rw [hb, initialArray]
  cases hl : (run b roots).lookup a with
  | none =>
    rw [run_eq] at hl
    exact absurd (mem_firstRequests.mpr ha) (lookup_table_eq_none.mp hl)
  | some t =>
    obtain ⟨l₁, l₂, heq, -⟩ := List.lookup_eq_some_iff.mp hl
    rw [heq]
    simp

theorem Distinct.eq_of_root_eq {b : SolverBuilder} {roots : List SolverArray}
    (hd : Distinct (run b roots)) {a a' : SolverArray} (ha : a ∈ roots) (ha' : a' ∈ roots)
    (h : (b.getInitialArray (run b roots) a).2.root =
      (b.getInitialArray (run b roots) a').2.root) : a = a' := by
  by_contra hne
  exact hd _ (mem_run ha) _ (mem_run ha') hne h

/-! ### When variables coincide -/

theorem root_eq_iff {a b : SolverArray} {i j : ℕ} (h : i < j) :
    (newArray a i).root = (newArray b j).root ↔
      a.domain = b.domain ∧ a.range = b.range ∧ ∃ digits, itostr j = digits ++ itostr i ∧
        cutName a.name.toList (itostr i).length =
          cutName b.name.toList (itostr j).length ++ digits := by
  rw [root_newArray, root_newArray, Prod.mk.injEq, Prod.mk.injEq, uniqueName_eq_iff h]
  exact ⟨fun ⟨hn, hd, hr⟩ => ⟨hd, hr, hn⟩, fun ⟨hd, hr, hn⟩ => ⟨hn, hd, hr⟩⟩

/-- The solver variables of a session are distinct exactly when no later array's number
takes over the digits at the end of an earlier array's name. -/
theorem run_distinct_iff (b : SolverBuilder) (roots : List SolverArray) :
    Distinct (run b roots) ↔ ∀ i j, i < j → ¬Clash (firstRequests roots) i j := by
  rw [run_eq]
  have hnodup := nodup_firstRequests roots
  constructor
  · rintro h i j hij ⟨a, ha, c, hc, hclash⟩
    refine h _ (mem_table.mpr ⟨i, a, ha, rfl⟩) _ (mem_table.mpr ⟨j, c, hc, rfl⟩) ?_
      ((root_eq_iff hij).mpr hclash)
    rintro rfl
    obtain ⟨hi, hai⟩ := List.getElem?_eq_some_iff.mp ha
    obtain ⟨hj, haj⟩ := List.getElem?_eq_some_iff.mp hc
    exact Nat.ne_of_lt hij (hnodup.getElem_inj_iff.mp (hai.trans haj.symm))
  · intro h p hp q hq hne heq
    obtain ⟨i, a, ha, rfl⟩ := mem_table.mp hp
    obtain ⟨j, c, hc, rfl⟩ := mem_table.mp hq
    dsimp only at hne heq
    obtain hij | rfl | hij := Nat.lt_trichotomy i j
    · exact h i j hij ⟨a, ha, c, hc, (root_eq_iff hij).mp heq⟩
    · exact hne (Option.some.inj (ha.symm.trans hc))
    · exact h j i hij ⟨c, hc, a, ha, (root_eq_iff hij).mp heq.symm⟩

/-- The canonical array of 8 bytes with the given number. -/
def canonicalArray (k : ℕ) : SolverArray where
  name := String.ofList ("c_8_".toList ++ itostr k)
  size := 8
  ufe := k
  domain := 32
  range := 8

/-- The eleventh canonical array is requested first and the first one last. -/
def elevenRequests : List SolverArray := [11, 2, 3, 4, 5, 6, 7, 8, 9, 10, 1].map canonicalArray

theorem elevenRequests_clash :
    ¬Distinct (run .Z3 elevenRequests) ∧ ¬Distinct (run .STP elevenRequests) := by
  decide +kernel

end InitialArray

end TaseVerifier
