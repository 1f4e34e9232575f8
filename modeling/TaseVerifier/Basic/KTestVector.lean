import Mathlib.Data.List.Basic
import Mathlib.Data.List.TakeWhile
import TaseVerifier.Basic.KTest

/-! The vector of recorded events. In a playback the events are handed out one by one; at the
end of a recording the network events are moved to its front and written a second time. -/

namespace TaseVerifier

namespace KTest

theorem c2s_nulFree : 0#8 ∉ ([99, 50, 115] : List (BitVec 8)) := by decide

/-- `"c2s"` -/
def c2s : CString := ⟨[99, 50, 115], c2s_nulFree⟩

/-- `"s2c"` -/
def s2c : CString := ⟨[115, 50, 99], by decide⟩

/-- `size` is the number of objects. -/
structure KTestObjectVector where
  objects : List KTestObject
  playback_index : ℕ

namespace KTestObjectVector

/-! ### Playback -/

structure Options where
  enableMultipass : Bool
  dropS2C : Bool
  round_count : ℤ

/-- The condition in the skipping loop. -/
def Options.skips (opt : Options) (o : KTestObject) : Bool :=
  o.name ≠ c2s && (o.name ≠ s2c || (opt.dropS2C && 3 ≤ opt.round_count))

inductive Next where
  | exited
  | outOfBounds
  | returned (o : KTestObject) (ov : KTestObjectVector)

/-- The skipping loop over the objects from index `i` on; `none` where it reads past the last
of them. -/
def skipRecords (opt : Options) : List KTestObject → ℕ → Option (KTestObject × ℕ)
  | [], _ => none
  | o :: rest, i => if opt.skips o then skipRecords opt rest (i + 1) else some (o, i)

/-- The object that the call looks at, with its index. -/
def nextRecord (opt : Options) (ov : KTestObjectVector) : Option (KTestObject × ℕ) :=
  let rest := ov.objects.drop ov.playback_index
  if opt.enableMultipass then skipRecords opt rest ov.playback_index
  else rest.head?.map fun o => (o, ov.playback_index)

def KTOV_next_object (opt : Options) (name : CString) (ov : KTestObjectVector) : Next :=
  if ov.objects.length ≤ ov.playback_index then .exited
  else
    match nextRecord opt ov with
    | none => .outOfBounds
    | some (o, i) =>
      if o.name ≠ name then .exited else .returned o { ov with playback_index := i + 1 }

def Options.keeps (opt : Options) (o : KTestObject) : Bool := !(opt.enableMultipass && opt.skips o)

/-- The call exits, or returns the first event that is not skipped and moves on behind it. -/
def InOrder (opt : Options) (ov : KTestObjectVector) : Next → Prop
  | .exited => True
  | .outOfBounds => False
  | .returned o ov' => ∃ skipped rest,
      ov.objects.drop ov.playback_index = skipped ++ o :: rest ∧
        (∀ x ∈ skipped, opt.keeps x = false) ∧ opt.keeps o = true ∧
        ov' = { ov with playback_index := ov.playback_index + skipped.length + 1 }

/-- The recording is at its end, or has an event left that is not skipped. -/
def EventLeft (opt : Options) (ov : KTestObjectVector) : Prop :=
  ov.objects.length ≤ ov.playback_index ∨
    ∃ o ∈ ov.objects.drop ov.playback_index, opt.keeps o = true

theorem skipRecords_eq_some {opt : Options} {l : List KTestObject} {i j : ℕ} {o : KTestObject}
    (h : skipRecords opt l i = some (o, j)) :
    ∃ skipped rest, l = skipped ++ o :: rest ∧ (∀ x ∈ skipped, opt.skips x = true) ∧
      opt.skips o = false ∧ j = i + skipped.length := by
  induction l generalizing i with
  | nil => cases h
  | cons x l ih =>
    rw [skipRecords] at h
    split_ifs at h with hx
    · obtain ⟨skipped, rest, rfl, hs, ho, rfl⟩ := ih h
      refine ⟨x :: skipped, rest, rfl, ?_, ho, ?_⟩
      · exact List.forall_mem_cons.mpr ⟨hx, hs⟩
      · rw [List.length_cons]
        omega
    · obtain ⟨rfl, rfl⟩ := Prod.mk.inj (Option.some.inj h)
      exact ⟨[], l, rfl, by simp, Bool.eq_false_of_not_eq_true hx, rfl⟩

theorem skipRecords_eq_none {opt : Options} {l : List KTestObject} {i : ℕ} :
    skipRecords opt l i = none ↔ ∀ o ∈ l, opt.skips o = true := by
  induction l generalizing i with
  | nil => simp [skipRecords]
  | cons x l ih =>
    rw [skipRecords, List.forall_mem_cons]
    split_ifs with hx
    · rw [ih, and_iff_right hx]
    · exact iff_of_false (by simp) fun h => hx h.1

theorem nextRecord_eq_some {opt : Options} {ov : KTestObjectVector} {o : KTestObject} {i : ℕ}
    (h : nextRecord opt ov = some (o, i)) :
    ∃ skipped rest, ov.objects.drop ov.playback_index = skipped ++ o :: rest ∧
      (∀ x ∈ skipped, opt.keeps x = false) ∧ opt.keeps o = true ∧
      i = ov.playback_index + skipped.length := by
  unfold nextRecord at h
  cases hm : opt.enableMultipass with
  | false =>
    rw [hm] at h
    obtain ⟨first, hfirst, heq⟩ := Option.map_eq_some_iff.mp h
    obtain ⟨rfl, rfl⟩ := Prod.mk.inj heq
    obtain ⟨rest, hrest⟩ := List.head?_eq_some_iff.mp hfirst
    exact ⟨[], rest, hrest, by simp, by simp [Options.keeps, hm], rfl⟩
  | true =>
    simp only [hm, if_true] at h
    obtain ⟨skipped, rest, hsplit, hs, ho, hi⟩ := skipRecords_eq_some h
    exact ⟨skipped, rest, hsplit, fun x hx => by simp [Options.keeps, hm, hs x hx],
      by simp [Options.keeps, hm, ho], hi⟩

theorem nextRecord_eq_none {opt : Options} {ov : KTestObjectVector} :
    nextRecord opt ov = none ↔ ∀ o ∈ ov.objects.drop ov.playback_index, opt.keeps o = false := by
  unfold nextRecord
  cases hm : opt.enableMultipass with
  | false =>
    simp only [Bool.false_eq_true, if_false, Option.map_eq_none_iff, List.head?_eq_none_iff]
    constructor
    · intro h
      simp [h]
    · intro h
      refine List.eq_nil_iff_forall_not_mem.mpr fun o ho => ?_
      simpa [Options.keeps, hm] using h o ho
  | true => simp [skipRecords_eq_none, Options.keeps, hm]

/-- A call that returns is in order. -/
theorem inOrder_of_returned {opt : Options} {name : CString} {ov ov' : KTestObjectVector}
    {o : KTestObject} (h : KTOV_next_object opt name ov = .returned o ov') :
    InOrder opt ov (.returned o ov') := by
  unfold KTOV_next_object at h
  split_ifs at h
  split at h
  · cases h
  next x i hx =>
    split_ifs at h
    obtain ⟨rfl, rfl⟩ := Next.returned.inj h
    obtain ⟨skipped, rest, hsplit, hs, ho, rfl⟩ := nextRecord_eq_some hx
    exact ⟨skipped, rest, hsplit, hs, ho, rfl⟩

/-- One call. -/
theorem next_object_inOrder_iff (opt : Options) (name : CString) (ov : KTestObjectVector) :
    InOrder opt ov (KTOV_next_object opt name ov) ↔ EventLeft opt ov := by
  cases hnext : KTOV_next_object opt name ov with
  | exited =>
    refine iff_of_true trivial ?_
    unfold KTOV_next_object at hnext
    split_ifs at hnext with hend
    · exact .inl hend
    split at hnext
    · cases hnext
    next x i hx =>
      obtain ⟨skipped, rest, hsplit, -, ho, -⟩ := nextRecord_eq_some hx
      exact .inr ⟨x, by simp [hsplit], ho⟩
  | outOfBounds =>
    refine iff_of_false id ?_
    unfold KTOV_next_object at hnext
    split_ifs at hnext with hend
    split at hnext
    · next hnone =>
      rintro (h | ⟨o, ho, hkeeps⟩)
      · exact hend h
      · rw [nextRecord_eq_none.mp hnone o ho] at hkeeps
        cases hkeeps
    · split_ifs at hnext
  | returned o ov' =>
    have hin := inOrder_of_returned hnext
    refine iff_of_true hin ?_
    obtain ⟨skipped, rest, hsplit, -, ho, -⟩ := hin
    exact .inr ⟨o, by simp [hsplit], ho⟩

/-- The settings and the requested name of a call. -/
structure Call where
  options : Options
  name : CString

def Call.next (c : Call) (ov : KTestObjectVector) : Next := KTOV_next_object c.options c.name ov

/-- The events that a sequence of calls returns, up to the call that does not. -/
def playback : List Call → KTestObjectVector → List KTestObject
  | [], _ => []
  | c :: calls, ov =>
    match c.next ov with
    | .returned o ov' => o :: playback calls ov'
    | _ => []

/-- `P` holds at every call that is made. -/
def Throughout (P : Options → CString → KTestObjectVector → Prop) :
    List Call → KTestObjectVector → Prop
  | [], _ => True
  | c :: calls, ov => P c.options c.name ov ∧ ∀ o ov', c.next ov = .returned o ov' →
      Throughout P calls ov'

theorem Throughout.congr {P Q : Options → CString → KTestObjectVector → Prop}
    (h : ∀ opt name ov, P opt name ov ↔ Q opt name ov) (calls : List Call) (ov : KTestObjectVector) :
    Throughout P calls ov ↔ Throughout Q calls ov := by
  induction calls generalizing ov with
  | nil => exact Iff.rfl
  | cons c calls ih =>
    refine and_congr (h _ _ _) (forall_congr' fun o => forall_congr' fun ov' => ?_)
    exact imp_congr_right fun _ => ih ov'

/-- What a call leaves of the recording. -/
theorem drop_of_returned {c : Call} {ov ov' : KTestObjectVector} {o : KTestObject}
    (h : c.next ov = .returned o ov') :
    ∃ skipped, ov.objects.drop ov.playback_index =
        skipped ++ o :: ov'.objects.drop ov'.playback_index ∧
      (∀ x ∈ skipped, c.options.keeps x = false) ∧ c.options.keeps o = true := by
  obtain ⟨skipped, rest, hsplit, hs, ho, rfl⟩ := inOrder_of_returned h
  refine ⟨skipped, ?_, hs, ho⟩
  have hrest : ov.objects.drop (ov.playback_index + skipped.length + 1) = rest := by
    rw [Nat.add_assoc, ← List.drop_drop, hsplit, ← List.drop_drop, List.drop_left]
    rfl
  rw [hsplit, hrest]

/-- The events come in the order of the recording, each once. -/
theorem playback_sublist (calls : List Call) (ov : KTestObjectVector) :
    (playback calls ov).Sublist (ov.objects.drop ov.playback_index) := by
  induction calls generalizing ov with
  | nil => exact List.nil_sublist _
  | cons c calls ih =>
    rw [playback]
    split
    next o ov' h =>
      obtain ⟨skipped, hsplit, -, -⟩ := drop_of_returned h
      rw [hsplit]
      exact ((ih ov').cons_cons o).trans (List.sublist_append_right skipped _)
    · exact List.nil_sublist _

/-- With the settings unchanged no event that is not skipped is left out. -/
theorem playback_prefix {opt : Options} {calls : List Call} (hopt : ∀ c ∈ calls, c.options = opt)
    (ov : KTestObjectVector) :
    playback calls ov <+: (ov.objects.drop ov.playback_index).filter opt.keeps := by
  induction calls generalizing ov with
  | nil => exact List.nil_prefix
  | cons c calls ih =>
    obtain ⟨rfl, hcalls⟩ := List.forall_mem_cons.mp hopt
    rw [playback]
    split
    next o ov' h =>
      obtain ⟨skipped, hsplit, hs, ho⟩ := drop_of_returned h
      have hnone : skipped.filter c.options.keeps = [] :=
        List.filter_eq_nil_iff.mpr fun x hx => by simp [hs x hx]
      rw [hsplit, List.filter_append, hnone, List.nil_append, List.filter_cons_of_pos ho]
      exact List.cons_prefix_cons.mpr ⟨rfl, ih hcalls ov'⟩
    · exact List.nil_prefix

/-- Every call of a sequence stays in bounds and in order exactly when it finds the recording at
its end or an event that is not skipped; the events that are returned are always the next ones. -/
theorem playback_inOrder_iff (calls : List Call) (ov : KTestObjectVector) :
    (Throughout (fun opt name ov => InOrder opt ov (KTOV_next_object opt name ov)) calls ov ↔
        Throughout (fun opt _ ov => EventLeft opt ov) calls ov) ∧
      (playback calls ov).Sublist (ov.objects.drop ov.playback_index) ∧
      ∀ opt, (∀ c ∈ calls, c.options = opt) →
        playback calls ov <+: (ov.objects.drop ov.playback_index).filter opt.keeps :=
  ⟨Throughout.congr next_object_inOrder_iff calls ov, playback_sublist calls ov,
    fun _ hopt => playback_prefix hopt ov⟩

theorem rng_numBytes_lt : ([7] : List (BitVec 8)).length < 2 ^ 32 := by decide

/-- A network event and a random number behind it. -/
def trailingRecord : KTestObjectVector where
  objects := [⟨c2s, ⟨0, 0⟩, [1], by decide⟩,
    ⟨⟨[114, 110, 103], by decide⟩, ⟨0, 0⟩, [7], rng_numBytes_lt⟩]
  playback_index := 0

/-- The second request skips the last record and reads behind it. -/
theorem playback_reads_past_end :
    ¬ ∀ (calls : List Call) (ov : KTestObjectVector),
      Throughout (fun opt name ov => InOrder opt ov (KTOV_next_object opt name ov)) calls ov := by
  intro h
  have hcalls := h [⟨⟨true, false, 0⟩, c2s⟩, ⟨⟨true, false, 0⟩, c2s⟩] trailingRecord
  have hsecond := hcalls.2 _ _ rfl
  exact hsecond.1

end KTestObjectVector

/-! ### The network capture -/

section Capture

variable {objects : List KTestObject}

def isNetworkEvent (o : KTestObject) : Bool := o.name = s2c || o.name = c2s

/-- `temp = l[j]; l[j] = l[i]; l[i] = temp` -/
def swapObjects (j i : ℕ) (l : List KTestObject) : List KTestObject :=
  match l[j]?, l[i]? with
  | some temp, some o => (l.set j o).set i temp
  | _, _ => l

/-- One round of the loop in `ktest_finish_tase`, on the objects and `filtered_i`. -/
def filterStep (s : List KTestObject × ℕ) (i : ℕ) : List KTestObject × ℕ :=
  match s.1[i]? with
  | some o => if isNetworkEvent o then (swapObjects s.2 i s.1, s.2 + 1) else s
  | none => s

def filterLoop (objects : List KTestObject) : List KTestObject × ℕ :=
  (List.range objects.length).foldl filterStep (objects, 0)

/-- After `i` rounds: the network events among the first `i` objects, the others of these in some
order, and the rest. -/
structure Filtered (objects : List KTestObject) (i : ℕ) (s : List KTestObject × ℕ) : Prop where
  split : ∃ others, s.1 = (objects.take i).filter isNetworkEvent ++ others ++ objects.drop i ∧
    others.Perm ((objects.take i).filter fun o => !isNetworkEvent o)
  count : s.2 = ((objects.take i).filter isNetworkEvent).length

theorem swapObjects_self (i : ℕ) (l : List KTestObject) : swapObjects i i l = l := by
  unfold swapObjects
  cases h : l[i]? with
  | none => rfl
  | some o =>
    obtain ⟨hi, ho⟩ := List.getElem?_eq_some_iff.mp h
    simp [← ho]

theorem swapObjects_append (pre mid post : List KTestObject) (x o : KTestObject) :
    swapObjects pre.length (pre.length + (mid.length + 1)) (pre ++ x :: (mid ++ o :: post)) =
      pre ++ o :: (mid ++ x :: post) := by
  unfold swapObjects
  simp

theorem filtered_zero (objects : List KTestObject) : Filtered objects 0 (objects, 0) where
  split := ⟨[], rfl, .refl _⟩
  count := rfl

theorem Filtered.step {i : ℕ} {s : List KTestObject × ℕ} (h : Filtered objects i s)
    (hi : i < objects.length) : Filtered objects (i + 1) (filterStep s i) := by
  obtain ⟨others, hs, hp⟩ := h.split
  set net := (objects.take i).filter isNetworkEvent with hnet
  have hcount₀ : s.2 = net.length := h.count
  obtain ⟨o, hdrop, htake⟩ : ∃ o, objects.drop i = o :: objects.drop (i + 1) ∧
      objects.take (i + 1) = objects.take i ++ [o] := by
    refine ⟨objects[i], List.drop_eq_getElem_cons hi, ?_⟩
    rw [List.take_add_one, List.getElem?_eq_getElem hi]
    rfl
  have hlen : net.length + others.length = i := by
    have hperm := (hp.append_left net).trans
      (List.filter_append_perm isNetworkEvent (objects.take i))
    have := hperm.length_eq
    rw [List.length_append, List.length_take] at this
    omega
  have hget : s.1[i]? = some o := by
    rw [hs, hdrop, List.getElem?_append_right (by simp; omega), List.length_append, hlen,
      Nat.sub_self]
    rfl
  unfold filterStep
  rw [hget]
  cases ho : isNetworkEvent o with
  | false =>
    simp only [ho, Bool.false_eq_true, if_false]
    refine ⟨⟨others ++ [o], ?_, ?_⟩, ?_⟩
    · rw [htake, List.filter_append, ← hnet, hs, hdrop]
      simp [ho]
    · rw [htake, List.filter_append]
      simpa [ho] using hp.append_right [o]
    · rw [htake, List.filter_append, ← hnet, hcount₀]
      simp [ho]
  | true =>
    simp only [ho, if_true]
    have hcount : s.2 + 1 = ((objects.take (i + 1)).filter isNetworkEvent).length := by
      rw [htake, List.filter_append, ← hnet, hcount₀]
      simp [ho]
    cases others with
    | nil =>
      -- no other object has been passed: the network event stays where it is
      have hi' : s.2 = i := by simpa [hcount₀] using hlen
      refine ⟨⟨[], ?_, ?_⟩, hcount⟩
      · rw [hi', swapObjects_self, htake, List.filter_append, ← hnet, hs, hdrop]
        simp [ho]
      · rw [htake, List.filter_append]
        simpa [ho] using hp
    | cons x others =>
      -- the first of the others goes behind the last of them
      have hi' : i = net.length + (others.length + 1) := by simpa using hlen.symm
      refine ⟨⟨others ++ [x], ?_, ?_⟩, hcount⟩
      · have hswap : swapObjects s.2 i s.1 =
            net ++ o :: (others ++ x :: objects.drop (i + 1)) := by
          rw [hcount₀, hs, hdrop, ← swapObjects_append net others (objects.drop (i + 1)) x o, ← hi']
          simp
        rw [hswap, htake, List.filter_append, ← hnet]
        simp [ho]
      · rw [htake, List.filter_append]
        simpa [ho] using (List.perm_append_singleton x others).trans hp

theorem filtered_loop (objects : List KTestObject) {n : ℕ} (hn : n ≤ objects.length) :
    Filtered objects n ((List.range n).foldl filterStep (objects, 0)) := by
  induction n with
  | zero => exact filtered_zero objects
  | succ n ih =>
    rw [List.range_succ, List.foldl_append]
    exact (ih (Nat.le_of_succ_le hn)).step hn

/-- The first `filtered_i` objects are the network events in their order, and no object is lost or
doubled. -/
theorem filterLoop_exact (objects : List KTestObject) :
    (filterLoop objects).1.take (filterLoop objects).2 = objects.filter isNetworkEvent ∧
      (filterLoop objects).1.Perm objects := by
  have h : Filtered objects objects.length (filterLoop objects) := filtered_loop objects le_rfl
  obtain ⟨others, hs, hp⟩ := h.split
  have hcount := h.count
  rw [List.take_length] at hs hp hcount
  rw [List.drop_length, List.append_nil] at hs
  constructor
  · rw [hs, hcount, List.take_left]
  · rw [hs]
    exact (hp.append_left _).trans (List.filter_append_perm isNetworkEvent objects)

end Capture

end KTest

end TaseVerifier
