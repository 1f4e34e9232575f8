import Mathlib.Data.List.Nodup
import Mathlib.Data.List.Perm.Subperm
import Mathlib.Data.Rat.Cast.Order
import Mathlib.Tactic.Linarith
import TaseVerifier.EditDistance.Prefixes

/-! The reference fragments of a message: medoids whose indicator messages are close to it.
One way goes from the similar messages to their medoids, the other one tests every medoid for
a similar indicator message; both cut the candidates down at random. -/

namespace TaseVerifier

open Library

namespace EditDistance

namespace PhiN

abbrev Message := List (BitVec 8)

/-! ### The source -/

/-- A map of the training data. The loader takes the number of entries and the length of each
list from an `int`, so that no loop of an `int` over them overflows. -/
structure ClusterMap (K V : Type) [LT K] where
  entries : List (K × List V)
  sorted : (entries.map Prod.fst).Pairwise (· < ·)
  entries_fit : entries.length < 2 ^ 31
  lists_fit : ∀ e ∈ entries, e.2.length < 2 ^ 31

namespace ClusterMap

variable {K V : Type} [LT K]

/-- What `operator[]` of the outer map returns for a message type that is not there. -/
def empty : ClusterMap K V := ⟨[], List.Pairwise.nil, by simp, by simp⟩

def keys (m : ClusterMap K V) : List K := m.entries.map Prod.fst

def find [DecidableEq K] (m : ClusterMap K V) (k : K) : Option (List V) :=
  (m.entries.find? fun e => e.1 = k).map Prod.snd

/-- The map as a relation. -/
def Related (m : ClusterMap K V) (k : K) (v : V) : Prop := ∃ vs, (k, vs) ∈ m.entries ∧ v ∈ vs

end ClusterMap

abbrev MsgToMedoidsMap := ClusterMap Message Path

abbrev MedoidToMsgsMap := ClusterMap Path Message

def getByteVecEditDistance (v1 v2 : Message) : Option ℤ := row v1 v2

/-- The least distance of the keys, from the start value on. -/
def bestDistance (msg : Message) (keys : List Message) : Option ℤ :=
  keys.foldlM (fun bestDistance key => do
    let currDistance ← getByteVecEditDistance msg key
    some (if currDistance < bestDistance then currDistance else bestDistance)) 10000000

/-- The keys at most `alphaDist` away. -/
def withinDistance (msg : Message) (alphaDist : ℚ) : List Message → Option (List Message)
  | [] => some []
  | key :: keys => do
    let currDistance ← getByteVecEditDistance msg key
    let similarMsgs ← withinDistance msg alphaDist keys
    return if (currDistance : ℚ) ≤ alphaDist then key :: similarMsgs else similarMsgs

/-- The product of an `int` and `alpha` is exact as a `double`. -/
def getSimilarMessages (msg : Message) (m : MsgToMedoidsMap) (alphaVal : ℚ) :
    Option (List Message) := do
  let bestDistance ← bestDistance msg m.keys
  let alphaDist := (bestDistance : ℚ) * alphaVal
  withinDistance msg alphaDist m.keys

/-- `std::shuffle` with some random engine. -/
structure Shuffle where
  run : List Path → List Path
  perm : ∀ frags, (run frags).Perm frags

/-- The size is compared as a `size_t`. -/
def getRandomFragSubset (shuffle : Shuffle) (inputFrags : List Path) (betaVal : ℤ) : List Path :=
  if (inputFrags.length : ℤ) ≤ betaVal % 2 ^ 64 then inputFrags
  else (shuffle.run inputFrags).take betaVal.toNat

def alpha : ℚ := 5 / 4

def beta : ℤ := 8

/-- The fragments of all similar messages; there is an exit for a message that is not in the
map. -/
def allSimilarFrags (m : MsgToMedoidsMap) : List Message → Option (List Path)
  | [] => some []
  | msg :: similarMessages => do
    let matchedFrags ← m.find msg
    let frags ← allSimilarFrags m similarMessages
    return matchedFrags ++ frags

/-- The medoids with a similar message among their indicators. -/
def candidateMedoids (m : MedoidToMsgsMap) (similarMessages : List Message) : List Path :=
  (m.entries.filter fun e => similarMessages.any fun msg => e.2.any fun i => msg = i).map Prod.fst

def generatePhiN (shuffle : Shuffle) (msgType : String) (msg : Message)
    (fullMap : String → Option MsgToMedoidsMap) : Option (List Path) :=
  let m := (fullMap msgType).getD .empty
  if m.entries.length = 0 then some []
  else do
    let similarMessages ← getSimilarMessages msg m alpha
    let frags ← allSimilarFrags m similarMessages
    return getRandomFragSubset shuffle frags beta

def generatePhiN_medoid2Msgs (shuffle : Shuffle) (msgType : String) (msg : Message)
    (mt2MedToMsgsMap : String → Option MedoidToMsgsMap)
    (mt2MsgToMedsMap : String → Option MsgToMedoidsMap) : Option (List Path) :=
  let medToMsgs := (mt2MedToMsgsMap msgType).getD .empty
  let msgToMedoids := (mt2MsgToMedsMap msgType).getD .empty
  if medToMsgs.entries.length = 0 ∨ msgToMedoids.entries.length = 0 then some []
  else do
    let similarMessages ← getSimilarMessages msg msgToMedoids alpha
    return getRandomFragSubset shuffle (candidateMedoids medToMsgs similarMessages) beta

/-! ### The maps -/

namespace ClusterMap

variable {K V : Type} [LT K]

variable [Std.Irrefl (fun a b : K => a < b)] {m : ClusterMap K V} {k : K} {vs : List V}

theorem nodup (m : ClusterMap K V) : m.keys.Nodup := by
  refine m.sorted.imp fun {a b} hlt => ?_
  rintro rfl
  exact Std.Irrefl.irrefl (r := fun a b : K => a < b) a hlt

theorem find_eq_some [DecidableEq K] : m.find k = some vs ↔ (k, vs) ∈ m.entries := by
  constructor
  · intro h
    obtain ⟨e, he, rfl⟩ := Option.map_eq_some_iff.1 h
    obtain rfl : e.1 = k := by simpa using List.find?_some he
    exact List.mem_of_find?_eq_some he
  · intro h
    obtain ⟨e, he⟩ := Option.isSome_iff_exists.1
      (List.find?_isSome (p := fun e => decide (e.1 = k)).2 ⟨(k, vs), h, by simp⟩)
    have hk : e.1 = k := by simpa using List.find?_some he
    obtain rfl : e = (k, vs) :=
      List.inj_on_of_nodup_map m.nodup (List.mem_of_find?_eq_some he) h hk
    rw [find, he]
    rfl

theorem exists_find [DecidableEq K] (hk : k ∈ m.keys) : ∃ vs, m.find k = some vs := by
  obtain ⟨⟨k, vs⟩, he, rfl⟩ := List.mem_map.1 hk
  exact ⟨vs, find_eq_some.2 he⟩

end ClusterMap

/-! ### The similar messages -/

variable {msg : Message} {m : MsgToMedoidsMap}

/-- All distances to the keys are computed and lie below the start value. -/
def Measured (msg : Message) (m : MsgToMedoidsMap) : Prop :=
  ∀ key ∈ m.keys, ∃ d, getByteVecEditDistance msg key = some d ∧ d < 10000000

theorem Measured.eq (h : Measured msg m) {key : Message} (hk : key ∈ m.keys) :
    getByteVecEditDistance msg key = some (levenshtein msg key : ℤ) ∧
      levenshtein msg key < 10000000 := by
  obtain ⟨d, hd, hlt⟩ := h key hk
  unfold getByteVecEditDistance at hd ⊢
  rw [row_eq] at hd ⊢
  split_ifs at hd ⊢ with hfit
  obtain rfl := Option.some.inj hd
  exact ⟨rfl, by exact_mod_cast hlt⟩

theorem bestDistance_isLeast (h : Measured msg m) (hne : m.entries ≠ []) :
    ∃ best : ℕ, bestDistance msg m.keys = some (best : ℤ) ∧
      IsLeast {d | ∃ key ∈ m.keys, d = levenshtein msg key} best := by
  obtain ⟨best, hbest, -, hle, hor⟩ := exists_foldlM_least (f := getByteVecEditDistance msg)
    (g := levenshtein msg) m.keys (fun key hk => (h.eq hk).1) 10000000
  have hlower : best ∈ lowerBounds {d | ∃ key ∈ m.keys, d = levenshtein msg key} := by
    rintro _ ⟨key, hk, rfl⟩
    exact hle key hk
  refine ⟨best, hbest, ?_, hlower⟩
  rcases hor with heq | ⟨key, hk, heq⟩
  · -- some key is closer than the start value
    obtain ⟨e, he⟩ := List.exists_mem_of_ne_nil m.entries hne
    have hk : e.1 ∈ m.keys := List.mem_map_of_mem he
    have hlt := (h.eq hk).2
    have := hle e.1 hk
    omega
  · exact ⟨key, hk, heq⟩

theorem withinDistance_eq {keys : List Message} (alphaDist : ℚ)
    (h : ∀ key ∈ keys, getByteVecEditDistance msg key = some (levenshtein msg key : ℤ)) :
    withinDistance msg alphaDist keys =
      some (keys.filter fun key => (levenshtein msg key : ℚ) ≤ alphaDist) := by
  induction keys with
  | nil => rfl
  | cons key keys ih =>
    rw [withinDistance, h key List.mem_cons_self, ih fun k hk => h k (List.mem_cons_of_mem key hk)]
    by_cases hd : (levenshtein msg key : ℚ) ≤ alphaDist <;> simp [hd]

/-- The similar messages are the keys within `alpha` times the least distance. -/
theorem getSimilarMessages_eq (h : Measured msg m) (hne : m.entries ≠ []) (alphaVal : ℚ) :
    ∃ best : ℕ, IsLeast {d | ∃ key ∈ m.keys, d = levenshtein msg key} best ∧
      getSimilarMessages msg m alphaVal =
        some (m.keys.filter fun key => (levenshtein msg key : ℚ) ≤ best * alphaVal) := by
  obtain ⟨best, hbest, hleast⟩ := bestDistance_isLeast h hne
  refine ⟨best, hleast, ?_⟩
  rw [getSimilarMessages, hbest]
  exact withinDistance_eq _ fun key hk => (h.eq hk).1

/-! ### The candidates -/

/-- The similar messages are keys, so the exit for a message that is not in the map is not
taken. -/
theorem exists_allSimilarFrags {similar : List Message} (h : ∀ k ∈ similar, k ∈ m.keys) :
    ∃ frags, allSimilarFrags m similar = some frags ∧
      ∀ f, f ∈ frags ↔ ∃ k ∈ similar, m.Related k f := by
  induction similar with
  | nil => exact ⟨[], rfl, by simp⟩
  | cons k similar ih =>
    obtain ⟨frags, hfrags, hmem⟩ := ih fun k' hk' => h k' (List.mem_cons_of_mem k hk')
    obtain ⟨vs, hvs⟩ := ClusterMap.exists_find (h k List.mem_cons_self)
    refine ⟨vs ++ frags, by rw [allSimilarFrags, hvs, hfrags]; rfl, fun f => ?_⟩
    have hrel : m.Related k f ↔ f ∈ vs := by
      constructor
      · rintro ⟨vs', hvs', hf⟩
        rwa [Option.some.inj (hvs.symm.trans (ClusterMap.find_eq_some.2 hvs'))]
      · exact fun hf => ⟨vs, ClusterMap.find_eq_some.1 hvs, hf⟩
    rw [List.mem_append, hmem, ← hrel]
    simp only [List.mem_cons, exists_eq_or_imp]

theorem mem_candidateMedoids {M : MedoidToMsgsMap} {similar : List Message} {f : Path} :
    f ∈ candidateMedoids M similar ↔ ∃ k ∈ similar, M.Related f k := by
  simp only [candidateMedoids, ClusterMap.Related, List.mem_map, List.mem_filter,
    List.any_eq_true, decide_eq_true_eq, Prod.exists]
  constructor
  · rintro ⟨f, vs, ⟨he, k, hk, i, hi, rfl⟩, rfl⟩
    exact ⟨k, hk, vs, he, hi⟩
  · rintro ⟨k, hk, vs, he, hi⟩
    exact ⟨f, vs, ⟨he, k, hk, k, hi, rfl⟩, rfl⟩

/-- The random cut keeps `beta` of the fragments, or all of them if there are no more. -/
theorem getRandomFragSubset_beta (shuffle : Shuffle) (frags : List Path) :
    (getRandomFragSubset shuffle frags beta).Subperm frags ∧
      ((getRandomFragSubset shuffle frags beta).length : ℤ) = min (frags.length : ℤ) beta := by
  have hbeta : beta % 2 ^ 64 = beta := by decide
  unfold getRandomFragSubset
  rw [hbeta]
  split_ifs with h
  · exact ⟨List.Subperm.refl frags, (min_eq_left h).symm⟩
  · have hperm := shuffle.perm frags
    refine ⟨(List.take_sublist _ _).subperm.trans hperm.subperm, ?_⟩
    have : (beta.toNat : ℤ) = beta := by decide
    rw [List.length_take, hperm.length_eq]
    omega

/-! ### The two ways agree -/

theorem mem_similar_of_least {best : ℕ} {k : Message}
    (hleast : IsLeast {d | ∃ key ∈ m.keys, d = levenshtein msg key} best) (hk : k ∈ m.keys)
    (hmin : ∀ k' ∈ m.keys, levenshtein msg k ≤ levenshtein msg k') :
    k ∈ m.keys.filter fun key => (levenshtein msg key : ℚ) ≤ best * alpha := by
  obtain ⟨⟨k', hk', rfl⟩, -⟩ := hleast
  have hle : (levenshtein msg k : ℚ) ≤ levenshtein msg k' := by exact_mod_cast hmin k' hk'
  have hpos : (0 : ℚ) ≤ levenshtein msg k' := Nat.cast_nonneg _
  refine List.mem_filter.2 ⟨hk, decide_eq_true ?_⟩
  unfold alpha
  linarith

variable (shuffle₁ shuffle₂ : Shuffle) {msgType : String}
  {fullMap : String → Option MsgToMedoidsMap} {medMap : String → Option MedoidToMsgsMap}
  {M : MedoidToMsgsMap}

/-- The similar messages contain the closest keys, both ways collect the same candidates from
them, and each result is the random cut of the candidates that its way has collected: `beta` of
them, or all if there are no more. -/
theorem generatePhiN_agree (hm : fullMap msgType = some m) (hM : medMap msgType = some M)
    (hne : m.entries ≠ []) (hNe : M.entries ≠ []) (hinv : ∀ k f, m.Related k f ↔ M.Related f k)
    (hdist : Measured msg m) :
    ∃ similar frags res₁ res₂, getSimilarMessages msg m alpha = some similar ∧
      similar ≠ [] ∧ (∀ k ∈ similar, k ∈ m.keys) ∧
      (∀ k ∈ m.keys, (∀ k' ∈ m.keys, levenshtein msg k ≤ levenshtein msg k') → k ∈ similar) ∧
      allSimilarFrags m similar = some frags ∧
      (∀ f, f ∈ frags ↔ f ∈ candidateMedoids M similar) ∧
      generatePhiN shuffle₁ msgType msg fullMap = some res₁ ∧
      generatePhiN_medoid2Msgs shuffle₂ msgType msg medMap fullMap = some res₂ ∧
      res₁ = getRandomFragSubset shuffle₁ frags beta ∧
      res₂ = getRandomFragSubset shuffle₂ (candidateMedoids M similar) beta ∧
      (res₁.length : ℤ) = min (frags.length : ℤ) beta ∧ (∀ f ∈ res₁, f ∈ frags) ∧
      (res₂.length : ℤ) = min ((candidateMedoids M similar).length : ℤ) beta ∧
        ∀ f ∈ res₂, f ∈ candidateMedoids M similar := by
  obtain ⟨best, hleast, hsim⟩ := getSimilarMessages_eq hdist hne alpha
  set similar := m.keys.filter fun key => (levenshtein msg key : ℚ) ≤ best * alpha with hdef
  have hkeys : ∀ k ∈ similar, k ∈ m.keys := fun k hk => (List.mem_filter.1 hk).1
  obtain ⟨frags, hfrags, hmem⟩ := exists_allSimilarFrags hkeys
  obtain ⟨hsub₁, hlen₁⟩ := getRandomFragSubset_beta shuffle₁ frags
  obtain ⟨hsub₂, hlen₂⟩ := getRandomFragSubset_beta shuffle₂ (candidateMedoids M similar)
  have hm0 : m.entries.length ≠ 0 := by simpa using hne
  have hM0 : M.entries.length ≠ 0 := by simpa using hNe
  refine ⟨similar, frags, _, _, hsim, ?_, hkeys,
    fun k hk hmin => mem_similar_of_least hleast hk hmin, hfrags, fun f => ?_, ?_, ?_, rfl, rfl,
    hlen₁, fun f hf => hsub₁.subset hf, hlen₂, fun f hf => hsub₂.subset hf⟩
  · obtain ⟨k, hk, hbest⟩ := hleast.1
    exact List.ne_nil_of_mem (mem_similar_of_least hleast hk fun k' hk' =>
      hbest ▸ hleast.2 ⟨k', hk', rfl⟩)
  · rw [hmem, mem_candidateMedoids]
    exact exists_congr fun k => and_congr_right fun _ => hinv k f
  · simp only [generatePhiN, hm, Option.getD_some, if_neg hm0, hsim, hfrags, Option.bind_eq_bind,
      Option.bind_some]
    rfl
  · simp only [generatePhiN_medoid2Msgs, hm, hM, Option.getD_some, hm0, hM0, or_self, if_false,
      hsim, Option.bind_eq_bind, Option.bind_some]
    rfl

section Runs

/-- The list as it is. -/
def unshuffled : Shuffle := ⟨id, fun _ => List.Perm.refl _⟩

def oneMessage : MsgToMedoidsMap :=
  ⟨[([1], [[7], [8]])], by decide, by decide, by decide⟩

def twoMedoids : MedoidToMsgsMap :=
  ⟨[([7], [[1]]), ([8], [[1]])], by decide, by decide, by decide⟩

theorem related_oneMessage (k : Message) (f : Path) :
    oneMessage.Related k f ↔ twoMedoids.Related f k := by
  simp only [ClusterMap.Related, oneMessage, twoMedoids, List.mem_cons, Prod.mk.injEq,
    List.not_mem_nil, or_false]
  aesop

theorem measured_oneMessage : Measured [1, 2] oneMessage := by
  intro key hk
  obtain rfl : key = [1] := by simpa [ClusterMap.keys, oneMessage] using hk
  exact ⟨1, by rw [getByteVecEditDistance, row_eq]; decide, by decide⟩

theorem generatePhiN_agree_oneMessage :
    ∃ similar frags res₁ res₂, getSimilarMessages [1, 2] oneMessage alpha = some similar ∧
      similar ≠ [] ∧ (∀ k ∈ similar, k ∈ oneMessage.keys) ∧
      (∀ k ∈ oneMessage.keys, (∀ k' ∈ oneMessage.keys,
        levenshtein [1, 2] k ≤ levenshtein [1, 2] k') → k ∈ similar) ∧
      allSimilarFrags oneMessage similar = some frags ∧
      (∀ f, f ∈ frags ↔ f ∈ candidateMedoids twoMedoids similar) ∧
      generatePhiN unshuffled "SEND,SEND," [1, 2] (fun _ => some oneMessage) = some res₁ ∧
      generatePhiN_medoid2Msgs unshuffled "SEND,SEND," [1, 2] (fun _ => some twoMedoids)
        (fun _ => some oneMessage) = some res₂ ∧
      res₁ = getRandomFragSubset unshuffled frags beta ∧
      res₂ = getRandomFragSubset unshuffled (candidateMedoids twoMedoids similar) beta ∧
      (res₁.length : ℤ) = min (frags.length : ℤ) beta ∧ (∀ f ∈ res₁, f ∈ frags) ∧
      (res₂.length : ℤ) = min ((candidateMedoids twoMedoids similar).length : ℤ) beta ∧
        ∀ f ∈ res₂, f ∈ candidateMedoids twoMedoids similar :=
  generatePhiN_agree unshuffled unshuffled rfl rfl (by decide) (by decide) related_oneMessage
    measured_oneMessage

/-- The two fragments of the one message are what both ways return. -/
example : generatePhiN unshuffled "SEND,SEND," [1, 2] (fun _ => some oneMessage) =
    some [[7], [8]] := by decide +kernel

end Runs

end PhiN

end EditDistance

end TaseVerifier
