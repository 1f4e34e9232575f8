import Mathlib.Data.List.Nodup
import TaseVerifier.Library.Frontier
import TaseVerifier.Manager.Replay

/-! The paths through the client's symbolic branches, and those of them that begin with
the blocks of a fragment. -/

namespace TaseVerifier.BranchTree

open Library

mutual

/-- The complete paths, in the order of the destinations. -/
def leaves : BranchTree → List (List MLBBID)
  | .done => [[]]
  | .branch dests => leavesOf dests

def leavesOf : List (MLBBID × BranchTree) → List (List MLBBID)
  | [] => []
  | (id, t) :: dests => t.leaves.map (id :: ·) ++ leavesOf dests

end

/-- The complete paths that begin with the blocks. -/
def under (t : BranchTree) (frag : List MLBBID) : List (List MLBBID) :=
  t.leaves.filter (frag <+: ·)

/-- The tree that the blocks lead to. -/
def subtree : BranchTree → List MLBBID → Option BranchTree
  | t, [] => some t
  | .done, _ :: _ => none
  | .branch dests, id :: ids => (dests.find? (·.1 = id)).bind fun d => d.2.subtree ids

variable {t t' : BranchTree} {dests : List (MLBBID × BranchTree)} {id : MLBBID}
  {ids frag : List MLBBID}

theorem leavesOf_eq (dests : List (MLBBID × BranchTree)) :
    leavesOf dests = dests.flatMap fun d => d.2.leaves.map (d.1 :: ·) := by
  induction dests with
  | nil => rfl
  | cons d dests ih => rw [leavesOf, ih, List.flatMap_cons]

/-! ### Paths -/

theorem path_nil_iff : t.Path [] t' ↔ t = t' := by
  constructor
  · intro h
    cases h
    rfl
  · rintro rfl
    exact .nil t

theorem path_cons_iff :
    (branch dests).Path (id :: ids) t' ↔ ∃ s, (id, s) ∈ dests ∧ s.Path ids t' := by
  constructor
  · intro h
    cases h with
    | cons hmem hpath => exact ⟨_, hmem, hpath⟩
  · rintro ⟨s, hmem, hpath⟩
    exact .cons hmem hpath

theorem Path.trans {t'' : BranchTree} {ids' : List MLBBID} (h : t.Path ids t')
    (h' : t'.Path ids' t'') : t.Path (ids ++ ids') t'' := by
  induction h with
  | nil t => exact h'
  | cons hmem _ ih => exact .cons hmem (ih h')

theorem Path.distinct (h : t.Path ids t') (hd : t.Distinct) : t'.Distinct := by
  induction h with
  | nil t => exact hd
  | cons hmem _ ih =>
    cases hd with
    | branch _ hsub => exact ih (hsub _ hmem)

/-- A path ends in the tree that the subtree of its blocks is. -/
theorem path_of_subtree (h : t.subtree ids = some t') : t.Path ids t' := by
  induction ids generalizing t with
  | nil => exact path_nil_iff.mpr (Option.some.inj h)
  | cons id ids ih =>
    cases t with
    | done => cases h
    | branch dests =>
      obtain ⟨d, hfind, hsub⟩ := Option.bind_eq_some_iff.mp h
      have hkey : d.1 = id := by simpa using List.find?_some hfind
      apply Path.cons (t := d.2)
      · exact hkey ▸ List.mem_of_find?_eq_some hfind
      · exact ih hsub

theorem mem_leaves : ids ∈ t.leaves ↔ t.Path ids .done := by
  induction ids generalizing t with
  | nil =>
    rw [path_nil_iff]
    cases t with
    | done => simp [leaves]
    | branch dests => simp [leaves, leavesOf_eq]
  | cons id ids ih =>
    cases t with
    | done =>
      constructor
      · intro h
        simp [leaves] at h
      · intro h
        cases h
    | branch dests =>
      rw [path_cons_iff, leaves, leavesOf_eq]
      simp only [List.mem_flatMap, List.mem_map, List.cons.injEq]
      constructor
      · rintro ⟨d, hd, ids', hids, rfl, rfl⟩
        exact ⟨d.2, hd, ih.mp hids⟩
      · rintro ⟨s, hs, hpath⟩
        exact ⟨(id, s), hs, ids, ih.mpr hpath, rfl, rfl⟩

/-! ### Distinct destinations -/

/-- Where the destinations differ, no path is listed twice. -/
theorem nodup_leaves (h : t.Distinct) : t.leaves.Nodup := by
  induction h with
  | done => exact List.nodup_singleton _
  | @branch dests hnodup _ ih =>
    rw [leaves, leavesOf_eq, List.nodup_flatMap]
    constructor
    · intro d hd
      exact (ih d hd).map List.cons_injective
    · have hne : dests.Pairwise fun d e => d.1 ≠ e.1 := List.pairwise_map.mp hnodup
      refine hne.imp fun {d e} hde ids hd he => ?_
      obtain ⟨ids₁, -, rfl⟩ := List.mem_map.mp hd
      obtain ⟨ids₂, -, heq⟩ := List.mem_map.mp he
      exact hde (List.cons.inj heq).1.symm

/-- The paths through one destination. -/
theorem flatMap_destination {L : Type} {f : MLBBID × BranchTree → List L}
    (hnodup : (dests.map Prod.fst).Nodup) (hmem : (id, t) ∈ dests)
    (hf : ∀ d ∈ dests, d.1 ≠ id → f d = []) : dests.flatMap f = f (id, t) := by
  obtain ⟨before, after, rfl⟩ := List.append_of_mem hmem
  rw [List.map_append, List.map_cons, List.nodup_append] at hnodup
  obtain ⟨-, hafter, hbefore⟩ := hnodup
  have hleft : before.flatMap f = [] := by
    apply List.flatMap_eq_nil_iff.mpr
    intro d hd
    exact hf d (List.mem_append_left _ hd)
      (hbefore d.1 (List.mem_map_of_mem hd) id List.mem_cons_self)
  have hright : after.flatMap f = [] := by
    apply List.flatMap_eq_nil_iff.mpr
    intro d hd
    apply hf d (List.mem_append_right _ (List.mem_cons_of_mem _ hd))
    rintro rfl
    exact (List.nodup_cons.mp hafter).1 (List.mem_map.mpr ⟨d, hd, rfl⟩)
  rw [List.flatMap_append, List.flatMap_cons, hleft, hright, List.append_nil, List.nil_append]

/-- The paths that begin with a fragment are those of the tree that it leads to. -/
theorem Path.under_eq (h : t.Path frag t') (hd : t.Distinct) :
    t.under frag = t'.leaves.map (frag ++ ·) := by
  induction h with
  | nil t => simp [under]
  | @cons dests id t ids t' hmem _ ih =>
    cases hd with
    | branch hnodup hsub =>
      have hother : ∀ d ∈ dests, d.1 ≠ id →
          (d.2.leaves.map (d.1 :: ·)).filter (id :: ids <+: ·) = [] := by
        intro d _ hne
        simp [List.filter_eq_nil_iff, List.cons_prefix_cons, hne.symm]
      rw [under, leaves, leavesOf_eq, List.filter_flatMap,
        flatMap_destination hnodup hmem hother, List.filter_map]
      have hpre : ((id :: ids <+: ·) : List MLBBID → Bool) ∘ (id :: ·) = (ids <+: ·) := by
        funext l
        simp [List.cons_prefix_cons]
      rw [hpre]
      have hrest := ih (hsub _ hmem)
      rw [under] at hrest
      rw [hrest, List.map_map]
      rfl

/-- Every path goes on with one of the destinations of its next branch. -/
theorem Path.split (h : t.Path frag (.branch dests)) (hd : t.Distinct) :
    ((dests.map Prod.fst).map (frag ++ [·])).flatMap t.under = t.under frag := by
  have hsub : ∀ d ∈ dests, t.under (frag ++ [d.1]) = d.2.leaves.map ((frag ++ [d.1]) ++ ·) := by
    intro d hmem
    exact (h.trans (.cons hmem (.nil d.2))).under_eq hd
  rw [h.under_eq hd, leaves, leavesOf_eq, List.map_flatMap, List.map_map, List.flatMap_map]
  apply List.flatMap_congr
  intro d hmem
  rw [Function.comp_apply, hsub d hmem, List.map_map]
  apply List.map_congr_left
  intro ids _
  simp

/-- A complete path begins no other one. -/
theorem Path.finish (h : t.Path frag .done) (hd : t.Distinct) : t.under frag = [frag] := by
  rw [h.under_eq hd, leaves, List.map_singleton, List.append_nil]

theorem under_nil (t : BranchTree) : t.under [] = t.leaves := by simp [under]

end TaseVerifier.BranchTree
