import Mathlib.Data.List.Perm.Basic
import Mathlib.Tactic.Common

/-! The frontier of a search that splits regions. What has been found and what the regions of
the frontier still hold are always what there is to find, each once. -/

namespace TaseVerifier.Library.Frontier

variable {R L : Type} {outputs : R → List L} {all done : List L} {r : R} {pending : List R}

/-- What has been found and what lies in the pending regions is all there is to find. -/
def Covers (outputs : R → List L) (all done : List L) (pending : List R) : Prop :=
  (done ++ pending.flatMap outputs).Perm all

theorem covers_start (h : outputs r = all) : Covers outputs all [] [r] := by
  rw [Covers, List.flatMap_singleton, h]
  exact List.Perm.refl _

/-- The order of the frontier does not matter. -/
theorem Covers.perm {pending' : List R} (h : Covers outputs all done pending)
    (hp : pending'.Perm pending) : Covers outputs all done pending' :=
  ((hp.flatMap_right outputs).append_left done).trans h

/-- A region is split into the regions of its parts. -/
theorem Covers.split {parts : List R} (h : Covers outputs all done (r :: pending))
    (hr : (parts.flatMap outputs).Perm (outputs r)) :
    Covers outputs all done (pending ++ parts) := by
  rw [Covers, List.flatMap_cons] at h
  rw [Covers, List.flatMap_append]
  apply List.Perm.trans _ h
  apply List.Perm.append_left
  exact List.perm_append_comm.trans (hr.append_right _)

/-- A region with one output is finished. -/
theorem Covers.finish {l : L} (h : Covers outputs all done (r :: pending))
    (hr : outputs r = [l]) : Covers outputs all (done ++ [l]) pending := by
  rw [Covers, List.flatMap_cons, hr] at h
  rw [Covers, List.append_assoc]
  exact h

/-- When the frontier is empty everything has been found. -/
theorem Covers.exhausted (h : Covers outputs all done []) : done.Perm all := by
  rwa [Covers, List.flatMap_nil, List.append_nil] at h

end TaseVerifier.Library.Frontier
