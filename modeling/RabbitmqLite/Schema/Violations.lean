import RabbitmqLite.Collections.SliceSort
import Mathlib.Data.String.Basic

/-! # The report of a failed schema validation

The JSON Schema library answers with a tree of errors in which only the leaves
name a violation of their own. The registry collects the leaves below every
node and sorts what it has collected at every level.
-/

namespace RabbitmqLite.Schema
open Collections

structure Violation where
  path : String
  detail : String
  deriving DecidableEq, Repr

/-- A `jsonschema.ValidationError`: the location in the instance, the text of its kind, and the
causes below it. -/
inductive ErrorTree where
  | node (location : List String) (detail : String) (causes : List ErrorTree)

def instancePath (location : List String) : String :=
  if location.isEmpty then "" else "/" ++ "/".intercalate location

/-- The comparison the violations are sorted by. -/
def less (a b : Violation) : Bool :=
  if a.path = b.path then decide (a.detail < b.detail) else decide (a.path < b.path)

section Collect
variable (sorter : SliceSort Violation)

mutual

def collectViolations : ErrorTree → List Violation
  | .node location detail causes =>
    if causes.isEmpty then [⟨instancePath location, detail⟩]
    else sorter.sort less (collectCauses causes)

/-- The loop over the causes of a node. -/
def collectCauses : List ErrorTree → List Violation
  | [] => []
  | cause :: causes => collectViolations cause ++ collectCauses causes

end

end Collect

/-! ## The leaves -/

mutual

/-- The location and the text of every node without causes. -/
def ErrorTree.leaves : ErrorTree → List (List String × String)
  | .node location detail causes =>
    if causes.isEmpty then [(location, detail)] else leavesBelow causes

def leavesBelow : List ErrorTree → List (List String × String)
  | [] => []
  | cause :: causes => cause.leaves ++ leavesBelow causes

end

/-- The violation of a leaf. -/
def violationOf (leaf : List String × String) : Violation := ⟨instancePath leaf.1, leaf.2⟩

theorem ErrorTree.leaves_ne_nil : ∀ tree : ErrorTree, tree.leaves ≠ []
  | .node location detail [] => by simp [ErrorTree.leaves]
  | .node location detail (cause :: causes) => by
    rw [ErrorTree.leaves, if_neg (by simp), leavesBelow]
    exact List.append_ne_nil_of_left_ne_nil cause.leaves_ne_nil _

section Perm
variable (sorter : SliceSort Violation)

mutual

/-- Sorting at every level moves violations and loses none. -/
theorem collectViolations_perm : ∀ tree : ErrorTree,
    (collectViolations sorter tree).Perm (tree.leaves.map violationOf)
  | .node location detail causes => by
    rw [collectViolations, ErrorTree.leaves]
    split_ifs
    · exact List.Perm.refl _
    · exact (sorter.perm less _).trans (collectCauses_perm causes)

theorem collectCauses_perm : ∀ causes : List ErrorTree,
    (collectCauses sorter causes).Perm ((leavesBelow causes).map violationOf)
  | [] => by
    rw [collectCauses, leavesBelow]
    exact List.Perm.refl []
  | cause :: causes => by
    rw [collectCauses, leavesBelow, List.map_append]
    exact (collectViolations_perm cause).append (collectCauses_perm causes)

end

end Perm

/-! ## The order of a report -/

/-- By path and then by detail. -/
def ReportedBefore (a b : Violation) : Prop :=
  a.path < b.path ∨ a.path = b.path ∧ a.detail ≤ b.detail

theorem less_eq_false_iff {a b : Violation} : less b a = false ↔ ReportedBefore a b := by
  unfold less ReportedBefore
  split_ifs with hpath
  · rw [decide_eq_false_iff_not, not_lt]
    simp [hpath]
  · rw [decide_eq_false_iff_not, not_lt, le_iff_lt_or_eq]
    simp [Ne.symm hpath]

theorem less_strictWeak : StrictWeak less where
  asymm a b h := by
    rw [less_eq_false_iff]
    unfold less at h
    split_ifs at h with hpath
    · exact Or.inr ⟨hpath, (of_decide_eq_true h).le⟩
    · exact Or.inl (of_decide_eq_true h)
  negTrans a b c hab hbc := by
    rw [less_eq_false_iff] at hab hbc ⊢
    rcases hab with hab | ⟨hab, hab'⟩ <;> rcases hbc with hbc | ⟨hbc, hbc'⟩
    · exact Or.inl (hbc.trans hab)
    · exact Or.inl (hbc ▸ hab)
    · exact Or.inl (hab ▸ hbc)
    · exact Or.inr ⟨hbc.trans hab, hbc'.trans hab'⟩

theorem ReportedBefore.antisymm {a b : Violation} (hab : ReportedBefore a b)
    (hba : ReportedBefore b a) : a = b := by
  rcases hab with hab | ⟨hpath, hab⟩ <;> rcases hba with hba | ⟨hpath', hba⟩
  · exact absurd hab (lt_asymm hba)
  · exact absurd hab (by simp [hpath'])
  · exact absurd hba (by simp [hpath])
  · cases a
    cases b
    exact congrArg₂ Violation.mk hpath (le_antisymm hab hba)

theorem collectViolations_sorted (sorter : SliceSort Violation) (tree : ErrorTree) :
    (collectViolations sorter tree).Pairwise ReportedBefore := by
  obtain ⟨location, detail, causes⟩ := tree
  rw [collectViolations]
  split_ifs
  · exact List.pairwise_singleton _ _
  · exact (sorter.sorted less _ less_strictWeak).imp less_eq_false_iff.mp

/-- What a report has to be: all leaves and nothing else, in one order that depends on them
only. -/
structure Reports (sorter : SliceSort Violation) (tree : ErrorTree) : Prop where
  nonempty : collectViolations sorter tree ≠ []
  complete : (collectViolations sorter tree).Perm (tree.leaves.map violationOf)
  sorted : (collectViolations sorter tree).Pairwise ReportedBefore
  canonical : ∀ (other : SliceSort Violation) (tree' : ErrorTree), tree'.leaves.Perm tree.leaves →
    collectViolations other tree' = collectViolations sorter tree

theorem collectViolations_reports (sorter : SliceSort Violation) (tree : ErrorTree) :
    Reports sorter tree where
  nonempty h := by
    have hperm := collectViolations_perm sorter tree
    rw [h] at hperm
    exact tree.leaves_ne_nil (List.map_eq_nil_iff.mp hperm.nil_eq.symm)
  complete := collectViolations_perm sorter tree
  sorted := collectViolations_sorted sorter tree
  canonical other tree' hsame := by
    have hperm : (collectViolations other tree').Perm (collectViolations sorter tree) :=
      ((collectViolations_perm other tree').trans (hsame.map _)).trans
        (collectViolations_perm sorter tree).symm
    exact hperm.eq_of_pairwise (fun a b _ _ => ReportedBefore.antisymm)
      (collectViolations_sorted other tree') (collectViolations_sorted sorter tree)

end RabbitmqLite.Schema
