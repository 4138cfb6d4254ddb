import Mathlib

/-!
# Sums over related nodes

Each node of a finite set has a weight, and the total of a node is the sum of the
weights of the nodes it is related to. When nodes come or go, when a weight changes
or when more nodes are related, the totals change by what has been added or taken
away, which is how a program that keeps them up to date computes them.
-/

namespace MooncoinFormal.Library.RelationSums

open Finset

variable {α A : Type} [AddCommGroup A]

open Classical in
/-- The weights of the nodes that `node` is related to. -/
noncomputable def relSum (nodes : Finset α) (related : α → α → Prop) (weight : α → A)
    (node : α) : A :=
  ∑ other ∈ nodes, if related node other then weight other else 0

variable {nodes gone : Finset α} {related related' gained : α → α → Prop} {weight weight' : α → A}
  {node node' new : α}

theorem relSum_congr (same : ∀ other ∈ nodes, related node other ↔ related' node' other)
    (weights : ∀ other ∈ nodes, weight other = weight' other) :
    relSum nodes related weight node = relSum nodes related' weight' node' := by
  classical
  refine sum_congr rfl fun other inside => ?_
  rw [weights other inside]
  exact if_congr (same other inside) rfl rfl

theorem relSum_weights (weights : ∀ other ∈ nodes, weight other = weight' other) :
    relSum nodes related weight node = relSum nodes related weight' node :=
  relSum_congr (fun _ _ => Iff.rfl) weights

theorem relSum_eq_zero (unrelated : ∀ other ∈ nodes, ¬ related node other) :
    relSum nodes related weight node = 0 :=
  sum_eq_zero fun other inside => if_neg (unrelated other inside)

section Nodes

variable [DecidableEq α]

theorem relSum_insert (fresh : new ∉ nodes) (linked : related node new) :
    relSum (insert new nodes) related weight node =
      relSum nodes related weight node + weight new := by
  rw [relSum, sum_insert fresh, if_pos linked, add_comm]
  rfl

theorem relSum_insert_of_not (fresh : new ∉ nodes) (unlinked : ¬ related node new) :
    relSum (insert new nodes) related weight node = relSum nodes related weight node := by
  rw [relSum, sum_insert fresh, if_neg unlinked, zero_add]
  rfl

theorem relSum_sdiff (inside : gone ⊆ nodes) :
    relSum (nodes \ gone) related weight node =
      relSum nodes related weight node - relSum gone related weight node :=
  sum_sdiff_eq_sub inside

/-- The weight of one node grows, and so do its total and the totals of the others that are
related to it. -/
theorem eq_relSum_of_grow {changed : α} (amount : A) {total total' : A} {told : List α}
    (present : changed ∈ nodes) (self : related changed changed)
    (listed : ∀ other, other ∈ told ↔ other ≠ changed ∧ related other changed)
    (grown : ∀ other, weight' other = weight other + if other = changed then amount else 0)
    (before : total = relSum nodes related weight node)
    (after : total' = total + (if node = changed then amount else 0) +
      if node ∈ told then amount else 0) :
    total' = relSum nodes related weight' node := by
  have others : ∀ other ∈ nodes.erase changed, weight' other = weight other := by
    intro other inside
    rw [grown, if_neg (ne_of_mem_erase inside), add_zero]
  have here := grown changed
  have fresh := notMem_erase changed nodes
  rw [if_pos rfl] at here
  rw [← insert_erase present] at before ⊢
  by_cases counted : related node changed
  · rw [relSum_insert fresh counted] at before ⊢
    rw [after, before, here, relSum_weights others, ← add_assoc]
    by_cases same : node = changed
    · rw [if_pos same, if_neg fun inside => ((listed node).mp inside).1 same, add_zero]
    · rw [if_neg same, if_pos ((listed node).mpr ⟨same, counted⟩), add_zero]
  · have differs : node ≠ changed := fun same => counted (same ▸ self)
    rw [relSum_insert_of_not fresh counted] at before ⊢
    rw [after, before, if_neg differs, if_neg fun inside => counted ((listed node).mp inside).2,
      add_zero, add_zero, relSum_weights others]

end Nodes

theorem relSum_gain
    (either : ∀ other ∈ nodes, related' node other ↔ related node other ∨ gained node other)
    (apart : ∀ other ∈ nodes, related node other → ¬ gained node other) :
    relSum nodes related' weight node =
      relSum nodes related weight node + relSum nodes gained weight node := by
  classical
  rw [relSum, relSum, relSum, ← sum_add_distrib]
  refine sum_congr rfl fun other inside => ?_
  by_cases linked : related node other
  · rw [if_pos ((either other inside).mpr (.inl linked)), if_pos linked,
      if_neg (apart other inside linked), add_zero]
  · rw [if_neg linked, zero_add]
    refine if_congr ⟨fun more => ?_, fun more => ?_⟩ rfl rfl
    · exact ((either other inside).mp more).resolve_left linked
    · exact (either other inside).mpr (.inr more)

theorem relSum_eq_sum {items : List α} (nodup : items.Nodup)
    (listed : ∀ other, other ∈ items ↔ other ∈ nodes ∧ related node other) :
    relSum nodes related weight node = (items.map weight).sum := by
  classical
  rw [← List.sum_toFinset weight nodup, relSum, ← sum_filter]
  refine sum_congr ?_ fun _ _ => rfl
  ext other
  rw [mem_filter, List.mem_toFinset, listed]

end MooncoinFormal.Library.RelationSums
