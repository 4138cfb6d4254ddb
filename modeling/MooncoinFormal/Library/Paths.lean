import Mathlib

/-!
# Paths when edges come and go

How the paths of a graph change when a closed set of nodes is taken out and when
one node gets edges to nodes that do not lead back to it.
-/

namespace MooncoinFormal.Library.Paths

open Relation ReflTransGen

variable {α : Type} {edge edge' : α → α → Prop}

def Acyclic (edge : α → α → Prop) : Prop := ∀ node, ¬ TransGen edge node node

theorem Acyclic.mono (acyclic : Acyclic edge) (fewer : ∀ a b, edge' a b → edge a b) :
    Acyclic edge' :=
  fun node cycle => acyclic node (TransGen.mono fewer _ _ cycle)

variable {first last : α}

theorem transGen_iff_of_ne (differ : first ≠ last) :
    TransGen edge first last ↔ ReflTransGen edge first last :=
  ⟨TransGen.to_reflTransGen, fun path =>
    (reflTransGen_iff_eq_or_transGen.mp path).resolve_left fun same => differ same.symm⟩

section Removal

variable {Gone : α → Prop} (kept : ∀ a b, edge' a b ↔ edge a b ∧ ¬ Gone a ∧ ¬ Gone b)

include kept

theorem reflTransGen_of_kept (path : ReflTransGen edge' first last) :
    ReflTransGen edge first last :=
  mono (fun a b linked => ((kept a b).mp linked).1) _ _ path

/-- Where the nodes that go are closed under successors, a path to a node that stays
goes through nodes that stay. -/
theorem reflTransGen_kept_forward (closed : ∀ a b, edge a b → Gone a → Gone b)
    (stays : ¬ Gone last) : ReflTransGen edge' first last ↔ ReflTransGen edge first last := by
  refine ⟨reflTransGen_of_kept kept, fun path => ?_⟩
  suffices reached : ReflTransGen edge' first last ∧ ¬ Gone first from reached.1
  induction path using head_induction_on with
  | refl => exact ⟨.refl, stays⟩
  | @head a b linked _ ih =>
    have here : ¬ Gone a := fun goes => ih.2 (closed a b linked goes)
    exact ⟨ih.1.head ((kept a b).mpr ⟨linked, here, ih.2⟩), here⟩

theorem reflTransGen_kept_backward (closed : ∀ a b, edge a b → Gone b → Gone a)
    (stays : ¬ Gone first) : ReflTransGen edge' first last ↔ ReflTransGen edge first last := by
  rw [← reflTransGen_swap, ← @reflTransGen_swap _ edge]
  refine reflTransGen_kept_forward (fun a b => ?_) (fun a b => closed b a) stays
  exact (kept b a).trans (and_congr_right fun _ => and_comm)

end Removal

/-! ## New edges of one node -/

section Attached

variable {node : α} {Target : α → Prop}
  (grown : ∀ a b, edge' a b ↔ edge a b ∨ (a = node ∧ Target b))
  (away : ∀ target, Target target → ¬ ReflTransGen edge target node)

include grown away

theorem reflTransGen_attached :
    ReflTransGen edge' first last ↔
      ReflTransGen edge first last ∨
        (ReflTransGen edge first node ∧ ∃ target, Target target ∧
          ReflTransGen edge target last) := by
  have old : ∀ a b, edge a b → edge' a b := fun a b linked => (grown a b).mpr (.inl linked)
  constructor
  · intro path
    induction path with
    | refl => exact .inl .refl
    | @tail a b _ linked ih =>
      obtain before | ⟨rfl, target⟩ := (grown a b).mp linked
      · obtain path | ⟨path, target, isTarget, rest⟩ := ih
        · exact .inl (path.tail before)
        · exact .inr ⟨path, target, isTarget, rest.tail before⟩
      · obtain path | ⟨path, target', isTarget, rest⟩ := ih
        · exact .inr ⟨path, b, target, .refl⟩
        · exact absurd rest (away target' isTarget)
  · rintro (path | ⟨path, target, isTarget, rest⟩)
    · exact mono old _ _ path
    · have reaches : ReflTransGen edge' first target :=
        (mono old _ _ path).tail ((grown node target).mpr (.inr ⟨rfl, isTarget⟩))
      exact reaches.trans (mono old _ _ rest)

theorem Acyclic.attached (acyclic : Acyclic edge) : Acyclic edge' := by
  intro start cycle
  obtain ⟨next, linked, back⟩ := TransGen.head'_iff.mp cycle
  obtain before | ⟨rfl, isTarget⟩ := (grown start next).mp linked
  · obtain path | ⟨path, target, isTarget, rest⟩ := (reflTransGen_attached grown away).mp back
    · exact acyclic start (TransGen.head' before path)
    · exact away target isTarget ((rest.tail before).trans path)
  · obtain path | ⟨path, -⟩ := (reflTransGen_attached grown away).mp back
    · exact away next isTarget path
    · exact away next isTarget path

end Attached

section Sink

variable {node : α} {Parent : α → Prop}
  (grown : ∀ a b, edge' a b ↔ edge a b ∨ (b = node ∧ Parent a))
  (isolated : ∀ other, ¬ edge node other) (differs : ¬ Parent node)

include grown isolated differs

omit grown differs in
theorem reflTransGen_isolated : ReflTransGen edge node last ↔ last = node := by
  refine ⟨fun path => ?_, fun same => same ▸ .refl⟩
  obtain same | ⟨other, linked, -⟩ := cases_head path
  · exact same.symm
  · exact absurd linked (isolated other)

omit grown in
-- With the edges turned round, the sink is a node that gets new edges.
theorem away_of_isolated (parent : α) (isParent : Parent parent) :
    ¬ ReflTransGen (Function.swap edge) parent node :=
  fun path => differs ((reflTransGen_isolated isolated).mp (reflTransGen_swap.mp path) ▸ isParent)

theorem reflTransGen_sink {first last : α} :
    ReflTransGen edge' first last ↔
      ReflTransGen edge first last ∨
        (last = node ∧ ∃ parent, Parent parent ∧ ReflTransGen edge first parent) := by
  rw [← reflTransGen_swap, reflTransGen_attached (fun a b => grown b a)
    (away_of_isolated isolated differs)]
  simp only [reflTransGen_swap, reflTransGen_isolated isolated]

theorem Acyclic.sink (acyclic : Acyclic edge) : Acyclic edge' := by
  have turned : Acyclic (Function.swap edge) := fun node cycle =>
    acyclic node (transGen_swap.mp cycle)
  intro start cycle
  exact turned.attached (fun a b => grown b a) (away_of_isolated isolated differs) start
    (transGen_swap.mpr cycle)

end Sink

end MooncoinFormal.Library.Paths
