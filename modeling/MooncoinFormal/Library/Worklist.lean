import Mathlib
import MooncoinFormal.Library.Checks

/-!
# Closing a set under successors

A stage of items to visit and the items found so far: an item is taken from the
stage and found, and its successors go on the stage unless they are found already.
Within a finite domain the loop ends with everything reachable from the stage.
-/

namespace MooncoinFormal.Library.Worklist

open List Relation

variable {α : Type} [DecidableEq α]

def push (found stage : List α) (successors : List α) : List α :=
  successors.foldl (fun stage item => if item ∈ found then stage else stage.insert item) stage

/-- The loop, for at most the given number of visits. -/
def close (next : α → List α) : Nat → (stage found : List α) → List α
  | 0, _, found => found
  | _ + 1, [], found => found
  | fuel + 1, item :: stage, found =>
    close next fuel (push (item :: found) stage (next item)) (item :: found)

variable {item : α} {fuel : Nat} {found stage successors : List α}

/-- What is on the stage is not found yet. -/
structure Apart (stage found : List α) : Prop where
  nodup : stage.Nodup
  apart : ∀ item ∈ stage, item ∉ found

variable {next : α → List α} {domain stage found : List α}

theorem subset_close : found ⊆ close next fuel stage found := by
  induction fuel generalizing stage found with
  | zero => exact List.Subset.refl found
  | succ fuel ih =>
    cases stage with
    | nil => exact List.Subset.refl found
    | cons item stage => exact fun other known => ih (mem_cons_of_mem _ known)

/-! ## With a check at every visit -/

/-- The loop, which a visit may stop with an error. -/
def closeChecked {ε : Type} (next : α → List α)
    (check : (item : α) → (stage found : List α) → Except ε Unit) :
    Nat → (stage found : List α) → Except ε (List α)
  | 0, _, found => .ok found
  | _ + 1, [], found => .ok found
  | fuel + 1, item :: stage, found => do
      check item (push (item :: found) stage (next item)) (item :: found)
      closeChecked next check fuel (push (item :: found) stage (next item)) (item :: found)

theorem closeChecked_eq_ok {ε : Type} {check : (item : α) → (stage found : List α) → Except ε Unit}
    {result : List α} (passed : closeChecked next check fuel stage found = .ok result) :
    result = close next fuel stage found := by
  induction fuel generalizing stage found with
  | zero => exact (Except.ok.inj passed).symm
  | succ fuel ih =>
    cases stage with
    | nil => exact (Except.ok.inj passed).symm
    | cons item stage =>
      obtain ⟨_, -, later⟩ := Checks.bind_eq_ok.mp passed
      exact ih later

/-! ## With what is known of some items

Of some items it is known what can be reached from them, as far as it is of
interest. The loop takes that over and does not go through them. -/

variable (known : α → List α)

/-- A successor that is known contributes what is known; any other goes on the stage
unless it is found. -/
def visitKnown (state : List α × List α) (successor : α) : List α × List α :=
  if known successor ≠ [] then
    ((known successor).foldl (fun found item => found.insert item) state.1, state.2)
  else if successor ∈ state.1 then state
  else (state.1, state.2.insert successor)

/-- The loop, with what is known of some items. -/
def closeKnown (next known : α → List α) : Nat → (stage found : List α) → List α
  | 0, _, found => found
  | _ + 1, [], found => found
  | fuel + 1, item :: stage, found =>
    let state := (next item).foldl (visitKnown known) (found.insert item, stage)
    closeKnown next known fuel state.2 state.1

theorem mem_foldl_insert {items found : List α} :
    item ∈ items.foldl (fun found item => found.insert item) found ↔ item ∈ found ∨
      item ∈ items := by
  induction items generalizing found with
  | nil => simp
  | cons first rest ih =>
    rw [foldl_cons, ih, mem_insert_iff, mem_cons]
    tauto

theorem nodup_foldl_insert {items found : List α} (nodup : found.Nodup) :
    (items.foldl (fun found item => found.insert item) found).Nodup := by
  induction items generalizing found with
  | nil => exact nodup
  | cons first rest ih => exact ih (List.Nodup.insert nodup)

/-- What the successors of an item do to the items found and to the stage. -/
structure Visited (successors : List α) (before after : List α × List α) : Prop where
  found : ∀ item, item ∈ after.1 ↔ item ∈ before.1 ∨ ∃ key ∈ successors, item ∈ known key
  old : before.2 ⊆ after.2
  new : ∀ item ∈ after.2, item ∈ before.2 ∨ (item ∈ successors ∧ item ∉ before.1)
  all : ∀ item ∈ successors, item ∈ after.2 ∨ item ∈ after.1 ∨ known item ≠ []
  found_nodup : before.1.Nodup → after.1.Nodup
  stage_nodup : before.2.Nodup → after.2.Nodup

theorem visited_single (successor : α) (before : List α × List α) :
    Visited known [successor] before (visitKnown known before successor) := by
  unfold visitKnown
  split
  · exact ⟨fun item => by simp [mem_foldl_insert], List.Subset.refl _, fun _ old => .inl old,
      fun item single => .inr (.inr (by rwa [mem_singleton.mp single])),
      nodup_foldl_insert, id⟩
  · rename_i none
    have empty : known successor = [] := not_not.mp none
    split
    · exact ⟨fun item => by simp [empty], List.Subset.refl _, fun _ old => .inl old,
        fun item single => .inr (.inl (by rwa [mem_singleton.mp single])), id, id⟩
    · rename_i absent
      refine ⟨fun item => by simp [empty], fun _ old => mem_insert_of_mem old, ?_, ?_, id,
        List.Nodup.insert⟩
      · intro item staged
        obtain rfl | old := mem_insert_iff.mp staged
        · exact .inr ⟨mem_singleton_self _, absent⟩
        · exact .inl old
      · intro item single
        rw [mem_singleton.mp single]
        exact .inl mem_insert_self

omit [DecidableEq α] in
theorem Visited.trans {known : α → List α} {first rest : List α}
    {before between after : List α × List α} (start : Visited known first before between)
    (finish : Visited known rest between after) : Visited known (first ++ rest) before after where
  found item := by
    rw [finish.found, start.found]
    simp only [mem_append, or_and_right, exists_or, or_assoc]
  old := fun _ staged => finish.old (start.old staged)
  new item staged := by
    obtain earlier | ⟨later, absent⟩ := finish.new item staged
    · obtain old | ⟨listed, absent⟩ := start.new item earlier
      · exact .inl old
      · exact .inr ⟨mem_append_left _ listed, absent⟩
    · exact .inr ⟨mem_append_right _ later,
        fun there => absent ((start.found item).mpr (.inl there))⟩
  all item listed := by
    obtain earlier | later := mem_append.mp listed
    · obtain staged | there | known := start.all item earlier
      · exact .inl (finish.old staged)
      · exact .inr (.inl ((finish.found item).mpr (.inl there)))
      · exact .inr (.inr known)
    · exact finish.all item later
  found_nodup nodup := finish.found_nodup (start.found_nodup nodup)
  stage_nodup nodup := finish.stage_nodup (start.stage_nodup nodup)

theorem visited_foldl (successors : List α) (before : List α × List α) :
    Visited known successors before (successors.foldl (visitKnown known) before) := by
  induction successors generalizing before with
  | nil => exact ⟨by simp, List.Subset.refl _, fun _ old => .inl old, nofun, id, id⟩
  | cons successor rest ih => exact (visited_single known successor before).trans (ih _)

section Known

variable {known : α → List α} {Keep : α → Prop} {start visited : List α}

/-- Everything of interest that can be reached from an item is found. -/
def Covered (next : α → List α) (Keep : α → Prop) (found : List α) (item : α) : Prop :=
  ∀ target, Keep target → ReflTransGen (fun a b => b ∈ next a) item target →
    target ∈ found

omit [DecidableEq α] in
theorem Covered.mono {found' : List α} (covered : Covered next Keep found item)
    (subset : found ⊆ found') : Covered next Keep found' item :=
  fun target keep path => subset (covered target keep path)

/-- What holds between two visits; `visited` are the items taken from the stage. -/
structure PendingKnown (next : α → List α) (Keep : α → Prop) (domain start : List α)
    (visited stage found : List α) : Prop where
  stage_nodup : stage.Nodup
  visited_nodup : visited.Nodup
  found_nodup : found.Nodup
  stage_inside : stage ⊆ domain
  visited_inside : visited ⊆ domain
  apart : ∀ item ∈ stage, item ∉ visited
  visited_found : visited ⊆ found
  started : ∀ item ∈ start, item ∈ visited ∨ item ∈ stage
  sound : ∀ item, item ∈ found ∨ item ∈ stage →
    ∃ origin ∈ start, ReflTransGen (fun a b => b ∈ next a) origin item
  done : ∀ item ∈ visited, ∀ successor ∈ next item,
    successor ∈ visited ∨ successor ∈ stage ∨ Covered next Keep found successor
  taken : ∀ item ∈ found, item ∈ visited ∨ Covered next Keep found item

/-- A visit keeps it, when what is known is right. -/
theorem PendingKnown.visit
    (pending : PendingKnown next Keep domain start visited (item :: stage) found)
    (closed : ∀ item ∈ domain, next item ⊆ domain)
    (right : ∀ key, known key ≠ [] → ∀ target, target ∈ known key ↔ Keep target ∧
      ReflTransGen (fun a b => b ∈ next a) key target) {after : List α × List α}
    (visit : Visited known (next item) (found.insert item, stage) after) :
    PendingKnown next Keep domain start (item :: visited) after.2 after.1 := by
  obtain ⟨fresh, nodup⟩ := nodup_cons.mp pending.stage_nodup
  have itemInside := pending.stage_inside mem_cons_self
  have grows : found ⊆ after.1 := fun other there =>
    (visit.found other).mpr (.inl (mem_insert_of_mem there))
  have itemFound : item ∈ after.1 := (visit.found item).mpr (.inl mem_insert_self)
  obtain ⟨origin, starts, path⟩ := pending.sound item (.inr mem_cons_self)
  -- A known successor is covered, and so is everything it contributes.
  have keyCovered : ∀ key ∈ next item, known key ≠ [] → Covered next Keep after.1 key := by
    intro key follows some target keep reach
    exact (visit.found target).mpr (.inr ⟨key, follows, (right key some target).mpr ⟨keep, reach⟩⟩)
  have knownCovered : ∀ other, (∃ key ∈ next item, other ∈ known key) →
      Covered next Keep after.1 other := by
    rintro other ⟨key, follows, listed⟩ target keep reach
    have some : known key ≠ [] := ne_nil_of_mem listed
    exact keyCovered key follows some target keep
      ((((right key some other).mp listed).2).trans reach)
  have taken : ∀ other ∈ after.1, other ∈ item :: visited ∨ Covered next Keep after.1 other := by
    intro other there
    obtain old | new := (visit.found other).mp there
    · obtain rfl | old := mem_insert_iff.mp old
      · exact .inl mem_cons_self
      · exact (pending.taken other old).imp (mem_cons_of_mem _) fun covered =>
          covered.mono grows
    · exact .inr (knownCovered other new)
  refine ⟨visit.stage_nodup nodup, ?_, visit.found_nodup (List.Nodup.insert pending.found_nodup),
    ?_, ?_, ?_, ?_, ?_, ?_, ?_, taken⟩
  · exact nodup_cons.mpr ⟨pending.apart item mem_cons_self, pending.visited_nodup⟩
  · intro other staged
    obtain old | ⟨follows, -⟩ := visit.new other staged
    · exact pending.stage_inside (mem_cons_of_mem _ old)
    · exact closed item itemInside follows
  · exact cons_subset.mpr ⟨itemInside, pending.visited_inside⟩
  · intro other staged
    rw [mem_cons, not_or]
    obtain old | ⟨-, absent⟩ := visit.new other staged
    · refine ⟨?_, pending.apart other (mem_cons_of_mem _ old)⟩
      rintro rfl
      exact fresh old
    · refine ⟨?_, fun there => absent (mem_insert_of_mem (pending.visited_found there))⟩
      rintro rfl
      exact absent mem_insert_self
  · exact cons_subset.mpr ⟨itemFound, fun _ there => grows (pending.visited_found there)⟩
  · intro other starts
    obtain there | staged := pending.started other starts
    · exact .inl (mem_cons_of_mem _ there)
    · obtain rfl | old := mem_cons.mp staged
      · exact .inl mem_cons_self
      · exact .inr (visit.old old)
  · rintro other (there | staged)
    · obtain old | ⟨key, follows, listed⟩ := (visit.found other).mp there
      · obtain rfl | old := mem_insert_iff.mp old
        · exact ⟨origin, starts, path⟩
        · exact pending.sound other (.inl old)
      · have reach := ((right key (ne_nil_of_mem listed) other).mp listed).2
        exact ⟨origin, starts, (path.tail follows).trans reach⟩
    · obtain old | ⟨follows, -⟩ := visit.new other staged
      · exact pending.sound other (.inr (mem_cons_of_mem _ old))
      · exact ⟨origin, starts, path.tail follows⟩
  · intro other there successor follows
    obtain rfl | old := mem_cons.mp there
    · obtain staged | found | some := visit.all successor follows
      · exact .inr (.inl staged)
      · exact (taken successor found).imp_right .inr
      · exact .inr (.inr (keyCovered successor follows some))
    · obtain seen | staged | covered := pending.done other old successor follows
      · exact .inl (mem_cons_of_mem _ seen)
      · obtain rfl | old := mem_cons.mp staged
        · exact .inl mem_cons_self
        · exact .inr (.inl (visit.old old))
      · exact .inr (.inr (covered.mono grows))

omit [DecidableEq α] in
/-- When the stage is empty, what is found of interest is what can be reached. -/
theorem PendingKnown.finished
    (pending : PendingKnown next Keep domain start visited [] found) {target : α}
    (keep : Keep target) :
    target ∈ found ↔ ∃ origin ∈ start, ReflTransGen (fun a b => b ∈ next a) origin target := by
  constructor
  · exact fun there => pending.sound target (.inl there)
  · rintro ⟨origin, starts, path⟩
    have seen : origin ∈ visited :=
      (pending.started origin starts).resolve_right not_mem_nil
    clear starts
    induction path using ReflTransGen.head_induction_on with
    | refl => exact pending.visited_found seen
    | head follows rest ih =>
      obtain seen | staged | covered := pending.done _ seen _ follows
      · exact ih seen
      · cases staged
      · exact covered target keep rest

/-- The loop finds, of what is of interest, exactly what can be reached. -/
theorem closeKnown_spec (pending : PendingKnown next Keep domain start visited stage found)
    (closed : ∀ item ∈ domain, next item ⊆ domain)
    (right : ∀ key, known key ≠ [] → ∀ target, target ∈ known key ↔ Keep target ∧
      ReflTransGen (fun a b => b ∈ next a) key target)
    (enough : domain.length ≤ fuel + visited.length) :
    (closeKnown next known fuel stage found).Nodup ∧ ∀ target, Keep target →
      (target ∈ closeKnown next known fuel stage found ↔
        ∃ origin ∈ start, ReflTransGen (fun a b => b ∈ next a) origin target) := by
  induction fuel generalizing stage found visited with
  | zero =>
    -- Everything has been visited, so nothing is left on the stage.
    have all : visited.Perm domain :=
      (pending.visited_nodup.subperm pending.visited_inside).perm_of_length_le (by omega)
    have empty : stage = [] := by
      rw [eq_nil_iff_forall_not_mem]
      intro item staged
      exact pending.apart item staged (all.mem_iff.mpr (pending.stage_inside staged))
    subst empty
    exact ⟨pending.found_nodup, fun target keep => pending.finished keep⟩
  | succ fuel ih =>
    cases stage with
    | nil => exact ⟨pending.found_nodup, fun target keep => pending.finished keep⟩
    | cons item stage =>
      exact ih (pending.visit closed right (visited_foldl known (next item) _))
        (by rw [length_cons]; omega)

/-! ## With nothing known -/

theorem foldl_visitKnown_nil (successors : List α) :
    successors.foldl (visitKnown fun _ => [])
      (found, stage) = (found, push found stage successors) := by
  induction successors generalizing stage with
  | nil => rfl
  | cons successor rest ih =>
    rw [foldl_cons, push, foldl_cons, visitKnown, if_neg (not_not.mpr rfl)]
    split
    · exact ih
    · exact ih

theorem Apart.visit (apart : Apart (item :: stage) found) (successors : List α) :
    Apart (push (item :: found) stage successors) (item :: found) := by
  obtain ⟨fresh, nodup⟩ := nodup_cons.mp apart.nodup
  have visited := visited_foldl (fun _ => []) successors (item :: found, stage)
  rw [foldl_visitKnown_nil] at visited
  refine ⟨visited.stage_nodup nodup, fun other staged => ?_⟩
  obtain old | ⟨-, absent⟩ := visited.new other staged
  · rw [mem_cons, not_or]
    refine ⟨?_, apart.apart other (mem_cons_of_mem _ old)⟩
    rintro rfl
    exact fresh old
  · exact absent

theorem close_eq_closeKnown (apart : Apart stage found) :
    close next fuel stage found = closeKnown next (fun _ => []) fuel stage found := by
  induction fuel generalizing stage found with
  | zero => rfl
  | succ fuel ih =>
    cases stage with
    | nil => rfl
    | cons item stage =>
      rw [close, closeKnown, insert_of_not_mem (apart.apart item mem_cons_self),
        foldl_visitKnown_nil]
      exact ih (apart.visit _)

/-- From a stage and items whose successors are found or on the stage, the loop finds
exactly what can be reached. -/
theorem close_spec (apart : Apart stage found) (nodup : found.Nodup) (stage_inside : stage ⊆ domain)
    (found_inside : found ⊆ domain)
    (done : ∀ item ∈ found, ∀ successor ∈ next item, successor ∈ found ∨ successor ∈ stage)
    (closed : ∀ item ∈ domain, next item ⊆ domain) (enough : domain.length ≤ fuel + found.length) :
    (close next fuel stage found).Nodup ∧ ∀ target, target ∈ close next fuel stage found ↔
      ∃ start ∈ found ++ stage, ReflTransGen (fun a b => b ∈ next a) start target := by
  have pending : PendingKnown next (fun _ => True) domain (found ++ stage) found stage found :=
    ⟨apart.nodup, nodup, nodup, stage_inside, found_inside, apart.apart, List.Subset.refl _,
      fun _ => mem_append.mp, fun item there => ⟨item, mem_append.mpr there, .refl⟩,
      fun item known successor follows => (done item known successor follows).imp_right .inl,
      fun _ => .inl⟩
  rw [close_eq_closeKnown apart]
  obtain ⟨unique, mem⟩ := closeKnown_spec pending closed (fun _ some => absurd rfl some) enough
  exact ⟨unique, fun target => mem target trivial⟩

end Known

end MooncoinFormal.Library.Worklist
