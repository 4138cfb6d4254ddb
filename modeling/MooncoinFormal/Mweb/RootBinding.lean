import MooncoinFormal.Library.RangeBinding
import MooncoinFormal.Mweb.Mmr

/-!
# What a root says about a range

When the nodes of a range cannot collide, its root and its number of leaves say
what its leaves are. A hash file whose commit wrote new hashes behind old ones that
were cut off has another root than the range that it was meant to hold.
-/

namespace MooncoinFormal.Mweb.Mmr

open Library.MountainRange List Option

variable {Hash Data : Type} {hashes : NodeHash Hash Data} {zero : Hash}

variable {leaves : List Data} {position : Nat}

theorem nodesOf_getD (hashes : NodeHash Hash Data) (zero : Hash)
    (inside : position < leafPosition leaves.length) :
    (nodesOf hashes leaves)[position]? = some ((nodesOf hashes leaves).getD position zero) := by
  rw [getD_eq_getElem?_getD, getElem?_eq_getElem (by simpa using inside), getD_some]

variable {getHash : Nat → Option Hash}

theorem mapM_eq_some {positions : List Nat} {found : List Hash}
    (read : positions.mapM getHash = some found) :
    found.length = positions.length ∧
      ∀ (i : Nat) (position : Nat), positions[i]? = some position →
        getHash position = found[i]? := by
  induction positions generalizing found with
  | nil =>
    cases read
    exact ⟨rfl, nofun⟩
  | cons first rest ih =>
    simp only [mapM_cons, Option.pure_def, bind_eq_bind, bind_eq_some_iff,
      Option.some.injEq] at read
    obtain ⟨hash, head, hashes, tail, rfl⟩ := read
    obtain ⟨length, each⟩ := ih tail
    refine ⟨by simp [length], ?_⟩
    rintro (_ | i) position at_i
    · cases at_i
      exact head
    · exact each i position at_i

variable {before after : List Data}

theorem committedNodes_cases {first : Nat} {hash : Hash}
    (found : (committedNodes hashes first before after)[position]? = some hash) :
    (position < leafPosition before.length ∧ (nodesOf hashes before)[position]? = some hash) ∨
      (leafPosition before.length ≤ position ∧
        (nodesOf hashes after)[leafPosition first + (position - leafPosition before.length)]? =
          some hash) := by
  rw [committedNodes, getElem?_take] at found
  split at found
  · rcases lt_or_ge position (leafPosition before.length) with old | new
    · rw [getElem?_append_left (by simpa using old)] at found
      exact .inl ⟨old, found⟩
    · rw [getElem?_append_right (by simpa using new), getElem?_drop, nodesOf_length] at found
      exact .inr ⟨new, found⟩
  · cases found

section Roots

variable [DecidableEq Hash]

theorem bagPeaks_append (numNodes : Nat) (peaks : List Hash) (peak hash : Hash) :
    bagPeaks hashes zero numNodes (peaks ++ [peak]) hash =
      if bagPeaks hashes zero numNodes peaks hash = zero then peak
      else hashes.parentHash numNodes peak (bagPeaks hashes zero numNodes peaks hash) := by
  induction peaks generalizing hash with
  | nil => rfl
  | cons first rest ih => exact ih _

section

variable {Same : Data → Data → Prop} (free : hashes.CollisionFree zero Same)
include free

theorem bagPeaks_ne_zero {numNodes : Nat} {peaks : List Hash}
    (some_peak : peaks ≠ []) (nonzero : ∀ peak ∈ peaks, peak ≠ zero) :
    bagPeaks hashes zero numNodes peaks zero ≠ zero := by
  induction peaks using reverseRecOn with
  | nil => exact absurd rfl some_peak
  | append_singleton peaks peak _ =>
    rw [bagPeaks_append]
    split
    · exact nonzero peak (by simp)
    · exact free.parent_ne_zero

theorem bagPeaks_inj {numNodes : Nat} {peaks others : List Hash}
    (length : peaks.length = others.length) (nonzero : ∀ peak ∈ peaks, peak ≠ zero)
    (nonzero' : ∀ peak ∈ others, peak ≠ zero)
    (same : bagPeaks hashes zero numNodes peaks zero = bagPeaks hashes zero numNodes others zero) :
    peaks = others := by
  induction peaks using reverseRecOn generalizing others with
  | nil => exact (length_eq_zero_iff.mp length.symm).symm
  | append_singleton peaks peak ih =>
    cases others using reverseRecOn with
    | nil => simp at length
    | append_singleton others other =>
      rw [length_append, length_append, length_singleton, length_singleton,
        Nat.add_right_cancel_iff] at length
      have inner : ∀ peak ∈ peaks, peak ≠ zero := fun peak member => nonzero peak (by simp [member])
      have inner' : ∀ peak ∈ others, peak ≠ zero :=
        fun peak member => nonzero' peak (by simp [member])
      rw [bagPeaks_append, bagPeaks_append] at same
      by_cases empty : peaks = []
      · obtain rfl := empty
        obtain rfl := length_eq_zero_iff.mp length.symm
        simp only [bagPeaks, if_true] at same
        rw [same]
      · have more : others ≠ [] := by
          rintro rfl
          exact empty (length_eq_zero_iff.mp length)
        rw [if_neg (bagPeaks_ne_zero free empty inner),
          if_neg (bagPeaks_ne_zero free more inner')] at same
        obtain ⟨-, rfl, rest⟩ := free.parent_inj same
        rw [ih length inner inner' rest]

/-! ## Roots of hashes that may not be those of the range -/

theorem peak_eq_of_root (nodes : ∀ position hash, getHash position = some hash → hash ≠ zero)
    (same : root hashes zero (leafPosition leaves.length) getHash = some (rootOf hashes zero
      leaves)) (peak : position ∈ peakPositions 0 (peaksOf leaves.length)) :
    getHash position = (nodesOf hashes leaves)[position]? := by
  simp only [root, calcPeakIndices_leafPosition, bind_eq_bind, bind_some,
    bind_eq_some_iff, Option.some.injEq] at same
  obtain ⟨found, read, same⟩ := same
  obtain ⟨length, each⟩ := mapM_eq_some read
  have found_nonzero : ∀ hash ∈ found, hash ≠ zero := by
    intro hash member
    obtain ⟨i, low, rfl⟩ := getElem_of_mem member
    have within : i < (peakPositions 0 (peaksOf leaves.length)).reverse.length := length ▸ low
    exact nodes _ _ ((each i _ (getElem?_eq_getElem within)).trans (getElem?_eq_getElem low))
  have peaks_nonzero : ∀ hash ∈ (peakPositions 0 (peaksOf leaves.length)).reverse.map
      (fun position => (nodesOf hashes leaves).getD position zero), hash ≠ zero := by
    intro hash member
    obtain ⟨position, inside, rfl⟩ := mem_map.mp member
    exact free.ne_zero (nodesOf_getD hashes zero (peakPositions_inside (mem_reverse.mp inside)))
  have lists := bagPeaks_inj free (by rw [length, length_map]) found_nonzero peaks_nonzero same
  obtain ⟨i, low, at_i⟩ := getElem_of_mem (mem_reverse.mpr peak)
  have at_i' := (getElem?_eq_getElem low).trans (congrArg some at_i)
  rw [each i position at_i', lists, getElem?_map, at_i', map_some,
    nodesOf_getD hashes zero (peakPositions_inside peak)]

end

theorem exists_peak {numLeaves j : Nat} (inside : j < numLeaves) :
    ∃ i h, leafPosition i + h ∈ peakPositions 0 (peaksOf numLeaves) ∧
      leafPosition i + h < leafPosition (i + 1) ∧ i < numLeaves ∧ i < j + 2 ^ h ∧ j ≤ i := by
  have above := exists_peak_above (s := 0) (lt_peakBits numLeaves) (Nat.dvd_zero _) inside
  simpa [peaksOf] using above

theorem forall₂_of_rootOf {Same : Data → Data → Prop} (free : hashes.CollisionFree zero Same)
    {others : List Data} (length : leaves.length = others.length)
    (same : rootOf hashes zero leaves = rootOf hashes zero others) :
    List.Forall₂ Same leaves others := by
  have found : root hashes zero (leafPosition others.length)
      (fun position => (nodesOf hashes leaves)[position]?) = some (rootOf hashes zero others) := by
    rw [← length, ← same]
    exact root_eq fun _ _ => rfl
  refine forall₂_iff_get.mpr ⟨length, fun j _ low => ?_⟩
  obtain ⟨i, h, peak, inside, within, far, near⟩ := exists_peak low
  have node := peak_eq_of_root free (fun _ _ => free.ne_zero) found peak
  exact free.leaves_eq inside (length ▸ within) within node far near

theorem rootOf_inj (free : hashes.CollisionFree zero) {others : List Data}
    (length : leaves.length = others.length)
    (same : rootOf hashes zero leaves = rootOf hashes zero others) : leaves = others :=
  forall₂_eq_eq_eq ▸ forall₂_of_rootOf free length same

/-- A commit that gives the file the root of the new leaves wrote behind the last leaf or
repeated leaves of the file. -/
theorem takes_of_root (free : hashes.CollisionFree zero) {first : Nat}
    (inside : first ≤ before.length) (same : root hashes zero (leafPosition after.length)
      (fun position => (committedNodes hashes first before after)[position]?) =
        some (rootOf hashes zero after)) : first = before.length ∨ after <+: before := by
  rcases lt_or_ge first before.length with cut | whole
  · right
    have shorter := leafPosition_strictMono cut
    have nonzero : ∀ (position : Nat) (hash : Hash),
        (committedNodes hashes first before after)[position]? = some hash → hash ≠ zero := by
      intro position hash found
      rcases committedNodes_cases found with ⟨-, old⟩ | ⟨-, new⟩
      · exact free.ne_zero old
      · exact free.ne_zero new
    have shared : ∀ j, j < after.length → after[j]? = before[j]? := by
      intro j low
      obtain ⟨i, h, peak, inside, within, far, near⟩ := exists_peak low
      have node := peak_eq_of_root free nonzero same peak
      have held := nodesOf_getD hashes zero (peakPositions_inside peak)
      rw [held] at node
      rcases committedNodes_cases node with ⟨deep, old⟩ | ⟨deep, new⟩
      · have under : i < before.length := leafPosition_strictMono.lt_iff_lt.mp (by omega)
        have leaf := free.leaves_eq inside within under (held.trans old.symm) far near
        rw [getElem?_eq_getElem low, getElem?_eq_getElem (near.trans_lt under), leaf]
      · -- a node that was moved does not fit its new position
        have moved := free.position_eq new held
        omega
    rw [prefix_iff_getElem?]
    intro j low
    rw [← shared j low, getElem?_eq_getElem low]
  · exact .inl (le_antisymm inside whole)

end Roots

end MooncoinFormal.Mweb.Mmr
