import Mathlib

/-!
# Merkle trees that double the last node

Nodes are joined in pairs until one is left, and a node without partner is
joined with itself. Two lists of leaves can therefore share a root, when one of
them spells the doubling out; that is what the flag of a level with equal
partners reports. Lists without the flag are determined by the root, provided
that a leaf is never a joined pair.
-/

namespace MooncoinFormal.Library.MerkleTree

open List Function Nat

variable {α : Type} (pair : α → α → α)

def pairUp : List α → List α
  | [] => []
  | [last] => [pair last last]
  | left :: right :: rest => pair left right :: pairUp rest

/-- Two partners of a level are equal. -/
def twins [DecidableEq α] : List α → Bool
  | left :: right :: rest => decide (left = right) || twins rest
  | _ => false

/-- The root and whether a level had equal partners; `levels` bounds the loop. -/
def rootLoop [DecidableEq α] (zero : α) : (levels : Nat) → List α → Bool → α × Bool
  | 0, nodes, mutated => (nodes.headD zero, mutated)
  | levels + 1, nodes, mutated =>
    if nodes.length ≤ 1 then (nodes.headD zero, mutated)
    else rootLoop zero levels (pairUp pair nodes) (mutated || twins nodes)

/-- The root of some leaves, with the flag. -/
def computeRoot [DecidableEq α] (zero : α) (leaves : List α) : α × Bool :=
  rootLoop pair zero leaves.length leaves false

variable {pair}

theorem length_pairUp (nodes : List α) : (pairUp pair nodes).length = (nodes.length + 1) / 2 := by
  induction nodes using pairUp.induct with
  | case1 => simp [pairUp]
  | case2 last => simp [pairUp]
  | case3 left right rest ih =>
    rw [pairUp, length_cons, ih, length_cons, length_cons]
    omega

variable {nodes leaves others : List α}

theorem mem_pairUp {node : α} (member : node ∈ pairUp pair nodes) :
    ∃ left right, node = pair left right := by
  induction nodes using pairUp.induct with
  | case1 => cases member
  | case2 last => exact ⟨last, last, mem_singleton.mp member⟩
  | case3 left right rest ih =>
    rcases mem_cons.mp member with rfl | later
    · exact ⟨left, right, rfl⟩
    · exact ih later

def Injective (pair : α → α → α) : Prop :=
  ∀ left right left' right', pair left right = pair left' right' → left = left' ∧ right = right'

section Injective

variable [DecidableEq α] (inj : Injective pair) {zero : α}

include inj

theorem eq_of_pairUp_eq (same : pairUp pair nodes = pairUp pair others)
    (first : twins nodes = false) (second : twins others = false) : nodes = others := by
  induction nodes using pairUp.induct generalizing others with
  | case1 =>
    match others with
    | [] => rfl
    | [_] => cases same
    | _ :: _ :: _ => cases same
  | case2 last =>
    match others with
    | [] => cases same
    | [other] => rw [(inj _ _ _ _ (cons.inj same).1).1]
    | left :: right :: rest =>
      -- the doubled node would be spelled out in the other level
      obtain ⟨l, r⟩ := inj _ _ _ _ (cons.inj same).1
      rw [twins, ← l, ← r, decide_eq_true rfl, Bool.true_or] at second
      cases second
  | case3 left right rest ih =>
    match others with
    | [] => cases same
    | [other] =>
      obtain ⟨l, r⟩ := inj _ _ _ _ (cons.inj same).1
      rw [twins, l, r, decide_eq_true rfl, Bool.true_or] at first
      cases first
    | left' :: right' :: rest' =>
      obtain ⟨l, r⟩ := inj _ _ _ _ (cons.inj same).1
      rw [twins, Bool.or_eq_false_iff] at first second
      rw [l, r, ih (cons.inj same).2 first.2 second.2]

omit [DecidableEq α] in
theorem eq_of_pairUp_eq_of_length (same : pairUp pair nodes = pairUp pair others)
    (length : nodes.length = others.length) : nodes = others := by
  induction nodes using pairUp.induct generalizing others with
  | case1 => exact (length_eq_zero_iff.mp length.symm).symm
  | case2 last =>
    obtain ⟨other, rfl⟩ := length_eq_one_iff.mp length.symm
    rw [(inj _ _ _ _ (cons.inj same).1).1]
  | case3 left right rest ih =>
    match others with
    | [] => cases length
    | [_] => simp at length
    | left' :: right' :: rest' =>
      obtain ⟨l, r⟩ := inj _ _ _ _ (cons.inj same).1
      rw [l, r, ih (cons.inj same).2 (by simpa using length)]

theorem eq_of_computeRoot_eq_of_length (length : leaves.length = others.length)
    (same : (computeRoot pair zero leaves).1 = (computeRoot pair zero others).1) :
    leaves = others := by
  have loop : ∀ levels : Nat, ∀ nodes nodes' : List α, ∀ flag flag' : Bool,
      nodes.length ≤ levels + 1 → nodes.length = nodes'.length →
      (rootLoop pair zero levels nodes flag).1 = (rootLoop pair zero levels nodes' flag').1 →
        nodes = nodes' := by
    intro levels
    induction levels with
    | zero =>
      intro nodes nodes' flag flag' short length same
      match nodes, nodes', length with
      | [], [], _ => rfl
      | [_], [_], _ => exact congrArg (fun node => [node]) same
      | _ :: _ :: _, _, _ => simp at short
    | succ levels ih =>
      intro nodes nodes' flag flag' short length same
      rw [rootLoop, rootLoop, ← length] at same
      split at same
      · match nodes, nodes', length with
        | [], [], _ => rfl
        | [_], [_], _ => exact congrArg (fun node => [node]) same
        | _ :: _ :: _, _, _ => rename_i few; simp at few
      · refine eq_of_pairUp_eq_of_length inj (ih _ _ _ _ ?_ ?_ same) length
        · rw [length_pairUp]
          omega
        · rw [length_pairUp, length_pairUp, length]
  rw [computeRoot, computeRoot, ← length] at same
  exact loop _ _ _ _ _ (le_succ _) length same

omit inj in
theorem rootLoop_climbs {levels : Nat} {flag : Bool} (nonempty : nodes ≠ [])
    (enough : nodes.length ≤ levels + 1) :
    (pairUp pair)^[clog 2 nodes.length] nodes = [(rootLoop pair zero levels nodes flag).1] ∧
      ((rootLoop pair zero levels nodes flag).2 = false → flag = false ∧
        ∀ level, level < clog 2 nodes.length → twins ((pairUp pair)^[level] nodes) = false) := by
  have positive := length_pos_iff.mpr nonempty
  induction levels generalizing nodes flag with
  | zero =>
    obtain ⟨node, rfl⟩ := length_eq_one_iff.mp (le_antisymm enough positive)
    exact ⟨rfl, fun unset => ⟨unset, nofun⟩⟩
  | succ levels ih =>
    rw [rootLoop]
    split
    · rename_i single
      obtain ⟨node, rfl⟩ := length_eq_one_iff.mp (le_antisymm single positive)
      exact ⟨rfl, fun unset => ⟨unset, nofun⟩⟩
    · rename_i several
      have above : 0 < (pairUp pair nodes).length := by
        rw [length_pairUp]
        omega
      obtain ⟨climbs, clean⟩ := @ih (pairUp pair nodes) (flag || twins nodes)
        (length_pos_iff.mp above) (by rw [length_pairUp]; omega) above
      have height : clog 2 nodes.length = clog 2 (pairUp pair nodes).length + 1 := by
        rw [length_pairUp]
        exact clog_of_two_le (le_refl 2) (by omega)
      rw [height]
      refine ⟨by rw [iterate_succ_apply]; exact climbs, ?_⟩
      intro unset
      obtain ⟨before, levels_clean⟩ := clean unset
      rw [Bool.or_eq_false_iff] at before
      refine ⟨before.1, ?_⟩
      intro level below
      cases level with
      | zero => exact before.2
      | succ level =>
        exact levels_clean level (by omega)

omit inj in
theorem twins_of_computeRoot (nonempty : leaves ≠ [])
    (unset : (computeRoot pair zero leaves).2 = false) :
    ∀ level, level < clog 2 leaves.length → twins ((pairUp pair)^[level] leaves) = false :=
  ((rootLoop_climbs nonempty (le_succ _)).2 unset).2

omit inj in
theorem climbs_of_computeRoot_eq (nonempty : leaves ≠ []) (nonempty' : others ≠ [])
    (same : (computeRoot pair zero leaves).1 = (computeRoot pair zero others).1) :
    (pairUp pair)^[clog 2 leaves.length] leaves = (pairUp pair)^[clog 2 others.length] others := by
  have first : _ = [(computeRoot pair zero leaves).1] :=
    (rootLoop_climbs nonempty (le_succ _)).1
  have second : _ = [(computeRoot pair zero others).1] :=
    (rootLoop_climbs nonempty' (le_succ _)).1
  rw [first, second, same]

theorem levels_eq {height height' : Nat}
    (same : (pairUp pair)^[height] leaves = (pairUp pair)^[height'] others)
    (first : ∀ level, level < height → twins ((pairUp pair)^[level] leaves) = false)
    (second : ∀ level, level < height' → twins ((pairUp pair)^[level] others) = false)
    (shorter : height ≤ height') : leaves = (pairUp pair)^[height' - height] others := by
  induction height generalizing height' with
  | zero => exact same
  | succ height ih =>
    obtain ⟨height', rfl⟩ : ∃ n, height' = n + 1 := ⟨height' - 1, by omega⟩
    rw [iterate_succ_apply', iterate_succ_apply'] at same
    have below := eq_of_pairUp_eq inj same (first _ (lt_succ_self _))
      (second _ (lt_succ_self _))
    rw [Nat.add_sub_add_right]
    exact ih below (fun level low => first level (by omega))
      (fun level low => second level (by omega)) (by omega)

/-- The leaves of trees of one height without equal partners are determined by the
root, whatever they are. -/
theorem eq_of_computeRoot_eq_of_clog (nonempty : leaves ≠ []) (nonempty' : others ≠ [])
    (heights : Nat.clog 2 leaves.length = Nat.clog 2 others.length)
    (first : (computeRoot pair zero leaves).2 = false)
    (second : (computeRoot pair zero others).2 = false)
    (same : (computeRoot pair zero leaves).1 = (computeRoot pair zero others).1) :
    leaves = others := by
  have clean := twins_of_computeRoot nonempty first
  have clean' := twins_of_computeRoot nonempty' second
  have roots := climbs_of_computeRoot_eq nonempty nonempty' same
  have level := levels_eq inj roots clean clean' heights.le
  rwa [heights, Nat.sub_self] at level

/-- Leaves that are not pairs and lie in no tree with equal partners are
determined by the root. -/
theorem eq_of_computeRoot_eq (nonempty : leaves ≠ []) (nonempty' : others ≠ [])
    (first : (computeRoot pair zero leaves).2 = false)
    (second : (computeRoot pair zero others).2 = false)
    (leaf : ∀ node ∈ leaves, ∀ left right, node ≠ pair left right)
    (leaf' : ∀ node ∈ others, ∀ left right, node ≠ pair left right)
    (same : (computeRoot pair zero leaves).1 = (computeRoot pair zero others).1) :
    leaves = others := by
  have clean := twins_of_computeRoot nonempty first
  have clean' := twins_of_computeRoot nonempty' second
  have roots := climbs_of_computeRoot_eq nonempty nonempty' same
  -- leaves of the lower tree would be inner nodes of the higher one
  have not_lower : ∀ {lower higher : List α} {n m : Nat}, lower ≠ [] →
      (∀ node ∈ lower, ∀ left right, node ≠ pair left right) →
      lower = (pairUp pair)^[m - n] higher → n ≤ m → m = n := by
    intro lower higher n m some_leaf no_pair level le
    by_contra apart
    obtain ⟨k, gap⟩ : ∃ k, m - n = k + 1 := ⟨m - n - 1, by omega⟩
    obtain ⟨node, member⟩ := exists_mem_of_ne_nil lower some_leaf
    rw [level, gap, iterate_succ_apply'] at member
    obtain ⟨left, right, joined⟩ := mem_pairUp member
    refine no_pair node ?_ left right joined
    rwa [level, gap, iterate_succ_apply']
  refine eq_of_computeRoot_eq_of_clog inj nonempty nonempty' ?_ first second same
  rcases le_total (clog 2 leaves.length) (clog 2 others.length) with le | le
  · exact (not_lower nonempty leaf (levels_eq inj roots clean clean' le) le).symm
  · exact not_lower nonempty' leaf' (levels_eq inj roots.symm clean' clean le) le

end Injective

end MooncoinFormal.Library.MerkleTree
