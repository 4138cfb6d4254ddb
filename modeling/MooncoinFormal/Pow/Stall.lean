import MooncoinFormal.Pow.GravityWell

/-!
# The target after a stall

A block more than an hour after its predecessor need not meet the mixed target of the
second well but a fifteenth of the limit. The mixed target of an easy chain is larger,
so that waiting past the hour makes the block harder. The time of the candidate block
is read nowhere else: two times on one side of the hour have one target.
-/

namespace MooncoinFormal.Pow

open List

/-- The candidate block is so late that the fixed target is used. -/
def stalled (tipTime blockTime : UInt32) : Bool :=
  decide ((blockTime.toNat : Int) - tipTime.toNat > 3600)

/-- The later of two candidate blocks need not meet a smaller target. -/
def NoHarderLater (params : Params) (horizon : Horizon) (pindexLast : Index) (before : List Index)
    (first second : UInt32) : Prop :=
  ∃ nBits nBits',
    getNextWorkRequiredMooncoinV5 params horizon pindexLast before first.toNat = some nBits ∧
    getNextWorkRequiredMooncoinV5 params horizon pindexLast before second.toNat = some nBits' ∧
    (setCompact nBits).toNat ≤ (setCompact nBits').toNat

theorem mooncoinV5_isSome (params : Params) (horizon : Horizon) (pindexLast : Index)
    (before : List Index) (blockTime : Int) :
    ∃ nBits, getNextWorkRequiredMooncoinV5 params horizon pindexLast before blockTime =
      some nBits := by
  unfold getNextWorkRequiredMooncoinV5
  split
  · exact ⟨_, rfl⟩
  · rename_i long
    match before with
    | [] => exact absurd (.inl rfl) long
    | pprev :: earlier => exact ⟨_, rfl⟩

theorem mooncoinV5_congr {params : Params} {horizon : Horizon} {pindexLast : Index}
    {before : List Index} {first second : UInt32}
    (same : stalled pindexLast.nTime first = stalled pindexLast.nTime second) :
    getNextWorkRequiredMooncoinV5 params horizon pindexLast before first.toNat =
      getNextWorkRequiredMooncoinV5 params horizon pindexLast before second.toNat := by
  have mixed : ∀ kgwDual1 pprev, mixedV5 params kgwDual1 pindexLast pprev first.toNat =
      mixedV5 params kgwDual1 pindexLast pprev second.toNat := by
    intro kgwDual1 pprev
    exact if_congr (decide_eq_decide.mp same) rfl rfl
  simp only [getNextWorkRequiredMooncoinV5, mixed]

/-! ## A chain of one target and one time -/

theorem wellPass_constant {nBits nTime : UInt32} {mass nHeight : Nat} {average : ArithUInt256}
    (started : mass = 0 ∨ average = setCompact nBits) :
    wellPass wellRulesV5 nHeight ⟨nBits, nTime⟩ ⟨mass, nTime.toNat, 0, average⟩ =
      ⟨mass + 1, nTime.toNat, 0, setCompact nBits⟩ := by
  have averaged : (if mass + 1 = 1 then setCompact nBits
      else wellRulesV5.average (mass + 1) average (setCompact nBits)) = setCompact nBits := by
    split
    · rfl
    · rename_i later
      rw [started.resolve_left (by omega)]
      simp [wellRulesV5]
  unfold wellPass
  dsimp only
  rw [averaged]
  simp [wellRulesV5, Index.getBlockTime]

variable (horizon : Horizon)

theorem wellLoop_constant (nBits nTime : UInt32) (count mass : Nat) {average : ArithUInt256}
    (started : mass = 0 ∧ 0 < count ∨ average = setCompact nBits) :
    ∃ mass', wellLoop wellRulesV5 horizon (replicate (count + 1) ⟨nBits, nTime⟩)
      ⟨mass, nTime.toNat, 0, average⟩ = ⟨mass', nTime.toNat, 0, setCompact nBits⟩ := by
  induction count generalizing mass average with
  | zero =>
    rw [started.resolve_left fun none => lt_irrefl 0 none.2]
    exact ⟨mass, rfl⟩
  | succ count ih =>
    rw [replicate_succ, wellLoop, length_replicate, if_neg (Nat.succ_ne_zero count)]
    split
    · rename_i limit
      have positive : mass ≠ 0 := by
        rintro rfl
        have one : wellRulesV5.pastBlocksMax < 1 := limit.2
        exact absurd one (by decide)
      rw [started.resolve_left fun none => positive none.1]
      exact ⟨mass, rfl⟩
    · dsimp only
      rw [wellPass_constant (started.imp_left And.left)]
      split
      · exact ⟨mass + 1, rfl⟩
      · exact ih (mass + 1) (.inr rfl)

theorem wellV5_constant (nBits nTime : UInt32) {count : Nat} (positive : 0 < count) :
    (wellV5 horizon ⟨nBits, nTime⟩ (replicate count ⟨nBits, nTime⟩)).value = setCompact nBits := by
  obtain ⟨mass, run⟩ := @wellLoop_constant horizon nBits nTime count 0 0
    (.inl ⟨rfl, positive⟩)
  have whole : wellV5 horizon ⟨nBits, nTime⟩ (replicate count ⟨nBits, nTime⟩) =
      ⟨mass, nTime.toNat, 0, setCompact nBits⟩ := run
  rw [whole]
  rfl

/-- The chain of the easiest target, long enough for the second well. -/
def easyBefore (nTime : UInt32) : List Index := replicate 24 ⟨0x1e0fffff, nTime⟩

theorem compatibilityPoint_easy (nTime : UInt32) :
    compatibilityPoint ((easyBefore nTime).length + 1) = none := by
  rw [easyBefore, length_replicate]
  decide

theorem mooncoinV5_easy (nTime blockTime : UInt32) :
    getNextWorkRequiredMooncoinV5 mainParams horizon ⟨0x1e0fffff, nTime⟩ (easyBefore nTime)
        blockTime.toNat = some (if stalled nTime blockTime then 0x1e011111 else 0x1e091110) := by
  have well : (wellV5 horizon ⟨0x1e0fffff, nTime⟩ (easyBefore nTime)).value =
      setCompact 0x1e0fffff :=
    wellV5_constant horizon 0x1e0fffff nTime (by decide)
  have short : Index.getBlockTime ⟨0x1e0fffff, nTime⟩ -
      Index.getBlockTime ⟨0x1e0fffff, nTime⟩ = 0 :=
    sub_self _
  have mixed : mixedV5 mainParams (setCompact 0x1e0fffff) ⟨0x1e0fffff, nTime⟩ ⟨0x1e0fffff, nTime⟩
      blockTime.toNat = if stalled nTime blockTime then divWord mainPowLimit 15
        else divWord (mulWord (divWord (divWord (mulWord (setCompact 0x1e0fffff) (clampLast 0)) 90 +
          setCompact 0x1e0fffff) 2) 85) 100 := by
    unfold mixedV5
    dsimp only
    rw [short, if_pos (by decide : (0 : Int) < 90 / 6)]
    exact if_congr decide_eq_true_iff.symm rfl rfl
  rw [getNextWorkRequiredMooncoinV5, well, if_neg (by rw [easyBefore, length_replicate]; decide)]
  show some ((compatibilityPoint _).getD
    (getCompact (atMost (mixedV5 _ _ _ ⟨0x1e0fffff, nTime⟩ _) _)))
    = _
  rw [compatibilityPoint_easy, mixed]
  cases stalled nTime blockTime with
  | true => decide +kernel
  | false => decide +kernel

theorem easy_harder_later {nTime first second : UInt32} (early : stalled nTime first = false)
    (late : stalled nTime second = true) :
    ¬ NoHarderLater mainParams horizon ⟨0x1e0fffff, nTime⟩ (easyBefore nTime) first second := by
  rintro ⟨nBits, nBits', run, run', le⟩
  rw [mooncoinV5_easy, early] at run
  rw [mooncoinV5_easy, late] at run'
  cases run
  cases run'
  exact absurd le (by decide +kernel)

/-- For given times of the last block and of two candidate blocks, waiting never makes a
block harder, on any chain with any limit, exactly when both candidates lie on one side
of the hour. -/
theorem noHarderLater_iff {tipTime first second : UInt32} (ordered : first ≤ second) :
    (∀ (params : Params) (horizon : Horizon) (pindexLast : Index) (before : List Index),
      pindexLast.nTime = tipTime → compatibilityPoint (before.length + 1) = none →
        NoHarderLater params horizon pindexLast before first second) ↔
      stalled tipTime first = true ∨ stalled tipTime second = false := by
  refine ⟨fun always => ?_, ?_⟩
  · by_contra between
    rw [not_or, Bool.not_eq_true, Bool.not_eq_false] at between
    exact easy_harder_later (fun _ _ _ => false) between.1 between.2
      (always mainParams _ ⟨0x1e0fffff, tipTime⟩ (easyBefore tipTime) rfl
        (compatibilityPoint_easy tipTime))
  · rintro oneSide params horizon pindexLast before rfl -
    have same : stalled pindexLast.nTime first = stalled pindexLast.nTime second := by
      rw [UInt32.le_iff_toNat_le] at ordered
      simp only [stalled, decide_eq_true_iff, decide_eq_false_iff_not] at oneSide ⊢
      apply decide_eq_decide.mpr
      omega
    obtain ⟨nBits, run⟩ := mooncoinV5_isSome params horizon pindexLast before first.toNat
    exact ⟨nBits, nBits, run, mooncoinV5_congr same ▸ run, le_refl _⟩

theorem noHarderLater_withinHour :
    stalled 1000 4600 = false ∧
      NoHarderLater mainParams (fun _ _ _ => false) ⟨0x1e0fffff, 1000⟩
        (easyBefore 1000) 1090 4600 :=
  ⟨by decide, (noHarderLater_iff (by decide)).mpr (.inr (by decide)) mainParams _ _ _ rfl
    (compatibilityPoint_easy 1000)⟩

theorem harder_after_stall :
    compatibilityPoint ((easyBefore 1000).length + 1) = none ∧
      ¬ NoHarderLater mainParams (fun _ _ _ => false) ⟨0x1e0fffff, 1000⟩
        (easyBefore 1000) 4600 4601 :=
  ⟨compatibilityPoint_easy 1000, easy_harder_later _ (by decide) (by decide)⟩

end MooncoinFormal.Pow
