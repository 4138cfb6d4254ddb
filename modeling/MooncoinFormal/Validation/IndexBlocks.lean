import MooncoinFormal.Validation.IndexInvariant

/-!
# Headers and block data keep the index consistent

`AcceptBlockHeader`, `ReceivedBlockTransactions` and `AcceptBlock`. The first
adds an entry or flags entries above a failed one; the second links an entry
and, turn by turn, everything that waited for it.

A block whose parent carries a failure flag and is not linked is not put into
`m_blocks_unlinked`, and `nChainTx` has 32 bits; the results assume that neither
matters for the block at hand.
-/

namespace MooncoinFormal.Validation

open List Function

namespace NodeIndex

open IndexEntry

variable {ι : Type} {params : IndexParams ι} {outcomes : Outcomes ι} {node : NodeIndex ι}

/-! ## What survives a call -/

/-- What headers and block data leave alone: the tip, the order of the linked
entries, and the entries the active chain can run through. -/
structure Keeps (node node' : NodeIndex ι) : Prop where
  tip : node'.chain.tip = node.chain.tip
  linked : ∀ entry, node.nChainTx entry ≠ 0 → node'.nChainTx entry ≠ 0
  sequence : ∀ entry, node.nChainTx entry ≠ 0 → node'.nSequenceId entry = node.nSequenceId entry
  clean : ∀ entry, node.Clean entry → node'.Clean entry

theorem Keeps.refl (node : NodeIndex ι) : Keeps node node :=
  ⟨rfl, fun _ => id, fun _ _ => rfl, fun _ => id⟩

variable {first second third : NodeIndex ι}

theorem Keeps.trans (left : Keeps first second)
    (right : Keeps second third) : Keeps first third where
  tip := right.tip.trans left.tip
  linked := fun entry linked => right.linked entry (left.linked entry linked)
  sequence := fun entry linked =>
    (right.sequence entry (left.linked entry linked)).trans (left.sequence entry linked)
  clean := fun entry clean => right.clean entry (left.clean entry clean)

theorem Keeps.worse {node' : NodeIndex ι} (keeps : Keeps node node') {pa pb : IndexEntry ι}
    (first : node.nChainTx pa ≠ 0) (second : node.nChainTx pb ≠ 0) :
    node'.worse params pa pb = node.worse params pa pb := by
  rw [Bool.eq_iff_iff, worse_iff, worse_iff, keeps.sequence pa first, keeps.sequence pb second]

structure SameMarks (node node' : NodeIndex ι) : Prop where
  blockIndex : node'.blockIndex = node.blockIndex
  nTx : node'.nTx = node.nTx
  validity : node'.validity = node.validity
  haveUndo : node'.haveUndo = node.haveUndo
  failedValid : node'.chain.failedValid = node.chain.failedValid
  failedChild : node'.chain.failedChild = node.chain.failedChild
  failedBlocks : node'.failedBlocks = node.failedBlocks

theorem SameMarks.refl (node : NodeIndex ι) : SameMarks node node :=
  ⟨rfl, rfl, rfl, rfl, rfl, rfl, rfl⟩

theorem SameMarks.trans (left : SameMarks first second)
    (right : SameMarks second third) : SameMarks first third where
  blockIndex := right.blockIndex.trans left.blockIndex
  nTx := right.nTx.trans left.nTx
  validity := right.validity.trans left.validity
  haveUndo := right.haveUndo.trans left.haveUndo
  failedValid := right.failedValid.trans left.failedValid
  failedChild := right.failedChild.trans left.failedChild
  failedBlocks := right.failedBlocks.trans left.failedBlocks

section

variable {node' : NodeIndex ι}

theorem SameMarks.levels (same : SameMarks node node')
    (levels : node.Levels outcomes) : node'.Levels outcomes :=
  levels.congr same.blockIndex same.nTx same.validity same.haveUndo

theorem SameMarks.flags (same : SameMarks node node') (flags : node.Flags) : node'.Flags := by
  have flagged : node'.flagged = node.flagged := by
    funext entry
    rw [NodeIndex.flagged, same.failedValid, same.failedChild, NodeIndex.flagged]
  refine ⟨?_, ?_, ?_⟩
  · rw [same.blockIndex, flagged]
    exact flags.fresh
  · rw [flagged, same.failedValid]
    exact flags.cause
  · rw [same.failedBlocks, same.failedValid]
    exact flags.failedBlocks

theorem Consistent.of_sameMarks (shape : Shape params node.blockIndex)
    (levels : node.Levels outcomes) (flags : node.Flags) (clean : node.Clean node.chain.tip)
    (validated : node.Validated node.chain.tip) (counts : node'.Counts [])
    (listed : node'.Listed params node.chain.tip) (keeps : Keeps node node')
    (same : SameMarks node node') : node'.Consistent params outcomes := by
  have tip := keeps.tip
  refine ⟨⟨same.blockIndex ▸ shape, counts, same.levels levels, same.flags flags⟩, ?_, ?_, ?_⟩
  · rw [tip]
    exact keeps.clean _ clean
  · rw [tip, Validated, same.validity]
    exact validated
  · rw [tip]
    exact listed

/-- More flags, each with its cause and none on the active chain, leave the
index consistent. -/
theorem Consistent.of_flags (consistent : node.Consistent params outcomes)
    {failedValid failedChild : IndexEntry ι → Bool} {failedBlocks : List (IndexEntry ι)}
    (same : node' = { node with
      chain := { node.chain with failedValid := failedValid, failedChild := failedChild }
      failedBlocks := failedBlocks })
    (flags : node'.Flags) (clean : ∀ entry, node.Clean entry → node'.Clean entry)
    (more : ∀ entry, node.flagged entry = true → node'.flagged entry = true) :
    node'.Consistent params outcomes ∧ Keeps node node' := by
  subst same
  refine ⟨?_, rfl, fun _ => id, fun _ _ => rfl, clean⟩
  obtain ⟨⟨shape, counts, levels, -⟩, tip, validated, listed⟩ := consistent
  refine ⟨⟨shape, counts.congr rfl rfl rfl rfl rfl rfl, levels.congr rfl rfl rfl rfl, flags⟩,
    clean _ tip, validated, listed.inside, fun entry unflagged => listed.offered entry ?_⟩
  exact Bool.eq_false_iff.mpr fun marked => ne_true_of_eq_false unflagged (more entry marked)

end

theorem Shape.append {hash : ι} {prev : IndexEntry ι} {blockIndex : List (IndexEntry ι)}
    (shape : Shape params blockIndex)
    (known : prev ∈ blockIndex) (new : hash :: prev ∉ blockIndex) :
    Shape params (blockIndex ++ [hash :: prev]) where
  nodup := by
    rw [nodup_append]
    refine ⟨shape.nodup, nodup_singleton _, fun entry inside other last => ?_⟩
    rw [mem_singleton] at last
    rintro rfl
    exact new (last ▸ inside)
  rooted := mem_append_left _ shape.rooted
  noNull := by
    simp only [mem_append, mem_singleton, not_or]
    exact ⟨shape.noNull, (cons_ne_nil _ _).symm⟩
  closed := by
    intro child parent member
    rcases mem_append.mp member with before | last
    · exact (shape.closed child parent before).imp_right (mem_append_left _)
    · cases mem_singleton.mp last
      exact .inr (mem_append_left _ known)

variable {pindex : IndexEntry ι} {queue : List (IndexEntry ι)}

theorem Counts.unlinked_child
    (counts : node.Counts (pindex :: queue)) (id : ι) : node.nChainTx (id :: pindex) = 0 := by
  obtain ⟨_, _, shape, -, unlinked, -⟩ := counts.queued pindex mem_cons_self
  by_contra linked
  exact counts.parentLinked id pindex linked (shape ▸ cons_ne_nil _ _) unlinked

variable [DecidableEq ι]

/-! ## Headers -/

section Headers

variable {hash : ι} {prev : IndexEntry ι}

theorem addToBlockIndex_keeps (counts : node.Counts []) (new : hash :: prev ∉ node.blockIndex) :
    Keeps node (node.addToBlockIndex (hash :: prev)) := by
  rw [addToBlockIndex, if_neg new]
  refine ⟨rfl, fun _ => id, fun entry linked => ?_, fun entry clean =>
    ⟨clean.linked, clean.unflagged⟩⟩
  refine update_of_ne ?_ _ _
  rintro rfl
  exact new (counts.mem_of_linked linked)

theorem addToBlockIndex_counts (counts : node.Counts []) (known : prev ∈ node.blockIndex)
    (new : hash :: prev ∉ node.blockIndex) : (node.addToBlockIndex (hash :: prev)).Counts [] := by
  rw [addToBlockIndex, if_neg new]
  refine { counts with fresh := fun entry outside => ?_, sequence := ?_, bounded := ?_ }
  · exact counts.fresh entry fun inside => outside (mem_append_left _ inside)
  · intro entry unlinked
    by_cases same : entry = hash :: prev
    · subst same
      exact (update_self (hash :: prev) (0 : Int) node.nSequenceId).le
    · have kept := update_of_ne same 0 node.nSequenceId
      exact kept.trans_le (counts.sequence entry unlinked)
  · intro entry member
    rcases mem_append.mp member with before | last
    · exact counts.bounded entry before
    · obtain rfl := mem_singleton.mp last
      have unset := (counts.fresh _ new).1
      have below := counts.bounded prev known
      change total node.nTx prev + node.nTx (hash :: prev) < 2 ^ 32
      omega

theorem update_ne_zero {count : IndexEntry ι → Nat} {entry : IndexEntry ι} {value : Nat}
    (nonzero : value ≠ 0) (other : IndexEntry ι) :
    update count entry value other ≠ 0 ↔ other = entry ∨ count other ≠ 0 := by
  rw [update_apply]
  split <;> simp [*]

section

variable {entry : IndexEntry ι} (unflagged : node.flagged entry = false)
include unflagged

theorem rank_update_raise (upTo : BlockValidity) (other : IndexEntry ι) :
    (update node.validity entry
        (.raise (node.flagged entry) upTo (node.validity entry)) other).rank =
      if other = entry then max (node.validity entry).rank upTo.rank
      else (node.validity other).rank := by
  by_cases same : other = entry
  · rw [if_pos same, same, update_self, unflagged, BlockValidity.rank_raise]
  · rw [if_neg same, update_of_ne same]

theorem le_rank_update_raise
    {upTo : BlockValidity} {level : Nat} (above : upTo.rank < level) (other : IndexEntry ι) :
    level ≤ (update node.validity entry
      (.raise (node.flagged entry) upTo (node.validity entry)) other).rank ↔
      level ≤ (node.validity other).rank := by
  rw [rank_update_raise unflagged]
  split
  · rename_i same
    rw [same]
    omega
  · rfl

end

theorem addToBlockIndex_levels (levels : node.Levels outcomes) (flags : node.Flags)
    (new : hash :: prev ∉ node.blockIndex) :
    (node.addToBlockIndex (hash :: prev)).Levels outcomes := by
  have unflagged := flags.fresh _ new
  rw [addToBlockIndex, if_neg new]
  refine ⟨fun entry member => ?_, fun entry => ?_, fun entry reached ancestor above root => ?_,
    levels.undo⟩
  · dsimp only
    rw [rank_update_raise unflagged]
    split
    · exact le_max_right _ _
    · rename_i different
      rcases mem_append.mp member with before | last
      · exact levels.tree entry before
      · exact absurd (mem_singleton.mp last) different
  · exact (le_rank_update_raise unflagged (by decide) entry).trans (levels.transactions entry)
  · have before := (le_rank_update_raise unflagged (by decide) entry).mp reached
    obtain ⟨five, connects⟩ := levels.scripts entry before ancestor above root
    exact ⟨(le_rank_update_raise unflagged (by decide) ancestor).mpr five, connects⟩

theorem addToBlockIndex_listed (counts : node.Counts [])
    (linkedTip : node.nChainTx node.chain.tip ≠ 0)
    (listed : node.Listed params node.chain.tip) (new : hash :: prev ∉ node.blockIndex) :
    (node.addToBlockIndex (hash :: prev)).Listed params node.chain.tip := by
  have keeps := addToBlockIndex_keeps counts new
  have chain : (node.addToBlockIndex (hash :: prev)).chain = node.chain := by
    rw [addToBlockIndex, if_neg new]
  have counted : (node.addToBlockIndex (hash :: prev)).nChainTx = node.nChainTx := by
    rw [addToBlockIndex, if_neg new]
  refine ⟨fun entry member => ?_, fun entry unflagged linked better => ?_⟩
  · rw [chain] at member
    obtain ⟨linked, better⟩ := listed.inside entry member
    exact ⟨keeps.linked entry linked, (keeps.worse linked linkedTip).trans better⟩
  · rw [counted] at linked
    rw [keeps.worse linked linkedTip] at better
    rw [flagged, chain] at unflagged
    rw [chain]
    exact listed.offered entry unflagged linked better

theorem addToBlockIndex_consistent (consistent : node.Consistent params outcomes)
    (known : prev ∈ node.blockIndex) (new : hash :: prev ∉ node.blockIndex) :
    (node.addToBlockIndex (hash :: prev)).Consistent params outcomes := by
  have keeps := addToBlockIndex_keeps consistent.counts new
  have counts := addToBlockIndex_counts consistent.counts known new
  have levels := addToBlockIndex_levels consistent.levels consistent.flags new
  have listed := addToBlockIndex_listed consistent.counts consistent.clean.linked
    consistent.listed new
  have clean := keeps.clean _ consistent.clean
  have validated := consistent.validated
  rw [addToBlockIndex, if_neg new] at *
  refine ⟨⟨consistent.shape.append known new, counts, levels, ?_⟩, clean, ?_, listed⟩
  · exact ⟨fun entry outside => consistent.flags.fresh entry
      fun inside => outside (mem_append_left _ inside), consistent.flags.cause,
      consistent.flags.failedBlocks⟩
  · exact fun ancestor above root => (le_rank_update_raise (consistent.flags.fresh _ new)
      (by decide) ancestor).mpr (validated ancestor above root)

end Headers

/-! ## Flags -/

theorem markFailedChild_flagged {failed prev entry : IndexEntry ι} :
    (node.markFailedChild failed prev).flagged entry = true ↔
      node.flagged entry = true ∨ (entry <:+ prev ∧ failed <:+ entry ∧ entry ≠ failed) := by
  simp only [flagged, markFailedChild, Bool.or_eq_true, Bool.and_eq_true,
    isSuffixOf_iff_suffix, decide_eq_true_eq, or_assoc, and_assoc]

variable {failed prev : IndexEntry ι}

theorem markFailedChild_flags
    (shape : Shape params node.blockIndex) (flags : node.Flags) (known : prev ∈ node.blockIndex)
    (cause : node.chain.failedValid failed = true) : (node.markFailedChild failed prev).Flags := by
  refine ⟨fun entry outside => ?_, fun entry flag => ?_, flags.failedBlocks⟩
  · by_contra flag
    rcases markFailedChild_flagged.mp ((Bool.not_eq_false _).mp flag) with
      before | ⟨below, above, different⟩
    · exact ne_true_of_eq_false (flags.fresh entry outside) before
    · refine outside (shape.ancestor known below ?_)
      rintro rfl
      exact different (suffix_nil.mp above).symm
  · rcases markFailedChild_flagged.mp flag with before | ⟨-, above, -⟩
    · exact flags.cause entry before
    · exact ⟨failed, above, cause⟩

theorem markFailedChild_consistent
    (consistent : node.Consistent params outcomes) (known : prev ∈ node.blockIndex)
    (cause : node.chain.failedValid failed = true) :
    (node.markFailedChild failed prev).Consistent params outcomes ∧
      Keeps node (node.markFailedChild failed prev) := by
  have marked : node.flagged failed = true := by simp [flagged, cause]
  have clean : ∀ entry, node.Clean entry → (node.markFailedChild failed prev).Clean entry := by
    refine fun entry clean => clean.of_flags rfl fun other flag => ?_
    rcases markFailedChild_flagged.mp flag with before | ⟨-, above, -⟩
    · exact ⟨other, suffix_rfl, before⟩
    · exact ⟨failed, above, marked⟩
  exact consistent.of_flags rfl (markFailedChild_flags consistent.shape consistent.flags
    known cause)
    clean fun entry flag => markFailedChild_flagged.mpr (.inl flag)

variable {pindex entry : IndexEntry ι}

theorem markFailedValid_flagged : (node.markFailedValid pindex).flagged entry = true ↔
      node.flagged entry = true ∨ entry = pindex := by
  by_cases same : entry = pindex
  · subst same
    simp [flagged, markFailedValid]
  · simp [flagged, markFailedValid, same]

theorem markFailedValid_clean (clean : node.Clean entry)
    (apart : ¬ pindex <:+ entry) : (node.markFailedValid pindex).Clean entry := by
  refine ⟨clean.linked, fun ancestor above => ?_⟩
  by_contra flag
  rcases markFailedValid_flagged.mp ((Bool.not_eq_false _).mp flag) with before | same
  · exact ne_true_of_eq_false (clean.unflagged ancestor above) before
  · exact apart (same ▸ above)

theorem markFailedValid_flags (flags : node.Flags)
    (known : pindex ∈ node.blockIndex) : (node.markFailedValid pindex).Flags := by
  refine ⟨fun entry outside => ?_, fun entry flag => ?_, fun entry member => ?_⟩
  · by_contra flag
    rcases markFailedValid_flagged.mp ((Bool.not_eq_false _).mp flag) with before | same
    · exact ne_true_of_eq_false (flags.fresh entry outside) before
    · exact outside (same ▸ known)
  · rcases markFailedValid_flagged.mp flag with before | same
    · obtain ⟨ancestor, above, failed⟩ := flags.cause entry before
      refine ⟨ancestor, above, ?_⟩
      change update node.chain.failedValid pindex true ancestor = true
      rw [update_apply, failed, ite_self]
    · exact ⟨pindex, same ▸ suffix_rfl, update_self _ _ _⟩
  · change update node.chain.failedValid pindex true entry = true
    rw [update_apply, flags.failedBlocks entry member, ite_self]

theorem markFailedValid_consistent
    (consistent : node.Consistent params outcomes) (known : pindex ∈ node.blockIndex)
    (unset : node.nTx pindex = 0) :
    (node.markFailedValid pindex).Consistent params outcomes ∧
      Keeps node (node.markFailedValid pindex) := by
  have nonempty := consistent.shape.ne_nil known
  have clean : ∀ entry, node.Clean entry → (node.markFailedValid pindex).Clean entry := by
    refine fun entry clean => markFailedValid_clean clean fun above => ?_
    have received := consistent.counts.sound entry clean.linked pindex above nonempty
    omega
  exact consistent.of_flags rfl (markFailedValid_flags consistent.flags known)
    clean fun entry flag => markFailedValid_flagged.mpr (.inl flag)

/-! ## Linking -/

section Linking

variable {pindex : IndexEntry ι} {queue : List (IndexEntry ι)}

theorem linkEntry_eq (params : IndexParams ι) (node : NodeIndex ι) (pindex : IndexEntry ι) :
    ∃ candidates, node.linkEntry params pindex =
      { node.setLinked pindex with chain := { node.chain with candidates := candidates } } ∧
      ∀ entry, entry ∈ candidates ↔ entry ∈ node.chain.candidates ∨
        (entry = pindex ∧ (node.chain.tip = [] ∨
          (node.setLinked pindex).worse params pindex node.chain.tip = false)) := by
  rw [linkEntry]
  split
  · rename_i better
    refine ⟨[pindex] ∪ node.chain.candidates, rfl, fun entry => ?_⟩
    rw [mem_union_iff, mem_singleton, or_comm]
    exact or_congr_right (iff_self_and.mpr fun _ => better)
  · rename_i behind
    refine ⟨node.chain.candidates, rfl, fun entry => ?_⟩
    exact (or_iff_left fun both => behind both.2).symm

theorem Counts.setLinked_eq (counts : node.Counts (pindex :: queue)) :
    node.setLinked pindex =
        { node with
          nChainTx := update node.nChainTx pindex (IndexEntry.total node.nTx pindex)
          nSequenceId := update node.nSequenceId pindex node.nBlockSequenceId
          nBlockSequenceId := node.nBlockSequenceId + 1 } ∧
      IndexEntry.total node.nTx pindex ≠ 0 := by
  obtain ⟨id, parent, rfl, below, -, received⟩ := counts.queued pindex mem_cons_self
  have sum : (if (id :: parent).tail = [] then 0 else node.nChainTx (id :: parent).tail) =
      IndexEntry.total node.nTx parent := by
    rw [tail_cons]
    rcases below with rfl | linked
    · rfl
    · rw [counts.total parent linked]
      split
      · rename_i null
        subst null
        rfl
      · rfl
  have bounded := counts.bounded _ (counts.mem_of_nTx received)
  rw [setLinked, sum]
  rw [IndexEntry.total] at bounded ⊢
  rw [Nat.mod_eq_of_lt bounded]
  exact ⟨rfl, by omega⟩

theorem waitingFor_iff {entry : IndexEntry ι} :
    entry ∈ node.waitingFor pindex ↔ (pindex, entry) ∈ node.blocksUnlinked := by
  simp only [waitingFor, mem_map, mem_filter, decide_eq_true_eq, Prod.exists,
    and_comm, exists_eq_left]

theorem waitingFor_nodup (nodup : node.blocksUnlinked.Nodup) : (node.waitingFor pindex).Nodup := by
  refine List.Nodup.map_on ?_ (nodup.filter _)
  intro first inFirst second inSecond same
  simp only [mem_filter, decide_eq_true_eq] at inFirst inSecond
  exact Prod.ext (inFirst.2.trans inSecond.2.symm) same

theorem Counts.link (counts : node.Counts (pindex :: queue)) :
    ((node.linkEntry params pindex).release pindex).Counts
      (queue ++ (node.linkEntry params pindex).waitingFor pindex) := by
  obtain ⟨id, parent, shape, below, unlinked, received⟩ :=
    counts.queued pindex mem_cons_self
  obtain ⟨value, nonzero⟩ := counts.setLinked_eq
  obtain ⟨notQueued, restNodup⟩ := nodup_cons.mp counts.queueNodup
  have nonempty : pindex ≠ [] := shape ▸ cons_ne_nil _ _
  obtain ⟨candidates, linked, -⟩ := linkEntry_eq params node pindex
  rw [linked, value]
  have linked_iff := @update_ne_zero _ _ node.nChainTx pindex _ nonzero
  have linkedOf entry (before : node.nChainTx entry ≠ 0) := (linked_iff entry).mpr (.inr before)
  have here := (linked_iff pindex).mpr (.inl rfl)
  have unlinkedOf : ∀ entry, update node.nChainTx pindex (IndexEntry.total node.nTx pindex)
      entry = 0 → entry ≠ pindex ∧ node.nChainTx entry = 0 :=
    fun entry after => by simpa [after] using linked_iff entry
  have waits entry := @waitingFor_iff _ node _ pindex entry
  constructor
  case fresh =>
    intro entry outside
    obtain ⟨unset, uncounted⟩ := counts.fresh entry outside
    refine ⟨unset, ?_⟩
    by_contra after
    rcases (linked_iff entry).mp after with same | before
    · subst same
      omega
    · exact before uncounted
  case data => exact counts.data
  case sequence =>
    intro entry after
    obtain ⟨different, before⟩ := unlinkedOf entry after
    have same := update_of_ne different node.nBlockSequenceId node.nSequenceId
    exact same.trans_le (counts.sequence entry before)
  case sound =>
    intro entry after
    rcases (linked_iff entry).mp after with same | before
    · subst same
      intro ancestor above something
      by_cases same : ancestor = entry
      · exact same ▸ received
      · have deeper := suffix_tail above same
        rw [shape, tail_cons] at deeper
        rcases below with null | parentLinked
        · exact absurd (suffix_nil.mp (null ▸ deeper)) something
        · exact counts.sound parent parentLinked ancestor deeper something
    · exact counts.sound entry before
  case parentLinked =>
    intro child above after something
    rcases (linked_iff _).mp after with same | before
    · rw [shape] at same
      cases same
      exact linkedOf _ (below.resolve_left something)
    · exact linkedOf _ (counts.parentLinked child above before something)
  case reach =>
    intro entry something complete
    rcases counts.reach entry something complete with before | ⟨first, member, above⟩
    · exact .inl (linkedOf entry before)
    · rcases mem_cons.mp member with same | inside
      · subst same
        by_cases done : first = entry
        · subst done
          exact .inl here
        · -- the next entry on the way up waited for this one
          obtain ⟨child, between⟩ := exists_child above done
          have set := complete _ between (cons_ne_nil _ _)
          rcases counts.waiting child first nonempty set (counts.unlinked_child child) with
            waiting | inQueue
          · exact .inr ⟨_, mem_append_right _ ((waits _).mpr waiting), between⟩
          · rcases mem_cons.mp inQueue with same | inside
            · exact absurd same (cons_ne_self child first)
            · exact .inr ⟨_, mem_append_left _ inside, between⟩
      · exact .inr ⟨first, mem_append_left _ inside, above⟩
  case total =>
    intro entry after
    rcases (linked_iff entry).mp after with same | before
    · subst same
      exact update_self _ _ _
    · refine Eq.trans ?_ (counts.total entry before)
      refine update_of_ne ?_ _ _
      rintro rfl
      exact before unlinked
  case bounded => exact counts.bounded
  case queueNodup =>
    refine restNodup.append (waitingFor_nodup counts.unlinkedNodup) ?_
    intro entry inQueue inWaiting
    obtain ⟨-, uncounted, -, child, isChild⟩ :=
      counts.unlinked pindex entry ((waits entry).mp inWaiting)
    obtain ⟨_, _, rfl, hasParent, -, -⟩ := counts.queued entry (mem_cons_of_mem _ inQueue)
    cases isChild
    exact hasParent.elim nonempty fun counted => counted uncounted
  case queued =>
    intro entry member
    rcases mem_append.mp member with inQueue | inWaiting
    · obtain ⟨child, above, isChild, hasParent, uncounted, set⟩ :=
        counts.queued entry (mem_cons_of_mem _ inQueue)
      refine ⟨child, above, isChild, hasParent.imp_right (linkedOf above), ?_, set⟩
      refine (update_of_ne ?_ _ _).trans uncounted
      rintro rfl
      exact notQueued inQueue
    · obtain ⟨-, -, set, child, rfl⟩ := counts.unlinked pindex entry ((waits entry).mp inWaiting)
      refine ⟨child, pindex, rfl, .inr here, ?_, set⟩
      have other := update_of_ne (cons_ne_self child pindex)
        (IndexEntry.total node.nTx pindex) node.nChainTx
      exact other.trans (counts.unlinked_child child)
  case unlinkedNodup => exact counts.unlinkedNodup.filter _
  case unlinked =>
    intro above entry member
    obtain ⟨before, different⟩ := mem_filter.mp member
    obtain ⟨something, uncounted, set, isChild⟩ := counts.unlinked above entry before
    refine ⟨something, ?_, set, isChild⟩
    exact (update_of_ne (of_decide_eq_true different) _ _).trans uncounted
  case waiting =>
    intro child above something set after
    obtain ⟨different, before⟩ := unlinkedOf _ after
    rcases counts.waiting child above something set before with waiting | inQueue
    · by_cases same : above = pindex
      · subst same
        exact .inr (mem_append_right _ ((waits _).mpr waiting))
      · exact .inl (mem_filter.mpr ⟨waiting, decide_eq_true same⟩)
    · refine .inr (mem_append_left _ ?_)
      exact (mem_cons.mp inQueue).resolve_left different

theorem linkEntry_keeps (params : IndexParams ι) (counts : node.Counts (pindex :: queue)) :
    Keeps node ((node.linkEntry params pindex).release pindex) := by
  obtain ⟨_, _, -, -, unlinked, -⟩ := counts.queued pindex mem_cons_self
  obtain ⟨value, nonzero⟩ := counts.setLinked_eq
  obtain ⟨candidates, linked, -⟩ := linkEntry_eq params node pindex
  rw [linked, value]
  have different : ∀ entry, node.nChainTx entry ≠ 0 → entry ≠ pindex := by
    rintro entry counted rfl
    exact counted unlinked
  have counted entry (before : node.nChainTx entry ≠ 0) :=
    (@update_ne_zero _ _ _ pindex _ nonzero entry).mpr (.inr before)
  exact ⟨rfl, counted, fun entry before => update_of_ne (different entry before) _ _,
    fun entry clean => ⟨counted entry clean.linked, clean.unflagged⟩⟩

theorem linkEntry_listed (counts : node.Counts (pindex :: queue))
    (linkedTip : node.nChainTx node.chain.tip ≠ 0) (tip : node.chain.tip ≠ [])
    (listed : node.Listed params node.chain.tip) :
    ((node.linkEntry params pindex).release pindex).Listed params node.chain.tip := by
  have keeps := linkEntry_keeps params counts
  obtain ⟨value, nonzero⟩ := counts.setLinked_eq
  obtain ⟨candidates, linked, member⟩ := linkEntry_eq params node pindex
  rw [linked] at keeps ⊢
  rw [value] at member keeps ⊢
  refine ⟨fun entry inside => ?_, fun entry unflagged counted better => ?_⟩
  · rcases (member entry).mp inside with before | ⟨rfl, null | better⟩
    · obtain ⟨counted, better⟩ := listed.inside entry before
      exact ⟨keeps.linked entry counted, (keeps.worse counted linkedTip).trans better⟩
    · exact absurd null tip
    · exact ⟨(update_ne_zero nonzero entry).mpr (.inl rfl), better⟩
  · refine (member entry).mpr ?_
    by_cases same : entry = pindex
    · subst same
      exact .inr ⟨rfl, .inr better⟩
    · have before := ((update_ne_zero nonzero entry).mp counted).resolve_left same
      rw [keeps.worse before linkedTip] at better
      exact .inl (listed.offered entry unflagged before better)

theorem linkEntry_sameMarks (params : IndexParams ι) (node : NodeIndex ι) (pindex : IndexEntry ι) :
    SameMarks node ((node.linkEntry params pindex).release pindex) := by
  obtain ⟨candidates, linked, -⟩ := linkEntry_eq params node pindex
  rw [linked]
  exact ⟨rfl, rfl, rfl, rfl, rfl, rfl, rfl⟩

theorem linkEntry_length (params : IndexParams ι) (node : NodeIndex ι) (pindex : IndexEntry ι) :
    ((node.linkEntry params pindex).waitingFor pindex).length +
        ((node.linkEntry params pindex).release pindex).blocksUnlinked.length =
      node.blocksUnlinked.length := by
  obtain ⟨candidates, linked, -⟩ := linkEntry_eq params node pindex
  rw [linked, waitingFor, release, length_map]
  have split := length_eq_length_filter_add (l := node.blocksUnlinked)
    fun pair => decide (pair.1 = pindex)
  have same : (node.setLinked pindex).blocksUnlinked = node.blocksUnlinked := rfl
  simpa [same] using split.symm

theorem linkQueue_spec {turns : Nat} (enough : queue.length + node.blocksUnlinked.length ≤ turns)
    (counts : node.Counts queue) (linkedTip : node.nChainTx node.chain.tip ≠ 0)
    (tip : node.chain.tip ≠ []) (listed : node.Listed params node.chain.tip) :
    (linkQueue params turns queue node).Counts [] ∧
      (linkQueue params turns queue node).Listed params node.chain.tip ∧
      Keeps node (linkQueue params turns queue node) ∧
      SameMarks node (linkQueue params turns queue node) := by
  induction turns generalizing queue node with
  | zero =>
    obtain rfl : queue = [] := length_eq_zero_iff.mp (by omega)
    exact ⟨counts, listed, .refl node, .refl node⟩
  | succ turns ih =>
    cases queue with
    | nil => exact ⟨counts, listed, .refl node, .refl node⟩
    | cons pindex queue =>
      have keeps := linkEntry_keeps params counts
      have listed' := linkEntry_listed counts linkedTip tip listed
      have same := linkEntry_sameMarks params node pindex
      have length := linkEntry_length params node pindex
      rw [← keeps.tip] at linkedTip tip listed'
      obtain ⟨linked, nowListed, rest, marks⟩ := ih
        (by simp only [length_append, length_cons] at enough ⊢; omega)
        counts.link (keeps.linked _ linkedTip) tip listed'
      rw [keeps.tip] at nowListed
      exact ⟨linked, nowListed, keeps.trans rest, same.trans marks⟩

end Linking

/-! ## Block data -/

section Data

variable {id : ι} {parent : IndexEntry ι} {numTxs : Nat}

/-- The totals stay below `2 ^ 32` when the transactions of a block are added. -/
def Fits (node : NodeIndex ι) (pindex : IndexEntry ι) (numTxs : Nat) : Prop :=
  ∀ entry ∈ pindex :: node.blockIndex, pindex <:+ entry →
    total node.nTx entry + numTxs < 2 ^ 32

structure Arrives (node : NodeIndex ι) (pindex : IndexEntry ι) (numTxs : Nat) : Prop where
  known : pindex ∈ node.blockIndex
  unflagged : node.flagged pindex = false
  unset : node.nTx pindex = 0
  positive : 0 < numTxs
  fits : node.Fits pindex numTxs

section

variable (arrives : node.Arrives (id :: parent) numTxs)
include arrives

omit [DecidableEq ι] in
theorem Arrives.uncounted (counts : node.Counts []) {entry : IndexEntry ι}
    (above : id :: parent <:+ entry) : node.nChainTx entry = 0 := by
  by_contra counted
  have received := counts.sound entry counted _ above (cons_ne_nil _ _)
  have unset := arrives.unset
  omega

theorem storeData_eq (counts : node.Counts []) :
    node.storeData (id :: parent) numTxs =
      { node with
        nTx := update node.nTx (id :: parent) numTxs
        chain := { node.chain with
          haveData := update node.chain.haveData (id :: parent) true }
        validity := update node.validity (id :: parent) (.raise (node.flagged (id :: parent))
          .transactions (node.validity (id :: parent))) } := by
  have uncounted := arrives.uncounted counts suffix_rfl
  have fits := arrives.fits _ mem_cons_self suffix_rfl
  rw [storeData, Nat.mod_eq_of_lt (lt_of_le_of_lt (Nat.le_add_left _ _) fits), ← uncounted,
    update_eq_self]

theorem le_update_nTx (entry : IndexEntry ι) :
    node.nTx entry ≤ update node.nTx (id :: parent) numTxs entry := by
  rw [update_apply]
  split
  · rename_i same
    rw [same, arrives.unset]
    exact Nat.zero_le _
  · exact le_refl _

theorem storeData_counts (counts : node.Counts [])
    {blocksUnlinked : List (IndexEntry ι × IndexEntry ι)}
    (either : ((parent = [] ∨ node.nChainTx parent ≠ 0) ∧ queue = [id :: parent] ∧ blocksUnlinked =
      node.blocksUnlinked) ∨ (parent ≠ [] ∧ node.nChainTx parent = 0 ∧ queue = [] ∧ blocksUnlinked =
      node.blocksUnlinked ++ [(parent, id :: parent)])) :
    ({ node.storeData (id :: parent) numTxs with blocksUnlinked := blocksUnlinked } :
      NodeIndex ι).Counts queue := by
  have more := le_update_nTx arrives
  have uncounted : ∀ entry, id :: parent <:+ entry → node.nChainTx entry = 0 :=
    fun _ above => arrives.uncounted counts above
  have received : 0 < update node.nTx (id :: parent) numTxs (id :: parent) := by
    rw [update_self]
    exact arrives.positive
  -- without the new block, an entry is complete only if it was so before
  have before : ∀ entry, ¬ id :: parent <:+ entry →
      (∀ ancestor, ancestor <:+ entry → ancestor ≠ [] →
        0 < update node.nTx (id :: parent) numTxs ancestor) → node.Complete entry := by
    intro entry apart complete ancestor above something
    have positive := complete ancestor above something
    rwa [update_of_ne] at positive
    rintro rfl
    exact apart above
  have queueCases : ∀ entry ∈ queue, entry = id :: parent ∧
      (parent = [] ∨ node.nChainTx parent ≠ 0) := by
    intro entry member
    rcases either with ⟨below, rfl, -⟩ | ⟨-, -, rfl, -⟩
    · exact ⟨mem_singleton.mp member, below⟩
    · exact absurd member not_mem_nil
  have unlinkedCases : ∀ pair ∈ blocksUnlinked, pair ∈ node.blocksUnlinked ∨
      (pair = (parent, id :: parent) ∧ parent ≠ [] ∧ node.nChainTx parent = 0) := by
    intro pair member
    rcases either with ⟨-, -, rfl⟩ | ⟨something, unlinked, -, rfl⟩
    · exact .inl member
    · exact (mem_append.mp member).imp_right fun last =>
        ⟨mem_singleton.mp last, something, unlinked⟩
  have keeps : ∀ pair ∈ node.blocksUnlinked, pair ∈ blocksUnlinked := by
    intro pair member
    rcases either with ⟨-, -, rfl⟩ | ⟨-, -, -, rfl⟩
    · exact member
    · exact mem_append_left _ member
  rw [storeData_eq arrives counts]
  constructor
  case fresh =>
    intro entry outside
    obtain ⟨unset, uncounted⟩ := counts.fresh entry outside
    refine ⟨(update_of_ne ?_ _ _).trans unset, uncounted⟩
    rintro rfl
    exact outside arrives.known
  case data =>
    intro entry
    change update node.chain.haveData (id :: parent) true entry =
      decide (0 < update node.nTx (id :: parent) numTxs entry)
    by_cases same : entry = id :: parent
    · subst same
      rw [update_self, update_self, decide_eq_true arrives.positive]
    · rw [update_of_ne same, update_of_ne same, counts.data]
  case sequence => exact counts.sequence
  case sound => exact fun entry counted ancestor above something =>
    (counts.sound entry counted ancestor above something).trans_le (more ancestor)
  case parentLinked => exact counts.parentLinked
  case reach =>
    intro entry something complete
    by_cases above : id :: parent <:+ entry
    · rcases either with ⟨-, rfl, -⟩ | ⟨parentSome, unlinked, -, -⟩
      · exact .inr ⟨_, mem_singleton_self _, above⟩
      · -- the parent would be complete and thus linked
        have below : parent <:+ entry := (suffix_cons _ _).trans above
        have parentComplete := before parent (ChainState.not_cons_suffix _ _)
          fun ancestor inside => complete ancestor (inside.trans below)
        exact absurd unlinked ((counts.linked_iff parentSome).mpr parentComplete)
    · exact .inl ((counts.linked_iff something).mpr (before entry above complete))
  case total =>
    intro entry counted
    refine (counts.total entry counted).trans (total_update_of_not_suffix ?_).symm
    exact fun above => counted (uncounted entry above)
  case bounded =>
    intro entry member
    by_cases above : id :: parent <:+ entry
    · rw [total_update_of_suffix above (cons_ne_nil _ _) arrives.unset]
      exact arrives.fits entry (mem_cons_of_mem _ member) above
    · rw [total_update_of_not_suffix above]
      exact counts.bounded entry member
  case queueNodup =>
    rcases either with ⟨-, rfl, -⟩ | ⟨-, -, rfl, -⟩
    · exact nodup_singleton _
    · exact nodup_nil
  case queued =>
    intro entry member
    obtain ⟨rfl, below⟩ := queueCases entry member
    exact ⟨id, parent, rfl, below, uncounted _ suffix_rfl, received⟩
  case unlinkedNodup =>
    rcases either with ⟨-, -, rfl⟩ | ⟨-, -, -, rfl⟩
    · exact counts.unlinkedNodup
    · refine counts.unlinkedNodup.append (nodup_singleton _) ?_
      intro pair inside last
      obtain rfl := mem_singleton.mp last
      have positive := (counts.unlinked _ _ inside).2.2.1
      have unset := arrives.unset
      omega
  case unlinked =>
    intro above entry member
    rcases unlinkedCases _ member with old | ⟨new, something, unlinked⟩
    · obtain ⟨something, unlinked, positive, isChild⟩ := counts.unlinked above entry old
      exact ⟨something, unlinked, positive.trans_le (more entry), isChild⟩
    · cases new
      exact ⟨something, unlinked, received, id, rfl⟩
  case waiting =>
    intro child above something positive unlinked
    by_cases same : child :: above = id :: parent
    · cases same
      rcases either with ⟨-, rfl, -⟩ | ⟨-, -, -, rfl⟩
      · exact .inr (mem_singleton_self _)
      · exact .inl (mem_append_right _ (mem_singleton_self _))
    · have kept := update_of_ne same numTxs node.nTx
      have set : 0 < node.nTx (child :: above) := by
        rw [← kept]
        exact positive
      rcases counts.waiting child above something set unlinked with waits | inQueue
      · exact .inl (keeps _ waits)
      · exact absurd inQueue not_mem_nil

theorem storeData_levels (counts : node.Counts []) (levels : node.Levels outcomes) :
    (node.storeData (id :: parent) numTxs).Levels outcomes := by
  have more := le_update_nTx arrives
  have rank := rank_update_raise arrives.unflagged .transactions
  have three : BlockValidity.transactions.rank = 3 := rfl
  rw [storeData_eq arrives counts]
  refine ⟨fun entry member => ?_, fun entry => ?_, fun entry reached ancestor above root => ?_,
    fun entry written => (levels.undo entry written).trans_le (more entry)⟩
  · dsimp only
    rw [rank]
    split
    · omega
    · exact levels.tree entry member
  · dsimp only
    rw [rank, update_apply]
    split
    · have positive := arrives.positive
      omega
    · exact levels.transactions entry
  · have before := (le_rank_update_raise arrives.unflagged (by decide) entry).mp reached
    obtain ⟨five, connects⟩ := levels.scripts entry before ancestor above root
    exact ⟨(le_rank_update_raise arrives.unflagged (by decide) ancestor).mpr five, connects⟩

theorem storeData_keeps (counts : node.Counts []) :
    Keeps node (node.storeData (id :: parent) numTxs) := by
  rw [storeData_eq arrives counts]
  exact ⟨rfl, fun _ counted => counted, fun _ _ => rfl,
    fun _ clean => ⟨clean.linked, clean.unflagged⟩⟩

theorem storeData_validated {entry : IndexEntry ι} (validated : node.Validated entry) :
    (node.storeData (id :: parent) numTxs).Validated entry :=
  fun ancestor above root =>
    (le_rank_update_raise arrives.unflagged (by decide) ancestor).mpr
      (validated ancestor above root)

end

theorem receivedBlockTransactions_consistent (consistent : node.Consistent params outcomes)
    (arrives : node.Arrives (id :: parent) numTxs)
    (parentKnown : parent ≠ [] → parent ∈ node.blockIndex)
    (linkable : node.haveTxsDownloaded parent = true ∨ node.flagged parent = false) :
    (node.receivedBlockTransactions params (id :: parent) numTxs).Consistent params outcomes ∧
      Keeps node (node.receivedBlockTransactions params (id :: parent) numTxs) := by
  have counts := consistent.counts
  set stored := node.storeData (id :: parent) numTxs with isStored
  have keeps : Keeps node stored := storeData_keeps arrives counts
  have levels : stored.Levels outcomes := storeData_levels arrives counts consistent.levels
  have validated : stored.Validated _ := storeData_validated arrives consistent.validated
  have tip := consistent.shape.ne_nil (counts.mem_of_linked consistent.clean.linked)
  have flags : stored.Flags :=
    ⟨consistent.flags.fresh, consistent.flags.cause, consistent.flags.failedBlocks⟩
  have counted : stored.nChainTx = node.nChainTx := by
    rw [isStored, storeData_eq arrives counts]
  have listed : stored.Listed params node.chain.tip := by
    refine ⟨?_, ?_⟩
    · rw [counted]
      exact consistent.listed.inside
    · rw [counted]
      exact consistent.listed.offered
  have clean := keeps.clean _ consistent.clean
  have shape : Shape params stored.blockIndex := consistent.shape
  have downloaded : stored.haveTxsDownloaded parent = node.haveTxsDownloaded parent := by
    rw [haveTxsDownloaded, counted, haveTxsDownloaded]
  rw [receivedBlockTransactions]
  by_cases below : (id :: parent).tail = [] ∨
      stored.haveTxsDownloaded (id :: parent).tail = true
  · rw [if_pos below]
    rw [tail_cons, downloaded] at below
    have below' : parent = [] ∨ node.nChainTx parent ≠ 0 :=
      below.imp_right of_decide_eq_true
    have queued : stored.Counts [id :: parent] :=
      storeData_counts arrives counts (.inl ⟨below', rfl, rfl⟩)
    have enough : [id :: parent].length +
        stored.blocksUnlinked.length ≤
          stored.blocksUnlinked.length + 1 := (add_comm _ _).le
    obtain ⟨linked, nowListed, kept, same⟩ := linkQueue_spec enough queued clean.linked tip listed
    refine ⟨?_, keeps.trans kept⟩
    exact .of_sameMarks shape levels flags clean validated linked nowListed kept same
  · rw [if_neg below]
    rw [tail_cons, downloaded] at below
    obtain ⟨something, uncounted⟩ := not_or.mp below
    have uncounted' : node.nChainTx parent = 0 := by simpa [haveTxsDownloaded] using uncounted
    have unflagged : node.flagged parent = false := linkable.resolve_left uncounted
    have valid : stored.isValid .tree (id :: parent).tail = true := by
      rw [isValid, Bool.and_eq_true, Bool.not_eq_true', decide_eq_true_eq]
      exact ⟨unflagged, levels.tree parent (parentKnown something)⟩
    rw [if_pos valid]
    have waits := storeData_counts arrives counts (.inr ⟨something, uncounted', rfl, rfl⟩)
    have kept : Keeps stored
        { stored with
          blocksUnlinked := node.blocksUnlinked ++ [(parent, id :: parent)] } :=
      ⟨rfl, fun _ linked => linked, fun _ _ => rfl, fun _ clean => ⟨clean.linked, clean.unflagged⟩⟩
    refine ⟨?_, keeps.trans kept⟩
    exact .of_sameMarks shape levels flags clean validated waits
      ⟨listed.inside, listed.offered⟩ kept ⟨rfl, rfl, rfl, rfl, rfl, rfl, rfl⟩

end Data

/-! ## `AcceptBlockHeader` and `AcceptBlock` -/

section Accept

variable {node' : NodeIndex ι} {accepted : Bool} {offer : HeaderOffer ι}

theorem acceptBlockHeader_cases (rooted : [params.hashGenesisBlock] ∈ node.blockIndex)
    (done : node.acceptBlockHeader params offer = some (node', accepted)) :
    (node' = node ∧ (accepted = true → offer.entry ∈ node.blockIndex ∧
      (offer.entry = [params.hashGenesisBlock] ∨ node.flagged offer.entry = false))) ∨
    (node' = node.addToBlockIndex offer.entry ∧ offer.entry ∉ node.blockIndex ∧
      offer.prev ∈ node.blockIndex ∧ node.flagged offer.prev = false) ∨
    ∃ failed, node' = node.markFailedChild failed offer.prev ∧ accepted = false ∧
      offer.prev ∈ node.blockIndex ∧ node.chain.failedValid failed = true := by
  rw [acceptBlockHeader] at done
  split at done
  · rename_i isGenesis
    rw [isGenesis, addToBlockIndex, if_pos rooted] at done
    cases done
    exact .inl ⟨rfl, fun _ => ⟨isGenesis ▸ rooted, .inl isGenesis⟩⟩
  split at done
  · rename_i known
    cases done
    exact .inl ⟨rfl, fun valid => ⟨known, .inr (by simpa using valid)⟩⟩
  rename_i new
  split at done
  · cases done
    exact .inl ⟨rfl, by rintro ⟨⟩⟩
  split at done
  · cases done
    exact .inl ⟨rfl, by rintro ⟨⟩⟩
  rename_i known
  rw [not_not] at known
  split at done
  · cases done
    exact .inl ⟨rfl, by rintro ⟨⟩⟩
  rename_i unflagged
  rw [Bool.not_eq_true] at unflagged
  split at done
  · cases done
    exact .inl ⟨rfl, by rintro ⟨⟩⟩
  split at done
  · cases done
    exact .inr (.inl ⟨rfl, new, known, unflagged⟩)
  split at done
  · cases done
    exact .inr (.inl ⟨rfl, new, known, unflagged⟩)
  split at done
  · rename_i failed _ cause
    cases done
    exact .inr (.inr ⟨failed, rfl, rfl, known, cause⟩)
  · cases done

/-- `AcceptBlockHeader` keeps the index consistent; an accepted header has an
entry without a flag, and its parent is what it was. -/
theorem acceptBlockHeader_consistent (consistent : node.Consistent params outcomes)
    (done : node.acceptBlockHeader params offer = some (node', accepted)) :
    node'.Consistent params outcomes ∧ Keeps node node' ∧
      (accepted = true → offer.entry ∈ node'.blockIndex ∧ node'.flagged offer.entry = false ∧
        node'.flagged offer.prev = node.flagged offer.prev ∧ node'.nTx = node.nTx ∧
        node'.chain.haveData = node.chain.haveData ∧
        ∀ entry, entry ∈ node'.blockIndex → entry ∈ node.blockIndex ∨ entry = offer.entry) := by
  rcases acceptBlockHeader_cases consistent.shape.rooted done with
    ⟨rfl, valid⟩ | ⟨rfl, new, known, -⟩ | ⟨failed, rfl, refused, known, cause⟩
  · refine ⟨consistent, .refl _, fun accept => ?_⟩
    obtain ⟨inside, isGenesis | unflagged⟩ := valid accept
    · have root := consistent.shape.genesis_suffix
        (consistent.counts.mem_of_linked consistent.clean.linked)
      exact ⟨inside, isGenesis ▸ consistent.clean.unflagged _ root, rfl, rfl, rfl, fun _ => .inl⟩
    · exact ⟨inside, unflagged, rfl, rfl, rfl, fun _ => .inl⟩
  · refine ⟨addToBlockIndex_consistent consistent known new,
      addToBlockIndex_keeps consistent.counts new, fun _ => ?_⟩
    have fresh := consistent.flags.fresh _ new
    rw [addToBlockIndex, if_neg new]
    refine ⟨mem_append_right _ (mem_singleton_self _), fresh, rfl, rfl, rfl, ?_⟩
    intro entry member
    exact (mem_append.mp member).imp_right mem_singleton.mp
  · obtain ⟨marked, keeps⟩ := markFailedChild_consistent consistent known cause
    refine ⟨marked, keeps, fun accept => ?_⟩
    rw [refused] at accept
    exact absurd accept Bool.false_ne_true

/-- When the data of an offered block is stored, its parent must be linked or
free of failure flags, and the transaction counts must fit. -/
def Storable (node : NodeIndex ι) (offer : BlockOffer ι) : Prop :=
  offer.checked = none → node.chain.haveData offer.entry = false →
    (node.haveTxsDownloaded offer.prev = true ∨ node.flagged offer.prev = false) ∧
      node.Fits offer.entry offer.numTxs

theorem acceptBlock_consistent {offer : BlockOffer ι} (consistent : node.Consistent params outcomes)
    (storable : node.Storable offer)
    (done : node.acceptBlock params offer = some (node', accepted)) :
    node'.Consistent params outcomes ∧ Keeps node node' := by
  rw [acceptBlock, Option.bind_eq_bind, Option.bind_eq_some_iff] at done
  obtain ⟨⟨known, headerAccepted⟩, header, rest⟩ := done
  obtain ⟨consistent', keeps, facts⟩ := acceptBlockHeader_consistent consistent header
  dsimp only at rest
  split at rest
  · cases rest
    exact ⟨consistent', keeps⟩
  rename_i accept
  obtain ⟨inside, unflagged, parentFlag, nTx, haveData, entries⟩ := facts (by simpa using accept)
  split at rest
  · cases rest
    exact ⟨consistent', keeps⟩
  rename_i missing
  rw [Bool.not_eq_true] at missing
  have unset : known.nTx offer.entry = 0 := by
    have data := consistent'.counts.data offer.entry
    rw [missing] at data
    simpa using data
  split at rest
  · cases rest
    exact ⟨consistent', keeps⟩
  split at rest
  · rename_i result checked
    cases rest
    split
    · obtain ⟨marked, kept⟩ := markFailedValid_consistent consistent' inside unset
      exact ⟨marked, keeps.trans kept⟩
    · exact ⟨consistent', keeps⟩
  · rename_i checked
    cases rest
    rw [haveData] at missing
    obtain ⟨linkable, fits⟩ := storable checked missing
    have arrives : known.Arrives offer.entry offer.numTxs := by
      refine ⟨inside, unflagged, unset, offer.nonempty checked, fun entry member above => ?_⟩
      rw [nTx]
      refine fits entry (mem_cons.mpr ?_) above
      exact (mem_cons.mp member).elim .inl fun inside => (entries entry inside).symm
    have parentKnown : offer.prev ≠ [] → offer.prev ∈ known.blockIndex := fun something =>
      consistent'.shape.ancestor inside (suffix_cons _ _) something
    have linkable' : known.haveTxsDownloaded offer.prev = true ∨
        known.flagged offer.prev = false := by
      rw [parentFlag]
      refine linkable.imp_left fun downloaded => ?_
      rw [haveTxsDownloaded, decide_eq_true_eq] at downloaded ⊢
      exact keeps.linked _ downloaded
    obtain ⟨stored, kept⟩ :=
      receivedBlockTransactions_consistent consistent' arrives parentKnown linkable'
    exact ⟨stored, keeps.trans kept⟩

end Accept

end NodeIndex

end MooncoinFormal.Validation
