import Mathlib

/-!
# Validation results

`consensus/validation.h`: why a block was refused. A `BLOCK_MUTATED` result says
that the data may have been changed after the header was made; only the other
results condemn the header.
-/

namespace MooncoinFormal.Validation

inductive BlockValidationResult where
  | resultUnset
  | consensus
  | recentConsensusChange
  | cachedInvalid
  | invalidHeader
  | mutated
  | missingPrev
  | invalidPrev
  | timeFuture
  | checkpoint
  deriving DecidableEq, Repr

structure Invalid where
  result : BlockValidationResult
  rejectReason : String
  debugMessage : String
  deriving DecidableEq, Repr

/-- A check either passes with a value or leaves its state invalid. -/
abbrev Checked (α : Type) := Except Invalid α

end MooncoinFormal.Validation
