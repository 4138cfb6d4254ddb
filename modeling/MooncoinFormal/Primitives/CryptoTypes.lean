import Mathlib

/-!
# Carriers of the cryptographic values

Digests, curve points, scalars, signatures and range proofs are abstract. Both
`uint256` and `mw::Hash` are digests; Pedersen commitments and public keys are
points of one group on which the scalars act. The zero point stands for the
all-zero encoding (`IsZero`, a default-constructed key) and for infinity.
-/

namespace MooncoinFormal.Primitives

structure CryptoTypes where
  Hash : Type
  Point : Type
  Scalar : Type
  Signature : Type
  RangeProof : Type
  hashOrder : LinearOrder Hash
  scalarRing : CommRing Scalar
  scalarEq : DecidableEq Scalar
  pointGroup : AddCommGroup Point
  pointModule : Module Scalar Point
  pointEq : DecidableEq Point
  signatureEq : DecidableEq Signature
  proofEq : DecidableEq RangeProof
  /-- The all-zero digest. -/
  zeroHash : Hash
  /-- The bytes of a digest, as pushed in a script. -/
  hashBytes : Hash → List UInt8
  /-- The digest read from a witness program. -/
  hashOfBytes : List UInt8 → Hash

namespace CryptoTypes

variable (T : CryptoTypes)

instance : LinearOrder T.Hash := T.hashOrder
instance : LawfulBEq T.Hash := inferInstance
instance : CommRing T.Scalar := T.scalarRing
instance : DecidableEq T.Scalar := T.scalarEq
instance : AddCommGroup T.Point := T.pointGroup
instance : Module T.Scalar T.Point := T.pointModule
instance : DecidableEq T.Point := T.pointEq
instance : DecidableEq T.Signature := T.signatureEq
instance : DecidableEq T.RangeProof := T.proofEq

end CryptoTypes

end MooncoinFormal.Primitives
