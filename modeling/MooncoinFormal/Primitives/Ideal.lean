import Mathlib
import MooncoinFormal.Library.PrefixCode
import MooncoinFormal.Primitives.Numeric

/-!
# A cryptography without collisions

What is hashed in the cryptography that computes is packed into one number instead
of a digest, with a tag for the kind of object. No two objects have the same hash,
so the instance satisfies every assumption that hash functions are collision free.
Its hashes have no bound; objects that are listed get a small hash, which fits into a
script.
-/

namespace MooncoinFormal.Primitives.Numeric

open Library.PrefixCode List Int32

variable (short : List (List Nat))

/-- The hash of some parts under a tag: an odd number if they are listed, and an even one
otherwise. -/
def tagged (tag : Nat) (parts : List Nat) : Nat :=
  if tag :: parts ∈ short then 2 * short.idxOf (tag :: parts) + 1 else pack (tag :: parts)

theorem tagged_inj {short : List (List Nat)} {tag tag' : Nat} {parts parts' : List Nat}
    (same : tagged short tag parts = tagged short tag' parts') : tag = tag' ∧ parts = parts' := by
  refine cons.inj ?_
  unfold tagged at same
  split at same <;> split at same
  · rename_i listed _
    exact (idxOf_inj listed).mp (by omega)
  · exact absurd same.symm (pack_ne_odd _ _)
  · exact absurd same (pack_ne_odd _ _)
  · exact pack_injective same

theorem tagged_ne_zero (tag : Nat) (parts : List Nat) : tagged short tag parts ≠ 0 := by
  unfold tagged
  split
  · exact Nat.succ_ne_zero _
  · exact Nat.ne_of_gt (pack_cons_pos tag parts)

/-! ## What is hashed can be read back -/

theorem ofInt_injective : Function.Injective ofInt := by
  intro a b same
  simp only [ofInt] at same
  split at same <;> split at same <;> omega

theorem prefixFree_ofPoint : PrefixFree ofPoint := by
  intro a b rest rest' same
  simp only [ofPoint, cons_append, nil_append, cons.injEq] at same
  obtain ⟨first, second, same⟩ := same
  exact ⟨Prod.ext (ofInt_injective first) (ofInt_injective second), same⟩

theorem prefixFree_ofList {α : Type} {parts : α → List Nat} (free : PrefixFree parts) :
    PrefixFree (ofList parts) := free.list

theorem prefixFree_ofBytes : PrefixFree ofBytes := by
  have bytes : PrefixFree fun byte : UInt8 => [byte.toNat] :=
    prefixFree_one fun _ _ => UInt8.toNat_inj.mp
  intro a b rest rest' same
  refine bytes.list ?_
  simpa [ofBytes, ← map_eq_flatMap] using same

theorem prefixFree_ofOption {α : Type} {parts : α → List Nat} (free : PrefixFree parts) :
    PrefixFree (ofOption parts) := by
  intro a b rest rest' same
  cases a with
  | none =>
    cases b with
    | none => exact ⟨rfl, (cons.inj same).2⟩
    | some _ => exact absurd (cons.inj same).1 (by decide)
  | some x =>
    cases b with
    | none => exact absurd (cons.inj same).1 (by decide)
    | some y =>
      obtain ⟨rfl, others⟩ := free (cons.inj same).2
      exact ⟨rfl, others⟩

theorem prefixFree_standardFields : PrefixFree fun fields : Mweb.StandardFields types =>
    ofPoint fields.keyExchangePubKey ++
      [fields.viewTag.toNat, fields.maskedValue.toNat, fields.maskedNonce.toNat] := by
  intro a b rest rest' same
  rw [append_assoc, append_assoc] at same
  obtain ⟨point, same⟩ := prefixFree_ofPoint same
  simp only [cons_append, nil_append, cons.injEq] at same
  obtain ⟨tag, value, nonce, same⟩ := same
  refine ⟨?_, same⟩
  cases a
  cases b
  simp_all [UInt8.toNat_inj, UInt64.toNat_inj, BitVec.toNat_inj]

theorem prefixFree_ofMessage : PrefixFree ofMessage := by
  intro a b rest rest' same
  simp only [ofMessage, cons_append, append_assoc, cons.injEq] at same
  obtain ⟨features, same⟩ := same
  obtain ⟨standard, same⟩ := prefixFree_ofOption prefixFree_standardFields same
  obtain ⟨extra, same⟩ := prefixFree_ofBytes same
  refine ⟨?_, same⟩
  cases a
  cases b
  simp_all [UInt8.toNat_inj]

theorem prefixFree_ofOutput : PrefixFree fun output : Mweb.Output types =>
    ofOutput output ++ [output.signature] := by
  intro a b rest rest' same
  simp only [ofOutput, append_assoc] at same
  obtain ⟨commitment, same⟩ := prefixFree_ofPoint same
  obtain ⟨sender, same⟩ := prefixFree_ofPoint same
  obtain ⟨receiver, same⟩ := prefixFree_ofPoint same
  obtain ⟨message, same⟩ := prefixFree_ofMessage same
  simp only [cons_append, nil_append, cons.injEq] at same
  obtain ⟨proof, signature, same⟩ := same
  refine ⟨?_, same⟩
  cases a
  cases b
  simp_all

theorem prefixFree_amount : PrefixFree fun amount : CAmount => [ofInt amount.toInt] :=
  prefixFree_one fun _ _ same => Int64.toInt_inj.mp (ofInt_injective same)

theorem alike_of_ofKernel {kernel other : Mweb.Kernel types}
    (same : ofKernel kernel ++ [kernel.signature] = ofKernel other ++ [other.signature]) :
    kernel.Alike other := by
  obtain ⟨same, -⟩ := append_inj' same rfl
  obtain ⟨front, excess⟩ := append_inj' same rfl
  obtain ⟨excess, -⟩ := prefixFree_ofPoint (congrArg (· ++ []) excess)
  simp only [cons_append, append_assoc, cons.injEq] at front
  obtain ⟨fee, front⟩ := prefixFree_ofOption prefixFree_amount front.2
  obtain ⟨pegin, -⟩ := prefixFree_ofOption prefixFree_amount front
  exact ⟨excess, fun _ _ => congrArg (Option.getD · 0) fee,
    fun _ _ _ => congrArg (Option.getD · 0) pegin⟩

theorem ofHeader_injective : Function.Injective ofHeader := by
  intro a b same
  simp only [ofHeader, cons.injEq, ofInt_injective.eq_iff, toInt_inj] at same
  cases a
  cases b
  simp_all

theorem ofBlockHeader_injective : Function.Injective ofBlockHeader := by
  intro a b same
  simp only [ofBlockHeader, cons.injEq, ofInt_injective.eq_iff, toInt_inj, UInt32.toNat_inj] at same
  cases a
  cases b
  simp_all

theorem prefixFree_txin : PrefixFree fun txin : CTxIn types =>
    [txin.prevout.hash, txin.prevout.n.toNat] ++ ofBytes txin.scriptSig ++ [txin.nSequence.toNat] ++
      ofList ofBytes txin.scriptWitness := by
  intro a b rest rest' same
  simp only [cons_append, nil_append, append_assoc, cons.injEq] at same
  obtain ⟨hash, n, same⟩ := same
  obtain ⟨scriptSig, same⟩ := prefixFree_ofBytes same
  obtain ⟨sequence, same⟩ := cons.inj same
  obtain ⟨witness, same⟩ := prefixFree_ofList prefixFree_ofBytes same
  refine ⟨?_, same⟩
  obtain ⟨⟨_, _⟩, _, _, _⟩ := a
  simp_all [UInt32.toNat_inj]

theorem prefixFree_txout : PrefixFree fun txout : CTxOut =>
    ofInt txout.nValue.toInt :: ofBytes txout.scriptPubKey := by
  intro a b rest rest' same
  obtain ⟨value, same⟩ := cons.inj same
  obtain ⟨script, same⟩ := prefixFree_ofBytes same
  refine ⟨?_, same⟩
  cases a
  cases b
  simp_all [ofInt_injective.eq_iff, Int64.toInt_inj]

theorem withoutMweb_of_ofTransaction {tx other : CTransaction types}
    (same : ofTransaction tx = ofTransaction other) : tx.withoutMweb = other.withoutMweb := by
  rw [ofTransaction, ofTransaction, append_assoc, append_assoc] at same
  obtain ⟨version, same⟩ := cons.inj same
  obtain ⟨vin, same⟩ := prefixFree_ofList prefixFree_txin same
  obtain ⟨vout, same⟩ := prefixFree_ofList prefixFree_txout same
  cases tx
  cases other
  simp_all [CTransaction.withoutMweb, ofInt_injective.eq_iff, toInt_inj, UInt32.toNat_inj]

/-! ## The instance -/

/-- The hashes are tagged parts, small for the objects of which the tagged parts are listed in
`short`. -/
def ideal : BlockCrypto types := cryptoWith (tagged short)

theorem tagged_ne {short : List (List Nat)} {tag tag' : Nat} (different : tag ≠ tag')
    (parts parts' : List Nat) : tagged short tag parts ≠ tagged short tag' parts' :=
  fun same => different (tagged_inj same).1

theorem ideal_collisionFree : (ideal short).CollisionFree where
  output_inj _ _ same := prefixFree_ofOutput.injective (tagged_inj same).2
  header_inj _ same := ofHeader_injective (tagged_inj same).2
  leafset_inj _ _ same := prefixFree_ofBytes.injective (tagged_inj same).2
  outputMmr :=
    { leaf_inj := fun same => by simpa using (tagged_inj same).2
      parent_inj := fun same => by simpa using (tagged_inj same).2
      leaf_ne_parent := tagged_ne (by decide) _ _
      leaf_ne_zero := tagged_ne_zero _ _ _
      parent_ne_zero := tagged_ne_zero _ _ _ }
  kernelMmr :=
    { leaf_inj := fun same => by
        obtain ⟨index, kernel⟩ := cons.inj (tagged_inj same).2
        exact ⟨index, alike_of_ofKernel kernel⟩
      parent_inj := fun same => by simpa using (tagged_inj same).2
      leaf_ne_parent := tagged_ne (by decide) _ _
      leaf_ne_zero := tagged_ne_zero _ _ _
      parent_ne_zero := tagged_ne_zero _ _ _ }
  transaction_inj _ _ same := withoutMweb_of_ofTransaction (tagged_inj same).2
  blockHeader_inj _ _ same := ofBlockHeader_injective (tagged_inj same).2
  pair_inj same := by simpa using (tagged_inj same).2
  witnessCommitment_inj same := by
    obtain ⟨root, reserved⟩ := cons.inj (tagged_inj same).2
    exact ⟨root, prefixFree_ofBytes.injective reserved⟩

end MooncoinFormal.Primitives.Numeric
