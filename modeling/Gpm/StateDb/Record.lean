import Std.Data.ExtTreeMap
import Gpm.BlockChain.Types
import Gpm.Lib.Format

namespace Gpm

abbrev Index := Option ℕ

structure AccountKey where
  accountName : Index
  typeName : Index
  deriving DecidableEq

namespace AccountKey

def rank : Index → ℕ × ℕ
  | none => (1, 0)
  | some n => (0, n)

theorem rank_injective : Function.Injective rank := by
  intro i j h
  cases i <;> cases j <;> simp_all [rank]

def cmp : AccountKey → AccountKey → Ordering :=
  compareLex (compareOn fun k => (rank k.accountName).1)
    (compareLex (compareOn fun k => (rank k.accountName).2)
      (compareLex (compareOn fun k => (rank k.typeName).1)
        (compareOn fun k => (rank k.typeName).2)))

instance : Std.TransCmp cmp := by unfold cmp; infer_instance

instance : Std.LawfulEqCmp cmp where
  eq_of_compare := by
    rintro ⟨a, t⟩ ⟨b, u⟩ h
    simp only [cmp, compareLex, compareOn, Ordering.then_eq_eq, Nat.compare_eq_eq] at h
    obtain ⟨ha, ha', ht, ht'⟩ := h
    rw [rank_injective (Prod.ext ha ha'), rank_injective (Prod.ext ht ht')]

end AccountKey

abbrev NameIndex := Std.ExtTreeMap Name ℕ compare

abbrev AccountIndex := Std.ExtTreeMap AccountKey ℕ AccountKey.cmp

structure TransferLog where
  amount : UInt64
  typeName : Index
  fromName : Index
  toName : Index
  newFromBal : UInt64
  newToBal : UInt64
  lastFromTrx : Index := none
  lastToTrx : Index := none
  trxIdx : Index := none
  deriving DecidableEq

/-- The data of a `state_record`, by its id. -/
inductive Record
  | defineName (name : Name) (key : PublicKey)
  | updateName (nameIdx : Index) (key : PublicKey) (lastUpdateIdx : Index)
  | transferLog (tl : TransferLog)
  | startTrx (trxHash : Hashcode) (utcTime : UInt64)
  | endBlock (blk : Block) (generator : Name)
  deriving DecidableEq

structure StateRecord where
  data : Record
  previous : ℕ := 0
  deriving DecidableEq

/-- What the code takes from the serialisation, hashing and signature libraries and from
the standard sort; `encode_address` and the address check are built from these too. -/
structure Externals where
  raw : Lib.Format StateRecord
  pack_ne_nil : ∀ r, raw.pack r ≠ []
  hashTrx : Transaction → Hashcode
  hashSignedTrx : SignedTransaction → Hashcode
  hashBlock : Block → Hashcode
  hashBlockState : BlockState → Hashcode
  hashBytes : List UInt8 → Hashcode
  hashHashes : List Hashcode → Hashcode
  keyVerify : PublicKey → Hashcode → Signature → Bool
  encodeAddress : PublicKey → Name
  validateAddressFormat : Name → Bool
  /-- `std::sort` by `by_time`; which order it gives equal times is left open. -/
  sortByTime : List (Hashcode × SignedTransaction) → List (Hashcode × SignedTransaction)
  sortByTime_perm : ∀ l, (sortByTime l).Perm l
  sortByTime_sorted : ∀ l, (sortByTime l).Pairwise fun a b => a.2.trx.utcTime ≤ b.2.trx.utcTime

namespace SignedTransaction

def verify (E : Externals) (t : SignedTransaction) (pk : PublicKey) : Bool :=
  t.sigs.any (E.keyVerify pk (E.hashTrx t.trx))

end SignedTransaction

end Gpm
