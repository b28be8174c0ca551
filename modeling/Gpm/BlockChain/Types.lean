import Mathlib.Algebra.BigOperators.Group.Finset.Basic
import Mathlib.Algebra.Order.Ring.Nat

namespace Gpm

abbrev Name := List UInt8

/-- A `sha1_hashcode` as the big-endian number by which it is compared.  Its width
is not part of the type, so that a hash function may be free of collisions. -/
abbrev Hashcode := ℕ

abbrev PublicKey := BitVec 2048

abbrev Signature := BitVec 2048

def PublicKey.empty : PublicKey := 0

structure Transfer where
  amount : UInt64
  stockName : Name
  fromName : Name
  toName : Name
  deriving DecidableEq

/-- A `command` by its id, with its data unpacked. -/
inductive Command
  | registerName (name : Name) (pubKey : PublicKey)
  | issue (stockName : Name)
  | transfer (t : Transfer)
  | other (id : UInt16)
  deriving DecidableEq

structure Transaction where
  utcTime : UInt64
  commands : List Command
  deriving DecidableEq

structure SignedTransaction where
  trx : Transaction
  sigs : List Signature
  deriving DecidableEq

structure Block where
  prevBlock : Hashcode := 0
  version : UInt16 := 0
  utcTime : UInt32 := 0
  state : Hashcode := 0
  nonce : UInt64 := 0
  deriving DecidableEq, Inhabited

structure BlockState where
  index : UInt32
  generatorName : Name
  stateDb : Hashcode
  signedTransactions : List Hashcode
  deriving DecidableEq

structure FullBlockState where
  index : Int := -1
  headIndex : Int := -1
  blk : Block
  blkState : BlockState
  trxs : List SignedTransaction
  deriving DecidableEq

abbrev BlockChain := List Block

end Gpm
