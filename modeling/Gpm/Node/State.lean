import Gpm.BlockChain.Validate
import Gpm.Node.TrxDb
import Gpm.StateDb.Apply

namespace Gpm

abbrev BlockStateDb := Std.ExtTreeMap Hashcode BlockState compare

inductive Signal
  | newTransaction (t : SignedTransaction)
  | newBlock (fbs : FullBlockState)
  | generationStateChanged (name : Name) (on : Bool)
  deriving DecidableEq

structure Disk where
  blockChain : BlockChain := []
  trxDb : TrxDb := ∅
  blockStateDb : BlockStateDb := ∅

/-- A node after `open`.  The objects `m_head_trx`, over `m_state_db`, and `m_gen_trx`, over
`m_head_trx`, are there by their own members. -/
structure Node where
  mBlockChain : BlockChain := []
  mStateDb : StateDatabase := {}
  mGenName : Name := []
  mGenEnabled : Bool := false
  mTrxDb : TrxDb := ∅
  mBlockStateDb : BlockStateDb := ∅
  mHeadTrx : Layer := {}
  mGenTrx : Layer := {}
  mHashTarget : Hashcode := 0
  disk : Disk := {}
  signals : List Signal := []
  jobs : List (Block × Hashcode) := []
  applied : List BlockState := []

abbrev NodeM := EStateM Fault Node

namespace Node

def stateDb (n : Node) : Database := .file n.mStateDb

def headDb (n : Node) : Database := .trx n.stateDb n.mHeadTrx

def genDb (n : Node) : Database := .trx n.headDb n.mGenTrx

def back (n : Node) : Block := n.mBlockChain.getLastD default

end Node

structure DbPtr where
  get : Node → Database
  put : Database → Node → Node

namespace DbPtr

def stateDb : DbPtr where
  get := Node.stateDb
  put db n := { n with mStateDb := db.root }

def headTrx : DbPtr where
  get := Node.headDb
  put db n := { n with mStateDb := db.root, mHeadTrx := db.layer }

def genTrx : DbPtr where
  get := Node.genDb
  put db n := { n with mStateDb := db.root, mHeadTrx := db.base.layer, mGenTrx := db.layer }

def call {α : Type} (q : DbPtr) (x : DbM α) : NodeM α := fun n =>
  match x (q.get n) with
  | .ok a db => .ok a (q.put db n)
  | .error e db => .error e (q.put db n)

def overlay {α : Type} (q : DbPtr) (x : DbM α) : NodeM (α × Layer) := fun n =>
  match x (.trx (q.get n) {}) with
  | .ok a db => .ok (a, db.layer) (q.put db.base n)
  | .error e db => .error e (q.put db.base n)

end DbPtr

end Gpm
