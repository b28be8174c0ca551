import Gpm.Lib.Stateful
import Gpm.Node.State

namespace Gpm

def seconds (utcClock : ℕ) : UInt32 := UInt32.ofNat (utcClock / 1000000)

abbrev Clock := ℕ → ℕ

def Clock.tail (clock : Clock) : Clock := fun i => clock (i + 1)

namespace TrxDb

def pendingTransactions (db : TrxDb) : List (Hashcode × SignedTransaction) :=
  (db.toList.filter fun e => e.1.group = .pending).map fun e => (e.1.hash, e.2)

/-- The first loop of `add_full_block`, with `added_trx`. -/
def store (E : Externals) : TrxDb → List SignedTransaction → TrxDb × Bool
  | db, [] => (db, false)
  | db, t :: ts =>
    if db.knows (E.hashSignedTrx t) then store E db ts
    else ((store E (db.insert ⟨.pending, E.hashSignedTrx t⟩ t) ts).1, true)

end TrxDb

namespace Node

variable (E : Externals)

def getHeadTransactions : NodeM (List Hashcode) := do
  let n ← get
  match n.mBlockStateDb[n.back.state]? with
  | none => throw (.exception "Unable to find block_state for head.")
  | some bs => return bs.signedTransactions

/-- The loop of `create_gen_block`: each transaction in a transaction of its own. -/
def applyPending : List (Hashcode × SignedTransaction) → NodeM (List Hashcode)
  | [] => return []
  | (h, t) :: rest => do
    let (ok, tmpTrx) ← DbPtr.genTrx.overlay (DbM.apply E t (← get).mGenName)
    if ok then
      modify fun n => { n with mGenTrx := n.mGenTrx.append tmpTrx }
      return h :: (← applyPending rest)
    else applyPending rest

def createFirstBlock (clock : Clock) : NodeM Unit := do
  let gen := (← get).mGenName
  let hash ← DbPtr.stateDb.call (DbM.calculateStateHash E)
  let bs : BlockState :=
    { index := 0, generatorName := gen, stateDb := hash, signedTransactions := [] }
  let (found, b) := generate E.hashBlock
    { utcTime := seconds (clock 0), state := E.hashBlockState bs } getMaxHash
  if found then discard <| DbPtr.headTrx.call (DbM.applyBlock E b gen [] hash)
  modify fun n =>
    { n with
      mBlockStateDb := n.mBlockStateDb.insert b.state bs
      mBlockChain := n.mBlockChain ++ [b]
      applied := n.applied ++ [bs] }

/-- The part of `create_gen_block` that follows on a chain which is not empty. -/
def createNextBlock (clock : Clock) : NodeM Block := do
  let n ← get
  let listed ← applyPending E (E.sortByTime n.mTrxDb.pendingTransactions)
  let hash ← DbPtr.genTrx.call (DbM.calculateStateHash E)
  let bs : BlockState :=
    { index := UInt32.ofNat n.mBlockChain.length, generatorName := n.mGenName, stateDb := hash,
      signedTransactions := listed }
  modify fun n => { n with mBlockStateDb := n.mBlockStateDb.insert (E.hashBlockState bs) bs }
  return {
    prevBlock := E.hashBlock n.back
    utcTime := UInt32.ofNat (clock 1 / 1000000 + secondsPerBlock)
    state := E.hashBlockState bs }

def createGenBlock (clock : Clock) : NodeM Block := do
  modify fun n => { n with mGenTrx := {} }
  if (← get).mBlockChain = [] then createFirstBlock E clock
  createNextBlock E clock

def startBlock (clock : Clock) : NodeM Unit := do
  let b ← createGenBlock E clock
  modify fun n =>
    { n with
      mHashTarget := calculateHashTarget E.hashBlock n.mBlockChain
      jobs := n.jobs ++ [(b, calculateHashTarget E.hashBlock n.mBlockChain)] }

def startBlockIfGenerating (clock : Clock) : NodeM Unit := do
  if (← get).mGenEnabled then startBlock E clock

def configureGeneration (clock : Clock) (gn : Name) (on : Bool) : NodeM Unit := do
  modify fun n =>
    { n with
      mGenName := gn
      mGenEnabled := on
      signals := n.signals ++ [.generationStateChanged gn on] }
  if on then startBlock E clock

def addTransaction (clock : Clock) (tx : SignedTransaction) : NodeM Int := do
  if (← get).mTrxDb.knows (E.hashSignedTrx tx) then return -1
  else
    modify fun n =>
      { n with
        mTrxDb := n.mTrxDb.insert ⟨.pending, E.hashSignedTrx tx⟩ tx
        signals := n.signals ++ [.newTransaction tx] }
    if (← get).mGenEnabled then startBlock E clock else discard <| createGenBlock E clock
    return 0

def applyListed (q : DbPtr) (blk : Block) (bs : BlockState) :
    NodeM (Option (List SignedTransaction × Layer)) := do
  let strxs := (← get).mTrxDb.getTransactions bs.signedTransactions .pending
  if strxs.length ≠ bs.signedTransactions.length then return none
  else
    let (ok, trx) ← q.overlay (DbM.applyBlock E blk bs.generatorName strxs bs.stateDb)
    return if ok then some (strxs, trx) else none

def fullBlock (blk : Block) (bs : BlockState) (strxs : List SignedTransaction) (n : Node) :
    FullBlockState :=
  { index := n.mBlockChain.length - 1, headIndex := n.mBlockChain.length - 1, blk, blkState := bs,
    trxs := strxs }

def settleHead (blk : Block) (bs : BlockState) (strxs : List SignedTransaction) (trx : Layer)
    (n : Node) : Node :=
  let trxDb := (n.mTrxDb.moveGroup .head .applied).moveTransactions bs.signedTransactions
    .pending .head
  let d := n.mStateDb.commit
  let d := { d with toLayer := d.toLayer.append n.mHeadTrx }
  { n with
    mTrxDb := trxDb
    mStateDb := d.commit
    mHeadTrx := trx
    mGenTrx := {}
    disk := { blockChain := n.mBlockChain.dropLast, trxDb, blockStateDb := n.mBlockStateDb }
    signals := n.signals ++ [.newBlock (n.fullBlock blk bs strxs)]
    applied := n.applied ++ [bs] }

def pushBack (blk : Block) (n : Node) : Node := { n with mBlockChain := n.mBlockChain ++ [blk] }

def popBack (n : Node) : Node := { n with mBlockChain := n.mBlockChain.dropLast }

def rejectAppended : NodeM Int := do
  modify popBack
  return -3

def appendBlock (clock : Clock) (blk : Block) (bs : BlockState) : NodeM Int := do
  modify (pushBack blk)
  if validate E.hashBlock (← get).mBlockChain then
    match ← applyListed E DbPtr.headTrx blk bs with
    | some (strxs, trx) =>
      modify (settleHead blk bs strxs trx)
      startBlockIfGenerating E clock
      return 1
    | none => rejectAppended
  else rejectAppended

def swapHead (blk : Block) (bs : BlockState) (strxs : List SignedTransaction) (trx : Layer)
    (n : Node) : Node :=
  { n with
    mTrxDb := n.mTrxDb.moveTransactions bs.signedTransactions .pending .head
    mHeadTrx := trx
    mGenTrx := {}
    signals := n.signals ++ [.newBlock (n.fullBlock blk bs strxs)]
    applied := n.applied.dropLast ++ [bs] }

def moveTransactions (trx : List Hashcode) (fromGroup toGroup : Group) (n : Node) : Node :=
  { n with mTrxDb := n.mTrxDb.moveTransactions trx fromGroup toGroup }

def setBack (blk : Block) (n : Node) : Node :=
  { n with mBlockChain := n.mBlockChain.dropLast ++ [blk] }

def rejectReplacement (oldHead : Block) : NodeM Int := do
  modify (setBack oldHead)
  return -3

def replaceHead (clock : Clock) (blk : Block) (bs : BlockState) : NodeM Int := do
  let oldHead := (← get).back
  modify (setBack blk)
  if validate E.hashBlock (← get).mBlockChain then
    let oldHeadTrx ← getHeadTransactions
    modify (moveTransactions oldHeadTrx .head .pending)
    match ← applyListed E DbPtr.stateDb blk bs with
    | some (strxs, trx) =>
      modify (swapHead blk bs strxs trx)
      startBlockIfGenerating E clock
      return 1
    | none =>
      modify (moveTransactions oldHeadTrx .pending .head)
      rejectReplacement oldHead
  else rejectReplacement oldHead

def addBlock (clock : Clock) (blk : Block) : NodeM Int := do
  let n ← get
  if n.mBlockChain = [] then return 0
  else
    match n.mBlockStateDb[blk.state]? with
    | none => return -1
    | some bs =>
      if seconds (clock 0) + 30 < blk.utcTime then return -1
      else if blk.prevBlock = E.hashBlock n.back then appendBlock E clock.tail blk bs
      else if blk.prevBlock = n.back.prevBlock then
        if E.hashBlock blk < E.hashBlock n.back then replaceHead E clock.tail blk bs
        else return -3
      else return -1

def store (fbs : FullBlockState) (n : Node) : Node :=
  { n with
    mTrxDb := (TrxDb.store E n.mTrxDb fbs.trxs).1
    mBlockStateDb := n.mBlockStateDb.insert fbs.blk.state fbs.blkState }

def addFirstBlock (fbs : FullBlockState) : NodeM Int := do
  discard <| DbPtr.headTrx.call
    (DbM.applyBlock E fbs.blk fbs.blkState.generatorName [] fbs.blkState.stateDb)
  modify fun n =>
    { n with
      mBlockStateDb := n.mBlockStateDb.insert fbs.blk.state fbs.blkState
      mBlockChain := n.mBlockChain ++ [fbs.blk]
      applied := n.applied ++ [fbs.blkState] }
  return 1

def addFullBlock (clock : Clock) (fbs : FullBlockState) : NodeM Int := do
  let added := (TrxDb.store E (← get).mTrxDb fbs.trxs).2
  modify (store E fbs)
  if (← get).mBlockChain = [] ∧ fbs.index = 0 then addFirstBlock E fbs
  else
    let rtn ← addBlock E clock fbs.blk
    if rtn ≤ 0 ∧ added then startBlockIfGenerating E clock.tail
    return rtn

/-- The exceptions of `add_block` end here. -/
def generatedBlock (clock : Clock) (b : Block) : NodeM Unit := fun n =>
  match addBlock E clock b n with
  | .error (.exception _) n => .ok () n
  | .error e n => .error e n
  | .ok _ n => .ok () n

inductive Call
  | addTransaction (tx : SignedTransaction)
  | addBlock (blk : Block)
  | addFullBlock (fbs : FullBlockState)
  | configureGeneration (gn : Name) (on : Bool)
  | generatedBlock (b : Block)

def Call.run (clock : Clock) : Call → NodeM Unit
  | .addTransaction tx => discard <| Node.addTransaction E clock tx
  | .addBlock blk => discard <| Node.addBlock E clock blk
  | .addFullBlock fbs => discard <| Node.addFullBlock E clock fbs
  | .configureGeneration gn on => Node.configureGeneration E clock gn on
  | .generatedBlock b => Node.generatedBlock E clock b

inductive ReachableBy (allowed : Node → Clock → Call → Prop) : Node → Prop
  | empty : ReachableBy allowed {}
  | call {n n' : Node} {c : Call} {clock : Clock} : ReachableBy allowed n → allowed n clock c →
      c.run E clock n = .ok () n' → ReachableBy allowed n'

abbrev Reachable : Node → Prop := ReachableBy E fun _ _ _ => True

def runAll (clock : Clock) : List Call → NodeM Unit
  | [] => return ()
  | c :: cs => do
    c.run E clock
    runAll clock cs

theorem ReachableBy.runAll {E : Externals} {allowed : Node → Clock → Call →
      Prop} {n n' : Node}
    {clock : Clock} {cs : List Call} (hr : ReachableBy E allowed n)
    (hallow : ∀ n, ∀ c ∈ cs, allowed n clock c) (hok : runAll E clock cs n = .ok () n') :
    ReachableBy E allowed n' := by
  induction cs generalizing n with
  | nil =>
    cases hok
    exact hr
  | cons c cs ih =>
    obtain ⟨u, n₁, hrun, hok⟩ := Lib.of_bind_ok hok
    exact ih (.call hr (hallow n c List.mem_cons_self) hrun)
      (fun n c hc => hallow n c (List.mem_cons_of_mem _ hc)) hok

end Node

end Gpm
