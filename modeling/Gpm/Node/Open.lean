import Gpm.Node.Generation
import Gpm.StateDb.LastBlock

namespace Gpm

namespace Node

variable (E : Externals)

/-- The loop of `synchronize_state` that cuts the chain behind the block the state ends in. -/
def resizeChain (prevBlock : Hashcode) (bc : BlockChain) : ℕ → BlockChain
  | 0 => bc
  | i + 1 =>
    if (bc.getD i default).prevBlock = prevBlock then bc.take (i + 1)
    else resizeChain prevBlock bc i

def synchronizeState : NodeM Unit := do
  let b ← DbPtr.stateDb.call (DbM.findLastBlock E)
  modify fun n =>
    let bc := resizeChain b.prevBlock n.mBlockChain n.mBlockChain.length
    { n with mBlockChain := bc, applied := n.applied.take bc.length }

def load (n : Node) : Node where
  mBlockChain := n.disk.blockChain
  mStateDb :=
    { mFile := { content := n.mStateDb.mFile.content }
      mTransferDb := n.mStateDb.mTransferDb
      mNameDb := n.mStateDb.mNameDb }
  mTrxDb := n.disk.trxDb
  mBlockStateDb := n.disk.blockStateDb
  disk := n.disk
  applied := n.applied.take n.disk.blockChain.length

/-- `open` on the data directory a node leaves behind. -/
def reopen (n : Node) : EStateM.Result Fault Node Unit := synchronizeState E n.load

variable {E} {n n' : Node}

theorem stateDb_load (h : Sound E n) : n.load.stateDb = n.stateDb.moved 0 := by
  have hlayer := h.committed
  change Database.file { n.mStateDb with toLayer := {}, mFile := _ } = _
  rw [← hlayer]
  rfl

theorem Sound.load (h : Sound E n) : Sound E n.load where
  head := by
    rw [headDb, stateDb_load h]
    exact (h.state.moved 0).overlay
  state := by
    rw [stateDb_load h]
    exact h.state.moved 0
  inFile := Nat.zero_le _
  committed := rfl
  headTrx _ := rfl
  pool := h.diskPool
  diskPool := h.diskPool

theorem of_synchronizeState (hok : synchronizeState E n = .ok () n') :
    ∃ b p, (n.stateDb.InFile → p ≤ n.mStateDb.mFile.size) ∧
      DbM.findLastBlock E n.stateDb = .ok b (n.stateDb.moved p) ∧
      n' = { n.moved p with
        mBlockChain := resizeChain b.prevBlock n.mBlockChain n.mBlockChain.length
        applied := n.applied.take
          (resizeChain b.prevBlock n.mBlockChain n.mBlockChain.length).length } := by
  obtain ⟨b, n₁, hcall, hok⟩ := Lib.of_bind_ok hok
  obtain ⟨db, hfind, rfl⟩ := DbPtr.of_call hcall
  have hmoves := Moves.of_findLastBlock (E := E) n.stateDb
  change DbM.findLastBlock E n.stateDb = _ at hfind
  rw [hfind] at hmoves
  obtain ⟨p, hp, rfl⟩ := hmoves
  cases hok
  exact ⟨b, p, hp, hfind, rfl⟩

theorem Sound.reopen (h : Sound E n) (hok : reopen E n = .ok () n') : Sound E n' := by
  obtain ⟨b, p, hp, -, rfl⟩ := of_synchronizeState hok
  have hload := h.load
  exact ⟨hload.head.moved p, hload.state.moved p, hp (Nat.zero_le _), rfl, fun _ => rfl,
    hload.pool, hload.diskPool⟩

end Node

end Gpm
