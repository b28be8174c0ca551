import Gpm.Node.Groups

namespace Gpm

namespace TrxDb

variable {db : TrxDb} {l : List Hashcode}

theorem moveTransactions_back_iff :
    (db.moveTransactions l .head .pending).moveTransactions l .pending .head = db ↔
      ∀ h ∈ l, db[TrxKey.mk .pending h]? = none := by
  constructor
  · intro heq h hmem
    rw [← heq, getElem?_moveTransactions]
    exact if_pos ⟨hmem, rfl⟩
  · intro hfree
    apply Std.ExtTreeMap.ext_getElem?
    rintro ⟨g, h⟩
    have := hfree h
    rw [getElem?_moveTransactions, getElem?_moveTransactions, getElem?_moveTransactions]
    cases g <;> grind

end TrxDb

namespace Node

structure Unchanged (n n' : Node) : Prop where
  blockChain : n'.mBlockChain = n.mBlockChain
  trxDb : n'.mTrxDb = n.mTrxDb
  stateDb : ∃ p, n'.mStateDb = { n.mStateDb with mFile := n.mStateDb.mFile.seek p }
  headTrx : n'.mHeadTrx = n.mHeadTrx

variable {E : Externals} {clock : Clock} {blk : Block} {r : Int} {n n' : Node}

/-- A rejection is without trace unless a competitor of the head, whose transactions could not be
applied, lists one that is pending. -/
theorem rejected_unchanged_iff (hok : addBlock E clock blk n = .ok r n') (hr : r ≤ 0) :
    Unchanged n n' ↔ ¬ ∃ bs, Competes E clock n blk bs ∧
      ∃ h ∈ bs.signedTransactions, (n.mTrxDb[TrxKey.mk .pending h]?).isSome := by
  have hout := addBlock_outcome (E := E) clock n blk
  rw [hok] at hout
  generalize hres : EStateM.Result.ok r n' = res at hout
  have hne : ∀ bc : BlockChain, bc ++ [blk] ≠ [] := fun bc =>
    List.append_ne_nil_of_right_ne_nil bc (List.cons_ne_nil blk [])
  cases hout with
  | @unchanged _ p _ _ _ hcomp =>
    cases hres
    exact iff_of_true ⟨rfl, rfl, ⟨p, rfl⟩, rfl⟩ fun ⟨bs, hbs, _⟩ => hcomp bs hbs
  | @refused bs p hcomp =>
    cases hres
    have hunique : ∀ bs', Competes E clock n blk bs' → bs' = bs := fun bs' h =>
      Option.some.inj (h.known.symm.trans hcomp.known)
    have hmoves : (n.competing bs).moveTransactions bs.signedTransactions .pending .head =
        n.mTrxDb ↔ _ := TrxDb.moveTransactions_back_iff
    constructor
    · rintro h ⟨bs', hbs', t, hmem, hpending⟩
      rw [hunique bs' hbs'] at hmem
      rw [hmoves.mp h.trxDb t hmem] at hpending
      cases hpending
    · intro h
      refine ⟨rfl, hmoves.mpr fun t hmem => ?_, ⟨p, rfl⟩, rfl⟩
      apply Option.not_isSome_iff_eq_none.mp
      exact fun hpending => h ⟨bs, hcomp, t, hmem, hpending⟩
  | appended =>
    obtain ⟨-, rfl⟩ := continueGeneration_blockChain (hne _) hres.symm
    exact absurd hr (by decide)
  | replaced =>
    obtain ⟨-, rfl⟩ := continueGeneration_blockChain (hne _) hres.symm
    exact absurd hr (by decide)
  | failed => cases hres

def emptyState : BlockState := ⟨1, [], 0, []⟩

def emptyStateKnown : List Call :=
  [.addFullBlock (blockOn (Wire.externals nonceHash) firstNode.headDb 1 35 5 []),
    .addFullBlock
      { blk := { prevBlock := 77, state := (Wire.externals nonceHash).hashBlockState emptyState }
        blkState := emptyState
        trxs := [] }]

def emptyStateNode : Node :=
  Lib.finalState (runAll (Wire.externals nonceHash) noon emptyStateKnown firstNode)

def emptyRival : Block :=
  { prevBlock := 1, utcTime := 35, nonce := 2,
    state := (Wire.externals nonceHash).hashBlockState emptyState }

theorem rejected_unchanged_emptyRival :
    ∃ n', addBlock (Wire.externals nonceHash) noon emptyRival emptyStateNode = .ok (-3) n' ∧
      Unchanged emptyStateNode n' := by
  have hknown : emptyStateNode.mBlockStateDb[emptyRival.state]? = some emptyState := by
    decide +kernel
  have hrun : addBlock (Wire.externals nonceHash) noon emptyRival emptyStateNode = .ok (-3) _ :=
    Lib.eq_ok_of_returned (by decide +kernel)
  refine ⟨_, hrun, (rejected_unchanged_iff hrun (by decide)).mpr ?_⟩
  rintro ⟨bs, hcomp, t, ht, -⟩
  cases hknown.symm.trans hcomp.known
  cases ht

def wrongState : BlockState := ⟨1, [], 0, [(Wire.externals nonceHash).hashSignedTrx idle]⟩

def wrongStateKnown : List Call :=
  [.addTransaction idle,
    .addFullBlock (blockOn (Wire.externals nonceHash) firstNode.headDb 1 35 5 []),
    .addFullBlock
      { blk := { prevBlock := 77, state := (Wire.externals nonceHash).hashBlockState wrongState }
        blkState := wrongState
        trxs := [] }]

theorem rejected_changed : ¬ ∀ E n clock blk r n', Reachable E n →
    addBlock E clock blk n = .ok r n' → r ≤ 0 → Unchanged n n' := by
  intro h
  let rival : Block :=
    { prevBlock := 1, utcTime := 35, nonce := 2,
      state := (Wire.externals nonceHash).hashBlockState wrongState }
  have hrun : runAll (Wire.externals nonceHash) noon wrongStateKnown firstNode = .ok () _ :=
    Lib.eq_ok_of_returned (by decide +kernel)
  have hreach := reachable_firstNode.runAll (fun _ _ _ => trivial) hrun
  have hadd : addBlock (Wire.externals nonceHash) noon rival (Lib.finalState
      (runAll (Wire.externals nonceHash) noon wrongStateKnown firstNode)) = .ok (-3) _ :=
    Lib.eq_ok_of_returned (by decide +kernel)
  have hsame :=
      congrArg (fun db : TrxDb => db.stage ((Wire.externals nonceHash).hashSignedTrx idle))
    (h _ _ _ _ _ _ hreach hadd (by decide)).trxDb
  revert hsame
  decide +kernel

end Node

end Gpm
