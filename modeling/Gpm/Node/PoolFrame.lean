import Gpm.Node.Accept

namespace Gpm

open Lib (Keeps)

namespace Node

def announced (n : Node) : List SignedTransaction :=
  n.signals.filterMap fun
    | .newTransaction t => some t
    | _ => none

theorem announced_newBlock {n n' : Node} {fbs : FullBlockState}
    (h : n'.signals = n.signals ++ [.newBlock fbs]) : n'.announced = n.announced := by
  simp only [announced, h, List.filterMap_append, List.filterMap_cons, List.filterMap_nil,
    List.append_nil]

theorem announced_generation {n n' : Node} {name : Name} {on : Bool}
    (h : n'.signals = n.signals ++ [.generationStateChanged name on]) :
    n'.announced = n.announced := by
  simp only [announced, h, List.filterMap_append, List.filterMap_cons, List.filterMap_nil,
    List.append_nil]

theorem announced_newTransaction {n n' : Node} {t : SignedTransaction}
    (h : n'.signals = n.signals ++ [.newTransaction t]) : n'.announced = n.announced ++ [t] := by
  simp only [announced, h, List.filterMap_append, List.filterMap_cons, List.filterMap_nil]

structure PoolFrame (R : Node → Node → Prop) : Prop where
  of_eq : ∀ {n n' : Node}, n'.mTrxDb = n.mTrxDb → n'.announced = n.announced → R n n'
  trans : ∀ {n n' n'' : Node}, R n n' → R n' n'' → R n n''
  moveTransactions : ∀ {fromGroup toGroup : Group}, fromGroup ≠ toGroup →
    ∀ l n, R n (n.moveTransactions l fromGroup toGroup)
  moveGroup : ∀ {fromGroup toGroup : Group}, fromGroup ≠ toGroup →
    ∀ n, R n { n with mTrxDb := n.mTrxDb.moveGroup fromGroup toGroup }

namespace PoolFrame

variable {E : Externals} {R : Node → Node → Prop} {α β : Type}

section

variable (hR : PoolFrame R)
include hR

theorem refl (n : Node) : R n n := hR.of_eq rfl rfl

theorem bind {x : NodeM α} {f : α → NodeM β} (hx : Keeps R x) (hf : ∀ a, Keeps R (f a)) :
    Keeps R (x >>= f) :=
  Keeps.bind (R := R) hR.trans hx hf

theorem pure (a : α) : Keeps R (Pure.pure a : NodeM α) := Keeps.pure hR.refl a

theorem modify {f : Node → Node} (hpool : ∀ n, (f n).mTrxDb = n.mTrxDb)
    (hannounced : ∀ n, (f n).announced = n.announced) : Keeps R (modify f : NodeM PUnit) :=
  fun n => hR.of_eq (hpool n) (hannounced n)

theorem call {q : DbPtr} (hpool : ∀ db n, (q.put db n).mTrxDb = n.mTrxDb)
    (hannounced : ∀ db n, (q.put db n).announced = n.announced) (x : DbM α) :
    Keeps R (q.call x) := by
  intro n
  unfold DbPtr.call
  split <;> exact hR.of_eq (hpool _ n) (hannounced _ n)

theorem overlay {q : DbPtr} (hpool : ∀ db n, (q.put db n).mTrxDb = n.mTrxDb)
    (hannounced : ∀ db n, (q.put db n).announced = n.announced) (x : DbM α) :
    Keeps R (q.overlay x) := by
  intro n
  unfold DbPtr.overlay
  split <;> exact hR.of_eq (hpool _ n) (hannounced _ n)

theorem applyPending (l : List (Hashcode × SignedTransaction)) :
    Keeps R (Node.applyPending E l) := by
  induction l with
  | nil => exact hR.pure _
  | cons e rest ih =>
    obtain ⟨h, t⟩ := e
    unfold Node.applyPending
    apply Keeps.get_bind
    intro n
    apply hR.bind (hR.overlay (fun _ _ => rfl) (fun _ _ => rfl) _)
    rintro ⟨ok, l⟩
    cases ok with
    | true =>
      simp only [if_true]
      refine hR.bind (hR.modify (fun _ => rfl) fun _ => rfl) fun _ => ?_
      exact hR.bind ih fun _ => hR.pure _
    | false => exact ih

theorem createFirstBlock (clock : Clock) : Keeps R (Node.createFirstBlock E clock) := by
  unfold Node.createFirstBlock
  apply Keeps.get_bind
  intro n
  apply hR.bind (hR.call (fun _ _ => rfl) (fun _ _ => rfl) _)
  intro hash
  simp only
  split
  · exact hR.bind (Keeps.discard (hR.call (fun _ _ => rfl) (fun _ _ => rfl) _)) fun _ =>
      hR.modify (fun _ => rfl) fun _ => rfl
  · exact hR.modify (fun _ => rfl) fun _ => rfl

theorem createNextBlock (clock : Clock) : Keeps R (Node.createNextBlock E clock) := by
  unfold Node.createNextBlock
  apply Keeps.get_bind
  intro n
  apply hR.bind (hR.applyPending _)
  intro listed
  apply hR.bind (hR.call (fun _ _ => rfl) (fun _ _ => rfl) _)
  intro hash
  exact hR.bind (hR.modify (fun _ => rfl) fun _ => rfl) fun _ => hR.pure _

theorem createGenBlock (clock : Clock) : Keeps R (Node.createGenBlock E clock) := by
  unfold Node.createGenBlock
  refine hR.bind (hR.modify (fun _ => rfl) fun _ => rfl) fun _ => ?_
  apply Keeps.get_bind
  intro n
  split
  · exact hR.bind (hR.createFirstBlock clock) fun _ => hR.createNextBlock clock
  · exact hR.createNextBlock clock

theorem startBlock (clock : Clock) : Keeps R (Node.startBlock E clock) :=
  hR.bind (hR.createGenBlock clock) fun _ => hR.modify (fun _ => rfl) fun _ => rfl

theorem startBlockIfGenerating (clock : Clock) : Keeps R (Node.startBlockIfGenerating E clock) := by
  unfold Node.startBlockIfGenerating
  apply Keeps.get_bind
  intro n
  split
  · exact hR.startBlock clock
  · exact hR.pure _

theorem continueGeneration (clock : Clock) :
    Keeps R (Node.continueGeneration E clock) :=
  hR.bind (hR.startBlockIfGenerating clock) fun _ => hR.pure _

theorem configureGeneration (clock : Clock) (gn : Name) (on : Bool) :
    Keeps R (Node.configureGeneration E clock gn on) := by
  unfold Node.configureGeneration
  refine hR.bind (hR.modify (fun _ => rfl) fun _ => announced_generation rfl) fun _ => ?_
  split
  · exact hR.startBlock clock
  · exact hR.pure _

theorem applyListed {q : DbPtr} (hpool : ∀ db n, (q.put db n).mTrxDb = n.mTrxDb)
    (hannounced : ∀ db n, (q.put db n).announced = n.announced) (blk : Block) (bs : BlockState) :
    Keeps R (Node.applyListed E q blk bs) := by
  unfold Node.applyListed
  apply Keeps.get_bind
  intro n
  simp only
  split
  · exact hR.pure _
  · exact hR.bind (hR.overlay hpool hannounced _) fun _ => hR.pure _

theorem rejectAppended : Keeps R Node.rejectAppended :=
  hR.bind (hR.modify (fun _ => rfl) fun _ => rfl) fun _ => hR.pure _

theorem rejectReplacement (oldHead : Block) :
    Keeps R (Node.rejectReplacement oldHead) :=
  hR.bind (hR.modify (fun _ => rfl) fun _ => rfl) fun _ => hR.pure _

theorem settleHead (blk : Block) (bs : BlockState) (strxs : List SignedTransaction)
    (l : Layer) (n : Node) : R n (Node.settleHead blk bs strxs l n) := by
  have happlied : Group.head ≠ .applied := by decide
  have hpending : Group.pending ≠ .head := by decide
  have hhead := hR.trans (hR.moveGroup happlied n)
    (hR.moveTransactions hpending bs.signedTransactions _)
  exact hR.trans hhead (hR.of_eq rfl (announced_newBlock rfl))

theorem swapHead (blk : Block) (bs : BlockState) (strxs : List SignedTransaction)
    (l : Layer) (n : Node) : R n (Node.swapHead blk bs strxs l n) := by
  have hpending : Group.pending ≠ .head := by decide
  have hhead := hR.moveTransactions hpending bs.signedTransactions n
  exact hR.trans hhead (hR.of_eq rfl (announced_newBlock rfl))

theorem appendBlock (clock : Clock) (blk : Block) (bs : BlockState) :
    Keeps R (Node.appendBlock E clock blk bs) := by
  unfold Node.appendBlock
  refine hR.bind (hR.modify (fun _ => rfl) fun _ => rfl) fun _ => ?_
  apply Keeps.get_bind
  intro n
  split
  · refine hR.bind (hR.applyListed (fun _ _ => rfl) (fun _ _ => rfl) blk bs) fun applied => ?_
    cases applied with
    | none => exact hR.rejectAppended
    | some r =>
      obtain ⟨strxs, trx⟩ := r
      refine hR.bind (hR.settleHead blk bs strxs trx) fun _ => ?_
      exact hR.continueGeneration clock
  · exact hR.rejectAppended

theorem getHeadTransactions : Keeps R Node.getHeadTransactions := by
  unfold Node.getHeadTransactions
  apply Keeps.get_bind
  intro n
  split
  · exact Keeps.throw hR.refl _
  · exact hR.pure _

theorem replaceHead (clock : Clock) (blk : Block) (bs : BlockState) :
    Keeps R (Node.replaceHead E clock blk bs) := by
  unfold Node.replaceHead
  apply Keeps.get_bind
  intro n
  refine hR.bind (hR.modify (fun _ => rfl) fun _ => rfl) fun _ => ?_
  apply Keeps.get_bind
  intro n
  split
  · refine hR.bind hR.getHeadTransactions fun oldHeadTrx => ?_
    refine hR.bind (hR.moveTransactions (by decide) oldHeadTrx) fun _ => ?_
    refine hR.bind (hR.applyListed (fun _ _ => rfl) (fun _ _ => rfl) blk bs) fun applied => ?_
    cases applied with
    | none =>
      refine hR.bind (hR.moveTransactions (by decide) oldHeadTrx) fun _ => ?_
      exact hR.rejectReplacement _
    | some r =>
      obtain ⟨strxs, trx⟩ := r
      refine hR.bind (hR.swapHead blk bs strxs trx) fun _ => ?_
      exact hR.continueGeneration clock
  · exact hR.rejectReplacement _

theorem addBlock (clock : Clock) (blk : Block) :
    Keeps R (Node.addBlock E clock blk) := by
  unfold Node.addBlock
  apply Keeps.get_bind
  intro n
  split
  · exact hR.pure _
  · split
    · exact hR.pure _
    · split
      · exact hR.pure _
      · split
        · exact hR.appendBlock _ _ _
        · split
          · split
            · exact hR.replaceHead _ _ _
            · exact hR.pure _
          · exact hR.pure _

theorem addFirstBlock (fbs : FullBlockState) :
    Keeps R (Node.addFirstBlock E fbs) := by
  unfold Node.addFirstBlock
  refine hR.bind (Keeps.discard (hR.call (fun _ _ => rfl) (fun _ _ => rfl) _)) fun _ => ?_
  exact hR.bind (hR.modify (fun _ => rfl) fun _ => rfl) fun _ => hR.pure _

theorem addFullBlock (clock : Clock) (fbs : FullBlockState) (n : Node) :
    R (n.store E fbs) (Lib.finalState (Node.addFullBlock E clock fbs n)) := by
  unfold Node.addFullBlock
  rw [Lib.get_bind, Lib.modify_bind, Lib.get_bind]
  simp only
  split
  · exact hR.addFirstBlock fbs _
  · refine hR.bind (hR.addBlock clock fbs.blk) (fun rtn => ?_) _
    split
    · exact hR.bind (hR.startBlockIfGenerating _) fun _ => hR.pure _
    · exact hR.pure _

theorem generatedBlock (clock : Clock) (b : Block) :
    Keeps R (Node.generatedBlock E clock b) := by
  intro n
  have h := hR.addBlock (E := E) clock b n
  unfold Node.generatedBlock
  split
  all_goals
    rename_i hrun
    rwa [hrun] at h

end

end PoolFrame

end Node

end Gpm
