import Mathlib.Logic.Relation
import Gpm.Node.BlockStates
import Gpm.Node.Open

namespace Gpm

def Settles (E : Externals) (bc bc' : BlockChain) : Prop :=
  ∀ i (hi : i < bc.length), ∃ hi' : i < bc'.length,
    bc'[i] = bc[i] ∨ i + 1 = bc.length ∧ bc'[i].prevBlock = bc[i].prevBlock ∧
      E.hashBlock bc'[i] < E.hashBlock bc[i]

namespace Settles

variable {E : Externals} {bc bc' bc'' : BlockChain}

theorem refl (bc : BlockChain) : Settles E bc bc := fun _ hi => ⟨hi, Or.inl rfl⟩

theorem length_le (h : Settles E bc bc') : bc.length ≤ bc'.length := by
  apply Nat.le_of_not_lt
  intro hlt
  obtain ⟨hi, -⟩ := h bc'.length hlt
  exact Nat.lt_irrefl _ hi

theorem trans (h : Settles E bc bc') (h' : Settles E bc' bc'') : Settles E bc bc'' := by
  intro i hi
  obtain ⟨hi', hold⟩ := h i hi
  obtain ⟨hi'', hnew⟩ := h' i hi'
  have hlen := h.length_le
  refine ⟨hi'', ?_⟩
  obtain hsame | ⟨hlast, hprev, hlow⟩ := hnew
  · rw [hsame]
    exact hold
  · have hhead : i + 1 = bc.length := by omega
    obtain hsame | ⟨-, hprev', hlow'⟩ := hold
    · rw [hsame] at hprev hlow
      exact Or.inr ⟨hhead, hprev, hlow⟩
    · exact Or.inr ⟨hhead, hprev.trans hprev', Nat.lt_trans hlow hlow'⟩

end Settles

theorem ChainStep.settles {E : Externals} {bc bc' : BlockChain} (h : ChainStep E bc bc') :
    Settles E bc bc' := by
  intro i hi
  cases h with
  | same => exact ⟨hi, Or.inl rfl⟩
  | first => cases hi
  | append => exact ⟨by simp at hi ⊢; omega, Or.inl (List.getElem_append_left hi)⟩
  | @replace bc b b' hprev hlow =>
    rw [List.length_append, List.length_singleton] at hi
    cases Nat.lt_or_ge i bc.length with
    | inl hlt =>
      refine ⟨by simp; omega, Or.inl ?_⟩
      rw [List.getElem_append_left hlt, List.getElem_append_left hlt]
    | inr hge =>
      obtain rfl : i = bc.length := by omega
      exact ⟨by simp, Or.inr (by simp [hprev, hlow])⟩

namespace Node

inductive Step (E : Externals) : Node → Node → Prop
  | call {n n' : Node} {clock : Clock} {c : Call} : c.run E clock n = .ok () n' → Step E n n'
  | startBlock {n n' : Node} {clock : Clock} : startBlock E clock n = .ok () n' → Step E n n'
  | createGenBlock {n n' : Node} {clock : Clock} {b : Block} :
      createGenBlock E clock n = .ok b n' → Step E n n'

variable {E : Externals} {n n' : Node}

theorem addTransaction_chainStep {clock : Clock} {tx : SignedTransaction} {r : Int}
    (hok : addTransaction E clock tx n = .ok r n') :
    ChainStep E n.mBlockChain n'.mBlockChain := by
  unfold addTransaction at hok
  rw [Lib.get_bind] at hok
  split at hok
  · cases hok
    exact .same _
  · rw [Lib.modify_bind, Lib.get_bind] at hok
    simp only at hok
    split at hok
    · obtain ⟨u, n₁, hstart, hok⟩ := Lib.of_bind_ok hok
      cases hok
      exact (startBlock_effect hstart).chainStep
    · obtain ⟨u, n₁, hcreate, hok⟩ := Lib.of_bind_ok hok
      obtain ⟨b, hcreate⟩ := Lib.of_discard_ok hcreate
      cases hok
      exact (createGenBlock_effect hcreate).chainStep

theorem addFullBlock_chainStep {clock : Clock} {fbs : FullBlockState} {r : Int}
    (hok : addFullBlock E clock fbs n = .ok r n') :
    ChainStep E n.mBlockChain n'.mBlockChain := by
  unfold addFullBlock at hok
  rw [Lib.get_bind, Lib.modify_bind, Lib.get_bind] at hok
  simp only at hok
  split at hok
  · rename_i hfirst
    have hchain := (addFirstBlock_effect hok).blockChain hfirst.1
    have hnil : n.mBlockChain = [] := hfirst.1
    rw [hchain, hnil]
    exact .first _
  · obtain ⟨rtn, n₁, hadd, hok⟩ := Lib.of_bind_ok hok
    have hstep : ChainStep E n.mBlockChain n₁.mBlockChain := (addBlock_chainStep hadd).1
    split at hok
    · rename_i hrejected
      obtain ⟨u, n₂, hstart, hok⟩ := Lib.of_bind_ok hok
      cases hok
      have hsame : n₁.mBlockChain = n.mBlockChain := (addBlock_chainStep hadd).2 hrejected.1
      rw [← hsame]
      exact (startBlockIfGenerating_chainStep hstart).1
    · cases hok
      exact hstep

theorem configureGeneration_chainStep {clock : Clock} {gn : Name} {on : Bool} {u : Unit}
    (hok : configureGeneration E clock gn on n = .ok u n') :
    ChainStep E n.mBlockChain n'.mBlockChain := by
  unfold configureGeneration at hok
  rw [Lib.modify_bind] at hok
  split at hok
  · exact (startBlock_effect hok).chainStep
  · cases hok
    exact .same _

theorem generatedBlock_chainStep (hn : Sound E n) {clock : Clock} {b : Block} {u : Unit}
    (hok : generatedBlock E clock b n = .ok u n') :
    ChainStep E n.mBlockChain n'.mBlockChain := by
  unfold generatedBlock at hok
  split at hok
  · rename_i herr
    cases addBlock_error hn herr
  · cases hok
  · rename_i hadd
    cases hok
    exact (addBlock_chainStep hadd).1

theorem Step.chainStep (h : Step E n n') (hn : Sound E n) :
    ChainStep E n.mBlockChain n'.mBlockChain := by
  cases h with
  | startBlock hok => exact (startBlock_effect hok).chainStep
  | createGenBlock hok => exact (createGenBlock_effect hok).chainStep
  | @call clock c hok =>
    cases c with
    | addTransaction tx =>
      obtain ⟨r, hok⟩ := Lib.of_discard_ok hok
      exact addTransaction_chainStep hok
    | addBlock blk =>
      obtain ⟨r, hok⟩ := Lib.of_discard_ok hok
      exact (addBlock_chainStep hok).1
    | addFullBlock fbs =>
      obtain ⟨r, hok⟩ := Lib.of_discard_ok hok
      exact addFullBlock_chainStep hok
    | configureGeneration gn on => exact configureGeneration_chainStep hok
    | generatedBlock b => exact generatedBlock_chainStep hn hok

theorem Step.sound (h : Step E n n') (hn : Sound E n) : Sound E n' := by
  cases h with
  | startBlock hok =>
    exact sound_inductive.generation hn (fun _ => trivial) (startBlock_effect hok)
  | createGenBlock hok =>
    exact sound_inductive.generation hn (fun _ => trivial) (createGenBlock_effect hok)
  | call hok => exact sound_inductive.call id hn (Rules.allow_default _ _ _) hok

theorem Step.nonempty (h : Step E n n') (hn : Sound E n) (hne : n.mBlockChain ≠ []) :
    n'.mBlockChain ≠ [] := by
  intro hnil
  have hstep := h.chainStep hn
  rw [hnil] at hstep
  exact hne hstep.eq_nil

section Errors

variable {clock : Clock} {e : Fault}

theorem startBlockIfGenerating_error (hn : Sound E n)
    (herr : startBlockIfGenerating E clock n = .error e n') : e = .diverges := by
  unfold startBlockIfGenerating at herr
  rw [Lib.get_bind] at herr
  split at herr
  · exact startBlock_error hn herr
  · cases herr

theorem addTransaction_error (hn : Sound E n) {tx : SignedTransaction}
    (herr : addTransaction E clock tx n = .error e n') : e = .diverges := by
  unfold addTransaction at herr
  rw [Lib.get_bind] at herr
  split at herr
  · cases herr
  · rename_i hnew
    rw [Lib.modify_bind, Lib.get_bind] at herr
    have hlearn : Sound E (n.learn E tx) := hn.withPool (hn.pool.insert hnew)
    have hn₁ : Sound E { n.learn E tx with signals := n.signals ++ [.newTransaction tx] } :=
      hlearn.generated (generated_of_eq rfl rfl rfl rfl rfl rfl rfl rfl)
    simp only at herr
    split at herr
    · obtain herr | ⟨u, n₁, -, herr⟩ := Lib.of_bind_error herr
      · exact startBlock_error hn₁ herr
      · cases herr
    · obtain herr | ⟨u, n₁, -, herr⟩ := Lib.of_bind_error herr
      · exact createGenBlock_error hn₁ (Lib.of_discard_error herr)
      · cases herr

theorem Sound.store (hn : Sound E n) (fbs : FullBlockState) : Sound E (n.store E fbs) := by
  have hstored := sound_inductive.storeTransactions hn
    (Rules.learnsAll_of_forall (fun _ _ => trivial) n fbs.trxs)
  exact ⟨hstored.head, hstored.state, hstored.inFile, hstored.committed, hstored.headTrx,
    hstored.pool, hstored.diskPool⟩

theorem addFullBlock_error (hn : Sound E n) {fbs : FullBlockState}
    (herr : addFullBlock E clock fbs n = .error e n') : e = .diverges := by
  have hn₁ := hn.store fbs
  unfold addFullBlock at herr
  rw [Lib.get_bind, Lib.modify_bind, Lib.get_bind] at herr
  simp only at herr
  split at herr
  · obtain herr | ⟨u, n₁, -, herr⟩ := Lib.of_bind_error herr
    · obtain ⟨db, happ⟩ := DbPtr.of_call_error (Lib.of_discard_error herr)
      exact DbM.applyBlock_error hn₁.head happ
    · cases herr
  · obtain herr | ⟨rtn, n₁, hadd, herr⟩ := Lib.of_bind_error herr
    · exact addBlock_error hn₁ herr
    · split at herr
      · obtain herr | ⟨u, n₂, -, herr⟩ := Lib.of_bind_error herr
        · exact startBlockIfGenerating_error (sound_inductive.addBlock hn₁ trivial hadd) herr
        · cases herr
      · cases herr

theorem configureGeneration_error (hn : Sound E n) {gn : Name} {on : Bool}
    (herr : configureGeneration E clock gn on n = .error e n') : e = .diverges := by
  unfold configureGeneration at herr
  rw [Lib.modify_bind] at herr
  have hn₁ : Sound E { n with
      mGenName := gn, mGenEnabled := on,
      signals := n.signals ++ [.generationStateChanged gn on] } :=
    hn.generated (generated_of_eq rfl rfl rfl rfl rfl rfl rfl rfl)
  split at herr
  · exact startBlock_error hn₁ herr
  · cases herr

theorem generatedBlock_error (hn : Sound E n) {b : Block}
    (herr : generatedBlock E clock b n = .error e n') : e = .diverges := by
  unfold generatedBlock at herr
  split at herr
  · cases herr
  · rename_i hadd
    cases herr
    exact addBlock_error hn hadd
  · cases herr

theorem run_error (hn : Sound E n) {c : Call} (herr : c.run E clock n = .error e n') :
    e = .diverges := by
  cases c with
  | addTransaction tx => exact addTransaction_error hn (Lib.of_discard_error herr)
  | addBlock blk => exact addBlock_error hn (Lib.of_discard_error herr)
  | addFullBlock fbs => exact addFullBlock_error hn (Lib.of_discard_error herr)
  | configureGeneration gn on => exact configureGeneration_error hn herr
  | generatedBlock b => exact generatedBlock_error hn herr

end Errors

inductive Live (E : Externals) : Node → Prop
  | empty : Live E {}
  | step {n n' : Node} : Live E n → Step E n n' → Live E n'
  | reopen {n n' : Node} : Live E n → reopen E n = .ok () n' → Live E n'

theorem Live.sound (h : Live E n) : Sound E n := by
  induction h with
  | empty => exact Sound.empty
  | step _ hstep ih => exact hstep.sound ih
  | reopen _ hok ih => exact ih.reopen hok

open Relation (ReflTransGen)

/-- Blocks with a successor are final, and the head only gives way to a lower hash.  Calls that do
not return loop; what log lines read is left out. -/
theorem chain_final (hn : Live E n) :
    (∀ n', Step E n n' → ChainStep E n.mBlockChain n'.mBlockChain) ∧
      (∀ n', ReflTransGen (Step E) n n' → Settles E n.mBlockChain n'.mBlockChain) ∧
        ∀ clock c e n', Call.run E clock c n = .error e n' → e = .diverges := by
  refine ⟨fun n' hstep => hstep.chainStep hn.sound, fun n' hrun => ?_,
    fun clock c e n' herr => run_error hn.sound herr⟩
  have key : Sound E n' ∧ Settles E n.mBlockChain n'.mBlockChain := by
    induction hrun with
    | refl => exact ⟨hn.sound, Settles.refl _⟩
    | tail _ hstep ih => exact ⟨hstep.sound ih.1, ih.2.trans (hstep.chainStep ih.1).settles⟩
  exact key.2

theorem live_firstNode : Live (Wire.externals nonceHash) firstNode :=
  .step .empty (.call (Lib.eq_ok_of_returned (by decide +kernel)))

theorem chain_final_firstNode :
    (∀ n', Step (Wire.externals nonceHash) firstNode n' →
      ChainStep (Wire.externals nonceHash) firstNode.mBlockChain n'.mBlockChain) ∧
      (∀ n', ReflTransGen (Step (Wire.externals nonceHash)) firstNode n' →
        Settles (Wire.externals nonceHash) firstNode.mBlockChain n'.mBlockChain) ∧
        ∀ clock c e n', Call.run (Wire.externals nonceHash) clock c firstNode = .error e n' →
          e = .diverges :=
  chain_final live_firstNode

end Node

end Gpm
