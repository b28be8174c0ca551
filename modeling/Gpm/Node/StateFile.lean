import Gpm.Node.Books
import Gpm.Node.Restart

namespace Gpm

namespace Node

open Relation (ReflTransGen)

variable {E : Externals} {n n' : Node}

def StepOrReopen (E : Externals) (n n' : Node) : Prop := Step E n n' ∨ reopen E n = .ok () n'

theorem content_eq (hn : Sound E n) : n.mStateDb.mFile.content = n.stateDb.flat := by
  change _ = n.mStateDb.mFile.content ++ n.mStateDb.toLayer.localChanges
  rw [hn.committed]
  exact (List.append_nil _).symm

theorem file_inductive (bytes : List UInt8) : Inductive E begun (Sound E) fun n =>
    n.mBlockChain ≠ [] → bytes <+: n.stateDb.flat where
  empty hne := absurd rfl hne
  generated _ h hgen hne := by
    rw [hgen.blockChain] at hne
    obtain ⟨p, -, hstate, -⟩ := hgen.moves
    rw [hstate, Database.flat_moved]
    exact h hne
  learn _ h _ _ := h
  store _ h _ := h
  start _ _ _ hrule := by
    obtain ⟨-, -, hno⟩ | ⟨t, hno, -⟩ := hrule
    · exact hno.elim
    · exact hno.elim
  refused _ h _ _ _ := h
  appended hn h _ hext ha _ := by
    rw [(hn.settle ha).flat, Database.flat_moved]
    exact (h hext.nonempty).trans (List.prefix_append _ _)
  replaced _ h _ hcomp _ _ := h hcomp.nonempty

theorem Live.flat_eq_nil (hn : Live E n) (hE : TrailingPrevious E) (hnil : n.mBlockChain = []) :
    n.stateDb.flat = [] := by
  have hhead := (hn.persisted hE).head
  rw [hnil] at hhead
  have hflat : n.stateDb.flat ++ n.mHeadTrx.localChanges = [] := hhead.logs_nil.flat
  exact (List.append_eq_nil_iff.mp hflat).1

/-- The state file is only written behind its end, on every run and over every restart. -/
theorem stateFile_prefix (hE : TrailingPrevious E) (hn : Live E n)
    (hrun : ReflTransGen (StepOrReopen E) n n') :
    n.mStateDb.mFile.content <+: n'.mStateDb.mFile.content := by
  have key : Live E n' ∧ n.mStateDb.mFile.content <+: n'.mStateDb.mFile.content := by
    induction hrun with
    | refl => exact ⟨hn, List.prefix_rfl⟩
    | @tail m m' _ hnext ih =>
      obtain ⟨hm, hprefix⟩ := ih
      obtain hstep | hopen := hnext
      · refine ⟨hm.step hstep, hprefix.trans ?_⟩
        rw [content_eq hm.sound, content_eq (hm.step hstep).sound]
        by_cases hne : m.mBlockChain = []
        · rw [hm.flat_eq_nil hE hne]
          exact List.nil_prefix
        · exact (file_inductive m.stateDb.flat).step hm.sound (fun _ => List.prefix_rfl) hne hstep
            (hstep.nonempty hm.sound hne)
      · refine ⟨hm.reopen hopen, hprefix.trans ?_⟩
        obtain ⟨b, p, -, -, rfl⟩ := of_synchronizeState hopen
        exact List.prefix_rfl
  exact key.2

theorem stateFile_prefix_refundedNode :
    settledNode.mStateDb.mFile.content <+:
      (Lib.finalState (reopen lengthExternals refundedNode)).mStateDb.mFile.content := by
  have hE : TrailingPrevious lengthExternals := trailingPrevious_wire nonceHash
  have hstarted : Live lengthExternals startedNode :=
    .step .empty (.call (Lib.eq_ok_of_returned (by decide +kernel)))
  have hpaid : Live lengthExternals paidNode :=
    .step hstarted (.call (Lib.eq_ok_of_returned (by decide +kernel)))
  have hsettled : Live lengthExternals settledNode :=
    .step hpaid (.call (Lib.eq_ok_of_returned (by decide +kernel)))
  have hopen : StepOrReopen lengthExternals refundedNode
      (Lib.finalState (reopen lengthExternals refundedNode)) :=
    Or.inr (Lib.eq_ok_of_returned (by decide +kernel))
  exact stateFile_prefix hE hsettled (.tail (.single (Or.inl step_refundedNode)) hopen)

end Node

end Gpm
