import Gpm.Node.Effects

namespace Gpm

inductive ChainStep (E : Externals) : BlockChain → BlockChain → Prop
  | same (bc : BlockChain) : ChainStep E bc bc
  | first (b : Block) : ChainStep E [] [b]
  | append {bc : BlockChain} {b b' : Block} : b'.prevBlock = E.hashBlock b →
      ChainStep E (bc ++ [b]) (bc ++ [b] ++ [b'])
  | replace {bc : BlockChain} {b b' : Block} : b'.prevBlock = b.prevBlock →
      E.hashBlock b' < E.hashBlock b → ChainStep E (bc ++ [b]) (bc ++ [b'])

namespace ChainStep

variable {E : Externals} {bc bc' : BlockChain}

theorem length_le (h : ChainStep E bc bc') : bc.length ≤ bc'.length := by
  cases h with
  | same => exact Nat.le_refl _
  | first => exact Nat.zero_le _
  | append => simp
  | replace => simp

theorem eq_nil (h : ChainStep E bc []) : bc = [] :=
  List.length_eq_zero_iff.mp (Nat.le_zero.mp h.length_le)

end ChainStep

namespace Node

variable {E : Externals} {clock : Clock} {blk : Block} {bs : BlockState} {r : Int} {n n' : Node}

theorem Extends.chainStep (h : Extends E clock n blk bs) :
    ChainStep E n.mBlockChain (n.mBlockChain ++ [blk]) := by
  rw [← dropLast_append_back h.nonempty]
  exact .append h.linked

theorem Competes.chainStep (h : Competes E clock n blk bs) :
    ChainStep E n.mBlockChain (n.mBlockChain.dropLast ++ [blk]) := by
  have hstep : ChainStep E (n.mBlockChain.dropLast ++ [n.back]) (n.mBlockChain.dropLast ++ [blk]) :=
    .replace h.sibling h.lower
  rwa [dropLast_append_back h.nonempty] at hstep

theorem Starts.blockChain {tried : Bool} (h : Starts E tried n blk bs n')
    (hnil : n.mBlockChain = []) : n'.mBlockChain = [blk] := by
  obtain ⟨p, -, rfl⟩ := h
  exact congrArg (· ++ [blk]) hnil

theorem Generation.chainStep {t : UInt32} (h : Generation E t n n') :
    ChainStep E n.mBlockChain n'.mBlockChain := by
  obtain ⟨-, hgen⟩ | ⟨hnil, tried, b, bs, n₁, -, hstart, hgen⟩ := h
  · rw [hgen.blockChain]
    exact .same _
  · rw [hgen.blockChain, hstart.blockChain hnil, hnil]
    exact .first b

theorem Generation.blockChain {t : UInt32} (h : Generation E t n n') (hne : n.mBlockChain ≠ []) :
    n'.mBlockChain = n.mBlockChain := by
  obtain ⟨-, hgen⟩ | ⟨hnil, -⟩ := h
  · exact hgen.blockChain
  · exact absurd hnil hne

theorem startBlockIfGenerating_chainStep {u : Unit}
    (hok : startBlockIfGenerating E clock n = .ok u n') :
    ChainStep E n.mBlockChain n'.mBlockChain ∧
      (n.mBlockChain ≠ [] → n'.mBlockChain = n.mBlockChain) := by
  unfold startBlockIfGenerating at hok
  rw [Lib.get_bind] at hok
  split at hok
  · have hgen := startBlock_effect hok
    exact ⟨hgen.chainStep, hgen.blockChain⟩
  · cases hok
    exact ⟨.same _, fun _ => rfl⟩

theorem continueGeneration_blockChain (hne : n.mBlockChain ≠ [])
    (hok : continueGeneration E clock n = .ok r n') :
    n'.mBlockChain = n.mBlockChain ∧ r = 1 := by
  obtain ⟨u, n₁, hstart, hok⟩ := Lib.of_bind_ok hok
  cases hok
  exact ⟨(startBlockIfGenerating_chainStep hstart).2 hne, rfl⟩

theorem addBlock_chainStep (hok : addBlock E clock blk n = .ok r n') :
    ChainStep E n.mBlockChain n'.mBlockChain ∧
      (r ≤ 0 → n'.mBlockChain = n.mBlockChain) := by
  have hout := addBlock_outcome (E := E) clock n blk
  rw [hok] at hout
  generalize hres : EStateM.Result.ok r n' = res at hout
  have hne : ∀ bc : BlockChain, bc ++ [blk] ≠ [] := fun bc =>
    List.append_ne_nil_of_right_ne_nil bc (List.cons_ne_nil blk [])
  cases hout with
  | unchanged hr =>
    cases hres
    exact ⟨.same _, fun _ => rfl⟩
  | refused =>
    cases hres
    exact ⟨.same _, fun _ => rfl⟩
  | appended hext hatt =>
    obtain ⟨hchain, rfl⟩ := continueGeneration_blockChain (hne _) hres.symm
    rw [hchain]
    exact ⟨hext.chainStep, fun hr => absurd hr (by decide)⟩
  | replaced hcomp hatt =>
    obtain ⟨hchain, rfl⟩ := continueGeneration_blockChain (hne _) hres.symm
    rw [hchain]
    exact ⟨hcomp.chainStep, fun hr => absurd hr (by decide)⟩
  | failed => cases hres

end Node

end Gpm
