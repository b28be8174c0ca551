import Gpm.Node.Groups

namespace Gpm

namespace Node

variable {E : Externals} {n n' : Node} {bs : BlockState} {h : Hashcode}

def included (bss : List BlockState) : List Hashcode := bss.flatMap BlockState.signedTransactions

def Fresh (bss : List BlockState) (bs : BlockState) : Prop :=
  bs.signedTransactions.Nodup ∧
    ∀ b ∈ bss.head?, ∀ h ∈ bs.signedTransactions, h ∉ b.signedTransactions

def freshRules (E : Externals) : Rules where
  starts _ _ bs := bs.signedTransactions.Nodup
  adds n clock blk := ∀ bs, (Extends E clock n blk bs → Fresh n.applied bs) ∧
    (Competes E clock n blk bs → Fresh n.applied.dropLast bs)

structure Once (stage : Hashcode → Option Group) (bss : List BlockState) : Prop where
  nodup : (included bss).Nodup
  head : ∀ bs ∈ bss.tail.getLast?, ∀ h ∈ bs.signedTransactions, stage h = some .head
  applied : ∀ bs ∈ bss.tail.dropLast, ∀ h ∈ bs.signedTransactions, stage h = some .applied

namespace Once

variable {stage stage' : Hashcode → Option Group} {bss : List BlockState}

theorem congr (hn : Once stage bss)
    (hhead : ∀ h, stage h = some .head → stage' h = some .head)
    (happlied : ∀ h, stage h = some .applied → stage' h = some .applied) : Once stage' bss :=
  ⟨hn.nodup, fun bs hbs h hh => hhead h (hn.head bs hbs h hh),
    fun bs hbs h hh => happlied h (hn.applied bs hbs h hh)⟩

theorem singleton (hbs : bs.signedTransactions.Nodup) : Once stage [bs] where
  nodup := by
    rw [included, List.flatMap_singleton]
    exact hbs
  head _ hbs := by cases hbs
  applied _ hbs := by cases hbs

theorem settled (hn : Once stage bss) {bs : BlockState} (hbs : bs ∈ bss.tail)
    (hh : h ∈ bs.signedTransactions) : stage h = some .head ∨ stage h = some .applied := by
  by_cases hlast : bs ∈ bss.tail.getLast?
  · exact Or.inl (hn.head bs hlast h hh)
  · have hdrop := List.mem_dropLast_of_mem_of_ne_getLast? hbs fun heq => hlast heq.symm
    exact Or.inr (hn.applied bs hdrop h hh)

theorem concat_nodup (hnodup : (included bss).Nodup) (hfresh : Fresh bss bs)
    (hdisjoint : ∀ bs' ∈ bss.tail, ∀ h ∈ bs'.signedTransactions,
      h ∉ bs.signedTransactions) :
    (included (bss ++ [bs])).Nodup := by
  rw [included, List.flatMap_append, List.flatMap_singleton, List.nodup_append']
  refine ⟨hnodup, hfresh.1, fun h hold hnew => ?_⟩
  obtain ⟨bs', hbs', hmem⟩ := List.mem_flatMap.mp hold
  cases bss with
  | nil => cases hbs'
  | cons b rest =>
    cases hbs' with
    | head => exact hfresh.2 _ rfl h hnew hmem
    | tail _ hbs' => exact hdisjoint bs' hbs' h hmem hnew

theorem append (hn : Once stage bss) (hne : bss ≠ []) (hfresh : Fresh bss bs)
    (hpending : ∀ h ∈ bs.signedTransactions, stage h = some .pending)
    (hhead : ∀ h, stage h = some .head → stage' h = some .applied)
    (happlied : ∀ h, stage h = some .applied → stage' h = some .applied)
    (hnew : ∀ h ∈ bs.signedTransactions, stage' h = some .head) :
    Once stage' (bss ++ [bs]) := by
  have htail : (bss ++ [bs]).tail = bss.tail ++ [bs] := List.tail_append_of_ne_nil hne
  constructor
  · apply concat_nodup hn.nodup hfresh
    intro bs' hbs' h hold hmem
    have hsettled := hn.settled hbs' hold
    rw [hpending h hmem] at hsettled
    simp at hsettled
  · rw [htail, List.getLast?_concat]
    intro bs' hbs'
    cases hbs'
    exact hnew
  · rw [htail, List.dropLast_concat]
    intro bs' hbs' h hmem
    exact (hn.settled hbs' hmem).elim (hhead h) (happlied h)

theorem replace (hn : Once stage bss) (hfresh : Fresh bss.dropLast bs)
    (hfree : ∀ h ∈ bs.signedTransactions, stage h ≠ some .applied)
    (happlied : ∀ h, stage h = some .applied → stage' h = some .applied)
    (hnew : ∀ h ∈ bs.signedTransactions, stage' h = some .head) :
    Once stage' (bss.dropLast ++ [bs]) := by
  by_cases hne : bss.dropLast = []
  · rw [hne]
    exact singleton hfresh.1
  · have htail : (bss.dropLast ++ [bs]).tail = bss.tail.dropLast ++ [bs] := by
      rw [List.tail_append_of_ne_nil hne, List.tail_dropLast]
    constructor
    · apply concat_nodup _ hfresh
      · intro bs' hbs' h hold hmem
        rw [List.tail_dropLast] at hbs'
        exact hfree h hmem (hn.applied bs' hbs' h hold)
      · exact hn.nodup.sublist ((List.dropLast_sublist bss).flatMap _)
    · rw [htail, List.getLast?_concat]
      intro bs' hbs'
      cases hbs'
      exact hnew
    · rw [htail, List.dropLast_concat]
      exact fun bs' hbs' h hmem => happlied h (hn.applied bs' hbs' h hmem)

end Once

namespace Once

variable {bss : List BlockState} {bs' : BlockState} (hp : n.mTrxDb.Pool E)
  (hn : Once n.mTrxDb.stage bss)

include hp hn

theorem learn {t : SignedTransaction} (hnew : ¬ n.mTrxDb.knows (E.hashSignedTrx t)) :
    Once (n.learn E t).mTrxDb.stage bss :=
  hn.congr (fun _ => stage_learn hp hnew) fun _ => stage_learn hp hnew

theorem competed (bs : BlockState) :
    Once ((n.competing bs).moveTransactions bs.signedTransactions .pending .head).stage bss := by
  refine hn.congr (fun h hh => ?_) fun h hh => ?_
  · rw [stage_competed bs hp, hh, ite_self]
  · rw [stage_competed bs hp, hh]
    simp

variable {blk : Block} {strxs : List SignedTransaction} {l : Layer} {p : ℕ}

theorem settleHead (hne : bss ≠ []) (hfresh : Fresh bss bs')
    (hmem : ∀ h ∈ bs'.signedTransactions, h ∈ bs.signedTransactions)
    (ha : Attaches E n.headDb n.mTrxDb blk bs strxs l p) :
    Once (settleHead blk bs strxs l ((n.pushBack blk).moved p)).mTrxDb.stage (bss ++ [bs']) := by
  have hpending := hp.lists_iff.mp ⟨strxs, ha.lists⟩
  refine hn.append hne hfresh (fun h hh => hpending h (hmem h hh)) (fun h hh => ?_)
    (fun h hh => ?_) fun h hh => ?_
  · rw [stage_settleHead bs hp, if_pos hh]
  · rw [stage_settleHead bs hp, hh]
    simp
  · rw [stage_settleHead bs hp, hpending h (hmem h hh)]
    simp [hmem h hh]

theorem swapHead (hfresh : Fresh bss.dropLast bs')
    (hmem : ∀ h ∈ bs'.signedTransactions, h ∈ bs.signedTransactions)
    (ha : Attaches E n.stateDb (n.competing bs) blk bs strxs l p) :
    Once (swapHead blk bs strxs l
      { (n.setBack blk).moved p with mTrxDb := n.competing bs }).mTrxDb.stage
        (bss.dropLast ++ [bs']) := by
  have hfree := fun h hh => stage_of_lists_competing bs hp ha.lists h (hmem h hh)
  refine hn.replace hfresh (fun h hh => ?_) (fun h hh => ?_) fun h hh => ?_
  · obtain hs | hs := hfree h hh <;> simp [hs]
  · rw [stage_swapHead bs hp, hh]
    simp
  · rw [stage_swapHead bs hp, if_pos ⟨hmem h hh, hfree h hh⟩]

end Once

structure IncludedOnce (n : Node) : Prop where
  length : n.applied.length = n.mBlockChain.length
  once : Once n.mTrxDb.stage n.applied

namespace IncludedOnce

theorem learn (hn : IncludedOnce n) (hp : n.mTrxDb.Pool E) {t : SignedTransaction}
    (hnew : ¬ n.mTrxDb.knows (E.hashSignedTrx t)) : IncludedOnce (n.learn E t) :=
  ⟨hn.length, hn.once.learn hp hnew⟩

theorem start (hn : IncludedOnce n) (hnil : n.mBlockChain = []) {tried : Bool} {blk : Block}
    (hbs : bs.signedTransactions.Nodup) (hstart : Starts E tried n blk bs n') :
    IncludedOnce n' := by
  obtain ⟨p, -, rfl⟩ := hstart
  have happlied : n.applied = [] :=
    List.length_eq_zero_iff.mp (hn.length.trans (congrArg List.length hnil))
  refine ⟨?_, ?_⟩
  · simp only [started, List.length_append, List.length_singleton]
    exact congrArg (· + 1) hn.length
  · simp only [started, happlied, List.nil_append]
    exact Once.singleton hbs

theorem refused (hn : IncludedOnce n) (hp : n.mTrxDb.Pool E) :
    IncludedOnce { n with
      mTrxDb := (n.competing bs).moveTransactions bs.signedTransactions .pending .head } :=
  ⟨hn.length, hn.once.competed hp bs⟩

variable {clock : Clock} {blk : Block} {strxs : List SignedTransaction} {l : Layer} {p : ℕ}

theorem appended (hn : IncludedOnce n) (hp : n.mTrxDb.Pool E) (hfresh : Fresh n.applied bs)
    (hext : Extends E clock n blk bs) (ha : Attaches E n.headDb n.mTrxDb blk bs strxs l p) :
    IncludedOnce (settleHead blk bs strxs l ((n.pushBack blk).moved p)) := by
  have hne : n.applied ≠ [] := by
    intro hnil
    have hlen := hn.length
    rw [hnil] at hlen
    exact hext.nonempty (List.length_eq_zero_iff.mp hlen.symm)
  refine ⟨?_, hn.once.settleHead hp hne hfresh (fun _ hh => hh) ha⟩
  simp only [Node.settleHead, moved, pushBack, List.length_append, List.length_singleton, hn.length]

theorem replaced (hn : IncludedOnce n) (hp : n.mTrxDb.Pool E) (hfresh : Fresh n.applied.dropLast bs)
    (ha : Attaches E n.stateDb (n.competing bs) blk bs strxs l p) :
    IncludedOnce (swapHead blk bs strxs l
      { (n.setBack blk).moved p with mTrxDb := n.competing bs }) := by
  refine ⟨?_, hn.once.swapHead hp hfresh (fun _ hh => hh) ha⟩
  simp only [Node.swapHead, moved, setBack, List.length_append, List.length_singleton,
    List.length_dropLast, hn.length]

end IncludedOnce

theorem includedOnce_inductive :
    Inductive E (freshRules E) (Sound E) IncludedOnce where
  empty := ⟨rfl, ⟨List.nodup_nil, fun _ h => by simp at h, fun _ h => by simp at h⟩⟩
  generated _ hn hgen := by
    refine ⟨?_, ?_⟩
    · rw [hgen.applied, hgen.blockChain]
      exact hn.length
    · rw [hgen.applied, hgen.trxDb]
      exact hn.once
  learn hs hn hnew _ := hn.learn hs.pool hnew
  store _ hn _ := ⟨hn.length, hn.once⟩
  start _ hn hnil hrule hstart := by
    obtain ⟨-, -, hbs⟩ | ⟨t, -, hgenesis⟩ := hrule
    · exact hn.start hnil hbs hstart
    · apply hn.start hnil _ hstart
      rw [hgenesis.signedTransactions]
      exact List.nodup_nil
  refused hs hn _ _ _ := hn.refused hs.pool
  appended hs hn hadd hext ha := hn.appended hs.pool ((hadd _).1 hext) hext ha
  replaced hs hn hadd hcomp ha := hn.replaced hs.pool ((hadd _).2 hcomp) ha

/-- Along runs whose blocks list fresh transactions, none is included twice. -/
theorem included_once (hr : ReachableBy E ((freshRules E).allow E) n) :
    (included n.applied).Nodup :=
  (includedOnce_inductive.reachable hr).once.nodup

theorem included_once_heavyBlock :
    ∃ n : Node, included n.applied ≠ [] ∧ (included n.applied).Nodup := by
  have hfirst : ReachableBy (Wire.externals nonceHash)
      ((freshRules (Wire.externals nonceHash)).allow (Wire.externals nonceHash)) firstNode := by
    apply firstNode_reachable
    refine ⟨fun _ _ => trivial, trivial, trivial, ?_⟩
    rw [if_pos ⟨rfl, rfl⟩]
    exact List.nodup_nil
  have hallow : (freshRules (Wire.externals nonceHash)).allow (Wire.externals nonceHash) firstNode
      noon (.addFullBlock heavyBlock) := by
    refine ⟨fun _ _ => trivial, Rules.learnsAll_of_forall (fun _ _ => trivial) _ _, trivial, ?_⟩
    have hlink : heavyBlock.blk.prevBlock = nonceHash firstNode.back := by decide +kernel
    have hfresh : Fresh firstNode.applied heavyBlock.blkState :=
        ⟨by decide +kernel, by decide +kernel⟩
    rw [if_neg fun hfirst => absurd hfirst.2 (by decide)]
    refine fun bs => ⟨fun hext => ?_, fun hcomp => absurd hlink hcomp.unlinked⟩
    rw [← Option.some.inj (Std.ExtTreeMap.getElem?_insert_self.symm.trans hext.known)]
    exact hfresh
  have hrun : Call.run (Wire.externals nonceHash) noon (.addFullBlock heavyBlock) firstNode =
    .ok () _ := Lib.eq_ok_of_returned (by decide +kernel)
  exact ⟨_, by decide +kernel, included_once (.call hfirst hallow hrun)⟩

def Call.FromPeer : Call → Prop
  | .addTransaction _ | .addBlock _ | .addFullBlock _ => True
  | _ => False

theorem included_twice : ¬ ∀ E n, ReachableBy E (fun _ _ c => c.FromPeer) n →
    (included n.applied).Nodup := by
  intro h
  have hrun : runAll (Wire.externals nonceHash)
      noon [.addFullBlock (firstBlock (Wire.externals nonceHash)),
      .addFullBlock (blockOn (Wire.externals nonceHash) firstNode.headDb 1 35 5 [idle, idle])] {} =
    .ok () _ := Lib.eq_ok_of_returned (by decide +kernel)
  have hnodup := h _ _ (ReachableBy.empty.runAll (by simp [Call.FromPeer]) hrun)
  revert hnodup
  decide +kernel

end Node

end Gpm
