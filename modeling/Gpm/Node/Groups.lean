import Gpm.Node.BlockStates
import Gpm.Node.Stage

namespace Gpm

namespace Node

variable {E : Externals} {n n' : Node} {bs : BlockState} {h : Hashcode}

section Stages

variable (hp : n.mTrxDb.Pool E)

include hp

theorem stage_learn {t : SignedTransaction} (hnew : ¬ n.mTrxDb.knows (E.hashSignedTrx t))
    {g : Group} (hg : n.mTrxDb.stage h = some g) : (n.learn E t).mTrxDb.stage h = some g := by
  have hstage : (n.learn E t).mTrxDb.stage h = _ := hp.stage_insert hnew
  rw [hstage, if_neg, hg]
  rintro rfl
  rw [TrxDb.knows_iff_stage, hg] at hnew
  exact hnew (Option.some_ne_none g)

variable (bs)

theorem stage_competing : (n.competing bs).stage h =
    if h ∈ bs.signedTransactions ∧ n.mTrxDb.stage h = some .head then some .pending
    else n.mTrxDb.stage h :=
  hp.stage_moveTransactions (by decide) _

theorem stage_of_lists_competing {strxs : List SignedTransaction}
    (hlists : (n.competing bs).Lists .pending bs.signedTransactions strxs) :
    ∀ h ∈ bs.signedTransactions,
      n.mTrxDb.stage h = some .head ∨ n.mTrxDb.stage h = some .pending := by
  intro h hmem
  have hpool : (n.competing bs).Pool E := hp.moveTransactions _ _ _
  have hs := hpool.lists_iff.mp ⟨strxs, hlists⟩ h hmem
  rw [stage_competing bs hp] at hs
  grind

theorem stage_competed :
    ((n.competing bs).moveTransactions bs.signedTransactions .pending .head).stage h =
      if h ∈ bs.signedTransactions ∧
          (n.mTrxDb.stage h = some .head ∨ n.mTrxDb.stage h = some .pending) then some .head
      else n.mTrxDb.stage h := by
  have hpool : (n.competing bs).Pool E := hp.moveTransactions _ _ _
  rw [hpool.stage_moveTransactions (by decide), stage_competing bs hp]
  grind

variable (blk : Block) (strxs : List SignedTransaction) (l : Layer) (p : ℕ)

theorem stage_settleHead :
    (settleHead blk bs strxs l ((n.pushBack blk).moved p)).mTrxDb.stage h =
      if n.mTrxDb.stage h = some .head then some .applied
      else if h ∈ bs.signedTransactions ∧ n.mTrxDb.stage h = some .pending then some .head
      else n.mTrxDb.stage h := by
  change ((n.mTrxDb.moveGroup .head .applied).moveTransactions bs.signedTransactions .pending
    .head).stage h = _
  rw [(hp.moveGroup _ _).stage_moveTransactions (by decide), hp.stage_moveGroup (by decide)]
  grind

theorem stage_swapHead :
    (swapHead blk bs strxs l
      { (n.setBack blk).moved p with mTrxDb := n.competing bs }).mTrxDb.stage h =
      if h ∈ bs.signedTransactions ∧
          (n.mTrxDb.stage h = some .head ∨ n.mTrxDb.stage h = some .pending) then some .head
      else n.mTrxDb.stage h :=
  stage_competed bs hp

end Stages

def listed (n : Node) (b : Block) : List Hashcode :=
  (n.mBlockStateDb[b.state]?).elim [] BlockState.signedTransactions

/-- A known transaction is in the group of the blocks that list it. -/
structure GroupsMatch (n : Node) (h : Hashcode) : Prop where
  head : (n.mTrxDb[TrxKey.mk .head h]?).isSome ↔ n.mBlockChain ≠ [] ∧ h ∈ n.listed n.back
  applied : (n.mTrxDb[TrxKey.mk .applied h]?).isSome ↔
    ∃ b ∈ n.mBlockChain.dropLast, h ∈ n.listed b
  pending : (n.mTrxDb[TrxKey.mk .pending h]?).isSome ↔
    ¬ (n.mBlockChain ≠ [] ∧ h ∈ n.listed n.back) ∧ ¬ ∃ b ∈ n.mBlockChain.dropLast,
      h ∈ n.listed b

def groupRules (E : Externals) : Rules where
  learns n t := ∀ b ∈ n.mBlockChain, E.hashSignedTrx t ∉ n.listed b
  stores h bs := E.hashBlockState bs = h
  starts n _ bs := ∀ h ∈ bs.signedTransactions, ¬ n.mTrxDb.knows h
  adds n clock blk := ∀ bs, Competes E clock n blk bs →
    (Attachable E n.stateDb (n.competing bs) blk bs →
      ∀ h, (n.mTrxDb[TrxKey.mk .head h]?).isSome → h ∈ bs.signedTransactions) ∧
    (¬ Attachable E n.stateDb (n.competing bs) blk bs →
      ∀ h ∈ bs.signedTransactions, ¬ (n.mTrxDb[TrxKey.mk .pending h]?).isSome)

structure Grouped (E : Externals) (n : Node) : Prop where
  own : n.ContentAddressed E
  known : ∀ b ∈ n.mBlockChain, ∃ bs, n.mBlockStateDb[b.state]? = some bs
  head : ∀ h, n.mTrxDb.stage h = some .head ↔
    n.mTrxDb.stage h ≠ none ∧ n.mBlockChain ≠ [] ∧ h ∈ n.listed n.back
  applied : ∀ h, n.mTrxDb.stage h = some .applied ↔
    n.mTrxDb.stage h ≠ none ∧ ∃ b ∈ n.mBlockChain.dropLast, h ∈ n.listed b

theorem back_mem (h : n.mBlockChain ≠ []) : n.back ∈ n.mBlockChain := by
  rw [back, List.getLastD_eq_getLast?, List.getLast?_eq_some_getLast h, Option.getD_some]
  exact List.getLast_mem h

namespace Grouped

theorem groupsMatch (hn : Grouped E n) (hp : n.mTrxDb.Pool E) (hknown : n.mTrxDb.knows h) :
    n.GroupsMatch h := by
  have hstage := TrxDb.knows_iff_stage.mp hknown
  have hhead := hn.head h
  have happlied := hn.applied h
  rw [and_iff_right hstage] at hhead happlied
  constructor
  · rw [← hp.stage_eq_some, hhead]
  · rw [← hp.stage_eq_some, happlied]
  · rw [← hp.stage_eq_some, ← hhead, ← happlied]
    cases hg : n.mTrxDb.stage h with
    | none => exact absurd hg hstage
    | some g => cases g <;> simp

theorem congr (hn : Grouped E n) (hown : n'.ContentAddressed E)
    (hchain : n'.mBlockChain = n.mBlockChain) (hpool : n'.mTrxDb = n.mTrxDb)
    (hkept : ∀ (h : Hashcode) bs, n.mBlockStateDb[h]? = some bs →
      n'.mBlockStateDb[h]? = some bs) :
    Grouped E n' := by
  have hlisted : ∀ b ∈ n.mBlockChain, n'.listed b = n.listed b := by
    intro b hb
    obtain ⟨bs, hbs⟩ := hn.known b hb
    rw [listed, listed, hbs, hkept _ _ hbs]
  have hback : n'.back = n.back := by rw [back, back, hchain]
  refine ⟨hown, ?_, fun h => ?_, fun h => ?_⟩
  · rw [hchain]
    exact fun b hb => (hn.known b hb).imp fun bs hbs => hkept _ _ hbs
  · rw [hpool, hchain, hback, hn.head]
    apply and_congr_right
    intro _
    apply and_congr_right
    intro hne
    rw [hlisted _ (back_mem hne)]
  · rw [hpool, hchain, hn.applied]
    apply and_congr_right
    intro _
    constructor
    · rintro ⟨b, hb, hmem⟩
      exact ⟨b, hb, by rwa [hlisted b (List.dropLast_subset _ hb)]⟩
    · rintro ⟨b, hb, hmem⟩
      exact ⟨b, hb, by rwa [hlisted b (List.dropLast_subset _ hb)] at hmem⟩

theorem insert_kept (hE : Function.Injective E.hashBlockState) (hown : n.ContentAddressed E)
    {h k : Hashcode} {bs bs' : BlockState} (hbs : E.hashBlockState bs = h)
    (hget : n.mBlockStateDb[k]? = some bs') :
    (n.mBlockStateDb.insert h bs)[k]? = some bs' := by
  rw [Std.ExtTreeMap.getElem?_insert]
  split
  · rename_i hkey
    obtain rfl := Std.LawfulEqCmp.compare_eq_iff_eq.mp hkey
    rw [hE (hbs.trans (hown _ _ hget).symm)]
  · exact hget

theorem generated_kept (hE : Function.Injective E.hashBlockState) (hown : n.ContentAddressed E)
    (hgen : Generated E n n') {h : Hashcode} (hbs : n.mBlockStateDb[h]? = some bs) :
    n'.mBlockStateDb[h]? = some bs := by
  obtain ⟨bs', hbs', rfl | hhash⟩ := hgen.known h bs hbs
  · exact hbs'
  · rwa [hE (hhash.trans (hown h bs hbs).symm)] at hbs'

theorem generated (hE : Function.Injective E.hashBlockState) (hn : Grouped E n)
    (hgen : Generated E n n') : Grouped E n' :=
  hn.congr (hn.own.generated hgen) hgen.blockChain hgen.trxDb fun _ _ hbs =>
    generated_kept hE hn.own hgen hbs

theorem learn (hn : Grouped E n) (hp : n.mTrxDb.Pool E) {t : SignedTransaction}
    (hnew : ¬ n.mTrxDb.knows (E.hashSignedTrx t))
    (hlisted : ∀ b ∈ n.mBlockChain, E.hashSignedTrx t ∉ n.listed b) :
    Grouped E (n.learn E t) := by
  have hstage : ∀ h, (n.learn E t).mTrxDb.stage h =
      if h = E.hashSignedTrx t then some .pending else n.mTrxDb.stage h := fun h =>
    hp.stage_insert hnew
  refine ⟨hn.own, hn.known, fun h => ?_, fun h => ?_⟩
  · rw [hstage]
    split
    · rename_i heq
      subst heq
      simp only [Option.some.injEq, reduceCtorEq, ne_eq, not_false_eq_true, true_and, false_iff,
        not_and]
      exact fun hne => hlisted n.back (back_mem hne)
    · exact hn.head h
  · rw [hstage]
    split
    · rename_i heq
      subst heq
      simp only [Option.some.injEq, reduceCtorEq, ne_eq, not_false_eq_true, true_and, false_iff,
        not_exists, not_and]
      exact fun b hb => hlisted b (List.dropLast_subset _ hb)
    · exact hn.applied h

theorem start (hn : Grouped E n) {tried : Bool} {blk : Block} (hnil : n.mBlockChain = [])
    (hstate : E.hashBlockState bs = blk.state)
    (hfirst : ∀ h ∈ bs.signedTransactions, ¬ n.mTrxDb.knows h)
    (hstart : Starts E tried n blk bs n') : Grouped E n' := by
  have hchain := hstart.blockChain hnil
  have hown := hn.own.start hstate hstart
  obtain ⟨p, -, rfl⟩ := hstart
  have hlisted : (n.started E blk bs p (firstPosts E tried n blk bs)).listed blk =
      bs.signedTransactions := by
    rw [listed, started, Std.ExtTreeMap.getElem?_insert_self]
    rfl
  have hback : (n.started E blk bs p (firstPosts E tried n blk bs)).back = blk := by
    rw [back, hchain]
    rfl
  refine ⟨hown, fun b hb => ?_, fun h => ?_, fun h => ?_⟩
  · rw [hchain, List.mem_singleton] at hb
    subst hb
    exact ⟨bs, Std.ExtTreeMap.getElem?_insert_self⟩
  · rw [hback, hlisted]
    have hhead := hn.head h
    simp only [hnil, ne_eq, not_true_eq_false, false_and, and_false, iff_false] at hhead
    refine ⟨fun hs => absurd hs hhead, ?_⟩
    rintro ⟨hknown, -, hmem⟩
    exact absurd (TrxDb.knows_iff_stage.mpr hknown) (hfirst h hmem)
  · rw [hchain]
    have happlied := hn.applied h
    change n.mTrxDb.stage h = _ ↔ _
    rw [happlied]
    simp [hnil]

variable {blk : Block} {strxs : List SignedTransaction} {l : Layer} {p : ℕ}

theorem refused (hn : Grouped E n) (hp : n.mTrxDb.Pool E)
    (hfree : ∀ h ∈ bs.signedTransactions, ¬ (n.mTrxDb[TrxKey.mk .pending h]?).isSome) :
    Grouped E { n with
      mTrxDb := (n.competing bs).moveTransactions bs.signedTransactions .pending .head } := by
  have hstage : ∀ h, ((n.competing bs).moveTransactions bs.signedTransactions .pending
      .head).stage h = n.mTrxDb.stage h := by
    intro h
    rw [stage_competed bs hp]
    split
    · rename_i hmoved
      obtain hhead | hpending := hmoved.2
      · exact hhead.symm
      · exact absurd (hp.stage_eq_some.mp hpending) (hfree h hmoved.1)
    · rfl
  refine ⟨hn.own, hn.known, fun h => ?_, fun h => ?_⟩
  · rw [hstage]
    exact hn.head h
  · rw [hstage]
    exact hn.applied h

theorem appended (hn : Grouped E n) (hp : n.mTrxDb.Pool E) {clock : Clock}
    (hext : Extends E clock n blk bs) (ha : Attaches E n.headDb n.mTrxDb blk bs strxs l p) :
    Grouped E (settleHead blk bs strxs l ((n.pushBack blk).moved p)) := by
  have hpending := hp.lists_iff.mp ⟨strxs, ha.lists⟩
  have hlisted : n.listed blk = bs.signedTransactions := by
    rw [listed, hext.known]
    rfl
  have hback : (settleHead blk bs strxs l ((n.pushBack blk).moved p)).back = blk :=
    List.getLastD_concat
  have hne : n.mBlockChain ++ [blk] ≠ [] := by simp
  refine ⟨hn.own, fun b hb => ?_, fun h => ?_, fun h => ?_⟩
  · cases List.mem_append.mp hb with
    | inl hb => exact hn.known b hb
    | inr hb =>
      rw [List.mem_singleton] at hb
      subst hb
      exact ⟨bs, hext.known⟩
  · rw [stage_settleHead bs hp, hback]
    change _ ↔ _ ∧ n.mBlockChain ++ [blk] ≠ [] ∧ h ∈ n.listed blk
    have := hpending h
    rw [hlisted]
    grind
  · rw [stage_settleHead bs hp]
    change _ ↔ _ ∧ ∃ b ∈ (n.mBlockChain ++ [blk]).dropLast, h ∈ n.listed b
    have hhead := hn.head h
    have happlied := hn.applied h
    have hchain : ∀ b, b ∈ n.mBlockChain ↔ b ∈ n.mBlockChain.dropLast ∨ b = n.back := by
      intro b
      conv_lhs => rw [← dropLast_append_back hext.nonempty]
      rw [List.mem_append, List.mem_singleton]
    have := hext.nonempty
    have := hpending h
    rw [List.dropLast_concat]
    simp only [hchain, or_and_right, exists_or, exists_eq_left]
    grind

theorem replaced (hn : Grouped E n) (hp : n.mTrxDb.Pool E) {clock : Clock}
    (hcomp : Competes E clock n blk bs)
    (ha : Attaches E n.stateDb (n.competing bs) blk bs strxs l p)
    (hall : ∀ h, (n.mTrxDb[TrxKey.mk .head h]?).isSome → h ∈ bs.signedTransactions) :
    Grouped E (swapHead blk bs strxs l
      { (n.setBack blk).moved p with mTrxDb := n.competing bs }) := by
  have hpending := stage_of_lists_competing bs hp ha.lists
  have hlisted : n.listed blk = bs.signedTransactions := by
    rw [listed, hcomp.known]
    rfl
  have hback : (swapHead blk bs strxs l
      { (n.setBack blk).moved p with mTrxDb := n.competing bs }).back = blk :=
    List.getLastD_concat
  have hne : n.mBlockChain.dropLast ++ [blk] ≠ [] := by simp
  refine ⟨hn.own, fun b hb => ?_, fun h => ?_, fun h => ?_⟩
  · cases List.mem_append.mp hb with
    | inl hb => exact hn.known b (List.dropLast_subset _ hb)
    | inr hb =>
      rw [List.mem_singleton] at hb
      subst hb
      exact ⟨bs, hcomp.known⟩
  · rw [stage_swapHead bs hp, hback]
    change _ ↔ _ ∧ n.mBlockChain.dropLast ++ [blk] ≠ [] ∧ h ∈ n.listed blk
    have := hpending h
    have hhead := hp.stage_eq_some (h := h) (g := .head)
    have := hall h
    rw [hlisted]
    grind
  · rw [stage_swapHead bs hp]
    change _ ↔ _ ∧ ∃ b ∈ (n.mBlockChain.dropLast ++ [blk]).dropLast, h ∈ n.listed b
    have happlied := hn.applied h
    have := hpending h
    rw [List.dropLast_concat]
    grind

end Grouped

theorem grouped_inductive (hE : Function.Injective E.hashBlockState) :
    Inductive E (groupRules E) (Sound E) (Grouped E) where
  empty := by
    refine ⟨fun _ _ hbs => ?_, fun b hb => ?_, fun h => ?_, fun h => ?_⟩
    · simp at hbs
    · cases hb
    · simp
    · simp
  generated _ hn hgen := hn.generated hE hgen
  learn hs hn hnew hlisted := hn.learn hs.pool hnew hlisted
  store _ hn hstore := hn.congr (fun _ _ hget => hn.own.insert hstore hget) rfl rfl
    fun _ _ hget => Grouped.insert_kept hE hn.own hstore hget
  start _ hn hnil hrule hstart := by
    obtain ⟨-, hstore, hfirst⟩ | ⟨t, -, hgenesis⟩ := hrule
    · exact hn.start hnil hstore hfirst hstart
    · refine hn.start hnil hgenesis.hashBlockState (fun h hmem => ?_) hstart
      rw [hgenesis.signedTransactions] at hmem
      cases hmem
  refused hs hn hadd hcomp hno := hn.refused hs.pool ((hadd _ hcomp).2 hno)
  appended hs hn _ hext ha := hn.appended hs.pool hext ha
  replaced hs hn hadd hcomp ha := hn.replaced hs.pool hcomp ha ((hadd _ hcomp).1 ⟨_, _, _, ha⟩)

/-- Along runs that keep to the rules, the groups of the known transactions match the chain. -/
theorem groups_match (hE : Function.Injective E.hashBlockState)
    (hr : ReachableBy E ((groupRules E).allow E) n) (hknown : n.mTrxDb.knows h) :
    n.GroupsMatch h :=
  ((grouped_inductive hE).reachable hr).groupsMatch hr.sound.pool hknown

def idle : SignedTransaction := ⟨⟨0, []⟩, []⟩

def heavyBlock : FullBlockState :=
  blockOn (Wire.externals nonceHash) firstNode.headDb 1 35 5 [idle]

theorem groups_match_heavyBlock : ∃ n h, n.mTrxDb.knows h ∧ GroupsMatch n h := by
  let h := (Wire.externals nonceHash).hashSignedTrx idle
  have hfirst : ReachableBy (Wire.externals nonceHash)
      ((groupRules (Wire.externals nonceHash)).allow (Wire.externals nonceHash)) firstNode := by
    apply firstNode_reachable
    refine ⟨fun _ _ => trivial, trivial, rfl, ?_⟩
    rw [if_pos ⟨rfl, rfl⟩]
    exact fun h hmem => nomatch hmem
  have hallow : (groupRules (Wire.externals nonceHash)).allow (Wire.externals nonceHash) firstNode
      noon (.addFullBlock heavyBlock) := by
    refine ⟨fun _ _ => trivial, ?_, hashBlockState_blockOn _ _ _ _ _ _, ?_⟩
    · have hnew : ¬ firstNode.mTrxDb.knows ((Wire.externals nonceHash).hashSignedTrx idle) := by
        decide +kernel
      have hlearn : ∀ b ∈ firstNode.mBlockChain,
          (Wire.externals nonceHash).hashSignedTrx idle ∉ firstNode.listed b := by decide +kernel
      change if _ then _ else _
      rw [if_neg hnew]
      exact ⟨hlearn, trivial⟩
    · have hlink : heavyBlock.blk.prevBlock = nonceHash firstNode.back := by decide +kernel
      rw [if_neg fun hfirst => absurd hfirst.2 (by decide)]
      exact fun bs hcomp => absurd hlink hcomp.unlinked
  have hrun : Call.run (Wire.externals nonceHash) noon (.addFullBlock heavyBlock) firstNode =
    .ok () _ := Lib.eq_ok_of_returned (by decide +kernel)
  exact ⟨_, h, by decide +kernel,
    groups_match (Lib.Format.number_injective _) (.call hfirst hallow hrun) (by decide +kernel)⟩

def outbid : List Call :=
  [.addFullBlock heavyBlock,
    .addFullBlock (blockOn (Wire.externals nonceHash) firstNode.headDb 1 35 2 [])]

theorem groups_mismatch : ¬ ∀ E n h, Function.Injective E.hashBlockState → Reachable E n →
    n.mTrxDb.knows h → n.GroupsMatch h := by
  intro hmatch
  have hrun : runAll (Wire.externals nonceHash) noon outbid firstNode = .ok () _ :=
    Lib.eq_ok_of_returned (by decide +kernel)
  have hgroups := hmatch (Wire.externals nonceHash)
      _ ((Wire.externals nonceHash).hashSignedTrx idle)
    (Lib.Format.number_injective _)
    (reachable_firstNode.runAll (fun _ _ _ => trivial) hrun) (by decide +kernel)
  have hlisted := (hgroups.head.mp (by decide +kernel)).2
  revert hlisted
  decide +kernel

end Node

end Gpm
