import Gpm.Node.HeadHash
import Gpm.Node.Mining

namespace Gpm

open Lib (finalState)

namespace Node

variable {E : Externals} {a b n : Node} {es es' : List Entry} {k : ℕ} {clock : Clock}
  {fbs : FullBlockState} {blk : Block} {bs : BlockState} {ts : List SignedTransaction}

theorem blockChain_addFullBlock (hne : n.mBlockChain ≠ []) :
    (finalState (addFullBlock E clock fbs n)).mBlockChain =
      (finalState (addBlock E clock fbs.blk (n.store E fbs))).mBlockChain := by
  unfold addFullBlock
  rw [Lib.get_bind, Lib.modify_bind, Lib.get_bind, if_neg fun hfirst => hne hfirst.1]
  cases hadd : addBlock E clock fbs.blk (n.store E fbs) with
  | ok r n' =>
    rw [Lib.bind_ok hadd]
    split
    · apply blockChain_startBlockIfGenerating
      intro hnil
      have hstep := (addBlock_chainStep hadd).1
      rw [hnil] at hstep
      exact hne hstep.eq_nil
    · rfl
  | error e n' => rw [Lib.bind_error hadd]

theorem Followable.accepts (h : Followable E es) (hk : k < es.length) {db : Database}
    (hdb : WellFormed E db) {ps : List Posting} (hc : Chronicle E (es.take k) ps)
    (hlogs : db.Logs E ps) :
    DbM.Accepts E db es[k].blkState.generatorName es[k].trxs es[k].blkState.stateDb := by
  obtain ⟨qs, hall⟩ := h.chronicle
  obtain ⟨rs, hnext⟩ := hall.take (k + 1)
  rw [← List.take_concat_get' es k hk] at hnext
  exact hnext.accepts hc hdb hlogs

theorem Followable.validate (h : Followable E es) (hk : k + 1 < es.length) :
    validate E.hashBlock ((es.take (k + 1)).map Entry.blk ++ [es[k + 1].blk]) := by
  have hall := h.valid.resolve_left (by omega)
  rw [← List.take_append_drop (k + 2) es, List.map_append,
    ← List.take_concat_get' es (k + 1) hk, List.map_append] at hall
  exact validate_left hall

theorem Sound.holds_stored (hn : Sound E n) (hE : Function.Injective E.hashSignedTrx) {e : Entry}
    (he : e.Lists E) (i j : ℕ) :
    List.Forall₂ (n.store E (e.fullBlock i j)).mTrxDb.Holds e.blkState.signedTransactions
      e.trxs := by
  apply lists_holds hE he (hn.store _).pool
  intro h hmem
  rw [← he] at hmem
  have hstage : (n.store E (e.fullBlock i j)).mTrxDb.stage h = _ := hn.pool.stage_of_store hmem
  rw [TrxDb.knows_iff_stage, hstage]
  exact Option.some_ne_none _

theorem stage_stored (hn : Sound E n) {e : Entry} (he : e.Lists E) (i j : ℕ) {h : Hashcode}
    (hmem : h ∈ e.blkState.signedTransactions) :
    (n.store E (e.fullBlock i j)).mTrxDb.stage h = some ((n.mTrxDb.stage h).getD .pending) := by
  rw [← he] at hmem
  exact hn.pool.stage_of_store hmem

namespace Rooted

theorem getElem? (h : Rooted E n es) (hk : k < es.length) : n.mBlockChain[k]? = some es[k].blk := by
  rw [← h.recorded.blockChain, List.getElem?_map, List.getElem?_eq_getElem hk]
  rfl

theorem prevBlock (h : Rooted E n es) (hk : k + 1 < es.length) :
    es[k + 1].blk.prevBlock = E.hashBlock es[k].blk :=
  h.linked k _ _ (h.getElem? (Nat.lt_of_succ_lt hk)) (h.getElem? hk)

theorem served (h : Rooted E n es) {garbage i : UInt32}
    (hserved : n.getFullBlock garbage i = .ok fbs) (hprev : fbs.blk.prevBlock ≠ 0) :
    ∃ k, ∃ hk : k + 1 < es.length, fbs = es[k + 1].fullBlock (k + 1) (es.length - 1) := by
  by_cases hi : i.toNat < es.length
  · have hget := h.serves.getFullBlock hi garbage
    rw [UInt32.ofNat_toNat, hserved] at hget
    generalize i.toNat = k at hi hget
    cases hget
    cases k with
    | zero =>
      have hfirst := h.getElem? hi
      rw [← List.head?_eq_getElem?] at hfirst
      exact absurd (h.first _ hfirst) hprev
    | succ k => exact ⟨k, hi, rfl⟩
  · rw [← h.serves.length, Nat.not_lt] at hi
    obtain hunknown | ⟨e, herror⟩ := getFullBlock_beyond hi garbage
    · cases hserved.symm.trans hunknown
      exact absurd rfl hprev
    · cases hserved.symm.trans herror

theorem back_eq (h : Rooted E n es) (hk : k < es.length) (hlen : es.length = k + 1) :
    n.back = es[k].blk := by
  have hlast : n.mBlockChain.length - 1 = k := by rw [h.serves.length, hlen, Nat.add_sub_cancel]
  rw [back, List.getLastD_eq_getLast?, List.getLast?_eq_getElem?, hlast, h.getElem? hk]
  rfl

variable (hE : CollisionFree E) (hzero : ∀ b, E.hashBlock b ≠ 0) (ha : Rooted E a es)
  (hb : Rooted E b es') (hk : k + 1 < es.length)

include hE hzero ha hb

theorem front (hlen : 0 < es'.length) (hhead : es[k + 1].blk.prevBlock = E.hashBlock b.back) :
    es' = es.take (k + 1) := by
  obtain ⟨m, hm⟩ := Nat.exists_eq_succ_of_ne_zero (Nat.ne_of_gt hlen)
  rw [ha.prevBlock hk, hb.back_eq (by omega) hm] at hhead
  obtain ⟨rfl, htake⟩ := ha.take_eq hE hzero hb (ha.getElem? _) (hb.getElem? _) hhead
  rw [htake, List.take_of_length_le hm.le]

theorem beside (hlen : 1 < es'.length) (hhead : es[k + 1].blk.prevBlock = b.back.prevBlock) :
    es'.dropLast = es.take (k + 1) := by
  obtain ⟨m, hm⟩ := Nat.exists_eq_add_of_le hlen
  rw [Nat.add_comm] at hm
  rw [hb.back_eq (by omega) hm, ha.prevBlock hk, hb.prevBlock] at hhead
  obtain ⟨rfl, htake⟩ := ha.take_eq hE hzero hb (ha.getElem? _) (hb.getElem? _) hhead
  rw [htake, List.dropLast_eq_take, hm]
  rfl

end Rooted

theorem pool_competing (hn : Sound E n) (bs : BlockState) : (n.competing bs).Pool E :=
  hn.pool.moveTransactions _ _ _

theorem holds_competing (hn : Sound E n)
    (h : List.Forall₂ n.mTrxDb.Holds bs.signedTransactions ts) :
    List.Forall₂ (n.competing bs).Holds bs.signedTransactions ts :=
  h.imp fun _ _ ht => (hn.pool.holds_moveTransactions (by decide) _).mpr ht

theorem replaces_iff (hn : Sound E n) (hknown : n.mBlockStateDb[blk.state]? = some bs)
    (hholds : List.Forall₂ n.mTrxDb.Holds bs.signedTransactions ts)
    (haccepts : DbM.Accepts E n.stateDb bs.generatorName ts bs.stateDb)
    (hother : blk ≠ n.back) (hunlinked : blk.prevBlock ≠ E.hashBlock n.back) :
    (finalState (addBlock E clock blk n)).mBlockChain = n.mBlockChain.dropLast ++ [blk] ↔
      Competes E clock n blk bs ∧ Attachable E n.stateDb (n.competing bs) blk bs := by
  have hsame : n.mBlockChain ≠ n.mBlockChain.dropLast ++ [blk] := by
    intro hchain
    have hback := List.getLastD_concat (a := default) (b := blk) (l := n.mBlockChain.dropLast)
    rw [← hchain] at hback
    exact hother hback.symm
  have hout := addBlock_outcome (E := E) clock n blk
  generalize addBlock E clock blk n = res at hout
  cases hout with
  | unchanged _ _ _ hno => exact iff_of_false hsame fun hyes => hno bs hyes.1
  | refused hcomp hno =>
    cases hcomp.known.symm.trans hknown
    exact iff_of_false hsame fun hyes => hno hyes.2
  | appended hext => exact absurd hext.linked hunlinked
  | replaced hcomp ha =>
    cases hcomp.known.symm.trans hknown
    refine iff_of_true ?_ ⟨hcomp, _, _, _, ha⟩
    exact blockChain_startBlockIfGenerating
      (List.append_ne_nil_of_right_ne_nil _ (List.cons_ne_nil blk [])) (1 : Int)
  | failed hcase happ =>
    obtain ⟨hext, -, -⟩ | ⟨hcomp, rfl, hlists⟩ := hcase
    · exact absurd hext.linked hunlinked
    · cases hcomp.known.symm.trans hknown
      cases (pool_competing hn bs).forall₂_unique hlists.holds (holds_competing hn hholds)
      obtain ⟨db, happ'⟩ := (DbM.applyBlock_true_iff (b := blk) hn.state.overlay).mpr
        ((SameLog.overlay hn.state).accepts hn.state hn.state.overlay haccepts)
      cases happ.symm.trans happ'

/-- A block that one node serves is appended by each node whose head it names, unless the clock of
that node is behind or a transaction the block lists has been used up there. -/
theorem served_appended_iff (hE : CollisionFree E) (hzero : ∀ b, E.hashBlock b ≠ 0)
    (hstate : NeverZero E) (ha : ReachableBy E (fun _ _ c => c.Honest E) a)
    (hb : ReachableBy E (fun _ _ c => c.Honest E) b) (hga : FromGenesis E a)
    (hgb : FromGenesis E b) {garbage i : UInt32}
    (hserved : a.getFullBlock garbage i = .ok fbs)
    (hhead : fbs.blk.prevBlock = E.hashBlock b.back) (clock : Clock) :
    (finalState (addFullBlock E clock fbs b)).mBlockChain = b.mBlockChain ++ [fbs.blk] ↔
      ¬ FromFuture (clock 0) fbs.blk ∧ ∀ h ∈ fbs.blkState.signedTransactions,
        b.mTrxDb.stage h ≠ some .head ∧ b.mTrxDb.stage h ≠ some .applied := by
  obtain ⟨es, ha⟩ := rooted_of_honest hE hstate ha hga
  obtain ⟨es', hes'⟩ := rooted_of_honest hE hstate hb hgb
  obtain ⟨k, hk, rfl⟩ := ha.served hserved (hhead ▸ hzero _)
  have hne : b.mBlockChain ≠ [] := by
    obtain ⟨t, g, gs, hg, -⟩ := hgb
    rintro hnil
    rw [hnil] at hg
    cases hg
  have hpos : 0 < es'.length := by
    rw [← hes'.serves.length]
    exact List.length_pos_iff.mpr hne
  have hfront := ha.front hE hzero hes' hk hpos hhead
  have hn := hb.sound.store (es[k + 1].fullBlock (k + 1) (es.length - 1))
  have hlists := ha.followable.lists _ (List.getElem_mem hk)
  obtain ⟨ps, hc, hlogs⟩ := hes'.recorded.head
  rw [hfront] at hc
  have hready : Ready E es[k + 1].blk es[k + 1].blkState es[k + 1].trxs
      (b.store E (es[k + 1].fullBlock (k + 1) (es.length - 1))) :=
    ⟨Std.ExtTreeMap.getElem?_insert_self, hb.sound.holds_stored hE.signedTrx hlists _ _,
      ha.followable.accepts hk hn.head hc hlogs⟩
  have hvalid := ha.followable.validate hk
  rw [← hfront, hes'.recorded.blockChain] at hvalid
  have hext : Extends E clock (b.store E (es[k + 1].fullBlock (k + 1) (es.length - 1)))
      es[k + 1].blk es[k + 1].blkState ↔ ¬ FromFuture (clock 0) es[k + 1].blk :=
    ⟨fun he => he.time, fun htime => ⟨⟨hne, hready.known, htime⟩, hhead, hvalid⟩⟩
  rw [blockChain_addFullBlock hne]
  refine (hready.addBlock_iff hn hhead).trans ?_
  rw [hext, attachable_of_accepts hn.head hn.pool hready.holds hready.accepts]
  refine and_congr_right fun _ => forall₂_congr fun h hmem => ?_
  rw [stage_stored hb.sound hlists _ _ hmem]
  cases b.mTrxDb.stage h with
  | none => simp
  | some g => cases g <;> simp

def nextBlock (nonce : UInt64) : FullBlockState :=
  blockOn (Wire.externals nonceHash) toldNode.headDb 1 1288490204 nonce [idle]

def nextNumber (b : Block) : Hashcode :=
  Wire.block.numberAfter [launchBlock, (nextBlock 1).blk, (nextBlock 2).blk] b + 1

def nodeWith (fbss : List FullBlockState) : Node :=
  finalState (runAll (Wire.externals nextNumber) (clockAt (launch + 15))
    (launchCalls ++ fbss.map Call.addFullBlock) {})

theorem collisionFree_nextNumber : CollisionFree (Wire.externals nextNumber) :=
  collisionFree_wire fun _ _ h => Lib.Format.numberAfter_injective _ _ (Nat.succ.inj h)

theorem reachable_nodeWith (fbss : List FullBlockState)
    (hown : ∀ fbs ∈ fbss, Call.Honest (Wire.externals nextNumber) (.addFullBlock fbs))
    (hok : Lib.returned (runAll (Wire.externals nextNumber) (clockAt (launch + 15))
      (launchCalls ++ fbss.map Call.addFullBlock) {}) = some ()) :
    ReachableBy (Wire.externals nextNumber)
      (fun _ _ c => c.Honest (Wire.externals nextNumber)) (nodeWith fbss) := by
  refine ReachableBy.empty.runAll (fun _ c hc => ?_) (Lib.eq_ok_of_returned hok)
  obtain hc | hc := List.mem_append.mp hc
  · cases List.mem_singleton.mp hc
    exact Or.inl rfl
  · obtain ⟨fbs, hfbs, rfl⟩ := List.mem_map.mp hc
    exact hown fbs hfbs

theorem honest_nextBlock (nonce : UInt64) :
    Call.Honest (Wire.externals nextNumber) (.addFullBlock (nextBlock nonce)) :=
  Or.inl (hashBlockState_blockOn (Wire.externals nonceHash) toldNode.headDb 1 1288490204 nonce
    [idle])

theorem genesis_launch : Genesis (Wire.externals nextNumber) 1288490189 true {} launchBlock
    (firstState (Wire.externals nonceHash)) :=
  ⟨by decide +kernel, by decide +kernel, rfl⟩

theorem served_appended_iff_nextBlock :
    (finalState (addFullBlock (Wire.externals nextNumber) (clockAt (launch + 15)) (nextBlock 1)
      (nodeWith []))).mBlockChain = (nodeWith []).mBlockChain ++ [(nextBlock 1).blk] := by
  have ha := reachable_nodeWith [nextBlock 1]
    (List.forall_mem_singleton.mpr (honest_nextBlock 1)) (by decide +kernel)
  have hb := reachable_nodeWith [] (List.forall_mem_nil _) (by decide +kernel)
  have hserved : (nodeWith [nextBlock 1]).getFullBlock 0 1 = .ok (nextBlock 1) := by decide +kernel
  refine (served_appended_iff collisionFree_nextNumber (fun _ => Nat.succ_ne_zero _)
    (neverZero_wire _) ha hb
    ⟨_, _, _, by decide +kernel, genesis_launch⟩ ⟨_, _, _, by decide +kernel,
      genesis_launch⟩ hserved
    (by decide +kernel) (clockAt (launch + 15))).mpr ⟨?_, ?_⟩
  · rw [FromFuture]
    decide +kernel
  · have hstages : (nextBlock 1).blkState.signedTransactions.all (fun h =>
        (nodeWith []).mTrxDb.stage h = none) = true := by decide +kernel
    intro h hmem
    have hnone := List.all_eq_true.mp hstages h hmem
    rw [decide_eq_true_eq] at hnone
    simp [hnone]

/-- At a node that has another block in its place, a block that one node serves replaces that block
if its hash is the lower one, unless the clock is behind or a transaction it lists is applied. -/
theorem served_replaces_iff (hE : CollisionFree E) (hzero : ∀ b, E.hashBlock b ≠ 0)
    (hstate : NeverZero E) (ha : ReachableBy E (fun _ _ c => c.Honest E) a)
    (hb : ReachableBy E (fun _ _ c => c.Honest E) b) (hga : FromGenesis E a)
    (hgb : FromGenesis E b) {garbage i : UInt32}
    (hserved : a.getFullBlock garbage i = .ok fbs) (hlen : 1 < b.mBlockChain.length)
    (hbeside : fbs.blk.prevBlock = b.back.prevBlock) (hother : fbs.blk ≠ b.back) (clock : Clock) :
    (finalState (addFullBlock E clock fbs b)).mBlockChain = b.mBlockChain.dropLast ++ [fbs.blk] ↔
      E.hashBlock fbs.blk < E.hashBlock b.back ∧ ¬ FromFuture (clock 0) fbs.blk ∧
        ∀ h ∈ fbs.blkState.signedTransactions, b.mTrxDb.stage h ≠ some .applied := by
  obtain ⟨es, ha⟩ := rooted_of_honest hE hstate ha hga
  obtain ⟨es', hes'⟩ := rooted_of_honest hE hstate hb hgb
  have hlen' : 1 < es'.length := hes'.serves.length ▸ hlen
  obtain ⟨m, hm⟩ := Nat.exists_eq_add_of_le hlen'
  rw [Nat.add_comm] at hm
  have hback := hes'.back_eq (by omega) hm
  obtain ⟨k, hk, rfl⟩ := ha.served hserved (by
    rw [hbeside, hback, hes'.prevBlock]
    exact hzero _)
  have hfront := ha.beside hE hzero hes' hk hlen' hbeside
  have hn := hb.sound.store (es[k + 1].fullBlock (k + 1) (es.length - 1))
  have hlists := ha.followable.lists _ (List.getElem_mem hk)
  obtain ⟨ps, hc, hlogs⟩ := hes'.recorded.state
  rw [hfront] at hc
  have hknown : (b.store E (es[k + 1].fullBlock (k + 1)
      (es.length - 1))).mBlockStateDb[es[k + 1].blk.state]? = some es[k + 1].blkState :=
    Std.ExtTreeMap.getElem?_insert_self
  have hholds := hb.sound.holds_stored hE.signedTrx hlists (k + 1) (es.length - 1)
  have haccepts := ha.followable.accepts hk hn.state hc hlogs
  have hunlinked : es[k + 1].blk.prevBlock ≠ E.hashBlock b.back := by
    intro hlinked
    have hall := ha.front hE hzero hes' hk (by omega) hlinked
    have hshort := congrArg List.length (hfront.trans hall.symm)
    rw [List.length_dropLast] at hshort
    omega
  have hvalid := ha.followable.validate hk
  rw [← hfront, List.map_dropLast, hes'.recorded.blockChain] at hvalid
  have hne : b.mBlockChain ≠ [] := List.ne_nil_of_length_pos (Nat.lt_of_succ_lt hlen)
  have hcomp : Competes E clock (b.store E (es[k + 1].fullBlock (k + 1) (es.length - 1)))
      es[k + 1].blk es[k + 1].blkState ↔
        E.hashBlock es[k + 1].blk < E.hashBlock b.back ∧ ¬ FromFuture (clock 0) es[k + 1].blk :=
    ⟨fun hc => ⟨hc.lower, hc.time⟩,
      fun hc => ⟨⟨hne, hknown, hc.2⟩, hunlinked, hbeside, hc.1, hvalid⟩⟩
  rw [blockChain_addFullBlock hne]
  refine (replaces_iff hn hknown hholds haccepts hother hunlinked).trans ?_
  rw [hcomp, and_assoc, attachable_of_accepts hn.state (pool_competing hn _)
    (holds_competing hn hholds) haccepts]
  refine and_congr_right fun _ => and_congr_right fun _ => forall₂_congr fun h hmem => ?_
  have hstage := stage_competing es[k + 1].blkState hn.pool (h := h)
  rw [stage_stored hb.sound hlists _ _ hmem] at hstage
  rw [hstage]
  cases b.mTrxDb.stage h with
  | none => simp
  | some g => cases g <;> simp [hmem]

theorem served_replaces_iff_nextBlock :
    (finalState (addFullBlock (Wire.externals nextNumber) (clockAt (launch + 15)) (nextBlock 1)
      (nodeWith [nextBlock 2]))).mBlockChain =
      (nodeWith [nextBlock 2]).mBlockChain.dropLast ++ [(nextBlock 1).blk] := by
  have ha := reachable_nodeWith [nextBlock 1]
    (List.forall_mem_singleton.mpr (honest_nextBlock 1)) (by decide +kernel)
  have hb := reachable_nodeWith [nextBlock 2]
    (List.forall_mem_singleton.mpr (honest_nextBlock 2)) (by decide +kernel)
  have hserved : (nodeWith [nextBlock 1]).getFullBlock 0 1 = .ok (nextBlock 1) := by decide +kernel
  refine (served_replaces_iff collisionFree_nextNumber (fun _ => Nat.succ_ne_zero _)
    (neverZero_wire _) ha hb
    ⟨_, _, _, by decide +kernel, genesis_launch⟩ ⟨_, _, _, by decide +kernel,
      genesis_launch⟩ hserved
    (by decide +kernel) (by decide +kernel) (by decide +kernel)
    (clockAt (launch + 15))).mpr ⟨by decide +kernel, ?_, ?_⟩
  · rw [FromFuture]
    decide +kernel
  · have hstages : (nextBlock 1).blkState.signedTransactions.all (fun h =>
        (nodeWith [nextBlock 2]).mTrxDb.stage h = some .head) = true := by decide +kernel
    intro h hmem
    have hhead := List.all_eq_true.mp hstages h hmem
    rw [decide_eq_true_eq] at hhead
    simp [hhead]

end Node

end Gpm
