import Gpm.Node.Accept
import Gpm.Node.Finality
import Gpm.Node.ValidChain

namespace Gpm

variable {E : Externals} {bc : BlockChain} {b : Block}

theorem validate_append (h : bc ≠ []) :
    validate E.hashBlock (bc ++ [b]) ↔ validate E.hashBlock bc ∧ bc.length + 1 < 2 ^ 32 ∧
      Follows E.hashBlock (E.hashBlock (bc.getLastD default)) b := by
  constructor
  · intro hvalid
    obtain ⟨hlen, hchecked⟩ := validate_iff.mp hvalid
    rw [List.length_append, List.length_singleton] at hlen
    have hbc : validate E.hashBlock bc :=
      validate_iff.mpr ⟨by omega, (checked_concat.mp hchecked).1⟩
    exact ⟨hbc, (validate_concat h hbc).mp hvalid⟩
  · rintro ⟨hbc, hnew⟩
    exact (validate_concat h hbc).mpr hnew

def EndsWith (E : Externals) (db : Database) (bc : BlockChain) : Prop :=
  db.Logs E [] ∧ bc.length ≤ 1 ∨
    ∃ ps b gen, bc.getLast? = some b ∧ db.Logs E (ps ++ [endBlock b gen]) ∧
      (packPosts E 0 ps).length < DbM.chunkSize

namespace EndsWith

variable {db db' : Database}

theorem logs (h : EndsWith E db bc) : ∃ ps, db.Logs E ps := by
  obtain ⟨hlogs, -⟩ | ⟨ps, b, gen, -, hlogs, -⟩ := h
  · exact ⟨_, hlogs⟩
  · exact ⟨_, hlogs⟩

theorem logs_nil (h : EndsWith E db []) : db.Logs E [] := by
  obtain ⟨hlogs, -⟩ | ⟨ps, b, gen, hlast, -⟩ := h
  · exact hlogs
  · cases hlast

theorem carries (h : EndsWith E db bc) (hdb : WellFormed E db) (hc : Carries E db db') :
    EndsWith E db' bc := by
  obtain ⟨hlogs, hlen⟩ | ⟨ps, b, gen, hlast, hlogs, hsize⟩ := h
  · exact Or.inl ⟨hlogs.carries hdb hc, hlen⟩
  · exact Or.inr ⟨ps, b, gen, hlast, hlogs.carries hdb hc, hsize⟩

theorem moved (h : EndsWith E db bc) (hdb : WellFormed E db) (p : ℕ) :
    EndsWith E (db.moved p) bc :=
  h.carries hdb (Carries.moved hdb.live p)

theorem findLastBlock (h : EndsWith E db bc) (hE : TrailingPrevious E)
    (hvalid : bc ≠ [] → validate E.hashBlock bc) :
    ∃ b p, DbM.findLastBlock E db = .ok b (db.moved p) ∧
      (bc ≠ [] → (bc.getLastD default).prevBlock = b.prevBlock) := by
  obtain ⟨hlogs, hlen⟩ | ⟨ps, b, gen, hlast, hlogs, hsize⟩ := h
  · refine ⟨default, db.root.mFile.pos,
      by rw [Database.moved_self]; exact hlogs.findLastBlock_nil,
      fun hne => ?_⟩
    obtain ⟨g, rfl⟩ := List.length_eq_one_iff.mp
      (Nat.le_antisymm hlen (List.length_pos_iff.mpr hne))
    exact (validate_singleton.mp (hvalid hne)).linked
  · obtain ⟨p, hfind⟩ := hlogs.findLastBlock hE (Nat.lt_trans hsize (by decide))
    refine ⟨b, p, hfind, fun _ => ?_⟩
    rw [List.getLastD_eq_getLast?, hlast]
    rfl

end EndsWith

namespace Node

theorem resizeChain_eq {prevBlock : Hashcode}
    (h : bc ≠ [] → (bc.getLastD default).prevBlock = prevBlock) :
    resizeChain prevBlock bc bc.length = bc := by
  cases hlen : bc.length with
  | zero => rfl
  | succ i =>
    have hne : bc ≠ [] := List.ne_nil_of_length_eq_add_one hlen
    have hlast : bc.getD i default = bc.getLastD default := by
      rw [List.getLastD_eq_getLast?, List.getLast?_eq_getElem?, hlen, List.getD_eq_getElem?_getD]
      rfl
    unfold resizeChain
    rw [if_pos (by rw [hlast]; exact h hne), ← hlen, List.take_length]

section Attaches

variable {db : Database} {pool : TrxDb} {blk : Block} {bs : BlockState}
  {strxs : List SignedTransaction} {l : Layer} {p : ℕ}

theorem Attaches.endsWith (ha : Attaches E db pool blk bs strxs l p) (hdb : WellFormed E db)
    (h : EndsWith E db bc) (bc' : BlockChain) :
    EndsWith E (.trx (db.moved p) l) (bc' ++ [blk]) := by
  obtain ⟨ps, hlogs⟩ := h.logs
  obtain ⟨hposts, hsize⟩ := ha.logs hdb hlogs
  rw [blockPosts, ← List.append_assoc] at hposts
  exact Or.inr ⟨_, blk, _, List.getLast?_concat, hposts, hsize⟩

end Attaches

variable {n n' : Node} {blk : Block} {bs : BlockState} {ts : List SignedTransaction}

structure HeadApplied (E : Externals) (n : Node) (bs : BlockState) (ts : List SignedTransaction) :
    Prop where
  applied : n.applied.getLast? = some bs
  trxs : List.Forall₂ n.mTrxDb.Holds bs.signedTransactions ts
  valid : validate E.hashBlock n.mBlockChain
  accepts : DbM.Accepts E n.stateDb bs.generatorName ts bs.stateDb
  log : SameLog E (afterBlock E n.stateDb n.back bs.generatorName ts) n.headDb

inductive Grown (E : Externals) (n : Node) : Prop
  | fresh : n.disk.blockChain = [] → n.mBlockChain.length ≤ 1 → Grown E n
  | opened : n.mBlockChain = n.disk.blockChain → n.mHeadTrx = {} → Grown E n
  | appended {bs : BlockState} {ts : List SignedTransaction} : n.disk.blockChain ≠ [] →
      n.mBlockChain = n.disk.blockChain ++ [n.back] → HeadApplied E n bs ts → Grown E n
  | replaced {bs : BlockState} {ts : List SignedTransaction} : n.disk.blockChain ≠ [] →
      n.mBlockChain = n.disk.blockChain.dropLast ++ [n.back] →
      n.back.prevBlock = (n.disk.blockChain.getLastD default).prevBlock →
      n.back.prevBlock ≠ E.hashBlock (n.disk.blockChain.getLastD default) →
      E.hashBlock n.back < E.hashBlock (n.disk.blockChain.getLastD default) →
      HeadApplied E n bs ts → Grown E n

structure Persisted (E : Externals) (n : Node) : Prop where
  known : ∀ h t, n.disk.trxDb.Holds h t → n.mTrxDb.Holds h t
  saved : EndsWith E n.stateDb n.disk.blockChain
  valid : n.disk.blockChain ≠ [] → validate E.hashBlock n.disk.blockChain
  head : EndsWith E n.headDb n.mBlockChain
  grown : Grown E n

namespace Persisted

theorem empty : Persisted E {} where
  known _ _ h := h
  saved := Or.inl ⟨Database.Blank.logs Database.blank_fresh.1, Nat.zero_le _⟩
  valid hne := absurd rfl hne
  head := Or.inl ⟨Database.blank_fresh.logs, Nat.zero_le _⟩
  grown := .fresh rfl (Nat.zero_le _)

theorem congr (h : Persisted E n) (hn : Sound E n) {p : ℕ}
    (hchain : n'.mBlockChain = n.mBlockChain) (happ : n'.applied = n.applied)
    (hpool : ∀ h t, n.mTrxDb.Holds h t → n'.mTrxDb.Holds h t) (hdisk : n'.disk = n.disk)
    (hlayer : n'.mHeadTrx = n.mHeadTrx) (hstate : n'.stateDb = n.stateDb.moved p) :
    Persisted E n' := by
  have hhead : n'.headDb = n.headDb.moved p := by
    rw [headDb, hstate, hlayer]
    rfl
  have hback : n'.back = n.back := by rw [back, back, hchain]
  have happlied : ∀ bs ts, HeadApplied E n bs ts → HeadApplied E n' bs ts := by
    intro bs ts hb
    have hmoved := SameLog.moved (E := E) n.stateDb p
    refine ⟨happ ▸ hb.applied, hb.trxs.imp hpool, hchain ▸ hb.valid, ?_, ?_⟩
    · rw [hstate]
      exact hmoved.accepts hn.state (hn.state.moved p) hb.accepts
    · rw [hstate, hhead, hback]
      exact (afterBlock_sameLog hmoved hn.state (hn.state.moved p) _ _ _).symm.trans
        (hb.log.trans (SameLog.moved _ p))
  constructor
  · rw [hdisk]
    exact fun h' t ht => hpool h' t (h.known h' t ht)
  · rw [hdisk, hstate]
    exact h.saved.moved hn.state p
  · rw [hdisk]
    exact h.valid
  · rw [hhead, hchain]
    exact h.head.moved hn.head p
  · cases h.grown with
    | fresh hnil hlen => exact .fresh (by rw [hdisk, hnil]) (by rw [hchain]; exact hlen)
    | opened heq hempty => exact .opened (by rw [hchain, hdisk, heq]) (by rw [hlayer, hempty])
    | appended hne heq hb =>
      exact .appended (by rwa [hdisk]) (by rw [hchain, hdisk, hback]; exact heq) (happlied _ _ hb)
    | replaced hne heq hsib hunlinked hlow hb =>
      rw [← hdisk, ← hback] at hsib hunlinked hlow
      exact .replaced (by rwa [hdisk]) (by rw [hchain, hdisk, hback]; exact heq) hsib hunlinked
        hlow (happlied _ _ hb)

theorem start (h : Persisted E n) (hn : Sound E n) (hnil : n.mBlockChain = []) {tried : Bool}
    (hstart : Starts E tried n blk bs n') : Persisted E n' := by
  have hchain := hstart.blockChain hnil
  have hdisk : n.disk.blockChain = [] := by
    have hback : ∀ bc : BlockChain, n.mBlockChain ≠ bc ++ [n.back] := fun bc heq =>
      List.append_ne_nil_of_right_ne_nil bc (List.cons_ne_nil _ _) (heq.symm.trans hnil)
    cases h.grown with
    | fresh hnil _ => exact hnil
    | opened heq _ => exact heq.symm.trans hnil
    | appended _ heq _ => exact absurd heq (hback _)
    | replaced _ heq _ _ _ _ => exact absurd heq (hback _)
  have hhead := h.head
  rw [hnil] at hhead
  obtain ⟨p, -, rfl⟩ := hstart
  refine ⟨h.known, ?_, h.valid, ?_, .fresh hdisk (by rw [hchain]; exact Nat.le_refl 1)⟩
  · rw [stateDb_started]
    exact h.saved.moved hn.state p
  · rw [headDb_started, hchain]
    have hlogs := hhead.logs_nil.moved hn.head p
    obtain hposts | hposts := firstPosts_cases E tried n blk bs
    · rw [hposts]
      exact Or.inl ⟨hlogs, Nat.le_refl 1⟩
    · rw [hposts]
      exact Or.inr ⟨[], blk, _, rfl, hlogs.posts (hn.head.moved p)
        ⟨Ledger.admits_endBlock _ _, trivial⟩, Nat.mul_pos (by decide) (by decide)⟩

section Accepted

variable {strxs : List SignedTransaction} {l : Layer} {p : ℕ}

theorem headApplied_settleHead (hn : Sound E n) {clock : Clock} (hext : Extends E clock n blk bs)
    (ha : Attaches E n.headDb n.mTrxDb blk bs strxs l p) :
    HeadApplied E (settleHead blk bs strxs l ((n.pushBack blk).moved p)) bs strxs := by
  obtain ⟨hstate, hhead⟩ := settleHead_sameLog hn ha
  have hsound := hn.appended ha
  have hback : (settleHead blk bs strxs l ((n.pushBack blk).moved p)).back = blk :=
    List.getLastD_concat
  refine ⟨List.getLast?_concat, ?_, hext.valid, ?_, ?_⟩
  · apply ha.lists.holds.imp
    intro h' t ht
    exact (holds_settleHead hn.pool bs blk strxs l p).mpr ht
  · exact hstate.accepts hn.head hsound.state (ha.accepts hn.head)
  · rw [hback]
    exact (afterBlock_sameLog hstate hn.head hsound.state _ _ _).symm.trans hhead

theorem headApplied_swapHead (hn : Sound E n) {clock : Clock} (hcomp : Competes E clock n blk bs)
    (ha : Attaches E n.stateDb (n.competing bs) blk bs strxs l p) :
    HeadApplied E (swapHead blk bs strxs l
      { (n.setBack blk).moved p with mTrxDb := n.competing bs }) bs strxs := by
  have hstate := SameLog.moved (E := E) n.stateDb p
  have hback : (swapHead blk bs strxs l
      { (n.setBack blk).moved p with mTrxDb := n.competing bs }).back = blk :=
    List.getLastD_concat
  refine ⟨List.getLast?_concat, ?_, hcomp.valid, ?_, ?_⟩
  · apply ha.lists.holds.imp
    exact fun _ _ ht => ht.moveTransactions (hn.pool.moveTransactions _ _ _) (by decide) _
  · exact hstate.accepts hn.state (hn.state.moved p) (ha.accepts hn.state)
  · rw [hback]
    exact (afterBlock_sameLog hstate hn.state (hn.state.moved p) _ _ _).symm.trans
      (ha.afterBlock hn.state)

theorem appended (h : Persisted E n) (hn : Sound E n) {clock : Clock}
    (hext : Extends E clock n blk bs) (ha : Attaches E n.headDb n.mTrxDb blk bs strxs l p) :
    Persisted E (settleHead blk bs strxs l ((n.pushBack blk).moved p)) := by
  have hsettle := hn.settle ha
  have hsaved : (settleHead blk bs strxs l ((n.pushBack blk).moved p)).disk.blockChain =
      n.mBlockChain := List.dropLast_concat
  have hback : (settleHead blk bs strxs l ((n.pushBack blk).moved p)).back = blk :=
    List.getLastD_concat
  have hvalid : validate E.hashBlock n.mBlockChain :=
      ((validate_append hext.nonempty).mp hext.valid).1
  have hb := headApplied_settleHead hn hext ha
  refine ⟨fun _ _ ht => ht, ?_, ?_, ?_, .appended ?_ ?_ hb⟩
  · rw [hsaved]
    exact (h.head.moved hn.head p).carries (hn.head.moved p) hsettle
  · rw [hsaved]
    exact fun _ => hvalid
  · exact (ha.endsWith hn.head h.head n.mBlockChain).carries (ha.wellFormed hn.head)
      (hsettle.rebase l)
  · rw [hsaved]
    exact hext.nonempty
  · rw [hsaved, hback]
    rfl

theorem replaced (h : Persisted E n) (hn : Sound E n) {clock : Clock}
    (hcomp : Competes E clock n blk bs)
    (ha : Attaches E n.stateDb (n.competing bs) blk bs strxs l p) :
    Persisted E (swapHead blk bs strxs l
      { (n.setBack blk).moved p with mTrxDb := n.competing bs }) := by
  have hback : (swapHead blk bs strxs l
      { (n.setBack blk).moved p with mTrxDb := n.competing bs }).back = blk :=
    List.getLastD_concat
  have hb := headApplied_swapHead hn hcomp ha
  refine ⟨fun h' t ht => (holds_competed hn.pool bs).mpr (h.known h' t ht),
    h.saved.moved hn.state p, h.valid,
    ha.endsWith hn.state h.saved _, ?_⟩
  cases h.grown with
  | fresh hnil hlen =>
    refine .fresh hnil ?_
    change (n.mBlockChain.dropLast ++ [blk]).length ≤ 1
    rw [List.length_append, List.length_dropLast, List.length_singleton]
    omega
  | opened heq hempty =>
    have hne : n.disk.blockChain ≠ [] := fun hnil => hcomp.nonempty (heq.trans hnil)
    have hlast : n.disk.blockChain.getLastD default = n.back := by rw [back, heq]
    refine .replaced hne ?_ ?_ ?_ ?_ hb
    · rw [hback]
      change n.mBlockChain.dropLast ++ [blk] = _
      rw [heq]
      rfl
    · rw [hback]
      exact hcomp.sibling.trans (congrArg Block.prevBlock hlast.symm)
    · rw [hback]
      exact fun hlink => hcomp.unlinked (hlink.trans (congrArg E.hashBlock hlast))
    · rw [hback]
      exact hlast ▸ hcomp.lower
  | appended hne heq _ =>
    refine .appended hne ?_ hb
    rw [hback]
    change n.mBlockChain.dropLast ++ [blk] = _
    rw [heq, List.dropLast_concat]
    rfl
  | replaced hne heq hsib hunlinked hlow _ =>
    refine .replaced hne ?_ ?_ ?_ ?_ hb
    · rw [hback]
      change n.mBlockChain.dropLast ++ [blk] = _
      rw [heq, List.dropLast_concat]
      rfl
    · rw [hback]
      exact hcomp.sibling.trans hsib
    · rw [hback]
      exact fun hlink => hunlinked (hcomp.sibling.symm.trans hlink)
    · rw [hback]
      exact Nat.lt_trans hcomp.lower hlow

end Accepted

end Persisted

theorem persisted_inductive : Inductive E {} (Sound E) (Persisted E) where
  empty := Persisted.empty
  generated hn h hgen := by
    obtain ⟨p, -, hstate, -⟩ := hgen.moves
    exact h.congr hn hgen.blockChain hgen.applied (fun _ _ ht => hgen.trxDb ▸ ht) hgen.disk
      hgen.headTrx hstate
  learn hn h hnew _ := h.congr hn rfl rfl (fun _ _ ht => ht.insert hnew) rfl rfl
    (Database.moved_self _).symm
  store hn h _ := h.congr hn rfl rfl (fun _ _ ht => ht) rfl rfl (Database.moved_self _).symm
  start hn h hnil _ hstart := h.start hn hnil hstart
  refused hn h _ _ _ := h.congr hn rfl rfl
    (fun _ _ ht => (holds_competed hn.pool _).mpr ht) rfl rfl (Database.moved_self _).symm
  appended hn h _ hext ha := h.appended hn hext ha
  replaced hn h _ hcomp ha := h.replaced hn hcomp ha

theorem Persisted.reopen_eq (h : Persisted E n) (hn : Sound E n) (hE : TrailingPrevious E) :
    ∃ p, reopen E n = .ok () (n.load.moved p) := by
  have hsaved : EndsWith E n.load.stateDb n.load.mBlockChain := by
    rw [stateDb_load hn]
    exact h.saved.moved hn.state 0
  obtain ⟨b, p, hfind, hlast⟩ := hsaved.findLastBlock hE h.valid
  have hcall : DbPtr.stateDb.call (DbM.findLastBlock E) n.load = .ok b (n.load.moved p) := by
    unfold DbPtr.call
    have hget : DbM.findLastBlock E (DbPtr.stateDb.get n.load) = _ := hfind
    rw [hget]
    rfl
  refine ⟨p, ?_⟩
  unfold reopen synchronizeState
  rw [Lib.bind_ok hcall]
  have hchain : resizeChain b.prevBlock (n.load.moved p).mBlockChain
      (n.load.moved p).mBlockChain.length = n.load.mBlockChain := resizeChain_eq hlast
  change EStateM.Result.ok () { n.load.moved p with
    mBlockChain := resizeChain b.prevBlock (n.load.moved p).mBlockChain
      (n.load.moved p).mBlockChain.length
    applied := (n.load.moved p).applied.take (resizeChain b.prevBlock
      (n.load.moved p).mBlockChain (n.load.moved p).mBlockChain.length).length } = _
  rw [hchain]
  have happlied : (n.load.moved p).applied.take n.load.mBlockChain.length =
      (n.load.moved p).applied := by
    change (n.applied.take n.disk.blockChain.length).take n.disk.blockChain.length = _
    rw [List.take_take, Nat.min_self]
    rfl
  rw [happlied]
  rfl

theorem Persisted.reopen (h : Persisted E n) (hn : Sound E n) (hE : TrailingPrevious E)
    (hok : reopen E n = .ok () n') : Persisted E n' := by
  obtain ⟨p, heq⟩ := h.reopen_eq hn hE
  cases heq.symm.trans hok
  have hstate : n.load.stateDb = n.stateDb.moved 0 := stateDb_load hn
  have hsaved := (h.saved.moved hn.state 0).moved (hn.state.moved 0) p
  refine ⟨fun _ _ ht => ht, ?_, h.valid, ?_, .opened rfl rfl⟩
  · rw [stateDb_moved, hstate]
    exact hsaved
  · rw [headDb_moved, headDb, hstate]
    exact hsaved.carries ((hn.state.moved 0).moved p) (Carries.overlay _)

theorem Live.persisted (h : Live E n) (hE : TrailingPrevious E) : Persisted E n := by
  have hand := sound_inductive.and (persisted_inductive (E := E))
  have key : Sound E n ∧ Persisted E n := by
    induction h with
    | empty => exact hand.empty
    | step _ hstep ih =>
      cases hstep with
      | call hok => exact hand.call (fun hn => hn.1) ih (Rules.allow_default _ _ _) hok
      | startBlock hok => exact hand.generation ih (fun _ => trivial) (startBlock_effect hok)
      | createGenBlock hok =>
        exact hand.generation ih (fun _ => trivial) (createGenBlock_effect hok)
    | reopen _ hok ih => exact ⟨ih.1.reopen hok, ih.2.reopen ih.1 hE hok⟩
  exact key.2

def HeadAccepted (n : Node) : Prop :=
  2 ≤ n.mBlockChain.length ∧ n.mHeadTrx.localChanges ≠ []

theorem headAccepted_inductive : Inductive E {} (Sound E) fun n =>
    2 ≤ n.mBlockChain.length → n.HeadAccepted where
  empty hlen := absurd hlen (by decide)
  generated _ h hgen hlen := by
    rw [hgen.blockChain] at hlen
    rw [HeadAccepted, hgen.blockChain, hgen.headTrx]
    exact h hlen
  learn _ h _ _ := h
  store _ h _ := h
  start _ _ hnil _ hstart hlen := by
    rw [hstart.blockChain hnil, List.length_singleton] at hlen
    exact absurd hlen (by decide)
  refused _ h _ _ _ := h
  appended hn _ _ _ ha hlen := ⟨hlen, ha.localChanges_ne_nil hn.head⟩
  replaced hn _ _ _ ha hlen := ⟨hlen, ha.localChanges_ne_nil hn.state⟩

theorem headAccepted_of_reachable (hr : Reachable E n) (hlen : 2 ≤ n.mBlockChain.length) :
    n.HeadAccepted :=
  headAccepted_inductive.reachable (hr.mono fun _ _ _ _ => Rules.allow_default _ _ _) hlen

/-- The `full_block_state` of the head. -/
structure HeadBlock (n : Node) (fbs : FullBlockState) : Prop where
  blk : fbs.blk = n.back
  blkState : n.applied.getLast? = some fbs.blkState
  trxs : List.Forall₂ n.mTrxDb.Holds fbs.blkState.signedTransactions fbs.trxs

def Recovers (E : Externals) (clock : Clock) (n : Node) (fbs : FullBlockState) : Prop :=
  ∃ n₁ n₂, reopen E n = .ok () n₁ ∧ addFullBlock E clock fbs n₁ = .ok 1 n₂ ∧
    n₂.mBlockChain = n.mBlockChain ∧ n₂.headDb.flat = n.headDb.flat

structure Recoverable (clock : Clock) (n : Node) (bs : BlockState) : Prop where
  time : ¬ seconds (clock 0) + 30 < n.back.utcTime
  applied : ∀ h ∈ bs.signedTransactions, n.disk.trxDb[TrxKey.mk .applied h]? = none
  head : n.disk.blockChain.length < n.mBlockChain.length →
    ∀ h ∈ bs.signedTransactions, n.disk.trxDb[TrxKey.mk .head h]? = none

section Delivery

variable {fbs : FullBlockState} {p : ℕ} (h : Persisted E n) (hn : Sound E n)
  (hb : n.HeadBlock fbs)

include h hn hb

theorem Persisted.holds_delivered : List.Forall₂ (TrxDb.store E n.disk.trxDb fbs.trxs).1.Holds
    fbs.blkState.signedTransactions fbs.trxs := by
  obtain ⟨hkeys, hheld⟩ := hn.pool.keyed_of_holds hb.trxs
  rw [← hkeys, List.forall₂_map_left_iff, List.forall₂_same]
  intro t ht
  obtain ⟨t', ht'⟩ := hn.diskPool.known_store ht
  obtain hold | ⟨hmem, hhash⟩ := TrxDb.holds_of_store ht'
  · obtain rfl := hn.pool.holds_unique (hheld t ht) (h.known _ _ hold)
    exact ht'
  · obtain rfl := hn.pool.holds_unique (hheld t ht) (hhash ▸ hheld t' hmem)
    exact ht'

omit h in
theorem Sound.stage_delivered {k : Hashcode} (hk : k ∈ fbs.blkState.signedTransactions) :
    (TrxDb.store E n.disk.trxDb fbs.trxs).1.stage k =
      some ((n.disk.trxDb.stage k).getD .pending) := by
  rw [← (hn.pool.keyed_of_holds hb.trxs).1] at hk
  exact hn.diskPool.stage_of_store hk

end Delivery

/-- The opened node with what comes with the head, which is not yet looked at. -/
structure Delivered (E : Externals) (n : Node) (fbs : FullBlockState) (n' : Node) : Prop where
  sound : Sound E n'
  quiet : n'.mGenEnabled = false
  blockChain : n'.mBlockChain = n.disk.blockChain
  known : n'.mBlockStateDb[fbs.blk.state]? = some fbs.blkState
  holds : List.Forall₂ n'.mTrxDb.Holds fbs.blkState.signedTransactions fbs.trxs
  stage : ∀ k ∈ fbs.blkState.signedTransactions,
    n'.mTrxDb.stage k = some ((n.disk.trxDb.stage k).getD .pending)
  state : SameLog E n.stateDb n'.stateDb
  head : SameLog E n.stateDb n'.headDb

variable {fbs : FullBlockState} {clock : Clock}

theorem Persisted.delivered (h : Persisted E n) (clock : Clock) (hn : Sound E n)
    (hE : TrailingPrevious E)
    (hb : n.HeadBlock fbs) (hne : n.disk.blockChain ≠ []) :
    ∃ n', Delivered E n fbs n' ∧ (Recovers E clock n fbs ↔
      ∃ n₂, addBlock E clock fbs.blk n' = .ok 1 n₂ ∧ n₂.mBlockChain = n.mBlockChain ∧
        n₂.headDb.flat = n.headDb.flat) := by
  obtain ⟨p, hopen⟩ := h.reopen_eq hn hE
  have hsound := hn.reopen hopen
  have hstate : (n.load.moved p).stateDb = (n.stateDb.moved 0).moved p := by
    rw [stateDb_moved, stateDb_load hn]
  have hlog : SameLog E n.stateDb (n.load.moved p).stateDb := by
    rw [hstate]
    exact (SameLog.moved _ 0).trans (SameLog.moved _ p)
  refine ⟨(n.load.moved p).store E fbs, ⟨hsound.store fbs, rfl, rfl,
    Std.ExtTreeMap.getElem?_insert_self, h.holds_delivered hn hb,
    fun k hk => hn.stage_delivered hb hk, hlog, hlog.trans (SameLog.overlay hsound.state)⟩, ?_⟩
  constructor
  · rintro ⟨n₁, n₂, hok, hadd, hback⟩
    cases hopen.symm.trans hok
    exact ⟨n₂, of_addFullBlock_quiet rfl hne hadd, hback⟩
  · rintro ⟨n₂, hadd, hback⟩
    exact ⟨_, n₂, hopen, addFullBlock_quiet rfl hne hadd, hback⟩

section Delivered

variable (h : Delivered E n fbs n') (hn : Sound E n) (hb : n.HeadBlock fbs)
  (hhead : HeadApplied E n fbs.blkState fbs.trxs)

include h hn hb hhead

omit hb in
theorem Delivered.accepts : DbM.Accepts E n'.stateDb fbs.blkState.generatorName fbs.trxs
      fbs.blkState.stateDb ∧
    DbM.Accepts E n'.headDb fbs.blkState.generatorName fbs.trxs fbs.blkState.stateDb :=
  ⟨h.state.accepts hn.state h.sound.state hhead.accepts,
    h.head.accepts hn.state h.sound.head hhead.accepts⟩

omit h in
theorem HeadApplied.flat {db db' : Database} (hdb : WellFormed E db) (hlog : SameLog E n.stateDb db)
    (hafter : SameLog E (afterBlock E db fbs.blk fbs.blkState.generatorName fbs.trxs) db') :
    db'.flat = n.headDb.flat := by
  have hsame := (afterBlock_sameLog hlog hn.state hdb fbs.blk fbs.blkState.generatorName
    fbs.trxs).trans hafter
  rw [hb.blk] at hsame
  rw [hsame.flat, hhead.log.flat]

theorem Delivered.appended (hne : n.disk.blockChain ≠ [])
    (heq : n.mBlockChain = n.disk.blockChain ++ [n.back]) :
    (∃ n₂, addBlock E clock fbs.blk n' = .ok 1 n₂ ∧ n₂.mBlockChain = n.mBlockChain ∧
      n₂.headDb.flat = n.headDb.flat) ↔ Recoverable clock n fbs.blkState := by
  have hvalid := hhead.valid
  rw [heq, ← hb.blk, ← h.blockChain] at hvalid
  have hne' : n'.mBlockChain ≠ [] := by rwa [h.blockChain]
  have hfollows : Follows E.hashBlock (E.hashBlock n'.back) fbs.blk :=
    ((validate_append hne').mp hvalid).2.2
  have hunlinked : ∀ bs, ¬ Competes E clock n' fbs.blk bs := fun bs hc =>
      hc.unlinked hfollows.linked
  have hlen : n.disk.blockChain.length < n.mBlockChain.length := by
    rw [heq, List.length_append, List.length_singleton]
    exact Nat.lt_succ_self _
  constructor
  · rintro ⟨n₂, hadd, -⟩
    obtain ⟨bs, strxs, l, p, hext, ha, -⟩ | ⟨bs, -, -, -, hcomp, -⟩ :=
      (addBlock_quiet h.quiet hadd).1.accepted
    · cases hext.known.symm.trans h.known
      have hpending := h.sound.pool.lists_iff.mp ⟨strxs, ha.lists⟩
      have hfree : ∀ g : Group, g ≠ .pending → ∀ k ∈ fbs.blkState.signedTransactions,
          n.disk.trxDb[TrxKey.mk g k]? = none := by
        intro g hg k hk
        by_contra hsome
        have hstage := hn.diskPool.stage_eq_some.mpr (Option.isSome_iff_ne_none.mpr hsome)
        have heq := (h.stage k hk).symm.trans (hpending k hk)
        rw [hstage] at heq
        exact hg (Option.some.inj heq)
      refine ⟨?_, hfree .applied (by decide), fun _ => hfree .head (by decide)⟩
      rw [← hb.blk]
      exact hext.time
    · exact absurd hcomp (hunlinked bs)
  · intro hr
    have hstage : ∀ k ∈ fbs.blkState.signedTransactions, n'.mTrxDb.stage k = some .pending := by
      intro k hk
      rw [h.stage k hk]
      obtain hpending | ⟨-, hsome⟩ := hn.diskPool.stage_unapplied (hr.applied k hk)
      · rw [hpending]
      · exact absurd (hr.head hlen k hk) hsome
    have hlists := h.sound.pool.lists_of_holds h.holds hstage
    have hext : Extends E clock n' fbs.blk fbs.blkState :=
      ⟨⟨hne', h.known, by rw [hb.blk]; exact hr.time⟩, hfollows.linked, hvalid⟩
    obtain ⟨l, p, ha, hadd⟩ | ⟨hno, -⟩ := addBlock_extends h.sound h.quiet hext
      (fun strxs hl => h.sound.pool.forall₂_unique hl.holds h.holds) (h.accepts hn hhead).2
    · refine ⟨_, hadd, ?_, hhead.flat hn hb h.sound.head h.head
        (settleHead_sameLog h.sound ha).2⟩
      rw [heq, ← hb.blk, ← h.blockChain]
      rfl
    · exact absurd hlists hno

theorem Delivered.replaced (hne : n.disk.blockChain ≠ [])
    (heq : n.mBlockChain = n.disk.blockChain.dropLast ++ [n.back])
    (hsib : n.back.prevBlock = (n.disk.blockChain.getLastD default).prevBlock)
    (hunlinked : n.back.prevBlock ≠ E.hashBlock (n.disk.blockChain.getLastD default))
    (hlow : E.hashBlock n.back < E.hashBlock (n.disk.blockChain.getLastD default)) :
    (∃ n₂, addBlock E clock fbs.blk n' = .ok 1 n₂ ∧ n₂.mBlockChain = n.mBlockChain ∧
      n₂.headDb.flat = n.headDb.flat) ↔ Recoverable clock n fbs.blkState := by
  have hvalid := hhead.valid
  have hback : n'.back = n.disk.blockChain.getLastD default := by rw [back, h.blockChain]
  rw [← hb.blk, ← hback] at hsib hunlinked hlow
  rw [heq, ← hb.blk, ← h.blockChain] at hvalid
  have hne' : n'.mBlockChain ≠ [] := by rwa [h.blockChain]
  have hlinked : ∀ bs, ¬ Extends E clock n' fbs.blk bs := fun bs he => hunlinked he.linked
  have hlen : ¬ n.disk.blockChain.length < n.mBlockChain.length := by
    rw [heq, List.length_append, List.length_singleton, List.length_dropLast]
    have hpos := List.length_pos_iff.mpr hne
    omega
  have hpool : (n'.competing fbs.blkState).Pool E := h.sound.pool.moveTransactions _ _ _
  constructor
  · rintro ⟨n₂, hadd, -⟩
    obtain ⟨bs, -, -, -, hext, -⟩ | ⟨bs, strxs, l, p, hcomp, ha, -⟩ :=
      (addBlock_quiet h.quiet hadd).1.accepted
    · exact absurd hext (hlinked bs)
    · cases hcomp.known.symm.trans h.known
      refine ⟨?_, fun k hk => ?_, fun hlt => absurd hlt hlen⟩
      · rw [← hb.blk]
        exact hcomp.time
      · by_contra hsome
        have hstage := hn.diskPool.stage_eq_some.mpr (Option.isSome_iff_ne_none.mpr hsome)
        have hfound := stage_of_lists_competing fbs.blkState h.sound.pool ha.lists k hk
        rw [h.stage k hk, hstage] at hfound
        cases hfound with
        | inl hfound => cases hfound
        | inr hfound => cases hfound
  · intro hr
    have hstage : ∀ k ∈ fbs.blkState.signedTransactions,
        (n'.competing fbs.blkState).stage k = some .pending := by
      intro k hk
      rw [stage_competing fbs.blkState h.sound.pool, h.stage k hk]
      obtain hpending | ⟨hhead, -⟩ := hn.diskPool.stage_unapplied (hr.applied k hk)
      · rw [hpending]
        exact if_neg fun hmoved => absurd (Option.some.inj hmoved.2) (by decide)
      · rw [hhead]
        exact if_pos ⟨hk, rfl⟩
    have hholds : List.Forall₂ (n'.competing fbs.blkState).Holds
        fbs.blkState.signedTransactions fbs.trxs :=
      h.holds.imp fun _ _ ht => ht.moveTransactions h.sound.pool (by decide) _
    have hlists := hpool.lists_of_holds hholds hstage
    have hcomp : Competes E clock n' fbs.blk fbs.blkState :=
      ⟨⟨hne', h.known, by rw [hb.blk]; exact hr.time⟩, hback ▸ hunlinked,
        hsib, hlow, hvalid⟩
    obtain ⟨l, p, ha, hadd⟩ | ⟨hno, -⟩ := addBlock_competes h.sound h.quiet hcomp
      (fun strxs hl => hpool.forall₂_unique hl.holds hholds) (h.accepts hn hhead).1
    · refine ⟨_, hadd, ?_,
        hhead.flat hn hb h.sound.state h.state (ha.afterBlock h.sound.state)⟩
      rw [heq, ← hb.blk, ← h.blockChain]
      rfl
    · exact absurd hlists hno

end Delivered

/-- A head that `add_block` has accepted is recovered exactly when nothing it lists is on disk as
part of the head, unless it replaced one that was loaded, or of the blocks before. -/
theorem restart_recovers_iff (hE : TrailingPrevious E) (hn : Live E n) (hacc : n.HeadAccepted) :
    (∃ fbs, n.HeadBlock fbs) ∧ ∀ fbs clock, n.HeadBlock fbs →
      (Recovers E clock n fbs ↔ Recoverable clock n fbs.blkState) := by
  have h := hn.persisted hE
  have hs := hn.sound
  have hunique : ∀ {bs ts fbs}, HeadApplied E n bs ts → n.HeadBlock fbs →
      HeadApplied E n fbs.blkState fbs.trxs := by
    intro bs ts fbs hhead hb
    cases Option.some.inj (hhead.applied.symm.trans hb.blkState)
    cases hs.pool.forall₂_unique hhead.trxs hb.trxs
    exact hhead
  cases h.grown with
  | fresh _ hlen => exact absurd hacc.1 (by omega)
  | opened _ hempty => exact absurd (by rw [hempty]) hacc.2
  | @appended bs ts hne heq hhead =>
    refine ⟨⟨⟨0, 0, n.back, bs, ts⟩, rfl, hhead.applied, hhead.trxs⟩,
      fun fbs clock hb => ?_⟩
    obtain ⟨n', hd, hiff⟩ := h.delivered clock hs hE hb hne
    exact hiff.trans (hd.appended hs hb (hunique hhead hb) hne heq)
  | @replaced bs ts hne heq hsib hunlinked hlow hhead =>
    refine ⟨⟨⟨0, 0, n.back, bs, ts⟩, rfl, hhead.applied, hhead.trxs⟩,
      fun fbs clock hb => ?_⟩
    obtain ⟨n', hd, hiff⟩ := h.delivered clock hs hE hb hne
    exact hiff.trans (hd.replaced hs hb (hunique hhead hb) hne heq hsib hunlinked hlow)

def heavyNode : Node :=
  Lib.finalState ((Call.addFullBlock heavyBlock).run (Wire.externals nonceHash) noon firstNode)

theorem live_heavyNode : Live (Wire.externals nonceHash) heavyNode :=
  .step live_firstNode (.call (Lib.eq_ok_of_returned (by decide +kernel)))

theorem headAccepted_heavyNode : heavyNode.HeadAccepted :=
  headAccepted_of_reachable
    (.call reachable_firstNode trivial (Lib.eq_ok_of_returned (by decide +kernel)))
    (by decide +kernel)

theorem restart_recovers_heavyNode : (∃ fbs, heavyNode.HeadBlock fbs) ∧
    ∀ fbs clock, heavyNode.HeadBlock fbs →
      (Recovers (Wire.externals nonceHash) clock heavyNode fbs ↔
        Recoverable clock heavyNode fbs.blkState) :=
  restart_recovers_iff (trailingPrevious_wire nonceHash) live_heavyNode headAccepted_heavyNode

theorem restart_loses_head : ¬ ∀ E n clock fbs, TrailingPrevious E → Live E n →
    n.HeadAccepted →
    n.HeadBlock fbs → Recovers E clock n fbs := by
  intro h
  have hblock : heavyNode.HeadBlock heavyBlock := by
    refine ⟨by decide +kernel, by decide +kernel, .cons ⟨.head, ?_⟩ .nil⟩
    have hheld :
        heavyNode.mTrxDb[TrxKey.mk .head ((Wire.externals nonceHash).hashSignedTrx idle)]? =
        some idle := by decide +kernel
    exact hheld
  obtain ⟨n₁, n₂, hopen, hadd, -⟩ := h (Wire.externals nonceHash) heavyNode noon heavyBlock
    (trailingPrevious_wire nonceHash) live_heavyNode headAccepted_heavyNode hblock
  have hopened : n₁ = Lib.finalState (reopen (Wire.externals nonceHash) heavyNode) := by
    rw [hopen]
    rfl
  have hanswer : Lib.returned (addFullBlock (Wire.externals nonceHash) noon heavyBlock
      (Lib.finalState (reopen (Wire.externals nonceHash) heavyNode))) = some (-3) := by
    decide +kernel
  rw [← hopened, hadd] at hanswer
  cases hanswer

end Node

end Gpm
