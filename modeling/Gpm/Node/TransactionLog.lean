import Gpm.Node.BlockStates
import Gpm.StateDb.TransactionLog

namespace Gpm

open Lib (outcome)

def Database.Booked (E : Externals) (db : Database) : Prop :=
  ∃ es, Filed E db es ∧ Journal E Begun es

namespace Database.Booked

variable {E : Externals} {db db' : Database}

theorem wellFormed (h : db.Booked E) : WellFormed E db := by
  obtain ⟨es, hes, hjournal⟩ := h
  exact hes.wellFormed hjournal

theorem blank (h : db.Blank) : db.Booked E := ⟨[], Filed.blank h, .nil⟩

theorem moved (h : db.Booked E) (p : ℕ) : (db.moved p).Booked E := by
  obtain ⟨es, hes, hjournal⟩ := h
  exact ⟨es, hes.moved p, hjournal⟩

theorem overlay (h : db.Booked E) : (Database.trx db {}).Booked E := by
  obtain ⟨es, hes, hjournal⟩ := h
  exact ⟨es, hes.overlay, hjournal⟩

theorem settle (h : db.Booked E) (hs : db.Settles db') : db'.Booked E := by
  obtain ⟨es, hes, hjournal⟩ := h
  exact ⟨es, hes.settle hs, hjournal⟩

theorem update (h : db.Booked E) (u : Update) (hu : u.Proper E Begun db) :
    (u.step E db).Booked E := by
  obtain ⟨es, hes, hjournal⟩ := h
  obtain ⟨fs, hnext⟩ := hes.update hjournal startsAllowed_begun u hu
  exact ⟨es ++ fs, hnext⟩

theorem postBlock (h : db.Booked E) (b : Block) (gen : Name) :
    (db.posts E [endBlock b gen]).Booked E := by
  obtain ⟨es, hes, hjournal⟩ := h
  have hnext := hjournal.snoc (.endBlock b gen)
  refine ⟨es ++ [endBlock b gen], hes.posts ?_, hnext⟩
  rw [hes.ledger]
  exact (Ledger.editsAll_append.mp hnext.edits).2

theorem apply {t : SignedTransaction} {gen : Name} {ok : Bool} (h : db.Booked E)
    (happ : DbM.apply E t gen db = .ok ok db') : db'.Booked E := by
  have hstep := h.update (.apply t gen) trivial
  rwa [Update.step, Update.call, Lib.finalState_discard, happ] at hstep

theorem applyBlock {b : Block} {gen : Name} {ts : List SignedTransaction} {checksum : Hashcode}
    {ok : Bool} (h : db.Booked E) (happ : DbM.applyBlock E b gen ts checksum db = .ok ok db') :
    db'.Booked E := by
  have hstep := h.update (.applyBlock b gen ts checksum) trivial
  rwa [Update.step, Update.call, Lib.finalState_discard, happ] at hstep

theorem drafts (h : db.Booked E) (hd : Node.Drafts E db db') : db'.Booked E := by
  induction hd with
  | refl => exact h
  | moved p _ ih => exact ih.moved p
  | applied _ happ ih => exact (ih.overlay.apply happ).settle .merge

end Database.Booked

theorem DbPtr.outcome_call {α : Type} (q : DbPtr) (x : DbM α) (n : Node) :
    outcome (q.call x n) = outcome (x (q.get n)) := by
  rw [call]
  cases x (q.get n) <;> rfl

namespace Node

def getTransactionLog (E : Externals) (fuel : ℕ) (account type : Name)
    (startDate endDate : UInt64) : NodeM (List TrxLog) :=
  DbPtr.genTrx.call (DbM.getTransactionLog E fuel account type startDate endDate)

structure Booked (E : Externals) (n : Node) : Prop where
  state : n.stateDb.Booked E
  head : n.headDb.Booked E
  gen : n.genDb.Booked E
  draft : n.mBlockChain = [] → n.mGenTrx = {}

variable {E : Externals} {n n' : Node}

namespace Booked

theorem empty : Booked E {} where
  state := .blank Database.blank_fresh.1
  head := .blank Database.blank_fresh
  gen := (Database.Booked.blank Database.blank_fresh).overlay
  draft _ := rfl

theorem generated (h : Booked E n) (hgen : Generated E n n') : Booked E n' := by
  obtain ⟨p, -, hstate, hhead⟩ := hgen.moves
  constructor
  · rw [hstate]
    exact h.state.moved p
  · rw [hhead]
    exact h.head.moved p
  · obtain hdrafts | hdrafts := hgen.genDb
    · exact h.gen.drafts hdrafts
    · exact h.head.overlay.drafts hdrafts
  · rw [hgen.blockChain]
    exact fun hnil => (hgen.genTrx hnil).trans (h.draft hnil)

theorem of_head (hstate : n.stateDb.Booked E) (hhead : n.headDb.Booked E) (hgen : n.mGenTrx = {}) :
    Booked E n where
  state := hstate
  head := hhead
  gen := by
    rw [genDb, hgen]
    exact hhead.overlay
  draft _ := hgen

variable {blk : Block} {bs : BlockState} {strxs : List SignedTransaction} {l : Layer} {p : ℕ}

theorem start {tried : Bool} (h : Booked E n) (hnil : n.mBlockChain = [])
    (hstart : Starts E tried n blk bs n') : Booked E n' := by
  obtain ⟨p, -, rfl⟩ := hstart
  apply of_head
  · rw [stateDb_started]
    exact h.state.moved p
  · rw [headDb_started]
    obtain hes | hes := firstPosts_cases E tried n blk bs
    · rw [hes]
      exact h.head.moved p
    · rw [hes]
      exact (h.head.moved p).postBlock blk _
  · exact h.draft hnil

theorem attached {db : Database} {pool : TrxDb} (h : db.Booked E)
    (ha : Attaches E db pool blk bs strxs l p) : (Database.trx (db.moved p) l).Booked E :=
  h.overlay.applyBlock ha.applied

theorem appended (h : Booked E n) (hs : Sound E n)
    (ha : Attaches E n.headDb n.mTrxDb blk bs strxs l p) :
    Booked E (settleHead blk bs strxs l ((n.pushBack blk).moved p)) := by
  have hstate : (settleHead blk bs strxs l ((n.pushBack blk).moved p)).stateDb =
      .file (StateDatabase.commit { (n.moved p).mStateDb with toLayer := n.mHeadTrx }) :=
    congrArg Database.file hs.mStateDb_settleHead
  have hmerge : (n.headDb.moved p).Settles ((n.stateDb.moved p).append n.mHeadTrx) := .merge
  have hcommit : Database.Settles ((n.stateDb.moved p).append n.mHeadTrx)
      (settleHead blk bs strxs l ((n.pushBack blk).moved p)).stateDb := by
    rw [hstate, hs.append_mHeadTrx]
    exact .root ((StateDatabase.content_commit_iff _).mpr (Or.inr (hs.atEnd ha)))
  apply of_head
  · exact ((h.head.moved p).settle hmerge).settle hcommit
  · exact ((attached h.head ha).settle (.under hmerge)).settle (.under hcommit)
  · rfl

theorem replaced (h : Booked E n) (ha : Attaches E n.stateDb (n.competing bs) blk bs strxs l p) :
    Booked E (swapHead blk bs strxs l { (n.setBack blk).moved p with mTrxDb := n.competing bs }) :=
  of_head (h.state.moved p) (attached h.state ha) rfl

end Booked

theorem booked_inductive : Inductive E {} (Sound E) (Booked E) where
  empty := Booked.empty
  generated _ h hgen := h.generated hgen
  learn _ h _ _ := ⟨h.state, h.head, h.gen, h.draft⟩
  store _ h _ := ⟨h.state, h.head, h.gen, h.draft⟩
  start _ h hnil _ hstart := h.start hnil hstart
  refused _ h _ _ _ := ⟨h.state, h.head, h.gen, h.draft⟩
  appended hs h _ _ ha := h.appended hs ha
  replaced _ h _ _ ha := h.replaced ha

theorem ReachableBy.booked {allowed : Node → Clock → Call → Prop}
    (hr : ReachableBy E allowed n) :
    Booked E n :=
  booked_inductive.reachable (hr.mono fun n clock c _ => Rules.allow_default n clock c)

/-- The log that a node shows is exact where the records of the account are timely. -/
theorem transactionLog_exact_iff (hr : Reachable E n) {A S : Name} {fuel : ℕ}
    (hA : A ∈ n.genDb.names) (hS : S ∈ n.genDb.names)
    (hloop : ∀ r ∈ n.genDb.log E, r.data.isLoop → r.data.isIssue)
    (hfuel : (n.genDb.log E).length < fuel) (startDate endDate : UInt64) :
    outcome (getTransactionLog E fuel A S startDate endDate n) =
        .ok (n.genDb.transactionLog E A S startDate endDate) ↔
      n.genDb.Timely E A S startDate endDate := by
  obtain ⟨es, hes, hjournal⟩ := hr.booked.gen
  rw [getTransactionLog, DbPtr.outcome_call]
  exact hes.getTransactionLog_iff hjournal hA hS hloop hfuel

def issueAt (time : UInt64) : SignedTransaction where
  trx := { utcTime := time, commands := [.registerName [1] 7, .registerName [2] 8, .issue [1]] }
  sigs := [7]

def paymentAt (time : UInt64) : SignedTransaction where
  trx :=
    { utcTime := time
      commands := [.transfer { amount := 5, stockName := [1], fromName := [1], toName := [2] }] }
  sigs := [7]

def backdatedBlock : FullBlockState :=
  blockOn (Wire.externals nonceHash) firstNode.headDb 1 35 5 [issueAt 10, paymentAt 5]

def backdatedNode : Node :=
  Lib.finalState ((Call.addFullBlock backdatedBlock).run (Wire.externals nonceHash) noon firstNode)

theorem reachable_backdatedNode : Reachable (Wire.externals nonceHash) backdatedNode :=
  .call reachable_firstNode trivial (Lib.eq_ok_of_returned (by decide +kernel))

theorem domain_backdatedNode :
    ([1] ∈ backdatedNode.genDb.names ∧ [2] ∈ backdatedNode.genDb.names) ∧
      (∀ r ∈ backdatedNode.genDb.log (Wire.externals nonceHash), r.data.isLoop →
        r.data.isIssue) ∧
      (backdatedNode.genDb.log (Wire.externals nonceHash)).length < 20 := by decide +kernel

theorem transactionLog_exact_iff_backdatedNode :
    outcome (getTransactionLog (Wire.externals nonceHash) 20 [2] [1] 1 7 backdatedNode) =
      .ok (backdatedNode.genDb.transactionLog (Wire.externals nonceHash) [2] [1] 1 7) :=
  (transactionLog_exact_iff reachable_backdatedNode domain_backdatedNode.1.2
    domain_backdatedNode.1.1 domain_backdatedNode.2.1 domain_backdatedNode.2.2 1 7).mpr (by
      unfold Database.Timely
      decide +kernel)

theorem transactionLog_backdated :
    ¬ ∀ (n : Node) (A S : Name) (fuel : ℕ) (startDate endDate : UInt64),
      Reachable (Wire.externals nonceHash) n → A ∈ n.genDb.names → S ∈ n.genDb.names →
      (∀ r ∈ n.genDb.log (Wire.externals nonceHash), r.data.isLoop → r.data.isIssue) →
      (n.genDb.log (Wire.externals nonceHash)).length < fuel → startDate ≤ endDate →
      outcome (getTransactionLog (Wire.externals nonceHash) fuel A S startDate endDate n) =
        .ok (n.genDb.transactionLog (Wire.externals nonceHash) A S startDate endDate) := by
  intro h
  have hlog := h backdatedNode [1] [1] 20 7 20 reachable_backdatedNode domain_backdatedNode.1.1
    domain_backdatedNode.1.1 domain_backdatedNode.2.1 domain_backdatedNode.2.2 (by decide)
  have hlengths : (outcome (getTransactionLog (Wire.externals nonceHash) 20 [1] [1] 7 20
        backdatedNode)).toOption.map List.length = some 0 ∧
      (backdatedNode.genDb.transactionLog (Wire.externals nonceHash) [1] [1] 7 20).length = 1 := by
    decide +kernel
  rw [hlog, Except.toOption, Option.map_some, hlengths.2] at hlengths
  cases hlengths.1

end Node

end Gpm
