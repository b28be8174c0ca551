import Gpm.Node.Groups
import Gpm.Node.Generation

namespace Gpm

variable {E : Externals}

namespace DbM

open Lib (Runs)

theorem applyAll_selected {db : Database} (h : WellFormed E db) (gen : Name)
    (l : List (Hashcode × SignedTransaction)) :
    ∃ q, applyAll E gen ((Ledger.select E gen (db.ledger E) l).1.map Prod.snd) (.trx db {}) =
      .ok true (((Database.trx db {}).posts E (Ledger.select E gen (db.ledger E) l).2).moved
        q) := by
  obtain ⟨db', hall, q, rfl⟩ := applyAll_runs gen
    ((Ledger.select E gen (db.ledger E) l).1.map Prod.snd) h.overlay
  rw [ledger_overlay h, Ledger.applyAll_select] at hall
  refine ⟨q, ?_⟩
  rw [Database.moved_posts]
  exact hall

end DbM

namespace Node

variable {n n' : Node} {clock : Clock} {b : Block}

theorem lists_pending {trxs : TrxDb} {l : List (Hashcode × SignedTransaction)}
    (hl : l.Sublist (E.sortByTime trxs.pendingTransactions)) :
    trxs.Lists .pending (l.map Prod.fst) (l.map Prod.snd) := by
  have hmem : ∀ e ∈ l, trxs[TrxKey.mk .pending e.1]? = some e.2 := by
    intro e he
    have hpending := (E.sortByTime_perm _).subset (hl.subset he)
    rw [TrxDb.pendingTransactions, List.mem_map] at hpending
    obtain ⟨⟨⟨g, h⟩, t⟩, hfilter, rfl⟩ := hpending
    rw [List.mem_filter, Std.ExtTreeMap.mem_toList_iff_getElem?_eq_some, decide_eq_true_eq]
      at hfilter
    rw [← hfilter.1, ← hfilter.2]
  rw [TrxDb.Lists, List.forall₂_map_left_iff, List.forall₂_map_right_iff, List.forall₂_same]
  exact hmem

/-- What a validator makes of the transactions of a block, in one overlay on the head, is what
their generator has made of them in `m_gen_trx`. -/
structure Agrees (E : Externals) (n : Node) (trxs : TrxDb) (b : Block) (bs : BlockState)
    (strxs : List SignedTransaction) (db : Database) : Prop where
  lists : trxs.Lists .pending bs.signedTransactions strxs
  accepted : DbM.applyAll E bs.generatorName strxs (.trx n.headDb {}) = .ok true db
  layer : db.layer = n.mGenTrx
  checksum : ∃ db', DbM.calculateStateHash E db = .ok bs.stateDb db'
  attached : ∃ db',
    DbM.applyBlock E b bs.generatorName strxs bs.stateDb (.trx n.headDb {}) = .ok true db'

/-- Generating a block leaves the head alone.  Applied in one overlay on it, the transactions the
generator lists are all accepted and leave the log and the indexes of `m_gen_trx`, on which the
checksum was taken. -/
theorem generator_agrees (hr : Reachable E n) (hne : n.mBlockChain ≠ [])
    (trxs : TrxDb) (gen : Name)
    (hok : createGenBlock E clock { n with mTrxDb := trxs, mGenName := gen } = .ok b n') :
    (∃ p, n'.headDb = n.headDb.moved p) ∧
      ∃ bs strxs db, n'.mBlockStateDb[b.state]? = some bs ∧ bs.generatorName = gen ∧
        Agrees E n' trxs b bs strxs db := by
  have hn := hr.sound
  unfold createGenBlock at hok
  rw [Lib.modify_bind, Lib.get_bind] at hok
  simp only [if_neg hne] at hok
  have hgen : WellFormed E (Node.genDb
      { n with mTrxDb := trxs, mGenName := gen, mGenTrx := {} }) := hn.head.overlay
  obtain ⟨bs, hbs, hname, s, hs, hlist, hsize, hhash, hlayer⟩ := of_createNextBlock hgen hok
  have heffect := createNextBlock_effect hok hne
  obtain ⟨p, -, hstate⟩ := heffect.stateDb
  have hhead : n'.headDb = n.headDb.moved p := by
    rw [headDb, heffect.headTrx, stateDb, hstate]
    rfl
  change s = Ledger.select E gen ((Database.trx n.headDb {}).ledger E)
    (E.sortByTime trxs.pendingTransactions) at hs
  rw [ledger_overlay hn.head] at hs
  have hall := DbM.applyAll_selected (hn.head.moved p) gen (E.sortByTime trxs.pendingTransactions)
  rw [Database.ledger_moved, ← hs] at hall
  obtain ⟨q, hall⟩ := hall
  generalize hdb : ((Database.trx (n.headDb.moved p) {}).posts E s.2).moved q = db at hall
  have hposts : db = (((Database.trx n.headDb {}).posts E s.2).moved p).moved q := by
    rw [← hdb, Database.moved_posts p]
    rfl
  have hsize' : db.size < DbM.chunkSize := by
    rw [hposts, Database.size_moved, Database.size_moved]
    exact hsize
  have hhash' : bs.stateDb = stateHash E db.flat := by
    rw [hposts, Database.flat_moved, Database.flat_moved]
    exact hhash
  have hname : bs.generatorName = gen := hname
  rw [← hname, ← hhead] at hall
  refine ⟨⟨p, hhead⟩, bs, s.1.map Prod.snd, db, hbs, hname, ?_, hall, ?_,
    ⟨_, DbM.calculateStateHash_eq_ok_iff.mpr ⟨hsize', hhash', rfl⟩⟩,
    ⟨_, DbM.applyBlock_of_applyAll hall hsize' hhash'⟩⟩
  · rw [hlist]
    apply lists_pending
    rw [hs]
    exact Ledger.sublist_select gen _
  · rw [hposts, Database.layer_moved, Database.layer_moved, hlayer]
    rfl

def unknownCommand : SignedTransaction := ⟨⟨1, [.other 9]⟩, []⟩

def mixedPool (E : Externals) : TrxDb :=
  Std.ExtTreeMap.insert (Std.ExtTreeMap.insert ∅ ⟨.pending, E.hashSignedTrx idle⟩ idle)
    ⟨.pending, E.hashSignedTrx unknownCommand⟩ unknownCommand

theorem generator_agrees_mixedPool : ∃ n' b bs strxs db, n'.mBlockStateDb[b.state]? = some bs ∧
    bs.generatorName = [7] ∧
      Agrees (Wire.externals nonceHash) n' (mixedPool (Wire.externals nonceHash))
        b bs strxs db := by
  have hrun : (Lib.returned (createGenBlock (Wire.externals nonceHash) noon
      { firstNode with mTrxDb := mixedPool (Wire.externals nonceHash), mGenName := [7] })).isSome =
      true := by
    decide +kernel
  obtain ⟨b, hb⟩ := Option.isSome_iff_exists.mp hrun
  exact ⟨_, b, (generator_agrees reachable_firstNode (by decide +kernel) _ _
    (Lib.eq_ok_of_returned hb)).2⟩

end Node

end Gpm
