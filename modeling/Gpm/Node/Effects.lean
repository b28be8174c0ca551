import Gpm.Node.Calls
import Gpm.StateDb.Block

namespace Gpm

open Lib (Keeps)

namespace Node

def moved (p : ℕ) (n : Node) : Node :=
  { n with mStateDb := { n.mStateDb with mFile := n.mStateDb.mFile.seek p } }

section Moved

variable (p : ℕ) (n : Node)

@[simp] theorem stateDb_moved : (n.moved p).stateDb = n.stateDb.moved p := rfl

@[simp] theorem headDb_moved : (n.moved p).headDb = n.headDb.moved p := rfl

@[simp] theorem genDb_moved : (n.moved p).genDb = n.genDb.moved p := rfl

@[simp] theorem moved_moved (q : ℕ) : (n.moved p).moved q = n.moved q := rfl

@[simp] theorem mBlockChain_moved : (n.moved p).mBlockChain = n.mBlockChain := rfl

@[simp] theorem mTrxDb_moved : (n.moved p).mTrxDb = n.mTrxDb := rfl

theorem moved_self : n.moved n.mStateDb.mFile.pos = n := rfl

end Moved

end Node

namespace DbPtr

structure Lawful (q : DbPtr) : Prop where
  put_moved : ∀ n p, q.put ((q.get n).moved p) n = n.moved p
  root_get : ∀ n, (q.get n).root = n.mStateDb

theorem stateDb_lawful : stateDb.Lawful := ⟨fun _ _ => rfl, fun _ => rfl⟩

theorem headTrx_lawful : headTrx.Lawful := ⟨fun _ _ => rfl, fun _ => rfl⟩

theorem genTrx_lawful : genTrx.Lawful := ⟨fun _ _ => rfl, fun _ => rfl⟩

variable {α : Type} {q : DbPtr} {x : DbM α} {n n' : Node} {a : α}

theorem of_call (h : q.call x n = .ok a n') :
    ∃ db, x (q.get n) = .ok a db ∧ n' = q.put db n := by
  unfold call at h
  split at h
  · cases h
    exact ⟨_, ‹_›, rfl⟩
  · cases h

theorem of_call_error {e : Fault} (h : q.call x n = .error e n') :
    ∃ db, x (q.get n) = .error e db := by
  unfold call at h
  split at h
  · cases h
  · cases h
    exact ⟨_, ‹_›⟩

theorem overlay_cases (hq : q.Lawful) (hx : Keeps Grows x) (n : Node) :
    ∃ p, (n.stateDb.InFile → p ≤ n.mStateDb.mFile.size) ∧
      ((∃ a l, x (.trx (q.get n) {}) = .ok a (.trx ((q.get n).moved p) l) ∧
          q.overlay x n = .ok (a, l) (n.moved p)) ∨
        ∃ e db, x (.trx (q.get n) {}) = .error e db ∧ q.overlay x n =
          .error e (n.moved p)) := by
  have hgrows := hx (.trx (q.get n) {})
  obtain ⟨p, l, hp, hfinal⟩ := hgrows.overlay
  rw [Database.InFile, hq.root_get] at hp
  refine ⟨p, hp, ?_⟩
  unfold overlay
  cases hr : x (.trx (q.get n) {}) with
  | ok a db =>
    rw [hr] at hfinal
    cases hfinal
    exact Or.inl ⟨a, l, rfl, by simp only [Database.layer, Database.base, hq.put_moved]⟩
  | error e db =>
    rw [hr] at hfinal
    cases hfinal
    exact Or.inr ⟨e, _, rfl, by simp only [Database.base, hq.put_moved]⟩

theorem of_call_calculateStateHash {E : Externals} {hash : Hashcode} (hq : q.Lawful)
    (h : q.call (DbM.calculateStateHash E) n = .ok hash n') :
    ∃ p, (n.stateDb.InFile → p ≤ n.mStateDb.mFile.size) ∧ n' = n.moved p ∧
      (q.get n).size < DbM.chunkSize ∧ hash = stateHash E (q.get n).flat := by
  obtain ⟨db, hcalc, rfl⟩ := of_call h
  obtain ⟨hsize, hhash, rfl⟩ := DbM.calculateStateHash_eq_ok_iff.mp hcalc
  refine ⟨(q.get n).root.mFile.readPos 0 DbM.chunkSize, fun hn => ?_, hq.put_moved n _, hsize,
    hhash⟩
  rw [hq.root_get]
  exact File.readPos_le hn 0 _

end DbPtr

namespace Node

variable (E : Externals)

/-- The transactions a block lists are pending and are applied as the block says in a new
transaction, which holds `l` afterwards. -/
structure Attaches (db : Database) (pool : TrxDb) (blk : Block) (bs : BlockState)
    (strxs : List SignedTransaction) (l : Layer) (p : ℕ) : Prop where
  lists : pool.Lists .pending bs.signedTransactions strxs
  applied : DbM.applyBlock E blk bs.generatorName strxs bs.stateDb (.trx db {}) =
    .ok true (.trx (db.moved p) l)
  inFile : db.InFile → p ≤ db.root.mFile.size

def Attachable (db : Database) (pool : TrxDb) (blk : Block) (bs : BlockState) : Prop :=
  ∃ strxs l p, Attaches E db pool blk bs strxs l p

/-- The checks of `add_block` before it looks at the chain. -/
structure Candidate (clock : Clock) (n : Node) (blk : Block) (bs : BlockState) : Prop where
  nonempty : n.mBlockChain ≠ []
  known : n.mBlockStateDb[blk.state]? = some bs
  time : ¬ seconds (clock 0) + 30 < blk.utcTime

/-- A block for which `add_block` goes on to apply transactions on top of the head. -/
structure Extends (clock : Clock) (n : Node) (blk : Block) (bs : BlockState) : Prop
    extends Candidate clock n blk bs where
  linked : blk.prevBlock = E.hashBlock n.back
  valid : validate E.hashBlock (n.mBlockChain ++ [blk])

/-- A block for which `add_block` goes on to apply transactions in place of the head. -/
structure Competes (clock : Clock) (n : Node) (blk : Block) (bs : BlockState) : Prop
    extends Candidate clock n blk bs where
  unlinked : blk.prevBlock ≠ E.hashBlock n.back
  sibling : blk.prevBlock = n.back.prevBlock
  lower : E.hashBlock blk < E.hashBlock n.back
  valid : validate E.hashBlock (n.mBlockChain.dropLast ++ [blk])

def competing (n : Node) (bs : BlockState) : TrxDb :=
  n.mTrxDb.moveTransactions bs.signedTransactions .head .pending

def continueGeneration (clock : Clock) : NodeM Int := do
  startBlockIfGenerating E clock
  return 1

/-- What `add_block` can come to. -/
inductive BlockOutcome (clock : Clock) (n : Node) (blk : Block) :
    EStateM.Result Fault Node Int → Prop
  | unchanged {r : Int} {p : ℕ} :
  r ≤ 0 → (n.stateDb.InFile → p ≤ n.mStateDb.mFile.size) →
      (∀ bs, Extends E clock n blk bs → ¬ Attachable E n.headDb n.mTrxDb blk bs) →
      (∀ bs, ¬ Competes E clock n blk bs) →
      BlockOutcome clock n blk (.ok r (n.moved p))
  | refused {bs : BlockState} {p : ℕ} : Competes E clock n blk bs →
      ¬ Attachable E n.stateDb (n.competing bs) blk bs →
      (n.stateDb.InFile → p ≤ n.mStateDb.mFile.size) →
      BlockOutcome clock n blk (.ok (-3)
        { n.moved p with
          mTrxDb := (n.competing bs).moveTransactions bs.signedTransactions .pending .head })
  | appended {bs : BlockState} {strxs : List SignedTransaction} {l : Layer} {p : ℕ} :
      Extends E clock n blk bs → Attaches E n.headDb n.mTrxDb blk bs strxs l p →
      BlockOutcome clock n blk (continueGeneration E clock.tail
        (settleHead blk bs strxs l ((n.pushBack blk).moved p)))
  | replaced {bs : BlockState} {strxs : List SignedTransaction} {l : Layer} {p : ℕ} :
      Competes E clock n blk bs → Attaches E n.stateDb (n.competing bs) blk bs strxs l p →
      BlockOutcome clock n blk (continueGeneration E clock.tail
        (swapHead blk bs strxs l
          { (n.setBack blk).moved p with mTrxDb := n.competing bs }))
  | failed {bs : BlockState} {strxs : List SignedTransaction} {e : Fault} {n' : Node}
      {db db' : Database} :
      (Extends E clock n blk bs ∧ db = n.headDb ∧
          n.mTrxDb.Lists .pending bs.signedTransactions strxs ∨
        Competes E clock n blk bs ∧ db = n.stateDb ∧
          (n.competing bs).Lists .pending bs.signedTransactions strxs) →
      DbM.applyBlock E blk bs.generatorName strxs bs.stateDb (.trx db {}) = .error e db' →
      BlockOutcome clock n blk (.error e n')

variable {E} {q : DbPtr} {n : Node} {blk : Block} {bs : BlockState}

theorem applyListed_cases (hq : q.Lawful) (n : Node) (blk : Block) (bs : BlockState) :
    (∃ strxs l p, Attaches E (q.get n) n.mTrxDb blk bs strxs l p ∧
      applyListed E q blk bs n = .ok (some (strxs, l)) (n.moved p)) ∨
    (¬ Attachable E (q.get n) n.mTrxDb blk bs ∧
      ∃ p, (n.stateDb.InFile → p ≤ n.mStateDb.mFile.size) ∧
        applyListed E q blk bs n = .ok none (n.moved p)) ∨
    ∃ strxs e db p, n.mTrxDb.Lists .pending bs.signedTransactions strxs ∧
      DbM.applyBlock E blk bs.generatorName strxs bs.stateDb (.trx (q.get n) {}) = .error e db ∧
      applyListed E q blk bs n = .error e (n.moved p) := by
  unfold applyListed
  rw [Lib.get_bind]
  generalize hstrxs : n.mTrxDb.getTransactions bs.signedTransactions .pending = strxs
  by_cases hlen : strxs.length = bs.signedTransactions.length
  · have hlists : n.mTrxDb.Lists .pending bs.signedTransactions strxs := by
      rw [← hstrxs] at hlen ⊢
      exact TrxDb.length_getTransactions_iff.mp hlen
    have hunique : ∀ strxs', n.mTrxDb.Lists .pending bs.signedTransactions strxs' →
        strxs' = strxs := fun strxs' h => by
      rw [← TrxDb.getTransactions_of_lists h, hstrxs]
    obtain ⟨p, hp, hcases⟩ := DbPtr.overlay_cases hq
      (Grows.of_applyBlock (E := E) blk bs.generatorName strxs bs.stateDb) n
    simp only [hlen, ne_eq, not_true_eq_false, if_false]
    cases hcases with
    | inl hok =>
      obtain ⟨ok, l, happ, hrun⟩ := hok
      rw [Lib.bind_ok hrun]
      cases ok with
      | true =>
        refine Or.inl ⟨strxs, l, p, ⟨hlists, happ, ?_⟩, rfl⟩
        rwa [Database.InFile, hq.root_get]
      | false =>
        refine Or.inr (Or.inl ⟨?_, p, hp, rfl⟩)
        rintro ⟨strxs', l', p', ha⟩
        have happ' := ha.applied
        rw [hunique _ ha.lists, happ] at happ'
        cases happ'
    | inr herr =>
      obtain ⟨e, db, happ, hrun⟩ := herr
      exact Or.inr (Or.inr ⟨strxs, e, db, p, hlists, happ, Lib.bind_error hrun⟩)
  · simp only [ne_eq, hlen, not_false_eq_true, if_true]
    refine Or.inr (Or.inl ⟨?_, n.mStateDb.mFile.pos, id, rfl⟩)
    rintro ⟨strxs', l', p', ha⟩
    rw [TrxDb.getTransactions_of_lists ha.lists] at hstrxs
    exact hlen (hstrxs ▸ (List.Forall₂.length_eq ha.lists).symm)

theorem popBack_pushBack (n : Node) (blk : Block) (p : ℕ) :
    popBack ((n.pushBack blk).moved p) = n.moved p := by
  simp [popBack, pushBack, moved]

theorem dropLast_append_back (h : n.mBlockChain ≠ []) :
    n.mBlockChain.dropLast ++ [n.back] = n.mBlockChain := by
  rw [back, List.getLastD_eq_getLast?, List.getLast?_eq_some_getLast h, Option.getD_some,
    List.dropLast_append_getLast]

theorem setBack_setBack (h : n.mBlockChain ≠ []) (blk : Block) (p : ℕ)
    (db : TrxDb) :
    setBack n.back { (n.setBack blk).moved p with mTrxDb := db } =
      { n.moved p with mTrxDb := db } := by
  simp [setBack, moved, dropLast_append_back h]

theorem rejectAppended_eq (n : Node) (blk : Block) (p : ℕ) :
    rejectAppended ((n.pushBack blk).moved p) = .ok (-3) (n.moved p) := by
  rw [← popBack_pushBack n blk p]
  rfl

theorem rejectReplacement_eq (h : n.mBlockChain ≠ []) (blk : Block) (p : ℕ) (db : TrxDb) :
    rejectReplacement n.back { (n.setBack blk).moved p with mTrxDb := db } =
      .ok (-3) { n.moved p with mTrxDb := db } := by
  rw [← setBack_setBack h blk p db]
  rfl

theorem appendBlock_outcome {clock : Clock} (h : Candidate clock n blk bs)
    (hlink : blk.prevBlock = E.hashBlock n.back) :
    BlockOutcome E clock n blk (appendBlock E clock.tail blk bs n) := by
  have hcomp : ∀ bs', ¬ Competes E clock n blk bs' := fun _ hc => hc.unlinked hlink
  unfold appendBlock
  rw [Lib.modify_bind, Lib.get_bind]
  cases hv : validate E.hashBlock (n.pushBack blk).mBlockChain with
  | false =>
    have hinvalid : ∀ bs', ¬ Extends E clock n blk bs' := fun _ he =>
      Bool.false_ne_true (hv.symm.trans he.valid)
    simp only [Bool.false_eq_true, if_false]
    rw [← (n.pushBack blk).moved_self, rejectAppended_eq]
    exact .unchanged (by decide) id (fun _ he => absurd he (hinvalid _)) hcomp
  | true =>
    have hext : Extends E clock n blk bs := ⟨h, hlink, hv⟩
    simp only [if_true]
    obtain hok | hno | herr :=
      applyListed_cases (E := E) DbPtr.headTrx_lawful (n.pushBack blk) blk bs
    · obtain ⟨strxs, l, p, ha, hrun⟩ := hok
      rw [Lib.bind_ok hrun]
      exact .appended hext ha
    · obtain ⟨hno, p, hp, hrun⟩ := hno
      rw [Lib.bind_ok hrun]
      simp only
      rw [rejectAppended_eq]
      refine .unchanged (by decide) hp (fun bs' he => ?_) hcomp
      have hbs := he.known.symm.trans h.known
      rw [Option.some.inj hbs]
      exact hno
    · obtain ⟨strxs, e, db, p, hlists, happ, hrun⟩ := herr
      rw [Lib.bind_error hrun]
      exact .failed (Or.inl ⟨hext, rfl, hlists⟩) happ

theorem getHeadTransactions_setBack (n : Node) (hknown : n.mBlockStateDb[blk.state]? = some bs) :
    getHeadTransactions (n.setBack blk) = .ok bs.signedTransactions (n.setBack blk) := by
  have hback : (n.setBack blk).back = blk := by simp [back, setBack]
  have hstored : (n.setBack blk).mBlockStateDb[blk.state]? = some bs := hknown
  unfold getHeadTransactions
  rw [Lib.get_bind, hback]
  simp only [hstored]
  rfl

theorem replaceHead_outcome {clock : Clock} (h : Candidate clock n blk bs)
    (hlink : blk.prevBlock ≠ E.hashBlock n.back) (hsib : blk.prevBlock = n.back.prevBlock)
    (hlow : E.hashBlock blk < E.hashBlock n.back) :
    BlockOutcome E clock n blk (replaceHead E clock.tail blk bs n) := by
  have hext : ∀ bs', Extends E clock n blk bs' → ¬ Attachable E n.headDb n.mTrxDb blk bs' :=
    fun _ he => absurd he.linked hlink
  unfold replaceHead
  rw [Lib.get_bind, Lib.modify_bind, Lib.get_bind]
  cases hv : validate E.hashBlock (n.setBack blk).mBlockChain with
  | false =>
    simp only [Bool.false_eq_true, if_false]
    have hreject := rejectReplacement_eq h.nonempty blk n.mStateDb.mFile.pos n.mTrxDb
    change BlockOutcome E clock n blk (rejectReplacement n.back
      { (n.setBack blk).moved n.mStateDb.mFile.pos with mTrxDb := n.mTrxDb })
    rw [hreject]
    exact .unchanged (by decide) id hext fun _ hc => Bool.false_ne_true (hv.symm.trans hc.valid)
  | true =>
    have hcomp : Competes E clock n blk bs := ⟨h, hlink, hsib, hlow, hv⟩
    simp only [if_true]
    rw [Lib.bind_ok (getHeadTransactions_setBack n h.known), Lib.modify_bind]
    obtain hok | hno | herr := applyListed_cases (E := E) DbPtr.stateDb_lawful
      ((n.setBack blk).moveTransactions bs.signedTransactions .head .pending) blk bs
    · obtain ⟨strxs, l, p, ha, hrun⟩ := hok
      rw [Lib.bind_ok hrun]
      exact .replaced hcomp ha
    · obtain ⟨hno, p, hp, hrun⟩ := hno
      rw [Lib.bind_ok hrun]
      simp only
      rw [Lib.modify_bind]
      have hreject := rejectReplacement_eq h.nonempty blk p
        ((n.competing bs).moveTransactions bs.signedTransactions .pending .head)
      refine Eq.subst (motive := BlockOutcome E clock n blk) hreject.symm ?_
      exact .refused hcomp hno hp
    · obtain ⟨strxs, e, db, p, hlists, happ, hrun⟩ := herr
      rw [Lib.bind_error hrun]
      exact .failed (Or.inr ⟨hcomp, rfl, hlists⟩) happ

theorem addBlock_outcome (clock : Clock) (n : Node) (blk : Block) :
    BlockOutcome E clock n blk (addBlock E clock blk n) := by
  have hsame : ∀ r : Int, r ≤ 0 →
      (∀ bs, Extends E clock n blk bs → ¬ Attachable E n.headDb n.mTrxDb blk bs) →
        (∀ bs, ¬ Competes E clock n blk bs) → BlockOutcome E clock n blk (.ok r n) :=
    fun r hr he hc => .unchanged (p := n.mStateDb.mFile.pos) hr id he hc
  unfold addBlock
  rw [Lib.get_bind]
  split
  · rename_i hnil
    exact hsame 0 (by decide) (fun _ he => absurd hnil he.nonempty) fun _ hc => hc.nonempty hnil
  · rename_i hne
    cases hknown : n.mBlockStateDb[blk.state]? with
    | none =>
      simp only
      refine hsame (-1) (by decide) (fun _ he => ?_) fun _ hc => ?_
      · have hknown' := he.known
        rw [hknown'] at hknown
        cases hknown
      · have hknown' := hc.known
        rw [hknown'] at hknown
        cases hknown
    | some bs =>
      simp only
      split
      · rename_i htime
        exact hsame (-1) (by decide) (fun _ he => absurd htime he.time) fun _ hc => hc.time htime
      · rename_i htime
        have hcand : Candidate clock n blk bs := ⟨hne, hknown, htime⟩
        split
        · rename_i hlink
          exact appendBlock_outcome hcand hlink
        · rename_i hlink
          have hext : ∀ bs', Extends E clock n blk bs' →
              ¬ Attachable E n.headDb n.mTrxDb blk bs' := fun _ he => absurd he.linked hlink
          split
          · rename_i hsib
            split
            · rename_i hlow
              exact replaceHead_outcome hcand hlink hsib hlow
            · rename_i hlow
              exact hsame (-3) (by decide) hext fun _ hc => hlow hc.lower
          · rename_i hsib
            exact hsame (-1) (by decide) hext fun _ hc => hsib hc.sibling

inductive Drafts (E : Externals) (db : Database) : Database → Prop
  | refl : Drafts E db db
  | moved {db' : Database} (p : ℕ) : Drafts E db db' → Drafts E db (db'.moved p)
  | applied {db' : Database} {t : SignedTransaction} {gen : Name} {p : ℕ} {l : Layer} :
      Drafts E db db' → DbM.apply E t gen (.trx db' {}) = .ok true (.trx (db'.moved p) l) →
        Drafts E db ((db'.moved p).append l)

theorem Drafts.trans {db db' db'' : Database} (h : Drafts E db db') (h' : Drafts E db' db'') :
    Drafts E db db'' := by
  induction h' with
  | refl => exact h
  | moved p _ ih => exact ih.moved p
  | applied _ happ ih => exact ih.applied happ

/-- All that generating a block changes of what the next calls look at. -/
structure Generated (E : Externals) (n n' : Node) : Prop where
  blockChain : n'.mBlockChain = n.mBlockChain
  stateDb : ∃ p, (n.stateDb.InFile → p ≤ n.mStateDb.mFile.size) ∧
    n'.mStateDb = (n.moved p).mStateDb
  trxDb : n'.mTrxDb = n.mTrxDb
  headTrx : n'.mHeadTrx = n.mHeadTrx
  genDb : Drafts E n.genDb n'.genDb ∨ Drafts E (.trx n.headDb {}) n'.genDb
  genTrx : n.mBlockChain = [] → n'.mGenTrx = n.mGenTrx
  applied : n'.applied = n.applied
  blockState : ∀ h bs, n'.mBlockStateDb[h]? = some bs →
    n.mBlockStateDb[h]? = some bs ∨ E.hashBlockState bs = h ∧ bs.signedTransactions.Nodup
  known : ∀ h bs, n.mBlockStateDb[h]? = some bs →
    ∃ bs', n'.mBlockStateDb[h]? = some bs' ∧ (bs' = bs ∨ E.hashBlockState bs' = h)
  disk : n'.disk = n.disk

theorem Generated.moves (h : Generated E n n') :
    ∃ p, (n.stateDb.InFile → p ≤ n.mStateDb.mFile.size) ∧ n'.stateDb = n.stateDb.moved p ∧
      n'.headDb = n.headDb.moved p := by
  obtain ⟨p, hp, hstate⟩ := h.stateDb
  have hfile : n'.stateDb = n.stateDb.moved p := congrArg Database.file hstate
  refine ⟨p, hp, hfile, ?_⟩
  rw [headDb, hfile, h.headTrx]
  rfl

theorem applyPending_effect {l : List (Hashcode × SignedTransaction)} {hs : List Hashcode}
    {n n' : Node} (hok : applyPending E l n = .ok hs n') :
    hs.Sublist (l.map Prod.fst) ∧ Drafts E n.genDb n'.genDb ∧
      ∃ p g, (n.stateDb.InFile → p ≤ n.mStateDb.mFile.size) ∧
        n' = { n.moved p with mGenTrx := g } := by
  induction l generalizing n hs with
  | nil =>
    cases hok
    exact ⟨List.nil_sublist _, .refl, n'.mStateDb.mFile.pos, n'.mGenTrx, id, rfl⟩
  | cons e rest ih =>
    obtain ⟨h, t⟩ := e
    unfold applyPending at hok
    rw [Lib.get_bind] at hok
    obtain ⟨p, hp, hcases⟩ := DbPtr.overlay_cases DbPtr.genTrx_lawful
      (Grows.of_apply (E := E) t n.mGenName) n
    cases hcases with
    | inr herr =>
      obtain ⟨e, db, -, hrun⟩ := herr
      rw [Lib.bind_error hrun] at hok
      cases hok
    | inl hrun =>
      obtain ⟨ok, l', happ, hrun⟩ := hrun
      rw [Lib.bind_ok hrun] at hok
      cases ok with
      | true =>
        simp only [if_true] at hok
        rw [Lib.modify_bind] at hok
        obtain ⟨hs', n₁, hrest, hok⟩ := Lib.of_bind_ok hok
        cases hok
        obtain ⟨hsub, hdrafts, q, g, hq, rfl⟩ := ih hrest
        exact ⟨hsub.cons_cons h, (Drafts.refl.applied happ).trans hdrafts, q, g,
          fun hn => hq (hp hn), rfl⟩
      | false =>
        simp only [Bool.false_eq_true, if_false] at hok
        obtain ⟨hsub, hdrafts, q, g, hq, rfl⟩ := ih hok
        exact ⟨hsub.cons h, (Drafts.refl.moved p).trans hdrafts, q, g, fun hn =>
          hq (hp hn), rfl⟩

theorem nodup_pendingTransactions (E : Externals) (db : TrxDb) :
    ((E.sortByTime db.pendingTransactions).map Prod.fst).Nodup := by
  rw [((E.sortByTime_perm _).map Prod.fst).nodup_iff]
  unfold TrxDb.pendingTransactions
  rw [List.map_map, List.Nodup, List.pairwise_map]
  have hkeys := (Std.ExtTreeMap.distinct_keys_toList (t := db)).filter
    fun e => decide (e.1.group = .pending)
  apply hkeys.imp_of_mem
  intro a b ha hb hne heq
  apply hne
  rw [List.mem_filter, decide_eq_true_eq] at ha hb
  have hkey : a.1 = b.1 := by
    obtain ⟨⟨g, h⟩, t⟩ := a
    obtain ⟨⟨g', h'⟩, t'⟩ := b
    rw [TrxKey.mk.injEq]
    exact ⟨ha.2.trans hb.2.symm, heq⟩
  exact Std.LawfulEqCmp.compare_eq_iff_eq.mpr hkey

theorem createNextBlock_effect {clock : Clock} {b : Block} {n n' : Node}
    (hok : createNextBlock E clock n = .ok b n') (hne : n.mBlockChain ≠ []) :
    Generated E n n' := by
  unfold createNextBlock at hok
  rw [Lib.get_bind] at hok
  obtain ⟨hs, n₁, hpending, hok⟩ := Lib.of_bind_ok hok
  obtain ⟨hash, n₂, hhash, hok⟩ := Lib.of_bind_ok hok
  rw [Lib.modify_bind] at hok
  cases hok
  obtain ⟨hsub, hdrafts, p, g, hp, rfl⟩ := applyPending_effect hpending
  obtain ⟨q, hq, rfl, -, -⟩ := DbPtr.of_call_calculateStateHash DbPtr.genTrx_lawful hhash
  have hnodup : hs.Nodup := (nodup_pendingTransactions E n.mTrxDb).sublist hsub
  constructor
  · rfl
  · exact ⟨q, fun hn => hq (hp hn), rfl⟩
  · rfl
  · rfl
  · exact Or.inl (hdrafts.moved q)
  · exact fun hnil => absurd hnil hne
  · rfl
  · intro h bs hbs
    simp only [Std.ExtTreeMap.getElem?_insert, Std.compare_eq_iff_eq] at hbs
    split at hbs
    · cases hbs
      exact Or.inr ⟨‹_›, hnodup⟩
    · exact Or.inl hbs
  · intro h bs hbs
    simp only [Std.ExtTreeMap.getElem?_insert, Std.compare_eq_iff_eq]
    split
    · exact ⟨_, rfl, Or.inr ‹_›⟩
    · exact ⟨bs, hbs, Or.inl rfl⟩
  · rfl

def started (E : Externals) (blk : Block) (bs : BlockState) (p : ℕ) (es : List Posting)
    (n : Node) : Node :=
  { DbPtr.headTrx.put ((n.headDb.moved p).posts E es) n with
    mBlockStateDb := n.mBlockStateDb.insert blk.state bs
    mBlockChain := n.mBlockChain ++ [blk]
    applied := n.applied ++ [bs] }

theorem headDb_started (E : Externals) (blk : Block) (bs : BlockState) (p : ℕ)
    (es : List Posting) (n : Node) :
    (n.started E blk bs p es).headDb = (n.headDb.moved p).posts E es := by
  have hposts : (n.headDb.moved p).posts E es = .trx (n.stateDb.moved p) _ :=
    Database.posts_trx es (n.stateDb.moved p) n.mHeadTrx
  rw [hposts]
  unfold started
  rw [hposts]
  rfl

theorem stateDb_started (E : Externals) (blk : Block) (bs : BlockState) (p : ℕ)
    (es : List Posting) (n : Node) :
    (n.started E blk bs p es).stateDb = n.stateDb.moved p := by
  have hposts : (n.headDb.moved p).posts E es = .trx (n.stateDb.moved p) _ :=
    Database.posts_trx es (n.stateDb.moved p) n.mHeadTrx
  exact congrArg (fun db => Database.file db.root) hposts

def firstPosts (E : Externals) (tried : Bool) (n : Node) (blk : Block) (bs : BlockState) :
    List Posting :=
  if tried ∧ stateHash E n.headDb.flat = bs.stateDb then [endBlock blk bs.generatorName] else []

theorem firstPosts_cases (E : Externals) (tried : Bool) (n : Node) (blk : Block)
    (bs : BlockState) :
    firstPosts E tried n blk bs = [] ∨
      firstPosts E tried n blk bs = [endBlock blk bs.generatorName] := by
  unfold firstPosts
  split
  · exact Or.inr rfl
  · exact Or.inl rfl

def Starts (E : Externals) (tried : Bool) (n : Node) (blk : Block) (bs : BlockState)
    (n' : Node) : Prop :=
  ∃ p, (n.stateDb.InFile → p ≤ n.mStateDb.mFile.size) ∧
    n' = n.started E blk bs p (firstPosts E tried n blk bs)

structure Genesis (E : Externals) (t : UInt32) (tried : Bool) (n : Node) (blk : Block)
    (bs : BlockState) : Prop where
  mined : generate E.hashBlock { utcTime := t, state := E.hashBlockState bs } getMaxHash =
    (tried, blk)
  checksum : bs.stateDb = stateHash E n.stateDb.flat
  signedTransactions : bs.signedTransactions = []

namespace Genesis

variable {t : UInt32} {tried : Bool} {n : Node} {blk : Block} {bs : BlockState}

theorem blk_eq (h : Genesis E t tried n blk bs) :
    ∃ nonce, blk = { utcTime := t, state := E.hashBlockState bs, nonce } := by
  obtain ⟨nonce, hnonce⟩ := generate_eq E.hashBlock
    { utcTime := t, state := E.hashBlockState bs } getMaxHash 0 (-1)
  rw [h.mined] at hnonce
  exact ⟨nonce, hnonce⟩

theorem hashBlockState (h : Genesis E t tried n blk bs) : E.hashBlockState bs = blk.state := by
  obtain ⟨nonce, rfl⟩ := h.blk_eq
  rfl

end Genesis

theorem of_call_applyBlock_nil {r : Bool} {gen : Name} {checksum : Hashcode} {n n' : Node}
    (hok : DbPtr.headTrx.call (DbM.applyBlock E blk gen [] checksum) n = .ok r n') :
    ∃ p, (n.stateDb.InFile → p ≤ n.mStateDb.mFile.size) ∧
      n' = DbPtr.headTrx.put ((n.headDb.moved p).posts E
        (if stateHash E n.headDb.flat = checksum then [endBlock blk gen] else [])) n := by
  obtain ⟨db, hdb, rfl⟩ := DbPtr.of_call hok
  obtain ⟨p, hp, rfl⟩ := DbM.of_applyBlock_nil hdb
  exact ⟨p, hp, rfl⟩

theorem createFirstBlock_effect {clock : Clock} {n n' : Node}
    (hok : createFirstBlock E clock n = .ok () n') :
    ∃ tried b bs, Genesis E (seconds (clock 0)) tried n b bs ∧ Starts E tried n b bs n' := by
  unfold createFirstBlock at hok
  rw [Lib.get_bind] at hok
  obtain ⟨hash, n₁, hhash, hok⟩ := Lib.of_bind_ok hok
  obtain ⟨p, hp, rfl, -, hchecksum⟩ :=
      DbPtr.of_call_calculateStateHash DbPtr.stateDb_lawful hhash
  change hash = stateHash E n.stateDb.flat at hchecksum
  subst hchecksum
  let bs : BlockState := ⟨0, n.mGenName, stateHash E n.stateDb.flat, []⟩
  simp only at hok
  generalize hmined : generate E.hashBlock
    { utcTime := seconds (clock 0), state := E.hashBlockState bs } getMaxHash 0 (-1) = fb at hok
  obtain ⟨tried, b⟩ := fb
  refine ⟨tried, b, bs, ⟨hmined, rfl, rfl⟩, ?_⟩
  cases tried with
  | true =>
    simp only [if_true] at hok
    obtain ⟨u, n₂, happ, hok⟩ := Lib.of_bind_ok hok
    obtain ⟨r, happ⟩ := Lib.of_discard_ok happ
    obtain ⟨q, hq, rfl⟩ := of_call_applyBlock_nil happ
    cases hok
    refine ⟨q, fun hn => hq (hp hn), ?_⟩
    simp only [firstPosts, true_and]
    rw [headDb_moved, Database.flat_moved]
    rfl
  | false =>
    cases hok
    exact ⟨p, hp, rfl⟩

theorem addFirstBlock_effect {fbs : FullBlockState} {r : Int} {n n' : Node}
    (hok : addFirstBlock E fbs n = .ok r n') : Starts E true n fbs.blk fbs.blkState n' := by
  obtain ⟨u, n₁, happ, hok⟩ := Lib.of_bind_ok hok
  obtain ⟨a, happ⟩ := Lib.of_discard_ok happ
  obtain ⟨q, hq, rfl⟩ := of_call_applyBlock_nil happ
  cases hok
  refine ⟨q, hq, ?_⟩
  simp only [firstPosts, true_and]
  rfl

def Generation (E : Externals) (t : UInt32) (n n' : Node) : Prop :=
  n.mBlockChain ≠ [] ∧ Generated E n n' ∨
    n.mBlockChain = [] ∧ ∃ tried b bs n₁, Genesis E t tried n b bs ∧
      Starts E tried n b bs n₁ ∧ Generated E n₁ n'

theorem createGenBlock_effect {clock : Clock} {b : Block} {n n' : Node}
    (hok : createGenBlock E clock n = .ok b n') : Generation E (seconds (clock 0)) n n' := by
  unfold createGenBlock at hok
  rw [Lib.modify_bind, Lib.get_bind] at hok
  simp only at hok
  split at hok
  · rename_i hnil
    obtain ⟨u, n₁, hfirst, hok⟩ := Lib.of_bind_ok hok
    obtain ⟨tried, b', bs, hgenesis, p, hp, rfl⟩ := createFirstBlock_effect hfirst
    have hchain : n.mBlockChain ++ [b'] ≠ [] :=
      List.append_ne_nil_of_right_ne_nil _ (List.cons_ne_nil _ _)
    have hgen := createNextBlock_effect hok hchain
    exact Or.inr ⟨hnil, tried, b', bs,
      n.started E b' bs p (firstPosts E tried n b' bs), ⟨hgenesis.1, hgenesis.2, hgenesis.3⟩,
      ⟨p, hp, rfl⟩, ⟨hgen.1, hgen.2, hgen.3, hgen.4, Or.inr (hgen.5.elim id id),
        fun hnil => absurd hnil hchain, hgen.7, hgen.8, hgen.9, hgen.10⟩⟩
  · rename_i hne
    have hgen := createNextBlock_effect hok hne
    exact Or.inl ⟨hne, hgen.1, hgen.2, hgen.3, hgen.4, Or.inr (hgen.5.elim id id),
      fun hnil => absurd hnil hne, hgen.7, hgen.8, hgen.9, hgen.10⟩

theorem startBlock_effect {clock : Clock} {u : Unit} {n n' : Node}
    (hok : startBlock E clock n = .ok u n') : Generation E (seconds (clock 0)) n n' := by
  obtain ⟨b, n₁, hcreate, hok⟩ := Lib.of_bind_ok hok
  cases hok
  obtain ⟨hne, hgen⟩ | ⟨hnil, tried, b', bs, n₂, hgenesis, hstart, hgen⟩ :=
    createGenBlock_effect hcreate
  · exact Or.inl ⟨hne, hgen.1, hgen.2, hgen.3, hgen.4, hgen.5, hgen.6, hgen.7, hgen.8,
      hgen.9, hgen.10⟩
  · exact Or.inr ⟨hnil, tried, b', bs, n₂, hgenesis, hstart,
      ⟨hgen.1, hgen.2, hgen.3, hgen.4, hgen.5, hgen.6, hgen.7, hgen.8, hgen.9,
        hgen.10⟩⟩

end Node

end Gpm
