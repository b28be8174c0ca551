import Gpm.Node.Runs
import Gpm.StateDb.Commit

namespace Gpm

variable {E : Externals}

theorem packPosts_ne_nil (size : ℕ) (es : List Posting) (e : Posting) :
    packPosts E size (es ++ [e]) ≠ [] := by
  cases es with
  | nil => simp [packPosts, E.pack_ne_nil]
  | cons e' es => simp [packPosts, E.pack_ne_nil]

namespace Node

def blockPosts (E : Externals) (db : Database) (blk : Block) (gen : Name)
    (ts : List SignedTransaction) : List Posting :=
  (Ledger.applyAll E gen (db.ledger E) ts).2 ++ [endBlock blk gen]

theorem admitsAll_blockPosts {db : Database} (h : WellFormed E db) (blk : Block) (gen : Name)
    (ts : List SignedTransaction) : (db.ledger E).AdmitsAll E (blockPosts E db blk gen ts) :=
  Ledger.admitsAll_append (Ledger.admitsAll_applyAll h.coherent gen ts)
    ⟨Ledger.admits_endBlock blk gen, trivial⟩

section Attaches

variable {db : Database} {pool : TrxDb} {blk : Block} {bs : BlockState}
  {strxs : List SignedTransaction} {l : Layer} {p : ℕ}

theorem Attaches.layer (ha : Attaches E db pool blk bs strxs l p) (h : WellFormed E db) :
    l = ((Database.trx db {}).posts E (blockPosts E db blk bs.generatorName strxs)).layer := by
  obtain ⟨q, hq⟩ := DbM.applyBlock_posts h.overlay ha.applied
  rw [ledger_overlay h] at hq
  have hl := congrArg Database.layer hq
  exact hl.trans (Database.layer_posts_moved q _)

theorem Attaches.posts (ha : Attaches E db pool blk bs strxs l p) (h : WellFormed E db) :
    Database.trx (db.moved p) l =
      ((Database.trx db {}).moved p).posts E (blockPosts E db blk bs.generatorName strxs) := by
  rw [ha.layer h, ← Database.layer_posts_moved p, Database.moved, ← Database.posts_trx]

theorem Attaches.wellFormed (ha : Attaches E db pool blk bs strxs l p) (h : WellFormed E db) :
    WellFormed E (.trx (db.moved p) l) := by
  rw [ha.posts h]
  have hmoved := h.overlay.moved p
  apply (hmoved.ledger_posts _).2
  rw [Database.ledger_moved, ledger_overlay h]
  exact admitsAll_blockPosts h blk _ strxs

theorem Attaches.localChanges_ne_nil (ha : Attaches E db pool blk bs strxs l p)
    (h : WellFormed E db) : l.localChanges ≠ [] := by
  have hflat := congrArg Database.flat (ha.posts h)
  rw [Database.flat_posts (h.overlay.moved p).live] at hflat
  simp only [Database.flat, Database.moved, List.append_nil] at hflat
  rw [List.append_cancel_left hflat]
  exact packPosts_ne_nil _ _ _

end Attaches

structure Sound (E : Externals) (n : Node) : Prop where
  head : WellFormed E n.headDb
  state : WellFormed E n.stateDb
  inFile : n.stateDb.InFile
  committed : n.mStateDb.toLayer = {}
  headTrx : n.mHeadTrx.localChanges = [] → n.mHeadTrx = {}
  pool : n.mTrxDb.Pool E
  diskPool : n.disk.trxDb.Pool E

namespace Sound

variable {n n' : Node}

theorem empty : Sound E {} where
  head := Database.blank_fresh.wellFormed
  state := Database.Blank.wellFormed Database.blank_fresh.1
  inFile := Nat.le_refl 0
  committed := rfl
  headTrx _ := rfl
  pool := TrxDb.Pool.empty
  diskPool := TrxDb.Pool.empty

theorem generated (h : Sound E n) (hgen : Generated E n n') : Sound E n' := by
  obtain ⟨p, hp, hfile, hhead⟩ := hgen.moves
  constructor
  · rw [hhead]
    exact h.head.moved p
  · rw [hfile]
    exact h.state.moved p
  · rw [hfile]
    exact Database.inFile_moved (hp h.inFile)
  · have hlayer := congrArg Database.layer hfile
    exact hlayer.trans h.committed
  · rw [hgen.headTrx]
    exact h.headTrx
  · rw [hgen.trxDb]
    exact h.pool
  · rw [hgen.disk]
    exact h.diskPool

theorem withPool (h : Sound E n) {db : TrxDb} (hdb : db.Pool E) : Sound E { n with mTrxDb := db } :=
  ⟨h.head, h.state, h.inFile, h.committed, h.headTrx, hdb, h.diskPool⟩

theorem start {tried : Bool} {blk : Block} {bs : BlockState} (h : Sound E n)
    (hstart : Starts E tried n blk bs n') : Sound E n' := by
  obtain ⟨p, hp, rfl⟩ := hstart
  have hes := firstPosts_cases E tried n blk bs
  generalize firstPosts E tried n blk bs = es at hes
  have hstate := stateDb_started E blk bs p es n
  have hhead := headDb_started E blk bs p es n
  have hadmits : ((n.headDb.moved p).ledger E).AdmitsAll E es := by
    obtain rfl | rfl := hes
    · trivial
    · exact ⟨Ledger.admits_endBlock _ _, trivial⟩
  constructor
  · rw [hhead]
    exact ((h.head.moved p).ledger_posts hadmits).2
  · rw [hstate]
    exact h.state.moved p
  · rw [hstate]
    exact Database.inFile_moved (hp h.inFile)
  · obtain rfl | rfl := hes <;> exact h.committed
  · intro hnil
    obtain rfl | rfl := hes
    · exact h.headTrx hnil
    · exact absurd (List.append_eq_nil_iff.mp hnil).2 (E.pack_ne_nil _)
  · exact h.pool
  · exact h.diskPool

section Settle

variable {blk : Block} {bs : BlockState} {strxs : List SignedTransaction} {l : Layer} {p : ℕ}
  (h : Sound E n) (ha : Attaches E n.headDb n.mTrxDb blk bs strxs l p)

include h ha

theorem atEnd : (n.moved p).mStateDb.mFile.pos = (n.moved p).mStateDb.mFile.size :=
  DbM.applyBlock_atEnd ha.applied h.inFile

omit ha in
theorem append_mHeadTrx : (n.stateDb.moved p).append n.mHeadTrx =
    .file { (n.moved p).mStateDb with toLayer := n.mHeadTrx } := by
  have hlayer : (n.moved p).mStateDb.toLayer = {} := h.committed
  change Database.file { (n.moved p).mStateDb with
    toLayer := (n.moved p).mStateDb.toLayer.append n.mHeadTrx } = _
  rw [hlayer, Layer.nil_append]

omit ha in
theorem mStateDb_settleHead :
    (settleHead blk bs strxs l ((n.pushBack blk).moved p)).mStateDb =
      StateDatabase.commit { (n.moved p).mStateDb with toLayer := n.mHeadTrx } := by
  have hlayer : (n.moved p).mStateDb.toLayer = {} := h.committed
  have hcommit : (n.moved p).mStateDb.commit = (n.moved p).mStateDb := by
    unfold StateDatabase.commit
    rw [if_pos (congrArg Layer.localChanges hlayer)]
  change StateDatabase.commit
    { (n.moved p).mStateDb.commit with
      toLayer := (n.moved p).mStateDb.commit.toLayer.append n.mHeadTrx } = _
  rw [hcommit, hlayer, Layer.nil_append]

theorem settle :
    Carries E (n.headDb.moved p)
      (settleHead blk bs strxs l ((n.pushBack blk).moved p)).stateDb := by
  have hmerge : Carries E (n.headDb.moved p) ((n.stateDb.moved p).append n.mHeadTrx) :=
    Carries.merge (by simp [stateDb, Database.moved])
  rw [stateDb, h.mStateDb_settleHead]
  rw [h.append_mHeadTrx] at hmerge
  exact hmerge.trans (Carries.commit (h.atEnd ha))

theorem appended : Sound E (settleHead blk bs strxs l ((n.pushBack blk).moved p)) := by
  have hsettle := h.settle ha
  constructor
  · exact (hsettle.rebase l).wellFormed (ha.wellFormed h.head)
  · exact hsettle.wellFormed (h.head.moved p)
  · have hpos := StateDatabase.pos_commit
      (d := { (n.moved p).mStateDb with toLayer := n.mHeadTrx }) (h.atEnd ha)
    rw [← h.mStateDb_settleHead] at hpos
    exact hpos
  · rw [h.mStateDb_settleHead]
    exact StateDatabase.toLayer_commit h.headTrx
  · exact fun hnil => absurd hnil (ha.localChanges_ne_nil h.head)
  · exact (h.pool.moveGroup _ _).moveTransactions _ _ _
  · exact (h.pool.moveGroup _ _).moveTransactions _ _ _

end Settle

theorem replaced {blk : Block} {bs : BlockState} {strxs : List SignedTransaction} {l : Layer}
    {p : ℕ} (h : Sound E n) (ha : Attaches E n.stateDb (n.competing bs) blk bs strxs l p) :
    Sound E (swapHead blk bs strxs l
      { (n.setBack blk).moved p with mTrxDb := n.competing bs }) where
  head := ha.wellFormed h.state
  state := h.state.moved p
  inFile := Database.inFile_moved (ha.inFile h.inFile)
  committed := h.committed
  headTrx hnil := absurd hnil (ha.localChanges_ne_nil h.state)
  pool := (h.pool.moveTransactions _ _ _).moveTransactions _ _ _
  diskPool := h.diskPool

end Sound

theorem sound_inductive : Inductive E {} (fun _ => True) (Sound E) where
  empty := Sound.empty
  generated _ h hgen := h.generated hgen
  learn _ h hnew _ := h.withPool (h.pool.insert hnew)
  store _ h _ := ⟨h.head, h.state, h.inFile, h.committed, h.headTrx, h.pool, h.diskPool⟩
  start _ h _ _ hstart := h.start hstart
  refused _ h _ _ _ :=
    h.withPool ((h.pool.moveTransactions _ _ _).moveTransactions _ _ _)
  appended _ h _ _ hatt := h.appended hatt
  replaced _ h _ _ hatt := h.replaced hatt

end Node

end Gpm
