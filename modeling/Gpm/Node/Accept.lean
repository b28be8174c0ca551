import Gpm.Node.Groups
import Gpm.StateDb.Log

namespace Gpm

variable {E : Externals}

namespace TrxDb

/-- A group holds the transaction under the hash. -/
def Holds (db : TrxDb) (h : Hashcode) (t : SignedTransaction) : Prop :=
  ∃ g : Group, db[TrxKey.mk g h]? = some t

variable {db : TrxDb} {g : Group} {h : Hashcode} {t t' : SignedTransaction}
  {l : List Hashcode} {ts : List SignedTransaction}

theorem knows_iff_holds : db.knows h ↔ ∃ t, db.Holds h t := by
  rw [knows_iff]
  constructor
  · rintro ⟨g, hg⟩
    obtain ⟨t, ht⟩ := Option.isSome_iff_exists.mp hg
    exact ⟨t, g, ht⟩
  · rintro ⟨t, g, ht⟩
    exact ⟨g, by rw [ht]; rfl⟩

theorem Lists.holds (hl : db.Lists g l ts) : List.Forall₂ db.Holds l ts :=
  hl.imp fun _ _ ht => ⟨g, ht⟩

theorem Pool.holds_unique (hp : Pool E db) (ht : db.Holds h t) (ht' : db.Holds h t') :
    t = t' := by
  obtain ⟨g, hg⟩ := ht
  obtain ⟨g', hg'⟩ := ht'
  have heq := hp.exclusive (by rw [hg]; rfl) (by rw [hg']; rfl)
  subst heq
  exact Option.some.inj (hg.symm.trans hg')

theorem Pool.stage_of_holds (hp : Pool E db) (ht : db.Holds h t) (hs : db.stage h = some g) :
    db[TrxKey.mk g h]? = some t := by
  obtain ⟨t', ht'⟩ := Option.isSome_iff_exists.mp (hp.stage_eq_some.mp hs)
  rw [ht', hp.holds_unique ht ⟨g, ht'⟩]

theorem Holds.moveTransactions (ht : db.Holds h t) (hp : Pool E db) {fromGroup toGroup : Group}
    (hne : fromGroup ≠ toGroup) (l : List Hashcode) :
    (db.moveTransactions l fromGroup toGroup).Holds h t := by
  obtain ⟨g, ht⟩ := ht
  have hsome : (db[TrxKey.mk g h]?).isSome := by rw [ht]; rfl
  have hfrom := fun hs => hp.exclusive (g := fromGroup) (h := h) hs hsome
  by_cases hmoved : h ∈ l ∧ g = fromGroup
  · obtain ⟨hmem, rfl⟩ := hmoved
    refine ⟨toGroup, ?_⟩
    rw [getElem?_moveTransactions, if_neg fun hback => hne hback.2.symm, if_pos ⟨hmem, rfl⟩, ht]
    rfl
  · refine ⟨g, ?_⟩
    rw [getElem?_moveTransactions, if_neg hmoved]
    split
    · rename_i hto
      have hnone : db[TrxKey.mk fromGroup h]? = none := by
        by_contra hs
        exact hmoved ⟨hto.1, (hfrom (Option.isSome_iff_ne_none.mpr hs)).symm⟩
      rw [hnone]
      exact ht
    · exact ht

theorem Pool.holds_moveTransactions (hp : Pool E db) {fromGroup toGroup : Group}
    (hne : fromGroup ≠ toGroup) (l : List Hashcode) :
    (db.moveTransactions l fromGroup toGroup).Holds h t ↔ db.Holds h t := by
  refine ⟨?_, fun ht => ht.moveTransactions hp hne l⟩
  rintro ⟨g, ht⟩
  rw [getElem?_moveTransactions] at ht
  split at ht
  · cases ht
  · split at ht
    · cases Option.or_eq_some_iff.mp ht with
      | inl ht => exact ⟨_, ht⟩
      | inr ht => exact ⟨_, ht.2⟩
    · exact ⟨_, ht⟩

theorem Pool.holds_moveGroup (hp : Pool E db) {fromGroup toGroup : Group}
    (hne : fromGroup ≠ toGroup) : (db.moveGroup fromGroup toGroup).Holds h t ↔
      db.Holds h t := by
  rw [moveGroup_eq]
  exact hp.holds_moveTransactions hne _

theorem Holds.insert (ht : db.Holds h t) (hnew : ¬ db.knows (E.hashSignedTrx t')) :
    Holds (db.insert ⟨g, E.hashSignedTrx t'⟩ t') h t := by
  have hold := knows_iff_holds.mpr ⟨t, ht⟩
  obtain ⟨g', ht⟩ := ht
  refine ⟨g', ?_⟩
  rw [getElem?_insert', if_neg, ht]
  rintro heq
  cases heq
  exact hnew hold

theorem holds_of_insert {k : TrxKey} (ht : Holds (db.insert k t') h t) :
    db.Holds h t ∨ k.hash = h ∧ t' = t := by
  obtain ⟨g', ht⟩ := ht
  rw [getElem?_insert'] at ht
  split at ht
  · rename_i hkey
    subst hkey
    exact Or.inr ⟨rfl, Option.some.inj ht⟩
  · exact Or.inl ⟨g', ht⟩

theorem Pool.lists_of_holds (hp : Pool E db) (hts : List.Forall₂ db.Holds l ts)
    (hl : ∀ h ∈ l, db.stage h = some g) : db.Lists g l ts := by
  induction hts with
  | nil => exact .nil
  | cons ht _ ih =>
    rw [List.forall_mem_cons] at hl
    exact .cons (hp.stage_of_holds ht hl.1) (ih hl.2)

theorem Pool.keyed_of_holds (hp : Pool E db) (hts : List.Forall₂ db.Holds l ts) :
    ts.map E.hashSignedTrx = l ∧ ∀ t ∈ ts, db.Holds (E.hashSignedTrx t) t := by
  induction hts with
  | nil => exact ⟨rfl, List.forall_mem_nil _⟩
  | cons ht _ ih =>
    have hkey := hp.keyed ht.choose_spec
    rw [List.map_cons, hkey, ih.1, List.forall_mem_cons, hkey]
    exact ⟨rfl, ht, ih.2⟩

theorem Pool.forall₂_unique (hp : Pool E db) {ts' : List SignedTransaction}
    (hts : List.Forall₂ db.Holds l ts) (hts' : List.Forall₂ db.Holds l ts') : ts = ts' := by
  have hunique : Relator.RightUnique db.Holds := fun _ _ _ ht ht' => hp.holds_unique ht ht'
  exact hunique.forall₂ hts hts'

section Store

theorem Pool.store (hp : Pool E db) (ts : List SignedTransaction) :
    Pool E (TrxDb.store E db ts).1 := by
  induction ts generalizing db with
  | nil => exact hp
  | cons t ts ih =>
    unfold TrxDb.store
    split
    · exact ih hp
    · exact ih (hp.insert ‹_›)

theorem holds_of_store (ht : (TrxDb.store E db ts).1.Holds h t) :
    db.Holds h t ∨ t ∈ ts ∧ E.hashSignedTrx t = h := by
  induction ts generalizing db with
  | nil => exact Or.inl ht
  | cons t' ts ih =>
    unfold TrxDb.store at ht
    split at ht
    · obtain hold | hnew := ih ht
      · exact Or.inl hold
      · exact Or.inr ⟨List.mem_cons_of_mem _ hnew.1, hnew.2⟩
    · obtain hold | hnew := ih ht
      · obtain hold | ⟨rfl, rfl⟩ := holds_of_insert hold
        · exact Or.inl hold
        · exact Or.inr ⟨List.mem_cons_self, rfl⟩
      · exact Or.inr ⟨List.mem_cons_of_mem _ hnew.1, hnew.2⟩

theorem Pool.stage_store (hp : Pool E db) (ts : List SignedTransaction) (h : Hashcode) :
    (TrxDb.store E db ts).1.stage h =
      if db.stage h = none ∧ h ∈ ts.map E.hashSignedTrx then some .pending else db.stage h := by
  induction ts generalizing db with
  | nil => simp [TrxDb.store]
  | cons t ts ih =>
    unfold TrxDb.store
    split
    · rename_i hknown
      have hstage := knows_iff_stage.mp hknown
      rw [ih hp]
      grind
    · rename_i hnew
      have hstage := mt knows_iff_stage.mpr hnew
      have hinsert := hp.stage_insert (g := .pending) (h := h) hnew
      rw [ih (hp.insert hnew), hinsert]
      grind

theorem Pool.stage_of_store (hp : Pool E db) (hmem : h ∈ ts.map E.hashSignedTrx) :
    (TrxDb.store E db ts).1.stage h = some ((db.stage h).getD .pending) := by
  rw [hp.stage_store]
  cases hs : db.stage h with
  | none => exact if_pos ⟨rfl, hmem⟩
  | some g => exact if_neg fun hnone => Option.some_ne_none g hnone.1

theorem Pool.stage_unapplied (hp : Pool E db) (hnone : db[TrxKey.mk .applied h]? = none) :
    (db.stage h).getD .pending = .pending ∨
      (db.stage h).getD .pending = .head ∧ db[TrxKey.mk .head h]? ≠ none := by
  cases hs : db.stage h with
  | none => exact Or.inl rfl
  | some g =>
    have hsome := hp.stage_eq_some.mp hs
    cases g with
    | pending => exact Or.inl rfl
    | head => exact Or.inr ⟨rfl, Option.isSome_iff_ne_none.mp hsome⟩
    | applied =>
      rw [hnone] at hsome
      cases hsome

theorem Pool.known_store (hp : Pool E db) (ht : t ∈ ts) :
    ∃ t', (TrxDb.store E db ts).1.Holds (E.hashSignedTrx t) t' := by
  apply knows_iff_holds.mp
  rw [knows_iff_stage, hp.stage_of_store (List.mem_map_of_mem ht)]
  exact Option.some_ne_none _

end Store

end TrxDb

/-- The same bytes, and the same accounts and names in them. -/
structure SameLog (E : Externals) (db db' : Database) : Prop where
  flat : db'.flat = db.flat
  ledger : db'.ledger E = db.ledger E

namespace SameLog

variable {db db' db'' : Database}

theorem refl (db : Database) : SameLog E db db := ⟨rfl, rfl⟩

theorem symm (h : SameLog E db db') : SameLog E db' db := ⟨h.flat.symm, h.ledger.symm⟩

theorem trans (h : SameLog E db db') (h' : SameLog E db' db'') : SameLog E db db'' :=
  ⟨h'.flat.trans h.flat, h'.ledger.trans h.ledger⟩

theorem moved (db : Database) (p : ℕ) : SameLog E db (db.moved p) :=
  ⟨Database.flat_moved p db, Database.ledger_moved p⟩

theorem of_carries (hdb : WellFormed E db) (h : Carries E db db') : SameLog E db db' :=
  ⟨h.flat, h.ledger hdb⟩

theorem overlay (hdb : WellFormed E db) : SameLog E db (.trx db {}) :=
  of_carries hdb (Carries.overlay db)

theorem size (h : SameLog E db db') : db'.size = db.size := by
  rw [← Database.length_flat, h.flat, Database.length_flat]

theorem posts (h : SameLog E db db') (hdb : WellFormed E db) (hdb' : WellFormed E db')
    {es : List Posting} (hes : (db.ledger E).AdmitsAll E es) :
    SameLog E (db.posts E es) (db'.posts E es) := by
  constructor
  · rw [Database.flat_posts hdb.live, Database.flat_posts hdb'.live, h.flat, h.size]
  · rw [(hdb.ledger_posts hes).1, (hdb'.ledger_posts (by rwa [h.ledger])).1, h.ledger]

theorem accepts (h : SameLog E db db') (hdb : WellFormed E db) (hdb' : WellFormed E db')
    {gen : Name} {ts : List SignedTransaction} {checksum : Hashcode}
    (ha : DbM.Accepts E db gen ts checksum) : DbM.Accepts E db' gen ts checksum := by
  have hposts := h.posts hdb hdb' (Ledger.admitsAll_applyAll hdb.coherent gen ts)
  constructor
  · rw [h.ledger]
    exact ha.applied
  · rw [h.ledger, hposts.size]
    exact ha.size_lt
  · rw [h.ledger, hposts.flat]
    exact ha.hash

end SameLog

namespace Node

section Moves

variable {n : Node} {h : Hashcode} {t : SignedTransaction} (hp : n.mTrxDb.Pool E) (bs : BlockState)

include hp

theorem holds_competed :
    ((n.competing bs).moveTransactions bs.signedTransactions .pending .head).Holds h t ↔
      n.mTrxDb.Holds h t := by
  have hpool : (n.competing bs).Pool E := hp.moveTransactions _ _ _
  rw [hpool.holds_moveTransactions (by decide)]
  exact hp.holds_moveTransactions (by decide) _

theorem holds_settleHead (blk : Block) (strxs : List SignedTransaction) (l : Layer) (p : ℕ) :
    (settleHead blk bs strxs l ((n.pushBack blk).moved p)).mTrxDb.Holds h t ↔
      n.mTrxDb.Holds h t := by
  change ((n.mTrxDb.moveGroup .head .applied).moveTransactions bs.signedTransactions .pending
    .head).Holds h t ↔ _
  rw [(hp.moveGroup _ _).holds_moveTransactions (by decide), hp.holds_moveGroup (by decide)]

end Moves

def afterBlock (E : Externals) (db : Database) (blk : Block) (gen : Name)
    (ts : List SignedTransaction) : Database :=
  (Database.trx db {}).posts E (blockPosts E db blk gen ts)

variable {db db' : Database} {pool : TrxDb} {blk : Block} {bs : BlockState}
  {strxs : List SignedTransaction} {l : Layer} {p : ℕ}

theorem afterBlock_sameLog (h : SameLog E db db') (hdb : WellFormed E db)
    (hdb' : WellFormed E db') (blk : Block) (gen : Name) (ts : List SignedTransaction) :
    SameLog E (afterBlock E db blk gen ts) (afterBlock E db' blk gen ts) := by
  have hover : SameLog E (.trx db {}) (.trx db' {}) :=
    (SameLog.overlay hdb).symm.trans (h.trans (SameLog.overlay hdb'))
  have hadmits : ((Database.trx db {}).ledger E).AdmitsAll E (blockPosts E db blk gen ts) := by
    rw [ledger_overlay hdb]
    exact admitsAll_blockPosts hdb blk gen ts
  have hposts := hover.posts hdb.overlay hdb'.overlay hadmits
  have hsame : blockPosts E db' blk gen ts = blockPosts E db blk gen ts := by
    rw [blockPosts, blockPosts, h.ledger]
  rw [afterBlock, afterBlock, hsame]
  exact hposts

theorem afterBlock_of_applyBlock {gen : Name} {checksum : Hashcode} (hdb : WellFormed E db)
    (happ : DbM.applyBlock E blk gen strxs checksum (.trx db {}) = .ok true db') :
    SameLog E (afterBlock E db blk gen strxs) db' ∧ WellFormed E db' := by
  obtain ⟨p, rfl⟩ := DbM.applyBlock_posts hdb.overlay happ
  have hadmits : ((Database.trx db {}).ledger E).AdmitsAll E (blockPosts E db blk gen strxs) := by
    rw [ledger_overlay hdb]
    exact admitsAll_blockPosts hdb blk gen strxs
  rw [ledger_overlay hdb, ← Database.moved_posts]
  exact ⟨SameLog.moved _ p, (hdb.overlay.ledger_posts hadmits).2.moved p⟩

theorem Attaches.afterBlock (ha : Attaches E db pool blk bs strxs l p) (hdb : WellFormed E db) :
    SameLog E (afterBlock E db blk bs.generatorName strxs) (.trx (db.moved p) l) := by
  rw [ha.posts hdb, ← Database.moved_posts]
  exact SameLog.moved _ p

theorem Attaches.accepts (ha : Attaches E db pool blk bs strxs l p) (hdb : WellFormed E db) :
    DbM.Accepts E db bs.generatorName strxs bs.stateDb :=
  (SameLog.overlay hdb).symm.accepts hdb.overlay hdb
    ((DbM.applyBlock_true_iff hdb.overlay).mp ⟨_, ha.applied⟩)

theorem Attaches.logs (ha : Attaches E db pool blk bs strxs l p) (hdb : WellFormed E db)
    {ps : List Posting} (hlogs : db.Logs E ps) :
    (Database.trx (db.moved p) l).Logs E (ps ++ blockPosts E db blk bs.generatorName strxs) ∧
      (packPosts E 0 (ps ++ (Ledger.applyAll E bs.generatorName (db.ledger E) strxs).2)).length <
        DbM.chunkSize := by
  have hover : (Database.trx db {}).Logs E ps := hlogs.carries hdb (Carries.overlay db)
  constructor
  · rw [ha.posts hdb]
    apply (hover.moved hdb.overlay p).posts (hdb.overlay.moved p)
    rw [Database.ledger_moved, ledger_overlay hdb]
    exact admitsAll_blockPosts hdb blk _ strxs
  · have hposts := hlogs.posts hdb
      (Ledger.admitsAll_applyAll (E := E) hdb.coherent bs.generatorName strxs)
    rw [← hposts.size]
    exact (ha.accepts hdb).size_lt

theorem attachable_iff (hdb : WellFormed E db) :
    Attachable E db pool blk bs ↔ ∃ strxs, pool.Lists .pending bs.signedTransactions strxs ∧
      DbM.Accepts E db bs.generatorName strxs bs.stateDb := by
  constructor
  · rintro ⟨strxs, l, p, ha⟩
    exact ⟨strxs, ha.lists, ha.accepts hdb⟩
  · rintro ⟨strxs, hlists, haccepts⟩
    obtain ⟨db', happ⟩ := (DbM.applyBlock_true_iff (b := blk) hdb.overlay).mpr
      ((SameLog.overlay hdb).accepts hdb hdb.overlay haccepts)
    have hgrows := Grows.of_applyBlock (E := E) blk bs.generatorName strxs bs.stateDb (.trx db {})
    rw [happ] at hgrows
    obtain ⟨p, l, hp, rfl⟩ := hgrows.overlay
    exact ⟨strxs, l, p, hlists, happ, hp⟩

variable {n n' : Node} {clock : Clock} {fbs : FullBlockState} {r : Int}

theorem settleHead_sameLog (hn : Sound E n) (ha : Attaches E n.headDb n.mTrxDb blk bs strxs l p) :
    SameLog E n.headDb (settleHead blk bs strxs l ((n.pushBack blk).moved p)).stateDb ∧
      SameLog E (afterBlock E n.headDb blk bs.generatorName strxs)
        (settleHead blk bs strxs l ((n.pushBack blk).moved p)).headDb := by
  have hsettle := hn.settle ha
  exact ⟨(SameLog.moved _ p).trans (.of_carries (hn.head.moved p) hsettle),
    (ha.afterBlock hn.head).trans (.of_carries (ha.wellFormed hn.head) (hsettle.rebase l))⟩

section Quiet

/-- What `add_block` can come to where no blocks are generated. -/
inductive QuietOutcome (E : Externals) (clock : Clock) (n : Node) (blk : Block) :
    Int → Node → Prop
  | unchanged {r : Int} {p : ℕ} : r ≤ 0 →
      (∀ bs, Extends E clock n blk bs → ¬ Attachable E n.headDb n.mTrxDb blk bs) →
      (∀ bs, ¬ Competes E clock n blk bs) → QuietOutcome E clock n blk r (n.moved p)
  | refused {bs : BlockState} {p : ℕ} : Competes E clock n blk bs →
      ¬ Attachable E n.stateDb (n.competing bs) blk bs →
      QuietOutcome E clock n blk (-3) { n.moved p with
        mTrxDb := (n.competing bs).moveTransactions bs.signedTransactions .pending .head }
  | appended {bs : BlockState} {strxs : List SignedTransaction} {l : Layer} {p : ℕ} :
      Extends E clock n blk bs → Attaches E n.headDb n.mTrxDb blk bs strxs l p →
      QuietOutcome E clock n blk 1 (settleHead blk bs strxs l ((n.pushBack blk).moved p))
  | replaced {bs : BlockState} {strxs : List SignedTransaction} {l : Layer} {p : ℕ} :
      Competes E clock n blk bs → Attaches E n.stateDb (n.competing bs) blk bs strxs l p →
      QuietOutcome E clock n blk 1 (swapHead blk bs strxs l
        { (n.setBack blk).moved p with mTrxDb := n.competing bs })

theorem QuietOutcome.accepted (h : QuietOutcome E clock n blk 1 n') :
    (∃ bs strxs l p, Extends E clock n blk bs ∧
      Attaches E n.headDb n.mTrxDb blk bs strxs l p ∧
      n' = settleHead blk bs strxs l ((n.pushBack blk).moved p)) ∨
    ∃ bs strxs l p, Competes E clock n blk bs ∧
      Attaches E n.stateDb (n.competing bs) blk bs strxs l p ∧
      n' = swapHead blk bs strxs l { (n.setBack blk).moved p with mTrxDb := n.competing bs } := by
  generalize hr : (1 : ℤ) = r at h
  cases h with
  | unchanged hle => omega
  | refused => omega
  | appended hext ha => exact Or.inl ⟨_, _, _, _, hext, ha, rfl⟩
  | replaced hcomp ha => exact Or.inr ⟨_, _, _, _, hcomp, ha, rfl⟩

theorem continueGeneration_quiet (h : n.mGenEnabled = false) :
    continueGeneration E clock n = .ok 1 n := by
  unfold continueGeneration startBlockIfGenerating
  rw [bind_assoc, Lib.get_bind, h]
  rfl

theorem addBlock_quiet (h : n.mGenEnabled = false) (hok : addBlock E clock blk n = .ok r n') :
    QuietOutcome E clock n blk r n' ∧ n'.mGenEnabled = false := by
  have hout := addBlock_outcome (E := E) clock n blk
  rw [hok] at hout
  generalize hres : EStateM.Result.ok r n' = res at hout
  cases hout with
  | unchanged hr hp hext hcomp =>
    cases hres
    exact ⟨.unchanged hr hext hcomp, h⟩
  | refused hcomp hno hp =>
    cases hres
    exact ⟨.refused hcomp hno, h⟩
  | appended hext ha =>
    cases hres.trans (continueGeneration_quiet h)
    exact ⟨.appended hext ha, h⟩
  | replaced hcomp ha =>
    cases hres.trans (continueGeneration_quiet h)
    exact ⟨.replaced hcomp ha, h⟩
  | failed => cases hres

theorem addBlock_returns (clock : Clock) (blk : Block) (hn : Sound E n)
    (h : n.mGenEnabled = false)
    (hext : ∀ bs strxs, Extends E clock n blk bs →
      n.mTrxDb.Lists .pending bs.signedTransactions strxs →
        DbM.Accepts E n.headDb bs.generatorName strxs bs.stateDb)
    (hcomp : ∀ bs strxs, Competes E clock n blk bs →
      (n.competing bs).Lists .pending bs.signedTransactions strxs →
        DbM.Accepts E n.stateDb bs.generatorName strxs bs.stateDb) :
    ∃ r n', addBlock E clock blk n = .ok r n' := by
  have hfault : ∀ {db db' : Database} {bs : BlockState} {strxs : List SignedTransaction}
      {e : Fault}, WellFormed E db → DbM.Accepts E db bs.generatorName strxs bs.stateDb →
        DbM.applyBlock E blk bs.generatorName strxs bs.stateDb (.trx db {}) ≠ .error e db' := by
    intro db db' bs strxs e hdb ha herr
    obtain ⟨db₁, happ⟩ := (DbM.applyBlock_true_iff (b := blk) hdb.overlay).mpr
      ((SameLog.overlay hdb).accepts hdb hdb.overlay ha)
    cases herr.symm.trans happ
  have hout := addBlock_outcome (E := E) clock n blk
  generalize addBlock E clock blk n = res at hout
  cases hout with
  | unchanged => exact ⟨_, _, rfl⟩
  | refused => exact ⟨_, _, rfl⟩
  | appended => exact ⟨_, _, continueGeneration_quiet h⟩
  | replaced => exact ⟨_, _, continueGeneration_quiet h⟩
  | failed hcase happ =>
    obtain ⟨he, rfl, hlists⟩ | ⟨hc, rfl, hlists⟩ := hcase
    · exact absurd happ (hfault hn.head (hext _ _ he hlists))
    · exact absurd happ (hfault hn.state (hcomp _ _ hc hlists))

theorem addBlock_neither (hext : ∀ bs, ¬ Extends E clock n blk bs)
    (hcomp : ∀ bs, ¬ Competes E clock n blk bs) :
    ∃ r p, addBlock E clock blk n = .ok r (n.moved p) := by
  have hout := addBlock_outcome (E := E) clock n blk
  generalize addBlock E clock blk n = res at hout
  cases hout with
  | unchanged => exact ⟨_, _, rfl⟩
  | refused hc => exact absurd hc (hcomp _)
  | appended he => exact absurd he (hext _)
  | replaced hc => exact absurd hc (hcomp _)
  | failed hcase =>
    obtain ⟨he, -⟩ | ⟨hc, -⟩ := hcase
    · exact absurd he (hext _)
    · exact absurd hc (hcomp _)

section Settled

variable {ts : List SignedTransaction} (hn : Sound E n) (h : n.mGenEnabled = false)

include hn h

theorem addBlock_extends (hext : Extends E clock n blk bs)
    (hunique : ∀ strxs, n.mTrxDb.Lists .pending bs.signedTransactions strxs → strxs = ts)
    (haccepts : DbM.Accepts E n.headDb bs.generatorName ts bs.stateDb) :
    (∃ l p, Attaches E n.headDb n.mTrxDb blk bs ts l p ∧
      addBlock E clock blk n = .ok 1 (settleHead blk bs ts l ((n.pushBack blk).moved p))) ∨
    ¬ n.mTrxDb.Lists .pending bs.signedTransactions ts ∧
      ∃ r p, addBlock E clock blk n = .ok r (n.moved p) := by
  have hcomp : ∀ bs', ¬ Competes E clock n blk bs' := fun _ hc => hc.unlinked hext.linked
  obtain ⟨r, n', hadd⟩ := addBlock_returns clock blk hn h
    (fun bs' strxs he hl => by
      cases he.known.symm.trans hext.known
      rw [hunique strxs hl]
      exact haccepts)
    (fun bs' _ hc => absurd hc (hcomp bs'))
  have hout := (addBlock_quiet h hadd).1
  cases hout with
  | @unchanged r p _ hno =>
    refine Or.inr ⟨fun hlists => ?_, r, p, hadd⟩
    exact hno _ hext ((attachable_iff hn.head).mpr ⟨ts, hlists, haccepts⟩)
  | refused hc => exact absurd hc (hcomp _)
  | @appended bs' strxs l p he ha =>
    cases he.known.symm.trans hext.known
    cases hunique _ ha.lists
    exact Or.inl ⟨l, p, ha, hadd⟩
  | replaced hc => exact absurd hc (hcomp _)

theorem addBlock_competes (hcomp : Competes E clock n blk bs)
    (hunique : ∀ strxs, (n.competing bs).Lists .pending bs.signedTransactions strxs →
      strxs = ts)
    (haccepts : DbM.Accepts E n.stateDb bs.generatorName ts bs.stateDb) :
    (∃ l p, Attaches E n.stateDb (n.competing bs) blk bs ts l p ∧
      addBlock E clock blk n = .ok 1
        (swapHead blk bs ts l { (n.setBack blk).moved p with mTrxDb := n.competing bs })) ∨
    ¬ (n.competing bs).Lists .pending bs.signedTransactions ts ∧
      ∃ p, addBlock E clock blk n = .ok (-3) { n.moved p with
        mTrxDb := (n.competing bs).moveTransactions bs.signedTransactions .pending .head } := by
  have hext : ∀ bs', ¬ Extends E clock n blk bs' := fun _ he => hcomp.unlinked he.linked
  obtain ⟨r, n', hadd⟩ := addBlock_returns clock blk hn h
    (fun bs' _ he => absurd he (hext bs'))
    (fun bs' strxs hc hl => by
      cases hc.known.symm.trans hcomp.known
      rw [hunique strxs hl]
      exact haccepts)
  have hout := (addBlock_quiet h hadd).1
  cases hout with
  | unchanged _ _ hno => exact absurd hcomp (hno _)
  | @refused bs' p hc hno =>
    cases hc.known.symm.trans hcomp.known
    refine Or.inr ⟨fun hlists => ?_, p, hadd⟩
    exact hno ((attachable_iff hn.state).mpr ⟨ts, hlists, haccepts⟩)
  | appended he => exact absurd he (hext _)
  | @replaced bs' strxs l p hc ha =>
    cases hc.known.symm.trans hcomp.known
    cases hunique _ ha.lists
    exact Or.inl ⟨l, p, ha, hadd⟩

end Settled

theorem addFullBlock_quiet (h : n.mGenEnabled = false) (hne : n.mBlockChain ≠ [])
    (hadd : addBlock E clock fbs.blk (n.store E fbs) = .ok r n') :
    addFullBlock E clock fbs n = .ok r n' := by
  have hstored : (n.store E fbs).mGenEnabled = false := h
  have hquiet : n'.mGenEnabled = false := (addBlock_quiet hstored hadd).2
  unfold addFullBlock
  rw [Lib.get_bind, Lib.modify_bind, Lib.get_bind]
  rw [if_neg fun hfirst => hne hfirst.1, Lib.bind_ok hadd]
  split
  · unfold startBlockIfGenerating
    rw [bind_assoc, Lib.get_bind, hquiet]
    rfl
  · rfl

theorem of_addFullBlock_quiet (h : n.mGenEnabled = false) (hne : n.mBlockChain ≠ [])
    (hok : addFullBlock E clock fbs n = .ok r n') :
    addBlock E clock fbs.blk (n.store E fbs) = .ok r n' := by
  cases hadd : addBlock E clock fbs.blk (n.store E fbs) with
  | ok r₁ n₁ =>
    rw [addFullBlock_quiet h hne hadd] at hok
    cases hok
    rfl
  | error e n₁ =>
    unfold addFullBlock at hok
    rw [Lib.get_bind, Lib.modify_bind, Lib.get_bind] at hok
    rw [if_neg fun hfirst => hne hfirst.1, Lib.bind_error hadd] at hok
    cases hok

end Quiet

end Node

end Gpm
