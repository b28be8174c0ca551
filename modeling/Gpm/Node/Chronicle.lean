import Gpm.Node.Accept
import Gpm.StateDb.LastBlock

namespace Gpm

/-- A block with its state and the transactions that were applied for it. -/
structure Entry where
  blk : Block
  blkState : BlockState
  trxs : List SignedTransaction

def Entry.Lists (E : Externals) (e : Entry) : Prop :=
  e.trxs.map E.hashSignedTrx = e.blkState.signedTransactions

inductive Chronicle (E : Externals) : List Entry → List Posting → Prop
  | nil : Chronicle E [] []
  | block {es : List Entry} {ps qs : List Posting} {e : Entry} {db db₁ db₂ : Database} :
      Chronicle E es ps → es = [] ∧ e.trxs = [] ∨ e.Lists E →
        WellFormed E db → db.Logs E ps →
      DbM.applyAll E e.blkState.generatorName e.trxs db = .ok true db₁ →
        db₁.Logs E (ps ++ qs) →
      DbM.calculateStateHash E db₁ = .ok e.blkState.stateDb db₂ →
      Chronicle E (es ++ [e]) (ps ++ qs ++ [endBlock e.blk e.blkState.generatorName])

def Record.endedBlock : Record → Option Block
  | .endBlock b _ => some b
  | _ => none

variable {E : Externals}

theorem Database.Logs.records_unique {db : Database} {es fs : List Posting} (h : db.Logs E es)
    (h' : db.Logs E fs) : es.map Posting.record = fs.map Posting.record := by
  rw [← map_data_postRecords (E := E) 0, ← map_data_postRecords (E := E) 0,
    ← h.log, ← h'.log]

theorem Ledger.endedBlock_applyAll (gen : Name) (v : Ledger) (ts : List SignedTransaction) :
    ((applyAll E gen v ts).2.map Posting.record).filterMap Record.endedBlock = [] := by
  have key : ∀ e ∈ (applyAll E gen v ts).2, e.record.endedBlock = none := by
    induction ts generalizing v with
    | nil => exact List.forall_mem_nil _
    | cons t ts ih =>
      have ht : ∀ e ∈ (transaction E t gen v).2, e.record.endedBlock = none := by
        apply forall_transaction (P := fun e => e.record.endedBlock = none)
        · intro v n k
          unfold setKey
          split <;> rfl
        · exact fun _ => rfl
        · exact fun _ => rfl
        · rfl
      unfold applyAll
      simp only
      split
      · rw [List.forall_mem_append]
        exact ⟨ht, ih _⟩
      · exact ht
  rw [List.filterMap_map]
  exact List.filterMap_eq_nil_iff.mpr key

namespace Chronicle

variable {es : List Entry} {ps : List Posting}

theorem eq_nil (h : Chronicle E es ps) (hnil : es = []) : ps = [] := by
  cases h with
  | nil => rfl
  | block => exact absurd hnil (List.append_ne_nil_of_right_ne_nil _ (List.cons_ne_nil _ _))

theorem blocks (h : Chronicle E es ps) :
    (ps.map Posting.record).filterMap Record.endedBlock = es.map Entry.blk := by
  induction h with
  | nil => rfl
  | @block es ps qs e db db₁ db₂ _ _ hdb hlogs hall hlogs₁ _ ih =>
    obtain ⟨db', hall', p, hdb'⟩ := DbM.applyAll_runs e.blkState.generatorName e.trxs hdb
    rw [hall] at hall'
    injection hall' with hok hdb₁
    subst hdb₁
    have hadmits : ((db.moved p).ledger E).AdmitsAll E
        (Ledger.applyAll E e.blkState.generatorName (db.ledger E) e.trxs).2 := by
      rw [Database.ledger_moved]
      exact Ledger.admitsAll_applyAll hdb.coherent _ _
    have hposts := (hlogs.moved hdb p).posts (hdb.moved p) hadmits
    subst hdb'
    have hrecords := hlogs₁.records_unique hposts
    rw [List.map_append, List.filterMap_append, hrecords, List.map_append,
      List.filterMap_append, ih, Ledger.endedBlock_applyAll, List.append_nil, List.map_append]
    rfl

theorem last (h : Chronicle E es ps) (hne : es ≠ []) :
    ∃ qs e, ps = qs ++ [endBlock e.blk e.blkState.generatorName] ∧ es = es.dropLast ++ [e] ∧
      (packPosts E 0 qs).length < DbM.chunkSize := by
  cases h with
  | nil => exact absurd rfl hne
  | block _ _ _ _ _ hlogs₁ hhash =>
    refine ⟨_, _, rfl, by rw [List.dropLast_concat], ?_⟩
    rw [← hlogs₁.size]
    exact (DbM.calculateStateHash_eq_ok_iff.mp hhash).1

theorem length_le (h : Chronicle E es ps) : es.length ≤ ps.length := by
  induction h with
  | nil => exact Nat.le_refl 0
  | block _ _ _ _ _ _ _ ih =>
    simp only [List.length_append, List.length_singleton]
    omega

theorem length_le_chunkSize (h : Chronicle E es ps) : es.length ≤ DbM.chunkSize := by
  by_cases hne : es = []
  · rw [hne]
    exact Nat.zero_le _
  · obtain ⟨qs, e, rfl, -, hsize⟩ := h.last hne
    have hlen := h.length_le
    have hpack : qs.length ≤ (packPosts E 0 qs).length := length_le_packPosts 0
    rw [List.length_append, List.length_singleton] at hlen
    omega

theorem take (h : Chronicle E es ps) (k : ℕ) : ∃ ps', Chronicle E (es.take k) ps' := by
  induction h with
  | nil => exact ⟨[], by rw [List.take_nil]; exact .nil⟩
  | @block es ps qs e db db₁ db₂ hc hcase hdb hlogs hall hlogs₁ hhash ih =>
    by_cases hk : k ≤ es.length
    · rwa [List.take_append_of_le_length hk]
    · have hlen : (es ++ [e]).length ≤ k := by
        rw [List.length_append, List.length_singleton]
        omega
      rw [List.take_of_length_le hlen]
      exact ⟨_, .block hc hcase hdb hlogs hall hlogs₁ hhash⟩

theorem lists (h : Chronicle E es ps) (hfirst : ∀ e ∈ es.head?,
      e.blkState.signedTransactions = []) :
    ∀ e ∈ es, e.Lists E := by
  induction h with
  | nil => exact List.forall_mem_nil _
  | @block es ps qs e db db₁ db₂ _ hcase _ _ _ _ _ ih =>
    rw [List.forall_mem_append, List.forall_mem_singleton]
    constructor
    · apply ih
      intro e' he'
      apply hfirst
      rw [List.head?_append, he']
      rfl
    · obtain ⟨rfl, hnone⟩ | hlists := hcase
      · rw [Entry.Lists, hnone, hfirst e rfl]
        rfl
      · exact hlists

theorem posts_of_applyAll {db db₁ : Database} {gen : Name} {ts : List SignedTransaction}
    (hdb : WellFormed E db) (hall : DbM.applyAll E gen ts db = .ok true db₁) :
    SameLog E (db.posts E (Ledger.applyAll E gen (db.ledger E) ts).2) db₁ ∧
      WellFormed E db₁ := by
  obtain ⟨db', hall', p, hdb'⟩ := DbM.applyAll_runs gen ts hdb
  rw [hall] at hall'
  injection hall' with hok hdb₁
  subst hdb₁
  subst hdb'
  have hadmits := Ledger.admitsAll_applyAll (E := E) hdb.coherent gen ts
  rw [← Database.moved_posts]
  exact ⟨SameLog.moved _ p, (hdb.ledger_posts hadmits).2.moved p⟩

theorem sameLog (h : Chronicle E es ps) {ps' : List Posting} (h' : Chronicle E es ps')
    {db db' : Database} (hlogs : db.Logs E ps) (hlogs' : db'.Logs E ps') : SameLog E db db' := by
  have hsame : ∀ {qs : List Posting} {d d' : Database}, d.Logs E qs → d'.Logs E qs →
      SameLog E d d' := fun hd hd' =>
    ⟨hd'.flat.trans hd.flat.symm, hd'.ledger.trans hd.ledger.symm⟩
  induction h generalizing ps' db db' with
  | nil =>
    cases h'.eq_nil rfl
    exact hsame hlogs hlogs'
  | @block es ps qs e d d₁ d₂ hc _ hd hlogsd hall hlogsd₁ _ ih =>
    generalize hes : es ++ [e] = fs at h'
    cases h' with
    | nil => exact absurd hes (List.append_ne_nil_of_right_ne_nil _ (List.cons_ne_nil _ _))
    | @block es' ps' qs' e' d' d₁' d₂' hc' _ hd' hlogsd' hall' hlogsd₁' _ =>
      obtain ⟨rfl, heq⟩ := List.append_inj' hes rfl
      cases heq
      have hinner := ih hc' hlogsd hlogsd'
      obtain ⟨hposts, hd₁⟩ := posts_of_applyAll hd hall
      obtain ⟨hposts', hd₁'⟩ := posts_of_applyAll hd' hall'
      have hmiddle : SameLog E d₁ d₁' := by
        rw [hinner.ledger] at hposts'
        exact hposts.symm.trans ((hinner.posts hd hd'
          (Ledger.admitsAll_applyAll hd.coherent _ _)).trans hposts')
      have hend : (d₁.ledger E).AdmitsAll E [endBlock e.blk e.blkState.generatorName] :=
        ⟨Ledger.admits_endBlock _ _, trivial⟩
      have hend' : (d₁'.ledger E).AdmitsAll E [endBlock e.blk e.blkState.generatorName] :=
        ⟨Ledger.admits_endBlock _ _, trivial⟩
      exact (hsame hlogs (hlogsd₁.posts hd₁ hend)).trans
        ((hmiddle.posts hd₁ hd₁' hend).trans (hsame (hlogsd₁'.posts hd₁' hend') hlogs'))

theorem accepts {e : Entry} (h : Chronicle E (es ++ [e]) ps) {ps' : List Posting}
    (h' : Chronicle E es ps') {db : Database} (hdb : WellFormed E db) (hlogs : db.Logs E ps') :
    DbM.Accepts E db e.blkState.generatorName e.trxs e.blkState.stateDb := by
  generalize hes : es ++ [e] = fs at h
  cases h with
  | nil => exact absurd hes (List.append_ne_nil_of_right_ne_nil _ (List.cons_ne_nil _ _))
  | @block es' ps qs e' d d₁ d₂ hc _ hd hlogsd hall _ hhash =>
    obtain ⟨rfl, heq⟩ := List.append_inj' hes rfl
    cases heq
    obtain ⟨hsize, hchecksum, -⟩ := DbM.calculateStateHash_eq_ok_iff.mp hhash
    apply (hc.sameLog h' hlogsd hlogs).accepts hd hdb
    exact (DbM.applyBlock_true_iff (b := e.blk) hd).mp
      ⟨_, DbM.applyBlock_of_applyAll hall hsize hchecksum⟩

end Chronicle

namespace Node

variable {n n' : Node} {blk : Block} {bs : BlockState} {es : List Entry} {ps : List Posting}

theorem Attaches.chronicle {db : Database} {pool : TrxDb} {strxs : List SignedTransaction}
    {l : Layer} {p : ℕ} (ha : Attaches E db pool blk bs strxs l p) (hdb : WellFormed E db)
    (hpool : pool.Pool E) (hc : Chronicle E es ps) (hlogs : db.Logs E ps) :
    ∃ ps', Chronicle E (es ++ [⟨blk, bs, strxs⟩]) ps' ∧
    (Database.trx (db.moved p) l).Logs E ps' := by
  have hover : (Database.trx db {}).Logs E ps := hlogs.carries hdb (Carries.overlay db)
  obtain ⟨db₁, hall, hsize, hhash, -⟩ := DbM.of_applyBlock_true ha.applied
  obtain ⟨db', hall', q, hposts⟩ := DbM.applyAll_runs bs.generatorName strxs hdb.overlay
  rw [hall] at hall'
  injection hall' with hok hdb₁
  subst hdb₁
  subst hposts
  have hmoved := hover.moved hdb.overlay q
  have hadmits := Ledger.admitsAll_applyAll (E := E) hdb.overlay.coherent bs.generatorName strxs
  have hlogs₁ := hmoved.posts (hdb.overlay.moved q) (by rwa [Database.ledger_moved])
  have hchronicle := Chronicle.block (e := ⟨blk, bs, strxs⟩) hc
    (Or.inr (hpool.keyed_of_holds ha.lists.holds).1) hdb.overlay hover hall hlogs₁
    (DbM.calculateStateHash_eq_ok_iff.mpr ⟨hsize, hhash, rfl⟩)
  refine ⟨_, hchronicle, ?_⟩
  rw [List.append_assoc, ledger_overlay hdb]
  exact (ha.logs hdb hlogs).1

structure Recorded (E : Externals) (n : Node) (es : List Entry) : Prop where
  blockChain : es.map Entry.blk = n.mBlockChain
  applied : es.map Entry.blkState = n.applied
  head : ∃ ps, Chronicle E es ps ∧ n.headDb.Logs E ps
  state : ∃ ps, Chronicle E es.dropLast ps ∧ n.stateDb.Logs E ps

namespace Recorded

theorem moves (h : Recorded E n es) (hn : Sound E n) {p : ℕ}
    (hchain : n'.mBlockChain = n.mBlockChain) (happ : n'.applied = n.applied)
    (hstate : n'.stateDb = n.stateDb.moved p) (hhead : n'.headDb = n.headDb.moved p) :
    Recorded E n' es := by
  obtain ⟨ps, hc, hlogs⟩ := h.head
  obtain ⟨ps', hc', hlogs'⟩ := h.state
  refine ⟨h.blockChain.trans hchain.symm, h.applied.trans happ.symm,
    ⟨ps, hc, ?_⟩, ps', hc', ?_⟩
  · rw [hhead]
    exact hlogs.moved hn.head p
  · rw [hstate]
    exact hlogs'.moved hn.state p

theorem start (h : Recorded E n es) (hn : Sound E n) {tried : Bool} (hnil : n.mBlockChain = [])
    (hfirst : n.headDb.flat = [] → n.stateDb.flat = [] →
      tried = true ∧ bs.stateDb = stateHash E [])
    (hstart : Starts E tried n blk bs n') : Recorded E n' [⟨blk, bs, []⟩] := by
  obtain ⟨p, -, rfl⟩ := hstart
  have hempty : es = [] := List.map_eq_nil_iff.mp (h.blockChain.trans hnil)
  subst hempty
  obtain ⟨ps, hc, hlogs⟩ := h.head
  obtain ⟨ps', hc', hlogs'⟩ := h.state
  cases hc.eq_nil rfl
  cases hc'.eq_nil rfl
  obtain ⟨rfl, hhash⟩ := hfirst hlogs.flat hlogs'.flat
  have hflat : n.headDb.flat = [] := hlogs.flat
  have hposts : firstPosts E true n blk bs = [endBlock blk bs.generatorName] := by
    rw [firstPosts, if_pos ⟨rfl, by rw [hflat, hhash]⟩]
  rw [hposts]
  have hlast : Chronicle E ([] ++ [⟨blk, bs, []⟩])
      ([] ++ [] ++ [endBlock blk bs.generatorName]) := by
    refine .block .nil (Or.inl ⟨rfl, rfl⟩) hn.head hlogs rfl hlogs
      (DbM.calculateStateHash_eq_ok_iff.mpr ⟨?_, ?_, rfl⟩)
    · rw [hlogs.size]
      exact Nat.mul_pos (by decide) (by decide)
    · rw [hflat]
      exact hhash
  refine ⟨?_, ?_, ⟨_, hlast, ?_⟩, [], .nil, ?_⟩
  · change [blk] = n.mBlockChain ++ [blk]
    rw [hnil]
    rfl
  · change [bs] = n.applied ++ [bs]
    rw [← h.applied]
    rfl
  · rw [headDb_started]
    exact (hlogs.moved hn.head p).posts (hn.head.moved p) ⟨Ledger.admits_endBlock _ _, trivial⟩
  · rw [stateDb_started]
    exact hlogs'.moved hn.state p

theorem appended (h : Recorded E n es) (hn : Sound E n) {strxs : List SignedTransaction}
    {l : Layer} {p : ℕ} (ha : Attaches E n.headDb n.mTrxDb blk bs strxs l p) :
    Recorded E (settleHead blk bs strxs l ((n.pushBack blk).moved p))
      (es ++ [⟨blk, bs, strxs⟩]) := by
  obtain ⟨ps, hc, hlogs⟩ := h.head
  obtain ⟨ps', hc', hlogs'⟩ := ha.chronicle hn.head hn.pool hc hlogs
  have hsettle := hn.settle ha
  refine ⟨?_, ?_, ⟨ps', hc', ?_⟩, ps, ?_, ?_⟩
  · rw [List.map_append, h.blockChain]
    rfl
  · rw [List.map_append, h.applied]
    rfl
  · exact hlogs'.carries (ha.wellFormed hn.head) (hsettle.rebase l)
  · rw [List.dropLast_concat]
    exact hc
  · exact (hlogs.moved hn.head p).carries (hn.head.moved p) hsettle

theorem competed (hn : Sound E n) (hchain : es.map Entry.blk = n.mBlockChain.dropLast)
    (happ : es.map Entry.blkState = n.applied.dropLast) (hc : Chronicle E es ps)
    (hlogs : n.stateDb.Logs E ps) {strxs : List SignedTransaction} {l : Layer} {p : ℕ}
    (ha : Attaches E n.stateDb (n.competing bs) blk bs strxs l p) :
    Recorded E
      (swapHead blk bs strxs l { (n.setBack blk).moved p with mTrxDb := n.competing bs })
      (es ++ [⟨blk, bs, strxs⟩]) := by
  obtain ⟨ps', hc', hlogs'⟩ := ha.chronicle hn.state (hn.pool.moveTransactions _ _ _) hc hlogs
  refine ⟨?_, ?_, ⟨ps', hc', hlogs'⟩, ps, ?_, ?_⟩
  · rw [List.map_append, hchain]
    rfl
  · rw [List.map_append, happ]
    rfl
  · rw [List.dropLast_concat]
    exact hc
  · exact hlogs.moved hn.state p

theorem replaced (h : Recorded E n es) (hn : Sound E n) {strxs : List SignedTransaction}
    {l : Layer} {p : ℕ} (ha : Attaches E n.stateDb (n.competing bs) blk bs strxs l p) :
    Recorded E
      (swapHead blk bs strxs l { (n.setBack blk).moved p with mTrxDb := n.competing bs })
      (es.dropLast ++ [⟨blk, bs, strxs⟩]) := by
  obtain ⟨ps, hc, hlogs⟩ := h.state
  apply competed hn _ _ hc hlogs ha
  · rw [List.map_dropLast, h.blockChain]
  · rw [List.map_dropLast, h.applied]

end Recorded

/-- A first block that is applied: one received has the checksum of the empty log, and for one
of the node's own a nonce is found. -/
structure StartsApplied (E : Externals) (n : Node) (clock : Clock) (c : Call) : Prop where
  own : n.mBlockChain = [] → ∀ i state,
    (generate E.hashBlock { utcTime := seconds (clock i), state } getMaxHash).1 = true
  received : n.mBlockChain = [] → ∀ fbs, c = .addFullBlock fbs → fbs.index = 0 →
    fbs.blkState.stateDb = stateHash E []

def appliedStarts (E : Externals) : Rules where
  starts _ _ bs := bs.stateDb = stateHash E []
  generates t := ∀ state, (generate E.hashBlock { utcTime := t, state } getMaxHash).1 = true

theorem StartsApplied.allow {clock : Clock} {c : Call} (h : StartsApplied E n clock c) :
    (appliedStarts E).allow E n clock c :=
  Rules.allow_of_starts (fun _ _ => trivial) (fun _ _ _ => trivial) h.own
    fun fbs hc => ⟨trivial, fun hnil hfirst => h.received hnil fbs hc hfirst⟩

theorem recorded_inductive :
    Inductive E (appliedStarts E) (Sound E) fun n => ∃ es, Recorded E n es where
  empty := ⟨[], rfl, rfl, ⟨[], .nil, Database.blank_fresh.logs⟩, [], .nil,
    Database.Blank.logs Database.blank_fresh.1⟩
  generated hn h hgen := by
    obtain ⟨es, h⟩ := h
    obtain ⟨p, -, hstate, hhead⟩ := hgen.moves
    exact ⟨es, h.moves hn hgen.blockChain hgen.applied hstate hhead⟩
  learn _ h _ _ := h.imp fun _ h => ⟨h.blockChain, h.applied, h.head, h.state⟩
  store _ h _ := h.imp fun _ h => ⟨h.blockChain, h.applied, h.head, h.state⟩
  start hn h hnil hrule hstart := by
    obtain ⟨es, h⟩ := h
    refine ⟨_, h.start hn hnil (fun hhead hstate => ?_) hstart⟩
    obtain ⟨htried, -, hhash⟩ | ⟨t, ht, hgenesis⟩ := hrule
    · exact ⟨htried, hhash⟩
    · have hfound := congrArg Prod.fst hgenesis.mined
      exact ⟨hfound.symm.trans (ht _), by rw [hgenesis.checksum, hstate]⟩
  refused _ h _ _ _ := h.imp fun _ h => ⟨h.blockChain, h.applied, h.head, h.state⟩
  appended hn h _ _ ha := by
    obtain ⟨es, h⟩ := h
    exact ⟨_, h.appended hn ha⟩
  replaced hn h _ _ ha := by
    obtain ⟨es, h⟩ := h
    exact ⟨_, h.replaced hn ha⟩

structure LogMatches (E : Externals) (n : Node) : Prop where
  chronicle : ∃ es ps, es.map Entry.blk = n.mBlockChain ∧ es.map Entry.blkState = n.applied ∧
    Chronicle E es ps ∧ n.headDb.log E = postRecords E 0 ps
  blocks : ((n.headDb.log E).map StateRecord.data).filterMap Record.endedBlock = n.mBlockChain
  last : n.mBlockChain ≠ [] →
    ∃ p, DbM.findLastBlock E n.headDb = .ok n.back (n.headDb.moved p)

theorem Recorded.logMatches (h : Recorded E n es) (hE : TrailingPrevious E) : LogMatches E n := by
  obtain ⟨ps, hc, hlogs⟩ := h.head
  constructor
  · exact ⟨es, ps, h.blockChain, h.applied, hc, hlogs.log⟩
  · rw [hlogs.log, map_data_postRecords, hc.blocks, h.blockChain]
  · intro hne
    have hes : es ≠ [] := fun hnil => hne (by rw [← h.blockChain, hnil]; rfl)
    obtain ⟨qs, e, rfl, hlast, hsize⟩ := hc.last hes
    have hback : n.back = e.blk := by
      rw [back, ← h.blockChain, hlast, List.map_append, List.map_singleton]
      exact List.getLastD_concat ..
    rw [hback]
    exact hlogs.findLastBlock hE (Nat.lt_trans hsize (by decide))

/-- The log says what the chain says, as long as the first block is applied. -/
theorem log_matches (hE : TrailingPrevious E) (hr : ReachableBy E (StartsApplied E) n) :
    LogMatches E n := by
  obtain ⟨es, h⟩ := recorded_inductive.reachable (hr.mono fun _ _ _ h => h.allow)
  exact h.logMatches hE

theorem log_matches_firstNode : LogMatches (Wire.externals nonceHash) firstNode := by
  refine log_matches (trailingPrevious_wire nonceHash) (firstNode_reachable ?_)
  constructor
  · intro _ i state
    have hpos : 0 < getMaxHash := by decide +kernel
    unfold generate
    rw [generateLoop_of_le]
    · exact decide_eq_true hpos
    · exact Nat.zero_le _
  · intro _ fbs hfbs _
    cases hfbs
    rfl

theorem log_mismatch : ¬ ∀ E n, TrailingPrevious E → Reachable E n → LogMatches E n := by
  intro h
  let fbs : FullBlockState :=
    { index := 0, blk := { utcTime := 20 }, blkState := ⟨0, [], 0, []⟩, trxs := [] }
  have hrun : runAll (Wire.externals nonceHash) noon [.addFullBlock fbs] {} = .ok () _ :=
    Lib.eq_ok_of_returned (by decide +kernel)
  have hblocks := (h _ _ (trailingPrevious_wire nonceHash)
    (ReachableBy.empty.runAll (fun _ _ _ => trivial) hrun)).blocks
  revert hblocks
  decide +kernel

end Node

end Gpm
