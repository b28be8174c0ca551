import Gpm.Node.Accept

namespace Gpm

def Record.startedTrx : Record → Option Hashcode
  | .startTrx h _ => some h
  | _ => none

def postedTrxs (ps : List Posting) : List Hashcode :=
  ps.filterMap fun e => e.record.startedTrx

variable {E : Externals}

namespace Database

def startedTrxs (E : Externals) (db : Database) : List Hashcode :=
  (db.log E).filterMap fun r => r.data.startedTrx

theorem Logs.startedTrxs {db : Database} {ps : List Posting} (h : db.Logs E ps) :
    db.startedTrxs E = postedTrxs ps := by
  have hdata : (postRecords E 0 ps).map StateRecord.data = ps.map Posting.record :=
    map_data_postRecords 0
  have hstarted := congrArg (List.filterMap Record.startedTrx) hdata
  rw [List.filterMap_map, List.filterMap_map] at hstarted
  rw [Database.startedTrxs, h.log]
  exact hstarted

end Database

namespace Ledger

theorem postedTrxs_transaction (v : Ledger) (t : SignedTransaction) (gen : Name) :
    postedTrxs (transaction E t gen v).2 = [E.hashTrx t.trx] := by
  have hnone : ∀ e ∈ (commands E t gen v.size (v.post E (startTrx E t)) t.trx.commands).2,
      e.record.startedTrx = none := by
    apply forall_commands (P := fun e => e.record.startedTrx = none)
    · intro v n k
      unfold setKey
      split <;> rfl
    · exact fun _ => rfl
    · exact fun _ => rfl
  exact congrArg (E.hashTrx t.trx :: ·) (List.filterMap_eq_nil_iff.mpr hnone)

theorem postedTrxs_applyAll {v : Ledger} {gen : Name} {ts : List SignedTransaction}
    (h : (applyAll E gen v ts).1 = true) :
    postedTrxs (applyAll E gen v ts).2 = ts.map fun t => E.hashTrx t.trx := by
  induction ts generalizing v with
  | nil => rfl
  | cons t ts ih =>
    unfold applyAll at h ⊢
    simp only at h ⊢
    split at h
    · rename_i hok
      have ht := postedTrxs_transaction (E := E) v t gen
      rw [if_pos hok, List.map_cons, ← ih h]
      rw [postedTrxs] at ht ⊢
      rw [List.filterMap_append, ht]
      rfl
    · cases h

end Ledger

namespace Node

variable {n n' : Node} {blk : Block} {bs : BlockState} {strxs : List SignedTransaction}
  {settled recent : List SignedTransaction}

theorem postedTrxs_blockPosts {db : Database} (ps : List Posting)
    (hok : (Ledger.applyAll E bs.generatorName (db.ledger E) strxs).1 = true) :
    postedTrxs (ps ++ blockPosts E db blk bs.generatorName strxs) =
      postedTrxs ps ++ strxs.map fun t => E.hashTrx t.trx := by
  rw [← Ledger.postedTrxs_applyAll hok]
  simp only [postedTrxs, blockPosts, List.filterMap_append]
  rw [List.filterMap_cons_none rfl, List.filterMap_nil, List.append_nil]

structure Executed (E : Externals) (n : Node) (settled recent : List SignedTransaction) :
    Prop where
  state : ∃ ps, n.stateDb.Logs E ps ∧ postedTrxs ps = settled.map fun t => E.hashTrx t.trx
  head : ∃ ps, n.headDb.Logs E ps ∧
    postedTrxs ps = (settled ++ recent).map fun t => E.hashTrx t.trx
  held : ∀ t ∈ settled ++ recent, n.mTrxDb.Holds (E.hashSignedTrx t) t
  inApplied : ∀ t ∈ settled, n.mTrxDb.stage (E.hashSignedTrx t) = some .applied
  inHead : ∀ t ∈ recent, n.mTrxDb.stage (E.hashSignedTrx t) = some .head
  nodup : (settled ++ recent).Nodup

namespace Executed

theorem congr (h : Executed E n settled recent) (hn : Sound E n) {p : ℕ}
    (hstate : n'.stateDb = n.stateDb.moved p) (hhead : n'.headDb = n.headDb.moved p)
    (hheld : ∀ h t, n.mTrxDb.Holds h t → n'.mTrxDb.Holds h t)
    (hstage : ∀ h (g : Group), g ≠ .pending → n.mTrxDb.stage h = some g →
      n'.mTrxDb.stage h = some g) : Executed E n' settled recent := by
  obtain ⟨ps, hlogs, hposted⟩ := h.state
  obtain ⟨ps', hlogs', hposted'⟩ := h.head
  refine ⟨⟨ps, ?_, hposted⟩, ⟨ps', ?_, hposted'⟩, fun t ht => hheld _ _ (h.held t ht),
    fun t ht => hstage _ _ (by decide) (h.inApplied t ht),
    fun t ht => hstage _ _ (by decide) (h.inHead t ht), h.nodup⟩
  · rw [hstate]
    exact hlogs.moved hn.state p
  · rw [hhead]
    exact hlogs'.moved hn.head p

theorem start (h : Executed E n settled recent) (hn : Sound E n) {tried : Bool}
    (hstart : Starts E tried n blk bs n') : Executed E n' settled recent := by
  obtain ⟨p, -, rfl⟩ := hstart
  obtain ⟨ps, hlogs, hposted⟩ := h.state
  obtain ⟨ps', hlogs', hposted'⟩ := h.head
  refine ⟨⟨ps, ?_, hposted⟩, ⟨ps' ++ firstPosts E tried n blk bs, ?_, ?_⟩,
    h.held, h.inApplied,
    h.inHead, h.nodup⟩
  · rw [stateDb_started]
    exact hlogs.moved hn.state p
  · rw [headDb_started]
    apply (hlogs'.moved hn.head p).posts (hn.head.moved p)
    obtain hnil | hend := firstPosts_cases E tried n blk bs
    · rw [hnil]
      trivial
    · rw [hend]
      exact ⟨Ledger.admits_endBlock _ _, trivial⟩
  · rw [← hposted']
    obtain hnil | hend := firstPosts_cases E tried n blk bs
    · rw [hnil, List.append_nil]
    · rw [hend, postedTrxs, List.filterMap_append]
      exact List.append_nil _

theorem learn (h : Executed E n settled recent) (hn : Sound E n) {t : SignedTransaction}
    (hnew : ¬ n.mTrxDb.knows (E.hashSignedTrx t)) :
    Executed E (n.learn E t) settled recent :=
  h.congr hn (Database.moved_self _).symm (Database.moved_self _).symm
    (fun _ _ ht => ht.insert hnew) fun _ _ _ => stage_learn hn.pool hnew

theorem refused (h : Executed E n settled recent) (hn : Sound E n) :
    Executed E { n with
      mTrxDb := (n.competing bs).moveTransactions bs.signedTransactions .pending .head }
      settled recent := by
  have hp := hn.pool
  refine h.congr hn (p := n.mStateDb.mFile.pos) rfl rfl
    (fun _ _ ht => (holds_competed hp bs).mpr ht) fun h g hne hg => ?_
  change ((n.competing bs).moveTransactions bs.signedTransactions .pending .head).stage h = _
  rw [stage_competed bs hp]
  grind

variable {l : Layer} {p : ℕ}

theorem appended (h : Executed E n settled recent) (hn : Sound E n)
    (hbs : bs.signedTransactions.Nodup) (ha : Attaches E n.headDb n.mTrxDb blk bs strxs l p) :
    Executed E (settleHead blk bs strxs l ((n.pushBack blk).moved p)) (settled ++ recent)
      strxs := by
  have hp := hn.pool
  have hsettle := hn.settle ha
  have hpending := hp.lists_iff.mp ⟨strxs, ha.lists⟩
  obtain ⟨hkeys, hheld⟩ := hp.keyed_of_holds ha.lists.holds
  rw [← hkeys, List.forall_mem_map] at hpending
  obtain ⟨ps, hlogs, hposted⟩ := h.head
  have hkeep : ∀ h t, n.mTrxDb.Holds h t →
      (settleHead blk bs strxs l ((n.pushBack blk).moved p)).mTrxDb.Holds h t :=
    fun _ _ => (holds_settleHead hp bs blk strxs l p).mpr
  refine ⟨⟨ps, ?_, hposted⟩, ⟨_, (ha.logs hn.head hlogs).1.carries (ha.wellFormed hn.head)
    (hsettle.rebase l), ?_⟩, ?_, ?_, ?_, ?_⟩
  · exact (hlogs.moved hn.head p).carries (hn.head.moved p) hsettle
  · rw [postedTrxs_blockPosts ps (ha.accepts hn.head).applied, hposted, ← List.map_append]
  · rw [List.forall_mem_append]
    exact ⟨fun t ht => hkeep _ _ (h.held t ht), fun t ht => hkeep _ _ (hheld t ht)⟩
  · rw [List.forall_mem_append]
    constructor
    · intro t ht
      rw [stage_settleHead bs hp, h.inApplied t ht]
      simp
    · intro t ht
      rw [stage_settleHead bs hp, if_pos (h.inHead t ht)]
  · intro t ht
    have hmem : E.hashSignedTrx t ∈ bs.signedTransactions := by
      rw [← hkeys]
      exact List.mem_map_of_mem ht
    rw [stage_settleHead bs hp, hpending t ht, if_neg (by decide), if_pos ⟨hmem, rfl⟩]
  · rw [List.nodup_append']
    rw [← hkeys] at hbs
    refine ⟨h.nodup, hbs.of_map, fun t hold hnew => ?_⟩
    have hstage := hpending t hnew
    obtain hold | hold := List.mem_append.mp hold
    · rw [h.inApplied t hold] at hstage
      cases hstage
    · rw [h.inHead t hold] at hstage
      cases hstage

theorem replaced (h : Executed E n settled recent) (hn : Sound E n)
    (hbs : bs.signedTransactions.Nodup)
    (ha : Attaches E n.stateDb (n.competing bs) blk bs strxs l p) :
    Executed E (swapHead blk bs strxs l
      { (n.setBack blk).moved p with mTrxDb := n.competing bs }) settled strxs := by
  have hp := hn.pool
  have hcomp : (n.competing bs).Pool E := hp.moveTransactions _ _ _
  have hfree := stage_of_lists_competing bs hp ha.lists
  obtain ⟨hkeys, hheld⟩ := hcomp.keyed_of_holds ha.lists.holds
  rw [← hkeys, List.forall_mem_map] at hfree
  obtain ⟨ps, hlogs, hposted⟩ := h.state
  have hkeep : ∀ h t, (n.competing bs).Holds h t → (swapHead blk bs strxs l
      { (n.setBack blk).moved p with mTrxDb := n.competing bs }).mTrxDb.Holds h t := fun h t ht =>
    ht.moveTransactions hcomp (by decide) _
  refine ⟨⟨ps, hlogs.moved hn.state p, hposted⟩, ⟨_, (ha.logs hn.state hlogs).1, ?_⟩,
    ?_, ?_, ?_, ?_⟩
  · rw [postedTrxs_blockPosts ps (ha.accepts hn.state).applied, hposted, ← List.map_append]
  · rw [List.forall_mem_append]
    refine ⟨fun t ht => hkeep _ _ ?_, fun t ht => hkeep _ _ (hheld t ht)⟩
    exact (h.held t (List.mem_append_left _ ht)).moveTransactions hp (by decide) _
  · intro t ht
    rw [stage_swapHead bs hp, h.inApplied t ht]
    simp
  · intro t ht
    have hmem : E.hashSignedTrx t ∈ bs.signedTransactions := by
      rw [← hkeys]
      exact List.mem_map_of_mem ht
    rw [stage_swapHead bs hp, if_pos ⟨hmem, hfree t ht⟩]
  · rw [List.nodup_append']
    rw [← hkeys] at hbs
    refine ⟨(List.nodup_append'.mp h.nodup).1, hbs.of_map, fun t hold hnew => ?_⟩
    have hstage := hfree t hnew
    rw [h.inApplied t hold] at hstage
    simp at hstage

end Executed

def NewBody (n : Node) (t : SignedTransaction) : Prop :=
  ∀ h t', n.mTrxDb.Holds h t' → t'.trx = t.trx → t' = t

def newBodies : Rules where
  learns := NewBody
  stores _ bs := bs.signedTransactions.Nodup

structure Unrepeated (E : Externals) (n : Node) : Prop where
  bodies : ∀ {h h' t t'}, n.mTrxDb.Holds h t → n.mTrxDb.Holds h' t' →
    t.trx = t'.trx → t = t'
  lists : ∀ (h : Hashcode) bs, n.mBlockStateDb[h]? = some bs → bs.signedTransactions.Nodup
  executed : ∃ settled recent, Executed E n settled recent

theorem unrepeated_inductive : Inductive E newBodies (Sound E) (Unrepeated E) where
  empty := by
    refine ⟨fun ht => ?_, fun _ _ hbs => ?_, [], [], ?_⟩
    · obtain ⟨g, hg⟩ := ht
      simp at hg
    · simp at hbs
    · exact ⟨⟨[], Database.Blank.logs Database.blank_fresh.1, rfl⟩,
        ⟨[], Database.blank_fresh.logs, rfl⟩, List.forall_mem_nil _, List.forall_mem_nil _,
        List.forall_mem_nil _, List.nodup_nil⟩
  generated hs hn hgen := by
    obtain ⟨settled, recent, hex⟩ := hn.executed
    obtain ⟨p, -, hstate, hhead⟩ := hgen.moves
    refine ⟨?_, fun h bs hbs => ?_, settled, recent, hex.congr hs hstate hhead ?_ ?_⟩
    · rw [hgen.trxDb]
      exact hn.bodies
    · exact (hgen.blockState h bs hbs).elim (hn.lists h bs) And.right
    · rw [hgen.trxDb]
      exact fun _ _ => id
    · rw [hgen.trxDb]
      exact fun _ _ _ => id
  learn hs hn hnew hlearn := by
    obtain ⟨settled, recent, hex⟩ := hn.executed
    refine ⟨fun ht ht' heq => ?_, hn.lists, settled, recent, hex.learn hs hnew⟩
    obtain hold | ⟨-, rfl⟩ := TrxDb.holds_of_insert ht
    · obtain hold' | ⟨-, rfl⟩ := TrxDb.holds_of_insert ht'
      · exact hn.bodies hold hold' heq
      · exact hlearn _ _ hold heq
    · obtain hold' | ⟨-, rfl⟩ := TrxDb.holds_of_insert ht'
      · exact (hlearn _ _ hold' heq.symm).symm
      · rfl
  store hs hn hstore := by
    obtain ⟨settled, recent, hex⟩ := hn.executed
    exact ⟨hn.bodies, BlockStateDb.of_insert hn.lists hstore, settled, recent,
      hex.state, hex.head,
      hex.held, hex.inApplied, hex.inHead, hex.nodup⟩
  start hs hn _ hrule hstart := by
    obtain ⟨settled, recent, hex⟩ := hn.executed
    have hex' := hex.start hs hstart
    obtain ⟨p, -, rfl⟩ := hstart
    refine ⟨hn.bodies, BlockStateDb.of_insert hn.lists ?_, settled, recent, hex'⟩
    obtain ⟨-, hstore, -⟩ | ⟨t, -, hgenesis⟩ := hrule
    · exact hstore
    · rw [hgenesis.signedTransactions]
      exact List.nodup_nil
  refused hs hn _ _ _ := by
    obtain ⟨settled, recent, hex⟩ := hn.executed
    refine ⟨fun ht ht' => ?_, hn.lists, settled, recent, hex.refused hs⟩
    exact hn.bodies ((holds_competed hs.pool _).mp ht) ((holds_competed hs.pool _).mp ht')
  appended hs hn _ hext ha := by
    obtain ⟨settled, recent, hex⟩ := hn.executed
    refine ⟨fun ht ht' => ?_, hn.lists, _, _, hex.appended hs (hn.lists _ _ hext.known) ha⟩
    exact hn.bodies ((holds_settleHead hs.pool _ _ _ _ _).mp ht)
      ((holds_settleHead hs.pool _ _ _ _ _).mp ht')
  replaced hs hn _ hcomp ha := by
    obtain ⟨settled, recent, hex⟩ := hn.executed
    refine ⟨fun ht ht' => ?_, hn.lists, _, _, hex.replaced hs (hn.lists _ _ hcomp.known) ha⟩
    exact hn.bodies ((holds_competed hs.pool _).mp ht) ((holds_competed hs.pool _).mp ht')

structure BodiesOnce (E : Externals) (n : Node) : Prop where
  startedTrxs : (n.headDb.startedTrxs E).Nodup
  bodies : ∃ ts : List SignedTransaction,
    n.headDb.startedTrxs E = ts.map (fun t => E.hashTrx t.trx) ∧
      (ts.map SignedTransaction.trx).Nodup

theorem Unrepeated.bodiesOnce (hn : Unrepeated E n) (hE : Function.Injective E.hashTrx) :
    BodiesOnce E n := by
  obtain ⟨settled, recent, hex⟩ := hn.executed
  obtain ⟨ps, hlogs, hposted⟩ := hex.head
  have hstarted := hlogs.startedTrxs.trans hposted
  have hdistinct : ∀ t ∈ settled ++ recent, ∀ t' ∈ settled ++ recent,
      t.trx = t'.trx → t = t' :=
    fun t ht t' ht' => hn.bodies (hex.held t ht) (hex.held t' ht')
  constructor
  · rw [hstarted]
    exact hex.nodup.map_on fun t ht t' ht' heq => hdistinct t ht t' ht' (hE heq)
  · exact ⟨_, hstarted, hex.nodup.map_on hdistinct⟩

def Mined (E : Externals) (n : Node) (b : Block) : Prop :=
  ∃ job ∈ n.jobs, E.hashBlock b < job.2 ∧ ∃ utcClock nonce,
    b = { job.1 with utcTime := max job.1.utcTime (UInt32.ofNat (utcClock / 100000)), nonce }

def Call.OwnBlocks (E : Externals) (n : Node) : Call → Prop
  | .addTransaction _ | .configureGeneration _ _ => True
  | .generatedBlock b => n.Mined E b
  | .addBlock _ | .addFullBlock _ => False

def Call.SendsNewBody (n : Node) : Call → Prop
  | .addTransaction tx => n.NewBody tx
  | _ => True

theorem allow_newBodies {clock : Clock} {c : Call} (hown : c.OwnBlocks E n)
    (hnew : c.SendsNewBody n) : newBodies.allow E n clock c := by
  refine ⟨fun _ _ => trivial, ?_⟩
  cases c with
  | addTransaction tx => exact Or.inr hnew
  | addFullBlock fbs => exact hown.elim
  | _ => trivial

/-- No body is applied twice, as long as none that is known is submitted under other
signatures. -/
theorem bodies_once (hE : Function.Injective E.hashTrx)
    (hr : ReachableBy E (fun n _ c => c.OwnBlocks E n ∧ c.SendsNewBody n) n) :
    BodiesOnce E n := by
  have hallow : ReachableBy E (newBodies.allow E) n :=
    hr.mono fun _ _ _ h => allow_newBodies h.1 h.2
  exact (unrepeated_inductive.reachable hallow).bodiesOnce hE

def clockAt (s : ℕ) : Clock := fun _ => s * 1000000

def launch : ℕ := 1288490189

def makeJob : List Call := [.configureGeneration [] true, .configureGeneration [] false]

def lastMined (nonce : UInt64) (n : Node) : Block := { (n.jobs.getLastD default).1 with nonce }

def givenNode : Node :=
  Lib.finalState
    (Call.run (Wire.externals nonceHash) (clockAt launch) (.addTransaction idle) {})

def jobNode : Node :=
  Lib.finalState (runAll (Wire.externals nonceHash) (clockAt launch) makeJob givenNode)

theorem bodies_once_jobNode :
    ∃ n : Node, n.headDb.startedTrxs (Wire.externals nonceHash) ≠ [] ∧
      BodiesOnce (Wire.externals nonceHash) n := by
  let E := Wire.externals nonceHash
  have hnew : NewBody {} idle := by
    rintro h t ⟨g, hg⟩
    simp at hg
  have hgive : Call.run E (clockAt launch) (.addTransaction idle) {} = .ok () givenNode :=
    Lib.eq_ok_of_returned (by decide +kernel)
  have hgiven : ReachableBy E (fun n _ c => c.OwnBlocks E n ∧ c.SendsNewBody n) givenNode :=
    .call (c := .addTransaction idle) .empty ⟨trivial, hnew⟩ hgive
  have hjob : ReachableBy E (fun n _ c => c.OwnBlocks E n ∧ c.SendsNewBody n) jobNode :=
    hgiven.runAll (by simp [makeJob, Call.OwnBlocks, Call.SendsNewBody])
      (Lib.eq_ok_of_returned (by decide +kernel))
  have hmined : ∃ job ∈ jobNode.jobs, nonceHash (lastMined 1 jobNode) < job.2 ∧
      lastMined 1 jobNode = { job.1 with
        utcTime := max job.1.utcTime (UInt32.ofNat (launch * 1000000 / 100000)), nonce := 1 } := by
    decide +kernel
  obtain ⟨job, hmem, hlt, heq⟩ := hmined
  have hown : Call.OwnBlocks E jobNode (.generatedBlock (lastMined 1 jobNode)) :=
    ⟨job, hmem, hlt, _, _, heq⟩
  have hrun : Call.run E (clockAt (launch + 15)) (.generatedBlock (lastMined 1 jobNode)) jobNode =
    .ok () _ := Lib.eq_ok_of_returned (by decide +kernel)
  exact ⟨_, by decide +kernel, bodies_once (Lib.Format.number_injective _)
    (.call hjob ⟨hown, trivial⟩ hrun)⟩

structure CollisionFree (E : Externals) : Prop where
  trx : Function.Injective E.hashTrx
  signedTrx : Function.Injective E.hashSignedTrx
  block : Function.Injective E.hashBlock
  blockState : Function.Injective E.hashBlockState
  bytes : Function.Injective E.hashBytes
  hashes : Function.Injective E.hashHashes

theorem collisionFree_wire {hashBlock : Block → Hashcode} (h : Function.Injective hashBlock) :
    CollisionFree (Wire.externals hashBlock) :=
  ⟨Lib.Format.number_injective _, Lib.Format.number_injective _, h,
    Lib.Format.number_injective _, Lib.Format.number_injective _, Lib.Format.number_injective _⟩

def resigned : SignedTransaction := { idle with sigs := [1] }

/-- The first block that is made at `launch`. -/
def launchBlock : Block where
  utcTime := 1288490189
  state := Wire.blockState.number (firstState (Wire.externals nonceHash))

def doubledState : BlockState where
  index := 1
  generatorName := []
  stateDb := stateHash (Wire.externals nonceHash)
    (packPosts (Wire.externals nonceHash) 0
      [endBlock launchBlock [], Ledger.startTrx (Wire.externals nonceHash) idle,
        Ledger.startTrx (Wire.externals nonceHash) resigned])
  signedTransactions :=
    [Wire.signedTransaction.number idle, Wire.signedTransaction.number resigned]

def doubledBlock : Block where
  utcTime := 1288490204
  state := Wire.blockState.number doubledState
  nonce := 1

def blockNumber : Block → Hashcode := Wire.block.numberAfter [launchBlock, doubledBlock]

def doubledCalls : List Call :=
  [.addTransaction idle, .addTransaction resigned] ++ makeJob

def doubledNode : Node :=
  Lib.finalState (runAll (Wire.externals blockNumber) (clockAt launch) doubledCalls {})

theorem body_replayed : ¬ ∀ E n, CollisionFree E →
    ReachableBy E (fun n _ c => c.OwnBlocks E n) n → BodiesOnce E n := by
  intro h
  let E := Wire.externals blockNumber
  have hE : CollisionFree E := collisionFree_wire (Lib.Format.numberAfter_injective _ _)
  have hjob : ReachableBy E (fun n _ c => c.OwnBlocks E n) doubledNode :=
    ReachableBy.empty.runAll (by simp [doubledCalls, makeJob, Call.OwnBlocks])
      (Lib.eq_ok_of_returned (by decide +kernel))
  have hmined : ∃ job ∈ doubledNode.jobs, E.hashBlock doubledBlock < job.2 ∧
      doubledBlock = { job.1 with
        utcTime := max job.1.utcTime (UInt32.ofNat (launch * 1000000 / 100000)), nonce := 1 } := by
    decide +kernel
  obtain ⟨job, hmem, hlt, heq⟩ := hmined
  have hown : Call.OwnBlocks E doubledNode (.generatedBlock doubledBlock) :=
    ⟨job, hmem, hlt, launch * 1000000, 1, heq⟩
  have hrun : Call.run E (clockAt (launch + 15)) (.generatedBlock doubledBlock) doubledNode =
    .ok () _ := Lib.eq_ok_of_returned (by decide +kernel)
  have hnodup := (h E _ hE (.call hjob hown hrun)).startedTrxs
  revert hnodup
  decide +kernel

end Node

end Gpm
