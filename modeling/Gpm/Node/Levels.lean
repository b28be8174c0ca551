import Gpm.Node.Restart

namespace Gpm

namespace Node

variable (E : Externals)

def listedTrxs (fbs : FullBlockState) : List SignedTransaction :=
  fbs.blkState.signedTransactions.filterMap fun h => fbs.trxs.find? fun t => E.hashSignedTrx t = h

def applyFullBlock (fbs : FullBlockState) : DbM Bool :=
  DbM.applyBlock E fbs.blk fbs.blkState.generatorName (listedTrxs E fbs) fbs.blkState.stateDb

/-- A full block with all it lists attached, correct behind a chain with the log of `db`.  Its
hash is not the one it names as its predecessor's. -/
structure Extension (bc : BlockChain) (db : Database) (fbs : FullBlockState) : Prop where
  valid : validate E.hashBlock (bc ++ [fbs.blk])
  fresh : fbs.blk.prevBlock ≠ E.hashBlock fbs.blk
  attached : ∀ h ∈ fbs.blkState.signedTransactions, ∃ t ∈ fbs.trxs, E.hashSignedTrx t = h
  applied : ∃ db', applyFullBlock E fbs (.trx db {}) = .ok true db'

inductive Levels : BlockChain → Database → List (List FullBlockState) →
    List FullBlockState → Prop
  | nil (bc : BlockChain) (db : Database) : Levels bc db [] []
  | cons {bc : BlockChain} {db db' : Database} {level : List FullBlockState}
      {levels : List (List FullBlockState)} {w : FullBlockState} {ws : List FullBlockState} :
      w ∈ level → (∀ b ∈ level, b ≠ w → E.hashBlock w.blk < E.hashBlock b.blk) →
      (∀ b ∈ level, Extension E bc db b) →
      applyFullBlock E w (.trx db {}) = .ok true db' →
      Levels (bc ++ [w.blk]) db' levels ws → Levels bc db (level :: levels) (w :: ws)

abbrev Arrival := Clock × FullBlockState

def deliver : List Arrival → NodeM Unit
  | [] => return ()
  | (clock, fbs) :: rest => do
    discard <| addFullBlock E clock fbs
    deliver rest

def Arrives (levels : List (List FullBlockState)) (orders : List (List Arrival)) : Prop :=
  List.Forall₂ (fun level order => (order.map Prod.snd).Perm level ∧
    ∀ a ∈ order, ¬ seconds (a.1 0) + 30 < a.2.blk.utcTime) levels orders

def Unspent (n : Node) (fbs : FullBlockState) : Prop :=
  ∀ h ∈ fbs.blkState.signedTransactions, n.mTrxDb[TrxKey.mk .applied h]? = none ∧
    (fbs.blk.prevBlock = E.hashBlock n.back → n.mTrxDb[TrxKey.mk .head h]? = none)

def AllUnspent (ws : List FullBlockState) : List Arrival → Node → Prop
  | [], _ => True
  | (clock, fbs) :: rest, n => (fbs ∈ ws → Unspent E n fbs) ∧
    ∀ r n', addFullBlock E clock fbs n = .ok r n' → AllUnspent ws rest n'

variable {E} {bc : BlockChain} {db : Database} {fbs b : FullBlockState} {n n' : Node}
  {clock : Clock} {r : Int}

structure Before (E : Externals) (bc : BlockChain) (db : Database) (n : Node) : Prop where
  sound : Sound E n
  quiet : n.mGenEnabled = false
  blockChain : n.mBlockChain = bc
  log : SameLog E db n.headDb

structure Within (E : Externals) (bc : BlockChain) (db : Database) (b : FullBlockState) (n : Node) :
    Prop where
  sound : Sound E n
  quiet : n.mGenEnabled = false
  blockChain : n.mBlockChain = bc ++ [b.blk]
  state : SameLog E db n.stateDb
  log : SameLog E (afterBlock E db b.blk b.blkState.generatorName (listedTrxs E b)) n.headDb

namespace Extension

theorem map_listedTrxs (h : Extension E bc db fbs) :
    (listedTrxs E fbs).map E.hashSignedTrx = fbs.blkState.signedTransactions := by
  have key : ∀ l : List Hashcode, (∀ h ∈ l, ∃ t ∈ fbs.trxs, E.hashSignedTrx t = h) →
      (l.filterMap fun h => fbs.trxs.find? fun t => E.hashSignedTrx t = h).map E.hashSignedTrx =
        l := by
    intro l
    induction l with
    | nil => exact fun _ => rfl
    | cons h l ih =>
      intro hl
      rw [List.forall_mem_cons] at hl
      obtain ⟨⟨t, ht, heq⟩, hl⟩ := hl
      have hfound : (fbs.trxs.find? fun t => E.hashSignedTrx t = h).isSome :=
        List.find?_isSome.mpr ⟨t, ht, decide_eq_true heq⟩
      obtain ⟨t', ht'⟩ := Option.isSome_iff_exists.mp hfound
      have hhash := List.find?_some ht'
      rw [decide_eq_true_eq] at hhash
      simp only [List.filterMap_cons, ht', List.map_cons, ih hl, hhash]
  exact key _ h.attached

theorem mem_trxs {t : SignedTransaction} (ht : t ∈ listedTrxs E fbs) : t ∈ fbs.trxs := by
  obtain ⟨h, -, hfound⟩ := List.mem_filterMap.mp ht
  exact List.mem_of_find?_eq_some hfound

theorem accepts (h : Extension E bc db fbs) (hdb : WellFormed E db) :
    DbM.Accepts E db fbs.blkState.generatorName (listedTrxs E fbs) fbs.blkState.stateDb :=
  (SameLog.overlay hdb).symm.accepts hdb.overlay hdb
    ((DbM.applyBlock_true_iff hdb.overlay).mp h.applied)

theorem trxs_eq (h : Extension E bc db fbs) (hE : Function.Injective E.hashSignedTrx)
    {pool : TrxDb} (hpool : pool.Pool E) {strxs : List SignedTransaction}
    (hlists : pool.Lists .pending fbs.blkState.signedTransactions strxs) :
    strxs = listedTrxs E fbs := by
  apply List.map_injective_iff.mpr hE
  rw [h.map_listedTrxs]
  exact (hpool.keyed_of_holds hlists.holds).1

theorem holds_stored (h : Extension E bc db fbs) (hE : Function.Injective E.hashSignedTrx)
    (hpool : n.mTrxDb.Pool E) : List.Forall₂ (n.store E fbs).mTrxDb.Holds
      fbs.blkState.signedTransactions (listedTrxs E fbs) := by
  rw [← h.map_listedTrxs, List.forall₂_map_left_iff, List.forall₂_same]
  intro t ht
  obtain ⟨t', g, ht'⟩ := hpool.known_store (mem_trxs ht)
  have hkey := (hpool.store fbs.trxs).keyed ht'
  rw [hE hkey] at ht'
  exact ⟨g, ht'⟩

theorem stage_stored (h : Extension E bc db fbs) (hpool : n.mTrxDb.Pool E) {k : Hashcode}
    (hk : k ∈ fbs.blkState.signedTransactions) :
    (n.store E fbs).mTrxDb.stage k = some ((n.mTrxDb.stage k).getD .pending) := by
  obtain ⟨t, ht, rfl⟩ := h.attached k hk
  exact hpool.stage_of_store (List.mem_map_of_mem ht)

end Extension

section Arrival

variable (hE : Function.Injective E.hashSignedTrx) (hne : bc ≠ []) (hdb : WellFormed E db)
  (hx : Extension E bc db fbs) (htime : ¬ seconds (clock 0) + 30 < fbs.blk.utcTime)

include hE hne hdb hx htime

theorem Before.arrives (h : Before E bc db n) :
    ∃ r n', addFullBlock E clock fbs n = .ok r n' ∧
      (Within E bc db fbs n' ∨ Before E bc db n' ∧ ¬ Unspent E n fbs) := by
  have hs := h.sound.store fbs
  have hquiet : (n.store E fbs).mGenEnabled = false := h.quiet
  have hchain : (n.store E fbs).mBlockChain = bc := h.blockChain
  have hback : (n.store E fbs).back = bc.getLastD default := by rw [back, hchain]
  have hlink : fbs.blk.prevBlock = E.hashBlock (n.store E fbs).back := by
    rw [hback]
    exact ((validate_append hne).mp hx.valid).2.2.linked
  have hknown : (n.store E fbs).mBlockStateDb[fbs.blk.state]? = some fbs.blkState :=
    Std.ExtTreeMap.getElem?_insert_self
  have hext : Extends E clock (n.store E fbs) fbs.blk fbs.blkState :=
    ⟨⟨by rwa [hchain], hknown, htime⟩, hlink, by rw [hchain]; exact hx.valid⟩
  have hne' : n.mBlockChain ≠ [] := by rwa [h.blockChain]
  obtain ⟨l, p, ha, hadd⟩ | ⟨hno, r, p, hadd⟩ := addBlock_extends hs hquiet hext
    (fun strxs => hx.trxs_eq hE hs.pool) (h.log.accepts hdb hs.head (hx.accepts hdb))
  · obtain ⟨hstate, hlog⟩ := settleHead_sameLog hs ha
    refine ⟨_, _, addFullBlock_quiet h.quiet hne' hadd, Or.inl ⟨hs.appended ha, hquiet, ?_,
      h.log.trans hstate, (afterBlock_sameLog h.log hdb hs.head _ _ _).trans hlog⟩⟩
    change (n.store E fbs).mBlockChain ++ [fbs.blk] = _
    rw [hchain]
  · refine ⟨_, _, addFullBlock_quiet h.quiet hne' hadd, Or.inr
      ⟨⟨sound_inductive.addBlock hs trivial hadd, hquiet, hchain,
        h.log.trans (SameLog.moved _ _)⟩, fun hunspent => hno ?_⟩⟩
    apply hs.pool.lists_of_holds (hx.holds_stored hE h.sound.pool)
    intro k hk
    obtain ⟨happlied, hhead⟩ := hunspent k hk
    rw [hx.stage_stored h.sound.pool hk]
    obtain hpending | ⟨-, hsome⟩ := h.sound.pool.stage_unapplied happlied
    · rw [hpending]
    · exact absurd (hhead hlink) hsome

theorem Within.arrives (hb : Extension E bc db b) (h : Within E bc db b n) :
    ∃ r n', addFullBlock E clock fbs n = .ok r n' ∧
      (E.hashBlock fbs.blk < E.hashBlock b.blk ∧ Within E bc db fbs n' ∨
        Within E bc db b n' ∧ (E.hashBlock fbs.blk < E.hashBlock b.blk →
          ¬ Unspent E n fbs)) := by
  have hs := h.sound.store fbs
  have hquiet : (n.store E fbs).mGenEnabled = false := h.quiet
  have hchain : (n.store E fbs).mBlockChain = bc ++ [b.blk] := h.blockChain
  have hback : (n.store E fbs).back = b.blk := by rw [back, hchain, List.getLastD_concat]
  have hne' : n.mBlockChain ≠ [] := by
    rw [h.blockChain]
    exact List.append_ne_nil_of_right_ne_nil _ (List.cons_ne_nil _ _)
  have hsib : fbs.blk.prevBlock = (n.store E fbs).back.prevBlock := by
    rw [hback, ((validate_append hne).mp hx.valid).2.2.linked,
      ((validate_append hne).mp hb.valid).2.2.linked]
  have hunlinked : fbs.blk.prevBlock ≠ E.hashBlock (n.store E fbs).back := by
    rw [hsib, hback]
    exact hb.fresh
  have hknown : (n.store E fbs).mBlockStateDb[fbs.blk.state]? = some fbs.blkState :=
    Std.ExtTreeMap.getElem?_insert_self
  have hpool : ((n.store E fbs).competing fbs.blkState).Pool E := hs.pool.moveTransactions _ _ _
  have hstays : ∀ {r n'}, addBlock E clock fbs.blk (n.store E fbs) = .ok r n' →
      n'.mGenEnabled = false → n'.mBlockChain = bc ++ [b.blk] →
        SameLog E n.stateDb n'.stateDb → SameLog E n.headDb n'.headDb → Within E bc db b n' :=
    fun hadd hquiet hchain hstate hhead =>
      ⟨sound_inductive.addBlock hs trivial hadd, hquiet, hchain,
      h.state.trans hstate, h.log.trans hhead⟩
  by_cases hlow : E.hashBlock fbs.blk < E.hashBlock b.blk
  · have hvalid := hx.valid
    have hbase : (n.store E fbs).mBlockChain.dropLast = bc := by rw [hchain, List.dropLast_concat]
    rw [← hbase] at hvalid
    have hcomp : Competes E clock (n.store E fbs) fbs.blk fbs.blkState :=
      ⟨⟨hne', hknown, htime⟩, hunlinked, hsib, hback ▸ hlow, hvalid⟩
    obtain ⟨l, p, ha, hadd⟩ | ⟨hno, p, hadd⟩ := addBlock_competes hs hquiet hcomp
      (fun strxs => hx.trxs_eq hE hpool) (h.state.accepts hdb hs.state (hx.accepts hdb))
    · refine ⟨_, _, addFullBlock_quiet h.quiet hne' hadd,
        Or.inl ⟨hlow, hs.replaced ha, hquiet, ?_,
        h.state.trans (SameLog.moved _ _),
        (afterBlock_sameLog h.state hdb hs.state _ _ _).trans (ha.afterBlock hs.state)⟩⟩
      change (n.store E fbs).mBlockChain.dropLast ++ [fbs.blk] = _
      rw [hbase]
    · refine ⟨_, _, addFullBlock_quiet h.quiet hne' hadd, Or.inr
        ⟨hstays hadd hquiet hchain (SameLog.moved _ _) (SameLog.moved _ _),
          fun _ hunspent => hno ?_⟩⟩
      apply hpool.lists_of_holds ((hx.holds_stored hE h.sound.pool).imp fun _ _ ht =>
        ht.moveTransactions hs.pool (by decide) _)
      intro k hk
      rw [stage_competing fbs.blkState hs.pool, hx.stage_stored h.sound.pool hk]
      obtain hpending | ⟨hhead, -⟩ := h.sound.pool.stage_unapplied (hunspent k hk).1
      · rw [hpending]
        exact if_neg fun hmoved => absurd (Option.some.inj hmoved.2) (by decide)
      · rw [hhead]
        exact if_pos ⟨hk, rfl⟩
  · have hneither : ∃ r p, addBlock E clock fbs.blk (n.store E fbs) =
        .ok r ((n.store E fbs).moved p) :=
      addBlock_neither (fun _ he => hunlinked he.linked) fun _ hc => hlow (hback ▸ hc.lower)
    obtain ⟨r, p, hadd⟩ := hneither
    exact ⟨_, _, addFullBlock_quiet h.quiet hne' hadd, Or.inr
      ⟨hstays hadd hquiet hchain (SameLog.moved _ _) (SameLog.moved _ _),
        fun hlt => absurd hlt hlow⟩⟩

end Arrival

theorem deliver_cons (hadd : addFullBlock E clock fbs n = .ok r n') (rest : List Arrival) :
    deliver E ((clock, fbs) :: rest) n = deliver E rest n' := by
  change (discard (addFullBlock E clock fbs) >>= fun _ => deliver E rest) n = _
  exact Lib.bind_ok (Lib.discard_ok hadd)

section Level

variable {level : List FullBlockState} {w : FullBlockState} {ws : List FullBlockState}
  (hE : Function.Injective E.hashSignedTrx) (hne : bc ≠ []) (hdb : WellFormed E db)
  (hlevel : ∀ b ∈ level, Extension E bc db b) (hw : w ∈ level)
  (hlow : ∀ b ∈ level, b ≠ w → E.hashBlock w.blk < E.hashBlock b.blk) (hws : w ∈ ws)

include hE hne hdb hlevel hw hlow

theorem level_step (hmem : fbs ∈ level) (htime : ¬ seconds (clock 0) + 30 < fbs.blk.utcTime)
    (hunspent : fbs = w → Unspent E n fbs)
    (hn : Before E bc db n ∨ ∃ b ∈ level, Within E bc db b n) :
    ∃ r n', addFullBlock E clock fbs n = .ok r n' ∧
      (Before E bc db n' ∨ ∃ b ∈ level, Within E bc db b n') ∧
      (fbs = w ∨ Within E bc db w n → Within E bc db w n') := by
  have hleast : ¬ E.hashBlock fbs.blk < E.hashBlock w.blk := by
    intro hlt
    by_cases heq : fbs = w
    · exact Nat.lt_irrefl _ (heq ▸ hlt)
    · exact Nat.lt_asymm hlt (hlow fbs hmem heq)
  by_cases hsettled : Within E bc db w n
  · obtain ⟨r, n', hadd, ⟨hlt, -⟩ | ⟨hwithin, -⟩⟩ :=
      hsettled.arrives hE hne hdb (hlevel fbs hmem) htime (hlevel w hw)
    · exact absurd hlt hleast
    · exact ⟨r, n', hadd, Or.inr ⟨w, hw, hwithin⟩, fun _ => hwithin⟩
  · obtain hbefore | ⟨b, hb, hwithin⟩ := hn
    · obtain ⟨r, n', hadd, hwithin | ⟨hbefore', hspent⟩⟩ :=
        hbefore.arrives hE hne hdb (hlevel fbs hmem) htime
      · refine ⟨r, n', hadd, Or.inr ⟨fbs, hmem, hwithin⟩, fun hcase => ?_⟩
        rwa [← hcase.resolve_right hsettled]
      · refine ⟨r, n', hadd, Or.inl hbefore', fun hcase => ?_⟩
        exact absurd (hunspent (hcase.resolve_right hsettled)) hspent
    · have hlt : fbs = w → E.hashBlock fbs.blk < E.hashBlock b.blk := by
        rintro rfl
        exact hlow b hb fun heq => hsettled (heq ▸ hwithin)
      obtain ⟨r, n', hadd, ⟨-, hwithin'⟩ | ⟨hwithin', hspent⟩⟩ :=
        hwithin.arrives hE hne hdb (hlevel fbs hmem) htime (hlevel b hb)
      · refine ⟨r, n', hadd, Or.inr ⟨fbs, hmem, hwithin'⟩, fun hcase => ?_⟩
        rwa [← hcase.resolve_right hsettled]
      · refine ⟨r, n', hadd, Or.inr ⟨b, hb, hwithin'⟩, fun hcase => ?_⟩
        have heq := hcase.resolve_right hsettled
        exact absurd (hunspent heq) (hspent (hlt heq))

include hws

theorem level_run {order rest : List Arrival} (hmem : ∀ a ∈ order, a.2 ∈ level)
    (htime : ∀ a ∈ order, ¬ seconds (a.1 0) + 30 < a.2.blk.utcTime)
    (hn : Before E bc db n ∨ ∃ b ∈ level, Within E bc db b n)
    (hcomes : w ∈ order.map Prod.snd ∨ Within E bc db w n)
    (hunspent : AllUnspent E ws (order ++ rest) n) :
    ∃ n', deliver E (order ++ rest) n = deliver E rest n' ∧ Within E bc db w n' ∧
      AllUnspent E ws rest n' := by
  induction order generalizing n with
  | nil =>
    refine ⟨n, rfl, hcomes.resolve_left fun hmem => ?_, hunspent⟩
    cases hmem
  | cons a order ih =>
    obtain ⟨clock, fbs⟩ := a
    rw [List.forall_mem_cons] at hmem htime
    have hfbs : fbs ∈ level := hmem.1
    obtain ⟨r, n', hadd, hn', hlast⟩ := level_step hE hne hdb hlevel hw hlow hfbs htime.1
      (fun heq => hunspent.1 (heq ▸ hws)) hn
    have hcomes' : w ∈ order.map Prod.snd ∨ Within E bc db w n' := by
      rw [List.map_cons, List.mem_cons] at hcomes
      obtain (heq | hmem) | hwithin := hcomes
      · exact Or.inr (hlast (Or.inl heq.symm))
      · exact Or.inl hmem
      · exact Or.inr (hlast (Or.inr hwithin))
    obtain ⟨n₂, hrun, hend⟩ := ih hmem.2 htime.2 hn' hcomes' (hunspent.2 r n' hadd)
    exact ⟨n₂, (deliver_cons hadd _).trans hrun, hend⟩

end Level

theorem levels_run (hE : Function.Injective E.hashSignedTrx) {levels : List (List FullBlockState)}
    {ws ws' : List FullBlockState} {orders : List (List Arrival)} (h : Levels E bc db levels ws)
    (hne : bc ≠ []) (hdb : WellFormed E db) (hn : Before E bc db n)
    (horders : Arrives levels orders)
    (hws : ∀ w ∈ ws, w ∈ ws') (hunspent : AllUnspent E ws' orders.flatten n) :
    ∃ n', deliver E orders.flatten n = .ok () n' ∧
      n'.mBlockChain = bc ++ ws.map FullBlockState.blk := by
  induction h generalizing n orders with
  | nil bc db =>
    cases horders
    exact ⟨n, rfl, by rw [List.map_nil, List.append_nil, hn.blockChain]⟩
  | @cons bc db db' level levels w ws hw hlow hlevel happ _ ih =>
    rw [Arrives, List.forall₂_cons_left_iff] at horders
    obtain ⟨order, orders, ⟨hperm, htime⟩, horders, rfl⟩ := horders
    rw [List.forall_mem_cons] at hws
    rw [List.flatten_cons] at hunspent ⊢
    have hmem : ∀ a ∈ order, a.2 ∈ level := fun a ha => hperm.subset (List.mem_map_of_mem ha)
    obtain ⟨n', hrun, hwithin, hunspent'⟩ :=
        level_run hE hne hdb hlevel hw hlow hws.1 hmem htime
      (Or.inl hn) (Or.inl (hperm.symm.subset hw)) hunspent
    obtain ⟨hlog, hdb'⟩ := afterBlock_of_applyBlock hdb happ
    have hnext : Before E (bc ++ [w.blk]) db' n' :=
      ⟨hwithin.sound, hwithin.quiet, hwithin.blockChain, hlog.symm.trans hwithin.log⟩
    obtain ⟨n₂, hrest, hchain⟩ :=
        ih (List.append_ne_nil_of_right_ne_nil _ (List.cons_ne_nil _ _))
      hdb' hnext horders hws.2 hunspent'
    refine ⟨n₂, hrun.trans hrest, ?_⟩
    rw [hchain, List.map_cons, List.append_assoc]
    rfl

/-- Two nodes with the same chain and log end with the same chain, which has the lowest block of
each level, in whatever order the blocks of a level reach them, if those blocks find what they list
unspent. -/
theorem levels_agree (hE : Function.Injective E.hashSignedTrx) {m : Node}
    {levels : List (List FullBlockState)} {ws : List FullBlockState}
    {orders orders' : List (List Arrival)} (hn : Live E n) (hm : Live E m)
    (hquiet : n.mGenEnabled = false) (hquiet' : m.mGenEnabled = false) (hne : n.mBlockChain ≠ [])
    (hchain : m.mBlockChain = n.mBlockChain) (hlog : SameLog E n.headDb m.headDb)
    (hlevels : Levels E n.mBlockChain n.headDb levels ws) (horders : Arrives levels orders)
    (horders' : Arrives levels orders') (hunspent : AllUnspent E ws orders.flatten n)
    (hunspent' : AllUnspent E ws orders'.flatten m) :
    ∃ n' m', deliver E orders.flatten n = .ok () n' ∧
      deliver E orders'.flatten m = .ok () m' ∧
      n'.mBlockChain = n.mBlockChain ++ ws.map FullBlockState.blk ∧
        m'.mBlockChain = n'.mBlockChain := by
  have hdb := hn.sound.head
  obtain ⟨n', hrun, heq⟩ := levels_run hE hlevels hne hdb
    ⟨hn.sound, hquiet, rfl, SameLog.refl _⟩ horders (fun _ hw => hw) hunspent
  obtain ⟨m', hrun', heq'⟩ := levels_run hE hlevels hne hdb ⟨hm.sound,
      hquiet', hchain, hlog⟩
    horders' (fun _ hw => hw) hunspent'
  exact ⟨n', m', hrun, hrun', heq, heq'.trans heq.symm⟩

theorem allUnspent_of_nil {ws : List FullBlockState} {order : List Arrival}
    (h : ∀ w ∈ ws, w.blkState.signedTransactions = []) : AllUnspent E ws order n := by
  induction order generalizing n with
  | nil => trivial
  | cons a order ih =>
    refine ⟨fun hmem k hk => ?_, fun _ _ _ => ih⟩
    rw [h a.2 hmem] at hk
    cases hk

/-- A block that lists nothing, with a lower hash than its competitor `heavyBlock`. -/
def plainBlock : FullBlockState := blockOn (Wire.externals nonceHash) firstNode.headDb 1 35 2 []

def plainNode : Node :=
  Lib.finalState ((Call.addFullBlock plainBlock).run (Wire.externals nonceHash) noon firstNode)

def laterBlock : FullBlockState :=
  blockOn (Wire.externals nonceHash) plainNode.headDb 2 50 7 [idle]

theorem extension_heavyBlock :
    Extension (Wire.externals nonceHash) firstNode.mBlockChain firstNode.headDb heavyBlock :=
  ⟨by decide +kernel, by decide +kernel, by decide +kernel, _,
    Lib.eq_ok_of_returned (by decide +kernel)⟩

theorem extension_plainBlock :
    Extension (Wire.externals nonceHash) firstNode.mBlockChain firstNode.headDb plainBlock :=
  ⟨by decide +kernel, by decide +kernel, by decide +kernel, _,
    Lib.eq_ok_of_returned (by decide +kernel)⟩

def plainLog : Database :=
  Lib.finalState (applyFullBlock (Wire.externals nonceHash) plainBlock (.trx firstNode.headDb {}))

theorem levels_competing {levels : List (List FullBlockState)} {ws : List FullBlockState}
    (h : Levels (Wire.externals nonceHash) (firstNode.mBlockChain ++ [plainBlock.blk]) plainLog
      levels ws) :
    Levels (Wire.externals nonceHash) firstNode.mBlockChain firstNode.headDb
      ([heavyBlock, plainBlock] :: levels) (plainBlock :: ws) := by
  have hlower : (Wire.externals nonceHash).hashBlock plainBlock.blk <
      (Wire.externals nonceHash).hashBlock heavyBlock.blk := by decide +kernel
  refine .cons (List.mem_cons_of_mem _ List.mem_cons_self) ?_ ?_
    (Lib.eq_ok_of_returned (by decide +kernel)) h
  · intro b hb hne
    rw [List.mem_cons, List.mem_singleton] at hb
    obtain rfl | rfl := hb
    · exact hlower
    · exact absurd rfl hne
  · intro b hb
    rw [List.mem_cons, List.mem_singleton] at hb
    obtain rfl | rfl := hb
    · exact extension_heavyBlock
    · exact extension_plainBlock

theorem heavyBlock_timely : ¬ seconds (noon 0) + 30 < heavyBlock.blk.utcTime := by decide +kernel

theorem plainBlock_timely : ¬ seconds (noon 0) + 30 < plainBlock.blk.utcTime := by decide +kernel

theorem arrives_heavyBlock {levels : List (List FullBlockState)} {orders : List (List Arrival)}
    (h : Arrives levels orders) : Arrives ([heavyBlock, plainBlock] :: levels)
      ([(noon, heavyBlock), (noon, plainBlock)] :: orders) := by
  refine .cons ⟨List.Perm.refl _, ?_⟩ h
  rw [List.forall_mem_cons, List.forall_mem_singleton]
  exact ⟨heavyBlock_timely, plainBlock_timely⟩

theorem arrives_plainBlock {levels : List (List FullBlockState)} {orders : List (List Arrival)}
    (h : Arrives levels orders) : Arrives ([heavyBlock, plainBlock] :: levels)
      ([(noon, plainBlock), (noon, heavyBlock)] :: orders) := by
  refine .cons ⟨List.Perm.swap _ _ _, ?_⟩ h
  rw [List.forall_mem_cons, List.forall_mem_singleton]
  exact ⟨plainBlock_timely, heavyBlock_timely⟩

theorem levels_agree_competing : ∃ n' m',
    deliver (Wire.externals nonceHash) [(noon, heavyBlock), (noon, plainBlock)] firstNode =
      .ok () n' ∧
    deliver (Wire.externals nonceHash) [(noon, plainBlock), (noon, heavyBlock)] firstNode =
      .ok () m' ∧
    n'.mBlockChain = firstNode.mBlockChain ++ [plainBlock.blk] ∧ m'.mBlockChain =
      n'.mBlockChain := by
  have hunspent : ∀ order n, AllUnspent (Wire.externals nonceHash) [plainBlock] order n :=
    fun order n => allUnspent_of_nil fun w hw => by
      rw [List.mem_singleton.mp hw]
      rfl
  have hquiet : firstNode.mGenEnabled = false := by decide +kernel
  have hne : firstNode.mBlockChain ≠ [] := by decide +kernel
  have hagree := levels_agree (Lib.Format.number_injective _) live_firstNode live_firstNode hquiet
    hquiet hne rfl (SameLog.refl _) (levels_competing (.nil _ _)) (arrives_heavyBlock .nil)
    (arrives_plainBlock .nil) (hunspent _ _) (hunspent _ _)
  exact hagree

theorem levels_disagree : ¬ ∀ (E : Externals) (n : Node) (levels : List (List FullBlockState))
    (ws : List FullBlockState) (orders orders' : List (List Arrival)),
    Function.Injective E.hashSignedTrx → Live E n → n.mGenEnabled = false →
      n.mBlockChain ≠ [] →
      Levels E n.mBlockChain n.headDb levels ws → Arrives levels orders →
        Arrives levels orders' →
        ∃ n' m', deliver E orders.flatten n = .ok () n' ∧
          deliver E orders'.flatten n = .ok () m' ∧
          n'.mBlockChain = n.mBlockChain ++ ws.map FullBlockState.blk ∧
            m'.mBlockChain = n'.mBlockChain := by
  intro h
  have hlater : Levels (Wire.externals nonceHash) (firstNode.mBlockChain ++ [plainBlock.blk])
      plainLog [[laterBlock]] [laterBlock] := by
    refine .cons List.mem_cons_self (fun b hb hne => absurd (List.mem_singleton.mp hb) hne)
      (fun b hb => ?_) (Lib.eq_ok_of_returned (by decide +kernel)) (.nil _ _)
    rw [List.mem_singleton.mp hb]
    exact ⟨by decide +kernel, by decide +kernel, by decide +kernel, _,
      Lib.eq_ok_of_returned (by decide +kernel)⟩
  have hlast : Arrives [[laterBlock]] [[(noon, laterBlock)]] := by
    refine .cons ⟨List.Perm.refl _, ?_⟩ .nil
    rw [List.forall_mem_singleton]
    decide +kernel
  have hquiet : firstNode.mGenEnabled = false := by decide +kernel
  obtain ⟨n', m', hrun, -, hchain, -⟩ := h (Wire.externals nonceHash) firstNode _ _ _ _
    (Lib.Format.number_injective _) live_firstNode hquiet (by decide +kernel)
    (levels_competing hlater) (arrives_heavyBlock hlast) (arrives_plainBlock hlast)
  have hlen := congrArg List.length hchain
  have hend : n' = Lib.finalState (deliver (Wire.externals nonceHash)
      [(noon, heavyBlock), (noon, plainBlock), (noon, laterBlock)] firstNode) :=
    (congrArg Lib.finalState hrun).symm
  rw [hend] at hlen
  revert hlen
  decide +kernel

end Node

end Gpm
