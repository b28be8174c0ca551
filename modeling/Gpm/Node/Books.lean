import Gpm.Node.Chronicle
import Gpm.Node.Finality
import Gpm.Node.TransactionLog
import Gpm.StateDb.Statement

namespace Gpm

variable {E : Externals}

def Entry.execute (E : Externals) (v : Ledger) (e : Entry) : Ledger :=
  (v.posts E (Ledger.applyAll E e.blkState.generatorName v e.trxs).2).post E
    (endBlock e.blk e.blkState.generatorName)

def Ledger.execute (E : Externals) (v : Ledger) (es : List Entry) : Ledger :=
  es.foldl (Entry.execute E) v

def Ledger.Executable (E : Externals) : Ledger → List Entry → Prop
  | _, [] => True
  | v, e :: es => (applyAll E e.blkState.generatorName v e.trxs).1 = true ∧
      Executable E (e.execute E v) es

def Entry.run (e : Entry) : List (SignedTransaction × Name) :=
  e.trxs.map fun t => (t, e.blkState.generatorName)

namespace Ledger

variable {v v₀ : Ledger} {es es' : List Entry} {gen : Name} {ts : List SignedTransaction}
  {run : List (SignedTransaction × Name)}

theorem execute_append : v.execute E (es ++ es') = (v.execute E es).execute E es' :=
  List.foldl_append

theorem executable_append :
    v.Executable E (es ++ es') ↔ v.Executable E es ∧ (v.execute E es).Executable E es' := by
  induction es generalizing v with
  | nil => exact (iff_of_eq (true_and _)).symm
  | cons e es ih =>
    rw [List.cons_append, Executable, Executable, ih, and_assoc]
    rfl

section Induction

variable {P : Ledger → List (SignedTransaction × Name) → Prop} {Q : SignedTransaction → Prop}
  (htrx : ∀ {v run t gen}, P v run → Q t → (transaction E t gen v).1 = true →
    P (v.posts E (transaction E t gen v).2) (run ++ [(t, gen)]))

include htrx

theorem applyAll_induction (h : P v run) (hts : ∀ t ∈ ts, Q t)
    (hok : (applyAll E gen v ts).1 = true) :
    P (v.posts E (applyAll E gen v ts).2) (run ++ ts.map fun t => (t, gen)) := by
  induction ts generalizing v run with
  | nil =>
    rw [List.map_nil, List.append_nil]
    exact h
  | cons t ts ih =>
    rw [List.forall_mem_cons] at hts
    unfold applyAll at hok ⊢
    simp only at hok ⊢
    split at hok
    · rename_i ht
      have hrest := ih (htrx h hts.1 ht) hts.2 hok
      rw [if_pos ht, posts_append]
      rwa [List.append_assoc, List.singleton_append] at hrest
    · cases hok

theorem execute_induction (run : List (SignedTransaction × Name))
    (hend : ∀ {v run b gen}, P v run → P (v.post E (endBlock b gen)) run) (h : P v run)
    (hes : ∀ e ∈ es, ∀ t ∈ e.trxs, Q t) (hok : v.Executable E es) :
    P (v.execute E es) (run ++ es.flatMap Entry.run) := by
  induction es generalizing v run with
  | nil =>
    rw [List.flatMap_nil, List.append_nil]
    exact h
  | cons e es ih =>
    rw [List.forall_mem_cons] at hes
    have hrest := ih _ (hend (applyAll_induction htrx h hes.1 hok.1)) hes.2 hok.2
    rw [List.flatMap_cons, ← List.append_assoc]
    exact hrest

end Induction

section Empty

variable (hok : empty.Executable E es)

include hok

theorem books_execute : Books (empty.execute E es) (fun S => mintedBy S (es.flatMap Entry.run))
    fun S => burntBy S (es.flatMap Entry.run) := by
  refine execute_induction (Q := fun _ => True)
    (P := fun v run => Books v (fun S => mintedBy S run) fun S => burntBy S run)
    (fun hv _ ht => (hv.transaction ht).congr (fun S => ?_) fun S => ?_) []
    (fun hv => hv.post_of_accounts_nil (admits_endBlock _ _) rfl) books_empty
    (fun _ _ _ _ => trivial) hok
  · simp [mintedBy]
  · simp [burntBy]

theorem supply_execute (S : Name) :
    (empty.execute E es).supply S + burntBy S (es.flatMap Entry.run) =
      if issued S (es.flatMap Entry.run) then issuedAmount else 0 := by
  have hbooks := books_execute hok
  rw [hbooks.total S]
  cases hi : issued S (es.flatMap Entry.run) with
  | false => exact (mintedBy_eq_zero_iff S).mpr hi
  | true =>
    cases hbooks.once S with
    | inl hzero =>
      rw [mintedBy_eq_zero_iff, hi] at hzero
      cases hzero
    | inr hone => exact hone.1

theorem bal_execute (A S : Name) :
    (empty.execute E es).bal A S + debitedFrom A S (es.flatMap Entry.run) =
      creditedTo A S (es.flatMap Entry.run) := by
  have hall := execute_induction (Q := fun _ => True)
    (P := fun v run => (∃ minted burnt, Books v minted burnt) ∧
      v.bal A S + debitedFrom A S run = creditedTo A S run)
    (fun {v run t gen} hv _ ht => ?_) [] (fun {v run b gen} hv => ?_)
    ⟨⟨_, _, books_empty⟩, rfl⟩ (fun _ _ _ _ => trivial) hok
  · exact hall.2
  · obtain ⟨⟨minted, burnt, hbooks⟩, hbal⟩ := hv
    have hchange := hbooks.statement_transaction A S ht
    refine ⟨⟨_, _, hbooks.transaction ht⟩, ?_⟩
    simp only [debitedFrom, creditedTo, List.map_append, List.map_singleton, List.sum_append,
      List.sum_singleton] at hbal ⊢
    omega
  · obtain ⟨⟨minted, burnt, hbooks⟩, hbal⟩ := hv
    have hadmits := admits_endBlock (v := v) b gen
    refine ⟨⟨_, _, hbooks.post_of_accounts_nil hadmits rfl⟩, ?_⟩
    rwa [bal, balance_post_of_accounts_nil hbooks.coherent hadmits rfl]

end Empty

theorem Guards.execute {A : Name} {K : PublicKey} (h : v₀.Guards A K v)
    (hA : ∀ P, E.encodeAddress P = A → P = K)
    (hno : ∀ e ∈ es, ∀ t ∈ e.trxs, ¬ t.verify E K)
    (hok : v.Executable E es) : v₀.Guards A K (v.execute E es) :=
  execute_induction (P := fun v _ => v₀.Guards A K v)
    (fun hv hno _ => hv.transaction hA hno) [] (fun hv => hv.post (admits_endBlock _ _) rfl rfl) h
    hno hok

end Ledger

namespace Chronicle

variable {es : List Entry} {ps : List Posting}

theorem executes (h : Chronicle E es ps) :
    Ledger.empty.posts E ps = Ledger.empty.execute E es ∧ Ledger.empty.Executable E es := by
  induction h with
  | nil => exact ⟨rfl, trivial⟩
  | @block es ps qs e db db₁ db₂ _ _ hdb hlogs hall hlogs₁ _ ih =>
    obtain ⟨hv, hok⟩ := ih
    obtain ⟨db', hall', -⟩ := DbM.applyAll_runs e.blkState.generatorName e.trxs hdb
    rw [hall] at hall'
    injection hall' with haccept
    have hadmits := Ledger.admitsAll_applyAll (E := E) hdb.coherent e.blkState.generatorName e.trxs
    have hv₁ : Ledger.empty.posts E (ps ++ qs) = (db.ledger E).posts E
        (Ledger.applyAll E e.blkState.generatorName (db.ledger E) e.trxs).2 := by
      rw [← hlogs₁.ledger, (posts_of_applyAll hdb hall).1.ledger, (hdb.ledger_posts hadmits).1]
    rw [hlogs.ledger, hv] at haccept hv₁
    refine ⟨?_, Ledger.executable_append.mpr ⟨hok, haccept.symm, trivial⟩⟩
    rw [Ledger.posts_append, hv₁, Ledger.execute_append]
    rfl

theorem listed (h : Chronicle E es ps) :
    ∀ e ∈ es, e.Lists E ∨ es.head? = some e ∧ e.trxs = [] := by
  induction h with
  | nil => exact List.forall_mem_nil _
  | @block es ps qs e db db₁ db₂ _ hcase _ _ _ _ _ ih =>
    rw [List.forall_mem_append, List.forall_mem_singleton]
    constructor
    · intro e' he'
      obtain hlists | ⟨hhead, hnone⟩ := ih e' he'
      · exact Or.inl hlists
      · exact Or.inr ⟨by rw [List.head?_append, hhead]; rfl, hnone⟩
    · obtain ⟨rfl, hnone⟩ | hlists := hcase
      · exact Or.inr ⟨rfl, hnone⟩
      · exact Or.inl hlists

end Chronicle

namespace Node

open Relation (ReflTransGen)

variable {n n' : Node} {es : List Entry}

/-- The blocks of a node with the transactions they were applied with. What is in the books is
what these have made of nothing: all of them at the head, all but the last below it. -/
structure Executes (E : Externals) (n : Node) (es : List Entry) : Prop where
  blockChain : es.map Entry.blk = n.mBlockChain
  applied : es.map Entry.blkState = n.applied
  lists : ∀ e ∈ es, e.Lists E ∨ es.head? = some e ∧ e.trxs = []
  executable : Ledger.empty.Executable E es
  head : n.headDb.ledger E = Ledger.empty.execute E es
  state : n.stateDb.ledger E = Ledger.empty.execute E es.dropLast

theorem Recorded.executes (h : Recorded E n es) : Executes E n es := by
  obtain ⟨ps, hc, hlogs⟩ := h.head
  obtain ⟨ps', hc', hlogs'⟩ := h.state
  exact ⟨h.blockChain, h.applied, hc.listed, hc.executes.2, hlogs.ledger.trans hc.executes.1,
    hlogs'.ledger.trans hc'.executes.1⟩

theorem recorded_of_reachable (hr : ReachableBy E (StartsApplied E) n) : ∃ es, Recorded E n es :=
  recorded_inductive.reachable (hr.mono fun _ _ _ h => h.allow)

theorem executes_of_reachable (hr : ReachableBy E (StartsApplied E) n) :
    ∃ es, Executes E n es := by
  obtain ⟨es, h⟩ := recorded_of_reachable hr
  exact ⟨es, h.executes⟩

theorem Executes.below (h : Executes E n es) : Ledger.empty.Executable E es.dropLast := by
  obtain ⟨l, hl⟩ := es.dropLast_prefix
  have hall := h.executable
  rw [← hl] at hall
  exact (Ledger.executable_append.mp hall).1

/-- What is held of a stock under all names together is what the chain has issued of it, less what
its generators have burnt. -/
theorem supply_of_chain (hr : ReachableBy E (StartsApplied E) n) :
    ∃ es, Executes E n es ∧ ∀ S,
      (∃ x, n.headDb.supply E S = some x ∧ x + burntBy S (es.flatMap Entry.run) =
        if issued S (es.flatMap Entry.run) then issuedAmount else 0) ∧
      ∃ x, n.stateDb.supply E S = some x ∧ x + burntBy S (es.dropLast.flatMap Entry.run) =
        if issued S (es.dropLast.flatMap Entry.run) then issuedAmount else 0 := by
  obtain ⟨es, h⟩ := executes_of_reachable hr
  refine ⟨es, h, fun S => ⟨⟨_, hr.sound.head.supply_eq S, ?_⟩, _,
    hr.sound.state.supply_eq S, ?_⟩⟩
  · rw [h.head]
    exact Ledger.supply_execute h.executable S
  · rw [h.state]
    exact Ledger.supply_execute h.below S

/-- What a name has of a stock is what the transactions of the chain have given to it, less what
they have taken from it. -/
theorem balance_of_chain (hr : ReachableBy E (StartsApplied E) n) :
    ∃ es, Executes E n es ∧ ∀ A S,
      (∃ x, n.headDb.balance E A S = some x ∧ x.toNat + debitedFrom A S (es.flatMap Entry.run) =
        creditedTo A S (es.flatMap Entry.run)) ∧
      ∃ x, n.stateDb.balance E A S = some x ∧
        x.toNat + debitedFrom A S (es.dropLast.flatMap Entry.run) =
          creditedTo A S (es.dropLast.flatMap Entry.run) := by
  obtain ⟨es, h⟩ := executes_of_reachable hr
  refine ⟨es, h, fun A S =>
    ⟨⟨_, hr.sound.head.balance_eq A S, ?_⟩, _, hr.sound.state.balance_eq A S, ?_⟩⟩
  · rw [h.head]
    exact Ledger.bal_execute h.executable A S
  · rw [h.state]
    exact Ledger.bal_execute h.below A S

def lengthExternals : Externals :=
  { Wire.externals nonceHash with
    hashBytes := List.length
    hashHashes := List.sum
    hashBlockState := BlockState.stateDb }

def addOnTop (n : Node) (utcTime : UInt32) (nonce : UInt64) (ts : List SignedTransaction) : Call :=
  .addFullBlock (blockOn lengthExternals n.headDb (nonceHash n.back) utcTime nonce ts)

def startedNode : Node :=
  Lib.finalState ((Call.addFullBlock (firstBlock lengthExternals)).run lengthExternals noon {})

def paidNode : Node :=
  Lib.finalState ((addOnTop startedNode 35 5 [issueAt 10, paymentAt 20]).run lengthExternals noon
    startedNode)

def settledNode : Node :=
  Lib.finalState ((addOnTop paidNode 50 7 []).run lengthExternals noon paidNode)

theorem StartsApplied.of_ne_nil {clock : Clock} {c : Call} (hne : n.mBlockChain ≠ []) :
    StartsApplied E n clock c :=
  ⟨fun hnil => absurd hnil hne, fun hnil => absurd hnil hne⟩

theorem reachable_settledNode :
    ReachableBy lengthExternals (StartsApplied lengthExternals) settledNode := by
  have hstarts : StartsApplied lengthExternals {} noon
      (.addFullBlock (firstBlock lengthExternals)) := by
    constructor
    · intro _ i state
      have hpos : 0 < getMaxHash := by decide +kernel
      unfold generate
      rw [generateLoop_of_le]
      · exact decide_eq_true hpos
      · exact Nat.zero_le _
    · intro _ fbs hfbs _
      cases hfbs
      rfl
  have hstarted : ReachableBy lengthExternals (StartsApplied lengthExternals) startedNode :=
    .call .empty hstarts (Lib.eq_ok_of_returned (by decide +kernel))
  have hpaid : ReachableBy lengthExternals (StartsApplied lengthExternals) paidNode :=
    .call hstarted (.of_ne_nil (by decide +kernel)) (Lib.eq_ok_of_returned (by decide +kernel))
  exact .call hpaid (.of_ne_nil (by decide +kernel)) (Lib.eq_ok_of_returned (by decide +kernel))

theorem supply_of_chain_settledNode :
    ∃ es, Executes lengthExternals settledNode es ∧ ∀ S,
      (∃ x, settledNode.headDb.supply lengthExternals S = some x ∧
        x + burntBy S (es.flatMap Entry.run) =
          if issued S (es.flatMap Entry.run) then issuedAmount else 0) ∧
      ∃ x, settledNode.stateDb.supply lengthExternals S = some x ∧
        x + burntBy S (es.dropLast.flatMap Entry.run) =
          if issued S (es.dropLast.flatMap Entry.run) then issuedAmount else 0 :=
  supply_of_chain reachable_settledNode

theorem balance_of_chain_settledNode :
    ∃ es, Executes lengthExternals settledNode es ∧ ∀ A S,
      (∃ x, settledNode.headDb.balance lengthExternals A S = some x ∧
        x.toNat + debitedFrom A S (es.flatMap Entry.run) =
          creditedTo A S (es.flatMap Entry.run)) ∧
      ∃ x, settledNode.stateDb.balance lengthExternals A S = some x ∧
        x.toNat + debitedFrom A S (es.dropLast.flatMap Entry.run) =
          creditedTo A S (es.dropLast.flatMap Entry.run) :=
  balance_of_chain reachable_settledNode

section Begun

def begun : Rules where
  starts _ _ _ := False
  generates _ := False

variable {Inv : Node → Prop}

theorem Inductive.step (h : Inductive E begun (Sound E) Inv) (hn : Sound E n) (hinv : Inv n)
    (hne : n.mBlockChain ≠ []) (hstep : Step E n n') : Inv n' := by
  have hand := sound_inductive.and h
  have key : Sound E n' ∧ Inv n' := by
    cases hstep with
    | call hok =>
      apply hand.call (fun hn => hn.1) ⟨hn, hinv⟩ _ hok
      exact Rules.allow_of_starts (fun _ _ => trivial) (fun _ _ _ => trivial)
        (fun hnil => absurd hnil hne) fun _ _ => ⟨trivial, fun hnil => absurd hnil hne⟩
    | startBlock hok =>
      exact hand.generation ⟨hn, hinv⟩ (fun hnil => absurd hnil hne) (startBlock_effect hok)
    | createGenBlock hok =>
      exact hand.generation ⟨hn, hinv⟩ (fun hnil => absurd hnil hne) (createGenBlock_effect hok)
  exact key.2

theorem kept_inductive (below : List Entry) : Inductive E begun (Sound E) fun n =>
    n.mBlockChain ≠ [] → ∃ es, Recorded E n es ∧ below <+: es.dropLast where
  empty hne := absurd rfl hne
  generated hn h hgen hne := by
    rw [hgen.blockChain] at hne
    obtain ⟨p, -, hstate, hhead⟩ := hgen.moves
    obtain ⟨es, hes, hbelow⟩ := h hne
    exact ⟨es, hes.moves hn hgen.blockChain hgen.applied hstate hhead, hbelow⟩
  learn _ h _ _ hne := by
    obtain ⟨es, hes, hbelow⟩ := h hne
    exact ⟨es, ⟨hes.blockChain, hes.applied, hes.head, hes.state⟩, hbelow⟩
  store _ h _ hne := by
    obtain ⟨es, hes, hbelow⟩ := h hne
    exact ⟨es, ⟨hes.blockChain, hes.applied, hes.head, hes.state⟩, hbelow⟩
  start _ _ _ hrule := by
    obtain ⟨-, -, hno⟩ | ⟨t, hno, -⟩ := hrule
    · exact hno.elim
    · exact hno.elim
  refused _ h _ _ _ hne := by
    obtain ⟨es, hes, hbelow⟩ := h hne
    exact ⟨es, ⟨hes.blockChain, hes.applied, hes.head, hes.state⟩, hbelow⟩
  appended hn h _ hext ha _ := by
    obtain ⟨es, hes, hbelow⟩ := h hext.nonempty
    refine ⟨_, hes.appended hn ha, ?_⟩
    rw [List.dropLast_concat]
    exact hbelow.trans es.dropLast_prefix
  replaced hn h _ hcomp ha _ := by
    obtain ⟨es, hes, hbelow⟩ := h hcomp.nonempty
    refine ⟨_, hes.replaced hn ha, ?_⟩
    rw [List.dropLast_concat]
    exact hbelow

theorem Recorded.run (h : Recorded E n es) (hn : Sound E n) (hne : n.mBlockChain ≠ [])
    (hrun : ReflTransGen (Step E) n n') :
    Sound E n' ∧ ∃ es', Recorded E n' es' ∧ es.dropLast <+: es'.dropLast := by
  have key : Sound E n' ∧ n'.mBlockChain ≠ [] ∧
      (n'.mBlockChain ≠ [] → ∃ es', Recorded E n' es' ∧ es.dropLast <+: es'.dropLast) := by
    induction hrun with
    | refl => exact ⟨hn, hne, fun _ => ⟨es, h, List.prefix_rfl⟩⟩
    | tail _ hstep ih =>
      obtain ⟨hn, hne, hkept⟩ := ih
      exact ⟨hstep.sound hn, hstep.nonempty hn hne,
        (kept_inductive es.dropLast).step hn hkept hne hstep⟩
  exact ⟨key.1, key.2.2 key.2.1⟩

end Begun

section Custody

variable {A : Name} {K : PublicKey}

/-- What a name has below the head stays with it on every run, whatever is sent to the node, until
a block comes in with a transaction that its key has signed. -/
theorem unsigned_keeps (hr : ReachableBy E (StartsApplied E) n) (hne : n.mBlockChain ≠ [])
    (hrun : ReflTransGen (Step E) n n') (hA : ∀ P, E.encodeAddress P = A → P = K)
    (hkey : Lib.returned (DbM.getPublicKey E A n.stateDb) = some (some K)) :
    ∃ es, Executes E n' es ∧
      ((∀ e ∈ es.drop (n.mBlockChain.length - 1), ∀ t ∈ e.trxs, ¬ t.verify E K) →
        ∀ db ∈ [n'.headDb, n'.stateDb],
          Lib.returned (DbM.getPublicKey E A db) = some (some K) ∧
            ∀ S, ∃ x y, n.stateDb.balance E A S = some x ∧ db.balance E A S =
              some y ∧ x ≤ y) := by
  obtain ⟨es, h⟩ := recorded_of_reachable hr
  obtain ⟨hn', es', h', rest, hrest⟩ := h.run hr.sound hne hrun
  obtain ⟨last, hlast⟩ := es'.dropLast_prefix
  have hlen : es.dropLast.length = n.mBlockChain.length - 1 := by
    rw [List.length_dropLast, ← h.blockChain, List.length_map]
  refine ⟨es', h'.executes, fun hno => ?_⟩
  rw [← hlast, ← hrest, List.append_assoc, ← hlen, List.drop_left] at hno
  have hstate := hr.sound.state
  rw [hstate.getPublicKey_eq, Option.some_inj] at hkey
  have hstart : (n.stateDb.ledger E).Guards A K (n.stateDb.ledger E) := by
    refine .refl ?_ hkey
    rw [h.executes.state]
    exact ⟨_, _, Ledger.books_execute h.executes.below⟩
  have hbelow : (n.stateDb.ledger E).Guards A K (n'.stateDb.ledger E) := by
    have hok := h'.executes.below
    rw [← hrest, Ledger.executable_append, ← h.executes.state] at hok
    rw [h'.executes.state, ← hrest, Ledger.execute_append, ← h.executes.state]
    exact hstart.execute hA (fun e he => hno e (List.mem_append_left last he)) hok.2
  have hhead : (n.stateDb.ledger E).Guards A K (n'.headDb.ledger E) := by
    have hok := h'.executes.executable
    rw [← hlast, Ledger.executable_append, ← h'.executes.state] at hok
    rw [h'.executes.head, ← hlast, Ledger.execute_append, ← h'.executes.state]
    exact hbelow.execute hA (fun e he => hno e (List.mem_append_right rest he)) hok.2
  simp only [List.forall_mem_cons]
  exact ⟨hhead.answers hstate hn'.head, hbelow.answers hstate hn'.state, List.forall_mem_nil _⟩

def refund : SignedTransaction where
  trx :=
    { utcTime := 30
      commands := [.transfer { amount := 5, stockName := [1], fromName := [2], toName := [1] }] }
  sigs := [8]

def refundedNode : Node :=
  Lib.finalState ((addOnTop settledNode 65 9 [refund]).run lengthExternals noon settledNode)

theorem step_refundedNode : Step lengthExternals settledNode refundedNode :=
  .call (Lib.eq_ok_of_returned (by decide +kernel))

theorem unsigned_keeps_refundedNode :
    Lib.returned (DbM.getPublicKey lengthExternals [1] refundedNode.headDb) = some (some 7) ∧
      ∀ S, ∃ x y, settledNode.stateDb.balance lengthExternals [1] S = some x ∧
        refundedNode.headDb.balance lengthExternals [1] S = some y ∧ x ≤ y := by
  have hother : ∀ P, lengthExternals.encodeAddress P = [1] → P = 7 := fun P hP => by
    have hhead : (0xff : UInt8) = 1 := (List.cons.inj hP).1
    exact absurd hhead (by decide)
  obtain ⟨es, hes, hkeeps⟩ := unsigned_keeps reachable_settledNode (by decide +kernel)
    (.single step_refundedNode) hother (by decide +kernel)
  refine hkeeps (fun e he t ht => ?_) _ List.mem_cons_self
  have hlen : settledNode.mBlockChain.length - 1 = 2 := by decide +kernel
  have hlisted : ((refundedNode.applied.drop 2).all fun bs =>
      bs.signedTransactions.all (· = lengthExternals.hashSignedTrx refund)) = true := by
    decide +kernel
  rw [hlen] at he
  rw [← hes.applied, ← List.map_drop] at hlisted
  have hrefund := List.all_eq_true.mp hlisted _ (List.mem_map_of_mem he)
  have hlists : e.Lists lengthExternals := by
    obtain hlists | ⟨-, hnone⟩ := hes.lists e (List.mem_of_mem_drop he)
    · exact hlists
    · rw [hnone] at ht
      cases ht
  rw [← hlists] at hrefund
  have hhash := List.all_eq_true.mp hrefund _ (List.mem_map_of_mem ht)
  have ht : t = refund := Lib.Format.number_injective _ (of_decide_eq_true hhash)
  rw [ht]
  decide +kernel

end Custody

end Node

end Gpm
