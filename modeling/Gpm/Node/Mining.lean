import Gpm.Node.Agreement
import Gpm.Node.Origin
import Gpm.Node.Restart
import Gpm.Node.Timestamps

namespace Gpm

open Lib (Keeps finalState)
open Relation (ReflTransGen)

variable {E : Externals}

theorem calculateHashTarget_le (hashSha1 : Block → Hashcode) (bc : BlockChain) (index : ℕ) :
    calculateHashTarget hashSha1 bc index ≤ getMaxHash := by
  unfold calculateHashTarget
  generalize (if index = 2 ^ 32 - 1 then (bc.length - 1) % 2 ^ 32 else index) = i
  simp only [scaleTarget_eq]
  split
  · exact Nat.le_refl _
  · exact Nat.min_le_right _ _

theorem Settles.antisymm {bc bc' : BlockChain} (h : Settles E bc bc') (h' : Settles E bc' bc) :
    bc' = bc := by
  apply List.ext_getElem (Nat.le_antisymm h'.length_le h.length_le)
  intro i hi' hi
  obtain ⟨_, hsame | ⟨-, -, hlow⟩⟩ := h i hi
  · exact hsame
  · obtain ⟨_, hsame | ⟨-, -, hlow'⟩⟩ := h' i hi'
    · exact hsame.symm
    · exact absurd (Nat.lt_trans hlow hlow') (Nat.lt_irrefl _)

namespace Node

section Search

variable {b : Block} {mHashrate : UInt64} {target : Hashcode} {s s' : Search} {clock clock' : Clock}
  {fuel : ℕ} {mStopGen : ℕ → Bool}

structure Search.Mines (E : Externals) (b : Block) (target : Hashcode) (s : Search) : Prop where
  working : ∃ utcTime nonce, s.working = { b with utcTime, nonce }
  target_le : s.target ≤ target
  best : s.found = true →
    (∃ utcTime nonce, s.best = { b with utcTime, nonce }) ∧ E.hashBlock s.best < target

theorem searchLoop_keeps {P : Search → Prop}
    (hround : ∀ s utcClock, P s → P (searchRound E b mHashrate utcClock s)) (hs : P s)
    (hrun : searchLoop E b mHashrate fuel mStopGen clock s = some (s', clock')) : P s' := by
  induction fuel generalizing mStopGen clock s with
  | zero => cases hrun
  | succ fuel ih =>
    have hnext := hround s (clock 0) hs
    unfold searchLoop at hrun
    dsimp only at hrun
    split at hrun
    · cases hrun
      exact hnext
    · split at hrun
      · exact ih hnext hrun
      · split at hrun
        · exact ih hnext hrun
        · cases hrun
          exact hnext

theorem mines_searchRound (h : s.Mines E b target) (utcClock : ℕ) :
    (searchRound E b mHashrate utcClock s).Mines E b target := by
  obtain ⟨t, nonce, hworking⟩ := h.working
  obtain ⟨nonce', hgen⟩ := generate_eq E.hashBlock
    { s.working with utcTime := max b.utcTime (UInt32.ofNat (utcClock / 100000)) } s.target
    (s.working.nonce + 1) (s.working.nonce + mHashrate)
  have hfound : ∃ t nonce, (Gpm.generate E.hashBlock
      { s.working with utcTime := max b.utcTime (UInt32.ofNat (utcClock / 100000)) } s.target
      (s.working.nonce + 1) (s.working.nonce + mHashrate)).2 =
        { b with utcTime := t, nonce } := by
    rw [hgen, hworking]
    exact ⟨_, _, rfl⟩
  unfold searchRound
  dsimp only
  split
  · rename_i hhit
    have hlow : E.hashBlock _ < s.target := of_decide_eq_true hhit
    exact ⟨hfound, (Nat.le_of_lt hlow).trans h.target_le,
      fun _ => ⟨hfound, Nat.lt_of_lt_of_le hlow h.target_le⟩⟩
  · exact ⟨hfound, h.target_le, h.best⟩

theorem search_mines {p : Posted}
    (hrun : search E b mHashrate fuel mStopGen clock target = some p) :
    (∃ utcTime nonce, p.best = { b with utcTime, nonce }) ∧ E.hashBlock p.best < target := by
  unfold search at hrun
  split at hrun
  · cases hrun
  · rename_i s clock' hloop
    have hstart : ({ working := b, target } : Search).Mines E b target :=
      ⟨⟨_, _, rfl⟩, Nat.le_refl _, fun hfound => absurd hfound Bool.false_ne_true⟩
    have hmines : s.Mines E b target :=
      searchLoop_keeps (P := Search.Mines E b target)
        (fun _ utcClock hs => mines_searchRound hs utcClock) hstart hloop
    split at hrun
    · rename_i hposts
      cases hrun
      exact hmines.best hposts.1
    · cases hrun

end Search

section Frame

variable {n n' : Node} {clock : Clock}

structure Aside (n n' : Node) : Prop where
  blockChain : n'.mBlockChain = n.mBlockChain
  jobs : n'.jobs = n.jobs

namespace Aside

theorem refl (n : Node) : Aside n n := ⟨rfl, rfl⟩

theorem trans {n'' : Node} (h : Aside n n') (h' : Aside n' n'') : Aside n n'' :=
  ⟨h'.blockChain.trans h.blockChain, h'.jobs.trans h.jobs⟩

theorem bind {α β : Type} {x : NodeM α} {f : α → NodeM β} (hx : Keeps Aside x)
    (hf : ∀ a, Keeps Aside (f a)) : Keeps Aside (x >>= f) :=
  Keeps.bind (R := Aside) trans hx hf

theorem put_genTrx (db : Database) (n : Node) : Aside n (DbPtr.genTrx.put db n) := ⟨rfl, rfl⟩

theorem call {α : Type} (x : DbM α) : Keeps Aside (DbPtr.genTrx.call x) := by
  intro n
  unfold DbPtr.call
  split
  · exact put_genTrx _ n
  · exact put_genTrx _ n

theorem overlay {α : Type} (x : DbM α) : Keeps Aside (DbPtr.genTrx.overlay x) := by
  intro n
  unfold DbPtr.overlay
  split
  · exact put_genTrx _ n
  · exact put_genTrx _ n

theorem applyPending (l : List (Hashcode × SignedTransaction)) :
    Keeps Aside (Node.applyPending E l) := by
  induction l with
  | nil => exact refl
  | cons e rest ih =>
    obtain ⟨h, t⟩ := e
    unfold Node.applyPending
    apply Keeps.get_bind
    intro n
    apply bind (overlay _)
    rintro ⟨ok, l⟩
    cases ok with
    | true =>
      simp only [if_true]
      refine bind (fun _ => ⟨rfl, rfl⟩) fun _ => ?_
      exact bind ih fun _ => refl
    | false => exact ih

theorem createNextBlock (clock : Clock) : Keeps Aside (Node.createNextBlock E clock) := by
  unfold Node.createNextBlock
  apply Keeps.get_bind
  intro n
  apply bind (applyPending _)
  intro listed
  apply bind (call _)
  intro hash
  exact bind (fun _ => ⟨rfl, rfl⟩) fun _ => refl

end Aside

theorem blockChain_startBlockIfGenerating {α : Type} (hne : n.mBlockChain ≠ []) (r : α) :
    (finalState ((startBlockIfGenerating E clock >>= fun _ => pure r) n)).mBlockChain =
      n.mBlockChain := by
  have hcreate : Aside n (finalState (createGenBlock E clock n)) := by
    unfold createGenBlock
    rw [Lib.modify_bind, Lib.get_bind, if_neg hne]
    have hnext := Aside.createNextBlock (E := E) clock { n with mGenTrx := {} }
    exact ⟨hnext.blockChain, hnext.jobs⟩
  unfold startBlockIfGenerating
  rw [bind_assoc, Lib.get_bind]
  split
  · unfold startBlock
    cases hok : createGenBlock E clock n with
    | ok b n' =>
      rw [hok] at hcreate
      rw [bind_assoc, Lib.bind_ok hok]
      exact hcreate.blockChain
    | error e n' =>
      rw [hok] at hcreate
      rw [bind_assoc, Lib.bind_error hok]
      exact hcreate.blockChain
  · rfl

end Frame

section Launch

variable {n n' : Node} {clock : Clock} {b blk : Block} {r : Int}

theorem jobs_createGenBlock (hok : createGenBlock E clock n = .ok b n') : n'.jobs = n.jobs := by
  unfold createGenBlock at hok
  rw [Lib.modify_bind, Lib.get_bind] at hok
  simp only at hok
  have hnext : ∀ {m : Node}, createNextBlock E clock m = .ok b n' → n'.jobs = m.jobs := by
    intro m hm
    have hkeeps := Aside.createNextBlock (E := E) clock m
    rw [hm] at hkeeps
    exact hkeeps.jobs
  split at hok
  · obtain ⟨u, n₁, hfirst, hok⟩ := Lib.of_bind_ok hok
    obtain ⟨tried, b', bs, -, p, -, rfl⟩ := createFirstBlock_effect hfirst
    have hjobs := hnext hok
    exact hjobs
  · have hjobs := hnext hok
    exact hjobs

def Launches (E : Externals) (n n' : Node) : Prop :=
  n'.jobs = n.jobs ∨ ∃ m clock, Sound E m ∧ m.jobs = n.jobs ∧
    startBlock E clock m = .ok () n'

theorem Launches.of_jobs {m : Node} (h : Launches E m n') (hjobs : m.jobs = n.jobs) :
    Launches E n n' :=
  h.imp (fun hsame => hsame.trans hjobs) fun ⟨m', clock, hm, hsame, hstart⟩ =>
    ⟨m', clock, hm, hsame.trans hjobs, hstart⟩

theorem launches_startBlockIfGenerating (hn : Sound E n)
    (hok : startBlockIfGenerating E clock n = .ok () n') : Launches E n n' := by
  unfold startBlockIfGenerating at hok
  rw [Lib.get_bind] at hok
  split at hok
  · exact Or.inr ⟨n, clock, hn, rfl, hok⟩
  · cases hok
    exact Or.inl rfl

theorem launches_addBlock (hn : Sound E n) (hok : addBlock E clock blk n = .ok r n') :
    Launches E n n' ∧ (r ≤ 0 → n'.jobs = n.jobs) := by
  have hout := addBlock_outcome (E := E) clock n blk
  rw [hok] at hout
  generalize hres : EStateM.Result.ok r n' = res at hout
  have hcontinue : ∀ {m : Node}, Sound E m → m.jobs = n.jobs →
      continueGeneration E clock.tail m = .ok r n' →
        Launches E n n' ∧ (r ≤ 0 → n'.jobs = n.jobs) := by
    intro m hm hjobs hcontinue
    obtain ⟨u, n₁, hstart, hcontinue⟩ := Lib.of_bind_ok hcontinue
    cases hcontinue
    exact ⟨(launches_startBlockIfGenerating hm hstart).of_jobs hjobs,
      fun hr => absurd hr (by decide)⟩
  cases hout with
  | unchanged =>
    cases hres
    exact ⟨Or.inl rfl, fun _ => rfl⟩
  | refused =>
    cases hres
    exact ⟨Or.inl rfl, fun _ => rfl⟩
  | appended hext ha => exact hcontinue (hn.appended ha) rfl hres.symm
  | replaced hcomp ha => exact hcontinue (hn.replaced ha) rfl hres.symm
  | failed => cases hres

theorem launches_addTransaction (hn : Sound E n) {tx : SignedTransaction}
    (hok : addTransaction E clock tx n = .ok r n') : Launches E n n' := by
  unfold addTransaction at hok
  rw [Lib.get_bind] at hok
  split at hok
  · cases hok
    exact Or.inl rfl
  · rename_i hnew
    rw [Lib.modify_bind, Lib.get_bind] at hok
    have hlearn : Sound E (n.learn E tx) := hn.withPool (hn.pool.insert hnew)
    have hn₁ : Sound E { n.learn E tx with signals := n.signals ++ [.newTransaction tx] } :=
      hlearn.generated (generated_of_eq rfl rfl rfl rfl rfl rfl rfl rfl)
    simp only at hok
    split at hok
    · obtain ⟨u, n₁, hstart, hok⟩ := Lib.of_bind_ok hok
      cases hok
      exact Or.inr ⟨_, clock, hn₁, rfl, hstart⟩
    · obtain ⟨u, n₁, hcreate, hok⟩ := Lib.of_bind_ok hok
      obtain ⟨b, hcreate⟩ := Lib.of_discard_ok hcreate
      cases hok
      have hjobs := jobs_createGenBlock hcreate
      exact Or.inl hjobs

theorem launches_addFullBlock (hn : Sound E n) {fbs : FullBlockState}
    (hok : addFullBlock E clock fbs n = .ok r n') : Launches E n n' := by
  have hn₁ := hn.store fbs
  unfold addFullBlock at hok
  rw [Lib.get_bind, Lib.modify_bind, Lib.get_bind] at hok
  simp only at hok
  split at hok
  · obtain ⟨p, -, rfl⟩ := addFirstBlock_effect hok
    exact Or.inl rfl
  · obtain ⟨rtn, n₂, hadd, hok⟩ := Lib.of_bind_ok hok
    obtain ⟨hlaunch, hsame⟩ := launches_addBlock hn₁ hadd
    split at hok
    · rename_i hrejected
      obtain ⟨u, n₃, hstart, hok⟩ := Lib.of_bind_ok hok
      cases hok
      exact (launches_startBlockIfGenerating (sound_inductive.addBlock hn₁ trivial hadd)
        hstart).of_jobs (hsame hrejected.1)
    · cases hok
      exact hlaunch.of_jobs rfl

theorem launches_run (hn : Sound E n) {c : Call} (hok : c.run E clock n = .ok () n') :
    Launches E n n' := by
  cases c with
  | addTransaction tx =>
    obtain ⟨r, hok⟩ := Lib.of_discard_ok hok
    exact launches_addTransaction hn hok
  | addBlock blk =>
    obtain ⟨r, hok⟩ := Lib.of_discard_ok hok
    exact (launches_addBlock hn hok).1
  | addFullBlock fbs =>
    obtain ⟨r, hok⟩ := Lib.of_discard_ok hok
    exact launches_addFullBlock hn hok
  | configureGeneration gn on =>
    change configureGeneration E clock gn on n = _ at hok
    unfold configureGeneration at hok
    rw [Lib.modify_bind] at hok
    have hn₁ : Sound E { n with
        mGenName := gn, mGenEnabled := on,
        signals := n.signals ++ [.generationStateChanged gn on] } :=
      hn.generated (generated_of_eq rfl rfl rfl rfl rfl rfl rfl rfl)
    split at hok
    · exact Or.inr ⟨_, clock, hn₁, rfl, hok⟩
    · cases hok
      exact Or.inl rfl
  | generatedBlock b =>
    change generatedBlock E clock b n = _ at hok
    unfold generatedBlock at hok
    split at hok
    · rename_i herr
      cases addBlock_error hn herr
    · cases hok
    · rename_i hadd
      cases hok
      exact (launches_addBlock hn hadd).1

end Launch

section Wait

variable {bc : BlockChain} {b blk : Block} {bs bs' : BlockState} {ts : List SignedTransaction}
  {n n' : Node}

structure Ready (E : Externals) (b : Block) (bs : BlockState) (ts : List SignedTransaction)
    (n : Node) : Prop where
  known : n.mBlockStateDb[b.state]? = some bs
  holds : List.Forall₂ n.mTrxDb.Holds bs.signedTransactions ts
  accepts : DbM.Accepts E n.headDb bs.generatorName ts bs.stateDb

/-- The candidate stays what it is as long as the chain does, and the chain does not come back. -/
structure Waits (E : Externals) (bc : BlockChain) (b : Block) (bs : BlockState)
    (ts : List SignedTransaction) (n : Node) : Prop where
  own : n.Addressed E (· = 0)
  settles : n.mBlockChain ≠ [] → Settles E bc n.mBlockChain
  ready : n.mBlockChain = bc → Ready E b bs ts n

theorem Ready.carried (h : Ready E b bs ts n) (hn : WellFormed E n.headDb)
    (hknown : n.mBlockStateDb[b.state]? = some bs → n'.mBlockStateDb[b.state]? = some bs)
    (hholds : ∀ h t, n.mTrxDb.Holds h t → n'.mTrxDb.Holds h t)
    (hhead : ∃ p, n'.headDb = n.headDb.moved p) : Ready E b bs ts n' := by
  obtain ⟨p, hhead⟩ := hhead
  refine ⟨hknown h.known, h.holds.imp fun _ _ ht => hholds _ _ ht, ?_⟩
  rw [hhead]
  exact (SameLog.moved _ p).accepts hn (hn.moved p) h.accepts

theorem Ready.state_ne_zero (h : Ready E b bs ts n) (hn : n.Addressed E (· = 0))
    (hzero : NeverZero E) : b.state ≠ 0 := by
  obtain hhash | ⟨-, hnone⟩ := hn _ _ h.known
  · rw [← hhash]
    exact hzero.blockState bs
  · exact absurd (h.accepts.hash.symm.trans hnone) (hzero.hashes _)

def begunStates (E : Externals) : Rules where
  stores := Stores E (· = 0)
  starts _ _ _ := False
  generates _ := False

namespace Waits

variable {strxs : List SignedTransaction} {l : Layer} {p : ℕ} {clock : Clock}

theorem generated (hE : Function.Injective E.hashBlockState) (hb : b.state ≠ 0) (hn : Sound E n)
    (h : Waits E bc b bs ts n) (hgen : Generated E n n') : Waits E bc b bs ts n' := by
  refine ⟨h.own.generated hgen, ?_, fun hbc => ?_⟩
  · rw [hgen.blockChain]
    exact h.settles
  · rw [hgen.blockChain] at hbc
    obtain ⟨p, -, -, hhead⟩ := hgen.moves
    refine (h.ready hbc).carried hn.head (h.own.generated_kept hE hgen hb)
      (fun _ _ ht => ?_) ⟨p, hhead⟩
    rw [hgen.trxDb]
    exact ht

theorem learn {t : SignedTransaction} (hn : Sound E n) (h : Waits E bc b bs ts n)
    (hnew : ¬ n.mTrxDb.knows (E.hashSignedTrx t)) : Waits E bc b bs ts (n.learn E t) :=
  ⟨h.own, h.settles, fun hbc => (h.ready hbc).carried hn.head id
    (fun _ _ ht => ht.insert hnew) ⟨n.mStateDb.mFile.pos, rfl⟩⟩

theorem store (hE : Function.Injective E.hashBlockState) (hb : b.state ≠ 0) (hn : Sound E n)
    (h : Waits E bc b bs ts n) {k : Hashcode} (hk : Stores E (· = 0) k bs') :
    Waits E bc b bs ts (n.storeState k bs') :=
  ⟨h.own.insert hk, h.settles, fun hbc => (h.ready hbc).carried hn.head
    (h.own.insert_kept hE hk hb) (fun _ _ ht => ht)
    ⟨n.mStateDb.mFile.pos, rfl⟩⟩

theorem refused (hn : Sound E n) (h : Waits E bc b bs ts n) : Waits E bc b bs ts { n with
    mTrxDb := (n.competing bs').moveTransactions bs'.signedTransactions .pending .head } :=
  ⟨h.own, h.settles, fun hbc => (h.ready hbc).carried hn.head id
    (fun _ _ ht => (holds_competed hn.pool bs').mpr ht) ⟨n.mStateDb.mFile.pos, rfl⟩⟩

theorem appended (h : Waits E bc b bs ts n) (hext : Extends E clock n blk bs') :
    Waits E bc b bs ts (settleHead blk bs' strxs l ((n.pushBack blk).moved p)) := by
  have hsettles := h.settles hext.nonempty
  refine ⟨h.own, fun _ => hsettles.trans hext.chainStep.settles, fun hbc => ?_⟩
  have hlen : (n.mBlockChain ++ [blk]).length = bc.length := congrArg List.length hbc
  have hle := hsettles.length_le
  rw [List.length_append, List.length_singleton] at hlen
  omega

theorem replaced (h : Waits E bc b bs ts n) (hcomp : Competes E clock n blk bs') :
    Waits E bc b bs ts (swapHead blk bs' strxs l
      { (n.setBack blk).moved p with mTrxDb := n.competing bs' }) := by
  have hsettles := h.settles hcomp.nonempty
  have hstep := hcomp.chainStep.settles
  refine ⟨h.own, fun _ => hsettles.trans hstep, fun hbc => ?_⟩
  have hbc : n.mBlockChain.dropLast ++ [blk] = bc := hbc
  rw [hbc] at hstep
  have hsame : bc = n.mBlockChain := hstep.antisymm hsettles
  have hlow := hcomp.lower
  rw [back, ← hsame, ← hbc, List.getLastD_concat] at hlow
  exact absurd hlow (Nat.lt_irrefl _)

end Waits

theorem waits_inductive (hE : Function.Injective E.hashBlockState) (hb : b.state ≠ 0)
    (hbc : bc ≠ []) :
    Inductive E (begunStates E) (Sound E) (Waits E bc b bs ts) where
  empty := ⟨fun _ _ hbs => by simp at hbs, fun hne => absurd rfl hne,
    fun hnil => absurd hnil.symm hbc⟩
  generated hs hn hgen := hn.generated hE hb hs hgen
  learn hs hn hnew _ := hn.learn hs hnew
  store hs hn hstore := hn.store hE hb hs hstore
  start _ _ _ hrule _ := by
    obtain ⟨-, -, hno⟩ | ⟨t, hno, -⟩ := hrule
    · exact hno.elim
    · exact hno.elim
  refused hs hn _ _ _ := hn.refused hs
  appended _ hn _ hext _ := hn.appended hext
  replaced _ hn _ hcomp _ := hn.replaced hcomp

def HonestCall (E : Externals) (n n' : Node) : Prop :=
  ∃ clock c, Call.Honest E c ∧ c.run E clock n = .ok () n'

theorem waits_run (hE : Function.Injective E.hashBlockState) (hb : b.state ≠ 0) (hn : Sound E n)
    (hne : n.mBlockChain ≠ []) (hbc : bc ≠ []) (h : Waits E bc b bs ts n)
    (hrun : ReflTransGen (HonestCall E) n n') : Sound E n' ∧ Waits E bc b bs ts n' := by
  have hand : Inductive E (begunStates E) (fun _ => True)
      fun n => Sound E n ∧ Waits E bc b bs ts n :=
    sound_inductive.and (waits_inductive hE hb hbc)
  have key : n'.mBlockChain ≠ [] ∧ Sound E n' ∧ Waits E bc b bs ts n' := by
    induction hrun with
    | refl => exact ⟨hne, hn, h⟩
    | tail _ hcall ih =>
      obtain ⟨clock, c, hhonest, hok⟩ := hcall
      obtain ⟨hne, hinv⟩ := ih
      refine ⟨(Step.call hok).nonempty hinv.1 hne, hand.call (fun hn => hn.1) hinv ?_ hok⟩
      apply Rules.allow_of_starts (fun _ _ => trivial) (fun _ _ _ => trivial)
        fun hnil => absurd hnil hne
      rintro fbs rfl
      refine ⟨?_, fun hnil => absurd hnil hne⟩
      obtain hown | ⟨garbage, rfl⟩ := hhonest
      · exact Or.inl hown
      · exact Or.inr ⟨rfl, rfl⟩
  exact key.2

theorem attachable_of_accepts {db : Database} {pool : TrxDb} (hdb : WellFormed E db)
    (hpool : pool.Pool E) (hholds : List.Forall₂ pool.Holds bs.signedTransactions ts)
    (haccepts : DbM.Accepts E db bs.generatorName ts bs.stateDb) :
    Attachable E db pool blk bs ↔ ∀ h ∈ bs.signedTransactions, pool.stage h =
      some .pending := by
  rw [Node.attachable_iff hdb]
  constructor
  · rintro ⟨strxs, hlists, -⟩
    exact hpool.lists_iff.mp ⟨strxs, hlists⟩
  · exact fun hpending => ⟨ts, hpool.lists_of_holds hholds hpending, haccepts⟩

theorem Ready.addBlock_iff (h : Ready E blk bs ts n) (hn : Sound E n) {clock : Clock}
    (hlinked : blk.prevBlock = E.hashBlock n.back) :
    (finalState (addBlock E clock blk n)).mBlockChain = n.mBlockChain ++ [blk] ↔
      Extends E clock n blk bs ∧ Attachable E n.headDb n.mTrxDb blk bs := by
  have hout := addBlock_outcome (E := E) clock n blk
  generalize addBlock E clock blk n = res at hout
  cases hout with
  | unchanged _ _ hno =>
    refine iff_of_false (fun hchain => ?_) fun hyes => hno bs hyes.1 hyes.2
    exact List.cons_ne_nil blk [] (List.self_eq_append_right.mp hchain)
  | refused hcomp => exact absurd hlinked hcomp.unlinked
  | appended hext ha =>
    cases hext.known.symm.trans h.known
    refine iff_of_true ?_ ⟨hext, _, _, _, ha⟩
    exact blockChain_startBlockIfGenerating
      (List.append_ne_nil_of_right_ne_nil _ (List.cons_ne_nil blk [])) (1 : Int)
  | replaced hcomp => exact absurd hlinked hcomp.unlinked
  | failed hcase happ =>
    obtain ⟨hext, rfl, hlists⟩ | ⟨hcomp, -, -⟩ := hcase
    · cases hext.known.symm.trans h.known
      cases hn.pool.forall₂_unique hlists.holds h.holds
      obtain ⟨db, happ'⟩ := (DbM.applyBlock_true_iff (b := blk) hn.head.overlay).mpr
        ((SameLog.overlay hn.head).accepts hn.head hn.head.overlay h.accepts)
      cases happ.symm.trans happ'
    · exact absurd hlinked hcomp.unlinked

theorem finalState_generatedBlock (clock : Clock) (b : Block) (n : Node) :
    finalState (generatedBlock E clock b n) = finalState (addBlock E clock b n) := by
  unfold generatedBlock
  cases addBlock E clock b n with
  | ok r n' => rfl
  | error e n' => cases e <;> rfl

theorem prevBlock_createNextBlock {clock : Clock} (hok : createNextBlock E clock n = .ok b n') :
    b.prevBlock = E.hashBlock n.back := by
  unfold createNextBlock at hok
  rw [Lib.get_bind] at hok
  obtain ⟨hs, n₁, -, hok⟩ := Lib.of_bind_ok hok
  obtain ⟨hash, n₂, -, hok⟩ := Lib.of_bind_ok hok
  rw [Lib.modify_bind] at hok
  cases hok
  rfl

theorem ready_createNextBlock {clock : Clock} (hn : Sound E n) (hne : n.mBlockChain ≠ [])
    (hgen : n.mGenTrx = {}) (hok : createNextBlock E clock n = .ok b n') :
    ∃ bs ts, Ready E b bs ts n' := by
  have hdb : n.genDb = .trx n.headDb {} := by rw [genDb, hgen]
  have hwf : WellFormed E n.genDb := hdb ▸ hn.head.overlay
  obtain ⟨bs, hbs, hname, s, hs, hlist, hsize, hhash, -⟩ := of_createNextBlock hwf hok
  have heffect := createNextBlock_effect hok hne
  obtain ⟨p, -, -, hhead⟩ := heffect.moves
  rw [hdb, ledger_overlay hn.head] at hs
  refine ⟨bs, s.1.map Prod.snd, hbs, ?_, ?_⟩
  · rw [hlist, heffect.trxDb]
    apply TrxDb.Lists.holds
    apply lists_pending
    rw [hs]
    exact Ledger.sublist_select n.mGenName _
  · have happlied := Ledger.applyAll_select (E := E) (v := n.headDb.ledger E) n.mGenName
      (E.sortByTime n.mTrxDb.pendingTransactions)
    rw [← hs] at happlied
    have haccepts : DbM.Accepts E (.trx n.headDb {}) bs.generatorName (s.1.map Prod.snd)
        bs.stateDb := by
      rw [hdb] at hsize hhash
      constructor
      · rw [hname, ledger_overlay hn.head, happlied]
      · rw [hname, ledger_overlay hn.head, happlied]
        exact hsize
      · rw [hname, ledger_overlay hn.head, happlied]
        exact hhash
    rw [hhead]
    exact ((SameLog.overlay hn.head).symm.trans (SameLog.moved _ p)).accepts hn.head.overlay
      (hn.head.moved p) haccepts

structure Launched (E : Externals) (job : Block × Hashcode) (n : Node) : Prop where
  nonempty : n.mBlockChain ≠ []
  linked : job.1.prevBlock = E.hashBlock n.back
  target_le : job.2 ≤ getMaxHash
  ready : ∃ bs ts, Ready E job.1 bs ts n

theorem launched_startBlock {clock : Clock} (hn : Sound E n)
    (hok : startBlock E clock n = .ok () n') :
    ∃ job, n'.jobs = n.jobs ++ [job] ∧ Launched E job n' := by
  have habort : Sound E { n with mGenTrx := {} } :=
    ⟨hn.head, hn.state, hn.inFile, hn.committed, hn.headTrx, hn.pool, hn.diskPool⟩
  have hnext : ∀ {m m' : Node} {b : Block}, Sound E m → m.mBlockChain ≠ [] →
      m.mGenTrx = {} →
      createNextBlock E clock m = .ok b m' →
        Launched E (b, calculateHashTarget E.hashBlock m'.mBlockChain) m' := by
    intro m m' b hm hne hgen hm'
    have haside := Aside.createNextBlock (E := E) clock m
    rw [hm'] at haside
    have hchain : m'.mBlockChain = m.mBlockChain := haside.blockChain
    refine ⟨hchain ▸ hne, ?_, calculateHashTarget_le _ _ _,
      ready_createNextBlock hm hne hgen hm'⟩
    rw [back, hchain]
    exact prevBlock_createNextBlock hm'
  obtain ⟨b, n₁, hcreate, hok⟩ := Lib.of_bind_ok hok
  cases hok
  have hjobs := jobs_createGenBlock hcreate
  refine ⟨_, congrArg (· ++ [_]) hjobs, ?_⟩
  unfold createGenBlock at hcreate
  rw [Lib.modify_bind, Lib.get_bind] at hcreate
  simp only at hcreate
  have hlaunched : Launched E (b, calculateHashTarget E.hashBlock n₁.mBlockChain) n₁ := by
    split at hcreate
    · rename_i hnil
      obtain ⟨u, m, hfirst, hcreate⟩ := Lib.of_bind_ok hcreate
      obtain ⟨tried, b', bs, -, hstarts⟩ := createFirstBlock_effect hfirst
      have hm := habort.start hstarts
      have hchain := hstarts.blockChain hnil
      obtain ⟨p, -, rfl⟩ := hstarts
      exact hnext hm (by rw [hchain]; exact List.cons_ne_nil _ _) rfl hcreate
    · exact hnext habort ‹_› rfl hcreate
  obtain ⟨bs, ts, hready⟩ := hlaunched.ready
  exact ⟨hlaunched.nonempty, hlaunched.linked, hlaunched.target_le, bs, ts, hready.known,
    hready.holds, hready.accepts⟩

theorem launched_of_jobs {clock : Clock} (hn : Sound E n) {c : Call}
    (hok : c.run E clock n = .ok () n') {job : Block × Hashcode}
    (hjob : n'.jobs = n.jobs ++ [job]) :
    Launched E job n' := by
  obtain hsame | ⟨m, clock', hm, hjobs, hstart⟩ := launches_run hn hok
  · rw [hsame] at hjob
    exact absurd (List.self_eq_append_right.mp hjob) (List.cons_ne_nil job [])
  · obtain ⟨job', hjob', hlaunched⟩ := launched_startBlock hm hstart
    rw [hjob', hjobs] at hjob
    rwa [List.singleton_inj.mp (List.append_cancel_left hjob)] at hlaunched

end Wait

/-- A block found for a head that the node still has is lost only to the clock, to the length of
the chain, or because a transaction it lists is not pending any more. -/
theorem mined_appended_iff (hE : Function.Injective E.hashBlockState) (hzero : NeverZero E)
    {n n₁ n₂ : Node} (hr : ReachableBy E (fun _ _ c => c.Honest E) n) {clock clock₁ : Clock}
    {c : Call} (hown : c.Honest E) (hcall : c.run E clock n = .ok () n₁) {b : Block}
    {target : Hashcode}
    (hjob : n₁.jobs = n.jobs ++ [(b, target)]) (hvalid : validate E.hashBlock n₁.mBlockChain)
    {mHashrate : UInt64} {fuel : ℕ} {mStopGen : ℕ → Bool} {p : Posted}
    (hsearch : search E b mHashrate fuel mStopGen clock₁ target = some p)
    (hrun : ReflTransGen (HonestCall E) n₁ n₂) (hhead : n₂.mBlockChain = n₁.mBlockChain)
    (clock₂ : Clock) :
    ∃ bs, n₂.mBlockStateDb[p.best.state]? = some bs ∧
      ((finalState (generatedBlock E clock₂ p.best n₂)).mBlockChain =
        n₂.mBlockChain ++ [p.best] ↔
        n₂.mBlockChain.length + 1 < 2 ^ 32 ∧ secondsPerBlock ≤ p.best.utcTime.toNat ∧
          ¬ FromFuture (clock₂ 0) p.best ∧
          ∀ h ∈ bs.signedTransactions, n₂.mTrxDb.stage h = some .pending) := by
  have hr₁ : ReachableBy E (fun _ _ c => c.Honest E) n₁ := .call hr hown hcall
  have hn₁ : Sound E n₁ := hr₁.sound
  have haddressed := (Stocked.of_honest hE hzero hr₁).own
  obtain ⟨hne, hprev, htarget, bs, ts, hready₁⟩ := launched_of_jobs hr.sound hcall hjob
  obtain ⟨hn₂, hwaits⟩ :=
      waits_run hE (hready₁.state_ne_zero haddressed hzero) hn₁ hne hne
    ⟨haddressed, fun _ => Settles.refl _, fun _ => hready₁⟩ hrun
  obtain ⟨⟨t, nonce, hbest⟩, hlow⟩ := search_mines hsearch
  have hready : Ready E p.best bs ts n₂ := by
    obtain ⟨hknown, hholds, haccepts⟩ := hwaits.ready hhead
    refine ⟨?_, hholds, haccepts⟩
    rw [hbest]
    exact hknown
  have hlinked : p.best.prevBlock = E.hashBlock n₂.back := by
    rw [back, hhead, hbest]
    exact hprev
  have hext : Extends E clock₂ n₂ p.best bs ↔ n₂.mBlockChain.length + 1 < 2 ^ 32 ∧
      secondsPerBlock ≤ p.best.utcTime.toNat ∧ ¬ FromFuture (clock₂ 0) p.best := by
    constructor
    · intro he
      obtain ⟨-, hlen, hfollows⟩ := (validate_append he.nonempty).mp he.valid
      exact ⟨hlen, hfollows.time, he.time⟩
    · rintro ⟨hlen, htime, hnow⟩
      have hne₂ : n₂.mBlockChain ≠ [] := hhead ▸ hne
      refine ⟨⟨hne₂, hready.known, hnow⟩, hlinked, ?_⟩
      exact (validate_append hne₂).mpr ⟨hhead ▸ hvalid, hlen, htime, hlinked,
        (Nat.le_of_lt hlow).trans htarget⟩
  refine ⟨bs, hready.known, ?_⟩
  rw [finalState_generatedBlock, hready.addBlock_iff hn₂ hlinked, hext,
    attachable_of_accepts hn₂.head
    hn₂.pool hready.holds hready.accepts, and_assoc, and_assoc]

def idleNode : Node :=
  finalState ((Call.addTransaction idle).run (Wire.externals nonceHash) noon firstNode)

def launchedNode : Node :=
  finalState ((Call.configureGeneration [7] true).run (Wire.externals nonceHash)
    (startedAt 1325376000) idleNode)

def launchedJob : Block × Hashcode := (launchedNode.jobs.getLast?).getD ({}, 0)

def launchedBlock : Posted :=
  (search (Wire.externals nonceHash) launchedJob.1 1000 1 (fun _ => false)
    (startedAt 1325376000).tail.tail launchedJob.2).getD ⟨{}, 0, 0⟩

def busyNode : Node :=
  finalState ((Call.addTransaction unknownCommand).run (Wire.externals nonceHash)
    (startedAt 1325376000) launchedNode)

def laterNode : Node :=
  finalState ((Call.addFullBlock (.unknown 5)).run (Wire.externals nonceHash)
    (startedAt 1325376000) busyNode)

theorem mined_appended_iff_launched :
    (finalState (generatedBlock (Wire.externals nonceHash) (startedAt 1325376000).tail.tail
      launchedBlock.best laterNode)).mBlockChain =
      laterNode.mBlockChain ++ [launchedBlock.best] := by
  have hn : ReachableBy (Wire.externals nonceHash)
      (fun _ _ c => c.Honest (Wire.externals nonceHash)) idleNode :=
    .call (c := .addTransaction idle) (firstNode_reachable (Or.inl rfl)) trivial
      (Lib.eq_ok_of_returned (by decide +kernel))
  have hcall : (Call.configureGeneration [7] true).run (Wire.externals nonceHash)
      (startedAt 1325376000) idleNode = .ok () launchedNode :=
        Lib.eq_ok_of_returned (by decide +kernel)
  have hjob : launchedNode.jobs = idleNode.jobs ++ [(launchedJob.1, launchedJob.2)] := by
    decide +kernel
  have hsearch : search (Wire.externals nonceHash) launchedJob.1 1000 1 (fun _ => false)
      (startedAt 1325376000).tail.tail launchedJob.2 = some launchedBlock := by decide +kernel
  have hbusy : HonestCall (Wire.externals nonceHash) launchedNode busyNode :=
    ⟨startedAt 1325376000, .addTransaction unknownCommand, trivial,
      Lib.eq_ok_of_returned (by decide +kernel)⟩
  have hlater : HonestCall (Wire.externals nonceHash) busyNode laterNode :=
    ⟨startedAt 1325376000, .addFullBlock (.unknown 5), Or.inr ⟨5, rfl⟩,
      Lib.eq_ok_of_returned (by decide +kernel)⟩
  obtain ⟨bs, hbs, hiff⟩ := mined_appended_iff (c := .configureGeneration [7] true)
    (Lib.Format.number_injective _) (neverZero_wire _) hn trivial hcall hjob (by decide +kernel)
    hsearch (.tail (.single hbusy) hlater) (by decide +kernel) (startedAt 1325376000).tail.tail
  refine hiff.mpr ⟨by decide +kernel, by decide +kernel, ?_, ?_⟩
  · rw [FromFuture]
    decide +kernel
  · have hstages : (laterNode.mBlockStateDb[launchedBlock.best.state]?).all (fun bs =>
        bs.signedTransactions.all fun h => laterNode.mTrxDb.stage h = some .pending) = true := by
      decide +kernel
    rw [hbs] at hstages
    simpa using hstages

end Node

end Gpm
