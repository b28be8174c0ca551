import Gpm.Node.Sound

namespace Gpm

variable (E : Externals)

namespace Ledger

def select (gen : Name) :
    Ledger → List (Hashcode × SignedTransaction) →
      List (Hashcode × SignedTransaction) × List Posting
  | _, [] => ([], [])
  | v, e :: rest =>
    let r := transaction E e.2 gen v
    if r.1 then
      let s := select gen (v.posts E r.2) rest
      (e :: s.1, r.2 ++ s.2)
    else select gen v rest

variable {E} {v : Ledger} (gen : Name) (l : List (Hashcode × SignedTransaction))

theorem applyAll_select :
    applyAll E gen v ((select E gen v l).1.map Prod.snd) = (true, (select E gen v l).2) := by
  induction l generalizing v with
  | nil => rfl
  | cons e rest ih =>
    cases hr : (transaction E e.2 gen v).1 with
    | true => simp only [select, hr, if_true, List.map_cons, applyAll, ih]
    | false =>
      simp only [select, hr, Bool.false_eq_true, if_false]
      exact ih

theorem sublist_select : (select E gen v l).1.Sublist l := by
  induction l generalizing v with
  | nil => exact List.Sublist.refl _
  | cons e rest ih =>
    unfold select
    simp only
    split
    · exact ih.cons_cons e
    · exact ih.cons e

end Ledger

namespace Node

variable {E} {n : Node}

def withGen (l : Layer) (n : Node) : Node := { n with mGenTrx := l }

theorem genDb_append (E : Externals) (n : Node) (p : ℕ) (es : List Posting) :
    ((n.moved p).withGen (n.mGenTrx.append
      ((Database.trx n.genDb {}).posts E es).layer)).genDb = (n.genDb.posts E es).moved p := by
  have hlive : n.genDb ≠ .null := by simp [genDb]
  have hmerge := Database.append_posts (E := E) hlive es {}
  have hnil : n.genDb.append {} = n.genDb := by
    simp only [genDb, Database.append, Database.modifyLayer, Layer.append_nil]
  rw [hnil] at hmerge
  rw [← hmerge]
  rfl

theorem applyPending_eq (h : WellFormed E n.genDb) (l : List (Hashcode × SignedTransaction)) :
    ∃ p, applyPending E l n =
      .ok ((Ledger.select E n.mGenName (n.genDb.ledger E) l).1.map Prod.fst)
        ((n.moved p).withGen
          (n.genDb.posts E (Ledger.select E n.mGenName (n.genDb.ledger E) l).2).layer) := by
  induction l generalizing n with
  | nil => exact ⟨n.mStateDb.mFile.pos, rfl⟩
  | cons e rest ih =>
    obtain ⟨hash, t⟩ := e
    obtain ⟨db, happ, q, hdb⟩ := DbM.apply_runs t n.mGenName h.overlay
    rw [ledger_overlay h] at happ hdb
    generalize htr : Ledger.transaction E t n.mGenName (n.genDb.ledger E) = r at happ hdb
    have hadmits : (n.genDb.ledger E).AdmitsAll E
        (Ledger.transaction E t n.mGenName (n.genDb.ledger E)).2 :=
      Ledger.admitsAll_transaction h.coherent
    rw [htr] at hadmits
    obtain ⟨hledger, hposts⟩ := h.ledger_posts hadmits
    have hlayer : db.layer = ((Database.trx n.genDb {}).posts E r.2).layer := by
      rw [hdb]
      exact Database.layer_posts_moved q _
    obtain ⟨p, hp, hcases⟩ := DbPtr.overlay_cases DbPtr.genTrx_lawful
      (Grows.of_apply (E := E) t n.mGenName) n
    have hrun : DbPtr.genTrx.overlay (DbM.apply E t n.mGenName) n =
        .ok (r.1, ((Database.trx n.genDb {}).posts E r.2).layer) (n.moved p) := by
      obtain ⟨ok, l, hx, hrun⟩ | ⟨e, db', hx, -⟩ := hcases
      · cases happ.symm.trans hx
        rw [← hlayer]
        exact hrun
      · cases happ.symm.trans hx
    unfold applyPending
    rw [Lib.get_bind, Lib.bind_ok hrun]
    cases hr : r.1 with
    | true =>
      have hgen := genDb_append E n p r.2
      obtain ⟨p', hrest⟩ := ih (by rw [hgen]; exact hposts.moved p)
      rw [hgen, Database.ledger_moved, hledger, Database.layer_posts_moved] at hrest
      simp only [if_true, Ledger.select, htr, hr, Database.posts_append]
      rw [Lib.modify_bind]
      exact ⟨p', Lib.bind_ok hrest⟩
    | false =>
      obtain ⟨p', hrest⟩ := ih (n := n.moved p) (h.moved p)
      simp only [genDb_moved, Database.ledger_moved, Database.layer_posts_moved] at hrest
      simp only [Bool.false_eq_true, if_false, Ledger.select, htr, hr]
      exact ⟨p', hrest⟩

theorem of_createNextBlock (h : WellFormed E n.genDb) {clock : Clock} {b : Block} {n' : Node}
    (hok : createNextBlock E clock n = .ok b n') :
    ∃ bs : BlockState, n'.mBlockStateDb[b.state]? = some bs ∧
      bs.generatorName = n.mGenName ∧
      ∃ s, s = Ledger.select E n.mGenName (n.genDb.ledger E)
          (E.sortByTime n.mTrxDb.pendingTransactions) ∧
        bs.signedTransactions = s.1.map Prod.fst ∧ (n.genDb.posts E s.2).size < DbM.chunkSize ∧
        bs.stateDb = stateHash E (n.genDb.posts E s.2).flat ∧
        n'.mGenTrx = (n.genDb.posts E s.2).layer := by
  obtain ⟨p, hpending⟩ := applyPending_eq h (E.sortByTime n.mTrxDb.pendingTransactions)
  generalize hs : Ledger.select E n.mGenName (n.genDb.ledger E)
    (E.sortByTime n.mTrxDb.pendingTransactions) = s at hpending
  have hgen : ((n.moved p).withGen (n.genDb.posts E s.2).layer).genDb =
      (n.genDb.posts E s.2).moved p := by
    have htrx : n.genDb.posts E s.2 = .trx n.headDb (n.genDb.posts E s.2).layer :=
      Database.posts_trx s.2 n.headDb n.mGenTrx
    conv_rhs => rw [htrx]
    rfl
  unfold createNextBlock at hok
  rw [Lib.get_bind, Lib.bind_ok hpending] at hok
  obtain ⟨hash, n₁, hhash, hok⟩ := Lib.of_bind_ok hok
  rw [Lib.modify_bind] at hok
  cases hok
  obtain ⟨q, -, rfl, hsize, rfl⟩ := DbPtr.of_call_calculateStateHash DbPtr.genTrx_lawful hhash
  change (Node.genDb _).size < _ at hsize
  rw [hgen, Database.size_moved] at hsize
  refine ⟨_, Std.ExtTreeMap.getElem?_insert_self, rfl, s, rfl, rfl, hsize, ?_, rfl⟩
  change stateHash E (Node.genDb _).flat = _
  rw [hgen, Database.flat_moved]

theorem createNextBlock_error (h : WellFormed E n.genDb) {clock : Clock} {e : Fault} {n' : Node}
    (herr : createNextBlock E clock n = .error e n') : e = .diverges := by
  obtain ⟨p, hpending⟩ := applyPending_eq h (E.sortByTime n.mTrxDb.pendingTransactions)
  unfold createNextBlock at herr
  rw [Lib.get_bind, Lib.bind_ok hpending] at herr
  obtain herr | ⟨hash, n₁, -, herr⟩ := Lib.of_bind_error herr
  · obtain ⟨db, hcalc⟩ := DbPtr.of_call_error herr
    exact DbM.calculateStateHash_error hcalc
  · cases herr

theorem createFirstBlock_error (h : Sound E n) {clock : Clock} {e : Fault} {n' : Node}
    (herr : createFirstBlock E clock n = .error e n') : e = .diverges := by
  unfold createFirstBlock at herr
  rw [Lib.get_bind] at herr
  obtain herr | ⟨hash, n₁, hhash, herr⟩ := Lib.of_bind_error herr
  · obtain ⟨db, hcalc⟩ := DbPtr.of_call_error herr
    exact DbM.calculateStateHash_error hcalc
  · obtain ⟨p, -, rfl, -, -⟩ := DbPtr.of_call_calculateStateHash DbPtr.stateDb_lawful hhash
    simp only at herr
    split at herr
    · obtain herr | ⟨u, n₂, -, herr⟩ := Lib.of_bind_error herr
      · obtain ⟨db, happ⟩ := DbPtr.of_call_error (Lib.of_discard_error herr)
        exact DbM.applyBlock_error (h.head.moved p) happ
      · cases herr
    · cases herr

theorem createGenBlock_error (h : Sound E n) {clock : Clock} {e : Fault} {n' : Node}
    (herr : createGenBlock E clock n = .error e n') : e = .diverges := by
  have hn : Sound E { n with mGenTrx := {} } :=
    ⟨h.head, h.state, h.inFile, h.committed, h.headTrx, h.pool, h.diskPool⟩
  unfold createGenBlock at herr
  rw [Lib.modify_bind, Lib.get_bind] at herr
  simp only at herr
  split at herr
  · obtain herr | ⟨u, n₁, hfirst, herr⟩ := Lib.of_bind_error herr
    · exact createFirstBlock_error hn herr
    · obtain ⟨tried, b, bs, -, hstart⟩ := createFirstBlock_effect hfirst
      have hn₁ := hn.start hstart
      obtain ⟨p, -, rfl⟩ := hstart
      exact createNextBlock_error hn₁.head.overlay herr
  · exact createNextBlock_error hn.head.overlay herr

theorem startBlock_error (h : Sound E n) {clock : Clock} {e : Fault} {n' : Node}
    (herr : startBlock E clock n = .error e n') : e = .diverges := by
  obtain herr | ⟨b, n₁, -, herr⟩ := Lib.of_bind_error herr
  · exact createGenBlock_error h herr
  · cases herr

theorem addBlock_error (h : Sound E n) {clock : Clock} {blk : Block} {e : Fault} {n' : Node}
    (herr : addBlock E clock blk n = .error e n') : e = .diverges := by
  have hcontinue : ∀ {n₁ : Node}, Sound E n₁ →
      continueGeneration E clock.tail n₁ = .error e n' → e = .diverges := by
    intro n₁ h₁ herr
    obtain herr | ⟨u, n₂, -, herr⟩ := Lib.of_bind_error herr
    · unfold startBlockIfGenerating at herr
      rw [Lib.get_bind] at herr
      split at herr
      · exact startBlock_error h₁ herr
      · cases herr
    · cases herr
  have hout := addBlock_outcome (E := E) clock n blk
  rw [herr] at hout
  generalize hres : EStateM.Result.error e n' = res at hout
  cases hout with
  | unchanged => cases hres
  | refused => cases hres
  | appended hext hatt => exact hcontinue (h.appended hatt) hres.symm
  | replaced hcomp hatt => exact hcontinue (h.replaced hatt) hres.symm
  | failed hcase happ =>
    cases hres
    obtain ⟨-, rfl, -⟩ | ⟨-, rfl, -⟩ := hcase
    · exact DbM.applyBlock_error h.head.overlay happ
    · exact DbM.applyBlock_error h.state.overlay happ

namespace Inductive

variable {R : Rules} {Inv : Node → Prop} {n' : Node}

theorem call (h : Inductive E R (fun _ => True) Inv) (hsound : ∀ {n}, Inv n → Sound E n)
    {clock : Clock} {c : Call} (hn : Inv n) (hallow : R.allow E n clock c)
    (hok : c.run E clock n = .ok () n') : Inv n' := by
  cases c with
  | addTransaction tx =>
    obtain ⟨r, hok⟩ := Lib.of_discard_ok hok
    exact h.addTransaction hn hallow hok
  | addBlock blk =>
    obtain ⟨r, hok⟩ := Lib.of_discard_ok hok
    exact h.addBlock hn hallow.2 hok
  | addFullBlock fbs =>
    obtain ⟨r, hok⟩ := Lib.of_discard_ok hok
    exact h.addFullBlock hn hallow hok
  | configureGeneration gn on => exact h.configureGeneration hn hallow hok
  | generatedBlock b =>
    change generatedBlock E clock b n = _ at hok
    unfold generatedBlock at hok
    split at hok
    · rename_i herr
      cases addBlock_error (hsound hn) herr
    · cases hok
    · rename_i hadd
      cases hok
      exact h.addBlock hn hallow.2 hadd

theorem reachable (h : Inductive E R (Sound E) Inv) (hr : ReachableBy E (R.allow E) n) : Inv n := by
  have hand := sound_inductive.and h
  have key : Sound E n ∧ Inv n := by
    induction hr with
    | empty => exact hand.empty
    | call _ hallow hok ih => exact hand.call (fun hn => hn.1) ih hallow hok
  exact key.2

end Inductive

theorem ReachableBy.mono {allowed allowed' : Node → Clock → Call → Prop}
    (h : ∀ n clock c, allowed n clock c → allowed' n clock c) (hr : ReachableBy E allowed n) :
    ReachableBy E allowed' n := by
  induction hr with
  | empty => exact .empty
  | call _ hallow hok ih => exact .call ih (h _ _ _ hallow) hok

theorem Rules.learnsAll_of_forall {R : Rules} (h : ∀ n t, R.learns n t) (n : Node)
    (ts : List SignedTransaction) : R.learnsAll E n ts := by
  induction ts generalizing n with
  | nil => trivial
  | cons t ts ih =>
    unfold Rules.learnsAll
    split
    · exact ih n
    · exact ⟨h n t, ih _⟩

theorem Rules.allow_of_starts {R : Rules} {clock : Clock} {c : Call}
    (hlearns : ∀ n t, R.learns n t) (hadds : ∀ n clock blk, R.adds n clock blk)
    (hgenerates : n.mBlockChain = [] → ∀ i, R.generates (seconds (clock i)))
    (hfull : ∀ fbs, c = .addFullBlock fbs → R.stores fbs.blk.state fbs.blkState ∧
      (n.mBlockChain = [] → fbs.index = 0 → R.starts (n.store E fbs) fbs.blk fbs.blkState)) :
    R.allow E n clock c := by
  refine ⟨hgenerates, ?_⟩
  cases c with
  | addTransaction tx => exact Or.inr (hlearns _ _)
  | addBlock blk => exact hadds _ _ _
  | addFullBlock fbs =>
    obtain ⟨hstores, hstarts⟩ := hfull fbs rfl
    refine ⟨Rules.learnsAll_of_forall hlearns _ _, hstores, ?_⟩
    split
    · rename_i hfirst
      exact hstarts hfirst.1 hfirst.2
    · exact hadds _ _ _
  | configureGeneration gn on => trivial
  | generatedBlock b => exact hadds _ _ _

theorem Rules.allow_default (n : Node) (clock : Clock) (c : Call) : Rules.allow E {} n clock c :=
  Rules.allow_of_starts (fun _ _ => trivial) (fun _ _ _ => trivial) (fun _ _ => trivial)
    fun _ _ => ⟨trivial, fun _ _ => trivial⟩

theorem ReachableBy.sound {allowed : Node → Clock → Call → Prop}
    (hr : ReachableBy E allowed n) :
    Sound E n := by
  induction hr with
  | empty => exact Sound.empty
  | call _ _ hok ih =>
    exact sound_inductive.call id ih (Rules.allow_default _ _ _) hok

end Node

end Gpm
