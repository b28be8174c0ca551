import Gpm.Node.Chain

namespace Gpm

namespace Node

variable (E : Externals)

def learn (t : SignedTransaction) (n : Node) : Node :=
  { n with mTrxDb := n.mTrxDb.insert ⟨.pending, E.hashSignedTrx t⟩ t }

def storeState (h : Hashcode) (bs : BlockState) (n : Node) : Node :=
  { n with mBlockStateDb := n.mBlockStateDb.insert h bs }

/-- Conditions on what a call brings: each transaction that was unknown, each block state, the
first block of a chain, received or made at a reading of the clock, and each block given to
`add_block`. -/
structure Rules where
  learns : Node → SignedTransaction → Prop := fun _ _ => True
  stores : Hashcode → BlockState → Prop := fun _ _ => True
  starts : Node → Block → BlockState → Prop := fun _ _ _ => True
  generates : UInt32 → Prop := fun _ => True
  adds : Node → Clock → Block → Prop := fun _ _ _ => True

def Rules.learnsAll (R : Rules) : Node → List SignedTransaction → Prop
  | _, [] => True
  | n, t :: ts =>
    if n.mTrxDb.knows (E.hashSignedTrx t) then R.learnsAll n ts
    else R.learns n t ∧ R.learnsAll (n.learn E t) ts

def Rules.allow (R : Rules) (n : Node) (clock : Clock) (c : Call) : Prop :=
  (n.mBlockChain = [] → ∀ i, R.generates (seconds (clock i))) ∧
    match c with
    | .addTransaction tx => n.mTrxDb.knows (E.hashSignedTrx tx) ∨ R.learns n tx
    | .addBlock blk => R.adds n clock blk
    | .addFullBlock fbs =>
      R.learnsAll E n fbs.trxs ∧ R.stores fbs.blk.state fbs.blkState ∧
        if n.mBlockChain = [] ∧ fbs.index = 0 then R.starts (n.store E fbs) fbs.blk fbs.blkState
        else R.adds (n.store E fbs) clock fbs.blk
    | .configureGeneration _ _ => True
    | .generatedBlock b => R.adds n clock b

/-- Each of the changes that calls are made of keeps `Inv`, where `Base` holds. -/
structure Inductive (R : Rules) (Base Inv : Node → Prop) : Prop where
  empty : Inv {}
  generated : ∀ {n n'}, Base n → Inv n → Generated E n n' → Inv n'
  learn : ∀ {n t}, Base n → Inv n → ¬ n.mTrxDb.knows (E.hashSignedTrx t) → R.learns n t →
    Inv (n.learn E t)
  store : ∀ {n h bs}, Base n → Inv n → R.stores h bs → Inv (n.storeState h bs)
  start : ∀ {n n' tried blk bs}, Base n → Inv n → n.mBlockChain = [] →
    (tried = true ∧ R.stores blk.state bs ∧ R.starts n blk bs ∨
      ∃ t, R.generates t ∧ Genesis E t tried n blk bs) →
      Starts E tried n blk bs n' → Inv n'
  refused : ∀ {n clock blk bs}, Base n → Inv n → R.adds n clock blk →
    Competes E clock n blk bs →
    ¬ Attachable E n.stateDb (n.competing bs) blk bs →
      Inv { n with
        mTrxDb := (n.competing bs).moveTransactions bs.signedTransactions .pending .head }
  appended : ∀ {n clock blk bs strxs l p}, Base n → Inv n → R.adds n clock blk →
    Extends E clock n blk bs → Attaches E n.headDb n.mTrxDb blk bs strxs l p →
      Inv (settleHead blk bs strxs l ((n.pushBack blk).moved p))
  replaced : ∀ {n clock blk bs strxs l p}, Base n → Inv n → R.adds n clock blk →
    Competes E clock n blk bs → Attaches E n.stateDb (n.competing bs) blk bs strxs l p →
      Inv (swapHead blk bs strxs l { (n.setBack blk).moved p with mTrxDb := n.competing bs })

variable {E} {R : Rules} {Base Inv : Node → Prop} {n n' : Node}

theorem generated_of_eq (hchain : n'.mBlockChain = n.mBlockChain)
    (hstate : n'.mStateDb = n.mStateDb)
    (htrx : n'.mTrxDb = n.mTrxDb) (hblock : n'.mBlockStateDb = n.mBlockStateDb)
    (hhead : n'.mHeadTrx = n.mHeadTrx) (hgen : n'.mGenTrx = n.mGenTrx)
    (happ : n'.applied = n.applied) (hdisk : n'.disk = n.disk) : Generated E n n' where
  blockChain := hchain
  stateDb := ⟨n.mStateDb.mFile.pos, id, hstate⟩
  trxDb := htrx
  headTrx := hhead
  genDb := by
    have hdb : n'.genDb = n.genDb := by rw [genDb, headDb, stateDb, hstate, hhead, hgen]; rfl
    rw [hdb]
    exact Or.inl .refl
  genTrx _ := hgen
  applied := happ
  blockState _ _ hbs := Or.inl (hblock ▸ hbs)
  known _ bs hbs := ⟨bs, hblock ▸ hbs, Or.inl rfl⟩
  disk := hdisk

theorem generated_moved {p : ℕ} (hp : n.stateDb.InFile → p ≤ n.mStateDb.mFile.size) :
    Generated E n (n.moved p) where
  blockChain := rfl
  stateDb := ⟨p, hp, rfl⟩
  trxDb := rfl
  headTrx := rfl
  genDb := Or.inl (Drafts.refl.moved p)
  genTrx _ := rfl
  applied := rfl
  blockState _ _ hbs := Or.inl hbs
  known _ bs hbs := ⟨bs, hbs, Or.inl rfl⟩
  disk := rfl

namespace Inductive

theorem and (hb : Inductive E {} (fun _ => True) Base) (h : Inductive E R Base Inv) :
    Inductive E R (fun _ => True) fun n => Base n ∧ Inv n where
  empty := ⟨hb.empty, h.empty⟩
  generated _ hn hgen := ⟨hb.generated trivial hn.1 hgen, h.generated hn.1 hn.2 hgen⟩
  learn _ hn hnew hlearn := ⟨hb.learn trivial hn.1 hnew trivial, h.learn hn.1 hn.2 hnew hlearn⟩
  store _ hn hstore := ⟨hb.store trivial hn.1 trivial, h.store hn.1 hn.2 hstore⟩
  start _ hn hnil hrule hstart :=
    ⟨hb.start trivial hn.1 hnil
      (hrule.imp (fun hr => ⟨hr.1, trivial, trivial⟩) fun ⟨t, _, hg⟩ =>
        ⟨t, trivial, hg⟩) hstart,
      h.start hn.1 hn.2 hnil hrule hstart⟩
  refused _ hn hadd hcomp hno :=
    ⟨hb.refused trivial hn.1 trivial hcomp hno, h.refused hn.1 hn.2 hadd hcomp hno⟩
  appended _ hn hadd hext hatt :=
    ⟨hb.appended trivial hn.1 trivial hext hatt, h.appended hn.1 hn.2 hadd hext hatt⟩
  replaced _ hn hadd hcomp hatt :=
    ⟨hb.replaced trivial hn.1 trivial hcomp hatt, h.replaced hn.1 hn.2 hadd hcomp hatt⟩

section Calls

variable (h : Inductive E R (fun _ => True) Inv)

include h

theorem generation {t : UInt32} (hn : Inv n) (ht : n.mBlockChain = [] → R.generates t)
    (hgen : Generation E t n n') : Inv n' := by
  obtain ⟨-, hgen⟩ | ⟨hnil, tried, b, bs, n₁, hgenesis, hstart, hgen⟩ := hgen
  · exact h.generated trivial hn hgen
  · exact h.generated trivial
      (h.start trivial hn hnil (Or.inr ⟨t, ht hnil, hgenesis⟩) hstart) hgen

theorem startBlockIfGenerating {clock : Clock} {u : Unit} (hn : Inv n)
    (ht : n.mBlockChain = [] → R.generates (seconds (clock 0)))
    (hok : startBlockIfGenerating E clock n = .ok u n') : Inv n' := by
  unfold Node.startBlockIfGenerating at hok
  rw [Lib.get_bind] at hok
  split at hok
  · exact h.generation hn ht (startBlock_effect hok)
  · cases hok
    exact hn

theorem continueGeneration {clock : Clock} {r : Int} (hn : Inv n) (hne : n.mBlockChain ≠ [])
    (hok : continueGeneration E clock n = .ok r n') : Inv n' := by
  obtain ⟨u, n₁, hstart, hok⟩ := Lib.of_bind_ok hok
  cases hok
  exact h.startBlockIfGenerating hn (fun hnil => absurd hnil hne) hstart

theorem addBlock {clock : Clock} {blk : Block} {r : Int} (hn : Inv n)
    (hadd : R.adds n clock blk) (hok : addBlock E clock blk n = .ok r n') : Inv n' := by
  have hout := addBlock_outcome (E := E) clock n blk
  rw [hok] at hout
  generalize hres : EStateM.Result.ok r n' = res at hout
  cases hout with
  | unchanged hr hp hext hcomp =>
    cases hres
    exact h.generated trivial hn (generated_moved hp)
  | refused hcomp hno hp =>
    cases hres
    exact h.generated trivial (h.refused trivial hn hadd hcomp hno) (generated_moved hp)
  | appended hext hatt =>
    exact h.continueGeneration (h.appended trivial hn hadd hext hatt)
      (List.append_ne_nil_of_right_ne_nil _ (List.cons_ne_nil _ _)) hres.symm
  | replaced hcomp hatt =>
    exact h.continueGeneration (h.replaced trivial hn hadd hcomp hatt)
      (List.append_ne_nil_of_right_ne_nil _ (List.cons_ne_nil _ _)) hres.symm
  | failed => cases hres

theorem addTransaction {clock : Clock} {tx : SignedTransaction} {r : Int} (hn : Inv n)
    (hallow : R.allow E n clock (.addTransaction tx))
    (hok : addTransaction E clock tx n = .ok r n') : Inv n' := by
  obtain ⟨ht, hlearn⟩ := hallow
  unfold Node.addTransaction at hok
  rw [Lib.get_bind] at hok
  split at hok
  · cases hok
    exact hn
  · rename_i hnew
    rw [Lib.modify_bind, Lib.get_bind] at hok
    have hn₁ := h.learn trivial hn hnew (hlearn.resolve_left hnew)
    have hn₂ : Inv { n.learn E tx with signals := n.signals ++ [.newTransaction tx] } :=
      h.generated trivial hn₁ (generated_of_eq rfl rfl rfl rfl rfl rfl rfl rfl)
    simp only at hok
    split at hok
    · obtain ⟨u, n₁, hstart, hok⟩ := Lib.of_bind_ok hok
      cases hok
      exact h.generation hn₂ (fun hnil => ht hnil 0) (startBlock_effect hstart)
    · obtain ⟨u, n₁, hcreate, hok⟩ := Lib.of_bind_ok hok
      obtain ⟨b, hcreate⟩ := Lib.of_discard_ok hcreate
      cases hok
      exact h.generation hn₂ (fun hnil => ht hnil 0) (createGenBlock_effect hcreate)

theorem configureGeneration {clock : Clock} {gn : Name} {on : Bool} {u : Unit} (hn : Inv n)
    (hallow : R.allow E n clock (.configureGeneration gn on))
    (hok : configureGeneration E clock gn on n = .ok u n') : Inv n' := by
  unfold Node.configureGeneration at hok
  rw [Lib.modify_bind] at hok
  have hn₁ : Inv { n with
      mGenName := gn, mGenEnabled := on,
      signals := n.signals ++ [.generationStateChanged gn on] } :=
    h.generated trivial hn (generated_of_eq rfl rfl rfl rfl rfl rfl rfl rfl)
  split at hok
  · exact h.generation hn₁ (fun hnil => hallow.1 hnil 0) (startBlock_effect hok)
  · cases hok
    exact hn₁

theorem storeTransactions {ts : List SignedTransaction} (hn : Inv n)
    (hlearn : R.learnsAll E n ts) :
    Inv { n with mTrxDb := (TrxDb.store E n.mTrxDb ts).1 } := by
  induction ts generalizing n with
  | nil => exact hn
  | cons t ts ih =>
    unfold Rules.learnsAll at hlearn
    unfold TrxDb.store
    split
    · rename_i hknown
      rw [if_pos hknown] at hlearn
      exact ih hn hlearn
    · rename_i hnew
      rw [if_neg hnew] at hlearn
      exact ih (h.learn trivial hn hnew hlearn.1) hlearn.2

theorem addFullBlock {clock : Clock} {fbs : FullBlockState} {r : Int} (hn : Inv n)
    (hallow : R.allow E n clock (.addFullBlock fbs))
    (hok : addFullBlock E clock fbs n = .ok r n') : Inv n' := by
  obtain ⟨ht, hlearn, hstore, hblock⟩ := hallow
  have hn₁ : Inv (n.store E fbs) :=
    h.store trivial (h.storeTransactions hn hlearn) hstore
  unfold Node.addFullBlock at hok
  rw [Lib.get_bind, Lib.modify_bind, Lib.get_bind] at hok
  simp only at hok
  by_cases hfirst : n.mBlockChain = [] ∧ fbs.index = 0
  · rw [if_pos hfirst] at hblock
    have hfirst' : (n.store E fbs).mBlockChain = [] ∧ fbs.index = 0 := hfirst
    rw [if_pos hfirst'] at hok
    exact h.start trivial hn₁ hfirst.1 (Or.inl ⟨rfl, hstore, hblock⟩)
      (addFirstBlock_effect hok)
  · rw [if_neg hfirst] at hblock
    have hfirst' : ¬ ((n.store E fbs).mBlockChain = [] ∧ fbs.index = 0) := hfirst
    rw [if_neg hfirst'] at hok
    obtain ⟨rtn, n₂, hadd, hok⟩ := Lib.of_bind_ok hok
    have hn₂ := h.addBlock hn₁ hblock hadd
    split at hok
    · obtain ⟨u, n₃, hstart, hok⟩ := Lib.of_bind_ok hok
      cases hok
      have hchain := (addBlock_chainStep hadd).1
      apply h.startBlockIfGenerating hn₂ _ hstart
      intro hnil
      rw [hnil] at hchain
      exact ht hchain.eq_nil 1
    · cases hok
      exact hn₂

end Calls

end Inductive

end Node

end Gpm
