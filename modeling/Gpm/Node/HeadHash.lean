import Gpm.BlockChain.Target
import Gpm.Node.Following
import Gpm.Node.Replay

namespace Gpm

section

variable {hashSha1 : Block → Hashcode} {bc bc' : BlockChain}

theorem Checked.linked {prevHash : Hashcode} (h : Checked hashSha1 prevHash bc) :
    Linked hashSha1 bc := by
  induction bc generalizing prevHash with
  | nil => exact fun i b next hb => by cases hb
  | cons a bc ih =>
    obtain ⟨-, -, -, hrest⟩ := h
    intro i b next hb hnext
    cases i with
    | zero =>
      cases hb
      cases bc with
      | nil => cases hnext
      | cons c bc =>
        cases hnext
        exact hrest.2.1
    | succ i => exact ih hrest i b next hb hnext

theorem Linked.take_eq (hinj : Function.Injective hashSha1) (hzero : ∀ b, hashSha1 b ≠ 0)
    (h : Linked hashSha1 bc) (h' : Linked hashSha1 bc') (hfirst : ∀ g ∈ bc.head?,
      g.prevBlock = 0)
    (hfirst' : ∀ g ∈ bc'.head?, g.prevBlock = 0) {i j : ℕ} {b : Block} (hb : bc[i]? = some b)
    (hb' : bc'[j]? = some b) : i = j ∧ bc.take (i + 1) = bc'.take (j + 1) := by
  induction i generalizing j b with
  | zero =>
    have hb₀ : b.prevBlock = 0 := hfirst b (by rwa [List.head?_eq_getElem?])
    cases j with
    | zero => exact ⟨rfl, by rw [List.take_add_one, List.take_add_one, hb, hb']; rfl⟩
    | succ j =>
      have hj : j < bc'.length := Nat.lt_of_succ_lt (List.getElem?_eq_some_iff.mp hb').1
      have hnamed := h' j bc'[j] b (List.getElem?_eq_getElem hj) hb'
      exact absurd (hnamed.symm.trans hb₀) (hzero _)
  | succ i ih =>
    have hi : i < bc.length := Nat.lt_of_succ_lt (List.getElem?_eq_some_iff.mp hb).1
    have hnamed := h i bc[i] b (List.getElem?_eq_getElem hi) hb
    cases j with
    | zero =>
      have hb₀ : b.prevBlock = 0 := hfirst' b (by rwa [List.head?_eq_getElem?])
      exact absurd (hnamed.symm.trans hb₀) (hzero _)
    | succ j =>
      have hj : j < bc'.length := Nat.lt_of_succ_lt (List.getElem?_eq_some_iff.mp hb').1
      have hnamed' := h' j bc'[j] b (List.getElem?_eq_getElem hj) hb'
      have hsame : bc[i] = bc'[j] := hinj (hnamed.symm.trans hnamed')
      obtain ⟨rfl, htake⟩ := ih (List.getElem?_eq_getElem hi)
        ((List.getElem?_eq_getElem hj).trans (congrArg some hsame.symm))
      refine ⟨rfl, ?_⟩
      rw [List.take_add_one, htake, hb, List.take_add_one (i := i + 1), hb']

end

variable {E : Externals}

namespace Chronicle

variable {es : List Entry} {ps : List Posting}

theorem exists_logs (h : Chronicle E es ps) : ∃ db : Database, WellFormed E db ∧
    db.Logs E ps := by
  cases h with
  | nil =>
    exact ⟨_, (Node.Sound.empty (E := E)).state, Database.Blank.logs Database.blank_fresh.1⟩
  | @block es ps qs e db db₁ db₂ _ _ hdb _ hall hlogs₁ _ =>
    have hdb₁ := (posts_of_applyAll hdb hall).2
    have hend := Ledger.admits_endBlock (v := db₁.ledger E) e.blk e.blkState.generatorName
    exact ⟨_, hdb₁.post hend, hlogs₁.post hdb₁ hend⟩

theorem leading (h : Chronicle E es ps) (k : ℕ) :
    ∃ qs rs, Chronicle E (es.take k) qs ∧ ps = qs ++ rs := by
  induction h with
  | nil => exact ⟨[], [], by rw [List.take_nil]; exact .nil, rfl⟩
  | @block es ps qs e db db₁ db₂ hc hcase hdb hlogs hall hlogs₁ hhash ih =>
    by_cases hk : k ≤ es.length
    · obtain ⟨ps₀, rs, hc₀, rfl⟩ := ih
      rw [List.take_append_of_le_length hk]
      exact ⟨ps₀, _, hc₀, by rw [List.append_assoc, List.append_assoc]⟩
    · have hlen : (es ++ [e]).length ≤ k := by
        rw [List.length_append, List.length_singleton]
        omega
      rw [List.take_of_length_le hlen]
      exact ⟨_, [], .block hc hcase hdb hlogs hall hlogs₁ hhash, (List.append_nil _).symm⟩

theorem postRecords_eq (h : Chronicle E es ps) {ps' : List Posting} (h' : Chronicle E es ps') :
    postRecords E 0 ps = postRecords E 0 ps' := by
  obtain ⟨db, -, hlogs⟩ := h.exists_logs
  obtain ⟨db', -, hlogs'⟩ := h'.exists_logs
  have hflat := (h.sameLog h' hlogs hlogs').flat
  rw [← hlogs.log, ← hlogs'.log, Database.log, Database.log, hflat, ← Database.length_flat,
    ← Database.length_flat, hflat]

end Chronicle

namespace Node

structure Complete (E : Externals) (e : Entry) : Prop where
  state : E.hashBlockState e.blkState = e.blk.state
  lists : e.Lists E

theorem Complete.unique (hE : CollisionFree E) {e e' : Entry} (h : Complete E e)
    (h' : Complete E e') (hblk : e.blk = e'.blk) : e = e' := by
  have hstate : e.blkState = e'.blkState := by
    apply hE.blockState
    rw [h.state, h'.state, hblk]
  have htrxs : e.trxs = e'.trxs := by
    apply List.map_injective_iff.mpr hE.signedTrx
    exact h.lists.trans ((congrArg BlockState.signedTransactions hstate).trans h'.lists.symm)
  cases e
  cases e'
  cases hblk
  cases hstate
  cases htrxs
  rfl

theorem entries_unique (hE : CollisionFree E) {es es' : List Entry}
    (h : ∀ e ∈ es, Complete E e) (h' : ∀ e ∈ es', Complete E e)
    (hblk : es.map Entry.blk = es'.map Entry.blk) : es = es' := by
  induction es generalizing es' with
  | nil => exact (List.map_eq_nil_iff.mp hblk.symm).symm
  | cons e es ih =>
    cases es' with
    | nil => cases hblk
    | cons e' es' =>
      obtain ⟨hhead, htail⟩ := List.cons.inj hblk
      rw [List.forall_mem_cons] at h h'
      rw [h.1.unique hE h'.1 hhead, ih h.2 h'.2 htail]

variable {n n' : Node}

/-- Two nodes agree on the first `k` blocks of their chains: on the blocks, the states they were
applied with and the records up to them, and on all of their logs where there are no more. -/
structure AgreeUpTo (E : Externals) (n n' : Node) (k : ℕ) : Prop where
  blocks : n.mBlockChain.take k = n'.mBlockChain.take k
  states : n.applied.take k = n'.applied.take k
  log : ∃ l r r', n.headDb.log E = l ++ r ∧ n'.headDb.log E = l ++ r' ∧
    (l.map StateRecord.data).filterMap Record.endedBlock = n.mBlockChain.take k
  whole : n.mBlockChain.length = k → n'.mBlockChain.length = k → SameLog E n.headDb n'.headDb

theorem Serves.blkStates {blank : Hashcode → Prop} {es : List Entry} (h : Serves E n es)
    (hn : Stocked E blank n) : es.map Entry.blkState = n.applied := by
  have hstates := hn.states.imp fun _ _ hbs => hbs.2
  rw [← h.blockChain, List.forall₂_map_left_iff] at hstates
  have hsaid : List.Forall₂ (fun e bs => n.mBlockStateDb[e.blk.state]? = some bs) es
      (es.map Entry.blkState) := by
    rw [List.forall₂_map_right_iff, List.forall₂_same]
    exact h.states
  exact List.right_unique_forall₂' (fun _ _ _ h h' => Option.some.inj (h.symm.trans h')) hsaid
    hstates

theorem Followable.linked {es : List Entry} (h : Followable E es) :
    Linked E.hashBlock (es.map Entry.blk) := by
  obtain hlen | hvalid := h.valid
  · intro i b next _ hnext
    have hi := (List.getElem?_eq_some_iff.mp hnext).1
    rw [List.length_map] at hi
    omega
  · exact (validate_iff.mp hvalid).2.linked

/-- The entries of a chain that goes back to a first block of `create_gen_block`. -/
structure Rooted (E : Externals) (n : Node) (es : List Entry) : Prop where
  recorded : Recorded E n es
  serves : Serves E n es
  followable : Followable E es
  complete : ∀ e ∈ es, Complete E e
  linked : Linked E.hashBlock n.mBlockChain
  first : ∀ g ∈ n.mBlockChain.head?, g.prevBlock = 0

theorem rooted_of_reachable {blank : Hashcode → Prop} (hE : CollisionFree E) (hr : Reachable E n)
    (hstocked : Stocked E blank n) (hgen : FromGenesis E n) : ∃ es, Rooted E n es := by
  obtain ⟨es, hes, hfollow, -, hstate⟩ :=
    serves_of_reachable hE.blockState hE.signedTrx hr hstocked hgen
  have happ := hes.blkStates hstocked
  have hcomplete : ∀ e ∈ es, Complete E e := fun e he => ⟨hstate e he, hfollow.lists e he⟩
  obtain ⟨t, g, gs, hg, hgenesis⟩ := hgen
  obtain ⟨es', hes'⟩ : ∃ es', Recorded E n es' := by
    have htold := told_inductive.reachable (hr.mono fun _ _ _ _ => Rules.allow_default _ _ _)
    apply htold.recorded
    intro g' hg' gs' hgs'
    cases hg.symm.trans hg'
    refine ⟨hgenesis.found_iff.mp rfl, ?_⟩
    rw [← happ, List.head?_map] at hgs'
    obtain ⟨e, he, rfl⟩ := Option.mem_map.mp hgs'
    exact (hfollow.first e he).2
  have hblkStates : es'.map Entry.blkState = es.map Entry.blkState := hes'.applied.trans happ.symm
  have hnone : ∀ e ∈ es'.head?, e.blkState.signedTransactions = [] := by
    intro e he
    have hhead : e.blkState ∈ (es.map Entry.blkState).head? := by
      rw [← hblkStates, List.head?_map]
      exact Option.mem_map_of_mem _ he
    rw [List.head?_map] at hhead
    obtain ⟨e₀, he₀, hsame⟩ := Option.mem_map.mp hhead
    have hlists := hfollow.lists e₀ (List.mem_of_mem_head? he₀)
    rw [Entry.Lists, (hfollow.first e₀ he₀).1] at hlists
    rw [← hsame, ← hlists]
    rfl
  have hsame : es' = es := by
    obtain ⟨ps, hc, -⟩ := hes'.head
    have hstates := hstocked.states
    rw [← hes'.blockChain, ← hes'.applied, List.forall₂_map_left_iff,
      List.forall₂_map_right_iff,
      List.forall₂_same] at hstates
    exact entries_unique hE
      (fun e he => ⟨(hstocked.own _ _ (hstates e he).2).hash (hstates e he).1,
        hc.lists hnone e he⟩) hcomplete
      (hes'.blockChain.trans hes.blockChain.symm)
  subst hsame
  refine ⟨es', hes', hes, hfollow, hcomplete, hes.blockChain ▸ hfollow.linked,
    fun g' hg' => ?_⟩
  cases hg.symm.trans hg'
  obtain ⟨nonce, rfl⟩ := hgenesis.blk_eq
  rfl

theorem rooted_of_honest (hE : CollisionFree E) (hzero : NeverZero E)
    (hr : ReachableBy E (fun _ _ c => c.Honest E) n) (hgen : FromGenesis E n) :
    ∃ es, Rooted E n es :=
  rooted_of_reachable hE (hr.mono fun _ _ _ _ => trivial) (.of_honest hE.blockState hzero hr) hgen

namespace Rooted

variable {es es' : List Entry} {i j : ℕ} {b b' : Block}

theorem take_eq (h : Rooted E n es) (hE : CollisionFree E) (hzero : ∀ b, E.hashBlock b ≠ 0)
    (h' : Rooted E n' es') (hb : n.mBlockChain[i]? = some b) (hb' : n'.mBlockChain[j]? = some b')
    (hhash : E.hashBlock b = E.hashBlock b') : i = j ∧ es.take (i + 1) = es'.take (j + 1) := by
  cases hE.block hhash
  obtain ⟨hij, hblocks⟩ := h.linked.take_eq hE.block hzero h'.linked h.first h'.first hb hb'
  refine ⟨hij, ?_⟩
  apply entries_unique hE (fun e he => h.complete e (List.mem_of_mem_take he))
    fun e he => h'.complete e (List.mem_of_mem_take he)
  rw [List.map_take, List.map_take, h.recorded.blockChain, h'.recorded.blockChain, hblocks]

end Rooted

/-- Nodes that have a block of the same hash in their chains agree up to that block. -/
theorem agree_upTo (hE : CollisionFree E) (hzero : ∀ b, E.hashBlock b ≠ 0)
    (hr : ReachableBy E (fun _ _ c => c.SendsOwnState E) n)
    (hr' : ReachableBy E (fun _ _ c => c.SendsOwnState E) n')
    (hgen : FromGenesis E n) (hgen' : FromGenesis E n') {i j : ℕ} {b b' : Block}
    (hb : n.mBlockChain[i]? = some b) (hb' : n'.mBlockChain[j]? = some b')
    (hhash : E.hashBlock b = E.hashBlock b') : i = j ∧ AgreeUpTo E n n' (i + 1) := by
  obtain ⟨es, h⟩ := rooted_of_reachable hE (hr.mono fun _ _ _ _ => trivial)
    (.of_ownStates hE.blockState hr) hgen
  obtain ⟨es', h'⟩ := rooted_of_reachable hE (hr'.mono fun _ _ _ _ => trivial)
    (.of_ownStates hE.blockState hr') hgen'
  obtain ⟨rfl, hes⟩ := h.take_eq hE hzero h' hb hb' hhash
  obtain ⟨ps, hc, hlogs⟩ := h.recorded.head
  obtain ⟨ps', hc', hlogs'⟩ := h'.recorded.head
  have hchain := h.recorded.blockChain
  have hchain' := h'.recorded.blockChain
  refine ⟨rfl, ?_, ?_, ?_, ?_⟩
  · rw [← hchain, ← hchain', ← List.map_take, ← List.map_take, hes]
  · rw [← h.recorded.applied, ← h'.recorded.applied, ← List.map_take, ← List.map_take, hes]
  · obtain ⟨qs, rs, hq, rfl⟩ := hc.leading (i + 1)
    obtain ⟨qs', rs', hq', rfl⟩ := hc'.leading (i + 1)
    have hsame : postRecords E 0 qs = postRecords E 0 qs' := hq.postRecords_eq (hes ▸ hq')
    have hlog' := hlogs'.log.trans (postRecords_append 0)
    rw [← hsame] at hlog'
    refine ⟨postRecords E 0 qs, _, _, hlogs.log.trans (postRecords_append 0), hlog', ?_⟩
    rw [map_data_postRecords, hq.blocks, List.map_take, hchain]
  · intro hlen hlen'
    rw [← hchain, List.length_map] at hlen
    rw [← hchain', List.length_map] at hlen'
    rw [List.take_of_length_le hlen.le, List.take_of_length_le hlen'.le] at hes
    exact hc.sameLog (hes ▸ hc') hlogs hlogs'

def blockNumber₁ (b : Block) : Hashcode := blockNumber b + 1

def minedNode : Node :=
  Lib.finalState (runAll (Wire.externals blockNumber₁) (clockAt launch) doubledCalls {})

def launchCalls : List Call :=
  [.addFullBlock ⟨0, 0, launchBlock, firstState (Wire.externals nonceHash), []⟩]

def toldNode : Node :=
  Lib.finalState (runAll (Wire.externals blockNumber₁) (clockAt launch) launchCalls {})

theorem agree_upTo_launch : AgreeUpTo (Wire.externals blockNumber₁) minedNode toldNode 1 := by
  let E := Wire.externals blockNumber₁
  have hinj : Function.Injective blockNumber₁ := fun a b h =>
    Lib.Format.numberAfter_injective _ _ (Nat.succ.inj h)
  have hmined : ReachableBy E (fun _ _ c => c.SendsOwnState E) minedNode :=
    ReachableBy.empty.runAll (by simp [doubledCalls, makeJob, Call.SendsOwnState])
      (Lib.eq_ok_of_returned (by decide +kernel))
  have htold : ReachableBy E (fun _ _ c => c.SendsOwnState E) toldNode :=
    ReachableBy.empty.runAll (by rintro n c hc; cases List.mem_singleton.mp hc; rfl)
      (Lib.eq_ok_of_returned (by decide +kernel))
  have hgenesis : Genesis E 1288490189 true {} launchBlock
      (firstState (Wire.externals nonceHash)) :=
    ⟨by decide +kernel, by decide +kernel, rfl⟩
  have hgen : FromGenesis E minedNode := ⟨_, _, _, by decide +kernel, hgenesis⟩
  have hgen' : FromGenesis E toldNode := ⟨_, _, _, by decide +kernel, hgenesis⟩
  have hb : minedNode.mBlockChain[0]? = some launchBlock := by decide +kernel
  have hb' : toldNode.mBlockChain[0]? = some launchBlock := by decide +kernel
  exact (agree_upTo (collisionFree_wire hinj) (fun b => Nat.succ_ne_zero _) hmined htold hgen hgen'
    hb hb' rfl).2

end Node

end Gpm
