import Gpm.Node.Origin

namespace Gpm

section

variable {hashSha1 : Block → Hashcode} {bc bc' : BlockChain}

theorem checked_left {prevHash : Hashcode} (h : Checked hashSha1 prevHash (bc ++ bc')) :
    Checked hashSha1 prevHash bc := by
  induction bc generalizing prevHash with
  | nil => trivial
  | cons b bc ih =>
    obtain ⟨htime, hlink, hwork, hrest⟩ := h
    exact ⟨htime, hlink, hwork, ih hrest⟩

theorem validate_left (h : validate hashSha1 (bc ++ bc')) : validate hashSha1 bc := by
  obtain ⟨hlen, hchecked⟩ := validate_iff.mp h
  rw [List.length_append] at hlen
  exact validate_iff.mpr ⟨by omega, checked_left hchecked⟩

end

namespace Node

variable {E : Externals} {n n' : Node} {es : List Entry} {k : ℕ} {clock : Clock}

theorem addFirstBlock_returns (fbs : FullBlockState) (hn : WellFormed E n.headDb)
    (h : DbM.Accepts E n.headDb fbs.blkState.generatorName [] fbs.blkState.stateDb) :
    ∃ n', addFirstBlock E fbs n = .ok 1 n' := by
  obtain ⟨db, happ⟩ := (DbM.applyBlock_true_iff (b := fbs.blk) hn).mpr h
  have hcall : DbPtr.headTrx.call (DbM.applyBlock E fbs.blk fbs.blkState.generatorName []
      fbs.blkState.stateDb) n = .ok true (DbPtr.headTrx.put db n) := by
    change DbM.applyBlock E _ _ _ _ (DbPtr.headTrx.get n) = _ at happ
    rw [DbPtr.call, happ]
  unfold addFirstBlock
  rw [Lib.bind_ok (Lib.discard_ok hcall)]
  exact ⟨_, rfl⟩

def EmitsBlocks (n n' : Node) : Prop :=
  ∃ fbss : List FullBlockState, n'.signals = n.signals ++ fbss.map Signal.newBlock

structure Follower (E : Externals) (es : List Entry) (k : ℕ) (n : Node) : Prop where
  sound : Sound E n
  quiet : n.mGenEnabled = false
  recorded : Recorded E n (es.take k)
  spent : ∀ h, n.mTrxDb.stage h = some .head ∨ n.mTrxDb.stage h = some .applied →
    ∃ e ∈ es.take k, h ∈ e.blkState.signedTransactions

theorem getFullBlock_beyond {index : UInt32} (h : n.mBlockChain.length ≤ index.toNat)
    (garbage : UInt32) : n.getFullBlock garbage index = .ok (.unknown garbage) ∨
      ∃ e, n.getFullBlock garbage index = .error e := by
  have hbeyond : n.getBlockByIndex index =
      .error (.exception "Block index %1% is beyond known block chain size.") := by
    rw [getBlockByIndex, List.getElem?_eq_none_iff.mpr h]
  unfold getFullBlock
  split
  · exact Or.inl rfl
  · rw [hbeyond]
    exact Or.inr ⟨_, rfl⟩

theorem unspent_inductive : Inductive E {} (Sound E) fun n => n.mBlockChain = [] →
    ∀ h, ¬ (n.mTrxDb.stage h = some .head ∨ n.mTrxDb.stage h = some .applied) where
  empty _ h := by simp
  generated _ hn hgen := by
    rw [hgen.blockChain, hgen.trxDb]
    exact hn
  learn hs hn hnew _ hnil h := by
    have hstage : (learn E _ _).mTrxDb.stage h = _ := hs.pool.stage_insert hnew
    rw [hstage]
    split
    · simp
    · exact hn hnil h
  store _ hn _ := hn
  start _ _ hnil _ hstart hnil' := by
    rw [hstart.blockChain hnil] at hnil'
    cases hnil'
  refused _ _ _ hcomp _ hnil := absurd hnil hcomp.nonempty
  appended _ _ _ _ _ hnil :=
    absurd hnil (List.append_ne_nil_of_right_ne_nil _ (List.cons_ne_nil _ _))
  replaced _ _ _ _ _ hnil :=
    absurd hnil (List.append_ne_nil_of_right_ne_nil _ (List.cons_ne_nil _ _))

theorem follower_of_reachable (hr : Reachable E n) (hnil : n.mBlockChain = [])
    (hquiet : n.mGenEnabled = false) (es : List Entry) : Follower E es 0 n := by
  have hall : ReachableBy E (Rules.allow E {}) n :=
    hr.mono fun _ _ _ _ => Rules.allow_default _ _ _
  obtain ⟨es', hes'⟩ := (told_inductive.reachable hall).recorded (by
    rw [Founded, hnil]
    intro g hg
    cases hg)
  have hempty : es' = [] := List.map_eq_nil_iff.mp (hes'.blockChain.trans hnil)
  subst hempty
  exact ⟨hr.sound, hquiet, hes', fun h hs =>
    absurd hs (unspent_inductive.reachable hall hnil h)⟩

namespace Follower

theorem blockChain (h : Follower E es k n) : n.mBlockChain = (es.take k).map Entry.blk :=
  h.recorded.blockChain.symm

theorem stage_store (h : Follower E es k n) (fbs : FullBlockState) {t : Hashcode}
    (hs : (n.store E fbs).mTrxDb.stage t = some .head ∨
      (n.store E fbs).mTrxDb.stage t = some .applied) :
    ∃ e ∈ es.take k, t ∈ e.blkState.signedTransactions := by
  apply h.spent t
  have hstage : (n.store E fbs).mTrxDb.stage t = _ := h.sound.pool.stage_store fbs.trxs t
  rw [hstage] at hs
  split at hs
  · simp at hs
  · exact hs

theorem first (h : Follower E es 0 n) (hes : Followable E es) (hk : 0 < es.length)
    (clock : Clock) (head : ℕ) :
    ∃ n', addFullBlock E clock (es[0].fullBlock 0 head) n = .ok 1 n' ∧ Follower E es 1 n' ∧
      EmitsBlocks n n' := by
  have hhead : es[0] ∈ es.head? := by
    rw [List.head?_eq_getElem?, List.getElem?_eq_getElem hk]
    rfl
  have htake : es.take 1 = [] ++ [es[0]] := by
    rw [List.take_one, hhead]
    rfl
  obtain ⟨htrxs, hhash⟩ := hes.first _ hhead
  have hs := h.sound.store (es[0].fullBlock 0 head)
  have hnil : (n.store E (es[0].fullBlock 0 head)).mBlockChain = [] := h.blockChain
  have hrec : Recorded E (n.store E (es[0].fullBlock 0 head)) [] :=
    ⟨h.recorded.blockChain, h.recorded.applied, h.recorded.head, h.recorded.state⟩
  obtain ⟨ps, hc⟩ := hes.chronicle
  obtain ⟨ps₁, hc₁⟩ := hc.take 1
  rw [htake] at hc₁
  obtain ⟨ps₀, hc₀, hlogs₀⟩ := hrec.head
  have haccepts := hc₁.accepts hc₀ hs.head hlogs₀
  rw [htrxs] at haccepts
  obtain ⟨n', hadd⟩ := addFirstBlock_returns (es[0].fullBlock 0 head) hs.head haccepts
  have hstart := addFirstBlock_effect hadd
  have hrec' := hrec.start hs hnil (fun _ _ => ⟨rfl, hhash⟩) hstart
  have hentry : (⟨es[0].blk, es[0].blkState, []⟩ : Entry) = es[0] := by rw [← htrxs]
  refine ⟨n', ?_,
    ⟨sound_inductive.start trivial hs hnil (Or.inl ⟨rfl, trivial, trivial⟩) hstart,
    ?_, ?_, ?_⟩, ?_⟩
  · unfold addFullBlock
    rw [Lib.get_bind, Lib.modify_bind, Lib.get_bind, if_pos ⟨hnil, rfl⟩, hadd]
  · obtain ⟨p, -, rfl⟩ := hstart
    exact h.quiet
  · rw [htake, List.nil_append, ← hentry]
    exact hrec'
  · obtain ⟨p, -, rfl⟩ := hstart
    intro t ht
    obtain ⟨e, he, -⟩ := h.stage_store _ ht
    cases he
  · obtain ⟨p, -, rfl⟩ := hstart
    exact ⟨[], (List.append_nil _).symm⟩

theorem head_mem (hk : k < es.length) : es.take (k + 1) = es.take k ++ [es[k]] :=
  (List.take_concat_get' es k hk).symm

theorem lists_stored (h : Follower E es k n) (hes : Followable E es)
    (hT : Function.Injective E.hashSignedTrx) (hk : k < es.length) (head : ℕ) :
    (n.store E (es[k].fullBlock k head)).mTrxDb.Lists .pending es[k].blkState.signedTransactions
      es[k].trxs := by
  have hs := h.sound.store (es[k].fullBlock k head)
  have hlists := hes.lists _ (List.getElem_mem hk)
  have hstage : ∀ t ∈ es[k].blkState.signedTransactions,
      (n.store E (es[k].fullBlock k head)).mTrxDb.stage t = some .pending := by
    intro t ht
    have hmem : t ∈ es[k].trxs.map E.hashSignedTrx := by
      rw [hlists]
      exact ht
    have hstored : (n.store E (es[k].fullBlock k head)).mTrxDb.stage t = _ :=
      h.sound.pool.stage_of_store hmem
    rw [hstored]
    have hfree : ¬ (n.mTrxDb.stage t = some .head ∨ n.mTrxDb.stage t = some .applied) := by
      intro hspent
      obtain ⟨e, he, hmem⟩ := h.spent t hspent
      have hpairs := hes.disjoint.take (i := k + 1)
      rw [head_mem hk, List.pairwise_append] at hpairs
      exact hpairs.2.2 e he es[k] List.mem_cons_self t hmem ht
    cases hg : n.mTrxDb.stage t with
    | none => rfl
    | some g =>
      cases g with
      | pending => rfl
      | head => exact absurd (Or.inl hg) hfree
      | applied => exact absurd (Or.inr hg) hfree
  apply hs.pool.lists_of_holds _ hstage
  apply lists_holds hT hlists hs.pool
  intro t ht
  rw [TrxDb.knows_iff_stage, hstage t ht]
  exact Option.some_ne_none _

theorem next (h : Follower E es k n) (hes : Followable E es)
    (hT : Function.Injective E.hashSignedTrx) (hpos : 0 < k) (hk : k < es.length)
    (htime : ¬ seconds (clock 0) + 30 < es[k].blk.utcTime) (head : ℕ) :
    ∃ n', addFullBlock E clock (es[k].fullBlock k head) n = .ok 1 n' ∧
      Follower E es (k + 1) n' ∧ EmitsBlocks n n' := by
  have hs := h.sound.store (es[k].fullBlock k head)
  have hquiet : (n.store E (es[k].fullBlock k head)).mGenEnabled = false := h.quiet
  have hchain : (n.store E (es[k].fullBlock k head)).mBlockChain = (es.take k).map Entry.blk :=
    h.blockChain
  have hne : n.mBlockChain ≠ [] := by
    rw [h.blockChain, ← List.length_pos_iff, List.length_map, List.length_take]
    omega
  have hvalid : validate E.hashBlock ((es.take k).map Entry.blk ++ [es[k].blk]) := by
    have hall := hes.valid.resolve_left (by omega)
    rw [← List.take_append_drop (k + 1) es, List.map_append, head_mem hk, List.map_append] at hall
    exact validate_left hall
  have hrec : Recorded E (n.store E (es[k].fullBlock k head)) (es.take k) :=
    ⟨h.recorded.blockChain, h.recorded.applied, h.recorded.head, h.recorded.state⟩
  have hlink := ((validate_append (h.blockChain ▸ hne)).mp hvalid).2.2.linked
  rw [← hchain] at hlink
  have hext : Extends E clock (n.store E (es[k].fullBlock k head)) es[k].blk es[k].blkState :=
    ⟨⟨hne, Std.ExtTreeMap.getElem?_insert_self, htime⟩, hlink, by rw [hchain]; exact hvalid⟩
  obtain ⟨ps, hc⟩ := hes.chronicle
  obtain ⟨ps₁, hc₁⟩ := hc.take (k + 1)
  rw [head_mem hk] at hc₁
  obtain ⟨ps₀, hc₀, hlogs₀⟩ := hrec.head
  have hlists := h.lists_stored hes hT hk head
  have hunique : ∀ strxs, (n.store E (es[k].fullBlock k head)).mTrxDb.Lists .pending
      es[k].blkState.signedTransactions strxs → strxs = es[k].trxs := fun strxs hl =>
    hs.pool.forall₂_unique hl.holds hlists.holds
  obtain ⟨l, p, ha, hadd⟩ | ⟨hno, -⟩ :=
    addBlock_extends hs hquiet hext hunique (hc₁.accepts hc₀ hs.head hlogs₀)
  · refine ⟨_, addFullBlock_quiet h.quiet hne hadd, ⟨hs.appended ha, hquiet, ?_, ?_⟩, [_],
      rfl⟩
    · rw [head_mem hk]
      exact hrec.appended hs ha
    · intro t ht
      rw [stage_settleHead es[k].blkState hs.pool] at ht
      rw [head_mem hk]
      by_cases hmem : t ∈ es[k].blkState.signedTransactions
      · exact ⟨es[k], List.mem_append_right _ List.mem_cons_self, hmem⟩
      · obtain ⟨e, he, hlisted⟩ := h.stage_store (es[k].fullBlock k head) (t := t) (by grind)
        exact ⟨e, List.mem_append_left _ he, hlisted⟩
  · exact absurd hlists hno

theorem addFullBlock (h : Follower E es k n) (hes : Followable E es)
    (hT : Function.Injective E.hashSignedTrx) (hk : k < es.length)
    (htime : ¬ seconds (clock 0) + 30 < es[k].blk.utcTime) (head : ℕ) :
    ∃ n', addFullBlock E clock (es[k].fullBlock k head) n = .ok 1 n' ∧
      Follower E es (k + 1) n' ∧ EmitsBlocks n n' := by
  cases k with
  | zero => exact h.first hes hk clock head
  | succ k => exact h.next hes hT (Nat.succ_pos k) hk htime head

end Follower

end Node

end Gpm
