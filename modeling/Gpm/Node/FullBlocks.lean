import Gpm.Node.Chronicle
import Gpm.Node.Restart

namespace Gpm

/-- A `full_block_state` as it is constructed; the index in its block state is not initialised. -/
def FullBlockState.unknown (index : UInt32) : FullBlockState where
  blk := {}
  blkState := { index, generatorName := [], stateDb := 0, signedTransactions := [] }
  trxs := []

namespace Node

def getHeadBlockIndex (n : Node) : Int32 := Int32.ofNat n.mBlockChain.length - 1

def getBlockByIndex (n : Node) (index : UInt32) : Except Fault Block :=
  match n.mBlockChain[index.toNat]? with
  | some b => .ok b
  | none => .error (.exception "Block index %1% is beyond known block chain size.")

def getBlockState (n : Node) (blkState : Hashcode) : Except Fault BlockState :=
  match n.mBlockStateDb[blkState]? with
  | some bs => .ok bs
  | none => .error (.exception "Unknown block state %1%")

def getTransaction (n : Node) (trxH : Hashcode) : Except Fault SignedTransaction :=
  match [Group.pending, .head, .applied].findSome? fun g => n.mTrxDb[TrxKey.mk g trxH]? with
  | some t => .ok t
  | none => .error (.exception "Unknown Transaction %1%")

def getFullBlock (n : Node) (garbage index : UInt32) : Except Fault FullBlockState :=
  if n.getHeadBlockIndex.toUInt32 < index then .ok (.unknown garbage)
  else do
    let blk ← n.getBlockByIndex index
    let blkState ← n.getBlockState blk.state
    let trxs ← blkState.signedTransactions.mapM n.getTransaction
    return {
      index := index.toInt32.toInt
      headIndex := n.getHeadBlockIndex.toInt
      blk, blkState, trxs }

variable {E : Externals} {n : Node} {es : List Entry} {k : ℕ}

theorem getHeadBlockIndex_eq (h : n.mBlockChain.length = k + 1) :
    n.getHeadBlockIndex = Int32.ofNat k := by
  rw [getHeadBlockIndex, h, Int32.ofNat_add]
  exact Int32.add_sub_cancel _ _

theorem getHeadBlockIndex_add_one (n : Node) :
    (n.getHeadBlockIndex + 1).toUInt32 = UInt32.ofNat n.mBlockChain.length := by
  rw [getHeadBlockIndex, Int32.sub_add_cancel]
  rfl

theorem getTransaction_eq {h : Hashcode} {t : SignedTransaction} (hp : n.mTrxDb.Pool E)
    (ht : n.mTrxDb.Holds h t) : n.getTransaction h = .ok t := by
  have hfound : [Group.pending, .head, .applied].findSome?
      (fun g => n.mTrxDb[TrxKey.mk g h]?) = some t := by
    cases hsome : [Group.pending, .head, .applied].findSome? fun g => n.mTrxDb[TrxKey.mk g h]? with
    | none =>
      obtain ⟨g, hg⟩ := ht
      have hnone := List.findSome?_eq_none_iff.mp hsome g (by cases g <;> simp)
      rw [hg] at hnone
      cases hnone
    | some t' =>
      obtain ⟨g, -, hg⟩ := List.exists_of_findSome?_eq_some hsome
      rw [hp.holds_unique ht ⟨g, hg⟩]
  rw [getTransaction, hfound]

theorem mapM_getTransaction {l : List Hashcode} {ts : List SignedTransaction}
    (hp : n.mTrxDb.Pool E) (h : List.Forall₂ n.mTrxDb.Holds l ts) :
    l.mapM n.getTransaction = .ok ts := by
  induction h with
  | nil => rfl
  | cons ht _ ih =>
    rw [List.mapM_cons, getTransaction_eq hp ht, ih]
    rfl

end Node

theorem not_validate_early {E : Externals} {bc : BlockChain} {b : Block}
    (h : b.utcTime.toNat < secondsPerBlock) :
    ¬ validate E.hashBlock (bc ++ [b]) := by
  intro hvalid
  have hchecked := (checked_concat.mp (validate_iff.mp hvalid).2).2
  exact Nat.not_lt.mpr (checked_singleton.mp hchecked).time h

def Entry.fullBlock (e : Entry) (index headIndex : ℕ) : FullBlockState where
  index := index
  headIndex := headIndex
  blk := e.blk
  blkState := e.blkState
  trxs := e.trxs

namespace Node

variable {E : Externals} {n n' : Node} {es : List Entry} {k : ℕ}

theorem lists_holds (hE : Function.Injective E.hashSignedTrx) {e : Entry} (h : e.Lists E)
    (hp : n.mTrxDb.Pool E) (hknown : ∀ k ∈ e.blkState.signedTransactions, n.mTrxDb.knows k) :
    List.Forall₂ n.mTrxDb.Holds e.blkState.signedTransactions e.trxs := by
  rw [Entry.Lists] at h
  rw [← h, List.forall₂_map_left_iff, List.forall₂_same]
  intro t ht
  obtain ⟨t', g, ht'⟩ := TrxDb.knows_iff_holds.mp (hknown _ (h ▸ List.mem_map_of_mem ht))
  have hkey := hp.keyed ht'
  rw [hE hkey] at ht'
  exact ⟨g, ht'⟩

structure Serves (E : Externals) (n : Node) (es : List Entry) : Prop where
  sound : Sound E n
  blockChain : es.map Entry.blk = n.mBlockChain
  head : ∃ ps, Chronicle E es ps ∧ n.headDb.Logs E ps
  states : ∀ e ∈ es, n.mBlockStateDb[e.blk.state]? = some e.blkState
  trxs : ∀ e ∈ es, List.Forall₂ n.mTrxDb.Holds e.blkState.signedTransactions e.trxs

structure Followable (E : Externals) (es : List Entry) : Prop where
  chronicle : ∃ ps, Chronicle E es ps
  valid : es.length ≤ 1 ∨ validate E.hashBlock (es.map Entry.blk)
  lists : ∀ e ∈ es, e.Lists E
  first : ∀ e ∈ es.head?, e.trxs = [] ∧ e.blkState.stateDb = stateHash E []
  disjoint : es.Pairwise fun e e' =>
    ∀ h ∈ e.blkState.signedTransactions, h ∉ e'.blkState.signedTransactions

namespace Serves

theorem length (h : Serves E n es) : n.mBlockChain.length = es.length := by
  rw [← h.blockChain, List.length_map]

theorem length_le (h : Serves E n es) : es.length ≤ 2 ^ 20 := by
  obtain ⟨ps, hc, -⟩ := h.head
  exact hc.length_le_chunkSize

theorem getFullBlock (h : Serves E n es) (hk : k < es.length) (garbage : UInt32) :
    n.getFullBlock garbage (UInt32.ofNat k) = .ok (es[k].fullBlock k (es.length - 1)) := by
  have hmax := h.length_le
  have hlen : n.mBlockChain.length = es.length - 1 + 1 := by
    rw [h.length]
    omega
  have hsmall : ∀ i < es.length, (UInt32.ofNat i).toNat = i := by
    intro i hi
    apply UInt32.toNat_ofNat_of_lt'
    rw [UInt32.size]
    omega
  have hnat := hsmall k hk
  have hlast := hsmall (es.length - 1) (by omega)
  have hin : ¬ n.getHeadBlockIndex.toUInt32 < UInt32.ofNat k := by
    rw [getHeadBlockIndex_eq hlen, Int32.toUInt32_ofNat', UInt32.lt_iff_toNat_lt, hnat, hlast]
    omega
  have hblock : n.getBlockByIndex (UInt32.ofNat k) = .ok es[k].blk := by
    rw [getBlockByIndex, hnat, ← h.blockChain, List.getElem?_map, List.getElem?_eq_getElem hk]
    rfl
  have hstate : n.getBlockState es[k].blk.state = .ok es[k].blkState := by
    rw [getBlockState, h.states _ (List.getElem_mem hk)]
  have hindex : (UInt32.ofNat k).toInt32.toInt = k := Int32.toInt_ofNat_of_lt (by omega)
  have hhead : n.getHeadBlockIndex.toInt = (es.length - 1 : ℕ) := by
    rw [getHeadBlockIndex_eq hlen]
    exact Int32.toInt_ofNat_of_lt (by omega)
  have hlisted := mapM_getTransaction h.sound.pool (h.trxs _ (List.getElem_mem hk))
  simp only [Node.getFullBlock, if_neg hin, bind, Except.bind, hblock, hstate,
    hlisted, hindex, hhead]
  rfl

theorem addUnknown (h : Serves E n es) (hne : es ≠ []) (hstate : ∀ e ∈ es, e.blk.state ≠ 0)
    (clock : Clock) (garbage : UInt32) :
    ∃ r p, addFullBlock E clock (.unknown garbage) n =
      .ok r ((n.store E (.unknown garbage)).moved p) ∧
        Serves E ((n.store E (.unknown garbage)).moved p) es := by
  have hs := h.sound.store (.unknown garbage)
  have hearly : (FullBlockState.unknown garbage).blk.utcTime.toNat < secondsPerBlock :=
    Nat.zero_lt_succ 14
  have hneither : ∃ r p, addBlock E clock (FullBlockState.unknown garbage).blk
      (n.store E (.unknown garbage)) = .ok r ((n.store E (.unknown garbage)).moved p) :=
    addBlock_neither (fun _ he => not_validate_early hearly he.valid)
      fun _ hc => not_validate_early hearly hc.valid
  obtain ⟨r, p, hadd⟩ := hneither
  have hchain : n.mBlockChain ≠ [] := by
    rw [← h.blockChain]
    exact fun hnil => hne (List.map_eq_nil_iff.mp hnil)
  refine ⟨r, p, ?_, sound_inductive.addBlock hs trivial hadd, h.blockChain, ?_, ?_, h.trxs⟩
  · unfold addFullBlock
    rw [Lib.get_bind, Lib.modify_bind, Lib.get_bind]
    rw [if_neg fun hfirst => hchain hfirst.1, Lib.bind_ok hadd]
    rw [if_neg fun hrejected => absurd hrejected.2 Bool.false_ne_true]
    rfl
  · obtain ⟨ps, hc, hlogs⟩ := h.head
    exact ⟨ps, hc, hlogs.moved h.sound.head p⟩
  · intro e he
    change (n.mBlockStateDb.insert 0 _)[e.blk.state]? = _
    rw [Std.ExtTreeMap.getElem?_insert, if_neg, h.states e he]
    rw [Std.compare_eq_iff_eq]
    exact fun hzero => hstate e he hzero.symm

end Serves

end Node

end Gpm
