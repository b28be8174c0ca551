import Gpm.Node.BlockStates

namespace Gpm

section

variable {hashSha1 : Block → Hashcode} {bc : BlockChain} {b : Block}

/-- What `validate` asks of a block behind another one with the given hash. -/
structure Follows (hashSha1 : Block → Hashcode) (prevHash : Hashcode) (b : Block) : Prop where
  time : secondsPerBlock ≤ b.utcTime.toNat
  linked : b.prevBlock = prevHash
  work : hashSha1 b ≤ getMaxHash

theorem checked_singleton {prevHash : Hashcode} :
    Checked hashSha1 prevHash [b] ↔ Follows hashSha1 prevHash b := by
  simp only [Checked, and_true]
  exact ⟨fun h => ⟨h.1, h.2.1, h.2.2⟩, fun h => ⟨h.time, h.linked, h.work⟩⟩

theorem validate_singleton : validate hashSha1 [b] ↔ Follows hashSha1 0 b := by
  rw [validate_iff, checked_singleton]
  exact and_iff_right (Nat.one_lt_two_pow (by decide))

theorem getLastD_map_hash (h : bc ≠ []) :
    (bc.map hashSha1).getLastD 0 = hashSha1 (bc.getLastD default) := by
  rw [List.getLastD_eq_getLast?, List.getLastD_eq_getLast?, List.getLast?_map,
    List.getLast?_eq_some_getLast h, Option.map_some, Option.getD_some, Option.getD_some]

theorem validate_concat (h : bc ≠ []) (hvalid : validate hashSha1 bc) :
    validate hashSha1 (bc ++ [b]) ↔
      bc.length + 1 < 2 ^ 32 ∧ Follows hashSha1 (hashSha1 (bc.getLastD default)) b := by
  have hchecked := (validate_iff.mp hvalid).2
  rw [validate_iff, checked_concat, getLastD_map_hash h, checked_singleton, List.length_append,
    List.length_singleton]
  apply and_congr_right
  intro _
  exact and_iff_right hchecked

end

namespace Node

variable {E : Externals} {n n' : Node}

def Minable (E : Externals) (t : UInt32) : Prop :=
  ∀ state : Hashcode,
    E.hashBlock (generate E.hashBlock { utcTime := t, state } getMaxHash).2 ≤ getMaxHash

structure StartsValid (E : Externals) (n : Node) (clock : Clock) (c : Call) : Prop where
  own : n.mBlockChain = [] → ∀ i,
    secondsPerBlock ≤ (seconds (clock i)).toNat ∧ Minable E (seconds (clock i))
  received : n.mBlockChain = [] → ∀ fbs, c = .addFullBlock fbs → fbs.index = 0 →
    Follows E.hashBlock 0 fbs.blk

def ValidChain (E : Externals) (n : Node) : Prop :=
  n.mBlockChain = [] ∨ validate E.hashBlock n.mBlockChain

def validStarts (E : Externals) : Rules where
  starts _ blk _ := Follows E.hashBlock 0 blk
  generates t := secondsPerBlock ≤ t.toNat ∧ Minable E t

theorem Genesis.follows {t : UInt32} {tried : Bool} {blk : Block} {bs : BlockState}
    (h : Genesis E t tried n blk bs) (ht : secondsPerBlock ≤ t.toNat ∧ Minable E t) :
    Follows E.hashBlock 0 blk := by
  have hwork := ht.2 (E.hashBlockState bs)
  rw [h.mined] at hwork
  obtain ⟨nonce, rfl⟩ := h.blk_eq
  exact ⟨ht.1, rfl, hwork⟩

theorem validChain_inductive : Inductive E (validStarts E) (Sound E) (ValidChain E) where
  empty := Or.inl rfl
  generated _ hn hgen := by
    rw [ValidChain, hgen.blockChain]
    exact hn
  learn _ hn _ _ := hn
  store _ hn _ := hn
  start _ hn hnil hrule hstart := by
    rw [ValidChain, hstart.blockChain hnil, validate_singleton]
    obtain ⟨-, -, hfollows⟩ | ⟨t, ht, hgenesis⟩ := hrule
    · exact Or.inr hfollows
    · exact Or.inr (hgenesis.follows ht)
  refused _ hn _ _ _ := hn
  appended _ _ _ hext _ := Or.inr hext.valid
  replaced _ _ _ hcomp _ := Or.inr hcomp.valid

theorem StartsValid.allow {clock : Clock} {c : Call} (h : StartsValid E n clock c) :
    (validStarts E).allow E n clock c :=
  Rules.allow_of_starts (fun _ _ => trivial) (fun _ _ _ => trivial) h.own
    fun fbs hc => ⟨trivial, fun hnil hfirst => h.received hnil fbs hc hfirst⟩

/-- On a valid chain a successor is judged by itself. -/
theorem chain_valid (hr : ReachableBy E (StartsValid E) n) :
    n.mBlockChain = [] ∨ validate E.hashBlock n.mBlockChain ∧
      ∀ blk, validate E.hashBlock (n.mBlockChain ++ [blk]) ↔
        n.mBlockChain.length + 1 < 2 ^ 32 ∧ Follows E.hashBlock (E.hashBlock n.back) blk := by
  by_cases hnil : n.mBlockChain = []
  · exact Or.inl hnil
  · have hvalid :=
        (validChain_inductive.reachable (hr.mono fun _ _ _ h => h.allow)).resolve_left hnil
    exact Or.inr ⟨hvalid, fun blk => validate_concat hnil hvalid⟩

theorem minable_nonceHash (t : UInt32) : Minable (Wire.externals nonceHash) t := by
  intro state
  unfold generate
  rw [generateLoop_of_le]
  · exact Nat.zero_le _
  · exact Nat.zero_le _

theorem noon_past (i : ℕ) : secondsPerBlock ≤ (seconds (noon i)).toNat := by
  change secondsPerBlock ≤ (seconds 1000000000).toNat
  decide +kernel

theorem chain_valid_firstNode : firstNode.mBlockChain ≠ [] ∧
    (firstNode.mBlockChain = [] ∨
      validate (Wire.externals nonceHash).hashBlock firstNode.mBlockChain ∧
      ∀ blk, validate (Wire.externals nonceHash).hashBlock (firstNode.mBlockChain ++ [blk]) ↔
        firstNode.mBlockChain.length + 1 < 2 ^ 32 ∧ Follows (Wire.externals nonceHash).hashBlock
          ((Wire.externals nonceHash).hashBlock firstNode.back) blk) := by
  refine ⟨by decide +kernel, chain_valid (firstNode_reachable ?_)⟩
  constructor
  · exact fun _ i => ⟨noon_past i, minable_nonceHash _⟩
  · intro _ fbs hfbs _
    cases hfbs
    exact ⟨by decide, rfl, by decide +kernel⟩

theorem chain_invalid : ¬ ∀ E n,
    ReachableBy E (fun _ clock _ => ∀ i, secondsPerBlock ≤ (seconds (clock i)).toNat) n →
      n.ValidChain E := by
  intro h
  let fbs : FullBlockState :=
    { index := 0, blk := { prevBlock := 5, utcTime := 20 },
      blkState := ⟨0, [], 0, []⟩, trxs := [] }
  have hrun : runAll (Wire.externals nonceHash) noon [.addFullBlock fbs] {} = .ok () _ :=
    Lib.eq_ok_of_returned (by decide +kernel)
  have hvalid := h _ _ (ReachableBy.empty.runAll (fun _ _ _ => noon_past) hrun)
  revert hvalid
  unfold ValidChain
  decide +kernel

end Node

end Gpm
