import Gpm.BlockChain.Verdict
import Gpm.Node.Generation

namespace Gpm

namespace BlockStateDb

theorem of_insert {db : BlockStateDb} {P : Hashcode → BlockState → Prop} {h : Hashcode}
    {bs : BlockState} (hdb : ∀ h bs, db[h]? = some bs → P h bs) (hbs : P h bs) (h' : Hashcode)
    (bs' : BlockState) (hget : (db.insert h bs)[h']? = some bs') : P h' bs' := by
  rw [Std.ExtTreeMap.getElem?_insert] at hget
  split at hget
  · rename_i hkey
    cases hget
    rwa [← Std.LawfulEqCmp.compare_eq_iff_eq.mp hkey]
  · exact hdb h' bs' hget

end BlockStateDb

namespace Node

def ContentAddressed (E : Externals) (n : Node) : Prop :=
  ∀ h bs, n.mBlockStateDb[h]? = some bs → E.hashBlockState bs = h

/-- What a peer sends as the state of its block is what the header says. -/
def Call.SendsOwnState (E : Externals) : Call → Prop
  | .addFullBlock fbs => E.hashBlockState fbs.blkState = fbs.blk.state
  | _ => True

variable {E : Externals} {n n' : Node}

namespace ContentAddressed

theorem insert (hn : n.ContentAddressed E) {h h' : Hashcode} {bs bs' : BlockState}
    (hbs : E.hashBlockState bs = h) (hget : (n.mBlockStateDb.insert h bs)[h']? = some bs') :
    E.hashBlockState bs' = h' :=
  BlockStateDb.of_insert (P := fun h bs => E.hashBlockState bs = h) hn hbs _ _ hget

theorem generated (hn : n.ContentAddressed E) (hgen : Generated E n n') :
    n'.ContentAddressed E := by
  intro h bs hbs
  obtain hold | hnew := hgen.blockState h bs hbs
  · exact hn h bs hold
  · exact hnew.1

theorem start (hn : n.ContentAddressed E) {tried : Bool} {blk : Block} {bs : BlockState}
    (hbs : E.hashBlockState bs = blk.state) (hstart : Starts E tried n blk bs n') :
    n'.ContentAddressed E := by
  obtain ⟨p, -, rfl⟩ := hstart
  exact fun _ _ hget => hn.insert hbs hget

end ContentAddressed

def ownStates (E : Externals) : Rules where
  stores h bs := E.hashBlockState bs = h

theorem contentAddressed_inductive :
    Inductive E (ownStates E) (Sound E) (ContentAddressed E) where
  empty _ _ hbs := by simp at hbs
  generated _ hn hgen := hn.generated hgen
  learn _ hn _ _ := hn
  store _ hn hstore _ _ hget := hn.insert hstore hget
  start _ hn _ hrule hstart := by
    obtain ⟨-, hstore, -⟩ | ⟨t, -, hgenesis⟩ := hrule
    · exact hn.start hstore hstart
    · exact hn.start hgenesis.hashBlockState hstart
  refused _ hn _ _ _ := hn
  appended _ hn _ _ _ := hn
  replaced _ hn _ _ _ := hn

theorem allow_ownStates {clock : Clock} {c : Call} (h : c.SendsOwnState E) :
    (ownStates E).allow E n clock c := by
  apply Rules.allow_of_starts (fun _ _ => trivial) (fun _ _ _ => trivial) fun _ _ => trivial
  rintro fbs rfl
  exact ⟨h, fun _ _ => trivial⟩

/-- Headers stand for the block states they are looked up with, as long as peers send them so. -/
theorem blockStates_addressed (hr : ReachableBy E (fun _ _ c => c.SendsOwnState E) n) :
    n.ContentAddressed E :=
  contentAddressed_inductive.reachable (hr.mono fun _ _ _ h => allow_ownStates h)

def noon : Clock := fun _ => 1000000000

def firstState (E : Externals) : BlockState := ⟨0, [], stateHash E [], []⟩

def blockOn (E : Externals) (db : Database) (prevBlock : Hashcode) (utcTime : UInt32)
    (nonce : UInt64) (ts : List SignedTransaction) : FullBlockState :=
  let applied := Lib.finalState (DbM.applyAll E [] ts (.trx db {}))
  let bs : BlockState := ⟨1, [], stateHash E applied.flat, ts.map E.hashSignedTrx⟩
  { index := 1
    headIndex := 1
    blk := { prevBlock, utcTime, state := E.hashBlockState bs, nonce }
    blkState := bs
    trxs := ts }

theorem hashBlockState_blockOn (E : Externals) (db : Database) (prevBlock : Hashcode)
    (utcTime : UInt32) (nonce : UInt64) (ts : List SignedTransaction) :
    E.hashBlockState (blockOn E db prevBlock utcTime nonce ts).blkState =
      (blockOn E db prevBlock utcTime nonce ts).blk.state := rfl

def firstBlock (E : Externals) : FullBlockState where
  index := 0
  headIndex := 0
  blk := { utcTime := 20, state := E.hashBlockState (firstState E), nonce := 1 }
  blkState := firstState E
  trxs := []

def firstNode : Node :=
  Lib.finalState ((Call.addFullBlock (firstBlock (Wire.externals nonceHash))).run
    (Wire.externals nonceHash) noon {})

theorem firstNode_reachable {allowed : Node → Clock → Call → Prop}
    (h : allowed {} noon (.addFullBlock (firstBlock (Wire.externals nonceHash)))) :
    ReachableBy (Wire.externals nonceHash) allowed firstNode :=
  .call .empty h (Lib.eq_ok_of_returned (by decide +kernel))

theorem reachable_firstNode : Reachable (Wire.externals nonceHash) firstNode :=
  firstNode_reachable trivial

theorem blockStates_addressed_firstNode :
    firstNode.ContentAddressed (Wire.externals nonceHash) :=
  blockStates_addressed (firstNode_reachable rfl)

theorem blockState_misplaced : ¬ ∀ E n, Reachable E n → ContentAddressed E n := by
  intro h
  let fbs : FullBlockState :=
    { index := 0, blk := { utcTime := 20 }, blkState := ⟨0, [], 0, []⟩, trxs := [] }
  have hrun : runAll (Wire.externals nonceHash) noon [.addFullBlock fbs] {} = .ok () _ :=
    Lib.eq_ok_of_returned (by decide +kernel)
  have hbs := h _ _ (ReachableBy.empty.runAll (fun _ _ _ => trivial) hrun) 0 fbs.blkState
    (by decide +kernel)
  revert hbs
  decide +kernel

end Node

end Gpm
