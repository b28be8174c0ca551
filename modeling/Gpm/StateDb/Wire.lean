import Mathlib.Data.List.Sort
import Gpm.StateDb.Record

namespace Gpm.Wire

open Lib (Format)
open Lib.Format

def u16 : Format UInt16 :=
  (fixed 2).map (fun n => ⟨n.toNat, n.toNat_lt⟩) (fun n => some (UInt16.ofNat n)) (by simp)

def short : Format ℕ := nat 1 (by decide)

def u32 : Format UInt32 := short.map UInt32.toNat (fun n => some (UInt32.ofNat n)) (by simp)
def u64 : Format UInt64 := short.map UInt64.toNat (fun n => some (UInt64.ofNat n)) (by simp)

def publicKey : Format PublicKey :=
  short.map BitVec.toNat (fun n => some (BitVec.ofNat 2048 n))
    (fun k => congrArg some ((k.ofNat_toNat 2048).trans k.setWidth_eq))

def index : Format Index := optNat 1 (by decide)
def hashcode : Format Hashcode := short
def string : Format Name := bytes 1 (by decide)

def block : Format Block :=
  (hashcode.seq (u16.seq (u32.seq (hashcode.seq u64)))).map
    (fun b => (b.prevBlock, b.version, b.utcTime, b.state, b.nonce))
    (fun (p, v, t, s, n) => some ⟨p, v, t, s, n⟩) (fun _ => rfl)

def transferLog : Format TransferLog :=
  (u64.seq (index.seq (index.seq (index.seq (u64.seq (u64.seq
    (index.seq (index.seq index)))))))).map
    (fun t => (t.amount, t.typeName, t.fromName, t.toName, t.newFromBal, t.newToBal,
      t.lastFromTrx, t.lastToTrx, t.trxIdx))
    (fun (a, t, f, u, fb, tb, lf, lt, i) => some ⟨a, t, f, u, fb, tb, lf, lt, i⟩) (fun _ => rfl)

def id : Record → UInt16
  | .defineName .. => 1
  | .updateName .. => 2
  | .transferLog .. => 3
  | .startTrx .. => 4
  | .endBlock .. => 5

def data (t : UInt16) : Format {d : Record // id d = t} :=
  if h1 : t = 1 then
    (string.seq publicKey).map
      (fun | ⟨.defineName n k, _⟩ => (n, k) | _ => ([], 0))
      (fun (n, k) => some ⟨.defineName n k, h1.symm⟩)
      (by rintro ⟨_ | _ | _ | _ | _, h⟩ <;> first | rfl | (subst h1; cases h))
  else if h2 : t = 2 then
    (index.seq (publicKey.seq index)).map
      (fun | ⟨.updateName i k l, _⟩ => (i, k, l) | _ => (none, 0, none))
      (fun (i, k, l) => some ⟨.updateName i k l, h2.symm⟩)
      (by rintro ⟨_ | _ | _ | _ | _, h⟩ <;> first | rfl | (subst h2; cases h))
  else if h3 : t = 3 then
    transferLog.map
      (fun | ⟨.transferLog tl, _⟩ => tl | _ => ⟨0, none, none, none, 0, 0,
        none, none, none⟩)
      (fun tl => some ⟨.transferLog tl, h3.symm⟩)
      (by rintro ⟨_ | _ | _ | _ | _, h⟩ <;> first | rfl | (subst h3; cases h))
  else if h4 : t = 4 then
    (hashcode.seq u64).map
      (fun | ⟨.startTrx h u, _⟩ => (h, u) | _ => (0, 0))
      (fun (h, u) => some ⟨.startTrx h u, h4.symm⟩)
      (by rintro ⟨_ | _ | _ | _ | _, h⟩ <;> first | rfl | (subst h4; cases h))
  else if h5 : t = 5 then
    (block.seq string).map
      (fun | ⟨.endBlock b g, _⟩ => (b, g) | _ => (default, []))
      (fun (b, g) => some ⟨.endBlock b g, h5.symm⟩)
      (by rintro ⟨_ | _ | _ | _ | _, h⟩ <;> first | rfl | (subst h5; cases h))
  else
    void (by
      rintro ⟨d, h⟩
      cases d <;> simp only [id] at h <;> subst h <;> contradiction)

def stateRecord : Format StateRecord :=
  tagged u16 (fun r => id r.data) (fun t =>
    ((framed 4 (by decide) (data t)).seq (nat 8 (by decide))).map
      (fun r => (⟨r.val.data, r.property⟩, r.val.previous))
      (fun (d, p) => some ⟨⟨d.val, p⟩, d.property⟩) (fun _ => rfl))

theorem stateRecord_pack_ne_nil (r : StateRecord) : stateRecord.pack r ≠ [] := by
  have hid : (u16.pack (id r.data)).length = 2 := length_digits 2 _
  intro h
  have hl := congrArg List.length h
  simp [stateRecord, tagged, hid] at hl

def commandId : Command → ℕ
  | .registerName .. => 0
  | .issue .. => 1
  | .transfer .. => 2
  | .other id => id.toNat + 3

def commandData (t : ℕ) : Format {c : Command // commandId c = t} :=
  if h0 : t = 0 then
    (string.seq publicKey).map
      (fun | ⟨.registerName n k, _⟩ => (n, k) | _ => ([], 0))
      (fun (n, k) => some ⟨.registerName n k, h0.symm⟩)
      (by rintro ⟨_ | _ | _ | _, h⟩ <;> first | rfl | (subst h0; cases h))
  else if h1 : t = 1 then
    string.map
      (fun | ⟨.issue s, _⟩ => s | _ => [])
      (fun s => some ⟨.issue s, h1.symm⟩)
      (by rintro ⟨_ | _ | _ | id, h⟩ <;> first | rfl | (subst h1; simp [commandId] at h))
  else if h2 : t = 2 then
    (u64.seq (string.seq (string.seq string))).map
      (fun | ⟨.transfer tr, _⟩ => (tr.amount, tr.stockName, tr.fromName, tr.toName)
           | _ => (0, [], [], []))
      (fun (a, s, f, u) => some ⟨.transfer ⟨a, s, f, u⟩, h2.symm⟩)
      (by rintro ⟨_ | _ | _ | id, h⟩ <;> first | rfl | (subst h2; simp [commandId] at h))
  else if h3 : (UInt16.ofNat (t - 3)).toNat + 3 = t then
    single ⟨.other (UInt16.ofNat (t - 3)), h3⟩ (by
      rintro ⟨_ | _ | _ | id, h⟩ <;> simp only [commandId] at h <;> subst h <;> simp_all)
  else
    void (by
      rintro ⟨_ | _ | _ | id, h⟩ <;> simp only [commandId] at h <;> subst h <;> simp_all)

def command : Format Command := tagged short commandId commandData

def transaction : Format Transaction :=
  (u64.seq (many 1 (by decide) command)).map (fun t => (t.utcTime, t.commands))
    (fun (u, cs) => some ⟨u, cs⟩) (fun _ => rfl)

def signedTransaction : Format SignedTransaction :=
  (transaction.seq (many 1 (by decide) publicKey)).map (fun t => (t.trx, t.sigs))
    (fun (t, ss) => some ⟨t, ss⟩) (fun _ => rfl)

def blockState : Format BlockState :=
  (u32.seq (string.seq (hashcode.seq (many 1 (by decide) hashcode)))).map
    (fun b => (b.index, b.generatorName, b.stateDb, b.signedTransactions))
    (fun (i, g, s, ts) => some ⟨i, g, s, ts⟩) (fun _ => rfl)

def address (k : PublicKey) : Name := 0xff :: publicKey.pack k

def byTime (a b : Hashcode × SignedTransaction) : Prop := a.2.trx.utcTime ≤ b.2.trx.utcTime

instance : DecidableRel byTime := fun _ _ => inferInstanceAs (Decidable (_ ≤ _))

instance : Std.Total byTime where
  total _ _ := UInt64.le_total _ _

instance : IsTrans _ byTime where
  trans _ _ _ := UInt64.le_trans

def externals (hashBlock : Block → Hashcode) : Externals where
  raw := stateRecord
  pack_ne_nil := stateRecord_pack_ne_nil
  hashTrx := transaction.number
  hashSignedTrx := signedTransaction.number
  hashBlock := hashBlock
  hashBlockState := blockState.number
  hashBytes := string.number
  hashHashes := (many 1 (by decide) hashcode).number
  keyVerify k _ s := s = k
  encodeAddress := address
  validateAddressFormat n := n.head? = some 0xff
  sortByTime := List.insertionSort byTime
  sortByTime_perm := List.perm_insertionSort _
  sortByTime_sorted := List.pairwise_insertionSort byTime

end Gpm.Wire
