import Std.Data.ExtTreeMap
import Gpm.Crypto.Blowfish
import Gpm.Lib.Stateful

namespace Gpm.Bitblocks

/-- A `sha1_hashcode`. -/
structure Hashcode where
  hash : List UInt8
  size : hash.length = 20
  deriving DecidableEq

namespace Hashcode

def cmp : Hashcode → Hashcode → Ordering := compareOn hash

instance : Std.TransCmp cmp := by unfold cmp; infer_instance

instance : Std.LawfulEqCmp cmp where
  eq_of_compare := by
    rintro ⟨h, _⟩ ⟨h', _⟩ heq
    simpa only [cmp, compareOn, Std.LawfulEqCmp.compare_eq_iff_eq, mk.injEq] using heq

end Hashcode

/-- A `block`; the dates and counts of it are nowhere read. -/
structure Block where
  paytoAddress : List UInt8 := []
  data : List UInt8 := []
  deriving DecidableEq

abbrev BlockDb := Std.ExtTreeMap Hashcode Block Hashcode.cmp

structure Metafile where
  name : List UInt8 := []
  size : UInt64 := 0
  blocks : List Hashcode := []
  deriving DecidableEq

instance : Nontrivial Metafile := ⟨{}, { size := 1 }, by decide⟩

structure Externals where
  hashSha1 : List UInt8 → Hashcode
  superFastHash : List UInt8 → UInt32
  base64Encode : List UInt8 → List UInt8
  base64Decode : List UInt8 → List UInt8
  base64Decode_encode : ∀ bs, base64Decode (base64Encode bs) = bs
  /-- `raw::pack` and `raw::unpack`. -/
  metafile : Lib.Format Metafile
  /-- `scm_auiInitP` and `scm_auiInitS`. -/
  tables : Blowfish
  /-- `path::filename`. -/
  filename : List UInt8 → List UInt8

inductive Fault
  | exception (message : String)
  /-- `raw::unpack` of bytes which are no such value. -/
  | unpack
  | notAHash
  | diverges
  deriving DecidableEq

namespace Proto

inductive Message
  | createAccount (btcAddress : List UInt8)
  | storeBlock (paytoAddress data : List UInt8)
  | requestBlock (requestId : UInt64) (blockId : Hashcode) (start len : UInt64)
  | reportBlock (requestId : UInt64) (start : UInt64) (data : List UInt8)
  | other (id : UInt16)
  deriving DecidableEq

end Proto

/-- The member of `download_urn_state` that a closure calls. -/
inductive Callback
  | metaBlockComplete
  | blockComplete (i : ℕ)
  deriving DecidableEq

/-- A `pending_request`: its data goes to a download, which is then called back. -/
structure PendingRequest where
  download : ℕ
  close : Callback
  deriving DecidableEq

/-- A `download_urn_state`. -/
structure Download where
  keyMeta : List UInt8
  hc : Hashcode
  bf : Blowfish := ⟨fun _ => 0, fun _ _ => 0⟩
  mf : Metafile := {}
  blkData : List UInt8 := []
  /-- What has been written to `ofile`. -/
  written : List UInt8 := []
  closed : Bool := false

structure Node where
  blocks : BlockDb := ∅
  /-- The keys that `m_blocks.set` was called with. -/
  stored : List Hashcode := []
  remoteBtcAddress : List UInt8 := []
  requests : Std.ExtTreeMap UInt64 PendingRequest compare := ∅
  nextReqId : UInt64 := 0
  reading : Bool := true
  sent : List Proto.Message := []
  downloads : List Download := []

abbrev M := EStateM Fault Node

def throwing {α : Type} : Except String α → M α
  | .ok a => pure a
  | .error message => throw (.exception message)

def Node.set (hc : Hashcode) (b : Block) (n : Node) : Node :=
  { n with blocks := n.blocks.insert hc b, stored := n.stored ++ [hc] }

def Node.storeBlock (hc : Hashcode) (d payto : List UInt8) (n : Node) : Node :=
  n.set hc { paytoAddress := payto, data := d }

def resize (size : ℕ) (data : List UInt8) : List UInt8 :=
  (data ++ List.replicate size 0).take size

namespace Node

variable (n : Node) (hc h : Hashcode) (b : Block)

@[simp] theorem stored_set : (n.set hc b).stored = n.stored ++ [hc] := rfl

@[simp] theorem blocks_set : (n.set hc b).blocks = n.blocks.insert hc b := rfl

@[simp] theorem getElem?_set :
    (n.set hc b).blocks[h]? = if hc = h then some b else n.blocks[h]? := by
  simp only [blocks_set, Std.ExtTreeMap.getElem?_insert, Std.LawfulEqCmp.compare_eq_iff_eq]

end Node

@[simp] theorem length_resize (size : ℕ) (data : List UInt8) :
    (resize size data).length = size := by
  simp [resize]

section Urn

variable (E : Externals)

def separator : UInt8 := 95

/-- What is before the first `_` and what is after it; the whole string twice without one. -/
def splitUrn (keyMeta : List UInt8) : List UInt8 × List UInt8 :=
  if separator ∈ keyMeta then
    (keyMeta.takeWhile (· ≠ separator), (keyMeta.dropWhile (· ≠ separator)).drop 1)
  else (keyMeta, keyMeta)

def bfKeyOf (filename : List UInt8) : List UInt8 :=
  (Nat.toDigits 10 (E.superFastHash filename).toNat).map fun c => UInt8.ofNat c.toNat

def urnOf (bfKey : List UInt8) (hc : Hashcode) : List UInt8 :=
  bfKey ++ [separator] ++ E.base64Encode hc.hash

def metaHash (metaText : List UInt8) : M Hashcode :=
  let hash := E.base64Decode metaText
  if h : hash.length = 20 then pure ⟨hash, h⟩ else throw .notAHash

variable {E}

theorem splitUrn_append {bfKey : List UInt8} (h : separator ∉ bfKey) (rest : List UInt8) :
    splitUrn (bfKey ++ [separator] ++ rest) = (bfKey, rest) := by
  have hall : ∀ b ∈ bfKey, decide (b ≠ separator) = true := fun b hb =>
    decide_eq_true (ne_of_mem_of_not_mem hb h)
  rw [splitUrn, if_pos (by simp), List.append_assoc, List.takeWhile_append_of_pos hall,
    List.dropWhile_append_of_pos hall]
  simp

theorem separator_not_mem_bfKeyOf (filename : List UInt8) : separator ∉ bfKeyOf E filename := by
  intro h
  obtain ⟨c, hc, heq⟩ := List.mem_map.mp h
  have hdigit := Char.isDigit_iff_toNat.mp
    (Nat.isDigit_of_mem_toDigits (by decide) (by decide) hc)
  have hsep : c.toNat % 2 ^ 8 = 95 := by
    rw [← UInt8.toNat_ofNat', heq]
    rfl
  have h9 : '9'.toNat = 57 := rfl
  omega

theorem bfKeyOf_ne_nil (filename : List UInt8) : bfKeyOf E filename ≠ [] := by
  simp [bfKeyOf, Nat.toDigits_ne_nil]

theorem metaHash_base64Encode (hc : Hashcode) (n : Node) :
    metaHash E (E.base64Encode hc.hash) n = .ok hc n := by
  obtain ⟨hash, hsize⟩ := hc
  simp only [metaHash, E.base64Decode_encode, hsize, dite_true]
  rfl

end Urn

end Gpm.Bitblocks
