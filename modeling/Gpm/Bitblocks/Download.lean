import Gpm.Bitblocks.Export

namespace Gpm.Bitblocks

namespace Node

def send (m : Proto.Message) (n : Node) : Node := { n with sent := n.sent ++ [m] }

def requestBlock (hc : Hashcode) (preq : PendingRequest) (n : Node) : Node :=
  { n with
    nextReqId := n.nextReqId + 1
    requests := n.requests.insert (n.nextReqId + 1) preq
    sent := n.sent ++ [.requestBlock (n.nextReqId + 1) hc 0 (-1)] }

def setDownload (k : ℕ) (d : Download) (n : Node) : Node :=
  { n with downloads := n.downloads.set k d }

def proceed (k i : ℕ) (d : Download) (n : Node) : Node :=
  match d.mf.blocks[i]? with
  | some hc => (n.setDownload k d).requestBlock hc ⟨k, .blockComplete i⟩
  | none => n.setDownload k { d with closed := true }

end Node

variable (E : Externals)

def metaBlockComplete (k : ℕ) (d : Download) : M Unit := do
  let bf ← throwing (Blowfish.start E.tables (splitUrn d.keyMeta).1)
  let data ← throwing (bf.decrypt d.blkData)
  let mf ← unpackMetafile E data
  modify (Node.proceed k 0 { d with bf := bf, blkData := data, mf := mf })

def writeBlock (d : Download) : M Download :=
  if d.blkData.length > 0 then do
    let data ← throwing (d.bf.decrypt d.blkData)
    return { d with blkData := data, written := d.written ++ data }
  else return d

def blockComplete (k i : ℕ) (d : Download) : M Unit := do
  let d ← writeBlock d
  modify (Node.proceed k (i + 1) d)

def close (preq : PendingRequest) (d : Download) : M Unit :=
  match preq.close with
  | .metaBlockComplete => metaBlockComplete E preq.download d
  | .blockComplete i => blockComplete preq.download i d

def handleReportBlock (requestId : UInt64) (data : List UInt8) : M Unit := do
  match (← get).requests[requestId]? with
  | none => return
  | some preq =>
    match (← get).downloads[preq.download]? with
    | none => return
    | some d => do
      modify (Node.setDownload preq.download { d with blkData := data })
      close E preq { d with blkData := data }
      modify fun n => { n with requests := n.requests.erase requestId }

def handleMessage : Proto.Message → M Unit
  | .createAccount btcAddress => modify fun n => { n with remoteBtcAddress := btcAddress }
  | .storeBlock paytoAddress data =>
    modify (Node.storeBlock (E.hashSha1 data) data paytoAddress)
  | .requestBlock requestId blockId start _ => do
    let data ← getData blockId []
    modify (Node.send (.reportBlock requestId start data))
  | .reportBlock requestId _ data => handleReportBlock E requestId data
  | .other _ => return

def downloadUrn (keyMeta : List UInt8) : M Unit := do
  let hc ← metaHash E (splitUrn keyMeta).2
  let k := (← get).downloads.length
  modify fun n => { n with downloads := n.downloads ++ [{ keyMeta := keyMeta, hc := hc }] }
  modify (Node.requestBlock hc ⟨k, .metaBlockComplete⟩)

/-- An exception leaves `read_message`, and no more messages are read. -/
def receive (m : Proto.Message) (n : Node) : Node :=
  if n.reading then
    match handleMessage E m n with
    | .ok _ n' => n'
    | .error _ n' => { n' with reading := false }
  else n

section Spec

variable {E} {n : Node} {d : Download}

theorem decrypted_nil (bf : Blowfish) : bf.decrypted [] = [] := rfl

theorem writeBlock_of_whole (h : Blowfish.Whole d.blkData) :
    writeBlock d n = .ok { d with
      blkData := d.bf.decrypted d.blkData
      written := d.written ++ d.bf.decrypted d.blkData } n := by
  rw [writeBlock, if_pos (Nat.pos_of_ne_zero h.1),
    Lib.bind_ok (throwing_ok (Blowfish.decrypt_of_whole h))]
  rfl

theorem writeBlock_of_nil (h : d.blkData = []) :
    writeBlock d n = .ok { d with written := d.written ++ d.bf.decrypted d.blkData } n := by
  have hwritten : d.written ++ d.bf.decrypted d.blkData = d.written := by
    rw [h, decrypted_nil, List.append_nil]
  rw [writeBlock, if_neg (by rw [h]; exact Nat.lt_irrefl 0), hwritten]
  rfl

theorem writeBlock_cases (d : Download) (n : Node) :
    (∃ e, writeBlock d n = .error e n) ∨
      (d.blkData = [] ∨ Blowfish.Whole d.blkData) ∧
        ∃ data, writeBlock d n =
          .ok { d with blkData := data, written := d.written ++ d.bf.decrypted d.blkData } n := by
  by_cases hwhole : Blowfish.Whole d.blkData
  · exact Or.inr ⟨Or.inr hwhole, _, writeBlock_of_whole hwhole⟩
  · by_cases hnil : d.blkData = []
    · exact Or.inr ⟨Or.inl hnil, _, writeBlock_of_nil hnil⟩
    · rw [writeBlock, if_pos (List.length_pos_of_ne_nil hnil)]
      exact Or.inl ⟨_, Lib.bind_error (throwing_error (Blowfish.decrypt_of_not_whole hwhole))⟩

theorem metaBlockComplete_ok {bf : Blowfish} {mf : Metafile} {rest : List UInt8} (k : ℕ)
    (hstart : Blowfish.start E.tables (splitUrn d.keyMeta).1 = .ok bf)
    (hwhole : Blowfish.Whole d.blkData)
    (hunpack : E.metafile.unpack (bf.decrypted d.blkData) = some (mf, rest)) :
    metaBlockComplete E k d n = .ok () (n.proceed k 0
      { d with bf := bf, blkData := bf.decrypted d.blkData, mf := mf }) := by
  rw [metaBlockComplete, Lib.bind_ok (throwing_ok hstart),
    Lib.bind_ok (throwing_ok (Blowfish.decrypt_of_whole hwhole)),
    Lib.bind_ok (unpackMetafile_of_some hunpack)]
  rfl

theorem metaBlockComplete_cases (k : ℕ) (d : Download) (n : Node) :
    (∃ e, metaBlockComplete E k d n = .error e n) ∨
      ∃ bf data mf rest, Blowfish.start E.tables (splitUrn d.keyMeta).1 = .ok bf ∧
        Blowfish.Whole d.blkData ∧
        E.metafile.unpack (bf.decrypted d.blkData) = some (mf, rest) ∧
        metaBlockComplete E k d n =
          .ok () (n.proceed k 0 { d with bf := bf, blkData := data, mf := mf }) := by
  cases hstart : Blowfish.start E.tables (splitUrn d.keyMeta).1 with
  | error message => exact Or.inl ⟨_, Lib.bind_error (throwing_error hstart)⟩
  | ok bf =>
    by_cases hwhole : Blowfish.Whole d.blkData
    · cases hunpack : E.metafile.unpack (bf.decrypted d.blkData) with
      | none =>
        rw [metaBlockComplete, Lib.bind_ok (throwing_ok hstart),
          Lib.bind_ok (throwing_ok (Blowfish.decrypt_of_whole hwhole))]
        refine Or.inl ⟨.unpack, Lib.bind_error ?_⟩
        rw [unpackMetafile, hunpack]
        rfl
      | some found =>
        exact Or.inr ⟨bf, _, found.1, found.2, rfl, hwhole, hunpack,
          metaBlockComplete_ok k hstart hwhole hunpack⟩
    · rw [metaBlockComplete, Lib.bind_ok (throwing_ok hstart)]
      exact Or.inl ⟨_, Lib.bind_error (throwing_error (Blowfish.decrypt_of_not_whole hwhole))⟩

end Spec

end Gpm.Bitblocks
