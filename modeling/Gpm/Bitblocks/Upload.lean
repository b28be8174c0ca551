import Gpm.Bitblocks.Stores

namespace Gpm.Bitblocks

open Lib (Keeps)

/-- The member of `upload_file_state` that the write under way is bound to. -/
inductive UploadStage
  | sendBlock
  | cleanup (urn : List UInt8)
  | deleted
  deriving DecidableEq

/-- An `upload_file_state`, with what is left of `in`. -/
structure Upload where
  inp : List UInt8
  len : ℕ
  mf : Metafile
  bfKey : List UInt8
  bf : Blowfish
  curBlock : List UInt8
  payto : List UInt8
  stage : UploadStage := .sendBlock
  told : Option (List UInt8 × Bool) := none

variable (E : Externals)

def uploadBlock (connected : Bool) (payto data : List UInt8) : M Unit :=
  if connected then modify (Node.send (.storeBlock payto data))
  else throw (.exception "No connections")

def sendBlock (connected ec : Bool) (u : Upload) : M Upload :=
  if ec then
    return { u with stage := .deleted, told := some ("Error".toUTF8.toList, true) }
  else if u.len > 0 then do
    let data ← throwing (u.bf.encrypt (readInto (resize (blockSize u.len) u.curBlock) u.inp))
    uploadBlock connected u.payto data
    return { u with
      inp := u.inp.drop (blockSize u.len)
      len := (u.len + 2 ^ 64 - data.length) % 2 ^ 64
      mf := { u.mf with blocks := u.mf.blocks ++ [E.hashSha1 data] }
      curBlock := data
      stage := .sendBlock }
  else do
    let data ← throwing (u.bf.encrypt (metaData E u.mf))
    uploadBlock connected u.payto data
    return { u with
      curBlock := data, stage := .cleanup (urnOf E u.bfKey (E.hashSha1 data)) }

def cleanup (ec : Bool) (urn : List UInt8) (u : Upload) : Upload :=
  { u with stage := .deleted, told := some (urn, ec) }

def uploadFile (connected : Bool) (disk : List UInt8 → Option InFile)
    (payto filename : List UInt8) : M Upload :=
  match disk filename with
  | none => throw (.exception "file '%1%' does not exist")
  | some file => do
    let bfKey := bfKeyOf E filename
    let bf ← throwing (Blowfish.start E.tables bfKey)
    sendBlock E connected false {
      inp := file.content
      len := file.content.length
      mf := { name := E.filename filename, size := UInt64.ofNat file.content.length }
      bfKey := bfKey
      bf := bf
      curBlock := resize (1024 * 1024) []
      payto := payto }

/-- The write under way is over, `handle_write_complete` is called; meanwhile the node goes on. -/
inductive UploadEvent
  | written (connected ec : Bool)
  | event (e : Event)

def Upload.step (u : Upload) : UploadEvent → M Upload
  | .written connected ec =>
    match u.stage with
    | .sendBlock => sendBlock E connected ec u
    | .cleanup urn => return cleanup ec urn u
    | .deleted => return u
  | .event e => do
    modify fun n => Bitblocks.step E n e
    return u

def Upload.run (u : Upload) : List UploadEvent → M Upload
  | [] => return u
  | e :: es => do
    let u ← Upload.step E u e
    Upload.run u es

section Steps

variable (payto filename content : List UInt8)

def Upload.sending (k : ℕ) (curBlock : List UInt8) : Upload where
  inp := content.drop (k * (1024 * 1024))
  len := (content.drop (k * (1024 * 1024))).length
  mf := ⟨E.filename filename, UInt64.ofNat content.length,
    ((dataBlocks E filename content).take k).map E.hashSha1⟩
  bfKey := bfKeyOf E filename
  bf := cipherOf E filename
  curBlock := curBlock
  payto := payto

@[simp] theorem Upload.inp_sending (k : ℕ) (curBlock : List UInt8) :
    (sending E payto filename content k curBlock).inp = content.drop (k * (1024 * 1024)) := rfl

@[simp] theorem Upload.len_sending (k : ℕ) (curBlock : List UInt8) :
    (sending E payto filename content k curBlock).len =
      (content.drop (k * (1024 * 1024))).length := rfl

@[simp] theorem Upload.bf_sending (k : ℕ) (curBlock : List UInt8) :
    (sending E payto filename content k curBlock).bf = cipherOf E filename := by
  simp only [sending]

@[simp] theorem Upload.curBlock_sending (k : ℕ) (curBlock : List UInt8) :
    (sending E payto filename content k curBlock).curBlock = curBlock := rfl

def fileUrn : List UInt8 :=
  urnOf E (bfKeyOf E filename) (E.hashSha1 (metaBlock E filename content))

inductive Upload.At : List (List UInt8) → Upload → Prop
  | sending {k : ℕ} (curBlock : List UInt8) (hle : k ≤ pieceCount content.length)
      (hcut : k * (1024 * 1024) ≤ content.length ∨ content.length % 8 = 0) :
      At ((dataBlocks E filename content).take k) (sending E payto filename content k curBlock)
  | overrun {sent : List (List UInt8)} {u : Upload} (hstage : u.stage = .sendBlock)
      (htold : u.told = none) (hlow : 2 ^ 64 - 7 ≤ u.len) (hhigh : u.len < 2 ^ 64) : At sent u
  | closing {u : Upload} (h8 : content.length % 8 = 0)
      (hstage : u.stage = .cleanup (fileUrn E filename content)) (htold : u.told = none) :
      At (fileBlocks E filename content) u
  | closed {u : Upload} (ec : Bool) (h8 : content.length % 8 = 0) (hstage : u.stage = .deleted)
      (htold : u.told = some (fileUrn E filename content, ec)) :
      At (fileBlocks E filename content) u
  | failed {sent : List (List UInt8)} {u : Upload} (hstage : u.stage = .deleted)
      (htold : u.told = some ("Error".toUTF8.toList, true)) : At sent u

variable {E payto filename content} {n : Node} {u : Upload} {k : ℕ}

theorem getElem?_pieces (size m : ℕ) (l : List UInt8) (h : k < m) :
    (pieces size m l)[k]? = some ((l.drop (k * size)).take size) := by
  induction m generalizing k l with
  | zero => cases h
  | succ m ih =>
    cases k with
    | zero => rw [pieces, Nat.zero_mul]; rfl
    | succ k =>
      rw [pieces, List.getElem?_cons_succ, ih _ (Nat.lt_of_succ_lt_succ h), List.drop_drop,
        Nat.succ_mul, Nat.add_comm]

theorem getElem?_dataBlocks (h : k < pieceCount content.length) :
    (dataBlocks E filename content)[k]? = some ((cipherOf E filename).encrypted
      ((content.drop (k * (1024 * 1024))).take (1024 * 1024))) := by
  rw [dataBlocks, List.getElem?_map, getElem?_pieces _ _ _ h, Option.map_some]

theorem length_dataBlocks :
    (dataBlocks E filename content).length = pieceCount content.length := by
  rw [dataBlocks, List.length_map, length_pieces]

theorem sendBlock_step {data : List UInt8} (hpos : 0 < u.len)
    (hencrypt : u.bf.encrypt (readInto (resize (blockSize u.len) u.curBlock) u.inp) = .ok data) :
    sendBlock E true false u n = .ok { u with
      inp := u.inp.drop (blockSize u.len)
      len := (u.len + 2 ^ 64 - data.length) % 2 ^ 64
      mf := { u.mf with blocks := u.mf.blocks ++ [E.hashSha1 data] }
      curBlock := data
      stage := .sendBlock } (n.send (.storeBlock u.payto data)) := by
  rw [sendBlock, if_neg Bool.false_ne_true, if_pos hpos, Lib.bind_ok (throwing_ok hencrypt)]
  rfl

theorem sendBlock_last {data : List UInt8} (hzero : u.len = 0)
    (hencrypt : u.bf.encrypt (metaData E u.mf) = .ok data) :
    sendBlock E true false u n = .ok { u with
      curBlock := data, stage := .cleanup (urnOf E u.bfKey (E.hashSha1 data)) }
      (n.send (.storeBlock u.payto data)) := by
  rw [sendBlock, if_neg Bool.false_ne_true, if_neg (by omega), Lib.bind_ok (throwing_ok hencrypt)]
  rfl

theorem sendBlock_failed (connected : Bool) : sendBlock E connected true u n =
    .ok { u with stage := .deleted, told := some ("Error".toUTF8.toList, true) } n := rfl

theorem connected_of_sendBlock {connected : Bool} {u' : Upload} {n' : Node}
    (h : sendBlock E connected false u n = .ok u' n') : connected = true := by
  cases connected with
  | true => rfl
  | false =>
    rw [sendBlock, if_neg Bool.false_ne_true] at h
    split at h
    · obtain ⟨data, n₁, -, h⟩ := Lib.of_bind_ok h
      obtain ⟨_, n₂, h, -⟩ := Lib.of_bind_ok h
      cases h
    · obtain ⟨data, n₁, -, h⟩ := Lib.of_bind_ok h
      obtain ⟨_, n₂, h, -⟩ := Lib.of_bind_ok h
      cases h

theorem sendBlock_sending (curBlock : List UInt8) (hfits : content.length < 2 ^ 63)
    (hlt : k < pieceCount content.length)
    (hcut : (k + 1) * (1024 * 1024) ≤ content.length ∨ content.length % 8 = 0) :
    ∃ data, (dataBlocks E filename content)[k]? = some data ∧
      sendBlock E true false (.sending E payto filename content k curBlock) n =
        .ok (.sending E payto filename content (k + 1) data) (n.send (.storeBlock payto data)) := by
  refine ⟨_, getElem?_dataBlocks hlt, ?_⟩
  have hlen : (content.drop (k * (1024 * 1024))).length = content.length - k * (1024 * 1024) :=
    List.length_drop
  have hpos : 0 < (content.drop (k * (1024 * 1024))).length := by
    unfold pieceCount at hlt
    omega
  have hsize : blockSize (content.drop (k * (1024 * 1024))).length =
      min (1024 * 1024) (content.drop (k * (1024 * 1024))).length := by
    unfold blockSize
    omega
  have hread : readInto (resize (blockSize (content.drop (k * (1024 * 1024))).length) curBlock)
      (content.drop (k * (1024 * 1024))) =
        (content.drop (k * (1024 * 1024))).take (1024 * 1024) := by
    rw [readInto_resize (by omega), List.take_eq_take_iff]
    omega
  have hwhole : Blowfish.Whole ((content.drop (k * (1024 * 1024))).take (1024 * 1024)) := by
    constructor <;> rw [List.length_take] <;> omega
  have hdrop : (content.drop (k * (1024 * 1024))).drop
      (blockSize (content.drop (k * (1024 * 1024))).length) =
        content.drop ((k + 1) * (1024 * 1024)) := by
    rw [List.drop_drop, List.drop_eq_drop_iff]
    omega
  have hrest : ((content.drop (k * (1024 * 1024))).length + 2 ^ 64 -
      ((cipherOf E filename).encrypted
        ((content.drop (k * (1024 * 1024))).take (1024 * 1024))).length) % 2 ^ 64 =
        (content.drop ((k + 1) * (1024 * 1024))).length := by
    rw [Blowfish.length_encrypted hwhole, List.length_take, List.length_drop (i := (k + 1) * _)]
    omega
  have hblocks : ((dataBlocks E filename content).take k).map E.hashSha1 ++
      [E.hashSha1 ((cipherOf E filename).encrypted
        ((content.drop (k * (1024 * 1024))).take (1024 * 1024)))] =
        ((dataBlocks E filename content).take (k + 1)).map E.hashSha1 := by
    rw [List.take_add_one (i := k), getElem?_dataBlocks hlt, List.map_append]
    rfl
  have hencrypt : (cipherOf E filename).encrypt
      (readInto (resize (blockSize (content.drop (k * (1024 * 1024))).length) curBlock)
        (content.drop (k * (1024 * 1024)))) = .ok ((cipherOf E filename).encrypted
          ((content.drop (k * (1024 * 1024))).take (1024 * 1024))) := by
    rw [hread, Blowfish.encrypt_of_whole hwhole]
  have hstep := sendBlock_step (E := E) (n := n)
    (u := .sending E payto filename content k curBlock) (by rwa [Upload.len_sending])
    (by rwa [Upload.inp_sending, Upload.len_sending, Upload.bf_sending, Upload.curBlock_sending])
  rw [hstep]
  simp only [Upload.sending, hdrop, hrest, hblocks]

theorem sendBlock_metafile (curBlock : List UInt8) (hk : k = pieceCount content.length) :
    sendBlock E true false (.sending E payto filename content k curBlock) n =
      .ok { Upload.sending E payto filename content k curBlock with
          curBlock := metaBlock E filename content
          stage := .cleanup (fileUrn E filename content) }
        (n.send (.storeBlock payto (metaBlock E filename content))) := by
  have hend : (content.drop (k * (1024 * 1024))).length = 0 := by
    rw [List.length_drop, hk]
    unfold pieceCount
    omega
  have hmf : (Upload.sending E payto filename content k curBlock).mf =
      metafileOf E filename content := by
    rw [Upload.sending, metafileOf, List.take_of_length_le]
    rw [length_dataBlocks, hk]
  apply sendBlock_last (u := .sending E payto filename content k curBlock)
  · rwa [Upload.len_sending]
  · rw [hmf, Upload.bf_sending, Blowfish.encrypt_of_whole whole_metaData, metaBlock]

theorem sendBlock_padded {curBlock : List UInt8} {n' : Node}
    (hfits : content.length < 2 ^ 63) (hlt : k < pieceCount content.length)
    (hlast : content.length < (k + 1) * (1024 * 1024)) (h8 : content.length % 8 ≠ 0)
    (hok : sendBlock E true false (.sending E payto filename content k curBlock) n = .ok u n') :
    (u.stage = .sendBlock ∧ u.told = none ∧ 2 ^ 64 - 7 ≤ u.len ∧ u.len < 2 ^ 64) ∧
      ∃ data, n' = n.send (.storeBlock payto data) := by
  have hlen : (content.drop (k * (1024 * 1024))).length = content.length - k * (1024 * 1024) :=
    List.length_drop
  have hpos : 0 < (content.drop (k * (1024 * 1024))).length := by
    unfold pieceCount at hlt
    omega
  have hsize : blockSize (content.drop (k * (1024 * 1024))).length =
      ((content.drop (k * (1024 * 1024))).length + 7) / 8 * 8 := by
    unfold blockSize
    omega
  have hwhole : Blowfish.Whole (readInto
      (resize (blockSize (content.drop (k * (1024 * 1024))).length) curBlock)
      (content.drop (k * (1024 * 1024)))) := by
    rw [Blowfish.Whole, length_readInto, length_resize]
    omega
  have hencrypt : (Upload.sending E payto filename content k curBlock).bf.encrypt (readInto
      (resize (blockSize (Upload.sending E payto filename content k curBlock).len)
        (Upload.sending E payto filename content k curBlock).curBlock)
      (Upload.sending E payto filename content k curBlock).inp) =
      .ok ((cipherOf E filename).encrypted (readInto
        (resize (blockSize (content.drop (k * (1024 * 1024))).length) curBlock)
        (content.drop (k * (1024 * 1024))))) := by
    rw [Upload.inp_sending, Upload.len_sending, Upload.bf_sending, Upload.curBlock_sending,
      Blowfish.encrypt_of_whole hwhole]
  have hstep := sendBlock_step (E := E) (n := n) (by rwa [Upload.len_sending]) hencrypt
  rw [hstep] at hok
  cases hok
  refine ⟨⟨rfl, rfl, ?_, Nat.mod_lt _ (by decide)⟩, _, rfl⟩
  simp only [Upload.len_sending]
  rw [Blowfish.length_encrypted hwhole, length_readInto, length_resize]
  omega

theorem sendBlock_overrun (connected : Bool) (hlow : 2 ^ 64 - 7 ≤ u.len)
    (hhigh : u.len < 2 ^ 64) :
    ∃ e, sendBlock E connected false u n = .error e n := by
  have hsize : blockSize u.len = 0 := by
    unfold blockSize
    omega
  have hwhole : ¬ Blowfish.Whole (readInto (resize (blockSize u.len) u.curBlock) u.inp) := by
    intro h
    rw [Blowfish.Whole, length_readInto, length_resize] at h
    exact h.1 hsize
  rw [sendBlock, if_neg Bool.false_ne_true, if_pos (by omega),
    Lib.bind_error (throwing_error (Blowfish.encrypt_of_not_whole hwhole))]
  exact ⟨_, rfl⟩

theorem Upload.At.sendBlock {sent : List (List UInt8)} {connected ec : Bool} {u' : Upload}
    {n' : Node} (hfits : content.length < 2 ^ 63) (h : At E payto filename content sent u)
    (hstage : u.stage = .sendBlock)
    (hok : Bitblocks.sendBlock E connected ec u n = .ok u' n') :
    ∃ more, At E payto filename content (sent ++ more) u' ∧
      n' = more.foldl (fun n data => n.send (.storeBlock payto data)) n := by
  cases ec with
  | true =>
    rw [sendBlock_failed] at hok
    cases hok
    exact ⟨[], .failed rfl rfl, rfl⟩
  | false =>
    cases connected_of_sendBlock hok
    cases h with
    | @sending k curBlock hle hcut =>
      by_cases hlt : k < pieceCount content.length
      · by_cases hnext : (k + 1) * (1024 * 1024) ≤ content.length ∨ content.length % 8 = 0
        · obtain ⟨data, hdata, hsend⟩ := sendBlock_sending curBlock hfits hlt hnext
          rw [hsend] at hok
          cases hok
          have htake : (dataBlocks E filename content).take k ++ [data] =
              (dataBlocks E filename content).take (k + 1) := by
            rw [List.take_add_one (i := k), hdata]
            rfl
          refine ⟨[data], ?_, rfl⟩
          rw [htake]
          exact .sending data hlt hnext
        · obtain ⟨⟨hstage', htold, hlow, hhigh⟩, data, hn'⟩ :=
            sendBlock_padded hfits hlt (by omega) (fun h8 => hnext (Or.inr h8)) hok
          exact ⟨[data], .overrun hstage' htold hlow hhigh, hn'⟩
      · have hk : k = pieceCount content.length := by omega
        have h8 : content.length % 8 = 0 := by
          unfold pieceCount at hk
          omega
        rw [sendBlock_metafile curBlock hk] at hok
        cases hok
        have hall : (dataBlocks E filename content).take k ++ [metaBlock E filename content] =
            fileBlocks E filename content := by
          rw [List.take_of_length_le (by rw [length_dataBlocks, hk]), fileBlocks]
        refine ⟨[metaBlock E filename content], ?_, rfl⟩
        rw [hall]
        exact .closing h8 rfl rfl
    | overrun hstage' htold hlow hhigh =>
      obtain ⟨e, herr⟩ := sendBlock_overrun (E := E) (n := n) true hlow hhigh
      rw [herr] at hok
      cases hok
    | closing h8 hstage' htold =>
      rw [hstage] at hstage'
      cases hstage'
    | closed ec h8 hstage' htold =>
      rw [hstage] at hstage'
      cases hstage'
    | failed hstage' htold =>
      rw [hstage] at hstage'
      cases hstage'

end Steps

section Runs

variable {E : Externals} {payto filename : List UInt8} {disk : List UInt8 → Option InFile}
  {file : InFile} {n n' : Node} {u u' : Upload} {base : List (List UInt8 × List UInt8)}

theorem uploads_foldl_send (sent : List (List UInt8)) (n : Node) :
    (sent.foldl (fun n data => n.send (.storeBlock payto data)) n).uploads =
      n.uploads ++ sent.map fun data => (payto, data) := by
  induction sent generalizing n with
  | nil => exact (List.append_nil _).symm
  | cons data sent ih =>
    have hsend : (n.send (.storeBlock payto data)).uploads = n.uploads ++ [(payto, data)] := by
      rw [Node.uploads, Node.send, List.filterMap_append]
      rfl
    rw [List.foldl_cons, ih, hsend, List.append_assoc, List.map_cons, List.singleton_append]

theorem uploads_step (n : Node) (e : Event) : (step E n e).uploads = n.uploads := by
  obtain ⟨b, -, -, hstep⟩ | ⟨hquiet, -⟩ := step_cases E n e
  · rw [hstep]
    rfl
  · exact hquiet.uploads

def Uploading (E : Externals) (payto filename content : List UInt8)
    (base : List (List UInt8 × List UInt8)) (u : Upload) (n : Node) : Prop :=
  ∃ sent, Upload.At E payto filename content sent u ∧
    n.uploads = base ++ sent.map fun data => (payto, data)

namespace Uploading

theorem sendBlock {connected ec : Bool} (h : Uploading E payto filename file.content base u n)
    (hstage : u.stage = .sendBlock) (hok : sendBlock E connected ec u n = .ok u' n') :
    Uploading E payto filename file.content base u' n' := by
  obtain ⟨sent, hat, huploads⟩ := h
  obtain ⟨more, hat', rfl⟩ := hat.sendBlock file.fits hstage hok
  exact ⟨_, hat', by rw [uploads_foldl_send, huploads, List.map_append, List.append_assoc]⟩

theorem step {e : UploadEvent} (h : Uploading E payto filename file.content base u n)
    (hok : Upload.step E u e n = .ok u' n') :
    Uploading E payto filename file.content base u' n' := by
  cases e with
  | written connected ec =>
    cases hstage : u.stage with
    | sendBlock =>
      simp only [Upload.step, hstage] at hok
      exact h.sendBlock hstage hok
    | cleanup urn =>
      simp only [Upload.step, hstage] at hok
      cases hok
      obtain ⟨sent, hat, huploads⟩ := h
      refine ⟨sent, ?_, huploads⟩
      cases hat with
      | sending => cases hstage
      | overrun hstage' => rw [hstage'] at hstage; cases hstage
      | closing h8 hstage' =>
        rw [hstage'] at hstage
        cases hstage
        exact .closed ec h8 rfl rfl
      | closed ec h8 hstage' => rw [hstage'] at hstage; cases hstage
      | failed hstage' => rw [hstage'] at hstage; cases hstage
    | deleted =>
      simp only [Upload.step, hstage] at hok
      cases hok
      exact h
  | event e =>
    cases hok
    obtain ⟨sent, hat, huploads⟩ := h
    exact ⟨sent, hat, by rw [uploads_step, huploads]⟩

theorem run {es : List UploadEvent} (h : Uploading E payto filename file.content base u n)
    (hok : Upload.run E u es n = .ok u' n') :
    Uploading E payto filename file.content base u' n' := by
  induction es generalizing u n with
  | nil =>
    cases hok
    exact h
  | cons e es ih =>
    obtain ⟨u₁, n₁, hstep, hok⟩ := Lib.of_bind_ok hok
    exact ih (h.step hstep) hok

end Uploading

theorem uploadFile_eq (connected : Bool) (hdisk : disk filename = some file) (n : Node) :
    uploadFile E connected disk payto filename n = sendBlock E connected false
      (.sending E payto filename file.content 0 (resize (1024 * 1024) [])) n := by
  rw [uploadFile, hdisk]
  simp only
  rw [Lib.bind_ok (throwing_ok (start_bfKeyOf filename)), Upload.sending]
  simp only [Nat.zero_mul, List.drop_zero, List.take_zero, List.map_nil]

theorem uploading_start {connected : Bool} (hdisk : disk filename = some file)
    (hok : uploadFile E connected disk payto filename n = .ok u n') :
    Uploading E payto filename file.content n.uploads u n' := by
  rw [uploadFile_eq connected hdisk] at hok
  have hat : Upload.At E payto filename file.content []
      (.sending E payto filename file.content 0 (resize (1024 * 1024) [])) :=
    .sending _ (Nat.zero_le _) (Or.inl (by rw [Nat.zero_mul]; exact Nat.zero_le _))
  have hstart : Uploading E payto filename file.content n.uploads
      (.sending E payto filename file.content 0 (resize (1024 * 1024) [])) n :=
    ⟨[], hat, (List.append_nil _).symm⟩
  exact hstart.sendBlock rfl hok

theorem Uploading.done {text : List UInt8}
    (h : Uploading E payto filename file.content base u n) (htold : u.told = some (text, false)) :
    file.content.length % 8 = 0 ∧ text = fileUrn E filename file.content ∧
      n.uploads = base ++ (fileBlocks E filename file.content).map fun data => (payto, data) := by
  obtain ⟨sent, hat, huploads⟩ := h
  cases hat with
  | sending => cases htold
  | overrun hstage htold' => rw [htold'] at htold; cases htold
  | closing h8 hstage htold' => rw [htold'] at htold; cases htold
  | closed ec h8 hstage htold' =>
    rw [htold'] at htold
    cases htold
    exact ⟨h8, rfl, huploads⟩
  | failed hstage htold' => rw [htold'] at htold; cases htold

theorem run_written {connected ec : Bool} (hstage : u.stage = .sendBlock) (es : List UploadEvent) :
    Upload.run E u (.written connected ec :: es) n =
      (sendBlock E connected ec u >>= fun u => Upload.run E u es) n := by
  simp only [Upload.run, Upload.step, hstage]

theorem sendBlock_run (hfits : file.content.length < 2 ^ 63) (h8 : file.content.length % 8 = 0)
    {j k : ℕ} (hk : k + j = pieceCount file.content.length) (curBlock : List UInt8) (n : Node) :
    ∃ u₁ n₁ u' n', sendBlock E true false
        (.sending E payto filename file.content k curBlock) n = .ok u₁ n₁ ∧
      Upload.run E u₁ (List.replicate (j + 1) (.written true false)) n₁ = .ok u' n' ∧
      u'.told = some (fileUrn E filename file.content, false) := by
  induction j generalizing k curBlock n with
  | zero => exact ⟨_, _, _, _, sendBlock_metafile curBlock hk, rfl, rfl⟩
  | succ j ih =>
    obtain ⟨data, -, hsend⟩ :=
      sendBlock_sending curBlock hfits (by omega : k < pieceCount _) (Or.inr h8)
    obtain ⟨u₁, n₁, u', n', hnext, hrun, htold⟩ :=
      ih (k := k + 1) (by omega) data (n.send (.storeBlock payto data))
    refine ⟨_, _, u', n', hsend, ?_, htold⟩
    rw [List.replicate_succ, run_written rfl, Lib.bind_ok hnext, hrun]

/-- An upload can come to its end without an error exactly where the file can be imported, and
then it ends with the URN of the import. -/
theorem upload_ends_iff (hdisk : disk filename = some file) (n m : Node) (text : List UInt8) :
    (∃ u₁ n₁ es u' n', uploadFile E true disk payto filename n = .ok u₁ n₁ ∧
        Upload.run E u₁ es n₁ = .ok u' n' ∧ u'.told = some (text, false)) ↔
      ∃ m', importFile E (pieceCount file.content.length + 1) disk filename m = .ok text m' := by
  constructor
  · rintro ⟨u₁, n₁, es, u', n', hstart, hrun, htold⟩
    obtain ⟨h8, rfl, -⟩ := ((uploading_start hdisk hstart).run hrun).done htold
    exact ⟨_, importFile_eq hdisk h8⟩
  · rintro ⟨m', himport⟩
    have h8 : file.content.length % 8 = 0 := by
      by_contra h8
      obtain ⟨e, m'', hfails⟩ := importFile_fails (E := E) (n := m) hdisk h8
        (pieceCount file.content.length + 1)
      rw [hfails] at himport
      cases himport
    rw [importFile_eq hdisk h8] at himport
    cases himport
    obtain ⟨u₁, n₁, u', n', hstart, hrun, htold⟩ :=
      sendBlock_run file.fits h8 (Nat.zero_add _) (resize (1024 * 1024) []) n
    exact ⟨u₁, n₁, _, u', n', (uploadFile_eq true hdisk n).trans hstart, hrun, htold⟩

theorem upload_ends_eight : ∃ u₁ n₁ es u' n',
    uploadFile Wire.externals true (fun _ => some Wire.eightBytes)
    [] Wire.path {} = .ok u₁ n₁ ∧
      Upload.run Wire.externals u₁ es n₁ = .ok u' n' ∧
      u'.told = some (fileUrn Wire.externals Wire.path Wire.eightBytes.content, false) :=
  (@upload_ends_iff Wire.externals [] Wire.path (fun _ => some Wire.eightBytes) Wire.eightBytes rfl
    {} {} _).mpr ⟨_, importFile_eq rfl rfl⟩

/-- What a node has sent to be stored comes to its peer, among whatever else the peer does. -/
def Delivered (n n' : Node) (es : List Event) : Prop :=
  ∀ b ∈ n'.uploads.drop n.uploads.length, Event.receive (.storeBlock b.1 b.2) ∈ es

def Distinct (E : Externals) (filename content : List UInt8) (es : List Event) : Prop :=
  ∀ e ∈ es, ∀ p x, e.stored = some (p, x) → ∀ d ∈ fileBlocks E filename content,
    E.hashSha1 x = E.hashSha1 d → x = d

theorem found_of_delivered {n₀ peer : Node} {es : List Event} {d : List UInt8}
    (huploads : n'.uploads = n₀.uploads ++
      (fileBlocks E filename file.content).map fun data => (payto, data))
    (hdelivered : Delivered n₀ n' es) (hdistinct : Distinct E filename file.content es)
    (hreading : (run E peer es).reading = true) (hd : d ∈ fileBlocks E filename file.content) :
    (run E peer es).blocks[E.hashSha1 d]?.map Block.data = some d := by
  apply run_holds (fun e he p x hx => hdistinct e he p x hx d hd) hreading
  rw [Delivered, huploads, List.drop_left] at hdelivered
  exact Or.inl ⟨_, hdelivered _ (List.mem_map_of_mem hd), payto, rfl⟩

/-- What one node has uploaded, its peer exports, and a third node downloads from that peer. -/
theorem upload_delivered {client peer : Node} {connected : Bool} {es : List UploadEvent}
    {fs : List Event} {u₁ : Upload} {n₁ : Node} {text : List UInt8}
    (hdisk : disk filename = some file)
    (hstart : uploadFile E connected disk payto filename n = .ok u₁ n₁)
    (hrun : Upload.run E u₁ es n₁ = .ok u' n') (htold : u'.told = some (text, false))
    (hdelivered : Delivered n n' fs) (hdistinct : Distinct E filename file.content fs)
    (hpeer : (run E peer fs).reading = true) (hclient : client.reading = true) :
    Session.Exports E (run E peer fs) text (E.filename filename) file.content ∧
      Session.Downloads E client (run E peer fs) text (E.filename filename) file.content := by
  obtain ⟨h8, rfl, huploads⟩ := ((uploading_start hdisk hstart).run hrun).done htold
  have hfound {d : List UInt8} (hd : d ∈ fileBlocks E filename file.content) :=
    found_of_delivered huploads hdelivered hdistinct hpeer hd
  have hopens : Opens E (run E peer fs) (fileUrn E filename file.content)
      (E.hashSha1 (metaBlock E filename file.content)) (cipherOf E filename)
      (metafileOf E filename file.content) :=
    opens_urnOf rfl (hfound (List.mem_append_right _ List.mem_cons_self))
  have hholds : Holds (run E peer fs) (metafileOf E filename file.content).blocks
      (dataBlocks E filename file.content) := by
    rw [Holds, metafileOf, List.forall₂_map_left_iff, List.forall₂_same]
    exact fun d hd => hfound (List.mem_append_left _ hd)
  have hwhole : ∀ d ∈ dataBlocks E filename file.content, Blowfish.Whole d := by
    intro d hd
    obtain ⟨p, hp, rfl⟩ := List.mem_map.mp hd
    exact (whole_of_mem_pieces h8 rfl hp).encrypted
  have hsize : (metafileOf E filename file.content).size.toNat = file.content.length := by
    rw [metafileOf, UInt64.toNat_ofNat', Nat.mod_eq_of_lt]
    exact Nat.lt_of_lt_of_le file.fits (by decide)
  constructor
  · have hexports := (Session.exports_iff hopens hholds).mpr hwhole
    rwa [hsize, decrypted_dataBlocks h8, List.take_length] at hexports
  · obtain ⟨d, hfinished, hmf, hwritten⟩ :=
      Session.finished_after hopens hholds hwhole hclient hpeer
    exact ⟨_, d, hfinished.download, hfinished.closed, by rw [hmf]; rfl,
      hwritten.trans (decrypted_dataBlocks h8)⟩

def stored8 :
    List Event := (fileBlocks Wire.externals Wire.path Wire.eightBytes.content).reverse.map
  fun data => .receive (.storeBlock [] data)

theorem upload_delivered_eight : ∃ text,
    Session.Exports Wire.externals (run Wire.externals {} stored8) text
        (Wire.filename Wire.path) Wire.eightBytes.content ∧
      Session.Downloads Wire.externals {} (run Wire.externals {} stored8) text
        (Wire.filename Wire.path) Wire.eightBytes.content := by
  obtain ⟨u₁, n₁, u', n', hsend, hrun, htold⟩ := @sendBlock_run Wire.externals [] Wire.path
    Wire.eightBytes Wire.eightBytes.fits rfl _ 0 (Nat.zero_add _) (resize (1024 * 1024) []) {}
  let disk : List UInt8 → Option InFile := fun _ => some Wire.eightBytes
  have hdisk : disk Wire.path = some Wire.eightBytes := rfl
  have hstart := (uploadFile_eq true hdisk {}).trans hsend
  have hdone := ((uploading_start hdisk hstart).run hrun).done htold
  have hcollide : NoCollision Wire.externals Wire.path Wire.eightBytes.content :=
    Wire.noCollision_of_nodup (by decide +kernel) (by decide +kernel)
  refine ⟨_, upload_delivered hdisk hstart hrun htold ?_ ?_ ?_ rfl⟩
  · rw [Delivered, hdone.2.2, List.drop_left, List.forall_mem_map]
    exact fun d hd => List.mem_map_of_mem (List.mem_reverse.mpr hd)
  · rintro e he p x hx d hd hhash
    obtain ⟨x', hx', rfl⟩ := List.mem_map.mp he
    cases hx
    exact hcollide _ (List.mem_reverse.mp hx') d hd hhash
  · decide +kernel

end Runs

end Gpm.Bitblocks
