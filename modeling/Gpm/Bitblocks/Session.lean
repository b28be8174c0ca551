import Gpm.Bitblocks.Download

namespace Gpm.Bitblocks

structure Session where
  client : Node
  peer : Node
  delivered : ℕ

namespace Session

variable (E : Externals)

def exchange (s : Session) : Session :=
  match s.client.sent[s.delivered]? with
  | none => s
  | some m =>
    let peer := receive E m s.peer
    { client := (peer.sent.drop s.peer.sent.length).foldl (fun n m => receive E m n) s.client
      peer := peer
      delivered := s.delivered + 1 }

/-- `download_urn` on a connection on which nothing is under way. -/
def start (keyMeta : List UInt8) (client peer : Node) : Session :=
  ⟨Lib.finalState (downloadUrn E keyMeta client), peer, client.sent.length⟩

def after (s : Session) (k : ℕ) : Session := (exchange E)^[k] s

structure Waiting (s : Session) (k : ℕ) (d : Download) (hc : Hashcode) (cb : Callback) :
    Prop where
  request : s.client.requests[s.client.nextReqId]? = some ⟨k, cb⟩
  download : s.client.downloads[k]? = some d
  reading : s.client.reading = true
  listening : s.peer.reading = true
  sent : s.client.sent[s.delivered]? = some (.requestBlock s.client.nextReqId hc 0 (-1))
  last : s.client.sent.length = s.delivered + 1
  closed : d.closed = false

structure Finished (s : Session) (k : ℕ) (d : Download) : Prop where
  download : s.client.downloads[k]? = some d
  quiet : s.client.sent[s.delivered]? = none
  closed : d.closed = true

variable {E} {s : Session} {k : ℕ} {d d' : Download} {hc : Hashcode} {cb : Callback}
  {data : List UInt8}

theorem exchange_of_quiet (h : s.client.sent[s.delivered]? = none) : exchange E s = s := by
  rw [exchange, h]

theorem receive_requestBlock {n : Node} (h : n.reading = true) (id start len : UInt64)
    (hdata : n.blocks[hc]?.map Block.data = some data) :
    receive E (.requestBlock id hc start len) n = n.send (.reportBlock id start data) := by
  rw [receive, if_pos h, handleMessage, Lib.bind_ok (getData_of_some hdata)]
  rfl

def answered (n : Node) (id : UInt64) : Node := { n with requests := n.requests.erase id }

theorem receive_reportBlock {n n' : Node} (h : n.reading = true) {id : UInt64} {start : UInt64}
    (hreq : n.requests[id]? = some ⟨k, cb⟩) (hd : n.downloads[k]? = some d)
    (hclose : close E ⟨k, cb⟩ { d with blkData := data }
      (n.setDownload k { d with blkData := data }) = .ok () n') :
    receive E (.reportBlock id start data) n = answered n' id := by
  rw [receive, if_pos h, handleMessage, handleReportBlock, Lib.get_bind, hreq]
  simp only
  rw [Lib.get_bind, hd]
  simp only
  rw [Lib.modify_bind, Lib.bind_ok hclose]
  rfl

theorem Waiting.exchange (h : Waiting s k d hc cb)
    (hdata : s.peer.blocks[hc]?.map Block.data = some data) {n' : Node}
    (hclose : close E ⟨k, cb⟩ { d with blkData := data }
      (s.client.setDownload k { d with blkData := data }) = .ok () n') :
    Session.exchange E s = ⟨answered n' s.client.nextReqId,
      s.peer.send (.reportBlock s.client.nextReqId 0 data), s.delivered + 1⟩ := by
  rw [Session.exchange, h.sent]
  simp only
  rw [receive_requestBlock h.listening _ _ _ hdata, Node.send, List.drop_left,
    List.foldl_cons, List.foldl_nil, receive_reportBlock h.reading h.request h.download hclose]

def At (s : Session) (k i : ℕ) (d : Download) : Prop :=
  match d.mf.blocks[i]? with
  | some hc => Waiting s k d hc (.blockComplete i)
  | none => Finished s k d

theorem Waiting.proceeded (h : Waiting s k d hc cb) (i : ℕ) (d₁ : Download) (peer : Node)
    (hpeer : peer.reading = true) (hopen : d'.closed = false) :
    ∃ d₂, At
      ⟨answered ((s.client.setDownload k d₁).proceed k i d') s.client.nextReqId, peer,
        s.delivered + 1⟩ k i d₂ ∧
      d₂.mf = d'.mf ∧ d₂.bf = d'.bf ∧ d₂.written = d'.written := by
  have hlt := (List.getElem?_eq_some_iff.mp h.download).1
  cases hnext : d'.mf.blocks[i]? with
  | none =>
    refine ⟨{ d' with closed := true }, ?_, rfl, rfl, rfl⟩
    rw [At, hnext, Node.proceed, hnext]
    constructor
    case download =>
      change ((s.client.downloads.set k d₁).set k _)[k]? = _
      rw [List.set_set]
      exact List.getElem?_set_self hlt
    case quiet => exact List.getElem?_eq_none_iff.mpr (Nat.le_of_eq h.last)
    case closed => rfl
  | some hc' =>
    refine ⟨d', ?_, rfl, rfl, rfl⟩
    rw [At, hnext, Node.proceed, hnext]
    constructor
    case request =>
      change ((s.client.requests.insert (s.client.nextReqId + 1) _).erase
        s.client.nextReqId)[s.client.nextReqId + 1]? = _
      rw [Std.ExtTreeMap.getElem?_erase, if_neg, Std.ExtTreeMap.getElem?_insert_self]
      rw [Std.LawfulEqCmp.compare_eq_iff_eq]
      intro heq
      have hid := congrArg UInt64.toNat heq
      rw [UInt64.toNat_add] at hid
      have hone : (1 : UInt64).toNat = 1 := rfl
      omega
    case download =>
      change ((s.client.downloads.set k d₁).set k _)[k]? = _
      rw [List.set_set]
      exact List.getElem?_set_self hlt
    case reading => exact h.reading
    case listening => exact hpeer
    case sent =>
      change (s.client.sent ++ [_])[s.delivered + 1]? = _
      rw [← h.last]
      exact List.getElem?_concat_length
    case last =>
      change (s.client.sent ++ [_]).length = _
      rw [List.length_append, h.last]
      rfl
    case closed => exact hopen

theorem Waiting.exchange_at (h : Waiting s k d hc cb)
    (hdata : s.peer.blocks[hc]?.map Block.data = some data) {i : ℕ}
    (hclose : close E ⟨k, cb⟩ { d with blkData := data }
      (s.client.setDownload k { d with blkData := data }) =
        .ok () ((s.client.setDownload k { d with blkData := data }).proceed k i d'))
    (hopen : d'.closed = false) :
    ∃ d₂, At (Session.exchange E s) k i d₂ ∧ d₂.mf = d'.mf ∧ d₂.bf = d'.bf ∧
      d₂.written = d'.written ∧ (Session.exchange E s).peer.blocks = s.peer.blocks := by
  obtain ⟨d₂, hat, hmf, hbf, hwritten⟩ := h.proceeded i { d with blkData := data }
    (s.peer.send (.reportBlock s.client.nextReqId 0 data)) h.listening hopen
  rw [h.exchange hdata hclose]
  exact ⟨d₂, hat, hmf, hbf, hwritten, rfl⟩

theorem after_succ (s : Session) (j : ℕ) : after E s (j + 1) = exchange E (after E s j) :=
  Function.iterate_succ_apply' _ _ _

section Honest

variable {client peer : Node} {keyMeta : List UInt8} {bf : Blowfish} {mf : Metafile}
  {ds : List (List UInt8)}

theorem downloadUrn_eq (hopens : Opens E peer keyMeta hc bf mf) (client : Node) :
    downloadUrn E keyMeta client =
      .ok () (Node.requestBlock hc ⟨client.downloads.length, .metaBlockComplete⟩
        { client with downloads := client.downloads ++ [{ keyMeta := keyMeta, hc := hc }] }) := by
  rw [downloadUrn, Lib.bind_ok (hopens.hash client)]
  rfl

theorem waiting_start (hopens : Opens E peer keyMeta hc bf mf) (hclient : client.reading = true)
    (hpeer : peer.reading = true) :
    Waiting (start E keyMeta client peer) client.downloads.length { keyMeta := keyMeta, hc := hc }
      hc .metaBlockComplete := by
  rw [start, downloadUrn_eq hopens]
  constructor
  case request => exact Std.ExtTreeMap.getElem?_insert_self
  case download => exact List.getElem?_concat_length
  case reading => exact hclient
  case listening => exact hpeer
  case sent => exact List.getElem?_concat_length
  case last => exact List.length_append
  case closed => rfl

theorem at_after (hopens : Opens E peer keyMeta hc bf mf) (hholds : Holds peer mf.blocks ds)
    (hwhole : ∀ data ∈ ds, Blowfish.Whole data) (hclient : client.reading = true)
    (hpeer : peer.reading = true) {j : ℕ} (hj : j ≤ mf.blocks.length) :
    ∃ d, At (after E (start E keyMeta client peer) (j + 1)) client.downloads.length j d ∧
      d.mf = mf ∧ d.bf = bf ∧ d.written = ((ds.take j).map bf.decrypted).flatten ∧
      (after E (start E keyMeta client peer) (j + 1)).peer.blocks = peer.blocks := by
  induction j with
  | zero =>
    have hwait := waiting_start hopens hclient hpeer
    obtain ⟨data, rest, hget, hdata, hunpack⟩ := hopens.found
    obtain ⟨d, hat, hmf, hbf, hwritten, hblocks⟩ := hwait.exchange_at hget
      (metaBlockComplete_ok _ hopens.key hdata hunpack) rfl
    exact ⟨d, hat, hmf, hbf, hwritten, hblocks⟩
  | succ j ih =>
    obtain ⟨d, hat, hmf, hbf, hwritten, hblocks⟩ := ih (Nat.le_of_succ_le hj)
    have hlt : j < ds.length := hholds.length_eq ▸ hj
    have hget := hholds.get hj hlt
    have hnext : d.mf.blocks[j]? = some mf.blocks[j] := by
      rw [hmf]
      exact List.getElem?_eq_getElem hj
    rw [At, hnext] at hat
    rw [← hblocks] at hget
    obtain ⟨d₂, hat₂, hmf₂, hbf₂, hwritten₂, hblocks₂⟩ :=
        hat.exchange_at (i := j + 1) hget
      (Lib.bind_ok (writeBlock_of_whole (hwhole _ (List.get_mem ds ⟨j, hlt⟩)))) hat.closed
    rw [after_succ]
    refine ⟨d₂, hat₂, hmf₂.trans hmf, hbf₂.trans hbf, ?_, hblocks₂.trans hblocks⟩
    rw [hwritten₂, hwritten, hbf, List.take_add_one, List.getElem?_eq_getElem hlt,
      List.map_append, List.flatten_append]
    simp

theorem finished_after (hopens : Opens E peer keyMeta hc bf mf) (hholds : Holds peer mf.blocks ds)
    (hwhole : ∀ data ∈ ds, Blowfish.Whole data) (hclient : client.reading = true)
    (hpeer : peer.reading = true) :
    ∃ d, Finished (after E (start E keyMeta client peer) (mf.blocks.length + 1))
        client.downloads.length d ∧
      d.mf = mf ∧ d.written = (ds.map bf.decrypted).flatten := by
  obtain ⟨d, hat, hmf, -, hwritten, -⟩ :=
    at_after hopens hholds hwhole hclient hpeer (Nat.le_refl _)
  rw [At, hmf, List.getElem?_eq_none (Nat.le_refl _)] at hat
  rw [hholds.length_eq, List.take_length] at hwritten
  exact ⟨d, hat, hmf, hwritten⟩

theorem after_of_quiet {j : ℕ} (h : (after E s j).client.sent[(after E s j).delivered]? = none)
    (i : ℕ) : after E s (j + i) = after E s j := by
  induction i with
  | zero => rfl
  | succ i ih => rw [Nat.add_succ, after_succ, ih, exchange_of_quiet h]

theorem written_of_closed (hopens : Opens E peer keyMeta hc bf mf)
    (hholds : Holds peer mf.blocks ds) (hwhole : ∀ data ∈ ds, Blowfish.Whole data)
    (hclient : client.reading = true) (hpeer : peer.reading = true) {j : ℕ}
    (hd : (after E (start E keyMeta client peer) j).client.downloads[client.downloads.length]? =
      some d) (hclosed : d.closed = true) : d.written = (ds.map bf.decrypted).flatten := by
  rcases Nat.lt_or_ge mf.blocks.length j with hj | hj
  · obtain ⟨d', hfinished, -, hwritten⟩ := finished_after hopens hholds hwhole hclient hpeer
    obtain ⟨i, rfl⟩ := Nat.exists_eq_add_of_lt hj
    rw [Nat.add_right_comm, after_of_quiet hfinished.quiet, hfinished.download,
      Option.some.injEq] at hd
    rw [← hd, hwritten]
  · have hopen : d.closed = false := by
      cases j with
      | zero =>
        have hwait := waiting_start hopens hclient hpeer
        rw [after, Function.iterate_zero, id, hwait.download, Option.some.injEq] at hd
        rw [← hd]
      | succ j =>
        obtain ⟨d', hat, hmf, -⟩ :=
          at_after hopens hholds hwhole hclient hpeer (Nat.le_of_succ_le hj)
        rw [At, hmf, List.getElem?_eq_getElem hj] at hat
        rw [hat.download, Option.some.injEq] at hd
        rw [← hd]
        exact hat.closed
    rw [hopen] at hclosed
    cases hclosed

def Downloads (E : Externals) (client peer : Node) (keyMeta name written : List UInt8) : Prop :=
  ∃ j d, (after E (start E keyMeta client peer) j).client.downloads[client.downloads.length]? =
    some d ∧ d.closed = true ∧ d.mf.name = name ∧ d.written = written

def Exports (E : Externals) (n : Node) (keyMeta name written : List UInt8) : Prop :=
  ∃ n', exportFile E keyMeta n = .ok (name, written) n'

theorem exports_iff (hopens : Opens E peer keyMeta hc bf mf) (hholds : Holds peer mf.blocks ds) :
    Exports E peer keyMeta mf.name (((ds.map bf.decrypted).flatten).take mf.size.toNat) ↔
      ∀ data ∈ ds, Blowfish.Whole data := by
  obtain ⟨b, hexport⟩ := hopens.exportFile
  constructor
  case mp =>
    rintro ⟨n', hok⟩ data hdata
    by_contra hwhole
    obtain ⟨e, n'', hfails⟩ := exportLoop_fails bf mf.size.toNat 0 b [] hholds hdata hwhole
    rw [hexport, Lib.bind_error hfails] at hok
    cases hok
  case mpr =>
    intro hwhole
    refine ⟨peer, ?_⟩
    rw [hexport, Lib.bind_ok (exportLoop_of_holds hholds hwhole (Nat.zero_le _)), Nat.sub_zero]
    rfl

theorem not_downloads (hopens : Opens E peer keyMeta hc bf mf)
    (hholds : Holds peer mf.blocks ds) (hwhole : ∀ data ∈ ds, Blowfish.Whole data)
    (hclient : client.reading = true) (hpeer : peer.reading = true)
    (hlt : mf.size.toNat < ((ds.map bf.decrypted).flatten).length) :
    ¬Downloads E client peer keyMeta mf.name
      (((ds.map bf.decrypted).flatten).take mf.size.toNat) := by
  rintro ⟨j, d, hd, hclosed, -, hwritten⟩
  rw [written_of_closed hopens hholds hwhole hclient hpeer hd hclosed] at hwritten
  have hlen := congrArg List.length hwritten
  rw [List.length_take] at hlen
  omega

/-- A download is never cut to the size of the file. -/
theorem downloads_exports_iff (hopens : Opens E peer keyMeta hc bf mf)
    (hholds : Holds peer mf.blocks ds) (hclient : client.reading = true)
    (hpeer : peer.reading = true)
    (htotal : mf.size.toNat ≤ ((ds.map bf.decrypted).flatten).length) :
    Downloads E client peer keyMeta mf.name
          (((ds.map bf.decrypted).flatten).take mf.size.toNat) ∧
        Exports E peer keyMeta mf.name (((ds.map bf.decrypted).flatten).take mf.size.toNat) ↔
      (∀ data ∈ ds, Blowfish.Whole data) ∧
        ((ds.map bf.decrypted).flatten).length = mf.size.toNat := by
  rw [exports_iff hopens hholds, and_comm, and_congr_right_iff]
  intro hwhole
  constructor
  case mp =>
    intro hdownloads
    apply Nat.le_antisymm _ htotal
    by_contra hlt
    exact not_downloads hopens hholds hwhole hclient hpeer (Nat.lt_of_not_le hlt) hdownloads
  case mpr =>
    intro hlen
    obtain ⟨d, hfinished, hmf, hwritten⟩ := finished_after hopens hholds hwhole hclient hpeer
    refine ⟨_, d, hfinished.download, hfinished.closed, by rw [hmf], ?_⟩
    rw [hwritten, ← hlen, List.take_length]

end Honest

section

open Wire

def block8 : List UInt8 := (cipherOf externals path).encrypted eightBytes.content

def mf8 (size : UInt64) : Metafile := ⟨filename path, size, [checksum block8]⟩

def meta8 (size : UInt64) : List UInt8 :=
  (cipherOf externals path).encrypted (metaData externals (mf8 size))

def urn8 (size : UInt64) : List UInt8 :=
  urnOf externals (bfKeyOf externals path) (checksum (meta8 size))

def peer8 (size : UInt64) : Node := [block8, meta8 size].foldl (storeData externals) {}

theorem length_pack8 (size : UInt64) : (Wire.metafile.pack (mf8 size)).length = 37 := by
  rfl

theorem length_block8 : block8.length = 8 := Blowfish.length_encrypted (by decide)

theorem length_blocks8 (size : UInt64) : [block8, meta8 size].map List.length = [8, 40] := by
  have hmeta : (meta8 size).length = 40 := by
    rw [meta8, Blowfish.length_encrypted whole_metaData, metaData, length_resize]
    change ((Wire.metafile.pack (mf8 size)).length + 7) / 8 * 8 = 40
    rw [length_pack8]
  rw [List.map_cons, List.map_singleton, length_block8, hmeta]

theorem found8 (size : UInt64) {data : List UInt8} (h : data ∈ [block8, meta8 size]) :
    (peer8 size).blocks[checksum data]?.map Block.data = some data := by
  have hlen := length_blocks8 size
  have hget := getElem?_foldl (E := externals) [block8, meta8 size] {}
    (fun a ha hhash => eq_of_checksum (by rw [hlen]; decide) (by rw [hlen]; decide) ha h hhash)
    (Or.inl h)
  exact congrArg (Option.map Block.data) hget

theorem opens8 (size : UInt64) : Opens externals (peer8 size) (urn8 size) (checksum (meta8 size))
    (cipherOf externals path) (mf8 size) :=
  opens_urnOf rfl (found8 size (by simp))

theorem holds8 (size : UInt64) : Holds (peer8 size) (mf8 size).blocks [block8] :=
  .cons (found8 size List.mem_cons_self) .nil

theorem decrypted8 : (([block8].map (cipherOf externals path).decrypted).flatten) =
    eightBytes.content := by
  rw [List.map_singleton, List.flatten_singleton]
  exact Blowfish.decrypted_encrypted (by decide)

theorem downloads_exports_eight : (Downloads externals {} (peer8 8) (urn8 8) (mf8 8).name
      (([block8].map (cipherOf externals path).decrypted).flatten.take (mf8 8).size.toNat) ∧
    Exports externals (peer8 8) (urn8 8) (mf8 8).name
      (([block8].map (cipherOf externals path).decrypted).flatten.take (mf8 8).size.toNat)) :=
  (downloads_exports_iff (opens8 8) (holds8 8) rfl rfl (by rw [decrypted8]; decide)).mpr
    ⟨by decide +kernel, by rw [decrypted8]; decide⟩

theorem not_downloads_padded :
    Opens externals (peer8 5) (urn8 5) (checksum (meta8 5)) (cipherOf externals path) (mf8 5) ∧
      Holds (peer8 5) (mf8 5).blocks [block8] ∧
      Exports externals (peer8 5) (urn8 5) (mf8 5).name
        (([block8].map (cipherOf externals path).decrypted).flatten.take (mf8 5).size.toNat) ∧
      ¬Downloads externals {} (peer8 5) (urn8 5) (mf8 5).name
        (([block8].map (cipherOf externals path).decrypted).flatten.take (mf8 5).size.toNat) := by
  have hwhole : ∀ data ∈ [block8], Blowfish.Whole data := by decide +kernel
  refine ⟨opens8 5, holds8 5, (exports_iff (opens8 5) (holds8 5)).mpr hwhole, ?_⟩
  exact not_downloads (opens8 5) (holds8 5) hwhole rfl rfl (by rw [decrypted8]; decide)

end

end Session

end Gpm.Bitblocks
