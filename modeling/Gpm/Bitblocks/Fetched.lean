import Gpm.Bitblocks.Session

namespace Gpm.Bitblocks

variable (E : Externals)

inductive Event
  | downloadUrn (keyMeta : List UInt8)
  | receive (m : Proto.Message)

def step (n : Node) : Event → Node
  | .downloadUrn keyMeta => Lib.finalState (downloadUrn E keyMeta n)
  | .receive m => receive E m n

def run (n : Node) (es : List Event) : Node := es.foldl (step E) n

structure Fresh (n : Node) : Prop where
  requests : n.requests = ∅
  downloads : n.downloads = []

def Named (d : Download) : Prop := E.base64Decode (splitUrn d.keyMeta).2 = d.hc.hash

/-- The metafile is the one asked for, and so are the first `i` blocks, of which what has been
written is the decryption. -/
structure Fetched (d : Download) (i : ℕ) : Prop where
  named : Named E d
  metafile : ∃ data rest, E.hashSha1 data = d.hc ∧
    Blowfish.start E.tables (splitUrn d.keyMeta).1 = .ok d.bf ∧
    Blowfish.Whole data ∧ E.metafile.unpack (d.bf.decrypted data) = some (d.mf, rest)
  blocks : ∃ ds : List (List UInt8), ds.map E.hashSha1 = d.mf.blocks.take i ∧
    (∀ data ∈ ds, data = [] ∨ Blowfish.Whole data) ∧
    d.written = (ds.map d.bf.decrypted).flatten

def AsAsked (n : Node) : Prop :=
  ∀ d ∈ n.downloads, d.closed = true → Fetched E d d.mf.blocks.length

def asked (d : Download) : Callback → Option Hashcode
  | .metaBlockComplete => some d.hc
  | .blockComplete i => d.mf.blocks[i]?

def Authentic (n : Node) : Event → Prop
  | .receive (.reportBlock requestId _ data) => ∀ preq d, n.requests[requestId]? = some preq →
      n.downloads[preq.download]? = some d → asked d preq.close = some (E.hashSha1 data)
  | _ => True

def AllAuthentic : Node → List Event → Prop
  | _, [] => True
  | n, e :: es => Authentic E n e ∧ AllAuthentic (step E n e) es

def Awaits (d : Download) : Callback → Prop
  | .metaBlockComplete => Named E d ∧ d.written = []
  | .blockComplete i => i < d.mf.blocks.length ∧ Fetched E d i

structure Sound (n : Node) : Prop where
  pending : ∀ (id : UInt64) (preq : PendingRequest), n.requests[id]? = some preq →
    ∃ d, n.downloads[preq.download]? = some d ∧ d.closed = false ∧ Awaits E d preq.close
  alone : ∀ (id id' : UInt64) (preq preq' : PendingRequest), n.requests[id]? = some preq →
    n.requests[id']? = some preq' →
    preq.download = preq'.download → id = id'
  closed : AsAsked E n

section Soundness

variable {E} {n n' : Node} {d d' : Download} {id : UInt64} {preq : PendingRequest}

theorem close_cases {preq : PendingRequest} (hawaits : Awaits E d preq.close)
    (hasked : asked d preq.close = some (E.hashSha1 d.blkData)) (n : Node) :
    (∃ e, close E preq d n = .error e n) ∨
      ∃ i d', close E preq d n = .ok () (n.proceed preq.download i d') ∧
        d'.closed = d.closed ∧ i ≤ d'.mf.blocks.length ∧ Fetched E d' i := by
  obtain ⟨k, cb⟩ := preq
  cases cb with
  | metaBlockComplete =>
    rcases metaBlockComplete_cases (E := E) k d n with hfails |
      ⟨bf, data, mf, rest, hstart, hwhole, hunpack, hok⟩
    · exact Or.inl hfails
    · refine Or.inr ⟨0, _, hok, rfl, Nat.zero_le _, hawaits.1, ?_, ?_⟩
      · exact ⟨d.blkData, rest, (Option.some.inj hasked).symm, hstart, hwhole, hunpack⟩
      · exact ⟨[], rfl, nofun, hawaits.2⟩
  | blockComplete i =>
    obtain ⟨hi, hfetched⟩ := hawaits
    obtain ⟨ds, hhash, hwhole, hwritten⟩ := hfetched.blocks
    rcases writeBlock_cases d n with ⟨e, hfails⟩ | ⟨hdata, data, hok⟩
    · exact Or.inl ⟨e, Lib.bind_error hfails⟩
    · refine Or.inr ⟨i + 1, _, Lib.bind_ok hok, rfl, hi, hfetched.named, hfetched.metafile, ?_⟩
      refine ⟨ds ++ [d.blkData], ?_, ?_, ?_⟩
      · rw [List.map_append, hhash, List.take_add_one]
        change _ = _ ++ (asked d (.blockComplete i)).toList
        rw [hasked]
        rfl
      · intro x hx
        rcases List.mem_append.mp hx with hx | hx
        · exact hwhole x hx
        · rw [List.mem_singleton.mp hx]
          exact hdata
      · change d.written ++ _ = _
        rw [hwritten, List.map_append, List.flatten_append, List.map_singleton,
          List.flatten_singleton]

theorem Sound.of_fresh (h : Fresh n) : Sound E n := by
  constructor
  case pending =>
    intro id preq hreq
    rw [h.requests, Std.ExtTreeMap.getElem?_empty] at hreq
    cases hreq
  case alone =>
    intro id id' preq preq' hreq
    rw [h.requests, Std.ExtTreeMap.getElem?_empty] at hreq
    cases hreq
  case closed =>
    intro d hd
    rw [h.downloads] at hd
    cases hd

theorem Sound.congr (h : Sound E n) (hreq : n'.requests = n.requests)
    (hdown : n'.downloads = n.downloads) : Sound E n' := by
  constructor
  case pending =>
    rw [hreq, hdown]
    exact h.pending
  case alone =>
    rw [hreq]
    exact h.alone
  case closed =>
    rw [AsAsked, hdown]
    exact h.closed

theorem Sound.arrived (h : Sound E n) {k : ℕ} (hd : n.downloads[k]? = some d)
    (data : List UInt8) : Sound E (n.setDownload k { d with blkData := data }) := by
  obtain ⟨hlt, hget⟩ := List.getElem?_eq_some_iff.mp hd
  constructor
  case pending =>
    intro id preq hreq
    obtain ⟨x, hx, hopen, hawaits⟩ := h.pending id preq hreq
    by_cases hk : preq.download = k
    · rw [hk, hd, Option.some.injEq] at hx
      subst hx
      refine ⟨{ d with blkData := data }, ?_, hopen, ?_⟩
      · rw [hk]
        exact List.getElem?_set_self hlt
      · obtain ⟨j, cb⟩ := preq
        cases cb with
        | metaBlockComplete => exact hawaits
        | blockComplete i =>
          exact ⟨hawaits.1, hawaits.2.named, hawaits.2.metafile, hawaits.2.blocks⟩
    · exact ⟨x, (List.getElem?_set_ne (Ne.symm hk)).trans hx, hopen, hawaits⟩
  case alone => exact h.alone
  case closed =>
    intro x hx hclosed
    rcases List.mem_or_eq_of_mem_set hx with hx | rfl
    · exact h.closed x hx hclosed
    · have hfetched := h.closed d (List.mem_of_getElem? hd) hclosed
      exact ⟨hfetched.named, hfetched.metafile, hfetched.blocks⟩

theorem Sound.replaced (h : Sound E n) (hreq : n.requests[id]? = some preq) (id' : UInt64)
    (hdown : n'.downloads = n.downloads.set preq.download d')
    (hreqs : ∀ x p, n'.requests[x]? = some p → id ≠ x ∧ n.requests[x]? = some p ∨
      x = id' ∧ p.download = preq.download ∧ d'.closed = false ∧ Awaits E d' p.close)
    (hclosed : d'.closed = true → Fetched E d' d'.mf.blocks.length) : Sound E n' := by
  obtain ⟨d, hd, -⟩ := h.pending id preq hreq
  obtain ⟨hlt, -⟩ := List.getElem?_eq_some_iff.mp hd
  have hother {x : UInt64} {p : PendingRequest} (hx : id ≠ x ∧ n.requests[x]? = some p) :
      preq.download ≠ p.download := fun heq => hx.1 (h.alone id x preq p hreq hx.2 heq)
  constructor
  case pending =>
    intro x p hp
    rw [hdown]
    rcases hreqs x p hp with hold | ⟨-, hk, hnew⟩
    · obtain ⟨y, hy, hrest⟩ := h.pending x p hold.2
      exact ⟨y, (List.getElem?_set_ne (hother hold)).trans hy, hrest⟩
    · rw [hk]
      exact ⟨d', List.getElem?_set_self hlt, hnew⟩
  case alone =>
    intro x x' p p' hp hp' heq
    rcases hreqs x p hp with hold | ⟨hx, hk, -⟩ <;>
      rcases hreqs x' p' hp' with hold' | ⟨hx', hk', -⟩
    · exact h.alone x x' p p' hold.2 hold'.2 heq
    · exact absurd (hk'.symm.trans heq.symm) (hother hold)
    · exact absurd (hk.symm.trans heq) (hother hold')
    · rw [hx, hx']
  case closed =>
    intro y hy hyclosed
    rw [hdown] at hy
    rcases List.mem_or_eq_of_mem_set hy with hy | rfl
    · exact h.closed y hy hyclosed
    · exact hclosed hyclosed

theorem getElem?_erase_eq_some {requests : Std.ExtTreeMap UInt64 PendingRequest compare}
    {x : UInt64} {p : PendingRequest} (h : (requests.erase id)[x]? = some p) :
    id ≠ x ∧ requests[x]? = some p := by
  rw [Std.ExtTreeMap.getElem?_erase] at h
  split at h
  · cases h
  · rename_i hx
    exact ⟨fun heq => hx (Std.LawfulEqCmp.compare_eq_iff_eq.mpr heq), h⟩

theorem getElem?_insert_eq_some {requests : Std.ExtTreeMap UInt64 PendingRequest compare}
    {x : UInt64} {p : PendingRequest} (h : (requests.insert id preq)[x]? = some p) :
    id = x ∧ preq = p ∨ requests[x]? = some p := by
  rw [Std.ExtTreeMap.getElem?_insert] at h
  split at h
  · rename_i hx
    exact Or.inl ⟨Std.LawfulEqCmp.compare_eq_iff_eq.mp hx, Option.some.inj h⟩
  · exact Or.inr h

theorem Sound.proceeded (h : Sound E n) (hreq : n.requests[id]? = some preq) {i : ℕ}
    (hopen : d'.closed = false) (hi : i ≤ d'.mf.blocks.length) (hfetched : Fetched E d' i) :
    Sound E { n.proceed preq.download i d' with
      requests := (n.proceed preq.download i d').requests.erase id } := by
  cases hnext : d'.mf.blocks[i]? with
  | none =>
    have hproceed : n.proceed preq.download i d' =
        n.setDownload preq.download { d' with closed := true } := by
      rw [Node.proceed, hnext]
    have hend : i = d'.mf.blocks.length :=
      Nat.le_antisymm hi (List.getElem?_eq_none_iff.mp hnext)
    rw [hend] at hfetched
    rw [hproceed]
    apply h.replaced hreq id rfl
    · exact fun x p hp => Or.inl (getElem?_erase_eq_some hp)
    · exact fun _ => ⟨hfetched.named, hfetched.metafile, hfetched.blocks⟩
  | some hc =>
    have hproceed : n.proceed preq.download i d' =
        (n.setDownload preq.download d').requestBlock hc ⟨preq.download, .blockComplete i⟩ := by
      rw [Node.proceed, hnext]
    rw [hproceed]
    apply h.replaced hreq (n.nextReqId + 1) rfl
    · intro x p hp
      obtain ⟨hx, hp⟩ := getElem?_erase_eq_some hp
      rcases getElem?_insert_eq_some hp with ⟨hnew, hpreq⟩ | hold
      · refine Or.inr ⟨hnew.symm, ?_⟩
        rw [← hpreq]
        exact ⟨rfl, hopen, (List.getElem?_eq_some_iff.mp hnext).1, hfetched⟩
      · exact Or.inl ⟨hx, hold⟩
    · intro hclosed
      rw [hopen] at hclosed
      cases hclosed

theorem Sound.handleReportBlock (h : Sound E n) {requestId start : UInt64} {data : List UInt8}
    (hauth : Authentic E n (.receive (.reportBlock requestId start data))) :
    Sound E (Lib.finalState (handleReportBlock E requestId data n)) := by
  rw [Bitblocks.handleReportBlock, Lib.get_bind]
  cases hreq : n.requests[requestId]? with
  | none => exact h
  | some preq =>
    obtain ⟨d, hd, hopen, -⟩ := h.pending requestId preq hreq
    have harrived := h.arrived hd data
    have hget : (n.setDownload preq.download { d with blkData := data }).downloads[preq.download]? =
        some { d with blkData := data } :=
      List.getElem?_set_self (List.getElem?_eq_some_iff.mp hd).1
    obtain ⟨x, hx, -, hawaits⟩ := harrived.pending requestId preq hreq
    rw [hget, Option.some.injEq] at hx
    subst hx
    have hasked : asked { d with blkData := data } preq.close = some (E.hashSha1 data) := by
      rw [← hauth preq d hreq hd]
      cases preq.close <;> rfl
    simp only
    rw [Lib.get_bind, hd]
    simp only
    rw [Lib.modify_bind]
    rcases close_cases hawaits hasked (n.setDownload preq.download { d with blkData := data }) with
      ⟨e, hfails⟩ | ⟨i, d', hok, hclosed, hi, hfetched⟩
    · rw [Lib.bind_error hfails]
      exact harrived
    · rw [Lib.bind_ok hok]
      exact harrived.proceeded hreq (hclosed.trans hopen) hi hfetched

theorem Sound.handleMessage (h : Sound E n) {m : Proto.Message}
    (hauth : Authentic E n (.receive m)) :
    Sound E (Lib.finalState (handleMessage E m n)) := by
  cases m with
  | createAccount btcAddress => exact h.congr rfl rfl
  | storeBlock paytoAddress data => exact h.congr rfl rfl
  | requestBlock requestId blockId start len => exact h.congr rfl rfl
  | reportBlock requestId start data => exact h.handleReportBlock hauth
  | other id => exact h

theorem Sound.receive (h : Sound E n) {m : Proto.Message} (hauth : Authentic E n (.receive m)) :
    Sound E (receive E m n) := by
  have hhandled := h.handleMessage hauth
  rw [Bitblocks.receive]
  split
  · cases hm : Bitblocks.handleMessage E m n with
    | ok u n' =>
      rw [hm] at hhandled
      exact hhandled
    | error e n' =>
      rw [hm] at hhandled
      exact hhandled.congr rfl rfl
  · exact h

theorem Sound.downloadUrn (h : Sound E n) (keyMeta : List UInt8) :
    Sound E (Lib.finalState (downloadUrn E keyMeta n)) := by
  rw [Bitblocks.downloadUrn, metaHash]
  simp only
  split
  · rename_i hsize
    constructor
    case pending =>
      intro x p hp
      rcases getElem?_insert_eq_some hp with ⟨-, rfl⟩ | hold
      · exact ⟨_, List.getElem?_concat_length, rfl, rfl, rfl⟩
      · obtain ⟨d, hd, hrest⟩ := h.pending x p hold
        have hlt := (List.getElem?_eq_some_iff.mp hd).1
        exact ⟨d, (List.getElem?_append_left hlt).trans hd, hrest⟩
    case alone =>
      have hnew {x : UInt64} {p : PendingRequest} (hp : n.requests[x]? = some p) :
          p.download ≠ n.downloads.length := by
        obtain ⟨d, hd, -⟩ := h.pending x p hp
        exact Nat.ne_of_lt (List.getElem?_eq_some_iff.mp hd).1
      intro x x' p p' hp hp' heq
      rcases getElem?_insert_eq_some hp with ⟨hx, rfl⟩ | hold <;>
        rcases getElem?_insert_eq_some hp' with ⟨hx', rfl⟩ | hold'
      · exact hx.symm.trans hx'
      · exact absurd heq.symm (hnew hold')
      · exact absurd heq (hnew hold)
      · exact h.alone x x' p p' hold hold' heq
    case closed =>
      intro d hd hclosed
      rcases List.mem_append.mp hd with hd | hd
      · exact h.closed d hd hclosed
      · rw [List.mem_singleton.mp hd] at hclosed
        cases hclosed
  · exact h

theorem Sound.step (h : Sound E n) {e : Event} (hauth : Authentic E n e) :
    Sound E (step E n e) := by
  cases e with
  | downloadUrn keyMeta => exact h.downloadUrn keyMeta
  | receive m => exact h.receive hauth

theorem Sound.run (h : Sound E n) {es : List Event} (hauth : AllAuthentic E n es) :
    Sound E (run E n es) := by
  induction es generalizing n with
  | nil => exact h
  | cons e es ih => exact ih (h.step hauth.1) hauth.2

/-- The peer decides what a download writes; only where it answers with the data asked for is
the file the one that the URN names. -/
theorem run_fetched (hfresh : Fresh n) {es : List Event} (hauth : AllAuthentic E n es) :
    AsAsked E (run E n es) :=
  ((Sound.of_fresh hfresh).run hauth).closed

end Soundness

section

open Wire Session

def asking8 : Node :=
  Node.requestBlock (checksum (meta8 8)) ⟨0, .metaBlockComplete⟩
    { downloads := [{ keyMeta := urn8 8, hc := checksum (meta8 8) }] }

def opened8 : Download where
  keyMeta := urn8 8
  hc := checksum (meta8 8)
  bf := cipherOf externals path
  mf := mf8 8
  blkData := (cipherOf externals path).decrypted (meta8 8)

def fetching8 : Node :=
  answered (Node.proceed 0 0 opened8 (asking8.setDownload 0
    { keyMeta := urn8 8, hc := checksum (meta8 8), blkData := meta8 8 })) 1

theorem step_downloadUrn8 : step externals {} (.downloadUrn (urn8 8)) = asking8 := by
  rw [step, downloadUrn_eq (opens8 8)]
  rfl

theorem requests_asking8 : asking8.requests[(1 : UInt64)]? = some ⟨0, .metaBlockComplete⟩ :=
  Std.ExtTreeMap.getElem?_insert_self

theorem step_meta8 :
    step externals asking8 (.receive (.reportBlock 1 0 (meta8 8))) = fetching8 := by
  have hwhole : Blowfish.Whole (meta8 8) := whole_metaData.encrypted
  obtain ⟨rest, hunpack⟩ := unpack_metaData externals (mf8 8)
  have hdecrypted : (cipherOf externals path).decrypted (meta8 8) = metaData externals (mf8 8) :=
    Blowfish.decrypted_encrypted whole_metaData
  rw [← hdecrypted] at hunpack
  have hclose := metaBlockComplete_ok (E := externals)
    (d := { keyMeta := urn8 8, hc := checksum (meta8 8), blkData := meta8 8 })
    (n := asking8.setDownload 0 { keyMeta := urn8 8, hc := checksum (meta8 8), blkData := meta8 8 })
    0 (opens8 8).key hwhole hunpack
  have hreading : asking8.reading = true := rfl
  have hdownload : asking8.downloads[0]? =
    some { keyMeta := urn8 8, hc := checksum (meta8 8) } := rfl
  rw [step, receive_reportBlock hreading requests_asking8 hdownload hclose]
  rfl

theorem requests_fetching8 : fetching8.requests[(2 : UInt64)]? =
    some ⟨0, .blockComplete 0⟩ := by
  change ((asking8.requests.insert 2 ⟨0, .blockComplete 0⟩).erase 1)[(2 : UInt64)]? = _
  rw [Std.ExtTreeMap.getElem?_erase, if_neg (by decide), Std.ExtTreeMap.getElem?_insert_self]

theorem downloads_fetching8 : fetching8.downloads = [opened8] := rfl

theorem reading_fetching8 : fetching8.reading = true := rfl

def missed8 : Download :=
  { opened8 with blkData := [], written := opened8.written ++ opened8.bf.decrypted [] }

theorem bf_missed8 : missed8.bf = cipherOf externals path := by
  simp only [missed8, opened8]

theorem written_missed8 : missed8.written = [] := by
  rw [missed8, decrypted_nil]
  rfl

theorem step_missing8 : step externals fetching8 (.receive (.reportBlock 2 0 [])) =
    answered (Node.proceed 0 1 missed8
      (fetching8.setDownload 0 { opened8 with blkData := [] })) 2 := by
  have hdownload : fetching8.downloads[0]? = some opened8 := by
    rw [downloads_fetching8]
    rfl
  have hclose := Lib.bind_ok (f := fun d => modify (Node.proceed 0 1 d))
    (writeBlock_of_nil (d := { opened8 with blkData := [] })
      (n := fetching8.setDownload 0 { opened8 with blkData := [] }) rfl)
  rw [step, receive_reportBlock reading_fetching8 requests_fetching8 hdownload hclose, missed8]

theorem run_missing8 : ¬AsAsked externals (run externals {} [.downloadUrn (urn8 8),
    .receive (.reportBlock 1 0 (meta8 8)), .receive (.reportBlock 2 0 [])]) := by
  intro h
  rw [AsAsked, run, List.foldl_cons, step_downloadUrn8, List.foldl_cons, step_meta8,
    List.foldl_cons,
    step_missing8, List.foldl_nil] at h
  have hclosed : (answered (Node.proceed 0 1 missed8
      (fetching8.setDownload 0 { opened8 with blkData := [] })) 2).downloads =
        [{ missed8 with closed := true }] := rfl
  rw [hclosed] at h
  obtain ⟨ds, hhash, hwhole, hwritten⟩ := (h _ List.mem_cons_self rfl).blocks
  change ds.map checksum = [checksum block8] at hhash
  simp only at hwritten
  obtain ⟨data, rfl, hdata⟩ := List.map_eq_singleton_iff.mp hhash
  rw [written_missed8, bf_missed8, List.map_singleton, List.flatten_singleton] at hwritten
  rcases hwhole data List.mem_cons_self with rfl | hdecrypts
  · have hlen := length_of_checksum (by decide) (by rw [length_block8]; decide) hdata
    rw [length_block8] at hlen
    cases hlen
  · have hlen : ((cipherOf externals path).decrypted data).length = data.length :=
      Blowfish.length_decrypted hdecrypts
    rw [← hwritten] at hlen
    exact hdecrypts.1 hlen.symm

theorem authentic_eight : AllAuthentic externals {} [.downloadUrn (urn8 8),
    .receive (.reportBlock 1 0 (meta8 8)), .receive (.reportBlock 2 0 block8)] := by
  refine ⟨trivial, ?_, ?_, trivial⟩
  · rw [step_downloadUrn8]
    intro preq d hreq hd
    rw [requests_asking8, Option.some.injEq] at hreq
    subst hreq
    have hdownload : asking8.downloads[0]? =
      some { keyMeta := urn8 8, hc := checksum (meta8 8) } := rfl
    rw [hdownload, Option.some.injEq] at hd
    subst hd
    rfl
  · rw [step_downloadUrn8, step_meta8]
    intro preq d hreq hd
    rw [requests_fetching8, Option.some.injEq] at hreq
    subst hreq
    rw [downloads_fetching8, List.getElem?_cons_zero, Option.some.injEq] at hd
    subst hd
    rfl

theorem run_fetched_eight : AsAsked externals (run externals {} [.downloadUrn (urn8 8),
    .receive (.reportBlock 1 0 (meta8 8)), .receive (.reportBlock 2 0 block8)]) :=
  run_fetched ⟨rfl, rfl⟩ authentic_eight

end

end Gpm.Bitblocks
