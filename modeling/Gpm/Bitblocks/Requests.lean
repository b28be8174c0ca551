import Gpm.Bitblocks.Node

namespace Gpm.Bitblocks

/-- The arguments of `request_block`; a buffer is told by its address. -/
structure Request where
  hc : Hashcode
  data : ℕ
  start : UInt64
  len : UInt64

/-- A `pending_request`: the buffer, and the closure by the number of its request. -/
structure Awaited where
  data : ℕ
  close : ℕ

inductive Occurrence
  | issued (k : ℕ) (id : UInt64) (data : ℕ)
  | handled (id : UInt64) (bytes : List UInt8)
  | overwritten (k data : ℕ) (bytes : List UInt8)
  | closed (k : ℕ)
  deriving DecidableEq

/-- The constructor leaves `next_req_id` as it finds it. -/
structure Connection where
  nextReqId : UInt64
  mRequests : Std.ExtTreeMap UInt64 Awaited compare := ∅
  reading : Bool := true
  sent : List Proto.Message := []
  issued : ℕ := 0
  history : List Occurrence := []

/-- A call from outside, or a message; a closure that is called makes the requests `during` and
may end with an exception. -/
inductive ConnectionEvent
  | request (r : Request)
  | report (requestId : UInt64) (bytes : List UInt8) (during : List Request) (throws : Bool)

namespace Connection

def note (o : Occurrence) (c : Connection) : Connection := { c with history := c.history ++ [o] }

def requestBlock (close : ℕ) (r : Request) (c : Connection) : Connection :=
  { c with
    mRequests := c.mRequests.insert (c.nextReqId + 1) ⟨r.data, close⟩
    nextReqId := c.nextReqId + 1
    sent := c.sent ++ [.requestBlock (c.nextReqId + 1) r.hc r.start r.len] }

def request (r : Request) (c : Connection) : Connection :=
  { c.requestBlock c.issued r with
    issued := c.issued + 1
    history := c.history ++ [.issued c.issued (c.nextReqId + 1) r.data] }

def requestBlocks (rs : List Request) (c : Connection) : Connection :=
  rs.foldl (fun c r => c.request r) c

def erase (id : UInt64) (c : Connection) : Connection :=
  { c with mRequests := c.mRequests.erase id }

/-- The branch of `handle_message` for a `report_block`: the closure is called while the request
is still in the map. -/
def reportBlock (requestId : UInt64) (bytes : List UInt8) (during : List Request) (throws : Bool)
    (c : Connection) : Connection :=
  let c := c.note (.handled requestId bytes)
  match c.mRequests[requestId]? with
  | none => c
  | some preq =>
    let c := c.note (.overwritten preq.close preq.data bytes)
    let c := (c.note (.closed preq.close)).requestBlocks during
    if throws then { c with reading := false } else c.erase requestId

def step (c : Connection) : ConnectionEvent → Connection
  | .request r => c.request r
  | .report requestId bytes during throws =>
    if c.reading then c.reportBlock requestId bytes during throws else c

def run (c : Connection) (es : List ConnectionEvent) : Connection := es.foldl step c

end Connection

def Outstanding (h : List Occurrence) (id : UInt64) (k data : ℕ) : Prop :=
  ∃ pre mid, h = pre ++ .issued k id data :: mid ∧ ∀ bytes, .handled id bytes ∉ mid

/-- Reports reach the requests they answer. -/
structure Answers (c : Connection) : Prop where
  overwritten : ∀ pre post k data bytes, c.history = pre ++ .overwritten k data bytes :: post →
    ∃ pre' id, pre = pre' ++ [.handled id bytes] ∧ Outstanding pre' id k data
  closed : ∀ pre post k, c.history = pre ++ .closed k :: post →
    ∃ pre' id data bytes, pre = pre' ++ [.handled id bytes, .overwritten k data bytes] ∧
      Outstanding pre' id k data
  answered : ∀ pre post id bytes k data, c.history = pre ++ .handled id bytes :: post →
    Outstanding pre id k data → ∃ post', post = .overwritten k data bytes :: .closed k :: post'
  once : ∀ k, c.history.count (.closed k) ≤ 1
  ignored : ∀ id bytes during throws, (∀ k data, ¬ Outstanding c.history id k data) →
    c.step (.report id bytes during throws) =
      if c.reading then c.note (.handled id bytes) else c

theorem split_concat {h pre post : List Occurrence} {o x : Occurrence}
    (heq : h ++ [o] = pre ++ x :: post) : (pre = h ∧ x = o ∧ post = []) ∨
      ∃ post', post = post' ++ [o] ∧ h = pre ++ x :: post' := by
  induction post using List.reverseRecOn with
  | nil =>
    obtain ⟨hh, ho⟩ := List.append_inj' heq rfl
    exact Or.inl ⟨hh.symm, (List.singleton_inj.mp ho).symm, rfl⟩
  | append_singleton post o' _ =>
    rw [← List.cons_append, ← List.append_assoc] at heq
    obtain ⟨hh, ho⟩ := List.append_inj' heq rfl
    exact Or.inr ⟨post, by rw [List.singleton_inj.mp ho], hh⟩

section Outstanding

variable {h : List Occurrence} {id id' : UInt64} {k k' data data' : ℕ} {o : Occurrence}

theorem outstanding_concat : Outstanding (h ++ [o]) id k data ↔
    o = .issued k id data ∨ Outstanding h id k data ∧ ∀ bytes, o ≠ .handled id bytes := by
  constructor
  · rintro ⟨pre, mid, hh, hmid⟩
    obtain ⟨-, ho, -⟩ | ⟨mid', rfl, hpre⟩ := split_concat hh
    · exact Or.inl ho.symm
    · refine Or.inr ⟨⟨pre, mid', hpre, fun bytes hb =>
        hmid bytes (List.mem_append_left _ hb)⟩, ?_⟩
      rintro bytes rfl
      exact hmid bytes (List.mem_append_right _ (List.mem_singleton.mpr rfl))
  · rintro (rfl | ⟨⟨pre, mid, rfl, hmid⟩, ho⟩)
    · exact ⟨h, [], rfl, fun _ => List.not_mem_nil⟩
    · refine ⟨pre, mid ++ [o], by rw [List.append_assoc, List.cons_append], fun bytes hb => ?_⟩
      obtain hb | hb := List.mem_append.mp hb
      · exact hmid bytes hb
      · exact ho bytes (List.mem_singleton.mp hb).symm

theorem Outstanding.mem (ho : Outstanding h id k data) : .issued k id data ∈ h := by
  obtain ⟨pre, mid, rfl, -⟩ := ho
  exact List.mem_append_right _ List.mem_cons_self

theorem outstanding_issued : Outstanding (h ++ [.issued k' id' data']) id k data ↔
    (k' = k ∧ id' = id ∧ data' = data) ∨ Outstanding h id k data := by
  rw [outstanding_concat, Occurrence.issued.injEq]
  simp

theorem outstanding_handled {bytes : List UInt8} :
    Outstanding (h ++ [.handled id' bytes]) id k data ↔ id' ≠ id ∧
      Outstanding h id k data := by
  rw [outstanding_concat]
  simp [and_comm]

theorem outstanding_overwritten {bytes : List UInt8} :
    Outstanding (h ++ [.overwritten k' data' bytes]) id k data ↔ Outstanding h id k data := by
  rw [outstanding_concat]
  simp

theorem outstanding_closed :
    Outstanding (h ++ [.closed k']) id k data ↔ Outstanding h id k data := by
  rw [outstanding_concat]
  simp

end Outstanding

/-- The histories of connections on which ids do not come twice. -/
inductive Told (start : UInt64) : List Occurrence → ℕ → Prop
  | nil : Told start [] 0
  | issued {h : List Occurrence} {n : ℕ} (data : ℕ) : Told start h n →
      Told start (h ++ [.issued n (start + UInt64.ofNat n + 1) data]) (n + 1)
  | unknown {h : List Occurrence} {n : ℕ} {id : UInt64} (bytes : List UInt8) : Told start h n →
      (∀ k data, ¬ Outstanding h id k data) → Told start (h ++ [.handled id bytes]) n
  | answered {h : List Occurrence} {n : ℕ} {id : UInt64} {k data : ℕ} (bytes : List UInt8) :
      Told start h n → Outstanding h id k data →
      Told start (h ++ [.handled id bytes] ++ [.overwritten k data bytes] ++ [.closed k]) n

namespace Told

variable {start : UInt64} {h : List Occurrence} {n : ℕ} {id id' : UInt64} {k k' data data' : ℕ}

theorem of_issued (ht : Told start h n) (hmem : .issued k id data ∈ h) :
    k < n ∧ id = start + UInt64.ofNat k + 1 := by
  induction ht with
  | nil => cases hmem
  | issued data' _ ih =>
    obtain hmem | hmem := List.mem_append.mp hmem
    · exact ⟨Nat.lt_succ_of_lt (ih hmem).1, (ih hmem).2⟩
    · rw [List.mem_singleton, Occurrence.issued.injEq] at hmem
      obtain ⟨rfl, rfl, -⟩ := hmem
      exact ⟨Nat.lt_succ_self _, rfl⟩
  | unknown bytes _ _ ih =>
    obtain hmem | hmem := List.mem_append.mp hmem
    · exact ih hmem
    · simp at hmem
  | answered bytes _ _ ih =>
    simp only [List.append_assoc, List.mem_append, List.mem_singleton, reduceCtorEq,
      or_false] at hmem
    exact ih hmem

theorem data_unique (ht : Told start h n) (hmem : .issued k id data ∈ h)
    (hmem' : .issued k id' data' ∈ h) : data = data' := by
  induction ht with
  | nil => cases hmem
  | issued data₀ ht ih =>
    simp only [List.mem_append, List.mem_singleton, Occurrence.issued.injEq] at hmem hmem'
    obtain hmem | ⟨rfl, -, rfl⟩ := hmem
    · obtain hmem' | ⟨rfl, -, rfl⟩ := hmem'
      · exact ih hmem hmem'
      · exact absurd (ht.of_issued hmem).1 (Nat.lt_irrefl _)
    · obtain hmem' | ⟨-, -, rfl⟩ := hmem'
      · exact absurd (ht.of_issued hmem').1 (Nat.lt_irrefl _)
      · rfl
  | unknown bytes _ _ ih =>
    simp only [List.mem_append, List.mem_singleton, reduceCtorEq, or_false] at hmem hmem'
    exact ih hmem hmem'
  | answered bytes _ _ ih =>
    simp only [List.append_assoc, List.mem_append, List.mem_singleton, reduceCtorEq,
      or_false] at hmem hmem'
    exact ih hmem hmem'

theorem id_injective {k k' : ℕ} (hk : k < 2 ^ 64) (hk' : k' < 2 ^ 64)
    (heq : start + UInt64.ofNat k + 1 = start + UInt64.ofNat k' + 1) : k = k' := by
  have hnat := congrArg UInt64.toNat heq
  simp only [UInt64.toNat_add, UInt64.toNat_ofNat'] at hnat
  omega

theorem number_unique (ht : Told start h n) (hn : n ≤ 2 ^ 64) (hmem : .issued k id data ∈ h)
    (hmem' : .issued k' id data' ∈ h) : k = k' := by
  obtain ⟨hlt, hid⟩ := ht.of_issued hmem
  obtain ⟨hlt', hid'⟩ := ht.of_issued hmem'
  exact id_injective (Nat.lt_of_lt_of_le hlt hn) (Nat.lt_of_lt_of_le hlt' hn) (hid.symm.trans hid')

theorem outstanding_unique (ht : Told start h n) (hn : n ≤ 2 ^ 64)
    (ho : Outstanding h id k data) (ho' : Outstanding h id k' data') : k = k' ∧ data = data' := by
  obtain rfl := ht.number_unique hn ho.mem ho'.mem
  exact ⟨rfl, ht.data_unique ho.mem ho'.mem⟩

theorem overwritten (ht : Told start h n) {pre post : List Occurrence} {bytes : List UInt8}
    (heq : h = pre ++ .overwritten k data bytes :: post) :
    ∃ pre' id, pre = pre' ++ [.handled id bytes] ∧ Outstanding pre' id k data := by
  induction ht generalizing post with
  | nil => simp at heq
  | issued data' _ ih =>
    obtain ⟨-, hx, -⟩ | ⟨post', -, hh⟩ := split_concat heq
    · cases hx
    · exact ih hh
  | unknown bytes' _ _ ih =>
    obtain ⟨-, hx, -⟩ | ⟨post', -, hh⟩ := split_concat heq
    · cases hx
    · exact ih hh
  | answered bytes' _ ho ih =>
    obtain ⟨-, hx, -⟩ | ⟨post₁, -, hh⟩ := split_concat heq
    · cases hx
    obtain ⟨rfl, hx, -⟩ | ⟨post₂, -, hh⟩ := split_concat hh
    · cases hx
      exact ⟨_, _, rfl, ho⟩
    obtain ⟨-, hx, -⟩ | ⟨post₃, -, hh⟩ := split_concat hh
    · cases hx
    · exact ih hh

theorem closed (ht : Told start h n) {pre post : List Occurrence}
    (heq : h = pre ++ .closed k :: post) :
    ∃ pre' id data bytes, pre = pre' ++ [.handled id bytes, .overwritten k data bytes] ∧
      Outstanding pre' id k data := by
  induction ht generalizing post with
  | nil => simp at heq
  | issued data' _ ih =>
    obtain ⟨-, hx, -⟩ | ⟨post', -, hh⟩ := split_concat heq
    · cases hx
    · exact ih hh
  | unknown bytes' _ _ ih =>
    obtain ⟨-, hx, -⟩ | ⟨post', -, hh⟩ := split_concat heq
    · cases hx
    · exact ih hh
  | answered bytes' _ ho ih =>
    obtain ⟨rfl, hx, -⟩ | ⟨post₁, -, hh⟩ := split_concat heq
    · cases hx
      exact ⟨_, _, _, _, List.append_assoc _ _ _, ho⟩
    obtain ⟨-, hx, -⟩ | ⟨post₂, -, hh⟩ := split_concat hh
    · cases hx
    obtain ⟨-, hx, -⟩ | ⟨post₃, -, hh⟩ := split_concat hh
    · cases hx
    · exact ih hh

theorem answers (ht : Told start h n) (hn : n ≤ 2 ^ 64) {pre post : List Occurrence}
    {bytes : List UInt8} (heq : h = pre ++ .handled id bytes :: post)
    (ho : Outstanding pre id k data) :
    ∃ post', post = .overwritten k data bytes :: .closed k :: post' := by
  induction ht generalizing post with
  | nil => simp at heq
  | issued data' _ ih =>
    obtain ⟨-, hx, -⟩ | ⟨post', rfl, hh⟩ := split_concat heq
    · cases hx
    · obtain ⟨post₀, rfl⟩ := ih (Nat.le_of_succ_le hn) hh
      exact ⟨_, rfl⟩
  | unknown bytes' _ hnone ih =>
    obtain ⟨rfl, hx, -⟩ | ⟨post', rfl, hh⟩ := split_concat heq
    · cases hx
      exact absurd ho (hnone k data)
    · obtain ⟨post₀, rfl⟩ := ih hn hh
      exact ⟨_, rfl⟩
  | answered bytes' ht ho' ih =>
    obtain ⟨-, hx, -⟩ | ⟨post₁, rfl, hh₁⟩ := split_concat heq
    · cases hx
    obtain ⟨-, hx, -⟩ | ⟨post₂, rfl, hh₂⟩ := split_concat hh₁
    · cases hx
    obtain ⟨rfl, hx, rfl⟩ | ⟨post₃, rfl, hh₃⟩ := split_concat hh₂
    · cases hx
      obtain ⟨rfl, rfl⟩ := ht.outstanding_unique hn ho ho'
      exact ⟨[], rfl⟩
    · obtain ⟨post₀, rfl⟩ := ih hn hh₃
      exact ⟨_, rfl⟩

theorem lt_of_closed (ht : Told start h n) (hmem : .closed k ∈ h) : k < n := by
  obtain ⟨pre, post, rfl⟩ := List.append_of_mem hmem
  obtain ⟨pre', id, data, bytes, rfl, ho⟩ := ht.closed rfl
  have hmem : .issued k id data ∈ pre' ++ [.handled id bytes, .overwritten k data bytes] ++
      .closed k :: post := List.mem_append_left _ (List.mem_append_left _ ho.mem)
  exact (ht.of_issued hmem).1

theorem not_outstanding_of_closed (ht : Told start h n) (hmem : .closed k ∈ h) :
    ¬ Outstanding h id k data := by
  induction ht with
  | nil => cases hmem
  | issued data' ht ih =>
    rw [outstanding_issued]
    simp only [List.mem_append, List.mem_singleton, reduceCtorEq, or_false] at hmem
    rintro (⟨rfl, -, -⟩ | ho)
    · exact Nat.lt_irrefl _ (ht.lt_of_closed hmem)
    · exact ih hmem ho
  | unknown bytes _ _ ih =>
    rw [outstanding_handled]
    simp only [List.mem_append, List.mem_singleton, reduceCtorEq, or_false] at hmem
    exact fun ho => ih hmem ho.2
  | answered bytes ht ho' ih =>
    rw [outstanding_closed, outstanding_overwritten, outstanding_handled]
    rintro ⟨hne, ho⟩
    simp only [List.append_assoc, List.mem_append, List.mem_singleton, reduceCtorEq, false_or,
      Occurrence.closed.injEq] at hmem
    obtain hmem | rfl := hmem
    · exact ih hmem ho
    · exact hne ((ht.of_issued ho'.mem).2.trans (ht.of_issued ho.mem).2.symm)

theorem once (ht : Told start h n) (k : ℕ) : h.count (.closed k) ≤ 1 := by
  induction ht with
  | nil => exact Nat.zero_le _
  | issued data' _ ih => simpa using ih
  | unknown bytes _ _ ih => simpa using ih
  | @answered h n id k' data bytes ht ho ih =>
    simp only [List.count_append, List.count_singleton, beq_iff_eq, reduceCtorEq, if_false,
      Nat.add_zero, Occurrence.closed.injEq]
    split
    · rename_i hk
      rw [hk] at ho
      have hzero : h.count (.closed k) = 0 :=
        List.count_eq_zero.mpr fun hmem => ht.not_outstanding_of_closed hmem ho
      rw [hzero]
    · exact ih

end Told

namespace Connection

variable {start : UInt64} {c : Connection} {r : Request} {id : UInt64} {k : ℕ}

structure Tracks (start : UInt64) (c : Connection) : Prop where
  told : Told start c.history c.issued
  next : c.nextReqId = start + UInt64.ofNat c.issued
  awaits : c.reading = true → ∀ id k data,
    c.mRequests[id]? = some ⟨data, k⟩ ↔ Outstanding c.history id k data

theorem issued_requestBlocks (rs : List Request) (c : Connection) :
    (c.requestBlocks rs).issued = c.issued + rs.length := by
  induction rs generalizing c with
  | nil => rfl
  | cons r rs ih =>
    change ((c.request r).requestBlocks rs).issued = _
    rw [ih, List.length_cons]
    simp only [request, requestBlock]
    omega

theorem reportBlock_none {bytes : List UInt8} {during : List Request} {throws : Bool}
    (h : c.mRequests[id]? = none) :
    c.reportBlock id bytes during throws = c.note (.handled id bytes) := by
  unfold reportBlock
  simp only [note, h]

def during (id : UInt64) (bytes : List UInt8) (preq : Awaited) (rs : List Request)
    (c : Connection) : Connection :=
  (((c.note (.handled id bytes)).note (.overwritten preq.close preq.data bytes)).note
    (.closed preq.close)).requestBlocks rs

theorem reportBlock_some {bytes : List UInt8} {rs : List Request} {throws : Bool} {preq : Awaited}
    (h : c.mRequests[id]? = some preq) : c.reportBlock id bytes rs throws =
      if throws then { c.during id bytes preq rs with reading := false }
      else (c.during id bytes preq rs).erase id := by
  unfold reportBlock
  simp only [note, h]
  rfl

theorem issued_reportBlock {bytes : List UInt8} {rs : List Request} {throws : Bool}
    {preq : Awaited} (h : c.mRequests[id]? = some preq) :
    (c.reportBlock id bytes rs throws).issued = c.issued + rs.length := by
  rw [reportBlock_some h]
  cases throws <;> exact issued_requestBlocks rs _

theorem issued_le_step (c : Connection) (e : ConnectionEvent) : c.issued ≤ (c.step e).issued := by
  cases e with
  | request r => exact Nat.le_succ _
  | report id bytes during throws =>
    unfold step
    dsimp only
    split
    · cases hreq : c.mRequests[id]? with
      | none =>
        rw [reportBlock_none hreq]
        exact Nat.le_refl _
      | some preq =>
        rw [issued_reportBlock hreq]
        exact Nat.le_add_right _ _
    · exact Nat.le_refl _

theorem issued_le_run (c : Connection) (es : List ConnectionEvent) :
    c.issued ≤ (c.run es).issued := by
  induction es generalizing c with
  | nil => exact Nat.le_refl _
  | cons e es ih => exact Nat.le_trans (c.issued_le_step e) (ih _)

theorem next_request (h : c.nextReqId = start + UInt64.ofNat c.issued) :
    (c.request r).nextReqId = start + UInt64.ofNat (c.request r).issued := by
  simp only [request, requestBlock]
  rw [h, UInt64.ofNat_add, UInt64.add_assoc]
  rfl

theorem erase_request (h : c.nextReqId + 1 ≠ id) :
    (c.request r).erase id = (c.erase id).request r := by
  simp only [request, requestBlock, erase, Connection.mk.injEq, true_and, and_true]
  apply Std.ExtTreeMap.ext_getElem?
  intro id'
  simp only [Std.ExtTreeMap.getElem?_erase, Std.ExtTreeMap.getElem?_insert,
    Std.LawfulEqCmp.compare_eq_iff_eq]
  by_cases hid : id = id'
  · rw [if_pos hid, if_pos hid, if_neg fun heq => h (heq.trans hid.symm)]
  · rw [if_neg hid, if_neg hid]

theorem erase_requestBlocks (rs : List Request) (h : c.nextReqId = start + UInt64.ofNat c.issued)
    (hk : k < c.issued) (hbound : c.issued + rs.length ≤ 2 ^ 64) :
    (c.requestBlocks rs).erase (start + UInt64.ofNat k + 1) =
      (c.erase (start + UInt64.ofNat k + 1)).requestBlocks rs := by
  induction rs generalizing c with
  | nil => rfl
  | cons r rs ih =>
    rw [List.length_cons] at hbound
    have hne : c.nextReqId + 1 ≠ start + UInt64.ofNat k + 1 := by
      rw [h]
      intro heq
      have hsame := Told.id_injective (by omega) (by omega) heq
      omega
    have hrest := ih (c := c.request r) (next_request h) (Nat.lt_succ_of_lt hk)
      (by simp only [request, requestBlock]; omega)
    rwa [erase_request hne] at hrest

namespace Tracks

theorem request (h : Tracks start c) (hbound : c.issued < 2 ^ 64) :
    Tracks start (c.request r) := by
  constructor
  case told =>
    simp only [Connection.request, Connection.requestBlock, h.next]
    exact h.told.issued r.data
  case next => exact next_request h.next
  case awaits =>
    intro hreading id k data
    simp only [Connection.request, Connection.requestBlock, outstanding_issued,
      Std.ExtTreeMap.getElem?_insert,
      Std.LawfulEqCmp.compare_eq_iff_eq]
    split
    · rename_i hid
      have hnone : ¬ Outstanding c.history id k data := by
        intro ho
        obtain ⟨hlt, heq⟩ := h.told.of_issued ho.mem
        rw [← hid, h.next] at heq
        have hsame := Told.id_injective hbound (Nat.lt_trans hlt hbound) heq
        omega
      simp [hid, hnone, and_comm]
    · rename_i hid
      rw [h.awaits hreading]
      simp [hid]

theorem requestBlocks (h : Tracks start c) (rs : List Request)
    (hbound : c.issued + rs.length ≤ 2 ^ 64) : Tracks start (c.requestBlocks rs) := by
  induction rs generalizing c with
  | nil => exact h
  | cons r rs ih =>
    rw [List.length_cons] at hbound
    apply ih (h.request (r := r) (by omega))
    simp only [Connection.request, Connection.requestBlock]
    omega

theorem handled (h : Tracks start c) (hreading : c.reading = true) (bytes : List UInt8)
    (hreq : c.mRequests[id]? = none) : Tracks start (c.note (.handled id bytes)) := by
  have hnone : ∀ k data, ¬ Outstanding c.history id k data := by
    intro k data ho
    rw [← h.awaits hreading, hreq] at ho
    cases ho
  constructor
  case told => exact h.told.unknown bytes hnone
  case next => exact h.next
  case awaits =>
    intro _ id' k data
    simp only [note, outstanding_handled]
    rw [h.awaits hreading]
    constructor
    · intro ho
      refine ⟨?_, ho⟩
      rintro rfl
      exact hnone k data ho
    · exact And.right

theorem answered (h : Tracks start c) (hreading : c.reading = true) (bytes : List UInt8)
    {preq : Awaited} (hreq : c.mRequests[id]? = some preq) :
    Tracks start ((c.during id bytes preq []).erase id) := by
  have ho : Outstanding c.history id preq.close preq.data := (h.awaits hreading _ _ _).mp hreq
  constructor
  case told => exact h.told.answered bytes ho
  case next => exact h.next
  case awaits =>
    intro _ id' k data
    change (c.mRequests.erase id)[id']? = _ ↔ Outstanding (c.history ++ [_] ++ [_] ++ [_]) _ _ _
    rw [outstanding_closed, outstanding_overwritten, outstanding_handled, ← h.awaits hreading,
      Std.ExtTreeMap.getElem?_erase]
    simp only [Std.LawfulEqCmp.compare_eq_iff_eq]
    split
    · rename_i hid
      simp [hid]
    · rename_i hid
      simp [hid]

theorem reportBlock (h : Tracks start c) (hreading : c.reading = true) {bytes : List UInt8}
    {rs : List Request} {throws : Bool}
    (hbound : (c.reportBlock id bytes rs throws).issued ≤ 2 ^ 64) :
    Tracks start (c.reportBlock id bytes rs throws) := by
  cases hreq : c.mRequests[id]? with
  | none =>
    rw [reportBlock_none hreq]
    exact h.handled hreading bytes hreq
  | some preq =>
    rw [issued_reportBlock hreq] at hbound
    have ho : Outstanding c.history id preq.close preq.data := (h.awaits hreading _ _ _).mp hreq
    obtain ⟨hlt, hid⟩ := h.told.of_issued ho.mem
    have hcomm : (c.during id bytes preq rs).erase id =
        ((c.during id bytes preq []).erase id).requestBlocks rs := by
      rw [hid]
      exact erase_requestBlocks (c := c.during _ bytes preq []) rs h.next hlt hbound
    have htracks : Tracks start ((c.during id bytes preq rs).erase id) := by
      rw [hcomm]
      exact (h.answered hreading bytes hreq).requestBlocks rs hbound
    rw [reportBlock_some hreq]
    cases throws with
    | false => exact htracks
    | true => exact ⟨htracks.told, htracks.next, fun hread => absurd hread Bool.false_ne_true⟩

theorem step (h : Tracks start c) {e : ConnectionEvent} (hbound : (c.step e).issued ≤ 2 ^ 64) :
    Tracks start (c.step e) := by
  cases e with
  | request r => exact h.request hbound
  | report id bytes rs throws =>
    unfold Connection.step at hbound ⊢
    dsimp only at hbound ⊢
    split
    · rename_i hreading
      rw [if_pos hreading] at hbound
      exact h.reportBlock hreading hbound
    · exact h

theorem run (h : Tracks start c) {es : List ConnectionEvent}
    (hbound : (c.run es).issued ≤ 2 ^ 64) : Tracks start (c.run es) := by
  induction es generalizing c with
  | nil => exact h
  | cons e es ih => exact ih (h.step (Nat.le_trans (issued_le_run _ es) hbound)) hbound

theorem answers (h : Tracks start c) (hbound : c.issued ≤ 2 ^ 64) : Answers c := by
  constructor
  case overwritten => exact fun pre post k data bytes heq => h.told.overwritten heq
  case closed => exact fun pre post k heq => h.told.closed heq
  case answered => exact fun pre post id bytes k data heq ho => h.told.answers hbound heq ho
  case once => exact h.told.once
  case ignored =>
    intro id bytes rs throws hnone
    unfold Connection.step
    dsimp only
    split
    · rename_i hreading
      apply reportBlock_none
      cases hreq : c.mRequests[id]? with
      | none => rfl
      | some preq => exact absurd ((h.awaits hreading _ _ _).mp hreq) (hnone _ _)
    · rfl

end Tracks

end Connection

end Gpm.Bitblocks
