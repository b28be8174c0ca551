import Gpm.Node.Following

namespace Gpm

inductive Proto.MsgType
  | reportTransaction (trx : SignedTransaction)
  | getFullBlock (index : UInt32)
  | reportFullBlock (state : FullBlockState)
  | getHeadBlockIndex
  | reportHeadBlockIndex (index : Int32)
  | other (id : UInt16)
  deriving DecidableEq

open Proto (MsgType)

/-- A `connection` with the node it belongs to. -/
structure Connection where
  mNode : Node
  /-- `new_trx_con` and `new_block_con` are connected. -/
  started : Bool := false
  newTrxBlocked : Bool := false
  newBlockBlocked : Bool := false

namespace Connection

def slot (c : Connection) : Signal → Option MsgType
  | .newTransaction trx =>
    if c.started ∧ ¬ c.newTrxBlocked then some (.reportTransaction trx) else none
  | .newBlock blk => if c.started ∧
    ¬ c.newBlockBlocked then some (.reportFullBlock blk) else none
  | .generationStateChanged .. => none

def sends (c : Connection) (n : Node) : List MsgType :=
  (n.signals.drop c.mNode.signals.length).filterMap c.slot

def requestNext (n : Node) : MsgType := .getFullBlock (n.getHeadBlockIndex + 1).toUInt32

def start (c : Connection) : Connection × List MsgType :=
  ({ c with started := true }, [requestNext c.mNode])

variable (E : Externals)

def addFullBlock (clock : Clock) (state : FullBlockState) (c : Connection) :
    Connection × List MsgType :=
  let c := { c with newBlockBlocked := true }
  match Node.addFullBlock E clock state c.mNode with
  | .ok r n =>
    ({ c with mNode := n, newBlockBlocked := false },
      c.sends n ++ if 0 < r ∧ state.index < state.headIndex then [requestNext n] else [])
  | .error _ n => ({ c with mNode := n }, c.sends n)

def addTransaction (clock : Clock) (trx : SignedTransaction) (c : Connection) :
    Connection × List MsgType :=
  let c := { c with newTrxBlocked := true }
  match Node.addTransaction E clock trx c.mNode with
  | .ok _ n => ({ c with mNode := n, newTrxBlocked := false }, c.sends n)
  | .error _ n => ({ c with mNode := n }, c.sends n)

def getFullBlock (garbage index : UInt32) (c : Connection) : List MsgType :=
  match c.mNode.getFullBlock garbage index with
  | .ok fbs => [.reportFullBlock fbs]
  | .error _ => []

def handleMessage (clock : Clock) (garbage : UInt32) (c : Connection) :
    MsgType → Connection × List MsgType
  | .reportTransaction trx => c.addTransaction E clock trx
  | .getFullBlock index => (c, c.getFullBlock garbage index)
  | .getHeadBlockIndex => (c, [.reportHeadBlockIndex c.mNode.getHeadBlockIndex])
  | .reportFullBlock state => c.addFullBlock E clock state
  | .reportHeadBlockIndex _ | .other _ => (c, [])

end Connection

structure Session where
  a : Connection
  b : Connection
  toA : List MsgType := []
  toB : List MsgType := []

namespace Session

inductive Action
  | startA
  | startB
  | handleA (clock : Clock) (garbage : UInt32)
  | handleB (clock : Clock) (garbage : UInt32)

variable (E : Externals)

def step (s : Session) : Action → Session
  | .startA => if s.a.started then s else { s with a := s.a.start.1, toB := s.toB ++ s.a.start.2 }
  | .startB => if s.b.started then s else { s with b := s.b.start.1, toA := s.toA ++ s.b.start.2 }
  | .handleA clock garbage =>
    match s.a.started, s.toA with
    | true, m :: ms =>
      let r := s.a.handleMessage E clock garbage m
      { s with a := r.1, toA := ms, toB := s.toB ++ r.2 }
    | _, _ => s
  | .handleB clock garbage =>
    match s.b.started, s.toB with
    | true, m :: ms =>
      let r := s.b.handleMessage E clock garbage m
      { s with b := r.1, toB := ms, toA := s.toA ++ r.2 }
    | _, _ => s

def run (s : Session) (as : List Action) : Session := as.foldl (step E) s

def connect (a b : Node) :
    Session := ⟨⟨a, false, false, false⟩, ⟨b, false, false, false⟩, [], []⟩

end Session

variable {E : Externals} {es : List Entry} {k : ℕ}

namespace Connection

variable {c : Connection} {n : Node}

theorem sends_blocked (h : Node.EmitsBlocks c.mNode n) (hb : c.newBlockBlocked) :
    c.sends n = [] := by
  obtain ⟨fbss, hsignals⟩ := h
  rw [sends, hsignals, List.drop_left, List.filterMap_map, List.filterMap_eq_nil_iff]
  intro fbs _
  rw [Function.comp_apply, slot, if_neg fun hopen => hopen.2 hb]

theorem addFullBlock_next (h : Node.Follower E es k c.mNode) (hes : Node.Followable E es)
    (hT : Function.Injective E.hashSignedTrx) (hk : k < es.length) {clock : Clock}
    (htime : ¬ seconds (clock 0) + 30 < es[k].blk.utcTime) :
    ∃ n, c.addFullBlock E clock (es[k].fullBlock k (es.length - 1)) =
        ({ c with mNode := n, newBlockBlocked := false },
          if k + 1 < es.length then [.getFullBlock (UInt32.ofNat (k + 1))] else []) ∧
      Node.Follower E es (k + 1) n := by
  obtain ⟨n, hadd, hn, hemits⟩ := h.addFullBlock hes hT hk htime (es.length - 1)
  refine ⟨n, ?_, hn⟩
  have hnext : requestNext n = .getFullBlock (UInt32.ofNat (k + 1)) := by
    rw [requestNext, Node.getHeadBlockIndex_add_one, hn.blockChain, List.length_map,
      List.length_take, Nat.min_eq_left hk]
  have hmore : (0 < (1 : ℤ) ∧ (es[k].fullBlock k (es.length - 1)).index <
      (es[k].fullBlock k (es.length - 1)).headIndex) ↔ k + 1 < es.length := by
    simp only [Entry.fullBlock]
    omega
  have hsends : ({ c with newBlockBlocked := true } : Connection).sends n = [] :=
    sends_blocked hemits rfl
  unfold addFullBlock
  simp only [hadd, hsends, List.nil_append, hnext, if_congr hmore rfl rfl]

theorem addFullBlock_unknown (clock : Clock) (garbage : UInt32)
    (h : Node.Serves E c.mNode es) (hne : es ≠ [])
    (hstate : ∀ e ∈ es, e.blk.state ≠ 0) :
    ∃ n, c.addFullBlock E clock (.unknown garbage) =
        ({ c with mNode := n, newBlockBlocked := false }, []) ∧ Node.Serves E n es := by
  obtain ⟨r, p, hadd, hn⟩ := h.addUnknown hne hstate clock garbage
  refine ⟨_, ?_, hn⟩
  have hsends : ({ c with newBlockBlocked := true } : Connection).sends
      ((c.mNode.store E (.unknown garbage)).moved p) = [] :=
    sends_blocked ⟨[], (List.append_nil _).symm⟩ rfl
  have hnone : ¬ (0 < r ∧
      (FullBlockState.unknown garbage).index < (FullBlockState.unknown garbage).headIndex) :=
    fun hmore => absurd hmore.2 (lt_irrefl _)
  unfold addFullBlock
  simp only [hadd, hsends, List.nil_append, if_neg hnone]

theorem getFullBlock_there (garbage : UInt32) (h : Node.Serves E c.mNode es) (hk : k < es.length) :
    c.getFullBlock garbage (UInt32.ofNat k) =
      [.reportFullBlock (es[k].fullBlock k (es.length - 1))] := by
  rw [getFullBlock, h.getFullBlock hk]

theorem getFullBlock_beyond (garbage : UInt32) {index : UInt32}
    (h : c.mNode.mBlockChain.length ≤ index.toNat) :
    c.getFullBlock garbage index = [.reportFullBlock (.unknown garbage)] ∨
      c.getFullBlock garbage index = [] := by
  obtain hunknown | ⟨e, herror⟩ := Node.getFullBlock_beyond h garbage
  · rw [getFullBlock, hunknown]
    exact Or.inl rfl
  · rw [getFullBlock, herror]
    exact Or.inr rfl

end Connection

namespace Session

open Connection (requestNext)

def isRequest : MsgType → Bool
  | .getFullBlock _ => true
  | _ => false

def isReport : MsgType → Bool
  | .reportFullBlock _ => true
  | _ => false

/-- The second node has the first `k` blocks of the chain.  Once it is started, either it has all
of them or the next one has been asked for: the request or the answer is on its way, and no
other. -/
structure Syncs (E : Externals) (es : List Entry) (k : ℕ) (s : Session) : Prop where
  serves : Node.Serves E s.a.mNode es
  follower : Node.Follower E es k s.b.mNode
  bound : k ≤ es.length
  unstarted : s.b.started = false → k < es.length
  toA : ∀ m ∈ s.toA, m = .getFullBlock (UInt32.ofNat k) ∨
    ∃ garbage, m = .reportFullBlock (.unknown garbage)
  toB : ∀ m ∈ s.toB, m = .getFullBlock (UInt32.ofNat es.length) ∨
    ∃ h : k < es.length, m = .reportFullBlock (es[k].fullBlock k (es.length - 1))
  outstanding : s.toA.countP isRequest + s.toB.countP isReport =
    if s.b.started ∧ k < es.length then 1 else 0

theorem step_handleA (E : Externals) (s : Session) (clock : Clock) (garbage : UInt32) :
    (∃ m ms, s.toA = m :: ms ∧ s.step E (.handleA clock garbage) =
      { s with
        a := (s.a.handleMessage E clock garbage m).1
        toA := ms
        toB := s.toB ++ (s.a.handleMessage E clock garbage m).2 }) ∨
    s.step E (.handleA clock garbage) = s := by
  unfold step
  simp only
  split
  · rename_i m ms _ hqueue
    exact Or.inl ⟨m, ms, hqueue, rfl⟩
  · exact Or.inr rfl

theorem step_handleB (E : Externals) (s : Session) (clock : Clock) (garbage : UInt32) :
    (∃ m ms, s.toB = m :: ms ∧ s.b.started = true ∧ s.step E (.handleB clock garbage) =
      { s with
        b := (s.b.handleMessage E clock garbage m).1
        toB := ms
        toA := s.toA ++ (s.b.handleMessage E clock garbage m).2 }) ∨
    s.step E (.handleB clock garbage) = s := by
  unfold step
  simp only
  split
  · rename_i m ms hon hqueue
    exact Or.inl ⟨m, ms, hqueue, hon, rfl⟩
  · exact Or.inr rfl

namespace Syncs

variable {s : Session}

theorem startA (h : Syncs E es k s) : Syncs E es k (s.step E .startA) := by
  unfold step
  simp only
  split
  · exact h
  · have hlen : requestNext s.a.mNode = .getFullBlock (UInt32.ofNat es.length) := by
      rw [requestNext, Node.getHeadBlockIndex_add_one, h.serves.length]
    refine ⟨h.serves, h.follower, h.bound, h.unstarted, h.toA, fun m hm => ?_, ?_⟩
    · obtain hm | hm := List.mem_append.mp hm
      · exact h.toB m hm
      · rw [List.mem_singleton.mp hm, hlen]
        exact Or.inl rfl
    · rw [← h.outstanding]
      change _ + (s.toB ++ [_]).countP isReport = _
      rw [List.countP_append]
      rfl

theorem startB (h : Syncs E es k s) : Syncs E es k (s.step E .startB) := by
  unfold step
  simp only
  split
  · exact h
  · rename_i hoff
    have hless := h.unstarted (Bool.not_eq_true _ ▸ hoff)
    have hnext : requestNext s.b.mNode = .getFullBlock (UInt32.ofNat k) := by
      rw [requestNext, Node.getHeadBlockIndex_add_one, h.follower.blockChain, List.length_map,
        List.length_take, Nat.min_eq_left h.bound]
    have hcount := h.outstanding
    rw [if_neg fun hon => hoff hon.1] at hcount
    refine ⟨h.serves, h.follower, h.bound, fun hon => absurd hon.symm Bool.false_ne_true,
      fun m hm => ?_, h.toB, ?_⟩
    · obtain hm | hm := List.mem_append.mp hm
      · exact h.toA m hm
      · rw [List.mem_singleton.mp hm, hnext]
        exact Or.inl rfl
    · rw [if_pos ⟨rfl, hless⟩]
      change (s.toA ++ [_]).countP isRequest + _ = _
      rw [List.countP_append, Nat.add_right_comm, hcount]
      rfl

theorem handleA (h : Syncs E es k s) (hne : es ≠ []) (hstate : ∀ e ∈ es, e.blk.state ≠ 0)
    (clock : Clock) (garbage : UInt32) : Syncs E es k (s.step E (.handleA clock garbage)) := by
  obtain ⟨m, ms, hqueue, hstep⟩ | hstep := step_handleA E s clock garbage
  · rw [hstep]
    have htoA := h.toA
    have hcount := h.outstanding
    rw [hqueue] at htoA hcount
    rw [List.forall_mem_cons] at htoA
    obtain ⟨rfl | ⟨g, rfl⟩, hrest⟩ := htoA
    · have hless : k < es.length := by
        by_contra hall
        rw [if_neg fun hon => hall hon.2] at hcount
        simp [isRequest] at hcount
      have hanswer := Connection.getFullBlock_there garbage h.serves hless
      simp only [Connection.handleMessage, hanswer]
      refine ⟨h.serves, h.follower, h.bound, h.unstarted, hrest, fun m hm => ?_, ?_⟩
      · obtain hm | hm := List.mem_append.mp hm
        · exact h.toB m hm
        · exact Or.inr ⟨hless, List.mem_singleton.mp hm⟩
      · rw [List.countP_cons_of_pos rfl, Nat.add_right_comm] at hcount
        rw [List.countP_append]
        exact hcount
    · obtain ⟨n, hadd, hn⟩ := Connection.addFullBlock_unknown clock g h.serves hne hstate
      simp only [Connection.handleMessage, hadd, List.append_nil]
      exact ⟨hn, h.follower, h.bound, h.unstarted, hrest, h.toB, hcount⟩
  · rw [hstep]
    exact h

theorem handleB (h : Syncs E es k s) (hes : Node.Followable E es)
    (hT : Function.Injective E.hashSignedTrx) {clock : Clock}
    (htime : ∀ e ∈ es, ¬ seconds (clock 0) + 30 < e.blk.utcTime) (garbage : UInt32) :
    ∃ k', Syncs E es k' (s.step E (.handleB clock garbage)) := by
  obtain ⟨m, ms, hqueue, hon, hstep⟩ | hstep := step_handleB E s clock garbage
  · rw [hstep]
    have htoB := h.toB
    have hcount := h.outstanding
    rw [hqueue] at htoB hcount
    rw [List.forall_mem_cons] at htoB
    obtain ⟨rfl | ⟨hless, rfl⟩, hrest⟩ := htoB
    · have hlen : (UInt32.ofNat es.length).toNat = es.length := by
        apply UInt32.toNat_ofNat_of_lt'
        have hmax := h.serves.length_le
        rw [UInt32.size]
        omega
      have hbeyond : s.b.mNode.mBlockChain.length ≤ (UInt32.ofNat es.length).toNat := by
        rw [hlen, h.follower.blockChain, List.length_map]
        exact List.length_take_le' _ _
      have hanswer := Connection.getFullBlock_beyond garbage hbeyond
      simp only [Connection.handleMessage]
      refine ⟨k, h.serves, h.follower, h.bound, h.unstarted, fun m hm => ?_, hrest, ?_⟩
      · obtain hm | hm := List.mem_append.mp hm
        · exact h.toA m hm
        · obtain hunknown | hnone := hanswer
          · rw [hunknown] at hm
            exact Or.inr ⟨garbage, List.mem_singleton.mp hm⟩
          · rw [hnone] at hm
            cases hm
      · have hnone : (s.b.getFullBlock garbage (UInt32.ofNat es.length)).countP isRequest = 0 := by
          obtain hunknown | hnone := hanswer
          · rw [hunknown]
            rfl
          · rw [hnone]
            rfl
        rw [List.countP_append, hnone]
        exact hcount
    · obtain ⟨n, hadd, hn⟩ := Connection.addFullBlock_next h.follower hes hT hless
        (htime _ (List.getElem_mem hless))
      simp only [Connection.handleMessage, hadd]
      rw [if_pos ⟨hon, hless⟩, List.countP_cons_of_pos rfl] at hcount
      have hquiet : s.toA.countP isRequest = 0 ∧ ms.countP isReport = 0 := by omega
      rw [List.countP_eq_zero, List.countP_eq_zero] at hquiet
      refine ⟨k + 1, h.serves, hn, hless, fun hoff => absurd (hon.symm.trans hoff) (by decide),
        fun m hm => ?_, fun m hm => ?_, ?_⟩
      · obtain hm | hm := List.mem_append.mp hm
        · obtain rfl | hunknown := h.toA m hm
          · exact absurd rfl (hquiet.1 _ hm)
          · exact Or.inr hunknown
        · split at hm
          · exact Or.inl (List.mem_singleton.mp hm)
          · cases hm
      · obtain hrequest | ⟨_, hreport⟩ := hrest m hm
        · exact Or.inl hrequest
        · exact absurd (congrArg isReport hreport) (hquiet.2 m hm)
      · rw [List.countP_append, List.countP_eq_zero.mpr hquiet.1, List.countP_eq_zero.mpr hquiet.2]
        by_cases hmore : k + 1 < es.length
        · rw [if_pos hmore, if_pos ⟨hon, hmore⟩]
          rfl
        · rw [if_neg hmore, if_neg fun hgo => hmore hgo.2]
          rfl
  · rw [hstep]
    exact ⟨k, h⟩

theorem connect {a b : Node} (ha : Node.Serves E a es) (hb : Node.Follower E es 0 b)
    (hne : es ≠ []) : Syncs E es 0 (Session.connect a b) where
  serves := ha
  follower := hb
  bound := Nat.zero_le _
  unstarted _ := List.length_pos_iff.mpr hne
  toA := List.forall_mem_nil _
  toB := List.forall_mem_nil _
  outstanding := (if_neg fun hon => Bool.false_ne_true hon.1).symm

theorem run (h : Syncs E es k s) (hes : Node.Followable E es)
    (hT : Function.Injective E.hashSignedTrx) (hne : es ≠ [])
    (hstate : ∀ e ∈ es, e.blk.state ≠ 0) {as : List Action}
    (htime : ∀ clock garbage, .handleB clock garbage ∈ as →
      ∀ e ∈ es, ¬ seconds (clock 0) + 30 < e.blk.utcTime) :
    ∃ k', Syncs E es k' (s.run E as) := by
  induction as generalizing k s with
  | nil => exact ⟨k, h⟩
  | cons a as ih =>
    have hrest := fun clock garbage hmem => htime clock garbage (List.mem_cons_of_mem a hmem)
    cases a with
    | startA => exact ih h.startA hrest
    | startB => exact ih h.startB hrest
    | handleA clock garbage => exact ih (h.handleA hne hstate clock garbage) hrest
    | handleB clock garbage =>
      obtain ⟨k', h'⟩ := h.handleB hes hT (htime clock garbage List.mem_cons_self) garbage
      exact ih h' hrest

theorem finished (h : Syncs E es k s) (hon : s.b.started) (hA : s.toA = []) (hB : s.toB = []) :
    k = es.length := by
  have hcount := h.outstanding
  rw [hA, hB] at hcount
  by_contra hless
  rw [if_pos ⟨hon, Nat.lt_of_le_of_ne h.bound hless⟩] at hcount
  cases hcount

end Syncs

/-- A node without a chain that is connected to a node with a chain from a first block of
`create_gen_block` has the beginning of that chain in every state, and all of it, with the same
log, when both ends are started and no message is on its way. -/
theorem node_syncs (hE : Function.Injective E.hashBlockState) (hzero : Node.NeverZero E)
    (hT : Function.Injective E.hashSignedTrx) {a b : Node}
    (ha : Node.ReachableBy E (fun _ _ c => c.Honest E) a) (hgenesis : Node.FromGenesis E a)
    (hb : Node.Reachable E b) (hnil : b.mBlockChain = []) (hquiet : b.mGenEnabled = false)
    (as : List Action) (htime : ∀ clock garbage, .handleB clock garbage ∈ as →
      ∀ blk ∈ a.mBlockChain, ¬ seconds (clock 0) + 30 < blk.utcTime) :
    ((connect a b).run E as).b.mNode.mBlockChain <+: a.mBlockChain ∧
      ((connect a b).run E as).a.mNode.mBlockChain = a.mBlockChain ∧
      (((connect a b).run E as).toA = [] → ((connect a b).run E as).toB = [] →
        ((connect a b).run E as).a.started → ((connect a b).run E as).b.started →
          ((connect a b).run E as).b.mNode.mBlockChain = a.mBlockChain ∧
            ((connect a b).run E as).b.mNode.headDb.log E =
              ((connect a b).run E as).a.mNode.headDb.log E) := by
  obtain ⟨es, hserves, hes, hne, hhash⟩ := Node.serves_of_reachable hE hT
    (ha.mono fun _ _ _ _ => trivial) (.of_honest hE hzero ha) hgenesis
  have hfollower := Node.follower_of_reachable hb hnil hquiet es
  have hstate : ∀ e ∈ es, e.blk.state ≠ 0 := fun e he =>
    hhash e he ▸ hzero.blockState e.blkState
  obtain ⟨k, h⟩ := (Syncs.connect hserves hfollower hne).run hes hT hne hstate
    fun clock garbage hmem e he => htime clock garbage hmem e.blk
      (hserves.blockChain ▸ List.mem_map_of_mem he)
  have hchain : ((connect a b).run E as).b.mNode.mBlockChain = a.mBlockChain.take k := by
    rw [h.follower.blockChain, ← hserves.blockChain, List.map_take]
  refine ⟨?_, ?_, fun hA hB _ hon => ?_⟩
  · rw [hchain]
    exact List.take_prefix k _
  · rw [← h.serves.blockChain, hserves.blockChain]
  · have hk := h.finished hon hA hB
    subst hk
    constructor
    · rw [hchain, ← hserves.length, List.take_length]
    · obtain ⟨ps, hc, hlogs⟩ := h.serves.head
      obtain ⟨ps', hc', hlogs'⟩ := h.follower.recorded.head
      rw [List.take_length] at hc'
      have hsame := hc.sameLog hc' hlogs hlogs'
      rw [Database.log, Database.log, hsame.flat, hsame.size]

section

open Node (Call noon idle)

def generating : List Call := [.configureGeneration [7] true, .addTransaction idle]

def generated : Block :=
  ((Lib.finalState (Node.runAll (Wire.externals nonceHash) noon generating {})).jobs.getLastD
    default).1

def grown : Node :=
  Lib.finalState (Node.runAll (Wire.externals nonceHash) noon
    (generating ++ [.generatedBlock generated, .addFullBlock (.unknown 5)]) {})

theorem grown_reachable : Node.ReachableBy (Wire.externals nonceHash)
    (fun _ _ c => c.Honest (Wire.externals nonceHash)) grown := by
  have hrun : Node.runAll (Wire.externals nonceHash) noon
      (generating ++ [.generatedBlock generated, .addFullBlock (.unknown 5)]) {} = .ok () grown :=
    Lib.eq_ok_of_returned (by decide +kernel)
  exact Node.ReachableBy.empty.runAll (by simp [generating, Call.Honest]) hrun

def following : List Action :=
  [.startB, .handleA noon 0, .startA, .handleA noon 0, .handleB noon 0, .handleB noon 0,
    .handleA noon 0, .handleA noon 0, .handleB noon 0]

theorem node_syncs_grown : 2 ≤ grown.mBlockChain.length ∧
    ((connect grown {}).run (Wire.externals nonceHash) following).b.mNode.mBlockChain =
      grown.mBlockChain := by
  let g : Block := grown.mBlockChain.headD default
  have hgenesis : Node.FromGenesis (Wire.externals nonceHash) grown :=
    ⟨g.utcTime, g, ⟨0, [7], stateHash (Wire.externals nonceHash) [], []⟩, by decide +kernel,
      by decide +kernel, rfl, rfl⟩
  have hsyncs := node_syncs (Lib.Format.number_injective _)
    (Node.neverZero_wire _) (Lib.Format.number_injective _)
    grown_reachable hgenesis .empty rfl rfl following (by
      intro clock garbage hmem
      have hclock : clock = noon := by
        simp only [following, List.mem_cons, List.not_mem_nil, or_false, reduceCtorEq, false_or,
          Action.handleB.injEq] at hmem
        tauto
      rw [hclock]
      decide +kernel)
  exact ⟨by decide +kernel,
    (hsyncs.2.2 (by decide +kernel) (by decide +kernel) (by decide +kernel)
    (by decide +kernel)).1⟩

end

end Session

end Gpm
