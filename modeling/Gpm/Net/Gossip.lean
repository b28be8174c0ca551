import Mathlib.Algebra.Order.BigOperators.Group.List
import Gpm.Node.Custody

namespace Gpm

open Lib (Keeps)

variable {ι : Type}

/-- The `connection` object at one end of a connection, with the `report_transaction` messages
it sends to the other end. -/
structure ConnectionEnd (ι : Type) where
  node : ι
  peer : ℕ
  /-- `new_trx_con` is connected. -/
  started : Bool := false
  /-- `new_trx_con` is blocked. -/
  blocked : Bool := false
  sent : List SignedTransaction := []
  inFlight : List SignedTransaction := []
  arrived : List SignedTransaction := []

namespace ConnectionEnd

def Listens (i : ι) (c : ConnectionEnd ι) : Prop := c.node = i ∧ c.started ∧ ¬ c.blocked

instance [DecidableEq ι] (i : ι) : DecidablePred (Listens i) := fun c =>
  inferInstanceAs (Decidable (c.node = i ∧ c.started ∧ ¬ c.blocked))

def sendTransactions (trxs : List SignedTransaction) (c : ConnectionEnd ι) : ConnectionEnd ι :=
  { c with sent := c.sent ++ trxs, inFlight := c.inFlight ++ trxs }

def arrive (k : ℕ) (t : SignedTransaction) (c : ConnectionEnd ι) : ConnectionEnd ι :=
  { c with inFlight := c.inFlight.eraseIdx k, arrived := c.arrived ++ [t] }

def start (c : ConnectionEnd ι) : ConnectionEnd ι := { c with started := true, blocked := false }

def setBlocked (b : Bool) (c : ConnectionEnd ι) : ConnectionEnd ι := { c with blocked := b }

end ConnectionEnd

structure Network (ι : Type) where
  nodes : ι → Node
  ends : List (ConnectionEnd ι) := []

namespace Network

inductive Action (ι : Type)
  | connect (i j : ι)
  | start (e : ℕ)
  /-- A call at a node which does not come from a `report_transaction`. -/
  | call (i : ι) (clock : Clock) (c : Node.PoolCall)
  | deliver (e k : ℕ) (clock : Clock)

variable (E : Externals)

def connect (i j : ι) (N : Network ι) : Network ι :=
  { N with ends := N.ends ++ [⟨i, N.ends.length + 1, false, false, [], [], []⟩,
      ⟨j, N.ends.length, false, false, [], [], []⟩] }

def modifyEnd (e : ℕ) (f : ConnectionEnd ι → ConnectionEnd ι) (N : Network ι) : Network ι :=
  { N with ends := N.ends.modify e f }

section Steps

variable [DecidableEq ι]

def settle (i : ι) (n : Node) (N : Network ι) : Network ι where
  nodes := Function.update N.nodes i n
  ends := N.ends.map fun c =>
    if c.Listens i then c.sendTransactions (n.announced.drop (N.nodes i).announced.length) else c

/-- `connection::add_transaction`; an exception leaves the slot blocked. -/
def addTransaction (e : ℕ) (t : SignedTransaction) (clock : Clock) (N : Network ι) :
    Network ι :=
  match N.ends[e]? with
  | none => N
  | some c =>
    let N' := N.modifyEnd e (ConnectionEnd.setBlocked true)
    match Node.addTransaction E clock t (N.nodes c.node) with
    | .ok _ n => (N'.settle c.node n).modifyEnd e (ConnectionEnd.setBlocked false)
    | .error _ n => N'.settle c.node n

def deliver (e k : ℕ) (clock : Clock) (N : Network ι) : Network ι :=
  match N.ends[e]? with
  | none => N
  | some c =>
    match c.inFlight[k]? with
    | none => N
    | some t => (N.modifyEnd e (ConnectionEnd.arrive k t)).addTransaction E c.peer t clock

def step (N : Network ι) : Action ι → Network ι
  | .connect i j => N.connect i j
  | .start e => N.modifyEnd e ConnectionEnd.start
  | .call i clock c => N.settle i (Lib.finalState (c.run E clock (N.nodes i)))
  | .deliver e k clock => N.deliver E e k clock

def run (N : Network ι) (as : List (Action ι)) : Network ι := as.foldl (step E) N

end Steps

def submits : Action ι → List Hashcode
  | .call _ _ (.call (.addTransaction tx)) => [E.hashSignedTrx tx]
  | _ => []

def submitted (as : List (Action ι)) : List Hashcode := as.flatMap (submits E)

def Floods [DecidableEq ι] (N : Network ι) : List (Action ι) → Prop
  | [] => True
  | a :: as =>
    (∃ e k clock c, a = .deliver e k clock ∧ N.ends[e]? = some c ∧ k < c.inFlight.length) ∧
      (N.step E a).Floods as

end Network

namespace Node

variable {E : Externals} {n n' n'' : Node} {trxs : List SignedTransaction}

structure Tells (E : Externals) (n : Node) (trxs : List SignedTransaction) (n' : Node) : Prop where
  announced : n'.announced = n.announced ++ trxs
  knows : ∀ h, n.mTrxDb.knows h → n'.mTrxDb.knows h
  fresh : trxs = [] ∨ ∃ t, trxs = [t] ∧ ¬ n.mTrxDb.knows (E.hashSignedTrx t) ∧
    n'.mTrxDb.knows (E.hashSignedTrx t)

theorem Tells.append_nil (h : Tells E n trxs n') (h' : Tells E n' [] n'') : Tells E n trxs n'' where
  announced := by rw [h'.announced, h.announced, List.append_nil]
  knows k hk := h'.knows k (h.knows k hk)
  fresh := by
    obtain rfl | ⟨t, rfl, hnew, hknown⟩ := h.fresh
    · exact Or.inl rfl
    · exact Or.inr ⟨t, rfl, hnew, h'.knows _ hknown⟩

theorem knows_moveTransactions {db : TrxDb} {fromGroup toGroup : Group}
    (hne : fromGroup ≠ toGroup)
    (l : List Hashcode) {h : Hashcode} (hk : db.knows h) :
    (db.moveTransactions l fromGroup toGroup).knows h := by
  rw [TrxDb.knows_iff] at hk ⊢
  obtain ⟨g, hg⟩ := hk
  by_cases hmoved : h ∈ l ∧ g = fromGroup
  · refine ⟨toGroup, ?_⟩
    obtain ⟨hmem, rfl⟩ := hmoved
    rw [TrxDb.getElem?_moveTransactions, if_neg fun h => hne h.2.symm, if_pos ⟨hmem, rfl⟩,
      Option.isSome_or, hg]
    rfl
  · refine ⟨g, ?_⟩
    rw [TrxDb.getElem?_moveTransactions, if_neg hmoved]
    split
    · rw [Option.isSome_or, hg, Bool.or_true]
    · exact hg

theorem knows_moveGroup {db : TrxDb} {fromGroup toGroup : Group} (hne : fromGroup ≠ toGroup)
    {h : Hashcode} (hk : db.knows h) : (db.moveGroup fromGroup toGroup).knows h := by
  rw [TrxDb.moveGroup_eq]
  exact knows_moveTransactions hne _ hk

theorem Tells.frame (E : Externals) : PoolFrame fun n n' => Tells E n [] n' where
  of_eq hpool hannounced :=
    ⟨by rw [hannounced, List.append_nil], fun h hk => by rwa [hpool], Or.inl rfl⟩
  trans := Tells.append_nil
  moveTransactions hne l n :=
    ⟨(List.append_nil _).symm, fun _ hk => knows_moveTransactions hne l hk, Or.inl rfl⟩
  moveGroup hne n := ⟨(List.append_nil _).symm, fun _ hk => knows_moveGroup hne hk, Or.inl rfl⟩

theorem knows_insert {db : TrxDb} (k : TrxKey) (t : SignedTransaction) {h : Hashcode}
    (hk : db.knows h) : TrxDb.knows (db.insert k t) h := by
  rw [TrxDb.knows_iff] at hk ⊢
  obtain ⟨g, hg⟩ := hk
  refine ⟨g, ?_⟩
  rw [TrxDb.getElem?_insert']
  split
  · rfl
  · exact hg

theorem knows_store {db : TrxDb} (ts : List SignedTransaction) {h : Hashcode} (hk : db.knows h) :
    (TrxDb.store E db ts).1.knows h := by
  induction ts generalizing db with
  | nil => exact hk
  | cons t ts ih =>
    unfold TrxDb.store
    split
    · exact ih hk
    · exact ih (knows_insert _ t hk)

theorem tells_addTransaction (clock : Clock) (t : SignedTransaction) (n : Node) :
    ∃ trxs, Tells E n trxs (Lib.finalState (addTransaction E clock t n)) ∧
      ∀ t' ∈ trxs, t' = t := by
  have hframe := Tells.frame E
  unfold addTransaction
  rw [Lib.get_bind]
  split
  · exact ⟨[], hframe.refl n, fun _ h => absurd h List.not_mem_nil⟩
  · rename_i hnew
    rw [Lib.modify_bind, Lib.get_bind]
    have hknown : TrxDb.knows (n.mTrxDb.insert ⟨.pending, E.hashSignedTrx t⟩ t)
        (E.hashSignedTrx t) := by
      rw [TrxDb.knows_iff]
      exact ⟨.pending, by rw [TrxDb.getElem?_insert', if_pos rfl]; rfl⟩
    have hstored : Tells E n [t] { n with
        mTrxDb := n.mTrxDb.insert ⟨.pending, E.hashSignedTrx t⟩ t
        signals := n.signals ++ [.newTransaction t] } :=
      ⟨announced_newTransaction rfl, fun h hk => knows_insert _ t hk,
        Or.inr ⟨t, rfl, hnew, hknown⟩⟩
    refine ⟨[t], hstored.append_nil ?_, fun _ h => List.mem_singleton.mp h⟩
    split
    · exact hframe.bind (hframe.startBlock clock) (fun _ => hframe.pure _) _
    · exact hframe.bind (Keeps.discard (hframe.createGenBlock clock)) (fun _ => hframe.pure _) _

theorem tells_addFullBlock (clock : Clock) (fbs : FullBlockState) (n : Node) :
    Tells E n [] (Lib.finalState (addFullBlock E clock fbs n)) := by
  have hstore : Tells E n [] (n.store E fbs) :=
    ⟨(List.append_nil _).symm, fun _ hk => knows_store fbs.trxs hk, Or.inl rfl⟩
  exact hstore.append_nil ((Tells.frame E).addFullBlock clock fbs n)

theorem tells_call (clock : Clock) (c : PoolCall) (n : Node) :
    ∃ trxs, Tells E n trxs (Lib.finalState (c.run E clock n)) ∧
      ∀ t ∈ trxs, c = .call (.addTransaction t) := by
  have hframe := Tells.frame E
  have hnone : ∀ {n'}, Tells E n [] n' → ∃ trxs, Tells E n trxs n' ∧
      ∀ t ∈ trxs, c = .call (.addTransaction t) := fun h =>
    ⟨[], h, fun _ ht => absurd ht List.not_mem_nil⟩
  cases c with
  | createGenBlock => exact hnone (Keeps.discard (hframe.createGenBlock clock) n)
  | call c =>
    cases c with
    | addTransaction t =>
      obtain ⟨trxs, htells, heq⟩ := tells_addTransaction (E := E) clock t n
      rw [← Lib.finalState_discard] at htells
      exact ⟨trxs, htells, fun t' ht' => by rw [heq t' ht']⟩
    | addBlock blk => exact hnone (Keeps.discard (hframe.addBlock clock blk) n)
    | addFullBlock fbs =>
      have hfull := tells_addFullBlock (E := E) clock fbs n
      rw [← Lib.finalState_discard] at hfull
      exact hnone hfull
    | configureGeneration gn on => exact hnone (hframe.configureGeneration clock gn on n)
    | generatedBlock b => exact hnone (hframe.generatedBlock clock b n)

end Node

namespace Network

variable {E : Externals} {N : Network ι} {S : List Hashcode}

/-- A node announces nothing twice, and an end of a connection sends at most what its node
announced. -/
structure Gossips (E : Externals) (S : List Hashcode) (N : Network ι) : Prop where
  nodup : ∀ i, ((N.nodes i).announced.map E.hashSignedTrx).Nodup
  knows : ∀ i, ∀ t ∈ (N.nodes i).announced, (N.nodes i).mTrxDb.knows (E.hashSignedTrx t)
  origin : ∀ i, ∀ t ∈ (N.nodes i).announced, E.hashSignedTrx t ∈ S
  sent : ∀ c ∈ N.ends, c.sent.Sublist (N.nodes c.node).announced
  delivery : ∀ c ∈ N.ends, (c.arrived ++ c.inFlight).Perm c.sent

namespace Gossips

theorem mono {S' : List Hashcode} (h : Gossips E S N) (hS : ∀ k ∈ S, k ∈ S') :
    Gossips E S' N :=
  { h with origin := fun i t ht => hS _ (h.origin i t ht) }

theorem modifyEnd (h : Gossips E S N) (e : ℕ) {f : ConnectionEnd ι → ConnectionEnd ι}
    (hnode : ∀ c, (f c).node = c.node) (hsent : ∀ c, (f c).sent = c.sent)
    (hdelivery : ∀ c, N.ends[e]? = some c →
      ((f c).arrived ++ (f c).inFlight).Perm (c.arrived ++ c.inFlight)) :
    Gossips E S (N.modifyEnd e f) := by
  have hends : ∀ c ∈ N.ends.modify e f, c ∈ N.ends ∨ ∃ c', N.ends[e]? =
      some c' ∧ c = f c' := by
    intro c hc
    obtain ⟨k, hk⟩ := List.mem_iff_getElem?.mp hc
    rw [List.getElem?_modify] at hk
    split at hk
    · rename_i hek
      obtain ⟨c', hc', rfl⟩ := Option.map_eq_some_iff.mp hk
      exact Or.inr ⟨c', by rw [hek, hc'], rfl⟩
    · rw [id_map'] at hk
      exact Or.inl (List.mem_of_getElem? hk)
  refine ⟨h.nodup, h.knows, h.origin, fun c hc => ?_, fun c hc => ?_⟩
  · obtain hc | ⟨c', hc', rfl⟩ := hends c hc
    · exact h.sent c hc
    · rw [hnode, hsent]
      exact h.sent c' (List.mem_of_getElem? hc')
  · obtain hc | ⟨c', hc', rfl⟩ := hends c hc
    · exact h.delivery c hc
    · rw [hsent]
      exact (hdelivery c' hc').trans (h.delivery c' (List.mem_of_getElem? hc'))

theorem connect (h : Gossips E S N) (i j : ι) : Gossips E S (N.connect i j) := by
  refine ⟨h.nodup, h.knows, h.origin, fun c hc => ?_, fun c hc => ?_⟩
  all_goals
    simp only [Network.connect, List.mem_append, List.mem_cons, List.not_mem_nil, or_false] at hc
  · obtain hc | rfl | rfl := hc
    · exact h.sent c hc
    · exact List.nil_sublist _
    · exact List.nil_sublist _
  · obtain hc | rfl | rfl := hc
    · exact h.delivery c hc
    · exact List.Perm.refl _
    · exact List.Perm.refl _

end Gossips

theorem gossips_start {start : ι → Node} (h₀ : ∀ i, (start i).signals = []) :
    Gossips E [] ⟨start, []⟩ := by
  have hnil : ∀ i, (start i).announced = [] := fun i => by rw [Node.announced, h₀ i]; rfl
  refine ⟨fun i => ?_, fun i => ?_, fun i => ?_, fun c hc => ?_, fun c hc => ?_⟩
  · rw [hnil i]
    exact List.nodup_nil
  · rw [hnil i]
    exact fun t ht => absurd ht List.not_mem_nil
  · rw [hnil i]
    exact fun t ht => absurd ht List.not_mem_nil
  · cases hc
  · cases hc

theorem Gossips.nodup_sent (h : Gossips E S N) {c : ConnectionEnd ι} (hc : c ∈ N.ends) :
    (c.sent.map E.hashSignedTrx).Nodup :=
  (h.nodup c.node).sublist ((h.sent c hc).map E.hashSignedTrx)

theorem sent_modifyEnd {f : ConnectionEnd ι → ConnectionEnd ι} (hf : ∀ c, (f c).sent = c.sent)
    (e j : ℕ) : ((N.modifyEnd e f).ends[j]?).map ConnectionEnd.sent =
      (N.ends[j]?).map ConnectionEnd.sent := by
  rw [Network.modifyEnd, List.getElem?_modify]
  cases N.ends[j]? with
  | none => rfl
  | some c =>
    simp only [Option.map_eq_map, Option.map_some]
    split
    · rw [hf]
    · rfl

def arrivals (N : Network ι) : ℕ := (N.ends.map fun c => c.arrived.length).sum

theorem sum_modify {α : Type} {l : List α} {e : ℕ} {a : α} {f : α → α}
    {g : α → ℕ} {m : ℕ}
    (ha : l[e]? = some a) (hf : g (f a) = g a + m) :
    ((l.modify e f).map g).sum = (l.map g).sum + m := by
  induction l generalizing e with
  | nil => cases ha
  | cons b l ih =>
    cases e with
    | zero =>
      cases ha
      simp only [List.modify_zero_cons, List.map_cons, List.sum_cons, hf]
      omega
    | succ e =>
      rw [List.getElem?_cons_succ] at ha
      simp only [List.modify_succ_cons, List.map_cons, List.sum_cons, ih ha]
      omega

theorem arrivals_modifyEnd {f : ConnectionEnd ι → ConnectionEnd ι}
    (hf : ∀ c, (f c).arrived = c.arrived) (e : ℕ) :
    (N.modifyEnd e f).arrivals = N.arrivals := by
  cases he : N.ends[e]? with
  | none =>
    rw [Network.modifyEnd, List.modify_eq_self (List.getElem?_eq_none_iff.mp he)]
  | some c =>
    have hlen : (f c).arrived.length = c.arrived.length + 0 := by rw [hf, Nat.add_zero]
    exact sum_modify (g := fun c => c.arrived.length) he hlen

theorem Gossips.arrivals_le (h : Gossips E S N) :
    N.arrivals ≤ N.ends.length * S.dedup.length := by
  have hle : ∀ m ∈ N.ends.map fun c => c.arrived.length, m ≤ S.dedup.length := by
    intro m hm
    obtain ⟨c, hc, rfl⟩ := List.mem_map.mp hm
    have hsub : (c.sent.map E.hashSignedTrx).Subperm S.dedup := by
      refine (h.nodup_sent hc).subperm fun k hk => ?_
      obtain ⟨t, ht, rfl⟩ := List.mem_map.mp hk
      exact List.mem_dedup.mpr (h.origin c.node t ((h.sent c hc).subset ht))
    have hsent := hsub.length_le
    have hperm := (h.delivery c hc).length_eq
    rw [List.length_map] at hsent
    rw [List.length_append] at hperm
    omega
  have hsum := List.sum_le_card_nsmul _ _ hle
  rw [List.length_map] at hsum
  exact hsum

variable [DecidableEq ι]

namespace Gossips

theorem settle (h : Gossips E S N) {i : ι} {n : Node} {trxs : List SignedTransaction}
    (htells : Node.Tells E (N.nodes i) trxs n) (hS : ∀ t ∈ trxs, E.hashSignedTrx t ∈ S) :
    Gossips E S (N.settle i n) := by
  have hnodes : (N.settle i n).nodes = Function.update N.nodes i n := rfl
  have hdrop : n.announced.drop (N.nodes i).announced.length = trxs := by
    rw [htells.announced, List.drop_left]
  constructor
  · intro j
    rw [hnodes, Function.update_apply]
    split
    · rw [htells.announced, List.map_append, List.nodup_append]
      refine ⟨h.nodup i, ?_, ?_⟩
      · obtain rfl | ⟨t, rfl, -, -⟩ := htells.fresh
        · exact List.nodup_nil
        · exact List.nodup_singleton _
      · rintro _ hold _ hnew rfl
        obtain ⟨t', ht', heq⟩ := List.mem_map.mp hold
        have hknown := h.knows i t' ht'
        obtain rfl | ⟨t, rfl, hunknown, -⟩ := htells.fresh
        · cases hnew
        · rw [heq, List.mem_singleton.mp hnew] at hknown
          exact hunknown hknown
    · exact h.nodup j
  · intro j
    rw [hnodes, Function.update_apply]
    split
    · intro t ht
      rw [htells.announced, List.mem_append] at ht
      obtain ht | ht := ht
      · exact htells.knows _ (h.knows i t ht)
      · obtain rfl | ⟨t', rfl, -, hknown⟩ := htells.fresh
        · cases ht
        · rwa [List.mem_singleton.mp ht]
    · exact h.knows j
  · intro j
    rw [hnodes, Function.update_apply]
    split
    · intro t ht
      rw [htells.announced, List.mem_append] at ht
      obtain ht | ht := ht
      · exact h.origin i t ht
      · exact hS t ht
    · exact h.origin j
  · intro c hc
    obtain ⟨c', hc', rfl⟩ := List.mem_map.mp hc
    have hsent := h.sent c' hc'
    by_cases hi : c'.node = i
    · have hself : (N.settle i n).nodes i = n := by rw [hnodes, Function.update_self]
      rw [hi] at hsent
      split
      · rw [ConnectionEnd.sendTransactions, hi, hself, hdrop, htells.announced]
        exact hsent.append_right trxs
      · rw [hi, hself, htells.announced]
        exact hsent.trans (List.sublist_append_left _ _)
    · rw [if_neg fun hlistens => hi hlistens.1, hnodes, Function.update_of_ne hi]
      exact hsent
  · intro c hc
    obtain ⟨c', hc', rfl⟩ := List.mem_map.mp hc
    have hdelivery := h.delivery c' hc'
    split
    · simp only [ConnectionEnd.sendTransactions, ← List.append_assoc]
      exact hdelivery.append_right _
    · exact hdelivery

theorem addTransaction (h : Gossips E S N) (e : ℕ) {t : SignedTransaction}
    (ht : E.hashSignedTrx t ∈ S) (clock : Clock) :
    Gossips E S (N.addTransaction E e t clock) := by
  unfold Network.addTransaction
  cases he : N.ends[e]? with
  | none => exact h
  | some c =>
    have hblocked := fun {N : Network ι} (h : Gossips E S N) (b : Bool) =>
      h.modifyEnd e (f := ConnectionEnd.setBlocked b) (fun _ => rfl) (fun _ => rfl)
        fun _ _ => List.Perm.refl _
    obtain ⟨trxs, htells, heq⟩ := Node.tells_addTransaction (E := E) clock t (N.nodes c.node)
    have hS : ∀ t' ∈ trxs, E.hashSignedTrx t' ∈ S := fun t' ht' => by rwa [heq t' ht']
    have hsettle := fun n (hn : Node.Tells E (N.nodes c.node) trxs n) =>
      (hblocked h true).settle hn hS
    simp only
    cases hrun : Node.addTransaction E clock t (N.nodes c.node) with
    | ok r n =>
      rw [hrun] at htells
      exact hblocked (hsettle n htells) false
    | error r n =>
      rw [hrun] at htells
      exact hsettle n htells

theorem deliver (h : Gossips E S N) (e k : ℕ) (clock : Clock) :
    Gossips E S (N.deliver E e k clock) := by
  unfold Network.deliver
  cases he : N.ends[e]? with
  | none => exact h
  | some c =>
    cases hk : c.inFlight[k]? with
    | none => simpa only [hk] using h
    | some t =>
      have hc : c ∈ N.ends := List.mem_of_getElem? he
      have hsent : t ∈ c.sent := (h.delivery c hc).subset
        (List.mem_append_right _ (List.mem_of_getElem? hk))
      have ht := h.origin c.node t ((h.sent c hc).subset hsent)
      simp only [hk]
      have harrive : Gossips E S (N.modifyEnd e (ConnectionEnd.arrive k t)) := by
        refine h.modifyEnd e (fun _ => rfl) (fun _ => rfl) fun c' hc' => ?_
        rw [he, Option.some.injEq] at hc'
        subst hc'
        obtain ⟨hlt, rfl⟩ := List.getElem?_eq_some_iff.mp hk
        simp only [ConnectionEnd.arrive, List.append_assoc, List.singleton_append]
        exact (List.getElem_cons_eraseIdx_perm hlt).append_left c.arrived
      exact harrive.addTransaction c.peer ht clock

theorem step (h : Gossips E S N) (a : Action ι) :
    Gossips E (S ++ submits E a) (N.step E a) := by
  have hmono := fun {N : Network ι} (h : Gossips E S N) =>
    h.mono fun k hk => List.mem_append_left (submits E a) hk
  cases a with
  | connect i j => exact hmono (h.connect i j)
  | start e =>
    exact hmono (h.modifyEnd e (fun _ => rfl) (fun _ => rfl) fun _ _ => List.Perm.refl _)
  | deliver e k clock => exact hmono (h.deliver e k clock)
  | call i clock c =>
    obtain ⟨trxs, htells, heq⟩ := Node.tells_call (E := E) clock c (N.nodes i)
    refine (hmono h).settle htells fun t ht => ?_
    rw [heq t ht]
    exact List.mem_append_right _ List.mem_cons_self

end Gossips

theorem Gossips.run (h : Gossips E S N) (as : List (Action ι)) :
    Gossips E (S ++ submitted E as) (N.run E as) := by
  induction as generalizing S N with
  | nil => exact h.mono fun k hk => List.mem_append_left _ hk
  | cons a as ih =>
    have hrest := ih (h.step a)
    rwa [List.append_assoc, submitted, ← List.flatMap_cons] at hrest

theorem sent_settle_of_blocked {e : ℕ} {c : ConnectionEnd ι} (hc : N.ends[e]? = some c)
    (hb : c.blocked) (i : ι) (n : Node) : (N.settle i n).ends[e]? = some c := by
  rw [Network.settle, List.getElem?_map, hc, Option.map_some,
    if_neg fun hlistens => hlistens.2.2 hb]

theorem sent_addTransaction (e : ℕ) (t : SignedTransaction) (clock : Clock) :
    ((N.addTransaction E e t clock).ends[e]?).map ConnectionEnd.sent =
      (N.ends[e]?).map ConnectionEnd.sent := by
  unfold Network.addTransaction
  cases he : N.ends[e]? with
  | none => simp only [he]
  | some c =>
    have hblocked : (N.modifyEnd e (ConnectionEnd.setBlocked true)).ends[e]? =
        some (c.setBlocked true) := by
      rw [Network.modifyEnd, List.getElem?_modify_eq, he]
      rfl
    have hsettle := fun i n => sent_settle_of_blocked hblocked rfl i n
    simp only
    split
    · rw [sent_modifyEnd (f := ConnectionEnd.setBlocked false) fun _ => rfl, hsettle]
      rfl
    · rw [hsettle]
      rfl

theorem sent_deliver {e : ℕ} {c : ConnectionEnd ι} (hc : N.ends[e]? = some c) (k : ℕ)
    (clock : Clock) :
    ((N.deliver E e k clock).ends[c.peer]?).map ConnectionEnd.sent =
      (N.ends[c.peer]?).map ConnectionEnd.sent := by
  unfold Network.deliver
  simp only [hc]
  split
  · rfl
  · rename_i t _
    rw [sent_addTransaction, sent_modifyEnd (f := ConnectionEnd.arrive k t) fun _ => rfl]

theorem arrivals_settle (i : ι) (n : Node) : (N.settle i n).arrivals = N.arrivals := by
  unfold arrivals Network.settle
  rw [List.map_map]
  congr 2
  funext c
  rw [Function.comp_apply]
  split <;> rfl

theorem arrivals_addTransaction (e : ℕ) (t : SignedTransaction) (clock : Clock) :
    (N.addTransaction E e t clock).arrivals = N.arrivals := by
  have hblocked := fun (N : Network ι) b =>
    arrivals_modifyEnd (N := N) (f := ConnectionEnd.setBlocked b) (fun _ => rfl) e
  unfold Network.addTransaction
  split
  · rfl
  · simp only
    split
    · rw [hblocked, arrivals_settle, hblocked]
    · rw [arrivals_settle, hblocked]

theorem length_ends_addTransaction (e : ℕ) (t : SignedTransaction) (clock : Clock) :
    (N.addTransaction E e t clock).ends.length = N.ends.length := by
  unfold Network.addTransaction
  split
  · rfl
  · simp only
    split <;> simp only [Network.modifyEnd, Network.settle, List.length_modify, List.length_map]

theorem arrivals_deliver {e k : ℕ} {c : ConnectionEnd ι} (hc : N.ends[e]? = some c)
    (hk : k < c.inFlight.length) (clock : Clock) :
    (N.deliver E e k clock).arrivals = N.arrivals + 1 ∧
      (N.deliver E e k clock).ends.length = N.ends.length := by
  unfold Network.deliver
  simp only [hc, List.getElem?_eq_getElem hk]
  rw [arrivals_addTransaction, length_ends_addTransaction]
  refine ⟨sum_modify hc ?_, by rw [Network.modifyEnd, List.length_modify]⟩
  rw [ConnectionEnd.arrive, List.length_append, List.length_singleton]

theorem Floods.arrivals {as : List (Action ι)} (h : N.Floods E as) :
    (N.run E as).arrivals = N.arrivals + as.length ∧
      (N.run E as).ends.length = N.ends.length ∧ submitted E as = [] := by
  induction as generalizing N with
  | nil => exact ⟨rfl, rfl, rfl⟩
  | cons a as ih =>
    obtain ⟨⟨e, k, clock, c, rfl, hc, hk⟩, hrest⟩ := h
    obtain ⟨hcount, hlen, hnil⟩ := ih hrest
    obtain ⟨hone, hsame⟩ := arrivals_deliver (E := E) hc hk clock
    rw [Network.run, List.foldl_cons, ← Network.run, hcount, hlen]
    refine ⟨?_, hsame, hnil⟩
    rw [Network.step, hone, List.length_cons]
    omega

/-- Gossip in a network: no node announces a transaction twice, no end of a connection sends one
twice, none is sent to where it comes from by handling it, and it all ends. -/
theorem gossip_finite {start : ι → Node} (h₀ : ∀ i, (start i).signals = [])
    (as : List (Action ι)) :
    (∀ i, (((run E ⟨start, []⟩ as).nodes i).announced.map E.hashSignedTrx).Nodup) ∧
      (∀ c ∈ (run E ⟨start, []⟩ as).ends, (c.sent.map E.hashSignedTrx).Nodup) ∧
      (∀ e c, (run E ⟨start, []⟩ as).ends[e]? = some c → ∀ k clock,
        (((run E ⟨start, []⟩ as).deliver E e k clock).ends[c.peer]?).map ConnectionEnd.sent =
          ((run E ⟨start, []⟩ as).ends[c.peer]?).map ConnectionEnd.sent) ∧
      ∀ ds, (run E ⟨start, []⟩ as).Floods E ds →
        ds.length ≤ (run E ⟨start, []⟩ as).ends.length * (submitted E as).dedup.length := by
  have hrun := (gossips_start (E := E) h₀).run as
  rw [List.nil_append] at hrun
  refine ⟨hrun.nodup, fun c hc => hrun.nodup_sent hc, fun e c hc k clock =>
    sent_deliver hc k clock,
    fun ds hds => ?_⟩
  obtain ⟨hcount, hlen, hnil⟩ := hds.arrivals
  have hle := (hrun.run ds).arrivals_le
  rw [hcount, hlen, hnil, List.append_nil] at hle
  omega

def twoConnections : List (Action Bool) :=
  [.connect false true, .connect false true, .start 0, .start 1, .start 2, .start 3,
    .call false Node.noon (.call (.addTransaction Node.idle)), .deliver 0 0 Node.noon,
    .deliver 2 0 Node.noon]

theorem gossip_finite_twoConnections :
    (((run (Wire.externals nonceHash) ⟨fun _ => {}, []⟩ twoConnections).nodes
      true).announced.map
      (Wire.externals nonceHash).hashSignedTrx).Nodup :=
  (gossip_finite (fun _ => rfl) twoConnections).1 true

example : (run (Wire.externals nonceHash) ⟨fun _ => {}, []⟩ twoConnections).ends.map
    (fun c => c.sent.length) = [1, 0, 1, 1] := by
  decide +kernel

end Network

end Gpm
