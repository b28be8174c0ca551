import Gpm.Node.Agreement

namespace Gpm

open Lib (returned)

variable {E : Externals}

theorem filter_mem_keys {α β : Type} [DecidableEq α] {l s : List (α × β)} (hs : s.Sublist l)
    (hnodup : (l.map Prod.fst).Nodup) : (l.filter fun e => e.1 ∈ s.map Prod.fst) = s := by
  induction hs with
  | slnil => rfl
  | @cons s l a hs ih =>
    rw [List.map_cons, List.nodup_cons] at hnodup
    rw [List.filter_cons_of_neg, ih hnodup.2]
    rw [decide_eq_true_eq]
    exact fun hmem => hnodup.1 ((hs.map Prod.fst).subset hmem)
  | @cons_cons s l a hs ih =>
    rw [List.map_cons, List.nodup_cons] at hnodup
    have ha : a.1 ∈ (a :: s).map Prod.fst := List.mem_cons_self
    rw [List.filter_cons, if_pos (decide_eq_true ha)]
    congr 1
    conv_rhs => rw [← ih hnodup.2]
    apply List.filter_congr
    intro e he
    have hne : e.1 ≠ a.1 := fun heq => hnodup.1 (heq ▸ List.mem_map_of_mem he)
    simp only [List.map_cons, List.mem_cons, hne, false_or]

namespace Ledger

variable {v : Ledger} (gen : Name) {pre post : List (Hashcode × SignedTransaction)}
  {e : Hashcode × SignedTransaction}

theorem select_append (l l' : List (Hashcode × SignedTransaction)) :
    (select E gen v (l ++ l')).1 =
      (select E gen v l).1 ++ (select E gen (v.posts E (select E gen v l).2) l').1 := by
  induction l generalizing v with
  | nil => rfl
  | cons e rest ih =>
    rw [List.cons_append, select, select]
    simp only
    split
    · rw [ih, posts_append, List.cons_append]
    · exact ih

theorem mem_select_iff (hnodup : ((pre ++ e :: post).map Prod.fst).Nodup) :
    e.1 ∈ (select E gen v (pre ++ e :: post)).1.map Prod.fst ↔
      (transaction E e.2 gen (v.posts E (select E gen v pre).2)).1 = true := by
  rw [List.map_append, List.map_cons, List.nodup_append', List.nodup_cons] at hnodup
  obtain ⟨-, ⟨hpost, -⟩, hdisjoint⟩ := hnodup
  have hpre : e.1 ∉ (select E gen v pre).1.map Prod.fst := fun hmem =>
    hdisjoint (((sublist_select gen pre).map Prod.fst).subset hmem) List.mem_cons_self
  rw [select_append, List.map_append, List.mem_append, or_iff_right hpre, select]
  cases hr : (transaction E e.2 gen (v.posts E (select E gen v pre).2)).1 with
  | true =>
    simp only [if_true, iff_true]
    exact List.mem_cons_self
  | false =>
    simp only [Bool.false_eq_true, if_false, iff_false]
    exact fun hmem => hpost (((sublist_select gen post).map Prod.fst).subset hmem)

theorem filter_select (hnodup : ((pre ++ post).map Prod.fst).Nodup) :
    (pre.filter fun e => e.1 ∈ (select E gen v (pre ++ post)).1.map Prod.fst) =
      (select E gen v pre).1 := by
  rw [List.map_append, List.nodup_append'] at hnodup
  obtain ⟨hpre, -, hdisjoint⟩ := hnodup
  conv_rhs => rw [← filter_mem_keys (sublist_select (E := E) (v := v) gen pre) hpre]
  apply List.filter_congr
  intro e he
  have hpost : e.1 ∉ (select E gen (v.posts E (select E gen v pre).2) post).1.map Prod.fst :=
    fun hmem => hdisjoint (List.mem_map_of_mem he)
      (((sublist_select gen post).map Prod.fst).subset hmem)
  rw [select_append, List.map_append, decide_eq_decide, List.mem_append, or_iff_left hpost]

end Ledger

namespace Node

variable {n n' : Node} {clock : Clock} {b : Block}

theorem applyAll_kept (hn : Sound E n) (gen : Name) (l : List (Hashcode × SignedTransaction)) :
    ∃ db, DbM.applyAll E gen ((Ledger.select E gen (n.headDb.ledger E) l).1.map Prod.snd)
        (.trx n.headDb {}) = .ok true db ∧ WellFormed E db ∧
      db.ledger E = (n.headDb.ledger E).posts E (Ledger.select E gen (n.headDb.ledger E) l).2 := by
  obtain ⟨q, hall⟩ := DbM.applyAll_selected hn.head gen l
  have hadmits := Ledger.admitsAll_applyAll (E := E) hn.head.coherent gen
    ((Ledger.select E gen (n.headDb.ledger E) l).1.map Prod.snd)
  rw [Ledger.applyAll_select, ← ledger_overlay hn.head] at hadmits
  obtain ⟨hledger, hposts⟩ := hn.head.overlay.ledger_posts hadmits
  rw [ledger_overlay hn.head] at hledger hposts
  refine ⟨_, hall, hposts.moved q, ?_⟩
  rw [Database.ledger_moved, hledger]

/-- A block lists pending transactions in the order of their times, and it lists one exactly if
`apply` accepts it on the head after those in front of it that are listed. -/
theorem listed_iff (hr : Reachable E n) (hne : n.mBlockChain ≠ [])
    (hok : createGenBlock E clock n = .ok b n') :
    ∃ bs, n'.mBlockStateDb[b.state]? = some bs ∧
      bs.signedTransactions = ((E.sortByTime n.mTrxDb.pendingTransactions).filter
        fun e => e.1 ∈ bs.signedTransactions).map Prod.fst ∧
      ∀ pre e post, E.sortByTime n.mTrxDb.pendingTransactions = pre ++ e :: post →
        ∃ db, DbM.applyAll E n.mGenName
            ((pre.filter fun e => e.1 ∈ bs.signedTransactions).map Prod.snd) (.trx n.headDb {}) =
              .ok true db ∧
          (e.1 ∈ bs.signedTransactions ↔
            returned (DbM.apply E e.2 n.mGenName db) = some true) := by
  have hn := hr.sound
  unfold createGenBlock at hok
  rw [Lib.modify_bind, Lib.get_bind] at hok
  simp only [if_neg hne] at hok
  have hgen : WellFormed E (Node.genDb { n with mGenTrx := {} }) := hn.head.overlay
  obtain ⟨bs, hbs, -, s, hs, hlist, -⟩ := of_createNextBlock hgen hok
  change s = Ledger.select E n.mGenName ((Database.trx n.headDb {}).ledger E)
    (E.sortByTime n.mTrxDb.pendingTransactions) at hs
  rw [ledger_overlay hn.head] at hs
  have hnodup := nodup_pendingTransactions E n.mTrxDb
  have hsub := Ledger.sublist_select (E := E) (v := n.headDb.ledger E) n.mGenName
    (E.sortByTime n.mTrxDb.pendingTransactions)
  refine ⟨bs, hbs, ?_, fun pre e post hsplit => ?_⟩
  · rw [hlist, hs]
    congr 1
    exact (filter_mem_keys hsub hnodup).symm
  · obtain ⟨db, hall, hdb, hledger⟩ := applyAll_kept hn n.mGenName pre
    rw [hsplit] at hs hnodup
    refine ⟨db, ?_, ?_⟩
    · rw [hlist, hs, Ledger.filter_select n.mGenName hnodup]
      exact hall
    · rw [DbM.returned_apply _ _ hdb, Option.some_inj, hledger, hlist, hs]
      exact Ledger.mem_select_iff n.mGenName hnodup

def mixedNode : Node :=
  Lib.finalState (runAll (Wire.externals nonceHash) noon
    [.addTransaction idle, .addTransaction unknownCommand] firstNode)

theorem listed_iff_mixedNode : ∃ (b : Block) (n' : Node) (bs : BlockState) (db : Database),
    n'.mBlockStateDb[b.state]? = some bs ∧
      ((Wire.externals nonceHash).hashSignedTrx unknownCommand ∈ bs.signedTransactions ↔
        returned (DbM.apply (Wire.externals nonceHash) unknownCommand [] db) = some true) := by
  have hreach : Reachable (Wire.externals nonceHash) mixedNode :=
    reachable_firstNode.runAll (fun _ _ _ => trivial) (Lib.eq_ok_of_returned (by decide +kernel))
  have hrun : (returned (createGenBlock (Wire.externals nonceHash) noon mixedNode)).isSome =
      true := by
    decide +kernel
  obtain ⟨b, hb⟩ := Option.isSome_iff_exists.mp hrun
  obtain ⟨bs, hbs, -, hlisted⟩ := listed_iff hreach (by decide +kernel)
      (Lib.eq_ok_of_returned hb)
  have hsorted : (Wire.externals nonceHash).sortByTime mixedNode.mTrxDb.pendingTransactions =
      [((Wire.externals nonceHash).hashSignedTrx idle, idle)] ++
        ((Wire.externals nonceHash).hashSignedTrx unknownCommand, unknownCommand) :: [] := by
    decide +kernel
  obtain ⟨db, -, hiff⟩ := hlisted _ _ _ hsorted
  have hname : mixedNode.mGenName = [] := by decide +kernel
  rw [hname] at hiff
  exact ⟨b, _, bs, db, hbs, hiff⟩

end Node

end Gpm
