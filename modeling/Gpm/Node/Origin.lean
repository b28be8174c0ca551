import Mathlib.Data.List.Dedup
import Gpm.Node.FullBlocks
import Gpm.Node.Inclusion

namespace Gpm

namespace Node

variable {E : Externals} {n n' : Node} {k : Hashcode} {bs : BlockState}

def FromGenesis (E : Externals) (n : Node) : Prop :=
  ∃ t g gs, n.mBlockChain.head? = some g ∧ Genesis E t true {} g gs

theorem head?_dropLast_concat {α : Type} {l : List α} (h : 2 ≤ l.length) (a : α) :
    (l.dropLast ++ [a]).head? = l.head? := by
  cases l with
  | nil => cases h
  | cons b l =>
    cases l with
    | nil => exact absurd h (Nat.not_succ_le_self 1)
    | cons c l => rfl

theorem forall₂_dropLast {α β : Type} {R : α → β → Prop} {l : List α} {l' : List β}
    (h : List.Forall₂ R l l') : List.Forall₂ R l.dropLast l'.dropLast := by
  rw [List.dropLast_eq_take, List.dropLast_eq_take, ← h.length_eq]
  exact List.forall₂_take _ h

theorem Genesis.found_iff {t : UInt32} {tried : Bool} {blk : Block}
    (h : Genesis E t tried n blk bs) : tried = true ↔ E.hashBlock blk < getMaxHash := by
  have hmined := h.mined
  unfold generate at hmined
  obtain ⟨hfound, hblk⟩ := Prod.mk.inj hmined
  rw [← hfound, hblk, decide_eq_true_eq]

/-- What an honest peer sends as a block: one with its own state, or the answer for a block that it
does not have. -/
def Call.Honest (E : Externals) : Call → Prop
  | .addFullBlock fbs =>
    E.hashBlockState fbs.blkState = fbs.blk.state ∨ ∃ garbage, fbs = .unknown garbage
  | _ => True

/-- Nothing hashes to the number that stands for no hash. -/
structure NeverZero (E : Externals) : Prop where
  blockState : ∀ bs, E.hashBlockState bs ≠ 0
  hashes : ∀ hs, E.hashHashes hs ≠ 0

theorem neverZero_wire (hashBlock : Block → Hashcode) : NeverZero (Wire.externals hashBlock) :=
  ⟨fun _ => Nat.ne_of_gt (Lib.Format.value_pos _), fun _ =>
    Nat.ne_of_gt (Lib.Format.value_pos _)⟩

def Stores (E : Externals) (blank : Hashcode → Prop) (h : Hashcode) (bs : BlockState) : Prop :=
  E.hashBlockState bs = h ∨ blank h ∧ bs.stateDb = 0

def Unhashed (E : Externals) (blank : Hashcode → Prop) : Prop :=
  ∀ h, blank h → (∀ bs, E.hashBlockState bs ≠ h) ∧ ∀ hs, E.hashHashes hs ≠ 0

theorem NeverZero.unhashed (h : NeverZero E) : Unhashed E (· = 0) := by
  rintro _ rfl
  exact ⟨h.blockState, h.hashes⟩

theorem unhashed_false (E : Externals) : Unhashed E fun _ => False := fun _ hno => hno.elim

variable {blank : Hashcode → Prop}

theorem Stores.hash (h : Stores E blank k bs) (hk : ¬ blank k) : E.hashBlockState bs = k :=
  h.resolve_right fun hblank => hk hblank.1

def Addressed (E : Externals) (blank : Hashcode → Prop) (n : Node) : Prop :=
  ∀ h bs, n.mBlockStateDb[h]? = some bs → Stores E blank h bs

namespace Addressed

variable {h : Hashcode} {bs' : BlockState}

theorem insert (hn : n.Addressed E blank) (hstore : Stores E blank h bs) (k : Hashcode)
    (bs' : BlockState) (hget : (n.mBlockStateDb.insert h bs)[k]? = some bs') :
    Stores E blank k bs' :=
  BlockStateDb.of_insert (P := Stores E blank) hn hstore k bs' hget

theorem generated (hn : n.Addressed E blank) (hgen : Generated E n n') :
    n'.Addressed E blank := by
  intro h bs hbs
  obtain hold | hnew := hgen.blockState h bs hbs
  · exact hn h bs hold
  · exact Or.inl hnew.1

theorem start (hn : n.Addressed E blank) {tried : Bool} {blk : Block}
    (hbs : Stores E blank blk.state bs) (hstart : Starts E tried n blk bs n') :
    n'.Addressed E blank := by
  obtain ⟨p, -, rfl⟩ := hstart
  exact hn.insert hbs

variable (hE : Function.Injective E.hashBlockState) (hn : n.Addressed E blank)

include hE hn

theorem insert_kept (hstore : Stores E blank h bs) (hk : ¬ blank k)
    (hget : n.mBlockStateDb[k]? = some bs') : (n.mBlockStateDb.insert h bs)[k]? = some bs' := by
  rw [Std.ExtTreeMap.getElem?_insert]
  split
  · rename_i hkey
    obtain rfl := Std.LawfulEqCmp.compare_eq_iff_eq.mp hkey
    rw [hE ((hstore.hash hk).trans ((hn _ _ hget).hash hk).symm)]
  · exact hget

theorem generated_kept (hgen : Generated E n n') (hk : ¬ blank k)
    (hget : n.mBlockStateDb[k]? = some bs) : n'.mBlockStateDb[k]? = some bs := by
  obtain ⟨bs', hget', rfl | hhash⟩ := hgen.known k bs hget
  · exact hget'
  · rwa [hE (hhash.trans ((hn k bs hget).hash hk).symm)] at hget'

end Addressed

structure Stocked (E : Externals) (blank : Hashcode → Prop) (n : Node) : Prop where
  own : n.Addressed E blank
  states : List.Forall₂ (fun b bs => ¬ blank b.state ∧ n.mBlockStateDb[b.state]? = some bs)
    n.mBlockChain n.applied

def storedStates (E : Externals) (blank : Hashcode → Prop) : Rules where
  stores := Stores E blank
  starts _ blk bs := E.hashBlockState bs = blk.state

theorem Attaches.not_blank {db : Database} {pool : TrxDb} {blk : Block}
    {strxs : List SignedTransaction} {l : Layer} {p : ℕ} (hblank : Unhashed E blank)
    (hstore : Stores E blank blk.state bs) (ha : Attaches E db pool blk bs strxs l p) :
    ¬ blank blk.state := by
  intro hblk
  obtain ⟨hstate, hhashes⟩ := hblank _ hblk
  obtain hhash | ⟨-, hzero⟩ := hstore
  · exact hstate bs hhash
  · obtain ⟨db₁, -, -, hhash, -⟩ := DbM.of_applyBlock_true ha.applied
    exact hhashes _ (hhash.symm.trans hzero)

theorem stocked_inductive (hE : Function.Injective E.hashBlockState) (hblank : Unhashed E blank) :
    Inductive E (storedStates E blank) (Sound E) (Stocked E blank) where
  empty := ⟨fun _ _ hbs => by simp at hbs, .nil⟩
  generated _ hn hgen := by
    refine ⟨hn.own.generated hgen, ?_⟩
    rw [hgen.blockChain, hgen.applied]
    exact hn.states.imp fun _ _ hbs => ⟨hbs.1, hn.own.generated_kept hE hgen hbs.1 hbs.2⟩
  learn _ hn _ _ := ⟨hn.own, hn.states⟩
  store _ hn hstore := ⟨hn.own.insert hstore,
    hn.states.imp fun _ _ hbs => ⟨hbs.1, hn.own.insert_kept hE hstore hbs.1 hbs.2⟩⟩
  start _ hn hnil hrule hstart := by
    have hstate := hrule.elim (fun hr => hr.2.2) fun ⟨_, _, hg⟩ => hg.hashBlockState
    have happ : _ = [] := List.forall₂_nil_left_iff.mp (hnil ▸ hn.states)
    refine ⟨hn.own.start (Or.inl hstate) hstart, ?_⟩
    obtain ⟨p, -, rfl⟩ := hstart
    simp only [started, hnil, happ, List.nil_append]
    exact .cons ⟨fun hno => (hblank _ hno).1 _ hstate, Std.ExtTreeMap.getElem?_insert_self⟩ .nil
  refused _ hn _ _ _ := ⟨hn.own, hn.states⟩
  appended _ hn _ hext ha := ⟨hn.own, List.rel_append hn.states
    (.cons ⟨ha.not_blank hblank (hn.own _ _ hext.known), hext.known⟩ .nil)⟩
  replaced _ hn _ hcomp ha := ⟨hn.own, List.rel_append (forall₂_dropLast hn.states)
    (.cons ⟨ha.not_blank hblank (hn.own _ _ hcomp.known), hcomp.known⟩ .nil)⟩

theorem Stocked.of_ownStates (hE : Function.Injective E.hashBlockState)
    (hr : ReachableBy E (fun _ _ c => c.SendsOwnState E) n) : Stocked E (fun _ => False) n := by
  refine (stocked_inductive hE (unhashed_false E)).reachable (hr.mono fun n clock c hown => ?_)
  apply Rules.allow_of_starts (fun _ _ => trivial) (fun _ _ _ => trivial) fun _ _ => trivial
  rintro fbs rfl
  exact ⟨Or.inl hown, fun _ _ => hown⟩

theorem Stocked.of_honest (hE : Function.Injective E.hashBlockState) (hzero : NeverZero E)
    (hr : ReachableBy E (fun _ _ c => c.Honest E) n) : Stocked E (· = 0) n := by
  refine (stocked_inductive hE hzero.unhashed).reachable (hr.mono fun n clock c hhonest => ?_)
  apply Rules.allow_of_starts (fun _ _ => trivial) (fun _ _ _ => trivial) fun _ _ => trivial
  rintro fbs rfl
  obtain hown | ⟨garbage, rfl⟩ := hhonest
  · exact ⟨Or.inl hown, fun _ _ => hown⟩
  · exact ⟨Or.inr ⟨rfl, rfl⟩, fun _ hfirst =>
      absurd hfirst (show (-1 : ℤ) ≠ 0 by decide)⟩

def Founded (E : Externals) (n : Node) : Prop :=
  ∀ g ∈ n.mBlockChain.head?, ∀ gs ∈ n.applied.head?,
    E.hashBlock g < getMaxHash ∧ gs.stateDb = stateHash E []

/-- The log of a node, as long as the first block was mined on an empty one. -/
structure Told (E : Externals) (n : Node) : Prop where
  length : n.applied.length = n.mBlockChain.length
  valid : n.mBlockChain.length ≤ 1 ∨ validate E.hashBlock n.mBlockChain
  young : n.mBlockChain.length ≤ 1 → n.stateDb.Logs E []
  recorded : Founded E n → ∃ es, Recorded E n es

namespace Told

theorem generated (h : Told E n) (hn : Sound E n) (hgen : Generated E n n') : Told E n' := by
  obtain ⟨p, -, hstate, hhead⟩ := hgen.moves
  have hfounded : Founded E n' → Founded E n := by
    rw [Founded, Founded, hgen.blockChain, hgen.applied]
    exact id
  constructor
  · rw [hgen.blockChain, hgen.applied]
    exact h.length
  · rw [hgen.blockChain]
    exact h.valid
  · rw [hgen.blockChain, hstate]
    exact fun hlen => (h.young hlen).moved hn.state p
  · exact fun hf => (h.recorded (hfounded hf)).imp fun _ hes =>
      hes.moves hn hgen.blockChain hgen.applied hstate hhead

theorem start (h : Told E n) (hn : Sound E n) (hnil : n.mBlockChain = []) {tried : Bool}
    {blk : Block} (htried : E.hashBlock blk < getMaxHash → tried = true)
    (hstart : Starts E tried n blk bs n') : Told E n' := by
  have happ : n.applied = [] := List.length_eq_zero_iff.mp (by rw [h.length, hnil]; rfl)
  have hchain := hstart.blockChain hnil
  have happ' : n'.applied = [bs] := by
    obtain ⟨p, -, rfl⟩ := hstart
    exact congrArg (· ++ [bs]) happ
  have hlen : n'.mBlockChain.length ≤ 1 := by rw [hchain, List.length_singleton]
  constructor
  · rw [hchain, happ']
    rfl
  · exact Or.inl hlen
  · intro _
    have hlogs := h.young (by rw [hnil]; exact Nat.zero_le 1)
    obtain ⟨p, -, rfl⟩ := hstart
    rw [stateDb_started]
    exact hlogs.moved hn.state p
  · intro hf
    obtain ⟨es, hes⟩ := h.recorded (by rw [Founded, hnil]; intro g hg; cases hg)
    obtain ⟨hwork, hhash⟩ := hf blk (by rw [hchain]; rfl) bs (by rw [happ']; rfl)
    exact ⟨_, hes.start hn hnil (fun _ _ => ⟨htried hwork, hhash⟩) hstart⟩

variable {clock : Clock} {blk : Block} {strxs : List SignedTransaction} {l : Layer} {p : ℕ}

theorem appended (h : Told E n) (hn : Sound E n) (hext : Extends E clock n blk bs)
    (ha : Attaches E n.headDb n.mTrxDb blk bs strxs l p) :
    Told E (settleHead blk bs strxs l ((n.pushBack blk).moved p)) := by
  have hpos := List.length_pos_iff.mpr hext.nonempty
  constructor
  · change (n.applied ++ [bs]).length = (n.mBlockChain ++ [blk]).length
    rw [List.length_append, List.length_append, h.length]
    rfl
  · exact Or.inr hext.valid
  · change (n.mBlockChain ++ [blk]).length ≤ 1 → _
    rw [List.length_append, List.length_singleton]
    omega
  · intro hf
    obtain ⟨es, hes⟩ := h.recorded (fun g hg gs hgs => hf g
      (List.mem_head?_append_of_mem_head? hg) gs (List.mem_head?_append_of_mem_head? hgs))
    exact ⟨_, hes.appended hn ha⟩

theorem replaced (h : Told E n) (hn : Sound E n) (hcomp : Competes E clock n blk bs)
    (ha : Attaches E n.stateDb (n.competing bs) blk bs strxs l p) :
    Told E (swapHead blk bs strxs l
      { (n.setBack blk).moved p with mTrxDb := n.competing bs }) := by
  have hpos := List.length_pos_iff.mpr hcomp.nonempty
  have hlen : (n.mBlockChain.dropLast ++ [blk]).length = n.mBlockChain.length := by
    rw [List.length_append, List.length_dropLast, List.length_singleton]
    omega
  constructor
  · change (n.applied.dropLast ++ [bs]).length = (n.mBlockChain.dropLast ++ [blk]).length
    rw [hlen, List.length_append, List.length_dropLast, h.length, List.length_singleton]
    omega
  · exact Or.inr hcomp.valid
  · change (n.mBlockChain.dropLast ++ [blk]).length ≤ 1 → _
    rw [hlen]
    exact fun hyoung => (h.young hyoung).moved hn.state p
  · intro hf
    by_cases hyoung : n.mBlockChain.length ≤ 1
    · have hchain : ([] : List Entry).map Entry.blk = n.mBlockChain.dropLast := by
        rw [List.map_nil, eq_comm, ← List.length_eq_zero_iff, List.length_dropLast]
        omega
      have happ : ([] : List Entry).map Entry.blkState = n.applied.dropLast := by
        rw [List.map_nil, eq_comm, ← List.length_eq_zero_iff, List.length_dropLast, h.length]
        omega
      exact ⟨_, Recorded.competed hn hchain happ .nil (h.young hyoung) ha⟩
    · change ∀ g ∈ (n.mBlockChain.dropLast ++ [blk]).head?,
          ∀ gs ∈ (n.applied.dropLast ++ [bs]).head?,
        _ at hf
      rw [head?_dropLast_concat (by omega), head?_dropLast_concat (by rw [h.length]; omega)] at hf
      obtain ⟨es, hes⟩ := h.recorded hf
      exact ⟨_, hes.replaced hn ha⟩

end Told

theorem told_inductive : Inductive E {} (Sound E) (Told E) where
  empty := ⟨rfl, Or.inl (Nat.zero_le 1), fun _ => Database.Blank.logs Database.blank_fresh.1,
    fun _ => recorded_inductive.empty⟩
  generated hn h hgen := h.generated hn hgen
  learn _ h _ _ := ⟨h.length, h.valid, h.young, fun hf => (h.recorded hf).imp fun _ hes =>
    ⟨hes.blockChain, hes.applied, hes.head, hes.state⟩⟩
  store _ h _ := ⟨h.length, h.valid, h.young, fun hf => (h.recorded hf).imp fun _ hes =>
    ⟨hes.blockChain, hes.applied, hes.head, hes.state⟩⟩
  start hn h hnil hrule hstart := by
    refine h.start hn hnil (fun hwork => ?_) hstart
    obtain ⟨htried, -⟩ | ⟨t, -, hgenesis⟩ := hrule
    · exact htried
    · exact hgenesis.found_iff.mpr hwork
  refused _ h _ _ _ := ⟨h.length, h.valid, h.young, fun hf => (h.recorded hf).imp fun _ hes =>
    ⟨hes.blockChain, hes.applied, hes.head, hes.state⟩⟩
  appended hn h _ hext ha := h.appended hn hext ha
  replaced hn h _ hcomp ha := h.replaced hn hcomp ha

def dedup (bs : BlockState) : BlockState :=
  { bs with signedTransactions := bs.signedTransactions.dedup }

theorem mem_dedup {h : Hashcode} : h ∈ (dedup bs).signedTransactions ↔
    h ∈ bs.signedTransactions :=
  List.mem_dedup

theorem fresh_dedup {bss : List BlockState} (h : ∀ b ∈ bss.head?, b.signedTransactions = []) :
    Fresh bss (dedup bs) := by
  refine ⟨List.nodup_dedup _, fun b hb k _ => ?_⟩
  rw [h b hb]
  exact List.not_mem_nil

structure Spent (n : Node) : Prop where
  length : n.applied.length = n.mBlockChain.length
  once : (∀ bs ∈ n.applied.head?, bs.signedTransactions = []) →
    Once n.mTrxDb.stage (n.applied.map dedup)

theorem head?_map_dedup {bss : List BlockState}
    (h : ∀ bs ∈ bss.head?, bs.signedTransactions = []) :
    ∀ bs ∈ (bss.map dedup).head?, bs.signedTransactions = [] := by
  intro bs hbs
  rw [List.head?_map] at hbs
  obtain ⟨bs', hbs', rfl⟩ := Option.mem_map.mp hbs
  rw [dedup, h bs' hbs']
  rfl

namespace Spent

variable {clock : Clock} {blk : Block} {strxs : List SignedTransaction} {l : Layer} {p : ℕ}

theorem appended (h : Spent n) (hp : n.mTrxDb.Pool E) (hext : Extends E clock n blk bs)
    (ha : Attaches E n.headDb n.mTrxDb blk bs strxs l p) :
    Spent (settleHead blk bs strxs l ((n.pushBack blk).moved p)) := by
  have hpos := List.length_pos_iff.mpr hext.nonempty
  constructor
  · change (n.applied ++ [bs]).length = (n.mBlockChain ++ [blk]).length
    rw [List.length_append, List.length_append, h.length]
    rfl
  · intro hfirst
    have hfirst' : ∀ b ∈ n.applied.head?, b.signedTransactions = [] := fun b hb =>
      hfirst b (List.mem_head?_append_of_mem_head? hb)
    have hne : n.applied.map dedup ≠ [] := by
      rw [← List.length_pos_iff, List.length_map, h.length]
      exact hpos
    change Once _ ((n.applied ++ [bs]).map dedup)
    rw [List.map_append]
    exact (h.once hfirst').settleHead hp hne (fresh_dedup (head?_map_dedup hfirst'))
      (fun _ hh => mem_dedup.mp hh) ha

theorem replaced (h : Spent n) (hp : n.mTrxDb.Pool E) (hcomp : Competes E clock n blk bs)
    (ha : Attaches E n.stateDb (n.competing bs) blk bs strxs l p) :
    Spent (swapHead blk bs strxs l
      { (n.setBack blk).moved p with mTrxDb := n.competing bs }) := by
  have hpos := List.length_pos_iff.mpr hcomp.nonempty
  constructor
  · change (n.applied.dropLast ++ [bs]).length = (n.mBlockChain.dropLast ++ [blk]).length
    rw [List.length_append, List.length_append, List.length_dropLast,
      List.length_dropLast, h.length]
    rfl
  · intro hfirst
    change Once _ ((n.applied.dropLast ++ [bs]).map dedup)
    change ∀ b ∈ (n.applied.dropLast ++ [bs]).head?, _ at hfirst
    by_cases hone : n.applied.length ≤ 1
    · have hnil : n.applied.dropLast = [] := by
        rw [← List.length_eq_zero_iff, List.length_dropLast]
        omega
      rw [hnil]
      exact Once.singleton (List.nodup_dedup _)
    · have hhead := head?_dropLast_concat (l := n.applied) (by omega)
      rw [hhead] at hfirst
      rw [List.map_append, List.map_dropLast]
      refine (h.once hfirst).swapHead hp (fresh_dedup ?_) (fun _ hh => mem_dedup.mp hh) ha
      intro b hb
      apply head?_map_dedup hfirst b
      rw [← head?_dropLast_concat (a := dedup bs) (by rw [List.length_map]; omega)]
      exact List.mem_head?_append_of_mem_head? hb

end Spent

theorem spent_inductive : Inductive E {} (Sound E) Spent where
  empty := ⟨rfl, fun _ => ⟨List.nodup_nil, fun _ h => by simp at h,
    fun _ h => by simp at h⟩⟩
  generated _ h hgen := by
    constructor
    · rw [hgen.applied, hgen.blockChain]
      exact h.length
    · rw [hgen.applied, hgen.trxDb]
      exact h.once
  learn hn h hnew _ := ⟨h.length, fun hfirst => (h.once hfirst).learn hn.pool hnew⟩
  store _ h _ := ⟨h.length, h.once⟩
  start _ h hnil _ hstart := by
    have happ : _ = [] := List.length_eq_zero_iff.mp (h.length.trans (congrArg List.length hnil))
    obtain ⟨p, -, rfl⟩ := hstart
    simp only [started, hnil, happ, List.nil_append]
    exact ⟨rfl, fun _ => Once.singleton (List.nodup_dedup _)⟩
  refused hn h _ _ _ := ⟨h.length, fun hfirst => (h.once hfirst).competed hn.pool _⟩
  appended hn h _ hext ha := h.appended hn.pool hext ha
  replaced hn h _ hcomp ha := h.replaced hn.pool hcomp ha

theorem rel_head? {α β : Type} {R : α → β → Prop} {l : List α}
    {l' : List β} {a : α} {b : β}
    (h : List.Forall₂ R l l') (ha : a ∈ l.head?) (hb : b ∈ l'.head?) : R a b := by
  cases h with
  | nil => cases ha
  | cons hab _ =>
    cases ha
    cases hb
    exact hab

section Pieces

variable {es : List Entry}

theorem Spent.known (h : Spent n) (happ : es.map Entry.blkState = n.applied)
    (hfirst : ∀ e ∈ es.head?, e.blkState.signedTransactions = []) {e : Entry} (he : e ∈ es)
    {k : Hashcode} (hk : k ∈ e.blkState.signedTransactions) : n.mTrxDb.knows k := by
  rw [TrxDb.knows_iff_stage]
  have honce := h.once (by
    rw [← happ, List.head?_map]
    intro bs hbs
    obtain ⟨e', he', rfl⟩ := Option.mem_map.mp hbs
    exact hfirst e' he')
  rw [← happ, List.map_map] at honce
  cases es with
  | nil => cases he
  | cons g es =>
    cases he with
    | head =>
      rw [hfirst e rfl] at hk
      cases hk
    | tail _ he =>
      obtain hs | hs := honce.settled (List.mem_map_of_mem he) (mem_dedup.mpr hk)
      · rw [hs]
        exact Option.some_ne_none _
      · rw [hs]
        exact Option.some_ne_none _

theorem Spent.disjoint (h : Spent n) (happ : es.map Entry.blkState = n.applied)
    (hfirst : ∀ e ∈ es.head?, e.blkState.signedTransactions = []) :
    es.Pairwise fun e e' =>
      ∀ h ∈ e.blkState.signedTransactions, h ∉ e'.blkState.signedTransactions := by
  have hnodup := (h.once (by
    rw [← happ, List.head?_map]
    intro bs hbs
    obtain ⟨e', he', rfl⟩ := Option.mem_map.mp hbs
    exact hfirst e' he')).nodup
  rw [included, List.nodup_flatMap, ← happ, List.map_map, List.pairwise_map] at hnodup
  exact hnodup.2.imp fun hdisjoint k hk hk' => hdisjoint (mem_dedup.mpr hk) (mem_dedup.mpr hk')

end Pieces

theorem serves_of_reachable (hE : Function.Injective E.hashBlockState)
    (hT : Function.Injective E.hashSignedTrx)
    (hr : Reachable E n) (hstocked : Stocked E blank n) (hgen : FromGenesis E n) :
    ∃ es, Serves E n es ∧ Followable E es ∧ es ≠ [] ∧
      ∀ e ∈ es, E.hashBlockState e.blkState = e.blk.state := by
  obtain ⟨t, g, gs, hg, hgenesis⟩ := hgen
  have htold := told_inductive.reachable (hr.mono fun _ _ _ _ => Rules.allow_default _ _ _)
  have hspent := spent_inductive.reachable (hr.mono fun _ _ _ _ => Rules.allow_default _ _ _)
  have hgs : ∀ bs ∈ n.applied.head?, bs = gs := by
    intro bs hbs
    obtain ⟨hblank, hbs'⟩ := rel_head? hstocked.states hg hbs
    exact hE (((hstocked.own _ _ hbs').hash hblank).trans hgenesis.hashBlockState.symm)
  have hchecksum : gs.stateDb = stateHash E [] := hgenesis.checksum
  obtain ⟨es, hes⟩ := htold.recorded (by
    intro g' hg' gs' hgs'
    rw [hgs gs' hgs', Option.some.inj (hg'.symm.trans hg)]
    exact ⟨hgenesis.found_iff.mp rfl, hchecksum⟩)
  have hfirst : ∀ e ∈ es.head?, e.blkState = gs := by
    intro e he
    apply hgs
    rw [← hes.applied, List.head?_map]
    exact Option.mem_map_of_mem _ he
  have hnone : ∀ e ∈ es.head?, e.blkState.signedTransactions = [] := fun e he => by
    rw [hfirst e he, hgenesis.signedTransactions]
  obtain ⟨ps, hc, hlogs⟩ := hes.head
  have hlists := hc.lists hnone
  have hstates : ∀ e ∈ es,
      ¬ blank e.blk.state ∧ n.mBlockStateDb[e.blk.state]? = some e.blkState := by
    have hforall := hstocked.states
    rwa [← hes.blockChain, ← hes.applied, List.forall₂_map_left_iff,
      List.forall₂_map_right_iff,
      List.forall₂_same] at hforall
  refine ⟨es, ⟨hr.sound, hes.blockChain, ⟨ps, hc, hlogs⟩,
    fun e he => (hstates e he).2, fun e he => ?_⟩,
    ⟨⟨ps, hc⟩, ?_, hlists, fun e he => ⟨?_, ?_⟩, hspent.disjoint hes.applied hnone⟩, ?_,
    fun e he => (hstocked.own _ _ (hstates e he).2).hash (hstates e he).1⟩
  · exact lists_holds hT (hlists e he) hr.sound.pool fun k hk =>
      hspent.known hes.applied hnone he hk
  · rw [hes.blockChain, ← List.length_map (f := Entry.blk), hes.blockChain]
    exact htold.valid
  · have hl := hlists e (List.mem_of_mem_head? he)
    rw [Entry.Lists, hnone e he] at hl
    exact List.map_eq_nil_iff.mp hl
  · rw [hfirst e he, hchecksum]
  · rintro rfl
    rw [← hes.blockChain] at hg
    cases hg

end Node

end Gpm
