import Gpm.StateDb.Frame
import Gpm.StateDb.Reachable
import Gpm.StateDb.StateHash

namespace Gpm

variable (E : Externals)

def endBlock (b : Block) (gen : Name) : Posting where
  record := .endBlock b gen

namespace Ledger

def applyAll (gen : Name) : Ledger → List SignedTransaction → Bool × List Posting
  | _, [] => (true, [])
  | v, t :: ts =>
    let r := transaction E t gen v
    if r.1 then
      let r' := applyAll gen (v.posts E r.2) ts
      (r'.1, r.2 ++ r'.2)
    else (false, r.2)

variable {E} {v : Ledger}

theorem admitsAll_applyAll (h : v.Coherent) (gen : Name) (ts : List SignedTransaction) :
    v.AdmitsAll E (applyAll E gen v ts).2 := by
  induction ts generalizing v with
  | nil => trivial
  | cons t ts ih =>
    have ht : v.AdmitsAll E (transaction E t gen v).2 := admitsAll_transaction h
    unfold applyAll
    simp only
    split
    · exact admitsAll_append ht (ih (h.posts ht))
    · exact ht

theorem admits_endBlock (b : Block) (gen : Name) : v.Admits (endBlock b gen) where
  name := by simp [endBlock]
  account := by simp [endBlock, Record.accounts]

end Ledger

def packPosts : ℕ → List Posting → List UInt8
  | _, [] => []
  | size, e :: es =>
    E.raw.pack ⟨e.record, size⟩ ++
      packPosts (size + (E.raw.pack ⟨e.record, size⟩).length) es

namespace Database

variable {E} {db base : Database} {l : Layer} {es : List Posting}

theorem flat_posts (h : db ≠ .null) :
    (db.posts E es).flat = db.flat ++ packPosts E db.size es := by
  induction es generalizing db with
  | nil => simp [packPosts]
  | cons e es ih =>
    rw [posts_cons, ih (post_ne_null h), flat_post h, size_post h, packPosts, List.append_assoc]

theorem posts_trx (es : List Posting) (base : Database) (l : Layer) :
    (Database.trx base l).posts E es = .trx base ((Database.trx base l).posts E es).layer := by
  induction es generalizing l with
  | nil => rfl
  | cons e es ih => exact ih _

@[simp] theorem size_posts_moved (p : ℕ) (es : List Posting) :
    ((db.moved p).posts E es).size = (db.posts E es).size := by
  rw [← moved_posts, size_moved]

@[simp] theorem flat_posts_moved (p : ℕ) (es : List Posting) :
    ((db.moved p).posts E es).flat = (db.posts E es).flat := by
  rw [← moved_posts, flat_moved]

@[simp] theorem layer_moved (p : ℕ) (db : Database) : (db.moved p).layer = db.layer := by
  cases db <;> rfl

@[simp] theorem layer_posts_moved (p : ℕ) (es : List Posting) :
    ((db.moved p).posts E es).layer = (db.posts E es).layer := by
  rw [← moved_posts, layer_moved]

end Database

namespace Layer

theorem append_nil (l : Layer) : l.append {} = l := by
  have ht : l.lastTransferMap ∪ ∅ = l.lastTransferMap :=
    Std.ExtTreeMap.ext_getElem? fun _ => by simp [Std.ExtTreeMap.getElem?_union]
  have hn : l.lastNameEditMap ∪ ∅ = l.lastNameEditMap :=
    Std.ExtTreeMap.ext_getElem? fun _ => by simp [Std.ExtTreeMap.getElem?_union]
  simp [append, ht, hn]

theorem nil_append (l : Layer) : Layer.append {} l = l := by
  have ht : ∅ ∪ l.lastTransferMap = l.lastTransferMap :=
    Std.ExtTreeMap.ext_getElem? fun _ => by simp [Std.ExtTreeMap.getElem?_union]
  have hn : ∅ ∪ l.lastNameEditMap = l.lastNameEditMap :=
    Std.ExtTreeMap.ext_getElem? fun _ => by simp [Std.ExtTreeMap.getElem?_union]
  simp [append, ht, hn]

theorem append_post (l l' : Layer) (size : ℕ) (e : Posting) :
    l.append (l'.post E size e) = (l.append l').post E size e := by
  have ht : ∀ (as : List AccountKey) (m m' : AccountIndex),
      m ∪ as.foldl (fun m a => m.insert a size) m' =
        as.foldl (fun m a => m.insert a size) (m ∪ m') := by
    intro as
    induction as with
    | nil => exact fun _ _ => rfl
    | cons a as ih =>
      intro m m'
      rw [List.foldl_cons, List.foldl_cons, ih]
      congr 1
      apply Std.ExtTreeMap.ext_getElem?
      intro k
      simp only [Std.ExtTreeMap.getElem?_union, Std.ExtTreeMap.getElem?_insert]
      split <;> simp
  have hn : ∀ m m' : NameIndex, m ∪ (e.name.map (m'.insert · size)).getD m' =
      (e.name.map ((m ∪ m').insert · size)).getD (m ∪ m') := by
    intro m m'
    cases e.name with
    | none => rfl
    | some n =>
      apply Std.ExtTreeMap.ext_getElem?
      intro k
      simp only [Option.map_some, Option.getD_some, Std.ExtTreeMap.getElem?_union,
        Std.ExtTreeMap.getElem?_insert]
      split <;> simp
  simp only [append, post, ht, hn, List.append_assoc]

end Layer

namespace Database

variable {E} {base : Database}

theorem append_posts (h : base ≠ .null) (es : List Posting) (l : Layer) :
    base.append ((Database.trx base l).posts E es).layer = (base.append l).posts E es := by
  induction es generalizing l with
  | nil => rfl
  | cons e es ih =>
    have hpost : base.append (l.post E (Database.trx base l).size e) =
        (base.append l).post E e := by
      rw [post, size_append h]
      cases base with
      | null => exact absurd rfl h
      | file d => simp only [append, modifyLayer, Layer.append_post]
      | trx base l' => simp only [append, modifyLayer, Layer.append_post]
    rw [posts_cons, post, modifyLayer, ih, hpost, posts_cons]

end Database

namespace DbM

open Lib (Runs)

variable {E} {db db' : Database} (b : Block) (gen : Name) (ts : List SignedTransaction)

theorem applyAll_runs (h : WellFormed E db) :
    Runs (trace E) (applyAll E gen ts) db (Ledger.applyAll E gen (db.ledger E) ts).1
      (Ledger.applyAll E gen (db.ledger E) ts).2 := by
  induction ts generalizing db with
  | nil => exact Runs.pure
  | cons t ts ih =>
    have ht := apply_runs t gen h
    unfold applyAll Ledger.applyAll
    cases hr : (Ledger.transaction E t gen (db.ledger E)).1 with
    | false =>
      rw [hr] at ht
      simp only [hr, Bool.false_eq_true, if_false]
      exact ht.bind_pure rfl
    | true =>
      rw [hr] at ht
      simp only [hr, if_true]
      apply ht.bind
      intro s₁ h₁
      obtain ⟨hv₁, h₁⟩ := h.leads (Ledger.admitsAll_transaction h.coherent) h₁
      rw [← hv₁]
      exact ih h₁

/-- Everything `apply` checks of a block. -/
structure Accepts (E : Externals) (db : Database) (gen : Name) (ts : List SignedTransaction)
    (checksum : Hashcode) : Prop where
  applied : (Ledger.applyAll E gen (db.ledger E) ts).1 = true
  size_lt : (db.posts E (Ledger.applyAll E gen (db.ledger E) ts).2).size < chunkSize
  hash : checksum = stateHash E (db.posts E (Ledger.applyAll E gen (db.ledger E) ts).2).flat

variable {b gen ts} {checksum : Hashcode}

theorem of_applyBlock_true (hok : applyBlock E b gen ts checksum db = .ok true db') :
    ∃ db₁, applyAll E gen ts db = .ok true db₁ ∧ db₁.size < chunkSize ∧
      checksum = stateHash E db₁.flat ∧
        db' = (db₁.moved (db₁.root.mFile.readPos 0 chunkSize)).post E (endBlock b gen) := by
  obtain ⟨ok, db₁, hall, hok⟩ := Lib.of_bind_ok hok
  cases ok with
  | false => cases hok
  | true =>
    obtain ⟨check, db₂, hhash, hok⟩ := Lib.of_bind_ok hok
    obtain ⟨hsize, rfl, rfl⟩ := calculateStateHash_eq_ok_iff.mp hhash
    by_cases hcheck : stateHash E db₁.flat = checksum
    · simp only [hcheck, ne_eq, not_true_eq_false, if_false] at hok
      refine ⟨db₁, hall, hsize, hcheck.symm, ?_⟩
      have happend := appendRecord_eq (E := E) (r := .endBlock b gen) rfl
        (db₁.moved (db₁.root.mFile.readPos 0 chunkSize))
      cases hok.symm.trans happend
      rfl
    · simp only [ne_eq, hcheck, not_false_eq_true, if_true] at hok
      cases hok

theorem applyBlock_of_applyAll {db₁ : Database} (hall : applyAll E gen ts db = .ok true db₁)
    (hsize : db₁.size < chunkSize) (hhash : checksum = stateHash E db₁.flat) :
    applyBlock E b gen ts checksum db =
      .ok true ((db₁.moved (db₁.root.mFile.readPos 0 chunkSize)).post E (endBlock b gen)) := by
  unfold applyBlock
  rw [Lib.bind_ok hall]
  simp only [if_true]
  rw [Lib.bind_ok (calculateStateHash_eq_ok_iff.mpr ⟨hsize, rfl, rfl⟩)]
  simp only [hhash, ne_eq, not_true_eq_false, if_false]
  exact appendRecord_eq rfl _

theorem of_applyBlock_nil {r : Bool} (hok : applyBlock E b gen [] checksum db = .ok r db') :
    ∃ p, (db.InFile → p ≤ db.root.mFile.size) ∧
      db' = (db.moved p).posts E (if stateHash E db.flat =
        checksum then [endBlock b gen] else []) := by
  unfold applyBlock applyAll at hok
  rw [pure_bind, if_pos rfl] at hok
  obtain ⟨check, db₂, hhash, hok⟩ := Lib.of_bind_ok hok
  obtain ⟨-, rfl, rfl⟩ := calculateStateHash_eq_ok_iff.mp hhash
  refine ⟨db.root.mFile.readPos 0 chunkSize, fun h => File.readPos_le h 0 _, ?_⟩
  by_cases hcheck : stateHash E db.flat = checksum
  · simp only [hcheck, ne_eq, not_true_eq_false, if_false] at hok
    have happend := appendRecord_eq (E := E) (r := .endBlock b gen) rfl
      (db.moved (db.root.mFile.readPos 0 chunkSize))
    cases hok.symm.trans happend
    rw [if_pos hcheck]
    rfl
  · simp only [ne_eq, hcheck, not_false_eq_true, if_true] at hok
    cases hok
    rw [if_neg hcheck]
    rfl

theorem applyBlock_atEnd (hok : applyBlock E b gen ts checksum db = .ok true db')
    (hfile : db.InFile) : db'.root.mFile.pos = db'.root.mFile.size := by
  obtain ⟨db₁, hall, hsize, -, rfl⟩ := of_applyBlock_true hok
  have hgrows := Grows.of_applyAll (E := E) gen ts db
  rw [hall] at hgrows
  have hfile₁ := hgrows.inFile hfile
  have hle := db₁.root_size_le
  rw [Database.root_post, Database.size_root_moved]
  apply Database.pos_root_moved
  exact File.readPos_zero hfile₁ (Nat.le_of_lt (Nat.lt_of_le_of_lt hle hsize))

theorem applyBlock_true_iff (h : WellFormed E db) :
    (∃ db', applyBlock E b gen ts checksum db = .ok true db') ↔
      Accepts E db gen ts checksum := by
  obtain ⟨db₁, hall, p, rfl⟩ := applyAll_runs gen ts h
  constructor
  · rintro ⟨db', hok⟩
    obtain ⟨db₂, hall', hlt, hhash, -⟩ := of_applyBlock_true hok
    rw [hall] at hall'
    injection hall' with happ hdb
    subst hdb
    rw [Database.size_posts_moved] at hlt
    rw [Database.flat_posts_moved] at hhash
    exact ⟨happ, hlt, hhash⟩
  · intro ha
    rw [ha.applied] at hall
    refine ⟨_, applyBlock_of_applyAll hall ?_ ?_⟩
    · rw [Database.size_posts_moved]
      exact ha.size_lt
    · rw [Database.flat_posts_moved]
      exact ha.hash

theorem applyBlock_posts (h : WellFormed E db)
    (hok : applyBlock E b gen ts checksum db = .ok true db') :
    ∃ p, db' = (db.moved p).posts E
      ((Ledger.applyAll E gen (db.ledger E) ts).2 ++ [endBlock b gen]) := by
  obtain ⟨db₁, hall, p, rfl⟩ := applyAll_runs gen ts h
  obtain ⟨db₂, hall', -, -, rfl⟩ := of_applyBlock_true hok
  rw [hall] at hall'
  injection hall' with happ hdb
  subst hdb
  generalize File.readPos 0 chunkSize _ = q
  refine ⟨q, ?_⟩
  rw [Database.posts_append, Database.moved_posts, Database.moved_moved]
  rfl

theorem applyBlock_error (h : WellFormed E db) {e : Fault}
    (herr : applyBlock E b gen ts checksum db = .error e db') : e = .diverges := by
  obtain ⟨db₁, hall, -⟩ := applyAll_runs gen ts h
  unfold applyBlock at herr
  rw [Lib.bind_ok hall] at herr
  split at herr
  · obtain herr | ⟨check, db₂, -, herr⟩ := Lib.of_bind_error herr
    · exact calculateStateHash_error herr
    · split at herr <;> cases herr
  · cases herr

end DbM

end Gpm
