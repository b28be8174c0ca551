import Gpm.StateDb.View

namespace Gpm

theorem DbM.calculateStateHash_keeps {E : Externals} {R : Database → Database → Prop}
    (hrefl : ∀ db, R db db) (htrans : ∀ {db db' db''}, R db db' → R db' db'' → R db db'')
    (hread : ∀ len, Lib.Keeps R (DbM.read 0 len)) : Lib.Keeps R (DbM.calculateStateHash E) := by
  have hbind : ∀ {α β : Type} {x : DbM α} {f : α → DbM β}, Lib.Keeps R x →
      (∀ a, Lib.Keeps R (f a)) → Lib.Keeps R (x >>= f) := fun hx hf =>
    Lib.Keeps.bind (R := R) (fun h h' => htrans h h') hx hf
  apply hbind
  · apply hbind (hread _)
    intro bytes
    apply hbind
    · unfold DbM.hashLoop
      split
      · exact Lib.Keeps.throw hrefl _
      · exact Lib.Keeps.pure hrefl _
    · exact fun _ => Lib.Keeps.pure hrefl _
  · exact fun _ => Lib.Keeps.pure hrefl _

/-- A relation kept by what `apply` is made of. -/
structure Framed (E : Externals) (R : Database → Database → Prop) : Prop where
  refl : ∀ db, R db db
  trans : ∀ {db db' db''}, R db db' → R db' db'' → R db db''
  getPublicKey : ∀ n, Lib.Keeps R (DbM.getPublicKey E n)
  getNameIndex : ∀ n, Lib.Keeps R (DbM.getNameIndex E n)
  getBalance : ∀ A S, Lib.Keeps R (DbM.getBalance E A S)
  setPublicKey : ∀ n k, Lib.Keeps R (DbM.setPublicKey E n k)
  defineDestination : ∀ n, Lib.Keeps R (DbM.defineDestination E n)
  appendTransfer : ∀ tl : TransferLog, Lib.Keeps R (do
    let p := (← get).size
    DbM.setLastTransfer ⟨tl.fromName, tl.typeName⟩ p
    DbM.setLastTransfer ⟨tl.toName, tl.typeName⟩ p
    discard <| DbM.appendRecord E (.transferLog tl))
  appendStart : ∀ h t, Lib.Keeps R (DbM.appendRecord E (.startTrx h t))
  appendEnd : ∀ b gen, Lib.Keeps R (DbM.appendRecord E (.endBlock b gen))
  calculateStateHash : Lib.Keeps R (DbM.calculateStateHash E)

namespace Framed

open Lib (Keeps)

variable {E : Externals} {R : Database → Database → Prop} (h : Framed E R)

include h

theorem pure {α : Type} (a : α) : Keeps R (Pure.pure a : DbM α) := Keeps.pure h.refl a

theorem throw {α : Type} (e : Fault) : Keeps R (EStateM.throw e : DbM α) := Keeps.throw h.refl e

theorem bind {α β : Type} {x : DbM α} {f : α → DbM β} (hx : Keeps R x)
    (hf : ∀ a, Keeps R (f a)) : Keeps R (x >>= f) :=
  Keeps.bind (R := R) (fun hxy hyz => h.trans hxy hyz) hx hf

theorem transferBalance (from_ to_ type : Name) (amnt : UInt64) (trxPos : Index) :
    Keeps R (DbM.transferBalance E from_ to_ type amnt trxPos) := by
  apply h.bind (h.getNameIndex from_)
  intro fromName
  apply h.bind (h.getNameIndex to_)
  intro toName
  apply h.bind (h.getNameIndex type)
  intro typeName
  apply h.bind (h.getBalance from_ type)
  intro fromBal
  apply h.bind (h.getBalance to_ type)
  intro toBal
  simp only
  split
  · exact h.bind (h.throw _) fun _ => h.appendTransfer _
  · exact h.appendTransfer _

theorem issue (type : Name) (trxPos : Index) : Keeps R (DbM.issue E type trxPos) := by
  apply h.bind (h.getNameIndex type)
  intro typeName
  apply h.bind (h.getNameIndex type)
  intro toName
  apply h.bind (h.getNameIndex type)
  intro fromName
  apply h.bind (h.getBalance type type)
  intro bal
  simp only
  split
  · exact h.bind (h.throw _) fun _ => h.appendTransfer _
  · exact h.appendTransfer _

theorem applyRegisterName (trx : SignedTransaction) (n : Name) (k : PublicKey) :
    Keeps R (DbM.applyRegisterName E trx n k) := by
  have hset : Keeps R (do discard <| DbM.setPublicKey E n k; return true) :=
    h.bind (Keeps.discard (h.setPublicKey n k)) fun _ => h.pure true
  unfold DbM.applyRegisterName
  split
  · exact hset
  · apply h.bind (h.getPublicKey n)
    intro key
    split
    · split
      · exact hset
      · exact h.pure false
    · exact hset

theorem applyIssue (trx : SignedTransaction) (trxPos : ℕ) (s : Name) :
    Keeps R (DbM.applyIssue E trx trxPos s) := by
  apply h.bind (h.getPublicKey s)
  intro key
  split
  · exact h.pure false
  · apply h.bind (h.getBalance s s)
    intro bal
    simp only
    split
    · exact h.pure false
    · split
      · exact h.pure false
      · exact h.bind (h.issue s _) fun _ => h.pure true

theorem applyTransfer (trx : SignedTransaction) (genName : Name) (trxPos : ℕ) (tr : Transfer) :
    Keeps R (DbM.applyTransfer E trx genName trxPos tr) := by
  unfold DbM.applyTransfer
  split
  · exact h.pure false
  · apply h.bind (h.getPublicKey tr.fromName)
    intro fromKey
    split
    · exact h.pure false
    · apply h.bind (h.getPublicKey tr.stockName)
      intro typeKey
      split
      · exact h.pure false
      · split
        · exact h.pure false
        · apply h.bind (h.getBalance tr.fromName tr.stockName)
          intro bal
          simp only
          split
          · exact h.pure false
          · apply h.bind (h.defineDestination _)
            intro ok
            split
            · exact h.bind (h.transferBalance _ _ _ _ _) fun _ => h.pure true
            · exact h.pure false

theorem applyCommands (trx : SignedTransaction) (genName : Name) (trxPos : ℕ)
    (cs : List Command) : Keeps R (DbM.applyCommands E trx genName trxPos cs) := by
  induction cs with
  | nil => exact h.pure true
  | cons c cs ih =>
    have hc : Keeps R (DbM.applyCommand E trx genName trxPos c) := by
      cases c with
      | registerName n k => exact h.applyRegisterName trx n k
      | issue s => exact h.applyIssue trx trxPos s
      | transfer tr => exact h.applyTransfer trx genName trxPos tr
      | other => exact h.pure false
    apply h.bind hc
    intro ok
    split
    · exact ih
    · exact h.pure false

theorem apply (trx : SignedTransaction) (genName : Name) :
    Keeps R (DbM.apply E trx genName) := by
  apply Keeps.get_bind
  intro db
  exact h.bind (Keeps.discard (h.appendStart _ _)) fun _ => h.applyCommands trx genName _ _

theorem applyAll (genName : Name) (ts : List SignedTransaction) :
    Keeps R (DbM.applyAll E genName ts) := by
  induction ts with
  | nil => exact h.pure true
  | cons t ts ih =>
    apply h.bind (h.apply t genName)
    intro ok
    split
    · exact ih
    · exact h.pure false

theorem applyBlock (b : Block) (gen : Name) (ts : List SignedTransaction) (checksum : Hashcode) :
    Keeps R (DbM.applyBlock E b gen ts checksum) := by
  apply h.bind (h.applyAll gen ts)
  intro ok
  split
  · apply h.bind h.calculateStateHash
    intro check
    split
    · exact h.pure false
    · exact h.appendEnd _ _
  · exact h.pure false

end Framed

def Grows (db db' : Database) : Prop :=
  ∃ p f, (db.InFile → p ≤ db.root.mFile.size) ∧
    (∀ l, ∃ x, (f l : Layer).localChanges = l.localChanges ++ x) ∧
      db' = (db.moved p).modifyLayer f

namespace Grows

open Lib (Keeps)

variable {E : Externals} {db db' db'' : Database}

theorem refl (db : Database) : Grows db db := by
  refine ⟨db.root.mFile.pos, id, id, fun l => ⟨[], (List.append_nil _).symm⟩, ?_⟩
  rw [Database.moved_self]
  cases db <;> rfl

theorem size_root (h : Grows db db') : db'.root.mFile.size = db.root.mFile.size := by
  obtain ⟨p, f, -, -, rfl⟩ := h
  rw [Database.root_modifyLayer, Database.size_root_moved]

theorem inFile (h : Grows db db') (hdb : db.InFile) : db'.InFile := by
  obtain ⟨p, f, hp, -, rfl⟩ := h
  have hmoved := Database.inFile_moved (hp hdb)
  unfold Database.InFile at hmoved ⊢
  rwa [Database.root_modifyLayer]

theorem trans (h : Grows db db') (h' : Grows db' db'') : Grows db db'' := by
  have hsize := h.size_root
  have hfile := h.inFile
  obtain ⟨p, f, -, hf, rfl⟩ := h
  obtain ⟨q, g, hq, hg, rfl⟩ := h'
  refine ⟨q, g ∘ f, fun hdb => hsize ▸ hq (hfile hdb), fun l => ?_, ?_⟩
  · obtain ⟨x, hx⟩ := hf l
    obtain ⟨y, hy⟩ := hg (f l)
    exact ⟨x ++ y, by rw [Function.comp_apply, hy, hx, List.append_assoc]⟩
  · rw [Database.moved_modifyLayer, Database.moved_moved]
    cases db <;> rfl

theorem of_moved {p : ℕ} (hp : db.InFile → p ≤ db.root.mFile.size) :
    Grows db (db.moved p) := by
  refine ⟨p, id, hp, fun l => ⟨[], (List.append_nil _).symm⟩, ?_⟩
  cases db <;> rfl

theorem of_modifyLayer {f : Layer → Layer}
    (hf : ∀ l, ∃ x, (f l).localChanges = l.localChanges ++ x) :
    Grows db (db.modifyLayer f) := by
  refine ⟨db.root.mFile.pos, f, id, hf, ?_⟩
  rw [Database.moved_self]

theorem of_read (pos len : ℕ) : Keeps Grows (DbM.read pos len) := by
  intro db
  obtain ⟨p, hle, hp⟩ := db.read_moves pos len
  rw [DbM.read, hp]
  exact of_moved hle

theorem of_getRecord (loc : Index) : Keeps Grows (DbM.getRecord E loc) := by
  intro db
  obtain ⟨p, hle, hp⟩ := db.getRecord_moves E.raw loc
  rw [DbM.getRecord, hp]
  exact of_moved hle

theorem of_pure {α : Type} (a : α) : Keeps Grows (pure a : DbM α) := Keeps.pure refl a

theorem of_throw {α : Type} (e : Fault) : Keeps Grows (throw e : DbM α) := Keeps.throw refl e

theorem of_bind {α β : Type} {x : DbM α} {f : α → DbM β} (hx : Keeps Grows x)
    (hf : ∀ a, Keeps Grows (f a)) : Keeps Grows (x >>= f) :=
  Keeps.bind (R := Grows) (fun h h' => trans h h') hx hf

theorem of_discard {α : Type} {x : DbM α} (hx : Keeps Grows x) : Keeps Grows (discard x) :=
  of_bind hx fun _ => of_pure ()

theorem of_append (l : Layer) : Keeps Grows (modify fun db => db.append l : DbM Unit) :=
  Keeps.modify fun _ => of_modifyLayer fun _ => ⟨_, rfl⟩

theorem of_setLastNameEdit (n : Name) (p : ℕ) : Keeps Grows (DbM.setLastNameEdit n p) :=
  Keeps.modify fun _ => of_modifyLayer fun _ => ⟨[], (List.append_nil _).symm⟩

theorem of_setLastTransfer (a : AccountKey) (p : ℕ) : Keeps Grows (DbM.setLastTransfer a p) :=
  Keeps.modify fun _ => of_modifyLayer fun _ => ⟨[], (List.append_nil _).symm⟩

theorem of_appendRecord (r : Record) : Keeps Grows (DbM.appendRecord E r) :=
  of_bind (Keeps.modify fun _ => of_modifyLayer fun _ => ⟨_, rfl⟩) fun _ => of_pure true

theorem of_getPublicKey (n : Name) : Keeps Grows (DbM.getPublicKey E n) := by
  apply Keeps.get_bind
  intro db
  split
  · exact of_pure none
  · apply of_bind (of_getRecord _)
    intro r
    split <;> exact of_pure _

theorem of_getNameIndex (n : Name) : Keeps Grows (DbM.getNameIndex E n) := by
  apply Keeps.get_bind
  intro db
  split
  · exact of_pure none
  · apply of_bind (of_getRecord _)
    intro r
    split
    · exact of_throw _
    · exact of_pure _
    · exact of_pure _
    · exact of_throw _

theorem of_setPublicKey (n : Name) (k : PublicKey) : Keeps Grows (DbM.setPublicKey E n k) := by
  apply Keeps.get_bind
  intro db
  split
  · exact of_bind (of_setLastNameEdit _ _) fun _ => of_appendRecord _
  · apply of_bind (of_getRecord _)
    intro r
    split
    · exact of_bind (of_setLastNameEdit _ _) fun _ => of_appendRecord _
    · exact of_bind (of_setLastNameEdit _ _) fun _ => of_appendRecord _
    · exact of_pure false

theorem of_getBalance (A S : Name) : Keeps Grows (DbM.getBalance E A S) := by
  apply of_bind (of_getNameIndex A)
  intro aidx
  apply of_bind (of_getNameIndex S)
  intro tidx
  apply Keeps.get_bind
  intro db
  split
  · exact of_pure _
  · apply of_bind (of_getRecord _)
    intro r
    split
    · split
      · exact of_throw _
      · split
        · exact of_pure _
        · split
          · exact of_pure _
          · exact of_throw _
    · exact of_throw _

theorem of_appendTransfer (tl : TransferLog) :
    Keeps Grows (do
      let p := (← get).size
      DbM.setLastTransfer ⟨tl.fromName, tl.typeName⟩ p
      DbM.setLastTransfer ⟨tl.toName, tl.typeName⟩ p
      discard <| DbM.appendRecord E (.transferLog tl)) := by
  apply Keeps.get_bind
  intro db
  apply of_bind (of_setLastTransfer _ _)
  intro _
  apply of_bind (of_setLastTransfer _ _)
  intro _
  exact of_discard (of_appendRecord _)

theorem of_defineDestination (n : Name) : Keeps Grows (DbM.defineDestination E n) := by
  apply of_bind (of_getNameIndex n)
  intro i
  split
  · exact of_pure true
  · split
    · apply Keeps.get_bind
      intro db
      exact of_bind (of_setLastNameEdit n _) fun _ =>
        of_bind (of_discard (of_appendRecord _)) fun _ => of_pure true
    · exact of_pure false

theorem of_calculateStateHash : Keeps Grows (DbM.calculateStateHash E) :=
  DbM.calculateStateHash_keeps refl trans (of_read 0)

theorem framed (E : Externals) : Framed E Grows where
  refl := refl
  trans := trans
  getPublicKey := of_getPublicKey
  getNameIndex := of_getNameIndex
  getBalance := of_getBalance
  setPublicKey := of_setPublicKey
  defineDestination := of_defineDestination
  appendTransfer := of_appendTransfer
  appendStart _ _ := of_appendRecord _
  appendEnd _ _ := of_appendRecord _
  calculateStateHash := of_calculateStateHash

theorem of_apply (trx : SignedTransaction) (genName : Name) :
    Keeps Grows (DbM.apply E trx genName) := (framed E).apply trx genName

theorem of_applyAll (genName : Name) (ts : List SignedTransaction) :
    Keeps Grows (DbM.applyAll E genName ts) := (framed E).applyAll genName ts

theorem of_applyBlock (b : Block) (gen : Name) (ts : List SignedTransaction) (checksum : Hashcode) :
    Keeps Grows (DbM.applyBlock E b gen ts checksum) := (framed E).applyBlock b gen ts checksum

theorem trx {base : Database} {l : Layer} (h : Grows (.trx base l) db') :
    ∃ p l', (base.InFile → p ≤ base.root.mFile.size) ∧ db' = .trx (base.moved p) l' := by
  obtain ⟨p, f, hp, -, rfl⟩ := h
  exact ⟨p, f l, hp, rfl⟩

theorem overlay {base : Database} (h : Grows (.trx base {}) db') :
    ∃ p l, (base.InFile → p ≤ base.root.mFile.size) ∧ db' = .trx (base.moved p) l := h.trx

end Grows

end Gpm
