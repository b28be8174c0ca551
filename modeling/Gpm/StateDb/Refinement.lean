import Gpm.StateDb.Ledger
import Gpm.StateDb.View

namespace Gpm

variable (E : Externals)

def Layer.post (size : ℕ) (e : Posting) (l : Layer) : Layer where
  localChanges := l.localChanges ++ E.raw.pack ⟨e.record, size⟩
  lastTransferMap := e.record.accounts.foldl (fun m a => m.insert a size) l.lastTransferMap
  lastNameEditMap := (e.name.map (l.lastNameEditMap.insert · size)).getD l.lastNameEditMap

namespace Database

def post (db : Database) (e : Posting) : Database := db.modifyLayer (Layer.post E db.size e)

def posts (db : Database) (es : List Posting) : Database := es.foldl (post E) db

def ledger (db : Database) : Ledger where
  size := db.size
  names := db.names.toFinset
  edit := db.getLastNameEditIndex
  name n := (db.getLastNameEditIndex n).bind fun i =>
    (db.recordAt E.raw i).bind fun r => r.data.named i
  account a := (db.getLastTransferIndex a).bind fun i =>
    (db.recordAt E.raw i).bind fun r => (r.data.balanceOf a).map fun b => (b, i)

variable {E} {db : Database} {e : Posting} {es fs : List Posting}

@[simp] theorem posts_nil : db.posts E [] = db := rfl

@[simp] theorem posts_cons : db.posts E (e :: es) = (db.post E e).posts E es := rfl

theorem posts_append : db.posts E (es ++ fs) = (db.posts E es).posts E fs := List.foldl_append

theorem post_ne_null (h : db ≠ .null) : db.post E e ≠ .null := by
  cases db with
  | null => exact absurd rfl h
  | file d => simp [post, modifyLayer]
  | trx base l => simp [post, modifyLayer]

@[simp] theorem moved_post (p : ℕ) : (db.post E e).moved p = (db.moved p).post E e := by
  rw [post, moved_modifyLayer, post, size_moved]

@[simp] theorem moved_posts (p : ℕ) : (db.posts E es).moved p = (db.moved p).posts E es := by
  induction es generalizing db with
  | nil => rfl
  | cons e es ih => rw [posts_cons, ih, moved_post, posts_cons]

@[simp] theorem ledger_moved (p : ℕ) : (db.moved p).ledger E = db.ledger E := by
  simp [ledger]

theorem flat_post (h : db ≠ .null) :
    (db.post E e).flat = db.flat ++ E.raw.pack ⟨e.record, db.size⟩ := by
  cases db with
  | null => exact absurd rfl h
  | file d => simp [post, modifyLayer, Layer.post, flat, size]
  | trx base l => simp [post, modifyLayer, Layer.post, flat, size]

theorem size_post (h : db ≠ .null) :
    (db.post E e).size = db.size + (E.raw.pack ⟨e.record, db.size⟩).length := by
  rw [← length_flat, flat_post h, List.length_append, length_flat]

theorem root_post : (db.post E e).root.mFile = db.root.mFile := by
  cases db <;> rfl

theorem getLastNameEditIndex_post (h : db ≠ .null) (n : Name) :
    (db.post E e).getLastNameEditIndex n =
      if e.name = some n then some db.size else db.getLastNameEditIndex n := by
  have key : ∀ m : NameIndex, ∀ o : Index,
      ((e.name.map (m.insert · db.size)).getD m)[n]?.or o =
        if e.name = some n then some db.size else m[n]?.or o := by
    intro m o
    cases e.name with
    | none => simp
    | some n' =>
      simp only [Option.map_some, Option.getD_some, Std.ExtTreeMap.getElem?_insert,
        Option.some.injEq, Std.compare_eq_iff_eq]
      split <;> rfl
  cases db with
  | null => exact absurd rfl h
  | file d => exact key _ _
  | trx base l => exact key _ _

theorem getLastTransferIndex_post (h : db ≠ .null) (a : AccountKey) :
    (db.post E e).getLastTransferIndex a =
      if a ∈ e.record.accounts then some db.size else db.getLastTransferIndex a := by
  have key : ∀ (as : List AccountKey) (m : AccountIndex) (o : Index),
      (as.foldl (fun m a => m.insert a db.size) m)[a]?.or o =
        if a ∈ as then some db.size else m[a]?.or o := by
    intro as
    induction as with
    | nil => simp
    | cons b as ih =>
      intro m o
      simp only [List.foldl_cons, ih, Std.ExtTreeMap.getElem?_insert, List.mem_cons]
      grind
  cases db with
  | null => exact absurd rfl h
  | file d => exact key _ _ _
  | trx base l => exact key _ _ _

theorem recordAt_post {i : ℕ} {r : StateRecord} (hr : db.recordAt E.raw i = some r) :
    (db.post E e).recordAt E.raw i = some r :=
  recordAt_modifyLayer E.pack_ne_nil (fun _ => ⟨_, rfl⟩) hr

theorem recordAt_post_size (h : db ≠ .null) :
    (db.post E e).recordAt E.raw db.size = some ⟨e.record, db.size⟩ := by
  have hu := E.raw.unpack_pack ⟨e.record, db.size⟩ []
  rw [List.append_nil] at hu
  cases db with
  | null => exact absurd rfl h
  | file d =>
    have hd : (d.mFile.content ++ (d.localChanges ++
        E.raw.pack ⟨e.record, (Database.file d).size⟩)).drop (Database.file d).size =
          E.raw.pack ⟨e.record, (Database.file d).size⟩ := by
      rw [← List.append_assoc]
      apply List.drop_left'
      simp [size, StateDatabase.size, File.size]
    simp only [post, modifyLayer, Layer.post, recordAt, hd, hu, Option.map_some]
  | trx base l =>
    have hd : (l.localChanges ++ E.raw.pack ⟨e.record, (Database.trx base l).size⟩).drop
        ((Database.trx base l).size - base.size) =
          E.raw.pack ⟨e.record, (Database.trx base l).size⟩ := by
      apply List.drop_left'
      simp [size]
    have hbase : ¬ (Database.trx base l).size < base.size := by simp [size]
    simp only [post, modifyLayer, Layer.post, recordAt, if_neg hbase, hd, hu, Option.map_some]

end Database

open Database

structure Indexed (db : Database) : Prop where
  live : db ≠ .null
  name_isSome : ∀ n, (db.getLastNameEditIndex n).isSome → ((db.ledger E).name n).isSome
  account_isSome : ∀ a, (db.getLastTransferIndex a).isSome → ((db.ledger E).account a).isSome

namespace Indexed

variable {E} {db : Database} {e : Posting} {es : List Posting}

theorem moved (h : Indexed E db) (p : ℕ) : Indexed E (db.moved p) where
  live := by simp [h.live]
  name_isSome := by simpa using h.name_isSome
  account_isSome := by simpa using h.account_isSome

theorem ledger_post (h : Indexed E db) : (db.post E e).ledger E = (db.ledger E).post E e := by
  have hsize := size_post (E := E) (e := e) h.live
  have hnames : (db.post E e).names.toFinset = db.names.toFinset ∪ e.name.toFinset := by
    ext n
    simp only [List.mem_toFinset, Finset.mem_union, Option.mem_toFinset, Option.mem_def, mem_names,
      getLastNameEditIndex_post h.live]
    grind
  simp only [ledger, Ledger.post, hsize, hnames, Ledger.mk.injEq, true_and]
  refine ⟨?_, ?_, ?_⟩
  · funext n
    exact getLastNameEditIndex_post h.live n
  · funext n
    rw [getLastNameEditIndex_post h.live]
    split
    · simp [recordAt_post_size h.live]
    · cases hi : db.getLastNameEditIndex n with
      | none => rfl
      | some i =>
        have hname := h.name_isSome n (by simp [hi])
        cases hr : db.recordAt E.raw i with
        | none => simp [ledger, hi, hr] at hname
        | some r => simp [recordAt_post hr, hr]
  · funext a
    rw [getLastTransferIndex_post h.live]
    split
    · simp [recordAt_post_size h.live]
    · cases hi : db.getLastTransferIndex a with
      | none => rfl
      | some i =>
        have hacc := h.account_isSome a (by simp [hi])
        cases hr : db.recordAt E.raw i with
        | none => simp [ledger, hi, hr] at hacc
        | some r => simp [recordAt_post hr, hr]

theorem post (h : Indexed E db)
    (hname : ∀ n, e.name = some n → (e.record.named db.size).isSome) :
    Indexed E (db.post E e) where
  live := post_ne_null h.live
  name_isSome n hi := by
    rw [h.ledger_post]
    rw [getLastNameEditIndex_post h.live] at hi
    simp only [Ledger.post]
    split
    · exact hname n ‹_›
    · rename_i hn
      rw [if_neg hn] at hi
      exact h.name_isSome n hi
  account_isSome a hi := by
    rw [h.ledger_post]
    rw [getLastTransferIndex_post h.live] at hi
    simp only [Ledger.post]
    split
    · rename_i hmem
      simpa using Record.balanceOf_isSome hmem
    · rename_i hmem
      rw [if_neg hmem] at hi
      exact h.account_isSome a hi

theorem name_cases (h : Indexed E db) (n : Name) :
    db.getLastNameEditIndex n = none ∧ (db.ledger E).name n = none ∨
      ∃ i r x, db.getLastNameEditIndex n = some i ∧ db.recordAt E.raw i = some r ∧
        r.data.named i = some x ∧ (db.ledger E).name n = some x := by
  cases hi : db.getLastNameEditIndex n with
  | none => exact Or.inl ⟨rfl, by simp [ledger, hi]⟩
  | some i =>
    have hname := h.name_isSome n (by simp [hi])
    cases hr : db.recordAt E.raw i with
    | none => simp [ledger, hi, hr] at hname
    | some r =>
      cases hx : r.data.named i with
      | none => simp [ledger, hi, hr, hx] at hname
      | some x => exact Or.inr ⟨i, r, x, rfl, hr, hx, by simp [ledger, hi, hr, hx]⟩

theorem account_cases (h : Indexed E db) (a : AccountKey) :
    db.getLastTransferIndex a = none ∧ (db.ledger E).account a = none ∨
      ∃ i r b, db.getLastTransferIndex a = some i ∧ db.recordAt E.raw i = some r ∧
        r.data.balanceOf a = some b ∧ (db.ledger E).account a = some (b, i) := by
  cases hi : db.getLastTransferIndex a with
  | none => exact Or.inl ⟨rfl, by simp [ledger, hi]⟩
  | some i =>
    have hacc := h.account_isSome a (by simp [hi])
    cases hr : db.recordAt E.raw i with
    | none => simp [ledger, hi, hr] at hacc
    | some r =>
      cases hb : r.data.balanceOf a with
      | none => simp [ledger, hi, hr, hb] at hacc
      | some b => exact Or.inr ⟨i, r, b, rfl, hr, hb, by simp [ledger, hi, hr, hb]⟩

end Indexed

structure WellFormed (db : Database) : Prop where
  live : db ≠ .null
  account_isSome : ∀ a, (db.getLastTransferIndex a).isSome → ((db.ledger E).account a).isSome
  coherent : (db.ledger E).Coherent

namespace WellFormed

variable {E} {db : Database} {e : Posting} {es : List Posting}

theorem indexed (h : WellFormed E db) : Indexed E db where
  live := h.live
  name_isSome n hi := by
    have hname := (h.coherent.edit_isSome n).mp hi
    rwa [Ledger.index, Option.isSome_map] at hname
  account_isSome := h.account_isSome

theorem moved (h : WellFormed E db) (p : ℕ) : WellFormed E (db.moved p) where
  live := by simp [h.live]
  account_isSome := by simpa using h.account_isSome
  coherent := by simpa using h.coherent

theorem ledger_post (h : WellFormed E db) : (db.post E e).ledger E = (db.ledger E).post E e :=
  h.indexed.ledger_post

theorem post (h : WellFormed E db) (ha : (db.ledger E).Admits e) : WellFormed E (db.post E e) where
  live := post_ne_null h.live
  account_isSome := by
    refine (h.indexed.post fun n hn => ?_).account_isSome
    obtain ⟨i, k, hi, -⟩ := ha.name n hn
    have hi' : e.record.named db.size = some (i, k) := hi
    rw [hi']
    rfl
  coherent := by
    rw [h.ledger_post]
    exact h.coherent.post ha

theorem ledger_posts (h : WellFormed E db) (ha : (db.ledger E).AdmitsAll E es) :
    (db.posts E es).ledger E = (db.ledger E).posts E es ∧ WellFormed E (db.posts E es) := by
  induction es generalizing db with
  | nil => exact ⟨rfl, h⟩
  | cons e es ih =>
    have he := h.ledger_post (e := e)
    have := ih (h.post ha.1) (by rw [he]; exact ha.2)
    rw [he] at this
    exact this

end WellFormed

def trace : Lib.Trace Database Posting where
  leads es db db' := ∃ p, db' = (db.moved p).posts E es
  nil db := ⟨db.root.mFile.pos, by simp⟩
  append := by
    rintro es fs db _ _ ⟨p, rfl⟩ ⟨q, rfl⟩
    exact ⟨q, by simp [posts_append]⟩

variable {E} {db db' : Database} {e : Posting} {es : List Posting}

theorem WellFormed.leads (h : WellFormed E db) (ha : (db.ledger E).AdmitsAll E es)
    (hl : (trace E).leads es db db') :
    db'.ledger E = (db.ledger E).posts E es ∧ WellFormed E db' := by
  obtain ⟨p, rfl⟩ := hl
  have hv : (db.moved p).ledger E = db.ledger E := ledger_moved p
  rw [← hv] at ha ⊢
  exact (h.moved p).ledger_posts ha

theorem WellFormed.leads_nil (h : WellFormed E db) (hl : (trace E).leads [] db db') :
    db'.ledger E = db.ledger E ∧ WellFormed E db' := by
  obtain ⟨p, rfl⟩ := hl
  exact ⟨ledger_moved p, h.moved p⟩

theorem Indexed.leads_nil (h : Indexed E db) (hl : (trace E).leads [] db db') :
    db'.ledger E = db.ledger E ∧ Indexed E db' := by
  obtain ⟨p, rfl⟩ := hl
  exact ⟨ledger_moved p, h.moved p⟩

open Lib (Runs)

namespace DbM

theorem getRecord_runs {i : ℕ} {r : StateRecord} (hr : db.recordAt E.raw i = some r) :
    ∃ n, Runs (trace E) (getRecord E (some i)) db (some (r, n)) [] := by
  obtain ⟨p, n, hp⟩ := getRecord_of_recordAt E.pack_ne_nil hr
  exact ⟨n, db.moved p, hp, p, rfl⟩

theorem getPublicKey_runs (h : Indexed E db) (n : Name) :
    Runs (trace E) (getPublicKey E n) db ((db.ledger E).key n) [] := by
  apply Runs.get_bind
  cases h.name_cases n with
  | inl hn =>
    simp only [hn.1, Ledger.key, hn.2]
    exact Runs.pure
  | inr hn =>
    obtain ⟨i, ⟨r, q⟩, x, hi, hr, hx, hv⟩ := hn
    obtain ⟨m, hm⟩ := getRecord_runs hr
    simp only [hi, Ledger.key, hv]
    apply hm.bind_nil
    intro s' hs'
    cases r with
    | defineName m k => cases hx; exact Runs.pure
    | updateName j k l =>
      cases j with
      | none => cases hx
      | some j => cases hx; exact Runs.pure
    | _ => cases hx

theorem getNameIndex_runs (h : Indexed E db) (n : Name) :
    Runs (trace E) (getNameIndex E n) db ((db.ledger E).index n) [] := by
  apply Runs.get_bind
  cases h.name_cases n with
  | inl hn =>
    simp only [hn.1, Ledger.index, hn.2]
    exact Runs.pure
  | inr hn =>
    obtain ⟨i, ⟨r, q⟩, x, hi, hr, hx, hv⟩ := hn
    obtain ⟨m, hm⟩ := getRecord_runs hr
    simp only [hi, Ledger.index, hv]
    apply hm.bind_nil
    intro s' hs'
    cases r with
    | defineName m k => cases hx; exact Runs.pure
    | updateName j k l =>
      cases j with
      | none => cases hx
      | some j => cases hx; exact Runs.pure
    | _ => cases hx

theorem getBalance_runs (h : Indexed E db) (A S : Name) :
    Runs (trace E) (getBalance E A S) db ((db.ledger E).balance A S) [] := by
  apply (getNameIndex_runs h A).bind_nil
  intro s₁ h₁
  obtain ⟨hv₁, h₁⟩ := h.leads_nil h₁
  apply (getNameIndex_runs h₁ S).bind_nil
  intro s₂ h₂
  obtain ⟨hv₂, h₂⟩ := h₁.leads_nil h₂
  rw [hv₁] at hv₂ ⊢
  rw [← hv₂]
  apply Runs.get_bind
  cases h₂.account_cases ⟨(s₂.ledger E).index A, (s₂.ledger E).index S⟩ with
  | inl hn =>
    simp only [hn.1, Ledger.balance, hn.2]
    exact Runs.pure
  | inr hn =>
    obtain ⟨i, ⟨r, q⟩, b, hi, hr, hb, hv⟩ := hn
    obtain ⟨m, hm⟩ := getRecord_runs hr
    simp only [hi, Ledger.balance, hv]
    apply hm.bind_nil
    intro s₃ h₃
    cases r with
    | transferLog tl =>
      simp only [Record.balanceOf] at hb
      simp only
      split at hb
      · cases hb
      · rename_i htype
        rw [if_neg htype]
        split at hb
        · rename_i hfrom
          rw [if_pos hfrom]
          cases hb
          exact Runs.pure
        · rename_i hfrom
          rw [if_neg hfrom]
          split at hb
          · rename_i hto
            rw [if_pos hto]
            cases hb
            exact Runs.pure
          · cases hb
    | _ => cases hb

theorem appendRecord_eq {r : Record} (hr : r.accounts = []) (db : Database) :
    appendRecord E r db = .ok true (db.post E ⟨r, none⟩) := by
  have hpost : Layer.post E db.size ⟨r, none⟩ = fun l =>
      { l with localChanges := l.localChanges ++ E.raw.pack ⟨r, db.size⟩ } := by
    funext l
    simp only [Layer.post, hr]
    rfl
  rw [Database.post, hpost]
  rfl

theorem appendRecord_runs {r : Record} (hr : r.accounts = []) :
    Runs (trace E) (appendRecord E r) db true [⟨r, none⟩] :=
  ⟨db.post E ⟨r, none⟩, appendRecord_eq hr db, db.root.mFile.pos, by simp⟩

theorem appendName_runs {n : Name} {r : Record} {p : ℕ} (hr : r.accounts = [])
    (hp : p = db.size) :
    Runs (trace E) (setLastNameEdit n p >>= fun _ => appendRecord E r)
      db true [⟨r, some n⟩] := by
  subst hp
  have hpost : Layer.post E db.size ⟨r, some n⟩ = fun l =>
      { l with
        localChanges := l.localChanges ++ E.raw.pack ⟨r, db.size⟩
        lastNameEditMap := l.lastNameEditMap.insert n db.size } := by
    funext l
    simp only [Layer.post, hr]
    rfl
  refine ⟨db.post E ⟨r, some n⟩, ?_, db.root.mFile.pos, by simp⟩
  rw [Database.post, hpost]
  cases db <;> rfl

theorem appendTransfer_runs (tl : TransferLog) {p : ℕ} (hp : p = db.size) :
    Runs (trace E) (do
      setLastTransfer ⟨tl.fromName, tl.typeName⟩ p
      setLastTransfer ⟨tl.toName, tl.typeName⟩ p
      discard <| appendRecord E (.transferLog tl)) db () [⟨.transferLog tl, none⟩] := by
  subst hp
  refine ⟨db.post E ⟨.transferLog tl, none⟩, ?_, db.root.mFile.pos, by simp⟩
  cases db <;> rfl

theorem setPublicKey_runs (h : Indexed E db) (n : Name) (k : PublicKey) :
    Runs (trace E) (setPublicKey E n k) db true [(db.ledger E).setKey n k] := by
  apply Runs.get_bind
  cases h.name_cases n with
  | inl hn =>
    simp only [hn.1, Ledger.setKey, Ledger.index, hn.2]
    exact appendName_runs rfl rfl
  | inr hn =>
    obtain ⟨i, ⟨r, q⟩, x, hi, hr, hx, hv⟩ := hn
    obtain ⟨m, hm⟩ := getRecord_runs hr
    have hedit : (db.ledger E).edit n = some i := hi
    simp only [hi, Ledger.setKey, Ledger.index, hv, hedit]
    apply hm.bind_nil
    rintro s' ⟨p, rfl⟩
    cases r with
    | defineName m k =>
      cases hx
      exact appendName_runs rfl (size_moved p db).symm
    | updateName j k l =>
      cases j with
      | none => cases hx
      | some j =>
        cases hx
        exact appendName_runs rfl (size_moved p db).symm
    | _ => cases hx

theorem transferBalance_runs (h : Indexed E db) (from_ to_ type : Name) {amnt : UInt64}
    (trxPos : Index) (ha : ¬ ((db.ledger E).balance from_ type).1 < amnt) :
    Runs (trace E) (transferBalance E from_ to_ type amnt trxPos) db ()
      [⟨(db.ledger E).transferRecord from_ to_ type amnt trxPos, none⟩] := by
  apply (getNameIndex_runs h from_).bind_nil
  intro s₁ h₁
  obtain ⟨hv₁, h₁⟩ := h.leads_nil h₁
  apply (getNameIndex_runs h₁ to_).bind_nil
  intro s₂ h₂
  obtain ⟨hv₂, h₂⟩ := h₁.leads_nil h₂
  apply (getNameIndex_runs h₂ type).bind_nil
  intro s₃ h₃
  obtain ⟨hv₃, h₃⟩ := h₂.leads_nil h₃
  have hfrom := getBalance_runs h₃ from_ type
  simp only [hv₃, hv₂, hv₁] at hfrom ⊢
  unfold Ledger.transferRecord
  generalize (db.ledger E).balance from_ type = x at ha hfrom ⊢
  apply hfrom.bind_nil
  intro s₄ h₄
  obtain ⟨hv₄, h₄⟩ := h₃.leads_nil h₄
  have hto := getBalance_runs h₄ to_ type
  simp only [hv₄, hv₃, hv₂, hv₁] at hto ⊢
  generalize (db.ledger E).balance to_ type = y at hto ⊢
  apply hto.bind_nil
  intro s₅ h₅
  simp only [if_neg ha]
  apply Runs.get_bind
  exact appendTransfer_runs _ rfl

theorem issue_runs (h : Indexed E db) (type : Name) (trxPos : Index)
    (hn : ((db.ledger E).balance type type).2 = none) :
    Runs (trace E) (issue E type trxPos) db ()
      [⟨(db.ledger E).issueRecord type trxPos, none⟩] := by
  apply (getNameIndex_runs h type).bind_nil
  intro s₁ h₁
  obtain ⟨hv₁, h₁⟩ := h.leads_nil h₁
  apply (getNameIndex_runs h₁ type).bind_nil
  intro s₂ h₂
  obtain ⟨hv₂, h₂⟩ := h₁.leads_nil h₂
  apply (getNameIndex_runs h₂ type).bind_nil
  intro s₃ h₃
  obtain ⟨hv₃, h₃⟩ := h₂.leads_nil h₃
  have hbal := getBalance_runs h₃ type type
  simp only [hv₃, hv₂, hv₁] at hbal ⊢
  unfold Ledger.issueRecord
  generalize (db.ledger E).balance type type = x at hn hbal ⊢
  apply hbal.bind_nil
  intro s₄ h₄
  simp only [hn, Option.isSome_none, Bool.false_eq_true, if_false]
  apply Runs.get_bind
  exact appendTransfer_runs _ rfl

/-- A command runs as the ledger has it: done with its records, or refused with none. -/
def Answers (x : DbM Bool) (db : Database) (o : Option (List Posting)) : Prop :=
  Runs (trace E) x db o.isSome (o.getD [])

theorem setPublicKey_answers (h : WellFormed E db) (n : Name) (k : PublicKey) :
    Answers (E := E) (do discard <| setPublicKey E n k; return true) db
      (some [(db.ledger E).setKey n k]) :=
  (setPublicKey_runs h.indexed n k).discard.bind fun _ _ => Runs.pure

variable (trx : SignedTransaction) (genName : Name) (trxPos : ℕ)

theorem applyRegisterName_answers (h : WellFormed E db) (n : Name) (k : PublicKey) :
    Answers (E := E) (applyRegisterName E trx n k) db
      (Ledger.registerName E trx (db.ledger E) n k) := by
  unfold applyRegisterName Ledger.registerName
  split
  · exact setPublicKey_answers h n k
  · apply (getPublicKey_runs h.indexed n).bind_nil
    intro s₁ h₁
    obtain ⟨hv₁, h₁⟩ := h.leads_nil h₁
    rw [← hv₁]
    cases (s₁.ledger E).key n with
    | none => exact setPublicKey_answers h₁ n k
    | some key =>
      simp only
      split
      · exact setPublicKey_answers h₁ n k
      · exact Runs.pure

theorem applyIssue_answers (h : WellFormed E db) (stockName : Name) :
    Answers (E := E) (applyIssue E trx trxPos stockName) db
      (Ledger.issueStock E trx trxPos (db.ledger E) stockName) := by
  unfold applyIssue Ledger.issueStock
  apply (getPublicKey_runs h.indexed stockName).bind_nil
  intro s₁ h₁
  obtain ⟨hv₁, h₁⟩ := h.leads_nil h₁
  rw [← hv₁]
  cases (s₁.ledger E).key stockName with
  | none => exact Runs.pure
  | some key =>
    apply (getBalance_runs h₁.indexed stockName stockName).bind_nil
    intro s₂ h₂
    obtain ⟨hv₂, h₂⟩ := h₁.leads_nil h₂
    have hissue := issue_runs h₂.indexed stockName (some trxPos)
    rw [← hv₂]
    generalize (s₂.ledger E).balance stockName stockName = x at hissue ⊢
    obtain ⟨b, loc⟩ := x
    cases loc with
    | some i => exact Runs.pure
    | none =>
      simp only [Option.isSome_none, Bool.false_eq_true, if_false, false_or]
      split
      · exact Runs.pure
      · exact (hissue rfl).bind fun _ _ => Runs.pure

theorem defineDestination_answers (h : Indexed E db) (to_ : Name) :
    Answers (E := E) (defineDestination E to_) db (Ledger.destination E (db.ledger E) to_) := by
  unfold defineDestination Ledger.destination
  apply (getNameIndex_runs h to_).bind_nil
  intro s₁ h₁
  obtain ⟨hv₁, h₁⟩ := h.leads_nil h₁
  rw [← hv₁]
  cases (s₁.ledger E).index to_ with
  | some i => exact Runs.pure
  | none =>
    simp only
    split
    · apply Runs.get_bind
      have hdefine : Runs (trace E) _ s₁ true [⟨.defineName to_ .empty, some to_⟩] :=
        appendName_runs rfl rfl
      exact Runs.bind hdefine fun _ _ => Runs.pure
    · exact Runs.pure

theorem applyTransfer_answers (h : WellFormed E db) (tr : Transfer) :
    Answers (E := E) (applyTransfer E trx genName trxPos tr) db
      (Ledger.transferStock E trx genName trxPos (db.ledger E) tr) := by
  unfold applyTransfer Ledger.transferStock
  split
  · exact Runs.pure
  · apply (getPublicKey_runs h.indexed tr.fromName).bind_nil
    intro s₁ h₁
    obtain ⟨hv₁, h₁⟩ := h.leads_nil h₁
    rw [← hv₁]
    cases (s₁.ledger E).key tr.fromName with
    | none => exact Runs.pure
    | some fromKey =>
      apply (getPublicKey_runs h₁.indexed tr.stockName).bind_nil
      intro s₂ h₂
      obtain ⟨hv₂, h₂⟩ := h₁.leads_nil h₂
      rw [← hv₂]
      cases (s₂.ledger E).key tr.stockName with
      | none => exact Runs.pure
      | some typeKey =>
        simp only
        cases trx.verify E fromKey with
        | false => exact Runs.pure
        | true =>
          apply (getBalance_runs h₂.indexed tr.fromName tr.stockName).bind_nil
          intro s₃ h₃
          obtain ⟨hv₃, h₃⟩ := h₂.leads_nil h₃
          rw [← hv₃]
          simp only [Bool.not_true, Bool.false_eq_true, false_or]
          split
          · exact Runs.pure
          · rename_i hbal
            have hdest := defineDestination_answers h₃.indexed (Ledger.recipient genName tr)
            cases hd : Ledger.destination E (s₃.ledger E) (Ledger.recipient genName tr) with
            | none =>
              rw [hd] at hdest
              exact hdest.bind fun _ _ => Runs.pure
            | some es =>
              rw [hd] at hdest
              apply hdest.bind
              intro s₄ h₄
              obtain ⟨hv₄, h₄⟩ := h₃.leads (Ledger.admitsAll_destination hd) h₄
              have hbal' := Ledger.balance_destination h₃.coherent hd tr.fromName tr.stockName
              have htr :=
                  transferBalance_runs h₄.indexed tr.fromName (Ledger.recipient genName tr)
                tr.stockName (some trxPos) (by rw [hv₄, hbal']; exact hbal)
              rw [hv₄] at htr
              exact htr.bind fun _ _ => Runs.pure

theorem applyCommand_answers (h : WellFormed E db) (c : Command) :
    Answers (E := E) (applyCommand E trx genName trxPos c) db
      (Ledger.command E trx genName trxPos (db.ledger E) c) := by
  cases c with
  | registerName n k => exact applyRegisterName_answers trx h n k
  | issue s => exact applyIssue_answers trx trxPos h s
  | transfer tr => exact applyTransfer_answers trx genName trxPos h tr
  | other => exact Runs.pure

theorem applyCommands_runs (h : WellFormed E db) (cs : List Command) :
    Runs (trace E) (applyCommands E trx genName trxPos cs) db
      (Ledger.commands E trx genName trxPos (db.ledger E) cs).1
      (Ledger.commands E trx genName trxPos (db.ledger E) cs).2 := by
  induction cs generalizing db with
  | nil => exact Runs.pure
  | cons c cs ih =>
    have hc := applyCommand_answers trx genName trxPos h c
    unfold applyCommands Ledger.commands
    cases he : Ledger.command E trx genName trxPos (db.ledger E) c with
    | none =>
      rw [he] at hc
      exact hc.bind_nil fun _ _ => Runs.pure
    | some es =>
      rw [he] at hc
      apply hc.bind
      intro s₁ h₁
      obtain ⟨hv₁, h₁⟩ := h.leads (Ledger.admitsAll_command h.coherent he) h₁
      simp only [← hv₁]
      exact ih h₁

theorem apply_runs (h : WellFormed E db) :
    Runs (trace E) (apply E trx genName) db
      (Ledger.transaction E trx genName (db.ledger E)).1
      (Ledger.transaction E trx genName (db.ledger E)).2 := by
  apply Runs.get_bind
  apply (appendRecord_runs rfl).discard.bind
  intro s₁ h₁
  have hstart : (db.ledger E).AdmitsAll E [Ledger.startTrx E trx] :=
    ⟨Ledger.admits_startTrx, trivial⟩
  obtain ⟨hv₁, h₁⟩ := h.leads hstart h₁
  have hcs := applyCommands_runs trx genName db.size h₁ trx.trx.commands
  rw [hv₁] at hcs
  exact hcs

theorem returned_apply (h : WellFormed E db) :
    Lib.returned (apply E trx genName db) =
      some (Ledger.transaction E trx genName (db.ledger E)).1 := by
  obtain ⟨db', hdb, -⟩ := apply_runs trx genName h
  rw [hdb]
  rfl

end DbM

end Gpm
