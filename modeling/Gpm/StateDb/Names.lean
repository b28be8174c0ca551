import Gpm.StateDb.Evolution

namespace Gpm

open Lib (Runs returned)

namespace Record

def setsKey (n : Name) (i : ℕ) : Record → Bool
  | .defineName m _ => m = n
  | .updateName j _ _ => j = some i
  | _ => false

def newKey : Record → Option PublicKey
  | .defineName _ k => some k
  | .updateName _ k _ => some k
  | _ => none

end Record

def DbM.keyHistory (E : Externals) : ℕ → Index → DbM (List StateRecord)
  | 0, _ => throw .diverges
  | _ + 1, none => return []
  | fuel + 1, some loc => do
    match ← getRecord E (some loc) with
    | some (⟨.updateName nameIdx key lastUpdateIdx, p⟩, _) =>
      return ⟨.updateName nameIdx key lastUpdateIdx, p⟩ :: (← keyHistory E fuel lastUpdateIdx)
    | some (r, _) => return [r]
    | none => return []

variable {E : Externals}

namespace Ledger

variable {v : Ledger} {e : Posting} {es fs : List Posting} {n : Name} {i : ℕ}

theorem apart_empty : empty.Apart := coherent_empty.toApart

theorem Edits.admitsName (h : v.Edits e) : v.AdmitsName e where
  name n hn := by
    obtain ⟨k, rfl⟩ := h.eq_setKey hn
    exact (admits_setKey n k).name n rfl

theorem Apart.posts (h : v.Apart) (hes : v.EditsAll E es) : (v.posts E es).Apart := by
  induction es generalizing v with
  | nil => exact h
  | cons e es ih => exact ih (h.post hes.1.admitsName) hes.2

theorem EditsAll.index_posts (hes : v.EditsAll E es) (h : v.index n = some i) :
    (v.posts E es).index n = some i := by
  induction es generalizing v with
  | nil => exact h
  | cons e es ih => exact ih hes.2 (hes.1.admitsName.index_post h)

def Awaits (v : Ledger) (n : Name) (i : ℕ) : Prop :=
  v.index n = some i ∨ v.index n = none ∧ v.size ≤ i

theorem Awaits.of_post (h : (v.post E e).Awaits n i) (he : v.Edits e) : v.Awaits n i := by
  have hlt := size_post_lt (E := E) (v := v) (e := e)
  cases hv : v.index n with
  | some j =>
    have hj := he.admitsName.index_post (E := E) hv
    obtain hi | ⟨hnone, -⟩ := h
    · exact Or.inl (hv.trans (hj.symm.trans hi))
    · rw [hj] at hnone
      cases hnone
  | none =>
    refine Or.inr ⟨hv, ?_⟩
    obtain hi | ⟨-, hle⟩ := h
    · rw [index_post] at hi
      split at hi
      · rename_i hname
        obtain ⟨j, k, hnamed, hold | hnew⟩ := he.admitsName.name n hname
        · rw [hv] at hold
          cases hold
        · rw [hnamed] at hi
          cases hi
          exact Nat.le_of_eq hnew.2.symm
      · rw [hv] at hi
        cases hi
    · exact Nat.le_trans (Nat.le_of_lt hlt) hle

theorem setsKey_iff (hv : v.Apart) (he : v.Edits e) (h : (v.post E e).Awaits n i) :
    e.record.setsKey n i ↔ e.name = some n := by
  have hpost := hv.post (E := E) he.admitsName
  have hlt := size_post_lt (E := E) (v := v) (e := e)
  have hindex := fun {m j} => he.admitsName.index_post (E := E) (n := m) (i := j)
  cases hname : e.name with
  | none =>
    simp only [reduceCtorEq, iff_false, Bool.not_eq_true]
    cases hr : e.record with
    | defineName m k =>
      have hnone := he.named_eq_none hname 0
      rw [hr] at hnone
      cases hnone
    | updateName j k l =>
      cases j with
      | none => simp [Record.setsKey]
      | some j =>
        have hnone := he.named_eq_none hname 0
        rw [hr] at hnone
        cases hnone
    | _ => rfl
  | some m =>
    obtain ⟨k, rfl⟩ := he.eq_setKey hname
    rw [Option.some.injEq]
    cases hm : v.index m with
    | none => simp [setKey, hm, Record.setsKey]
    | some j =>
      have hj := hindex hm
      simp only [setKey, hm, Record.setsKey, Option.some.injEq, decide_eq_true_eq]
      constructor
      · rintro rfl
        obtain hi | ⟨-, hle⟩ := h
        · exact hpost.index_inj hj hi
        · exact absurd (hv.index_lt hm) (Nat.not_lt.mpr (Nat.le_trans (Nat.le_of_lt hlt) hle))
      · rintro rfl
        obtain hi | ⟨hnone, -⟩ := h
        · exact Option.some.inj (hj.symm.trans hi)
        · rw [hj] at hnone
          cases hnone

end Ledger

def keyRecords (E : Externals) (es : List Posting) (n : Name) (i : ℕ) : List StateRecord :=
  (postRecords E 0 es).filter fun r => r.data.setsKey n i

namespace Ledger

variable {e : Posting} {es : List Posting} {n : Name} {i : ℕ}

theorem postRecords_concat : postRecords E 0 (es ++ [e]) =
    postRecords E 0 es ++ [⟨e.record, (empty.posts E es).size⟩] := by
  rw [postRecords_append, Nat.zero_add, ← size_empty_posts]
  rfl

theorem keyRecords_concat : keyRecords E (es ++ [e]) n i =
    keyRecords E es n i ++
      if e.record.setsKey n i then [⟨e.record, (empty.posts E es).size⟩] else [] := by
  simp only [keyRecords, postRecords_concat, List.filter_append, List.filter_singleton,
    Bool.cond_eq_ite]

structure Recorded (E : Externals) (es : List Posting) (n : Name) (i : ℕ) : Prop where
  none : (empty.posts E es).index n = none → keyRecords E es n i = []
  first : (empty.posts E es).index n = some i →
    ∃ k, (keyRecords E es n i).head? = some ⟨.defineName n k, i⟩
  edit : (empty.posts E es).edit n = (keyRecords E es n i).getLast?.map StateRecord.previous
  key : (empty.posts E es).key n = (keyRecords E es n i).getLast?.bind fun r => r.data.newKey

theorem Recorded.edited (h : Recorded E es n i) {k : PublicKey}
    (he : e = (empty.posts E es).setKey n k) (hsets : e.record.setsKey n i) :
    Recorded E (es ++ [e]) n i := by
  have hposts : empty.posts E (es ++ [e]) = (empty.posts E es).post E e := posts_append
  have hlist : keyRecords E (es ++ [e]) n i =
      keyRecords E es n i ++ [⟨e.record, (empty.posts E es).size⟩] := by
    rw [keyRecords_concat, if_pos hsets]
  have hname : e.name = some n := by rw [he]; rfl
  have hindex : ((empty.posts E es).post E e).index n =
      (e.record.named (empty.posts E es).size).map Prod.fst := by rw [index_post, if_pos hname]
  constructor
  · intro hnone
    rw [hposts, hindex, Option.map_eq_none_iff, he, setKey] at hnone
    cases hv : (empty.posts E es).index n <;> simp [hv, Record.named] at hnone
  · intro hi
    rw [hposts, hindex] at hi
    cases hv : (empty.posts E es).index n with
    | none =>
      have hdefine : e.record = .defineName n k := by rw [he, setKey, hv]
      rw [hdefine] at hi
      cases hi
      rw [hlist, h.none hv, hdefine]
      exact ⟨k, rfl⟩
    | some j =>
      have hupdate : e.record = .updateName (some j) k ((empty.posts E es).edit n) := by
        rw [he, setKey, hv]
      rw [hupdate] at hi
      cases hi
      obtain ⟨k', hk'⟩ := h.first hv
      exact ⟨k', by rw [hlist, List.head?_append, hk']; rfl⟩
  · have hedit : ((empty.posts E es).post E e).edit n = some (empty.posts E es).size :=
        if_pos hname
    rw [hposts, hedit, hlist, List.getLast?_concat]
    rfl
  · have hkey : ((empty.posts E es).post E e).name n = e.record.named (empty.posts E es).size :=
      if_pos hname
    rw [hposts, Ledger.key, hkey, hlist, List.getLast?_concat, he, setKey]
    cases (empty.posts E es).index n <;> rfl

theorem Recorded.other (h : Recorded E es n i) (hname : e.name ≠ some n)
    (hsets : ¬ e.record.setsKey n i) : Recorded E (es ++ [e]) n i := by
  have hposts : empty.posts E (es ++ [e]) = (empty.posts E es).post E e := posts_append
  have hlist : keyRecords E (es ++ [e]) n i = keyRecords E es n i := by
    rw [keyRecords_concat, if_neg hsets, List.append_nil]
  have hindex : ((empty.posts E es).post E e).index n = (empty.posts E es).index n := by
    rw [index_post, if_neg hname]
  have hedit : ((empty.posts E es).post E e).edit n = (empty.posts E es).edit n := if_neg hname
  have hentry : ((empty.posts E es).post E e).name n = (empty.posts E es).name n := if_neg hname
  constructor
  · rw [hposts, hindex, hlist]
    exact h.none
  · rw [hposts, hindex, hlist]
    exact h.first
  · rw [hposts, hedit, hlist]
    exact h.edit
  · rw [hposts, hlist, Ledger.key, hentry]
    exact h.key

theorem recorded (hes : empty.EditsAll E es) (h : (empty.posts E es).Awaits n i) :
    Recorded E es n i := by
  induction es using List.reverseRecOn with
  | nil =>
    have hnil : keyRecords E [] n i = [] := rfl
    refine ⟨fun _ => rfl, fun hi => ?_, ?_, ?_⟩
    · cases hi
    · rw [hnil]
      rfl
    · rw [hnil]
      rfl
  | append_singleton es e ih =>
    obtain ⟨hes, he, -⟩ := editsAll_append.mp hes
    rw [posts_append, posts_cons, posts_nil] at h
    have hrec := ih hes (h.of_post he)
    have hiff := setsKey_iff (apart_empty.posts hes) he h
    by_cases hname : e.name = some n
    · obtain ⟨k, hk⟩ := he.eq_setKey hname
      exact hrec.edited hk (hiff.mpr hname)
    · exact hrec.other hname fun hsets => hname (hiff.mp hsets)

end Ledger

namespace Filed

variable {db : Database} {es fs : List Posting} {n : Name} {i p : ℕ} {k : PublicKey}

theorem log (h : Filed E db es) : db.log E = postRecords E 0 es := by
  rw [Database.log, h.flat]
  apply readLog_packPosts
  rw [h.size]
  exact length_le_packPosts 0

theorem getRecord_runs (h : Filed E db es) {r : StateRecord} (hr : r ∈ postRecords E 0 es) :
    Runs (trace E) (DbM.getRecord E (some r.previous)) db (some (r, (E.raw.pack r).length)) [] := by
  obtain ⟨q, hq⟩ := (h.stands r hr).getRecord
  exact ⟨db.moved q, hq, q, rfl⟩

theorem of_leads_nil {db' : Database} (h : Filed E db es) (hl : (trace E).leads [] db db') :
    Filed E db' es := by
  obtain ⟨q, rfl⟩ := hl
  exact h.moved q

theorem getNameForIndex_define (h : Filed E db es)
    (hr : ⟨.defineName n k, i⟩ ∈ postRecords E 0 es) (fuel : ℕ) :
    Runs (trace E) (DbM.getNameForIndex E (fuel + 1) (some i)) db n [] :=
  (h.getRecord_runs hr).bind_nil fun _ _ => Runs.pure

theorem getNameForIndex_update {l : Index} (h : Filed E db es)
    (hr : ⟨.defineName n k, i⟩ ∈ postRecords E 0 es) {k' : PublicKey}
    (hu : ⟨.updateName (some i) k' l, p⟩ ∈ postRecords E 0 es) (fuel : ℕ) :
    Runs (trace E) (DbM.getNameForIndex E (fuel + 2) (some p)) db n [] :=
  (h.getRecord_runs hu).bind_nil fun _ hl => (h.of_leads_nil hl).getNameForIndex_define hr fuel

theorem apart (h : Filed E db es) : (Ledger.empty.posts E es).Apart :=
  Ledger.apart_empty.posts h.edits

theorem recorded (h : Filed E db es) (hi : (Ledger.empty.posts E es).index n = some i) :
    Ledger.Recorded E es n i :=
  Ledger.recorded h.edits (Or.inl hi)

theorem mem_define (h : Filed E db es) (hi : (Ledger.empty.posts E es).index n = some i) :
    ∃ k, ⟨.defineName n k, i⟩ ∈ postRecords E 0 es := by
  obtain ⟨k, hk⟩ := (h.recorded hi).first hi
  exact ⟨k, List.mem_of_mem_filter (List.mem_of_mem_head? hk)⟩

theorem keyHistory_runs {fuel : ℕ} (h : Filed E db (es ++ fs))
    (hi : (Ledger.empty.posts E es).Awaits n i) (hfuel : es.length < fuel) :
    Runs (trace E) (DbM.keyHistory E fuel ((Ledger.empty.posts E es).edit n)) db
      (keyRecords E es n i).reverse [] := by
  induction es using List.reverseRecOn generalizing db fs fuel with
  | nil =>
    cases fuel with
    | zero => cases hfuel
    | succ fuel => exact Runs.pure
  | append_singleton es e ih =>
    have hposts : Ledger.empty.posts E (es ++ [e]) = (Ledger.empty.posts E es).post E e :=
      Ledger.posts_append
    obtain ⟨hes, he, -⟩ := Ledger.editsAll_append.mp (Ledger.editsAll_append.mp h.edits).1
    rw [hposts] at hi ⊢
    rw [List.length_append, List.length_singleton] at hfuel
    rw [List.append_assoc] at h
    have hrest := hi.of_post he
    have hiff := Ledger.setsKey_iff (Ledger.apart_empty.posts hes) he hi
    by_cases hname : e.name = some n
    · have hedit : ((Ledger.empty.posts E es).post E e).edit n =
          some (Ledger.empty.posts E es).size :=
        if_pos hname
      have hmem : ⟨e.record, (Ledger.empty.posts E es).size⟩ ∈
          postRecords E 0 (es ++ ([e] ++ fs)) := by
        rw [← List.append_assoc, postRecords_append, Ledger.postRecords_concat]
        exact List.mem_append_left _ (List.mem_append_right _ (List.mem_singleton.mpr rfl))
      have hread := h.getRecord_runs hmem
      rw [hedit, Ledger.keyRecords_concat, if_pos (hiff.mpr hname), List.reverse_concat]
      unfold Ledger.Edits at he
      rw [hname] at he
      obtain ⟨k, hk⟩ := he
      obtain ⟨fuel, rfl⟩ : ∃ fuel', fuel = fuel' + 1 := ⟨fuel - 1, by omega⟩
      apply hread.bind_nil
      intro db' hl
      cases hv : (Ledger.empty.posts E es).index n with
      | none =>
        have hdefine : e.record = .defineName n k := by rw [hk, Ledger.setKey, hv]
        rw [(Ledger.recorded hes hrest).none hv, hdefine]
        exact Runs.pure
      | some j =>
        have hupdate : e.record = .updateName (some j) k ((Ledger.empty.posts E es).edit n) := by
          rw [hk, Ledger.setKey, hv]
        rw [hupdate]
        have hlt : es.length < fuel := by omega
        have hback := ih (h.of_leads_nil hl) hrest hlt
        exact hback.bind_pure rfl
    · have hedit : ((Ledger.empty.posts E es).post E e).edit n =
          (Ledger.empty.posts E es).edit n :=
        if_neg hname
      rw [hedit, Ledger.keyRecords_concat, if_neg fun hsets => hname (hiff.mp hsets),
        List.append_nil]
      exact ih h hrest (by omega)

end Filed

/-- What is answered about names agrees with the records of the log; a record is at the
position it has as its `previous`. -/
structure NameIntegrity (E : Externals) (db : Database) : Prop where
  position : ∀ r ∈ db.log E, returned (DbM.getRecord E (some r.previous) db) =
    some (some (r, (E.raw.pack r).length))
  registered : ∀ n, (∃ i, returned (DbM.getNameIndex E n db) = some (some i)) ∨
    returned (DbM.getNameIndex E n db) = some none ∧
      ∀ r ∈ db.log E, ∀ k, r.data ≠ .defineName n k
  distinct : ∀ m n i, returned (DbM.getNameIndex E m db) = some (some i) →
    returned (DbM.getNameIndex E n db) = some (some i) → m = n
  nameForIndex : ∀ n i, returned (DbM.getNameIndex E n db) = some (some i) →
    ∀ fuel, returned (DbM.getNameForIndex E (fuel + 1) (some i) db) = some n
  nameForEdit : ∀ n i, returned (DbM.getNameIndex E n db) = some (some i) →
    ∀ r ∈ db.log E, r.data.setsKey n i →
      ∀ fuel, returned (DbM.getNameForIndex E (fuel + 2) (some r.previous) db) = some n
  key : ∀ n i, returned (DbM.getNameIndex E n db) = some (some i) →
    ∃ k, ((db.log E).filter fun r => r.data.setsKey n i).getLast?.bind (·.data.newKey) =
      some k ∧
      returned (DbM.getPublicKey E n db) = some (some k)
  history : ∀ n i, returned (DbM.getNameIndex E n db) = some (some i) →
    (∀ fuel, (db.log E).length < fuel →
      returned (DbM.keyHistory E fuel (db.getLastNameEditIndex n) db) =
        some ((db.log E).filter fun r => r.data.setsKey n i).reverse) ∧
      ∃ k, ((db.log E).filter fun r => r.data.setsKey n i).head? = some ⟨.defineName n k, i⟩

variable {db db' db₀ : Database} {es : List Posting}

theorem returned_of_runs {α : Type} {x : DbM α} {a : α} {es : List Posting}
    (h : Runs (trace E) x db a es) : returned (x db) = some a := by
  obtain ⟨s', hs, -⟩ := h
  rw [hs]
  rfl

theorem Filed.getNameIndex (h : Filed E db es) (n : Name) :
    returned (DbM.getNameIndex E n db) = some ((Ledger.empty.posts E es).index n) := by
  rw [← h.ledger]
  exact returned_of_runs (DbM.getNameIndex_runs h.indexed n)

theorem length_postRecords (size : ℕ) : (postRecords E size es).length = es.length := by
  have hdata : (postRecords E size es).map StateRecord.data = es.map Posting.record :=
    map_data_postRecords size
  have hlen := congrArg List.length hdata
  rwa [List.length_map, List.length_map] at hlen

theorem Filed.nameIntegrity (h : Filed E db es) : NameIntegrity E db where
  position r hr := by
    rw [h.log] at hr
    exact returned_of_runs (h.getRecord_runs hr)
  registered n := by
    rw [h.getNameIndex, h.log]
    cases hi : (Ledger.empty.posts E es).index n with
    | some i => exact Or.inl ⟨i, rfl⟩
    | none =>
      refine Or.inr ⟨rfl, fun r hr k hdefine => ?_⟩
      have hnone := (Ledger.recorded h.edits (Or.inr ⟨hi, Nat.le_refl _⟩)).none hi
      have hnot := List.filter_eq_nil_iff.mp hnone r hr
      rw [hdefine] at hnot
      exact hnot (decide_eq_true rfl)
  distinct m n i hm hn := by
    rw [h.getNameIndex, Option.some.injEq] at hm hn
    exact h.apart.index_inj hm hn
  nameForIndex n i hn fuel := by
    rw [h.getNameIndex, Option.some.injEq] at hn
    obtain ⟨k, hk⟩ := h.mem_define hn
    exact returned_of_runs (h.getNameForIndex_define hk fuel)
  nameForEdit n i hn r hr hsets fuel := by
    rw [h.getNameIndex, Option.some.injEq] at hn
    rw [h.log] at hr
    obtain ⟨k, hk⟩ := h.mem_define hn
    obtain ⟨data, p⟩ := r
    cases data with
    | defineName m k' =>
      have hm : m = n := of_decide_eq_true hsets
      rw [hm] at hr
      exact returned_of_runs (h.getNameForIndex_define hr (fuel + 1))
    | updateName j k' l =>
      have hj : j = some i := of_decide_eq_true hsets
      rw [hj] at hr
      exact returned_of_runs (h.getNameForIndex_update hk hr fuel)
    | _ => cases hsets
  key n i hn := by
    rw [h.getNameIndex, Option.some.injEq] at hn
    have hkey := (h.recorded hn).key
    have hpublic := returned_of_runs (DbM.getPublicKey_runs h.indexed n)
    rw [h.ledger] at hpublic
    obtain ⟨x, hx, -⟩ := Option.map_eq_some_iff.mp hn
    have hsome : (Ledger.empty.posts E es).key n = some x.2 := by rw [Ledger.key, hx]; rfl
    refine ⟨x.2, ?_, by rw [hpublic, hsome]⟩
    rw [h.log]
    exact hkey.symm.trans hsome
  history n i hn := by
    rw [h.getNameIndex, Option.some.injEq] at hn
    rw [h.log]
    refine ⟨fun fuel hfuel => ?_, (h.recorded hn).first hn⟩
    rw [length_postRecords] at hfuel
    have hfiled : Filed E db (es ++ []) := by rwa [List.append_nil]
    have hrun := hfiled.keyHistory_runs (Or.inl hn) hfuel
    rw [← h.ledger] at hrun
    exact returned_of_runs hrun

/-- Names stay what they are in every stack that is built from an empty database. -/
theorem evolves_nameIntegrity (h₀ : db₀.Blank) (h : Evolves E db₀ db) :
    NameIntegrity E db ∧ ∀ db', Evolves E db db' → ∀ n i,
      returned (DbM.getNameIndex E n db) = some (some i) →
        returned (DbM.getNameIndex E n db') = some (some i) := by
  obtain ⟨es, hes⟩ := h.advances [] (Filed.blank h₀)
  rw [List.nil_append] at hes
  refine ⟨hes.nameIntegrity, fun db' h' n i hn => ?_⟩
  obtain ⟨fs, hfs⟩ := h'.advances es hes
  rw [hes.getNameIndex, Option.some.injEq] at hn
  rw [hfs.getNameIndex, Ledger.posts_append]
  exact congrArg some ((Ledger.editsAll_append.mp hfs.edits).2.index_posts hn)

def definedBelow : Database :=
  Update.step (Wire.externals fun _ => 0) (.trx (.file {}) {}) (.setPublicKey [1] 7)

def updatedAbove : Database :=
  (Update.step (Wire.externals fun _ => 0) (.trx definedBelow {}) (.setPublicKey [1] 8)).commit

theorem settles_updatedAbove : Database.Settles
    (Update.step (Wire.externals fun _ => 0) (.trx definedBelow {}) (.setPublicKey [1] 8))
    updatedAbove := by
  obtain ⟨p, l, hl⟩ := Update.step_trx (E := Wire.externals fun _ => 0) definedBelow {}
    (.setPublicKey [1] 8)
  rw [updatedAbove, hl]
  exact .commit

theorem nameIntegrity_updatedAbove : NameIntegrity (Wire.externals fun _ => 0) updatedAbove := by
  have hbelow : Evolves (Wire.externals fun _ => 0) (.trx (.file {}) {}) definedBelow :=
    .update _ .refl
  have habove : Evolves (Wire.externals fun _ => 0) (.trx (.file {}) {}) updatedAbove :=
    .settle (.update _ (.overlay hbelow)) settles_updatedAbove
  exact (evolves_nameIntegrity Database.blank_fresh habove).1

example : updatedAbove.getLastNameEditIndex [1] ≠ some 0 ∧
    returned (DbM.getNameIndex (Wire.externals fun _ => 0) [1] updatedAbove) = some (some 0) ∧
    returned (DbM.getPublicKey (Wire.externals fun _ => 0) [1] updatedAbove) = some (some 8) := by
  decide +kernel

end Gpm
