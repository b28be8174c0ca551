import Gpm.StateDb.Block

namespace Gpm

/-- The records up to the first bytes that are none; `fuel` bounds how many there can be. -/
def readLog (raw : Lib.Format StateRecord) : ℕ → List UInt8 → List StateRecord
  | 0, _ => []
  | fuel + 1, bytes =>
    match raw.unpack bytes with
    | none => []
    | some (r, rest) => r :: readLog raw fuel rest

variable (E : Externals)

def Database.log (db : Database) : List StateRecord := readLog E.raw db.size db.flat

def postRecords : ℕ → List Posting → List StateRecord
  | _, [] => []
  | size, e :: es =>
    ⟨e.record, size⟩ :: postRecords (size + (E.raw.pack ⟨e.record, size⟩).length) es

variable {E} {es fs : List Posting}

theorem packPosts_append (size : ℕ) :
    packPosts E size (es ++ fs) =
      packPosts E size es ++ packPosts E (size + (packPosts E size es).length) fs := by
  induction es generalizing size with
  | nil => rfl
  | cons e es ih =>
    simp only [List.cons_append, packPosts, ih, List.append_assoc, List.length_append,
      Nat.add_assoc]

theorem postRecords_append (size : ℕ) :
    postRecords E size (es ++ fs) =
      postRecords E size es ++ postRecords E (size + (packPosts E size es).length) fs := by
  induction es generalizing size with
  | nil => rfl
  | cons e es ih =>
    simp only [List.cons_append, postRecords, packPosts, ih, List.length_append, Nat.add_assoc]

theorem length_le_packPosts (size : ℕ) : es.length ≤ (packPosts E size es).length := by
  induction es generalizing size with
  | nil => exact Nat.zero_le _
  | cons e es ih =>
    have hpos := List.length_pos_iff.mpr (E.pack_ne_nil ⟨e.record, size⟩)
    have hrest := ih (size + (E.raw.pack ⟨e.record, size⟩).length)
    simp only [packPosts, List.length_append, List.length_cons]
    omega

theorem readLog_packPosts {fuel : ℕ} (h : es.length ≤ fuel) (size : ℕ) :
    readLog E.raw fuel (packPosts E size es) = postRecords E size es := by
  induction es generalizing fuel size with
  | nil =>
    cases fuel with
    | zero => rfl
    | succ fuel => simp only [packPosts, readLog, Database.unpack_nil E.pack_ne_nil, postRecords]
  | cons e es ih =>
    cases fuel with
    | zero => cases h
    | succ fuel =>
      simp only [packPosts, readLog, E.raw.unpack_pack, postRecords,
        ih (Nat.le_of_succ_le_succ h)]

theorem map_data_postRecords (size : ℕ) :
    (postRecords E size es).map StateRecord.data = es.map Posting.record := by
  induction es generalizing size with
  | nil => rfl
  | cons e es ih => simp only [postRecords, List.map_cons, ih]

namespace Ledger

variable {v : Ledger} {e : Posting}

theorem size_posts : (v.posts E es).size = v.size + (packPosts E v.size es).length := by
  induction es generalizing v with
  | nil => rfl
  | cons e es ih =>
    simp only [posts_cons, ih, packPosts, List.length_append, post, Nat.add_assoc]

theorem of_admitsAll_append (h : v.AdmitsAll E (es ++ fs)) :
    v.AdmitsAll E es ∧ (v.posts E es).AdmitsAll E fs := by
  induction es generalizing v with
  | nil => exact ⟨trivial, h⟩
  | cons e es ih =>
    obtain ⟨he, hrest⟩ := h
    exact ⟨⟨he, (ih hrest).1⟩, (ih hrest).2⟩

theorem size_empty_posts : (empty.posts E es).size = (packPosts E 0 es).length := by
  rw [size_posts, empty, Nat.zero_add]

end Ledger

namespace Database

structure Logs (E : Externals) (db : Database) (es : List Posting) : Prop where
  flat : db.flat = packPosts E 0 es
  ledger : db.ledger E = Ledger.empty.posts E es
  admits : Ledger.empty.AdmitsAll E es
  record : ∀ r ∈ postRecords E 0 es, db.recordAt E.raw r.previous = some r

inductive ReachableBy (E : Externals) (allowed : Database → SignedTransaction → Name → Prop) :
    Database → Prop
  | blank {db} : db.Blank → ReachableBy E allowed db
  | apply {db db' trx genName b} : ReachableBy E allowed db → allowed db trx genName →
      DbM.apply E trx genName db = .ok b db' → ReachableBy E allowed db'
  | overlay {db} : ReachableBy E allowed db → ReachableBy E allowed (.trx db {})
  | merge {base l} : ReachableBy E allowed (.trx base l) → ReachableBy E allowed (base.append l)

variable {db db' : Database}

theorem Blank.logs (h : db.Blank) :
    db.Logs E [] := ⟨h.flat, h.ledger, trivial, by simp [postRecords]⟩

namespace Logs

theorem log (h : db.Logs E es) : db.log E = postRecords E 0 es := by
  rw [Database.log, h.flat]
  apply readLog_packPosts
  rw [← length_flat, h.flat]
  exact length_le_packPosts 0

theorem size (h : db.Logs E es) : db.size = (packPosts E 0 es).length := by
  rw [← length_flat, h.flat]

theorem post {e : Posting} (h : db.Logs E es) (hdb : WellFormed E db)
    (ha : (db.ledger E).Admits e) : (db.post E e).Logs E (es ++ [e]) where
  flat := by
    rw [flat_post hdb.live, h.flat, packPosts_append, h.size, Nat.zero_add, packPosts, packPosts,
      List.append_nil]
  ledger := by rw [hdb.ledger_post, h.ledger, Ledger.posts_append, Ledger.posts_cons,
    Ledger.posts_nil]
  admits := Ledger.admitsAll_append h.admits ⟨by rwa [← h.ledger], trivial⟩
  record r hr := by
    rw [postRecords_append, Nat.zero_add, ← h.size] at hr
    cases List.mem_append.mp hr with
    | inl hr => exact recordAt_post (h.record r hr)
    | inr hr =>
      rw [postRecords, postRecords, List.mem_singleton] at hr
      subst hr
      exact recordAt_post_size hdb.live

theorem posts (h : db.Logs E es) (hdb : WellFormed E db) (ha : (db.ledger E).AdmitsAll E fs) :
    (db.posts E fs).Logs E (es ++ fs) := by
  induction fs generalizing db es with
  | nil => rwa [List.append_nil]
  | cons e fs ih =>
    have hstep := ih (h.post hdb ha.1) (hdb.post ha.1) (by rw [hdb.ledger_post]; exact ha.2)
    rwa [List.append_assoc] at hstep

theorem carries (h : db.Logs E es) (hdb : WellFormed E db) (hc : Carries E db db') :
    db'.Logs E es :=
  ⟨hc.flat.trans h.flat, (hc.ledger hdb).trans h.ledger, h.admits, fun r hr =>
    hc.record r.previous r (h.record r hr)⟩

theorem moved (h : db.Logs E es) (hdb : WellFormed E db) (p : ℕ) : (db.moved p).Logs E es :=
  h.carries hdb (Carries.moved hdb.live p)

end Logs

theorem Reachable.reachableBy (h : Reachable E db) : ReachableBy E (fun _ _ _ => True) db := by
  induction h with
  | blank h => exact .blank h
  | apply _ ha ih => exact .apply ih trivial ha
  | overlay _ ih => exact .overlay ih
  | merge _ ih => exact .merge ih

namespace ReachableBy

variable {allowed : Database → SignedTransaction → Name → Prop}

theorem reachable (h : ReachableBy E allowed db) : Reachable E db := by
  induction h with
  | blank h => exact .blank h
  | apply _ _ ha ih => exact .apply ih ha
  | overlay _ ih => exact .overlay ih
  | merge _ ih => exact .merge ih

theorem logs (Inv : List Posting → Prop) (hr : ReachableBy E allowed db) (hnil : Inv [])
    (hstep : ∀ {db es trx genName}, WellFormed E db → db.Logs E es → Inv es →
      allowed db trx genName → Inv (es ++ (Ledger.transaction E trx genName (db.ledger E)).2)) :
    ∃ es, db.Logs E es ∧ Inv es := by
  induction hr with
  | blank h => exact ⟨[], h.logs, hnil⟩
  | @apply db db' trx genName b hr hallow ha ih =>
    obtain ⟨es, hlogs, hinv⟩ := ih
    have hdb := hr.reachable.wellFormed
    have hadmits : (db.ledger E).AdmitsAll E (Ledger.transaction E trx genName (db.ledger E)).2 :=
      Ledger.admitsAll_transaction hdb.coherent
    obtain ⟨s', hs, p, rfl⟩ := DbM.apply_runs trx genName hdb
    rw [ha] at hs
    cases hs
    refine ⟨_, (hlogs.moved hdb p).posts (hdb.moved p) ?_, hstep hdb hlogs hinv hallow⟩
    rwa [ledger_moved]
  | @overlay db hr ih =>
    obtain ⟨es, hlogs, hinv⟩ := ih
    exact ⟨es, hlogs.carries hr.reachable.wellFormed (Carries.overlay db), hinv⟩
  | @merge base l hr ih =>
    obtain ⟨es, hlogs, hinv⟩ := ih
    have hbase : base.Rooted := hr.reachable.rooted.1
    exact ⟨es, hlogs.carries hr.reachable.wellFormed (Carries.merge hbase.ne_null), hinv⟩

end ReachableBy

end Database

end Gpm
