import Gpm.Lib.Sorted
import Gpm.StateDb.Evolution
import Gpm.StateDb.Wire

namespace Gpm

open Lib (sortUnique walkRange within below Increasing)

namespace Layer

def namesBetween (start end_ : Name) (l : Layer) : Except Fault (List Name) :=
  walkRange compare (throw .outOfBounds) pure start end_ l.lastNameEditMap.keys

end Layer

namespace StateDatabase

/-- The loop over `m_name_db`, with the names collected so far. -/
def scanNames (end_ : Name) (limit : ℕ) : List Name → List Name → List Name
  | [], names => sortUnique compare names
  | n :: ns, names =>
    if (compare n end_).isLE then
      let names := names ++ [n]
      if limit < names.length then names else scanNames end_ limit ns names
    else sortUnique compare names

end StateDatabase

namespace Database

def queryNames (start end_ : Name) (limit : UInt32) : Database → Except Fault (List Name)
  | .null => return []
  | .file d => do
    let names ← d.toLayer.namesBetween start end_
    let keys := d.mNameDb.keys
    return StateDatabase.scanNames end_ limit.toNat
      (keys.drop (Lib.lowerBound compare start keys)) names
  | .trx base l => do
    let names ← base.queryNames start end_ limit
    let own ← l.namesBetween start end_
    let names := names ++ own
    let names := if limit.toNat < names.length then names.take limit.toNat else names
    return sortUnique compare names

def QueryExact (start end_ : Name) (limit : UInt32) (db : Database) : Prop :=
  db.queryNames start end_ limit =
    .ok ((db.names.filter (within compare start end_)).take limit.toNat)

def layers : Database → List Database
  | .null => []
  | .file d => [.file d]
  | .trx base l => .trx base l :: base.layers

def Throughout (P : Database → Prop) (db : Database) : Prop := ∀ d ∈ db.layers, P d

def Fits (start end_ : Name) (limit : UInt32) : Database → Prop
  | .null => True
  | .file d =>
    (d.lastNameEditMap.keys.filter (within compare start end_)).length +
      (d.mNameDb.keys.filter (within compare start end_)).length ≤ limit.toNat
  | .trx base l =>
    (∀ n ∈ l.lastNameEditMap.keys.filter (within compare start end_), n ∉ base.names →
      min limit.toNat (base.names.filter (within compare start end_)).length +
          (below compare n (l.lastNameEditMap.keys.filter (within compare start end_))).length <
        limit.toNat ∨
      limit.toNat ≤ (below compare n ((Database.trx base l).names.filter
        (within compare start end_))).length) ∧
    base.Fits start end_ limit

instance {P : Database → Prop} [DecidablePred P] {db : Database} : Decidable (db.Throughout P) :=
  inferInstanceAs (Decidable (∀ _ ∈ _, _))

instance decidableFits {start end_ : Name} {limit : UInt32} :
    (db : Database) → Decidable (db.Fits start end_ limit)
  | .null => inferInstanceAs (Decidable True)
  | .file _ => inferInstanceAs (Decidable (_ ≤ _))
  | .trx base _ =>
    have : Decidable (base.Fits start end_ limit) := decidableFits base
    inferInstanceAs (Decidable (_ ∧ base.Fits start end_ limit))

end Database

variable {start end_ : Name} {limit : UInt32} {db base : Database} {d : StateDatabase} {l : Layer}

theorem keys_increasing (m : NameIndex) : Increasing compare m.keys := Std.ExtTreeMap.ordered_keys

theorem Database.names_increasing (db : Database) : Increasing compare db.names :=
  keys_increasing _

theorem Layer.namesBetween_eq (h : (compare start end_).isLE) (l : Layer) :
    l.namesBetween start end_ =
      .ok (l.lastNameEditMap.keys.filter (within compare start end_)) := by
  rw [namesBetween, Lib.walkRange_eq (keys_increasing _) h, List.mapM_pure, List.map_id']
  rfl

namespace StateDatabase

variable {ns rest names : List Name} {n : ℕ}

theorem scanNames_rest (hrest : ∀ a ∈ rest, ¬ (compare a end_).isLE) :
    scanNames end_ n rest names = sortUnique compare names := by
  cases rest with
  | nil => rfl
  | cons a rest => rw [scanNames, if_neg (hrest a List.mem_cons_self)]

theorem scanNames_of_le (hns : ∀ a ∈ ns, (compare a end_).isLE)
    (hrest : ∀ a ∈ rest, ¬ (compare a end_).isLE) (hlen : names.length + ns.length ≤ n) :
    scanNames end_ n (ns ++ rest) names = sortUnique compare (names ++ ns) := by
  induction ns generalizing names with
  | nil => rw [List.nil_append, scanNames_rest hrest, List.append_nil]
  | cons a ns ih =>
    rw [List.length_cons] at hlen
    have hshort : ¬ n < (names ++ [a]).length := by
      rw [List.length_append, List.length_singleton]
      omega
    rw [List.cons_append, scanNames, if_pos (hns a List.mem_cons_self)]
    simp only [if_neg hshort]
    rw [ih (fun b hb => hns b (List.mem_cons_of_mem a hb))
      (by rw [List.length_append, List.length_singleton]; omega), List.append_assoc]
    rfl

theorem lt_length_scanNames (hns : ∀ a ∈ ns, (compare a end_).isLE) (hne : ns ≠ [])
    (hlen : n < names.length + ns.length) :
    n < (scanNames end_ n (ns ++ rest) names).length := by
  induction ns generalizing names with
  | nil => exact absurd rfl hne
  | cons a ns ih =>
    rw [List.length_cons] at hlen
    rw [List.cons_append, scanNames, if_pos (hns a List.mem_cons_self)]
    simp only
    split
    · assumption
    · rename_i hshort
      rw [List.length_append, List.length_singleton] at hshort
      apply ih (fun b hb => hns b (List.mem_cons_of_mem a hb))
      · rintro rfl
        simp at hlen
        omega
      · rw [List.length_append, List.length_singleton]
        omega

end StateDatabase

namespace Database

theorem mem_keys {m : NameIndex} {n : Name} : n ∈ m.keys ↔ m[n]?.isSome := by
  rw [Std.ExtTreeMap.mem_keys, Std.ExtTreeMap.mem_iff_isSome_getElem?]

theorem mem_names_file {n : Name} :
    n ∈ (Database.file d).names ↔ n ∈ d.lastNameEditMap.keys ∨ n ∈ d.mNameDb.keys := by
  rw [mem_names, getLastNameEditIndex, Option.isSome_or, Bool.or_eq_true, mem_keys, mem_keys]

theorem mem_names_trx {n : Name} :
    n ∈ (Database.trx base l).names ↔ n ∈ l.lastNameEditMap.keys ∨ n ∈ base.names := by
  rw [mem_names, getLastNameEditIndex, Option.isSome_or, Bool.or_eq_true, mem_keys, mem_names]

theorem found_eq (start end_ : Name) (m : NameIndex) :
    ∃ rest, m.keys.drop (Lib.lowerBound compare start m.keys) =
        m.keys.filter (within compare start end_) ++ rest ∧
      ∀ a ∈ rest, ¬ (compare a end_).isLE := by
  have hinc := (keys_increasing m).drop (Lib.lowerBound compare start m.keys)
  have htake : (m.keys.drop (Lib.lowerBound compare start m.keys)).take
      (Lib.upperBound compare end_ (m.keys.drop (Lib.lowerBound compare start m.keys))) =
        m.keys.filter (within compare start end_) := by
    rw [hinc.take_upperBound, (keys_increasing m).drop_lowerBound, List.filter_filter]
    apply List.filter_congr
    intro a _
    rw [within, Bool.and_comm]
  refine ⟨_, ?_, fun a => hinc.not_isLE_of_mem_drop⟩
  rw [← htake]
  exact (List.take_append_drop _ _).symm

theorem queryExact_file_iff (h : (compare start end_).isLE) :
    QueryExact start end_ limit (.file d) ↔ Fits start end_ limit (.file d) := by
  obtain ⟨rest, hfound, hrest⟩ := found_eq start end_ d.mNameDb
  have hmem : ∀ x, x ∈ d.lastNameEditMap.keys.filter (within compare start end_) ++
      d.mNameDb.keys.filter (within compare start end_) ↔
        x ∈ (Database.file d).names.filter (within compare start end_) := by
    intro x
    simp only [List.mem_append, List.mem_filter, mem_names_file]
    tauto
  have hrange : ∀ a ∈ d.mNameDb.keys.filter (within compare start end_),
      (compare a end_).isLE := by
    intro a ha
    rw [List.mem_filter, within, Bool.and_eq_true] at ha
    exact ha.2.2
  have hall : Increasing compare ((Database.file d).names.filter (within compare start end_)) :=
    (names_increasing _).filter _
  unfold QueryExact Fits
  rw [queryNames, Layer.namesBetween_eq h]
  constructor
  · intro heq
    have hresult := congrArg List.length (Except.ok.inj heq)
    rw [hfound, List.length_take] at hresult
    apply Nat.not_lt.mp
    intro hlong
    by_cases hnil : d.mNameDb.keys.filter (within compare start end_) = []
    · rw [hnil, List.length_nil, Nat.add_zero] at hlong
      have hown : Increasing compare (d.lastNameEditMap.keys.filter (within compare start end_)) :=
        (keys_increasing _).filter _
      rw [hnil, List.nil_append, StateDatabase.scanNames_rest hrest,
        hown.sortUnique_eq fun _ => Iff.rfl] at hresult
      omega
    · have hmore : _ < (StateDatabase.scanNames end_ _ (_ ++ rest) _).length :=
        StateDatabase.lt_length_scanNames hrange hnil hlong
      omega
  · intro hlen
    change Except.ok _ = _
    rw [hfound, StateDatabase.scanNames_of_le hrange hrest hlen, hall.sortUnique_eq hmem,
      List.take_of_length_le]
    rw [← hall.sortUnique_eq hmem]
    apply Nat.le_trans (Lib.length_sortUnique_le _)
    rwa [List.length_append]

theorem queryExact_trx_iff (h : (compare start end_).isLE)
    (hbase : QueryExact start end_ limit base) :
    QueryExact start end_ limit (.trx base l) ↔
      ∀ n ∈ l.lastNameEditMap.keys.filter (within compare start end_), n ∉ base.names →
        min limit.toNat (base.names.filter (within compare start end_)).length +
            (below compare n (l.lastNameEditMap.keys.filter (within compare start end_))).length <
          limit.toNat ∨
        limit.toNat ≤ (below compare n ((Database.trx base l).names.filter
          (within compare start end_))).length := by
  have hmem : ∀ n, n ∈ (Database.trx base l).names.filter (within compare start end_) ↔
      n ∈ l.lastNameEditMap.keys.filter (within compare start end_) ∨
        n ∈ base.names.filter (within compare start end_) := by
    intro n
    simp only [List.mem_filter, mem_names_trx]
    tauto
  have hnew : ∀ n ∈ l.lastNameEditMap.keys.filter (within compare start end_),
      (n ∉ base.names ↔ n ∉ base.names.filter (within compare start end_)) := by
    intro n hn
    rw [List.mem_filter, and_iff_left (List.mem_filter.mp hn).2]
  have hmerge := ((names_increasing base).filter (within compare start end_)).merge_take_iff
    ((keys_increasing l.lastNameEditMap).filter _)
    ((names_increasing (Database.trx base l)).filter _) hmem (n := limit.toNat)
  have hcut : ∀ names : List Name, (if limit.toNat < names.length then names.take limit.toNat
      else names) = names.take limit.toNat := by
    intro names
    split
    · rfl
    · rw [List.take_of_length_le (Nat.not_lt.mp ‹_›)]
  have hquery : (Database.trx base l).queryNames start end_ limit =
      .ok (sortUnique compare (((base.names.filter (within compare start end_)).take limit.toNat ++
        l.lastNameEditMap.keys.filter (within compare start end_)).take limit.toNat)) := by
    rw [queryNames, hbase, Layer.namesBetween_eq h]
    change Except.ok (sortUnique compare (ite _ _ _)) = _
    rw [hcut]
  rw [QueryExact, hquery, Except.ok.injEq, hmerge]
  apply forall₂_congr
  intro n hn
  rw [hnew n hn]

theorem Throughout.top {P : Database → Prop} (h : db.Throughout P) (hnull : P .null) : P db := by
  cases db with
  | null => exact hnull
  | file d => exact h _ List.mem_cons_self
  | trx base l => exact h _ List.mem_cons_self

theorem throughout_trx {P : Database → Prop} :
    (Database.trx base l).Throughout P ↔ P (.trx base l) ∧ base.Throughout P :=
  List.forall_mem_cons

theorem queryExact_null : QueryExact start end_ limit .null := by
  have hnames : null.names = [] := Std.ExtTreeMap.keys_eq_nil_iff.mpr rfl
  rw [QueryExact, queryNames, hnames, List.filter_nil, List.take_nil]
  rfl

/-- The answers of all objects of a stack are exact just where nothing is cut off too early. -/
theorem queryNames_exact_iff (db : Database) (h : (compare start end_).isLE) (limit : UInt32) :
    db.Throughout (QueryExact start end_ limit) ↔ db.Fits start end_ limit := by
  induction db with
  | null => exact iff_of_true (List.forall_mem_nil _) trivial
  | file d => exact (List.forall_mem_singleton).trans (queryExact_file_iff h)
  | trx base l ih =>
    rw [throughout_trx, Fits, ← ih]
    exact and_congr_left fun hbase => queryExact_trx_iff h (hbase.top queryExact_null)

end Database

def newestFirst : Database :=
  let E := Wire.externals fun _ => 0
  let below := Update.step E (Update.step E (.file {}) (.setPublicKey [2] 7)) (.setPublicKey [3] 7)
  Update.step E (.trx (Update.step E below.commit (.setPublicKey [2] 8)) {}) (.setPublicKey [1] 7)

theorem queryNames_newestFirst :
    ¬ ∀ (db : Database) (start end_ : Name) (limit : UInt32), (compare start end_).isLE →
      db.Throughout (Database.QueryExact start end_ limit) := by
  intro h
  have hall := h newestFirst [] [9] 1 (by decide)
  have hexact := Database.Throughout.top hall Database.queryExact_null
  unfold Database.QueryExact at hexact
  have hnames := congrArg Except.toOption hexact
  revert hnames
  decide +kernel

theorem queryNames_exact_newestFirst :
    newestFirst.Throughout (Database.QueryExact [] [9] 3) ∧
      ¬ newestFirst.Throughout (Database.QueryExact [] [9] 2) := by
  rw [Database.queryNames_exact_iff newestFirst (by decide) 3,
    Database.queryNames_exact_iff newestFirst (by decide) 2]
  decide +kernel

end Gpm
