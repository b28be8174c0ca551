import Gpm.Lib.Sorted

/-! An ordered list of entries whose keys are told apart by a callback, next to the finite map
that it holds where the callback tells the truth. -/

universe u v

namespace Gpm.Lib

namespace Btree

variable {κ : Type u} {υ : Type v}

section

variable (compare : κ → κ → ℤ)

def put (k : κ) (v : υ) : List (κ × υ) → List (κ × υ)
  | [] => [(k, v)]
  | e :: es =>
    if 0 < compare k e.1 then e :: put k v es
    else if compare k e.1 = 0 then (e.1, v) :: es
    else (k, v) :: e :: es

def del (k : κ) : List (κ × υ) → Option (List (κ × υ))
  | [] => none
  | e :: es =>
    if 0 < compare k e.1 then (del k es).map (e :: ·)
    else if compare k e.1 = 0 then some es
    else none

def getRange (k : κ) (es : List (κ × υ)) : Option (κ × υ) := es.find? fun e =>
    compare k e.1 ≤ 0

def get (k : κ) (es : List (κ × υ)) : Option (κ × υ) :=
  (getRange compare k es).filter fun e => compare k e.1 = 0

def after [DecidableEq κ] (c : κ) : List (κ × υ) → Option (List (κ × υ))
  | [] => none
  | e :: es => if e.1 = c then some es else after c es

def next [DecidableEq κ] (cur : Option κ) (es : List (κ × υ)) : Option (κ × υ) :=
  match cur with
  | none => es.head?
  | some c => (after c es).elim (es.find? fun e => compare c e.1 < 0) List.head?

end

def ofOrdering : Ordering → ℤ
  | .lt => -1
  | .eq => 0
  | .gt => 1

section

variable (cmp : κ → κ → Ordering)

def Orders (compare : κ → κ → ℤ) (k : κ) (es : List (κ × υ)) : Prop :=
  ∀ e ∈ es, compare k e.1 = ofOrdering (cmp k e.1)

/-- The list holds the map, in the order of its keys. -/
structure Holds (f : κ → Option υ) (es : List (κ × υ)) : Prop where
  increasing : Increasing cmp (es.map Prod.fst)
  mem_iff : ∀ k v, (k, v) ∈ es ↔ f k = some v

def IsFirst (P : κ → Prop) (f : κ → Option υ) : Option (κ × υ) → Prop
  | none => ∀ k, P k → f k = none
  | some (k, v) => P k ∧ f k = some v ∧ ∀ k', P k' → (f k').isSome → (cmp k k').isLE

end

variable {cmp : κ → κ → Ordering} {compare : κ → κ → ℤ}
    {f : κ → Option υ} {e : κ × υ}
  {es : List (κ × υ)} {k c : κ} {v : υ}

theorem holds_nil : Holds cmp (fun _ => none) ([] : List (κ × υ)) :=
  ⟨List.Pairwise.nil, fun _ _ => by simp⟩

theorem ofOrdering_eq_zero {o : Ordering} : ofOrdering o = 0 ↔ o = .eq := by cases o <;> decide

theorem ofOrdering_nonpos {o : Ordering} : ofOrdering o ≤ 0 ↔ o.isLE := by cases o <;> decide

theorem Orders.of_cons (h : Orders cmp compare k (e :: es)) :
    compare k e.1 = ofOrdering (cmp k e.1) ∧ Orders cmp compare k es :=
  List.forall_mem_cons.mp h

namespace Holds

theorem isSome_iff (h : Holds cmp f es) : (f k).isSome ↔ ∃ e ∈ es, e.1 = k := by
  rw [Option.isSome_iff_exists]
  constructor
  · rintro ⟨v, hv⟩
    exact ⟨(k, v), (h.mem_iff k v).mpr hv, rfl⟩
  · rintro ⟨⟨k, v⟩, he, rfl⟩
    exact ⟨v, (h.mem_iff k v).mp he⟩

theorem find_isFirst [Std.TransCmp cmp] (h : Holds cmp f es) {P : κ → Prop}
    {p : κ × υ → Bool}
    (hp : ∀ e ∈ es, p e ↔ P e.1) : IsFirst cmp P f (es.find? p) := by
  cases hfind : es.find? p with
  | none =>
    intro k hk
    by_contra hne
    obtain ⟨e, he, rfl⟩ := h.isSome_iff.mp (Option.isSome_iff_ne_none.mpr hne)
    exact absurd ((hp e he).mpr hk) (List.find?_eq_none.mp hfind e he)
  | some e =>
    obtain ⟨hpe, front, rest, rfl, hfront⟩ := List.find?_eq_some_iff_append.mp hfind
    have he : e ∈ front ++ e :: rest := by simp
    refine ⟨(hp e he).mp hpe, (h.mem_iff _ _).mp he, fun k' hk' hsome => ?_⟩
    obtain ⟨e', he', rfl⟩ := h.isSome_iff.mp hsome
    have hpe' := (hp e' he').mpr hk'
    rw [List.mem_append, List.mem_cons] at he'
    obtain hin | rfl | hin := he'
    · have hnot := hfront e' hin
      rw [hpe'] at hnot
      cases hnot
    · exact Std.ReflCmp.isLE_rfl
    · have hinc := h.increasing
      rw [List.map_append, List.map_cons] at hinc
      have hlt := List.rel_of_pairwise_cons (List.pairwise_append.mp hinc).2.1
        (List.mem_map_of_mem hin)
      rw [hlt]
      rfl

end Holds

section Entries

variable {k' : κ} {v' : υ}

theorem ne_of_lt [Std.ReflCmp cmp] (h : cmp k k' = .lt) : k ≠ k' := by
  rintro rfl
  have heq : cmp k k = .eq := Std.ReflCmp.compare_self
  rw [heq] at h
  cases h

theorem ne_of_mem_of_lt [Std.ReflCmp cmp] (hinc : Increasing cmp (c :: es.map Prod.fst))
    (h : (k', v') ∈ es) : k' ≠ c :=
  (ne_of_lt (hinc.lt (List.mem_map_of_mem h))).symm

variable [Std.TransCmp cmp]

theorem after_head [DecidableEq κ] (hinc : Increasing cmp (es.map Prod.fst))
    (h : ∃ e ∈ es, e.1 = c) :
    ∃ rest, after c es = some rest ∧ rest.head? = es.find? fun e => (cmp c e.1).isLT := by
  induction es with
  | nil =>
    obtain ⟨e, he, -⟩ := h
    cases he
  | cons a es ih =>
    rw [List.map_cons] at hinc
    rw [after]
    by_cases ha : a.1 = c
    · have hself : cmp c a.1 = .eq := by
        rw [ha]
        exact Std.ReflCmp.compare_self
      refine ⟨es, if_pos ha, ?_⟩
      rw [List.find?_cons_of_neg (by simp [hself])]
      cases es with
      | nil => rfl
      | cons b es =>
        have hlt : cmp c b.1 = .lt := by
          rw [← ha]
          exact hinc.lt List.mem_cons_self
        rw [List.find?_cons_of_pos (by simp [hlt])]
        rfl
    · obtain ⟨e, he, hec⟩ := h
      have hmem : e ∈ es := by
        cases List.mem_cons.mp he with
        | inl he => exact absurd (he ▸ hec) ha
        | inr he => exact he
      have hgt : cmp c a.1 = .gt := by
        rw [← hec]
        exact Std.OrientedCmp.gt_of_lt (hinc.lt (List.mem_map_of_mem hmem))
      rw [if_neg ha, List.find?_cons_of_neg (by simp [hgt])]
      exact ih hinc.of_cons ⟨e, hmem, hec⟩

variable [Std.LawfulEqCmp cmp]

theorem mem_put (hinc : Increasing cmp (es.map Prod.fst)) (ho : Orders cmp compare k es) :
    (k', v') ∈ put compare k v es ↔ k' = k ∧ v' = v ∨ k' ≠ k ∧ (k', v') ∈ es := by
  induction es with
  | nil => simp [put]
  | cons e es ih =>
    obtain ⟨hc, hrest⟩ := ho.of_cons
    rw [List.map_cons] at hinc
    rw [put]
    cases hcmp : cmp k e.1 with
    | gt =>
      have hne : k' = e.1 → k' ≠ k := fun h => h ▸ ne_of_lt (Std.OrientedCmp.lt_of_gt hcmp)
      rw [if_pos (by rw [hc, hcmp]; decide), List.mem_cons, ih hinc.of_cons hrest, List.mem_cons]
      grind
    | eq =>
      have heq := Std.LawfulEqCmp.eq_of_compare hcmp
      have hne : (k', v') ∈ es → k' ≠ k := fun h => heq ▸ ne_of_mem_of_lt hinc h
      rw [if_neg (by rw [hc, hcmp]; decide), if_pos (by rw [hc, hcmp]; rfl), List.mem_cons,
        List.mem_cons, Prod.mk.injEq, ← heq]
      grind
    | lt =>
      have hne : (k', v') ∈ e :: es → k' ≠ k := by
        have hless : Increasing cmp (k :: (e :: es).map Prod.fst) := by
          rw [List.map_cons]
          refine List.pairwise_cons.mpr ⟨fun x hx => ?_, hinc⟩
          cases List.mem_cons.mp hx with
          | inl hx => rw [hx]; exact hcmp
          | inr hx => exact Std.TransCmp.lt_trans hcmp (hinc.lt hx)
        exact ne_of_mem_of_lt hless
      rw [if_neg (by rw [hc, hcmp]; decide), if_neg (by rw [hc, hcmp]; decide), List.mem_cons,
        Prod.mk.injEq]
      grind

theorem increasing_put (hinc : Increasing cmp (es.map Prod.fst)) (ho : Orders cmp compare k es) :
    Increasing cmp ((put compare k v es).map Prod.fst) := by
  induction es with
  | nil => exact List.pairwise_singleton _ k
  | cons e es ih =>
    obtain ⟨hc, hrest⟩ := ho.of_cons
    rw [List.map_cons] at hinc
    rw [put]
    cases hcmp : cmp k e.1 with
    | gt =>
      rw [if_pos (by rw [hc, hcmp]; decide), List.map_cons]
      refine List.pairwise_cons.mpr ⟨fun x hx => ?_, ih hinc.of_cons hrest⟩
      obtain ⟨⟨k', v'⟩, hmem, rfl⟩ := List.mem_map.mp hx
      obtain ⟨rfl, -⟩ | ⟨-, hold⟩ := (mem_put hinc.of_cons hrest).mp hmem
      · exact Std.OrientedCmp.lt_of_gt hcmp
      · exact hinc.lt (List.mem_map_of_mem hold)
    | eq =>
      rw [if_neg (by rw [hc, hcmp]; decide), if_pos (by rw [hc, hcmp]; rfl)]
      exact hinc
    | lt =>
      rw [if_neg (by rw [hc, hcmp]; decide), if_neg (by rw [hc, hcmp]; decide), List.map_cons]
      refine List.pairwise_cons.mpr ⟨fun x hx => ?_, hinc⟩
      cases List.mem_cons.mp hx with
      | inl hx => rw [hx]; exact hcmp
      | inr hx => exact Std.TransCmp.lt_trans hcmp (hinc.lt hx)

theorem del_spec (hinc : Increasing cmp (es.map Prod.fst)) (ho : Orders cmp compare k es) :
    (del compare k es = none ∧ ∀ v, (k, v) ∉ es) ∨
      ∃ es', del compare k es = some es' ∧ (∃ v, (k, v) ∈ es) ∧
        Increasing cmp (es'.map Prod.fst) ∧
        ∀ k' v', (k', v') ∈ es' ↔ k' ≠ k ∧ (k', v') ∈ es := by
  induction es with
  | nil => exact Or.inl ⟨rfl, fun v => List.not_mem_nil⟩
  | cons e es ih =>
    obtain ⟨hc, hrest⟩ := ho.of_cons
    rw [List.map_cons] at hinc
    rw [del]
    cases hcmp : cmp k e.1 with
    | gt =>
      have hne : e.1 ≠ k := ne_of_lt (Std.OrientedCmp.lt_of_gt hcmp)
      rw [if_pos (by rw [hc, hcmp]; decide)]
      obtain ⟨hnone, hall⟩ | ⟨es', hsome, ⟨v, hv⟩, hinc', hmem⟩ := ih hinc.of_cons hrest
      · refine Or.inl ⟨by rw [hnone]; rfl, fun v hv => ?_⟩
        cases List.mem_cons.mp hv with
        | inl hv => exact hne (congrArg Prod.fst hv).symm
        | inr hv => exact hall v hv
      · refine Or.inr
          ⟨e :: es', by rw [hsome]; rfl, ⟨v, List.mem_cons_of_mem e hv⟩, ?_, ?_⟩
        · refine List.pairwise_cons.mpr ⟨fun x hx => ?_, hinc'⟩
          obtain ⟨⟨k', v'⟩, hkv, rfl⟩ := List.mem_map.mp hx
          exact hinc.lt (List.mem_map_of_mem ((hmem k' v').mp hkv).2)
        · intro k' v'
          rw [List.mem_cons, hmem, List.mem_cons]
          grind
    | eq =>
      have heq := Std.LawfulEqCmp.eq_of_compare hcmp
      rw [if_neg (by rw [hc, hcmp]; decide), if_pos (by rw [hc, hcmp]; rfl)]
      refine Or.inr ⟨es, rfl, ⟨e.2, heq ▸ List.mem_cons_self⟩, hinc.of_cons,
        fun k' v' => ?_⟩
      have hne : (k', v') ∈ es → k' ≠ k := fun h => heq ▸ ne_of_mem_of_lt hinc h
      rw [List.mem_cons]
      grind
    | lt =>
      rw [if_neg (by rw [hc, hcmp]; decide), if_neg (by rw [hc, hcmp]; decide)]
      refine Or.inl ⟨rfl, fun v hv => ?_⟩
      cases List.mem_cons.mp hv with
      | inl hv => exact ne_of_lt hcmp (congrArg Prod.fst hv)
      | inr hv =>
        exact ne_of_lt (Std.TransCmp.lt_trans hcmp (hinc.lt (List.mem_map_of_mem hv))) rfl

end Entries

namespace Holds

variable [Std.TransCmp cmp]

theorem getRange (h : Holds cmp f es) (ho : Orders cmp compare k es) :
    IsFirst cmp (fun k' => (cmp k k').isLE) f (getRange compare k es) :=
  h.find_isFirst fun e he => by rw [decide_eq_true_iff, ho e he, ofOrdering_nonpos]

theorem head (h : Holds cmp f es) : IsFirst cmp (fun _ => True) f es.head? := by
  have hfirst := h.find_isFirst (P := fun _ => True) (p := fun _ => true) fun _ _ => by simp
  cases es <;> exact hfirst

theorem next [DecidableEq κ] (h : Holds cmp f es) (hc : (f c).isSome) :
    IsFirst cmp (fun k => cmp c k = .lt) f (next compare (some c) es) := by
  obtain ⟨rest, hafter, hhead⟩ := after_head h.increasing (h.isSome_iff.mp hc)
  rw [Btree.next, hafter, Option.elim_some, hhead]
  exact h.find_isFirst fun e _ => Ordering.isLT_iff_eq_lt

variable [Std.LawfulEqCmp cmp]

theorem put [DecidableEq κ] (h : Holds cmp f es) (ho : Orders cmp compare k es) (v : υ) :
    Holds cmp (Function.update f k (some v)) (put compare k v es) where
  increasing := increasing_put h.increasing ho
  mem_iff k' v' := by
    rw [mem_put h.increasing ho, h.mem_iff, Function.update_apply]
    split
    · rename_i heq
      simp [heq, eq_comm]
    · rename_i hne
      simp [hne]

theorem del [DecidableEq κ] (h : Holds cmp f es) (ho : Orders cmp compare k es) :
    (del compare k es).isSome = (f k).isSome ∧
      Holds cmp (Function.update f k none) ((del compare k es).getD es) := by
  obtain ⟨hnone, hall⟩ | ⟨es', hsome, ⟨v, hv⟩, hinc, hmem⟩ := del_spec h.increasing ho
  · have hk : f k = none := by
      rw [Option.eq_none_iff_forall_ne_some]
      exact fun v hv => hall v ((h.mem_iff k v).mpr hv)
    have hsame : Function.update f k none = f := by
      rw [← hk, Function.update_eq_self]
    rw [hnone, hk, hsame]
    exact ⟨rfl, h⟩
  · rw [hsome, (h.mem_iff k v).mp hv]
    refine ⟨rfl, hinc, fun k' v' => ?_⟩
    rw [Option.getD_some, hmem, h.mem_iff, Function.update_apply]
    split
    · rename_i heq
      simp [heq]
    · rename_i hne
      simp [hne]

theorem get (h : Holds cmp f es) (ho : Orders cmp compare k es) :
    get compare k es = (f k).map fun v => (k, v) := by
  have hfirst := h.getRange ho
  rw [Btree.get]
  cases hrange : Btree.getRange compare k es with
  | none =>
    rw [hrange] at hfirst
    rw [hfirst k Std.ReflCmp.isLE_rfl]
    rfl
  | some e =>
    obtain ⟨k', v'⟩ := e
    rw [hrange] at hfirst
    obtain ⟨hle, hv, hleast⟩ := hfirst
    have hcmp : compare k k' = ofOrdering (cmp k k') := ho _ ((h.mem_iff k' v').mpr hv)
    by_cases heq : k = k'
    · subst heq
      have hself : cmp k k = .eq := Std.ReflCmp.compare_self
      rw [hv, Option.filter_some, if_pos (by rw [decide_eq_true_iff, hcmp, hself]; rfl)]
      rfl
    · have hnone : f k = none := by
        by_contra hne
        have hback := hleast k Std.ReflCmp.isLE_rfl (Option.isSome_iff_ne_none.mpr hne)
        exact heq (Std.LawfulEqCmp.eq_of_compare (Std.OrientedCmp.isLE_antisymm hle hback))
      have hne : cmp k k' ≠ .eq := fun h => heq (Std.LawfulEqCmp.eq_of_compare h)
      rw [hnone, Option.filter_some, if_neg (by
        rw [decide_eq_true_iff, hcmp, ofOrdering_eq_zero]
        exact hne)]
      rfl

end Holds

end Btree

end Gpm.Lib
