import Gpm.Node.TrxDb

namespace Gpm

namespace TrxDb

def stage (db : TrxDb) (h : Hashcode) : Option Group :=
  [Group.pending, .head, .applied].find? fun g => (db[TrxKey.mk g h]?).isSome

variable {E : Externals} {db : TrxDb} {g : Group} {h k : Hashcode} {t : SignedTransaction}

theorem knows_iff_stage : db.knows h ↔ db.stage h ≠ none := by
  simp only [stage, knows, ne_eq, List.find?_eq_none, List.any_eq_true, not_forall, not_not,
    exists_prop]

@[simp] theorem stage_empty : (∅ : TrxDb).stage h = none := by
  simp [stage]

namespace Pool

variable (hp : Pool E db)

include hp

theorem stage_eq_some : db.stage h = some g ↔ (db[TrxKey.mk g h]?).isSome := by
  constructor
  · exact fun hs => List.find?_some (p := fun g => (db[TrxKey.mk g h]?).isSome) hs
  · intro hs
    cases hstage : db.stage h with
    | none =>
      have hknown : db.knows h := knows_iff.mpr ⟨g, hs⟩
      exact absurd hstage (knows_iff_stage.mp hknown)
    | some g' =>
      have hs' := List.find?_some (p := fun g => (db[TrxKey.mk g h]?).isSome) hstage
      rw [hp.exclusive hs' hs]

theorem stage_moveTransactions {fromGroup toGroup : Group} (hne : fromGroup ≠ toGroup)
    (l : List Hashcode) : (db.moveTransactions l fromGroup toGroup).stage h =
      if h ∈ l ∧ db.stage h = some fromGroup then some toGroup else db.stage h := by
  apply Option.ext
  intro g
  have hfrom := hp.stage_eq_some (h := h) (g := fromGroup)
  have hg := hp.stage_eq_some (h := h) (g := g)
  have hmove := db.getElem?_moveTransactions l fromGroup toGroup ⟨g, h⟩
  rw [(hp.moveTransactions l fromGroup toGroup).stage_eq_some, hmove]
  grind

theorem stage_moveGroup {fromGroup toGroup : Group} (hne : fromGroup ≠ toGroup) :
    (db.moveGroup fromGroup toGroup).stage h =
      if db.stage h = some fromGroup then some toGroup else db.stage h := by
  apply Option.ext
  intro g
  have hfrom := hp.stage_eq_some (h := h) (g := fromGroup)
  have hg := hp.stage_eq_some (h := h) (g := g)
  have hmove := db.getElem?_moveGroup fromGroup toGroup ⟨g, h⟩
  rw [(hp.moveGroup fromGroup toGroup).stage_eq_some, hmove]
  grind

theorem stage_insert (hnew : ¬ db.knows (E.hashSignedTrx t)) :
    stage (db.insert ⟨g, E.hashSignedTrx t⟩ t) h =
      if h = E.hashSignedTrx t then some g else db.stage h := by
  have hnone : db.stage (E.hashSignedTrx t) = none := by
    by_contra hsome
    exact hnew (knows_iff_stage.mpr hsome)
  apply Option.ext
  intro g'
  rw [(hp.insert hnew).stage_eq_some, getElem?_insert']
  have hg := hp.stage_eq_some (h := h) (g := g')
  grind

theorem lists_iff {l : List Hashcode} : (∃ ts, db.Lists g l ts) ↔ ∀ h ∈ l,
    db.stage h = some g := by
  constructor
  · rintro ⟨ts, hts⟩ h hmem
    exact hp.stage_eq_some.mpr (hts.isSome hmem)
  · intro hl
    exact exists_lists fun h hmem => hp.stage_eq_some.mp (hl h hmem)

end Pool

end TrxDb

end Gpm
