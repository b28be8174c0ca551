import Gpm.Bitblocks.Fetched

namespace Gpm.Bitblocks

open Lib (Keeps)

def Proto.Message.stored : Proto.Message → Option (List UInt8 × List UInt8)
  | .storeBlock paytoAddress data => some (paytoAddress, data)
  | _ => none

def Node.uploads (n : Node) : List (List UInt8 × List UInt8) :=
  n.sent.filterMap Proto.Message.stored

structure Quiet (n n' : Node) : Prop where
  blocks : n'.blocks = n.blocks
  uploads : n'.uploads = n.uploads
  reading : n'.reading = true → n.reading = true

namespace Quiet

variable {E : Externals} {n n' n'' : Node}

theorem refl (n : Node) : Quiet n n := ⟨rfl, rfl, id⟩

theorem trans (h : Quiet n n') (h' : Quiet n' n'') : Quiet n n'' :=
  ⟨h'.blocks.trans h.blocks, h'.uploads.trans h.uploads, h.reading ∘ h'.reading⟩

theorem of_send {m : Proto.Message} (h : m.stored = none) (n : Node) : Quiet n (n.send m) := by
  refine ⟨rfl, ?_, id⟩
  rw [Node.uploads, Node.send, List.filterMap_append, List.filterMap_cons, h]
  exact List.append_nil _

theorem requestBlock (hc : Hashcode) (preq : PendingRequest) (n : Node) :
    Quiet n (n.requestBlock hc preq) :=
  ⟨rfl, (of_send (m := .requestBlock (n.nextReqId + 1) hc 0 (-1)) rfl n).uploads, id⟩

theorem proceed (k i : ℕ) (d : Download) (n : Node) : Quiet n (n.proceed k i d) := by
  unfold Node.proceed
  split
  · exact ⟨rfl, (requestBlock _ _ (n.setDownload k d)).uploads, id⟩
  · exact ⟨rfl, rfl, id⟩

theorem throwing {α : Type} (x : Except String α) : Keeps Quiet (throwing x) := by
  intro n
  cases x with
  | ok a => exact refl n
  | error message => exact refl n

theorem downloadUrn (keyMeta : List UInt8) : Keeps Quiet (downloadUrn E keyMeta) := by
  intro n
  unfold Bitblocks.downloadUrn metaHash
  simp only
  split
  · exact ⟨rfl, (requestBlock _ _ _).uploads, id⟩
  · exact refl n

theorem metaBlockComplete (k : ℕ) (d : Download) : Keeps Quiet (metaBlockComplete E k d) := by
  intro n
  obtain ⟨e, h⟩ | ⟨bf, data, mf, rest, -, -, -, h⟩ := metaBlockComplete_cases (E := E) k d n
  · rw [h]
    exact refl n
  · rw [h]
    exact proceed _ _ _ n

theorem blockComplete (k i : ℕ) (d : Download) : Keeps Quiet (blockComplete k i d) := by
  intro n
  unfold Bitblocks.blockComplete
  obtain ⟨e, h⟩ | ⟨-, data, h⟩ := writeBlock_cases d n
  · rw [Lib.bind_error h]
    exact refl n
  · rw [Lib.bind_ok h]
    exact proceed _ _ _ n

theorem close (preq : PendingRequest) (d : Download) : Keeps Quiet (close E preq d) := by
  unfold Bitblocks.close
  split
  · exact metaBlockComplete _ d
  · exact blockComplete _ _ d

theorem handleReportBlock (requestId : UInt64) (data : List UInt8) :
    Keeps Quiet (handleReportBlock E requestId data) := by
  unfold Bitblocks.handleReportBlock
  apply Keeps.get_bind
  intro n
  split
  · exact Keeps.pure refl _
  · apply Keeps.get_bind
    intro n
    split
    · exact Keeps.pure refl _
    · apply Keeps.bind (R := Quiet) trans
      · exact Keeps.modify fun n => ⟨rfl, rfl, id⟩
      · intro _
        apply Keeps.bind (R := Quiet) trans (close _ _)
        intro _
        exact Keeps.modify fun n => ⟨rfl, rfl, id⟩

theorem handleMessage {m : Proto.Message} (h : m.stored = none) :
    Keeps Quiet (handleMessage E m) := by
  cases m with
  | createAccount btcAddress => exact Keeps.modify fun n => ⟨rfl, rfl, id⟩
  | storeBlock paytoAddress data => cases h
  | requestBlock requestId blockId start len => exact fun n => of_send rfl n
  | reportBlock requestId start data => exact handleReportBlock requestId data
  | other id => exact Keeps.pure refl _

theorem receive {m : Proto.Message} (h : m.stored = none) (n : Node) :
    Quiet n (receive E m n) := by
  unfold Bitblocks.receive
  split
  · have hkeep := handleMessage (E := E) h n
    split
    · rename_i hok
      rw [hok] at hkeep
      exact hkeep
    · rename_i herr
      rw [herr] at hkeep
      exact ⟨hkeep.blocks, hkeep.uploads, nofun⟩
  · exact refl n

end Quiet

def Event.stored : Event → Option (List UInt8 × List UInt8)
  | .receive m => m.stored
  | .downloadUrn _ => none

variable {E : Externals} {n : Node} {d : List UInt8} {hc : Hashcode}

theorem receive_storeBlock (h : n.reading = true) (paytoAddress data : List UInt8) :
    receive E (.storeBlock paytoAddress data) n =
      n.set (E.hashSha1 data) { paytoAddress := paytoAddress, data := data } := by
  rw [receive, if_pos h]
  rfl

theorem step_cases (E : Externals) (n : Node) (e : Event) :
    (∃ b : Block, n.reading = true ∧ e.stored = some (b.paytoAddress, b.data) ∧
        step E n e = n.set (E.hashSha1 b.data) b) ∨
      Quiet n (step E n e) ∧ (n.reading = true → e.stored = none) := by
  cases e with
  | downloadUrn keyMeta => exact Or.inr ⟨Quiet.downloadUrn keyMeta n, fun _ => rfl⟩
  | receive m =>
    cases hm : m.stored with
    | none => exact Or.inr ⟨Quiet.receive hm n, fun _ => hm⟩
    | some block =>
      cases hreading : n.reading with
      | false =>
        refine Or.inr ⟨?_, nofun⟩
        rw [step, receive, if_neg (by rw [hreading]; exact Bool.false_ne_true)]
        exact Quiet.refl n
      | true =>
        cases m with
        | storeBlock paytoAddress data =>
          exact Or.inl ⟨⟨paytoAddress, data⟩, rfl, rfl, receive_storeBlock hreading _ _⟩
        | createAccount => cases hm
        | requestBlock => cases hm
        | reportBlock => cases hm
        | other => cases hm

theorem reading_of_step {e : Event} (h : (step E n e).reading = true) : n.reading = true := by
  obtain ⟨b, hreading, -⟩ | ⟨hquiet, -⟩ := step_cases E n e
  · exact hreading
  · exact hquiet.reading h

theorem reading_of_run {es : List Event} (h : (run E n es).reading = true) : n.reading = true := by
  induction es generalizing n with
  | nil => exact h
  | cons e es ih => exact reading_of_step (ih h)

theorem run_holds {es : List Event}
    (hcollide : ∀ e ∈ es, ∀ p x, e.stored = some (p, x) → E.hashSha1 x =
      E.hashSha1 d → x = d)
    (hreading : (run E n es).reading = true)
    (h : (∃ e ∈ es, ∃ p, e.stored = some (p, d)) ∨
      n.blocks[E.hashSha1 d]?.map Block.data = some d) :
    (run E n es).blocks[E.hashSha1 d]?.map Block.data = some d := by
  induction es generalizing n with
  | nil =>
    obtain ⟨e, he, -⟩ | h := h
    · cases he
    · exact h
  | cons e es ih =>
    apply ih (fun e' he' => hcollide e' (List.mem_cons_of_mem e he')) hreading
    have hn := reading_of_step (reading_of_run hreading)
    obtain ⟨b, -, hstored, hstep⟩ | ⟨hquiet, hnone⟩ := step_cases E n e
    · rw [hstep, Node.getElem?_set]
      by_cases hhash : E.hashSha1 b.data = E.hashSha1 d
      · rw [if_pos hhash]
        exact Or.inr (congrArg some (hcollide e List.mem_cons_self _ _ hstored hhash))
      · rw [if_neg hhash]
        obtain ⟨e', he', p, hp⟩ | h := h
        · rcases List.mem_cons.mp he' with rfl | he'
          · rw [hstored, Option.some.injEq, Prod.mk.injEq] at hp
            rw [hp.2] at hhash
            exact absurd rfl hhash
          · exact Or.inl ⟨e', he', p, hp⟩
        · exact Or.inr h
    · rw [hquiet.blocks]
      obtain ⟨e', he', p, hp⟩ | h := h
      · rcases List.mem_cons.mp he' with rfl | he'
        · rw [hnone hn] at hp
          cases hp
        · exact Or.inl ⟨e', he', p, hp⟩
      · exact Or.inr h

end Gpm.Bitblocks
