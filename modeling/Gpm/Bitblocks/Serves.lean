import Gpm.Bitblocks.Upload

namespace Gpm.Bitblocks

open Lib (Keeps)

/-- A node with the uploads it has under way. -/
structure Host where
  node : Node
  uploads : List Upload := []

inductive StoreEvent
  | event (e : Event)
  | importFile (fuel : ℕ) (disk : List UInt8 → Option InFile) (filename : List UInt8)
  | storeBlock (hc : Hashcode) (d payto : List UInt8)
  | uploadFile (connected : Bool) (disk : List UInt8 → Option InFile)
      (payto filename : List UInt8)
  | written (k : ℕ) (connected ec : Bool)

variable {E : Externals}

namespace Host

variable (E)

def uploadFile (connected : Bool) (disk : List UInt8 → Option InFile)
    (payto filename : List UInt8) (h : Host) : Host :=
  match Bitblocks.uploadFile E connected disk payto filename h.node with
  | .ok u n => { node := n, uploads := h.uploads ++ [u] }
  | .error _ n => { h with node := n }

def written (k : ℕ) (connected ec : Bool) (h : Host) : Host :=
  match h.uploads[k]? with
  | none => h
  | some u =>
    match Upload.step E u (.written connected ec) h.node with
    | .ok u n => { node := n, uploads := h.uploads.set k u }
    | .error _ n => { h with node := n }

def step (h : Host) : StoreEvent → Host
  | .event e => { h with node := Bitblocks.step E h.node e }
  | .importFile fuel disk filename =>
    { h with node := Lib.finalState (importFile E fuel disk filename h.node) }
  | .storeBlock hc d payto => { h with node := h.node.storeBlock hc d payto }
  | .uploadFile connected disk payto filename => h.uploadFile E connected disk payto filename
  | .written k connected ec => h.written E k connected ec

def run (h : Host) (es : List StoreEvent) : Host := es.foldl (step E) h

end Host

def StoreEvent.Hashed (E : Externals) : StoreEvent → Prop
  | .storeBlock hc d _ => E.hashSha1 d = hc
  | _ => True

def ContentAddressed (E : Externals) (n : Node) : Prop :=
  ∀ (hc : Hashcode) b, n.blocks[hc]? = some b → E.hashSha1 b.data = hc

structure Preserves (E : Externals) (n n' : Node) : Prop where
  addressed : ContentAddressed E n → ContentAddressed E n'
  kept : ∀ hc : Hashcode, n.blocks[hc]?.isSome → n'.blocks[hc]?.isSome

namespace Preserves

variable {n n' n'' : Node}

theorem refl (n : Node) : Preserves E n n := ⟨id, fun _ => id⟩

theorem trans (h : Preserves E n n') (h' : Preserves E n' n'') : Preserves E n n'' :=
  ⟨h'.addressed ∘ h.addressed, fun hc => h'.kept hc ∘ h.kept hc⟩

theorem of_blocks (h : n'.blocks = n.blocks) : Preserves E n n' := by
  constructor
  · intro hn
    rw [ContentAddressed, h]
    exact hn
  · intro hc hsome
    rwa [h]

theorem set (b : Block) (n : Node) : Preserves E n (n.set (E.hashSha1 b.data) b) := by
  constructor
  · intro hn hc b' hget
    rw [Node.getElem?_set] at hget
    split at hget
    · rename_i hhash
      rwa [← Option.some.inj hget]
    · exact hn hc b' hget
  · intro hc hsome
    rw [Node.getElem?_set]
    split
    · rfl
    · exact hsome

theorem throwing {α : Type} (x : Except String α) : Keeps (Preserves E) (throwing x) :=
  fun n => of_blocks (Quiet.throwing x n).blocks

theorem setBlock (data : List UInt8) : Keeps (Preserves E) (setBlock E data) :=
  fun n => set { data := data } n

theorem importLoop (bf : Blowfish) (fuel : ℕ) (inp : List UInt8) (len : ℕ) (data : List UInt8)
    (blocks : List Hashcode) : Keeps (Preserves E) (importLoop E bf fuel inp len data blocks) := by
  induction fuel generalizing inp len data blocks with
  | zero => exact fun n => refl n
  | succ fuel ih =>
    unfold Bitblocks.importLoop
    split
    · apply Keeps.bind (R := Preserves E) trans (throwing _)
      intro data
      apply Keeps.bind (R := Preserves E) trans (setBlock data)
      intro hc
      exact ih _ _ _ _
    · exact fun n => refl n

theorem importFile (fuel : ℕ) (disk : List UInt8 → Option InFile) (filename : List UInt8) :
    Keeps (Preserves E) (importFile E fuel disk filename) := by
  unfold Bitblocks.importFile
  split
  · exact fun n => refl n
  · apply Keeps.bind (R := Preserves E) trans (throwing _)
    intro bf
    apply Keeps.bind (R := Preserves E) trans (importLoop bf _ _ _ _ _)
    intro blocks
    apply Keeps.bind (R := Preserves E) trans (throwing _)
    intro data
    apply Keeps.bind (R := Preserves E) trans (setBlock data)
    exact fun hc n => refl n

theorem uploadBlock (connected : Bool) (payto data : List UInt8) :
    Keeps (Preserves E) (uploadBlock connected payto data) := by
  intro n
  unfold Bitblocks.uploadBlock
  split
  · exact of_blocks rfl
  · exact refl n

theorem sendBlock (connected ec : Bool) (u : Upload) :
    Keeps (Preserves E) (sendBlock E connected ec u) := by
  unfold Bitblocks.sendBlock
  split
  · exact Keeps.pure refl _
  split
  · apply Keeps.bind (R := Preserves E) trans (throwing _)
    intro data
    apply Keeps.bind (R := Preserves E) trans (uploadBlock _ _ _)
    exact fun _ => Keeps.pure refl _
  · apply Keeps.bind (R := Preserves E) trans (throwing _)
    intro data
    apply Keeps.bind (R := Preserves E) trans (uploadBlock _ _ _)
    exact fun _ => Keeps.pure refl _

theorem uploadFile (connected : Bool) (disk : List UInt8 → Option InFile)
    (payto filename : List UInt8) :
    Keeps (Preserves E) (uploadFile E connected disk payto filename) := by
  unfold Bitblocks.uploadFile
  split
  · exact fun n => refl n
  · apply Keeps.bind (R := Preserves E) trans (throwing _)
    exact fun bf => sendBlock _ _ _

theorem written (connected ec : Bool) (u : Upload) :
    Keeps (Preserves E) (Upload.step E u (.written connected ec)) := by
  unfold Upload.step
  simp only
  split
  · exact sendBlock connected ec u
  · exact Keeps.pure refl _
  · exact Keeps.pure refl _

theorem step (h : Host) {e : StoreEvent} (he : e.Hashed E) :
    Preserves E h.node (h.step E e).node := by
  cases e with
  | event e =>
    obtain ⟨b, -, -, hstep⟩ | ⟨hquiet, -⟩ := step_cases E h.node e
    · rw [Host.step, hstep]
      exact set b h.node
    · exact of_blocks hquiet.blocks
  | importFile fuel disk filename => exact importFile fuel disk filename h.node
  | storeBlock hc d payto =>
    cases he
    exact set ⟨payto, d⟩ h.node
  | uploadFile connected disk payto filename =>
    have hkeeps := uploadFile (E := E) connected disk payto filename h.node
    rw [Host.step, Host.uploadFile]
    split
    · rename_i hok
      rwa [hok] at hkeeps
    · rename_i herr
      rwa [herr] at hkeeps
  | written k connected ec =>
    rw [Host.step, Host.written]
    split
    · exact refl h.node
    · rename_i u _
      have hkeeps := written (E := E) connected ec u h.node
      split
      · rename_i hok
        rwa [hok] at hkeeps
      · rename_i herr
        rwa [herr] at hkeeps

theorem run (h : Host) {es : List StoreEvent} (hes : ∀ e ∈ es, e.Hashed E) :
    Preserves E h.node (h.run E es).node := by
  induction es generalizing h with
  | nil => exact refl h.node
  | cons e es ih =>
    rw [List.forall_mem_cons] at hes
    exact (step h hes.1).trans (ih (h.step E e) hes.2)

end Preserves

variable {hc : Hashcode}

/-- A node that started with nothing stored answers a request with a block that has the hash it
was asked for, and with no data only for a block it has never had. -/
theorem run_serves {h : Host} (hn : h.node.blocks = ∅) (es es' : List StoreEvent)
    (hes : ∀ e ∈ es ++ es', e.Hashed E)
    (hreading : (h.run E (es ++ es')).node.reading = true) (requestId start len : UInt64) :
    ∃ data, receive E (.requestBlock requestId hc start len) (h.run E (es ++ es')).node =
        (h.run E (es ++ es')).node.send (.reportBlock requestId start data) ∧
      (E.hashSha1 data = hc ∨ data = [] ∧ (h.run E es).node.blocks[hc]? = none) := by
  have haddressed : ContentAddressed E (h.run E (es ++ es')).node := by
    apply (Preserves.run h hes).addressed
    intro hc b hget
    rw [hn, Std.ExtTreeMap.getElem?_empty] at hget
    cases hget
  have hkept := (Preserves.run (h.run E es) (List.forall_mem_append.mp hes).2).kept hc
  have hrun : (h.run E es).run E es' = h.run E (es ++ es') := List.foldl_append.symm
  rw [hrun] at hkept
  generalize (h.run E (es ++ es')).node = m at *
  cases hget : m.blocks[hc]? with
  | some b =>
    exact ⟨b.data, Session.receive_requestBlock hreading _ _ _ (by rw [hget]; rfl),
      Or.inl (haddressed hc b hget)⟩
  | none =>
    refine ⟨[], ?_, Or.inr ⟨rfl, ?_⟩⟩
    · have hdata : getData hc [] m = .ok [] m := by
        change EStateM.Result.ok ((m.blocks[hc]?.map Block.data).getD []) m = _
        rw [hget]
        rfl
      rw [receive, if_pos hreading, handleMessage, Lib.bind_ok hdata]
      rfl
    · rw [hget] at hkept
      exact Option.not_isSome_iff_eq_none.mp fun h => Bool.false_ne_true (hkept h)

def busyEvents : List StoreEvent :=
  [.storeBlock (Wire.checksum [2]) [2] [7], .event (.receive (.storeBlock [] [1])),
    .uploadFile true (fun _ => some Wire.eightBytes) [] Wire.path, .written 0 true false]

theorem run_serves_busy : ∃ data,
    receive Wire.externals (.requestBlock 1 (Wire.checksum [1]) 0 8)
        (Host.run Wire.externals ⟨{}, []⟩ busyEvents).node =
      (Host.run Wire.externals ⟨{}, []⟩ busyEvents).node.send (.reportBlock 1 0 data) ∧
    Wire.checksum data = Wire.checksum [1] := by
  have hstored : ((Host.run Wire.externals ⟨{}, []⟩ busyEvents).node.blocks[
      Wire.checksum [1]]?).isSome = true := by decide +kernel
  obtain ⟨data, hsend, hdata⟩ := @run_serves Wire.externals (Wire.checksum [1]) ⟨{}, []⟩ rfl
    busyEvents [] (by simp [busyEvents, StoreEvent.Hashed, Wire.externals]) (by decide +kernel)
    1 0 8
  rw [List.append_nil] at hsend
  refine ⟨data, hsend, hdata.resolve_right fun hnone => ?_⟩
  rw [hnone.2] at hstored
  cases hstored

end Gpm.Bitblocks
