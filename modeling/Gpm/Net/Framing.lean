import Gpm.Lib.Format

namespace Gpm

open Lib.Format (digits value length_digits value_digits)

namespace Proto

structure Message where
  id : UInt16
  data : List UInt8
  deriving DecidableEq

namespace Message

def pack (m : Message) : List UInt8 :=
  digits 2 m.id.toNat ++ (digits 4 m.data.length ++ m.data)

def Fits (m : Message) : Prop := m.data.length < 256 ^ 4

instance : DecidablePred Fits := fun m => inferInstanceAs (Decidable (m.data.length < 256 ^ 4))

end Message

end Proto

open Proto (Message)

/-- What the `async_read` under way is to fill, and the bytes it has. -/
inductive ReadState
  | id (got : List UInt8)
  | size (msgId : UInt16) (got : List UInt8)
  | data (msgId : UInt16) (msgSize : ℕ) (got : List UInt8)
  deriving DecidableEq

/-- The reading end, and the messages on which `handle_message` was called. -/
structure Reader where
  state : ReadState := .id []
  handled : List Message := []
  deriving DecidableEq

namespace Reader

def readMessage (r : Reader) (b : UInt8) : Reader :=
  match r.state with
  | .id got =>
    let got := got ++ [b]
    if got.length < 2 then { r with state := .id got }
    else { r with state := .size (UInt16.ofNat (value got)) [] }
  | .size id got =>
    let got := got ++ [b]
    if got.length < 4 then { r with state := .size id got }
    else if value got = 0 then { state := .id [], handled := r.handled ++ [⟨id, []⟩] }
    else { r with state := .data id (value got) [] }
  | .data id msgSize got =>
    let got := got ++ [b]
    if got.length < msgSize then { r with state := .data id msgSize got }
    else { state := .id [], handled := r.handled ++ [⟨id, got⟩] }

def readAll (r : Reader) (bytes : List UInt8) : Reader := bytes.foldl readMessage r

end Reader

namespace ReadState

def append (bytes : List UInt8) : ReadState → ReadState
  | .id got => .id (got ++ bytes)
  | .size msgId got => .size msgId (got ++ bytes)
  | .data msgId msgSize got => .data msgId msgSize (got ++ bytes)

def room : ReadState → ℕ
  | .id got => 2 - got.length
  | .size _ got => 4 - got.length
  | .data _ msgSize got => msgSize - got.length

def length : ReadState → ℕ
  | .id got => got.length
  | .size _ got => 2 + got.length
  | .data _ _ got => 2 + 4 + got.length

theorem room_append (s : ReadState) (bytes : List UInt8) :
    (s.append bytes).room = s.room - bytes.length := by
  cases s <;> simp only [append, room, List.length_append] <;> omega

theorem append_append (s : ReadState) (bytes more : List UInt8) :
    (s.append bytes).append more = s.append (bytes ++ more) := by
  cases s <;> simp only [append, List.append_assoc]

theorem append_nil (s : ReadState) : s.append [] = s := by
  cases s <;> simp only [append, List.append_nil]

end ReadState

namespace Reader

variable {r : Reader} {b : UInt8} {bytes more : List UInt8} {ms : List Message} {m : Message}

theorem readAll_append : r.readAll (bytes ++ more) = (r.readAll bytes).readAll more :=
  List.foldl_append

theorem readMessage_of_room (h : 1 < r.state.room) :
    r.readMessage b = { r with state := r.state.append [b] } := by
  obtain ⟨s, ms⟩ := r
  cases s <;> simp only [ReadState.room] at h <;>
    simp only [readMessage, ReadState.append, List.length_append, List.length_singleton] <;>
    rw [if_pos (by omega)]

theorem readAll_of_room (h : bytes.length < r.state.room) :
    r.readAll bytes = { r with state := r.state.append bytes } := by
  induction bytes generalizing r with
  | nil => rw [ReadState.append_nil]; rfl
  | cons b bytes ih =>
    rw [List.length_cons] at h
    have hb : r.readMessage b = { r with state := r.state.append [b] } :=
      readMessage_of_room (by omega)
    have hrest : bytes.length < (r.state.append [b]).room := by
      rw [ReadState.room_append, List.length_singleton]
      omega
    rw [readAll, List.foldl_cons, hb, ← readAll, ih hrest, ReadState.append_append]
    rfl

theorem readAll_id (id : UInt16) :
    readAll ⟨.id [], ms⟩ (digits 2 id.toNat) = ⟨.size id [], ms⟩ := by
  have hid : value (digits 2 id.toNat) = id.toNat := value_digits 2 _ id.toNat_lt
  have hread : readAll ⟨.id [], ms⟩ (digits 2 id.toNat) =
      ⟨.size (UInt16.ofNat (value (digits 2 id.toNat))) [], ms⟩ := rfl
  rw [hread, hid, UInt16.ofNat_toNat]

theorem readAll_size {id : UInt16} {n : ℕ} (hn : n < 256 ^ 4) :
    readAll ⟨.size id [], ms⟩ (digits 4 n) =
      if n = 0 then ⟨.id [], ms ++ [⟨id, []⟩]⟩ else ⟨.data id n [], ms⟩ := by
  have hvalue : value (digits 4 n) = n := value_digits 4 n hn
  have hread : readAll ⟨.size id [], ms⟩ (digits 4 n) =
      if value (digits 4 n) = 0 then ⟨.id [], ms ++ [⟨id, []⟩]⟩
      else ⟨.data id (value (digits 4 n)) [], ms⟩ := rfl
  rw [hread, hvalue]

theorem readAll_data {id : UInt16} {data : List UInt8} (h : data ≠ []) :
    readAll ⟨.data id data.length [], ms⟩ data = ⟨.id [], ms ++ [⟨id, data⟩]⟩ := by
  obtain ⟨init, b, rfl⟩ := (List.eq_nil_or_concat' data).resolve_left h
  have hroom : init.length < (ReadState.data id (init ++ [b]).length []).room := by
    simp [ReadState.room]
  rw [readAll_append, readAll_of_room (r := ⟨.data id _ [], ms⟩) hroom]
  have hlast : ¬ (init ++ [b]).length < (init ++ [b]).length := Nat.lt_irrefl _
  simp only [readAll, List.foldl_cons, List.foldl_nil, readMessage, ReadState.append,
    List.nil_append, if_neg hlast]

theorem readAll_pack (hm : m.Fits) : readAll ⟨.id [], ms⟩ m.pack = ⟨.id [], ms ++ [m]⟩ := by
  obtain ⟨id, data⟩ := m
  rw [Message.pack, readAll_append, readAll_append, readAll_id, readAll_size hm]
  split
  · rename_i hzero
    obtain rfl : data = [] := List.eq_nil_of_length_eq_zero hzero
    rfl
  · rename_i hlen
    exact readAll_data (List.ne_nil_of_length_pos (Nat.pos_of_ne_zero hlen))

theorem handled_readMessage : r.handled <+: (r.readMessage b).handled := by
  obtain ⟨s, ms⟩ := r
  cases s with
  | id got =>
    simp only [readMessage]
    split <;> exact List.prefix_refl ms
  | size msgId got =>
    simp only [readMessage]
    split
    · exact List.prefix_refl ms
    · split
      · exact List.prefix_append ms _
      · exact List.prefix_refl ms
  | data msgId msgSize got =>
    simp only [readMessage]
    split
    · exact List.prefix_refl ms
    · exact List.prefix_append ms _

theorem handled_readAll (r : Reader) (bytes : List UInt8) :
    r.handled <+: (r.readAll bytes).handled := by
  induction bytes generalizing r with
  | nil => exact List.prefix_refl _
  | cons b bytes ih => exact handled_readMessage.trans (ih _)

def consumed (r : Reader) : ℕ := (r.handled.map fun m => m.pack.length).sum + r.state.length

theorem consumed_readMessage (h : 0 < r.state.room) :
    (r.readMessage b).consumed = r.consumed + 1 ∧ 0 < (r.readMessage b).state.room := by
  obtain ⟨s, ms⟩ := r
  cases s with
  | id got =>
    simp only [readMessage, consumed, ReadState.room, List.length_append, List.length_singleton]
      at h ⊢
    split
    · simp only [ReadState.length, List.length_append, List.length_singleton]
      omega
    · simp only [ReadState.length, List.length_nil]
      omega
  | size msgId got =>
    simp only [readMessage, consumed, ReadState.room, List.length_append, List.length_singleton]
      at h ⊢
    split
    · simp only [ReadState.length, List.length_append, List.length_singleton]
      omega
    · split
      · simp only [ReadState.length, List.length_nil, List.map_append, List.sum_append,
          List.map_singleton, List.sum_singleton, Message.pack, List.length_append, length_digits]
        omega
      · simp only [ReadState.length, List.length_nil]
        omega
  | data msgId msgSize got =>
    simp only [readMessage, consumed, ReadState.room, List.length_append, List.length_singleton]
      at h ⊢
    split
    · simp only [ReadState.length, List.length_append, List.length_singleton]
      omega
    · simp only [ReadState.length, List.length_nil, List.map_append, List.sum_append,
        List.map_singleton, List.sum_singleton, Message.pack, List.length_append, length_digits,
        List.length_singleton]
      omega

theorem consumed_readAll (bytes : List UInt8) (h : 0 < r.state.room) :
    (r.readAll bytes).consumed = r.consumed + bytes.length := by
  induction bytes generalizing r with
  | nil => rfl
  | cons b bytes ih =>
    obtain ⟨hb, hroom⟩ := consumed_readMessage (b := b) h
    rw [readAll, List.foldl_cons, ← readAll, ih hroom, hb, List.length_cons]
    omega

theorem readAll_front (hm : m.Fits) (h : bytes ++ more = m.pack) (hmore : more ≠ []) :
    (readAll ⟨.id [], ms⟩ bytes).handled = ms := by
  have hroom : 0 < (ReadState.id []).room := by decide
  have hconsumed := consumed_readAll (r := ⟨.id [], ms⟩) bytes hroom
  have hwhole : (readAll ⟨.id [], ms⟩ bytes).readAll more = ⟨.id [], ms ++ [m]⟩ := by
    rw [← readAll_append, h, readAll_pack hm]
  have hlen := congrArg List.length h
  have hpos := List.length_pos_iff.mpr hmore
  have hafter := handled_readAll (readAll ⟨.id [], ms⟩ bytes) more
  obtain ⟨t, ht⟩ := handled_readAll ⟨.id [], ms⟩ bytes
  rw [hwhole, ← ht, List.prefix_append_right_inj] at hafter
  cases t with
  | nil => rw [← ht, List.append_nil]
  | cons m' t =>
    obtain ⟨rfl, -⟩ := List.cons_prefix_cons.mp hafter
    simp only [consumed, ← ht, List.map_append, List.sum_append, List.map_cons, List.sum_cons,
      ReadState.length, List.length_nil] at hconsumed
    rw [List.length_append] at hlen
    omega

end Reader

/-- An `async_write` that has not called `handle_write` yet. -/
structure Write where
  message : Message
  rest : List UInt8
  deriving DecidableEq

namespace Write

def Begun (w : Write) : Prop := w.rest ≠ w.message.pack

instance : DecidablePred Begun := fun w => inferInstanceAs (Decidable (w.rest ≠ w.message.pack))

end Write

structure Direction where
  sent : List Message := []
  writes : List Write := []
  inFlight : List UInt8 := []
  reader : Reader := {}
  deriving DecidableEq

namespace Direction

inductive Action
  | sendMessage (m : Message)
  | writeSome (i n : ℕ)
  | readSome (n : ℕ)

def sendMessage (m : Message) (d : Direction) : Direction :=
  { d with sent := d.sent ++ [m], writes := d.writes ++ [⟨m, m.pack⟩] }

def writeSome (i n : ℕ) (d : Direction) : Direction :=
  match d.writes[i]? with
  | none => d
  | some w =>
    { d with
      writes :=
        if w.rest.drop n = [] then d.writes.eraseIdx i
        else d.writes.set i { w with rest := w.rest.drop n }
      inFlight := d.inFlight ++ w.rest.take n }

def readSome (n : ℕ) (d : Direction) : Direction :=
  { d with inFlight := d.inFlight.drop n, reader := d.reader.readAll (d.inFlight.take n) }

def step (d : Direction) : Action → Direction
  | .sendMessage m => d.sendMessage m
  | .writeSome i n => d.writeSome i n
  | .readSome n => d.readSome n

def run (as : List Action) : Direction := as.foldl step {}

def Faithful (d : Direction) : Prop :=
  ∃ waiting, (d.reader.handled ++ waiting).Perm d.sent ∧
    (d.writes = [] → d.inFlight = [] → waiting = [])

def Apart (d : Direction) : Action → Prop
  | .sendMessage m => m.Fits
  | .writeSome i _ => ∀ w ∈ d.writes.eraseIdx i, ¬ w.Begun
  | .readSome _ => True

def AllApart (d : Direction) : List Action → Prop
  | [] => True
  | a :: as => d.Apart a ∧ (d.step a).AllApart as

instance (d : Direction) : DecidablePred d.Apart
  | .sendMessage m => inferInstanceAs (Decidable m.Fits)
  | .writeSome i _ => inferInstanceAs (Decidable (∀ w ∈ d.writes.eraseIdx i, ¬ w.Begun))
  | .readSome _ => inferInstanceAs (Decidable True)

instance decidableAllApart : (d : Direction) → DecidablePred d.AllApart
  | _, [] => inferInstanceAs (Decidable True)
  | d, a :: as =>
    have := decidableAllApart (d.step a) as
    inferInstanceAs (Decidable (d.Apart a ∧ (d.step a).AllApart as))

variable {d : Direction} {a : Action} {as : List Action} {ms : List Message}
    {m : Message} {w : Write}

def Arrives (d : Direction) (ms : List Message) (front : List UInt8) : Prop :=
  d.reader.readAll d.inFlight = Reader.readAll ⟨.id [], ms⟩ front

inductive Ordered (d : Direction) (ms : List Message) : Prop
  | between : d.Arrives ms [] → (∀ w ∈ d.writes, ¬ w.Begun) → Ordered d ms
  | within (i : ℕ) (w : Write) (front : List UInt8) : d.writes[i]? = some w →
      front ++ w.rest = w.message.pack → front ≠ [] → w.rest ≠ [] → d.Arrives ms front →
      (∀ w' ∈ d.writes.eraseIdx i, ¬ w'.Begun) → Ordered d ms

/-- Of the messages sent those whose writes are done are handled or about to be. -/
structure Framed (d : Direction) (ms : List Message) : Prop where
  perm : (ms ++ d.writes.map Write.message).Perm d.sent
  fits : ∀ w ∈ d.writes, w.message.Fits
  ordered : d.Ordered ms

theorem Framed.faithful (h : d.Framed ms) : d.Faithful := by
  have hprefix := Reader.handled_readAll d.reader d.inFlight
  have hms : (d.reader.readAll d.inFlight).handled = ms := by
    cases h.ordered with
    | between harrives => rw [harrives]; rfl
    | within i w front hi hpack hfront hrest harrives =>
      rw [harrives]
      exact Reader.readAll_front (h.fits w (List.mem_of_getElem? hi)) hpack hrest
  obtain ⟨t, ht⟩ := hprefix
  rw [hms] at ht
  refine ⟨t ++ d.writes.map Write.message, ?_, fun hwrites hflight => ?_⟩
  · rw [← List.append_assoc, ht]
    exact h.perm
  · rw [hflight, ← ht] at hms
    have hnil : t = [] := List.append_right_eq_self.mp hms.symm
    rw [hnil, hwrites]
    rfl

theorem framed_start : Framed {} [] where
  perm := List.Perm.refl []
  fits w hw := by cases hw
  ordered := .between rfl fun w hw => by cases hw

theorem Framed.sendMessage (h : d.Framed ms) (hm : m.Fits) : (d.sendMessage m).Framed ms where
  perm := by
    simp only [Direction.sendMessage, List.map_append, List.map_singleton, ← List.append_assoc]
    exact h.perm.append_right [m]
  fits w hw := by
    simp only [Direction.sendMessage, List.mem_append, List.mem_singleton] at hw
    obtain hw | rfl := hw
    · exact h.fits w hw
    · exact hm
  ordered := by
    have hnew : ¬ Write.Begun ⟨m, m.pack⟩ := not_not.mpr rfl
    cases h.ordered with
    | between harrives hnone =>
      refine .between harrives fun w hw => ?_
      simp only [Direction.sendMessage, List.mem_append, List.mem_singleton] at hw
      obtain hw | rfl := hw
      · exact hnone w hw
      · exact hnew
    | within i w front hi hpack hfront hrest harrives hnone =>
      have hlt : i < d.writes.length := (List.getElem?_eq_some_iff.mp hi).1
      refine .within i w front ?_ hpack hfront hrest harrives fun w' hw' => ?_
      · rw [Direction.sendMessage, List.getElem?_append_left hlt, hi]
      · simp only [Direction.sendMessage, List.eraseIdx_append_of_lt_length hlt, List.mem_append,
          List.mem_singleton] at hw'
        obtain hw' | rfl := hw'
        · exact hnone w' hw'
        · exact hnew

theorem Arrives.readSome {front : List UInt8} (h : d.Arrives ms front) (n : ℕ) :
    (d.readSome n).Arrives ms front := by
  unfold Arrives Direction.readSome
  rw [← Reader.readAll_append, List.take_append_drop]
  exact h

theorem Framed.readSome (h : d.Framed ms) (n : ℕ) : (d.readSome n).Framed ms where
  perm := h.perm
  fits := h.fits
  ordered := by
    cases h.ordered with
    | between harrives hnone => exact .between (harrives.readSome n) hnone
    | within i w front hi hpack hfront hrest harrives hnone =>
      exact .within i w front hi hpack hfront hrest (harrives.readSome n) hnone

theorem Ordered.front {i : ℕ} (h : d.Ordered ms) (hi : d.writes[i]? = some w)
    (hapart : ∀ w' ∈ d.writes.eraseIdx i, ¬ w'.Begun) :
    ∃ front, front ++ w.rest = w.message.pack ∧ d.Arrives ms front := by
  cases h with
  | between harrives hnone =>
    have hrest : w.rest = w.message.pack := not_not.mp (hnone w (List.mem_of_getElem? hi))
    exact ⟨[], hrest, harrives⟩
  | within j w' front hj hpack hfront hrest harrives =>
    have hbegun : w'.Begun := by
      intro h
      rw [h] at hpack
      exact hfront (List.append_left_eq_self.mp hpack)
    have hji : j = i := by
      by_contra hne
      exact hapart w' (List.mem_eraseIdx_iff_getElem?.mpr ⟨j, hne, hj⟩) hbegun
    rw [hji, hi, Option.some.injEq] at hj
    subst hj
    exact ⟨front, hpack, harrives⟩

theorem mem_set_cases {ws : List Write} {w' : Write} {i : ℕ} (h : w' ∈ ws.set i w) :
    w' = w ∨ w' ∈ ws.eraseIdx i := by
  obtain ⟨j, hj⟩ := List.mem_iff_getElem?.mp h
  rw [List.getElem?_set] at hj
  split at hj
  · split at hj
    · exact Or.inl (Option.some.inj hj).symm
    · cases hj
  · rename_i hne
    exact Or.inr (List.mem_eraseIdx_iff_getElem?.mpr ⟨j, Ne.symm hne, hj⟩)

theorem Framed.writeDone {i n : ℕ} {front : List UInt8} (h : d.Framed ms)
    (hi : d.writes[i]? = some w) (hpack : front ++ w.rest = w.message.pack)
    (harrives : d.Arrives ms front) (hapart : ∀ w' ∈ d.writes.eraseIdx i, ¬ w'.Begun)
    (hdone : w.rest.drop n = []) : (d.writeSome i n).Framed (ms ++ [w.message]) := by
  have hfits := h.fits w (List.mem_of_getElem? hi)
  have htake : w.rest.take n = w.rest :=
    List.take_of_length_le (List.drop_eq_nil_iff.mp hdone)
  simp only [Direction.writeSome, hi, if_pos hdone, htake]
  constructor
  · obtain ⟨hlt, rfl⟩ := List.getElem?_eq_some_iff.mp hi
    have hperm := (List.getElem_cons_eraseIdx_perm hlt).map Write.message
    rw [List.append_assoc]
    exact (hperm.append_left ms).trans h.perm
  · exact fun w' hw' => h.fits w' (List.mem_of_mem_eraseIdx hw')
  · refine .between ?_ hapart
    rw [Arrives, Reader.readAll_append, harrives, ← Reader.readAll_append, hpack,
      Reader.readAll_pack hfits]
    rfl

theorem Framed.writeMore {i n : ℕ} {front : List UInt8} (h : d.Framed ms)
    (hi : d.writes[i]? = some w) (hpack : front ++ w.rest = w.message.pack)
    (harrives : d.Arrives ms front) (hapart : ∀ w' ∈ d.writes.eraseIdx i, ¬ w'.Begun)
    (hmore : w.rest.drop n ≠ []) : (d.writeSome i n).Framed ms := by
  obtain ⟨hlt, hw⟩ := List.getElem?_eq_some_iff.mp hi
  have hpack' : (front ++ w.rest.take n) ++ w.rest.drop n = w.message.pack := by
    rw [List.append_assoc, List.take_append_drop, hpack]
  have harrives' : (d.writeSome i n).Arrives ms (front ++ w.rest.take n) := by
    simp only [Arrives, Direction.writeSome, hi]
    rw [Reader.readAll_append, harrives, ← Reader.readAll_append]
  have hwrites : (d.writeSome i n).writes =
      d.writes.set i { w with rest := w.rest.drop n } := by
    simp only [Direction.writeSome, hi, if_neg hmore]
  have hsent : (d.writeSome i n).sent = d.sent := by simp only [Direction.writeSome, hi]
  constructor
  · have hmap : (d.writes.set i { w with rest := w.rest.drop n }).map Write.message =
        d.writes.map Write.message := by
      apply List.ext_getElem?
      intro j
      rw [List.map_set, List.getElem?_set]
      split
      · rename_i hij
        rw [if_pos (by rwa [List.length_map]), ← hij, List.getElem?_map, hi]
        rfl
      · rfl
    rw [hwrites, hsent, hmap]
    exact h.perm
  · rw [hwrites]
    intro w' hw'
    obtain rfl | hw' := mem_set_cases hw'
    · exact h.fits w (List.mem_of_getElem? hi)
    · exact h.fits w' (List.mem_of_mem_eraseIdx hw')
  · by_cases hfront : front ++ w.rest.take n = []
    · rw [hfront] at harrives' hpack'
      refine .between harrives' ?_
      rw [hwrites]
      intro w' hw'
      obtain rfl | hw' := mem_set_cases hw'
      · exact not_not.mpr hpack'
      · exact hapart w' hw'
    · refine .within i { w with rest := w.rest.drop n } _ ?_ hpack' hfront hmore harrives' ?_
      · rw [hwrites, List.getElem?_set_self hlt]
      · rw [hwrites, List.eraseIdx_set_eq]
        exact hapart

theorem Framed.writeSome {i : ℕ} (h : d.Framed ms) (n : ℕ)
    (hapart : ∀ w' ∈ d.writes.eraseIdx i, ¬ w'.Begun) :
    ∃ ms', (d.writeSome i n).Framed ms' := by
  cases hi : d.writes[i]? with
  | none => exact ⟨ms, by rwa [Direction.writeSome, hi]⟩
  | some w =>
    obtain ⟨front, hpack, harrives⟩ := h.ordered.front hi hapart
    by_cases hdone : w.rest.drop n = []
    · exact ⟨_, h.writeDone hi hpack harrives hapart hdone⟩
    · exact ⟨_, h.writeMore hi hpack harrives hapart hdone⟩

theorem Framed.step (h : d.Framed ms) (ha : d.Apart a) : ∃ ms', (d.step a).Framed ms' := by
  cases a with
  | sendMessage m => exact ⟨ms, h.sendMessage ha⟩
  | writeSome i n => exact h.writeSome n ha
  | readSome n => exact ⟨ms, h.readSome n⟩

theorem Framed.steps (h : d.Framed ms) (has : d.AllApart as) :
    ∃ ms', (as.foldl Direction.step d).Framed ms' := by
  induction as generalizing d ms with
  | nil => exact ⟨ms, h⟩
  | cons a as ih =>
    obtain ⟨ms', h'⟩ := h.step has.1
    exact ih h' has.2

/-- Writes that are kept apart deliver what was sent. -/
theorem run_faithful (has : AllApart {} as) : (run as).Faithful := by
  obtain ⟨ms, h⟩ := framed_start.steps has
  exact h.faithful

def crossing : List Action :=
  [.sendMessage ⟨2, [1, 0, 0, 0]⟩, .sendMessage ⟨2, [2, 0, 0, 0]⟩, .writeSome 0 3,
    .writeSome 1 10,
    .writeSome 0 7, .readSome 20]

def overtaking : List Action :=
  [.sendMessage ⟨2, [1, 0, 0, 0]⟩, .sendMessage ⟨2, [2, 0, 0, 0]⟩,
    .writeSome 1 3, .writeSome 1 7,
    .readSome 5, .writeSome 0 10, .readSome 15]

theorem faithful_overtaking : (run overtaking).Faithful :=
  run_faithful (by decide)

theorem not_faithful_crossing : ¬ ∀ as, (run as).Faithful := by
  intro h
  obtain ⟨waiting, hperm, hnil⟩ := h crossing
  have hhandled : (run crossing).reader.handled = [] := by decide
  have hsent : (run crossing).sent ≠ [] := by decide
  rw [hhandled, hnil (by decide) (by decide)] at hperm
  exact hsent hperm.nil_eq.symm

end Direction

end Gpm
