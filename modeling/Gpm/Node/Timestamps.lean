import Gpm.Node.Calls
import Gpm.StateDb.Wire

namespace Gpm

namespace Node

/-- The variables of `node_private::generate`. -/
structure Search where
  working : Block
  target : Hashcode
  found : Bool := false
  best : Block := {}
  /-- The reading of `utc_clock` in the round that set `best`: a history variable. -/
  bestClock : ℕ := 0

/-- The block that is posted, and the last reading of `utc_clock`. -/
structure Posted where
  best : Block
  bestClock : ℕ
  lastClock : ℕ
  deriving DecidableEq

section

variable (E : Externals) (b : Block) (mHashrate : UInt64)

def searchRound (utcClock : ℕ) (s : Search) : Search :=
  let working := { s.working with utcTime := max b.utcTime (UInt32.ofNat (utcClock / 100000)) }
  let (hit, working) := Gpm.generate E.hashBlock working s.target (working.nonce + 1)
    (working.nonce + mHashrate)
  if hit then
    { working, target := E.hashBlock working, found := true, best := working,
      bestClock := utcClock }
  else { s with working }

/-- The `do` loop.  `mStopGen` is what other threads have made of `m_stop_gen` at each test, and
`fuel` bounds the rounds; the readings which are not used up come back with the variables. -/
def searchLoop : ℕ → (ℕ → Bool) → Clock → Search → Option (Search × Clock)
  | 0, _, _, _ => none
  | fuel + 1, mStopGen, clock, s =>
    let s := searchRound E b mHashrate (clock 0) s
    if mStopGen 0 then some (s, clock.tail)
    else if s.found = false then
      searchLoop fuel (fun i => mStopGen (i + 1)) clock.tail s
    else if clock 1 / 1000000 < b.utcTime.toNat then
      searchLoop fuel (fun i => mStopGen (i + 1)) clock.tail.tail s
    else some (s, clock.tail.tail)

def search (fuel : ℕ) (mStopGen : ℕ → Bool) (clock : Clock) (target : Hashcode) :
    Option Posted :=
  match searchLoop E b mHashrate fuel mStopGen clock { working := b, target } with
  | none => none
  | some (s, clock) =>
    if s.found = true ∧ b.utcTime.toNat ≤ clock 0 / 1000000 then some ⟨s.best,
        s.bestClock, clock 0⟩
    else none

end

def FromFuture (utcClock : ℕ) (blk : Block) : Prop := seconds utcClock + 30 < blk.utcTime

structure Timely (b best : Block) (now : ℕ) : Prop where
  candidate : b.utcTime ≤ best.utcTime
  ahead : best.utcTime.toNat ≤ now / 1000000 + 30
  accepted : ¬ FromFuture now best

/-- Tenths of a second, cut to 32 bits, are not too far ahead of seconds.  Where the sum of
`add_block` goes beyond 32 bits, the time of the candidate has to stay below as well. -/
def InTime (candidate round now : ℕ) : Prop :=
  if now / 1000000 + 30 < 2 ^ 32 then round / 100000 % 2 ^ 32 ≤ now / 1000000 + 30
  else (candidate / 1000000 + secondsPerBlock) % 2 ^ 32 ≤ now / 1000000 + 30 - 2 ^ 32 ∧
    round / 100000 % 2 ^ 32 ≤ now / 1000000 + 30 - 2 ^ 32

variable {E : Externals} {b : Block} {mHashrate : UInt64} {n n' : Node} {clock : Clock}

def Search.Dated (b : Block) (s : Search) : Prop :=
  s.found = true → s.best.utcTime = max b.utcTime (UInt32.ofNat (s.bestClock / 100000))

theorem dated_searchRound {s : Search} (h : s.Dated b) (utcClock : ℕ) :
    (searchRound E b mHashrate utcClock s).Dated b := by
  unfold searchRound
  obtain ⟨nonce, hnonce⟩ : ∃ nonce, (Gpm.generate E.hashBlock
      { s.working with utcTime := max b.utcTime (UInt32.ofNat (utcClock / 100000)) } s.target
      (s.working.nonce + 1) (s.working.nonce + mHashrate)).2 =
        { s.working with utcTime := max b.utcTime (UInt32.ofNat (utcClock / 100000)), nonce } := by
    unfold Gpm.generate
    exact generateLoop_eq E.hashBlock _ _ _ _
  dsimp only
  split
  · intro _
    rw [hnonce]
  · exact h

theorem dated_searchLoop {fuel : ℕ} {mStopGen : ℕ → Bool} {s s' : Search} {clock' : Clock}
    (h : s.Dated b) (hrun : searchLoop E b mHashrate fuel mStopGen clock s = some (s', clock')) :
    s'.Dated b := by
  induction fuel generalizing mStopGen clock s with
  | zero => cases hrun
  | succ fuel ih =>
    have hround : (searchRound E b mHashrate (clock 0) s).Dated b := dated_searchRound h _
    unfold searchLoop at hrun
    dsimp only at hrun
    split at hrun
    · cases hrun
      exact hround
    · split at hrun
      · exact ih hround hrun
      · split at hrun
        · exact ih hround hrun
        · cases hrun
          exact hround

theorem of_search {fuel : ℕ} {mStopGen : ℕ → Bool} {target : Hashcode} {p : Posted}
    (hrun : search E b mHashrate fuel mStopGen clock target = some p) :
    p.best.utcTime = max b.utcTime (UInt32.ofNat (p.bestClock / 100000)) ∧
      b.utcTime.toNat ≤ p.lastClock / 1000000 := by
  unfold search at hrun
  split at hrun
  · cases hrun
  · rename_i s clock' hloop
    have hdated : s.Dated b := dated_searchLoop (fun hfound => absurd hfound Bool.false_ne_true)
        hloop
    split at hrun
    · rename_i hposts
      cases hrun
      exact ⟨hdated hposts.1, hposts.2⟩
    · cases hrun

theorem utcTime_createNextBlock (hok : createNextBlock E clock n = .ok b n') :
    b.utcTime = UInt32.ofNat (clock 1 / 1000000 + secondsPerBlock) := by
  unfold createNextBlock at hok
  rw [Lib.get_bind] at hok
  obtain ⟨hs, n₁, -, hok⟩ := Lib.of_bind_ok hok
  obtain ⟨hash, n₂, -, hok⟩ := Lib.of_bind_ok hok
  rw [Lib.modify_bind] at hok
  cases hok
  rfl

theorem utcTime_createGenBlock (hok : createGenBlock E clock n = .ok b n') :
    b.utcTime = UInt32.ofNat (clock 1 / 1000000 + secondsPerBlock) := by
  unfold createGenBlock at hok
  rw [Lib.modify_bind, Lib.get_bind] at hok
  split at hok
  · obtain ⟨u, n₁, -, hok⟩ := Lib.of_bind_ok hok
    exact utcTime_createNextBlock hok
  · exact utcTime_createNextBlock hok

theorem toNat_seconds {utcClock : ℕ} (h : utcClock / 1000000 < 2 ^ 32) :
    (seconds utcClock).toNat = utcClock / 1000000 := UInt32.toNat_ofNat_of_lt' h

theorem fromFuture_iff {now : ℕ} (hnow : now / 1000000 < 2 ^ 32) (blk : Block) :
    FromFuture now blk ↔ (now / 1000000 + 30) % 2 ^ 32 < blk.utcTime.toNat := by
  rw [FromFuture, UInt32.lt_iff_toNat_lt, UInt32.toNat_add, toNat_seconds hnow]
  rfl

theorem toNat_max (s t : UInt32) : (max s t).toNat = max s.toNat t.toNat := by
  change (if s ≤ t then t else s).toNat = _
  simp only [UInt32.le_iff_toNat_le]
  split
  · rename_i h
    exact (Nat.max_eq_right h).symm
  · rename_i h
    exact (Nat.max_eq_left (Nat.le_of_not_le h)).symm

/-- Whether the node accepts the time of its own block depends on the reading of its round. -/
theorem search_timely_iff (hcandidate : createGenBlock E clock n = .ok b n')
    {fuel : ℕ} {mStopGen : ℕ → Bool} {target : Hashcode} {p : Posted}
    (hrun : search E b mHashrate fuel mStopGen clock.tail.tail target = some p) {now : ℕ}
    (hlater : p.lastClock ≤ now) (hnow : now / 1000000 < 2 ^ 32) :
    Timely b p.best now ↔ InTime (clock 1) p.bestClock now := by
  obtain ⟨htime, hcome⟩ := of_search hrun
  have hb := congrArg UInt32.toNat (utcTime_createGenBlock hcandidate)
  have hbest := congrArg UInt32.toNat htime
  rw [UInt32.toNat_ofNat'] at hb
  rw [toNat_max, UInt32.toNat_ofNat'] at hbest
  have hcand : b.utcTime ≤ p.best.utcTime := by
    rw [UInt32.le_iff_toNat_le, hbest]
    exact le_max_left _ _
  have hiff : Timely b p.best now ↔ p.best.utcTime.toNat ≤ now / 1000000 + 30 ∧
      p.best.utcTime.toNat ≤ (now / 1000000 + 30) % 2 ^ 32 := by
    rw [← Nat.not_lt (a := (now / 1000000 + 30) % 2 ^ 32), ← fromFuture_iff hnow]
    exact ⟨fun h => ⟨h.ahead, h.accepted⟩, fun h => ⟨hcand, h.1, h.2⟩⟩
  rw [hiff, InTime, hbest, max_le_iff, max_le_iff, ← hb]
  split
  · rename_i hsmall
    rw [Nat.mod_eq_of_lt hsmall]
    omega
  · rename_i hlarge
    omega

def startedAt (t : ℕ) : Clock := fun i => if i < 2 then t * 1000000 else (t + 15) * 1000000

theorem monotone_startedAt (t : ℕ) : Monotone (startedAt t) := by
  intro i j hij
  unfold startedAt
  split <;> split <;> omega

def candidateAt (t : ℕ) : Block :=
  (Lib.returned (createGenBlock (Wire.externals fun _ => 0) (startedAt t) {})).getD {}

def postedAt (t : ℕ) : Posted :=
  (search (Wire.externals fun _ => 0) (candidateAt t) 1000 1 (fun _ => false)
    (startedAt t).tail.tail 1).getD ⟨{}, 0, 0⟩

theorem search_timely_2012 :
    Timely (candidateAt 1325376000) (postedAt 1325376000).best 1325376015000000 := by
  have hcandidate : createGenBlock (Wire.externals fun _ => 0) (startedAt 1325376000) {} =
      .ok (candidateAt 1325376000) _ := Lib.eq_ok_of_returned (by decide +kernel)
  have hrun : search (Wire.externals fun _ => 0) (candidateAt 1325376000) 1000 1 (fun _ => false)
      (startedAt 1325376000).tail.tail 1 = some (postedAt 1325376000) := by decide +kernel
  apply (search_timely_iff hcandidate hrun (by decide +kernel) (by decide)).mpr
  have hclock : (postedAt 1325376000).bestClock = 1325376015000000 := by decide +kernel
  rw [hclock, InTime, if_pos (by decide)]
  decide

theorem search_untimely_2017 : ¬ ∀ (E : Externals) (clock : Clock) (n n' : Node) (b : Block)
    (mHashrate : UInt64) (fuel : ℕ) (mStopGen : ℕ → Bool) (target : Hashcode)
    (p : Posted) (now : ℕ),
    Monotone clock → (∀ i, clock i / 1000000 < 2 ^ 32) →
      createGenBlock E clock n = .ok b n' →
    search E b mHashrate fuel mStopGen clock.tail.tail target = some p → p.lastClock ≤ now →
    now / 1000000 < 2 ^ 32 → Timely b p.best now := by
  intro h
  have hfit : ∀ i, startedAt 1500000000 i / 1000000 < 2 ^ 32 := by
    intro i
    unfold startedAt
    split <;> decide
  have htimely := h (Wire.externals fun _ => 0) (startedAt 1500000000) {} _
    (candidateAt 1500000000) 1000 1 (fun _ => false) 1 (postedAt 1500000000) 1500000015000000
    (monotone_startedAt _) hfit (Lib.eq_ok_of_returned (by decide +kernel)) (by decide +kernel)
    (by decide +kernel) (by decide)
  have hfar : ¬ (postedAt 1500000000).best.utcTime.toNat ≤ 1500000015000000 / 1000000 + 30 := by
    decide +kernel
  exact hfar htimely.ahead

end Node

end Gpm
