import Gpm.BlockChain.Verdict

namespace Gpm

section

variable (hashSha1 : Block → Hashcode) (b : Block) (target : Hashcode)

def Hits (start stop n : UInt64) : Prop :=
  start ≤ n ∧ n ≤ stop ∧ hashSha1 { b with nonce := n } < target

structure FindsFirst (start stop : UInt64) : Prop where
  ends : ¬ (target < hashSha1 (generate hashSha1 b target start stop).2 ∧
    (generate hashSha1 b target start stop).2.nonce < stop)
  found : (generate hashSha1 b target start stop).1 = true ↔
    ∃ n, Hits hashSha1 b target start stop n
  first : (generate hashSha1 b target start stop).1 = true →
    ∃ n, (generate hashSha1 b target start stop).2 = { b with nonce := n } ∧
      Hits hashSha1 b target start stop n ∧
      ∀ m, Hits hashSha1 b target start stop m → n ≤ m

def TiesLate (start stop : UInt64) : Prop :=
  ∀ m n, start ≤ m → m < n → n ≤ stop → hashSha1 { b with nonce := m } = target →
    hashSha1 { b with nonce := n } < target →
    ∃ k, start ≤ k ∧ k < m ∧ hashSha1 { b with nonce := k } < target

/-- Where the loop leaves the nonce when it starts from `n`. -/
structure Stops (stop n m : UInt64) : Prop where
  le : n ≤ m
  le_stop : m ≤ stop
  passed : ∀ k, n ≤ k → k < m → target < hashSha1 { b with nonce := k }
  ends : hashSha1 { b with nonce := m } ≤ target ∨ m = stop

end

variable {hashSha1 : Block → Hashcode} {b : Block} {target : Hashcode} {start stop : UInt64}

theorem generateLoop_stops {n : UInt64} {fuel : ℕ} (hle : n ≤ stop)
    (hfuel : (stop - n).toNat ≤ fuel) :
    ∃ m, generateLoop hashSha1 target stop fuel { b with nonce := n } = { b with nonce := m } ∧
      Stops hashSha1 b target stop n m := by
  induction fuel generalizing n with
  | zero =>
    have hn : n = stop := by
      rw [UInt64.toNat_sub_of_le _ _ hle] at hfuel
      rw [UInt64.le_iff_toNat_le] at hle
      exact UInt64.toNat_inj.mp (by omega)
    exact ⟨n, rfl, UInt64.le_refl n, hle, fun k hk hkn => absurd hk (UInt64.not_le.mpr hkn),
      Or.inr hn⟩
  | succ fuel ih =>
    unfold generateLoop
    split
    · rename_i hgo
      obtain ⟨hlt, hstop⟩ := hgo
      have hstop : n < stop := hstop
      rw [UInt64.lt_iff_toNat_lt] at hstop
      have hnext : (n + 1).toNat = n.toNat + 1 := by
        have hbound := stop.toNat_lt
        rw [UInt64.toNat_add]
        simp only [UInt64.reduceToNat]
        omega
      have hle' : n + 1 ≤ stop := by
        rw [UInt64.le_iff_toNat_le, hnext]
        omega
      obtain ⟨m, hm, hstops⟩ := ih hle' (by
        rw [UInt64.toNat_sub_of_le _ _ hle', hnext]
        rw [UInt64.toNat_sub_of_le _ _ hle] at hfuel
        omega)
      have hnm := hstops.le
      rw [UInt64.le_iff_toNat_le, hnext] at hnm
      refine ⟨m, hm, ?_, hstops.le_stop, fun k hk hkm => ?_, hstops.ends⟩
      · rw [UInt64.le_iff_toNat_le]
        omega
      · by_cases hkn : k = n
        · rw [hkn]
          exact hlt
        · apply hstops.passed k _ hkm
          rw [UInt64.le_iff_toNat_le] at hk ⊢
          have hne := mt UInt64.toNat_inj.mp hkn
          omega
    · rename_i hend
      refine ⟨n, rfl, UInt64.le_refl n, hle, fun k hk hkn => absurd hk (UInt64.not_le.mpr hkn),
        ?_⟩
      rw [not_and_or, Nat.not_lt, UInt64.not_lt] at hend
      exact hend.imp_right fun h => UInt64.le_antisymm hle h

theorem generate_stops (h : start ≤ stop) :
    ∃ m, generate hashSha1 b target start stop =
        (decide (hashSha1 { b with nonce := m } < target), { b with nonce := m }) ∧
      Stops hashSha1 b target stop start m := by
  obtain ⟨m, hm, hstops⟩ : ∃ m,
      generateLoop hashSha1 target stop (stop - start).toNat { b with nonce := start } =
        { b with nonce := m } ∧ Stops hashSha1 b target stop start m :=
    generateLoop_stops h (Nat.le_refl _)
  refine ⟨m, ?_, hstops⟩
  unfold generate
  rw [hm]

namespace Stops

variable {m n : UInt64}

theorem not_below (h : Stops hashSha1 b target stop start m)
    (hn : Hits hashSha1 b target start stop n) : m ≤ n := by
  apply UInt64.not_lt.mp
  intro hlt
  exact absurd hn.2.2 (Nat.not_lt.mpr (Nat.le_of_lt (h.passed n hn.1 hlt)))

theorem hits (h : Stops hashSha1 b target stop start m)
    (hm : hashSha1 { b with nonce := m } < target) : Hits hashSha1 b target start stop m :=
  ⟨h.le, h.le_stop, hm⟩

theorem tie (h : Stops hashSha1 b target stop start m) (hn : Hits hashSha1 b target start stop n)
    (hm : ¬ hashSha1 { b with nonce := m } < target) :
    m < n ∧ hashSha1 { b with nonce := m } = target := by
  have hne : m ≠ n := by
    rintro rfl
    exact hm hn.2.2
  have hlt : m < n := UInt64.lt_of_le_of_ne (h.not_below hn) hne
  refine ⟨hlt, Nat.le_antisymm (h.ends.resolve_right ?_) (Nat.not_lt.mp hm)⟩
  rintro rfl
  exact UInt64.not_le.mpr hlt hn.2.1

end Stops

/-- The loop stops at a hash which the test behind it does not count. -/
theorem findsFirst_iff (hashSha1 : Block → Hashcode) (b : Block) (target : Hashcode)
    {start stop : UInt64} (h : start ≤ stop) :
    FindsFirst hashSha1 b target start stop ↔ TiesLate hashSha1 b target start stop := by
  obtain ⟨r, hr, hstops⟩ : ∃ r, generate hashSha1 b target start stop =
        (decide (hashSha1 { b with nonce := r } < target), { b with nonce := r }) ∧
      Stops hashSha1 b target stop start r :=
    generate_stops h
  constructor
  · intro hfinds m n hm hmn hn htie hhit
    have hnhits : Hits hashSha1 b target start stop n :=
      ⟨UInt64.le_trans hm (UInt64.le_of_lt hmn), hn, hhit⟩
    have htrue := hfinds.found.mpr ⟨n, hnhits⟩
    rw [hr, decide_eq_true_iff] at htrue
    refine ⟨r, hstops.le, ?_, htrue⟩
    apply UInt64.not_le.mp
    intro hmr
    by_cases heq : m = r
    · rw [heq] at htie
      exact absurd htie (Nat.ne_of_lt htrue)
    · exact absurd htie (Nat.ne_of_gt (hstops.passed m hm (UInt64.lt_of_le_of_ne hmr heq)))
  · intro hties
    have hnone : ¬ hashSha1 { b with nonce := r } < target →
        ∀ n, ¬ Hits hashSha1 b target start stop n := by
      intro hmiss n hn
      obtain ⟨hlt, htie⟩ := hstops.tie hn hmiss
      obtain ⟨k, hk, hkr, hhit⟩ := hties r n hstops.le hlt hn.2.1 htie hn.2.2
      exact absurd hhit (Nat.not_lt.mpr (Nat.le_of_lt (hstops.passed k hk hkr)))
    refine ⟨?_, ?_, ?_⟩
    · rw [hr]
      rintro ⟨hlt, hstop⟩
      cases hstops.ends with
      | inl hle => exact absurd hlt (Nat.not_lt.mpr hle)
      | inr heq => exact UInt64.lt_irrefl _ (heq ▸ hstop)
    · rw [hr, decide_eq_true_iff]
      constructor
      · intro hlt
        exact ⟨r, hstops.hits hlt⟩
      · rintro ⟨n, hn⟩
        by_contra hmiss
        exact hnone hmiss n hn
    · rw [hr, decide_eq_true_iff]
      intro hlt
      exact ⟨r, rfl, hstops.hits hlt, fun m hm => hstops.not_below hm⟩

def tiedHash (b : Block) : Hashcode := if b.nonce = 0 then 5 else 1

theorem findsFirst_tiedHash :
    ¬ ∀ (hashSha1 : Block → Hashcode) (b : Block) (target : Hashcode) (start stop : UInt64),
      start ≤ stop → FindsFirst hashSha1 b target start stop := by
  intro h
  have hfound := (h tiedHash {} 5 0 1 (by decide)).found.mpr ⟨1, by decide,
      by decide, by decide⟩
  revert hfound
  decide

theorem findsFirst_iff_tiedHash :
    FindsFirst tiedHash {} 5 0 1 ↔ TiesLate tiedHash {} 5 0 1 :=
  findsFirst_iff tiedHash {} 5 (by decide)

end Gpm
