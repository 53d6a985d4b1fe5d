import Lpad.Enclave.Host

/-!
# The work of `lpad_verify`

`lpad_verify` is meant to hash once for each level of each proof, `pf[i]` times for the
`i`-th. Its inner loop tests `i<pf[i]` where it should test `j<pf[i]`. A round of the
inner loop changes neither side, so the call does not return if the test ever holds, and
otherwise it hashes nothing. What the host passes in decides which: heights of Merkle
trees, which are positive.
-/

namespace Lpad

/-- The two nested loops of `lpad_verify`, one test of the inner loop after the other, on
the first `pf_index` words of `pf`. `calls` counts the calls of `sha1`; `none` when the
fuel is used up before the function returns. -/
def verifyRun (pf : List Int) : (fuel i j calls : Nat) → Option Nat
  | 0, _, _, _ => none
  | fuel + 1, i, j, calls =>
    match pf[i]? with
    | none => some calls
    | some p =>
      if (i : Int) < p then verifyRun pf fuel i (j + 1) (calls + 1)
      else verifyRun pf fuel (i + 1) 0 calls

/-- The call returns after `n` calls of `sha1`. -/
def VerifyReturns (pf : List Int) (n : Nat) : Prop := ∃ fuel, verifyRun pf fuel 0 0 0 = some n

/-- One hash for each level of each proof. -/
def proofLevels (pf : List Int) : Nat := (pf.map fun p => (max p 0).toNat).sum

/-- The test of the inner loop fails for every word. -/
def TestsFail (pf : List Int) : Prop := ∀ (k : Nat) (p : Int), pf[k]? = some p → p ≤ k

/-- A loop that returns has never entered the inner loop. -/
theorem verifyRun_eq_some {pf : List Int} {fuel i j calls n : Nat}
    (h : verifyRun pf fuel i j calls = some n) :
    n = calls ∧ ∀ (k : Nat) (p : Int), i ≤ k → pf[k]? = some p → p ≤ k := by
  induction fuel generalizing i j calls with
  | zero => cases h
  | succ fuel ih =>
    unfold verifyRun at h
    cases hp : pf[i]? with
    | none =>
      rw [hp] at h
      refine ⟨(Option.some.inj h).symm, ?_⟩
      intro k p hk hkp
      have hlen := List.getElem?_eq_none_iff.mp hp
      rw [List.getElem?_eq_none (by omega)] at hkp
      cases hkp
    | some p =>
      rw [hp] at h
      dsimp only at h
      split at h
      · -- the test is the same in the next round, so it fails there too
        rename_i hlt
        have hle := (ih h).2 i p (Nat.le_refl i) hp
        omega
      · rename_i hle
        obtain ⟨hn, hrest⟩ := ih h
        refine ⟨hn, ?_⟩
        intro k q hk hkq
        rcases Nat.lt_or_eq_of_le hk with hlt | rfl
        · exact hrest k q hlt hkq
        · rw [hp] at hkq
          obtain rfl := Option.some.inj hkq
          exact Int.not_lt.mp hle

/-- If every test fails, one round for each word is enough. -/
theorem verifyRun_of_testsFail {pf : List Int} (hfail : TestsFail pf) {fuel i : Nat}
    (j calls : Nat) (hfuel : pf.length - i < fuel) :
    verifyRun pf fuel i j calls = some calls := by
  induction fuel generalizing i j with
  | zero => cases hfuel
  | succ fuel ih =>
    unfold verifyRun
    cases hp : pf[i]? with
    | none => rfl
    | some p =>
      have hi : i < pf.length := (List.getElem?_eq_some_iff.mp hp).1
      dsimp only
      rw [if_neg (Int.not_lt.mpr (hfail i p hp))]
      apply ih
      omega

/-- **When the call returns**, and with how much work. -/
theorem verifyReturns_iff {pf : List Int} {n : Nat} :
    VerifyReturns pf n ↔ n = 0 ∧ TestsFail pf := by
  constructor
  · rintro ⟨fuel, h⟩
    obtain ⟨hn, hle⟩ := verifyRun_eq_some h
    exact ⟨hn, fun k p => hle k p (Nat.zero_le k)⟩
  · rintro ⟨rfl, hfail⟩
    exact ⟨pf.length + 1, verifyRun_of_testsFail hfail 0 0 (Nat.lt_succ_self _)⟩

/-- **The work is right exactly if there is none to do**: no word of the proof array is
positive. -/
theorem lpadVerify_work_iff (pf : List Int) :
    VerifyReturns pf (proofLevels pf) ↔ ∀ p ∈ pf, p ≤ 0 := by
  have hlevels : proofLevels pf = 0 ↔ ∀ p ∈ pf, p ≤ 0 := by
    rw [proofLevels, List.sum_eq_zero_iff_forall_eq_nat, List.forall_mem_map]
    exact forall₂_congr fun p _ => by omega
  rw [verifyReturns_iff, hlevels]
  constructor
  · exact fun h => h.1
  · intro h
    refine ⟨h, fun k p hk => ?_⟩
    have hle := h p (List.mem_of_getElem? hk)
    omega

/-- **One tree of height 1** asks for one hash, and the call does not return. -/
theorem lpadVerify_diverges : proofLevels [1] = 1 ∧ ¬ ∃ n, VerifyReturns [1] n := by
  refine ⟨rfl, ?_⟩
  rintro ⟨n, h⟩
  have hle := (verifyReturns_iff.mp h).2 0 1 rfl
  omega

end Lpad
