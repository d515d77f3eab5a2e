import Mathlib.Computability.Language

/-!
# ByteMatch.Proofs.Language

Languages of strings of characters.

* `classLanguage`: single characters of a class.
* `repeated`: strings that consist of several strings of a language, with bounds for their number.
* `mem_repeated_of_length_le`: bounds that are larger than the string make no difference.
-/

namespace ByteMatch

variable {α : Type}

/-- The strings of one character of a class. -/
def classLanguage (cls : Int → α → Bool) (root : Int) : Language α :=
  {w | ∃ x, cls root x = true ∧ w = [x]}

/-- At least `min` and at most `max` strings of a language, one after the other. -/
def repeated (L : Language α) (min max : Nat) : Language α :=
  {w | ∃ k, min ≤ k ∧ k ≤ max ∧ w ∈ L ^ k}

variable {L : Language α} {w : List α} {n m : Nat}

theorem mem_repeated : w ∈ repeated L n m ↔ ∃ k, n ≤ k ∧ k ≤ m ∧ w ∈ L ^ k := Iff.rfl

@[simp] theorem repeated_zero : repeated L 0 0 = 1 := by
  refine Language.ext fun w => ?_
  rw [mem_repeated]
  constructor
  · rintro ⟨k, -, hk, hw⟩
    obtain rfl : k = 0 := by omega
    rwa [pow_zero] at hw
  · exact fun hw => ⟨0, Nat.le_refl _, Nat.le_refl _, by rwa [pow_zero]⟩

/-- Nothing, or one string and then the others. -/
theorem repeated_succ : repeated L 0 (n + 1) = 1 + L * repeated L 0 n := by
  refine Language.ext fun w => ?_
  rw [Language.mem_add, Language.mem_mul, mem_repeated]
  constructor
  · rintro ⟨k, -, hk, hw⟩
    cases k with
    | zero => exact .inl (by rwa [pow_zero] at hw)
    | succ k =>
      rw [pow_succ', Language.mem_mul] at hw
      obtain ⟨u, hu, v, hv, rfl⟩ := hw
      exact .inr ⟨u, hu, v, ⟨k, Nat.zero_le _, by omega, hv⟩, rfl⟩
  · rintro (hw | ⟨u, hu, v, ⟨k, -, hk, hv⟩, rfl⟩)
    · exact ⟨0, Nat.le_refl _, Nat.zero_le _, by rwa [pow_zero]⟩
    · refine ⟨k + 1, Nat.zero_le _, by omega, ?_⟩
      rw [pow_succ', Language.mem_mul]
      exact ⟨u, hu, v, hv, rfl⟩

theorem repeated_add : repeated L n (n + m) = L ^ n * repeated L 0 m := by
  refine Language.ext fun w => ?_
  rw [Language.mem_mul, mem_repeated]
  constructor
  · rintro ⟨k, hn, hk, hw⟩
    obtain ⟨j, rfl⟩ : ∃ j, k = n + j := ⟨k - n, by omega⟩
    rw [pow_add, Language.mem_mul] at hw
    obtain ⟨u, hu, v, hv, rfl⟩ := hw
    exact ⟨u, hu, v, ⟨j, Nat.zero_le _, by omega, hv⟩, rfl⟩
  · rintro ⟨u, hu, v, ⟨j, -, hj, hv⟩, rfl⟩
    refine ⟨n + j, Nat.le_add_right _ _, by omega, ?_⟩
    rw [pow_add, Language.mem_mul]
    exact ⟨u, hu, v, hv, rfl⟩

/-- One of several strings that are more than their characters is empty, and can be left out. -/
theorem mem_pow_of_length_le (hw : w ∈ L ^ (n + 1)) (hlen : w.length ≤ n) : w ∈ L ^ n := by
  induction n generalizing w with
  | zero =>
    rw [List.length_eq_zero_iff.1 (Nat.le_zero.1 hlen), pow_zero]
    exact Language.nil_mem_one
  | succ n ih =>
    rw [pow_succ', Language.mem_mul] at hw
    obtain ⟨u, hu, v, hv, rfl⟩ := hw
    rw [List.length_append] at hlen
    by_cases hempty : u = []
    · rwa [hempty, List.nil_append]
    · have hpos := List.length_pos_iff.2 hempty
      rw [pow_succ', Language.mem_mul]
      exact ⟨u, hu, v, ih hv (by omega), rfl⟩

/-- An upper bound makes no difference for strings that are not longer than what it leaves open. -/
theorem mem_repeated_of_length_le (hlen : w.length ≤ m) :
    w ∈ repeated L n (n + m) ↔ ∃ k, n ≤ k ∧ w ∈ L ^ k := by
  constructor
  · rintro ⟨k, hk, -, hw⟩
    exact ⟨k, hk, hw⟩
  · rintro ⟨k, hk, hw⟩
    obtain ⟨j, rfl⟩ : ∃ j, k = n + j := ⟨k - n, by omega⟩
    induction j with
    | zero => exact ⟨n, Nat.le_refl _, by omega, hw⟩
    | succ j ih =>
      by_cases hle : n + (j + 1) ≤ n + m
      · exact ⟨n + (j + 1), hk, hle, hw⟩
      · exact ih (by omega) (mem_pow_of_length_le hw (by omega))

end ByteMatch
