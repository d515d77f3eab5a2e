/-!
# ByteMatch.Loop

Loops: a step that is repeated until it says that it was the last one.

* `Loop.run`: the loop with a bound on the number of its steps.
* `Loop.Ends`: the loop without a bound comes to an end, with the given result. `Loop.EndsWith` also
  says something of the states on the way.
* `Loop.ends_run`: a loop with an invariant and a variant ends, and its bound is not reached. What is to be
  shown of each step is `Loop.Advances`.
* `Loop.run_spec`, `Loop.run_map`: what each step keeps is kept by the bounded loop, and loops whose steps
  correspond have corresponding results.
* `Loop.foldl_spec`, `Loop.foldlM_spec`: the rule for a loop over the elements of a list, which may fail.
  `Loop.foldlM_ok_iff` tells when a loop does not fail whose steps check their elements. `Loop.Along` says
  something of each element and the state that it is met in.
-/

namespace ByteMatch
namespace Loop

variable {σ : Type}

/-- Repeats a step until it is done, at most `n` times. -/
def run (step : σ → ForInStep σ) : Nat → σ → σ
  | 0, s => s
  | n + 1, s =>
    match step s with
    | .done r => r
    | .yield t => run step n t

/-- Without a bound on their number, the steps from `s` end with the result `r`, and `ok` holds of
every state that a step is made from. -/
inductive EndsWith (ok : σ → Prop) (step : σ → ForInStep σ) : σ → σ → Prop where
  | done {s r : σ} : ok s → step s = .done r → EndsWith ok step s r
  | yield {s t r : σ} : ok s → step s = .yield t → EndsWith ok step t r → EndsWith ok step s r

/-- Without a bound on their number, the steps from `s` end with the result `r`. -/
def Ends (step : σ → ForInStep σ) : σ → σ → Prop := EndsWith (fun _ => True) step

/-- The step from `s` ends the loop with `Post`, or it keeps the invariant and lowers the variant `n`. -/
def Advances (step : σ → ForInStep σ) (Inv : Nat → σ → Prop) (Post : σ → Prop) (n : Nat) (s : σ) : Prop :=
  (∃ r, step s = .done r ∧ Post r) ∨ ∃ m t, m < n ∧ step s = .yield t ∧ Inv m t

/-- The rule for loops. `Inv n s` says that the invariant holds in `s`, and that `n` more steps are
enough. -/
theorem endsWith_run {ok : σ → Prop} {step : σ → ForInStep σ} {Inv : Nat → σ → Prop}
    {Post : σ → Prop}
    (hstep : ∀ n s, Inv n s → ok s ∧ Advances step Inv Post n s) :
    ∀ {n s}, Inv n s → ∀ {k}, n < k → EndsWith ok step s (run step k s) ∧ Post (run step k s) := by
  intro n
  induction n using Nat.strongRecOn with
  | ind n ih =>
    intro s h k hk
    obtain ⟨k, rfl⟩ : ∃ j, k = j + 1 := ⟨k - 1, by omega⟩
    obtain ⟨hok, ⟨r, hr, hpost⟩ | ⟨m, t, hm, ht, hinv⟩⟩ := hstep n s h
    · simp only [run, hr]
      exact ⟨.done hok hr, hpost⟩
    · obtain ⟨hends, hpost⟩ := ih m hm hinv (k := k) (by omega)
      simp only [run, ht]
      exact ⟨.yield hok ht hends, hpost⟩

theorem ends_run {step : σ → ForInStep σ} {Inv : Nat → σ → Prop} {Post : σ → Prop}
    (hstep : ∀ n s, Inv n s → Advances step Inv Post n s) {n : Nat} {s : σ} (h : Inv n s) {k : Nat}
    (hk : n < k) :
    Ends step s (run step k s) ∧ Post (run step k s) :=
  endsWith_run (fun n s h => ⟨trivial, hstep n s h⟩) h hk

/-- A loop over a list of what is left to do ends with the empty list. -/
theorem EndsWith.of_fst_nil {α τ : Type} {ok : List α × τ → Prop} {step : List α × τ → ForInStep (List α × τ)}
    {s r : List α × τ} (h : EndsWith ok step s r) (hr : r.1 = []) : EndsWith ok step s ([], r.2) := by
  have heq : r = ([], r.2) := Prod.ext hr rfl
  rwa [heq] at h

/-- An invariant of the steps holds at the end, whether the bound has been reached or not. -/
theorem run_spec {step : σ → ForInStep σ} (Inv : σ → Prop) (hdone : ∀ s r, Inv s → step s = .done r → Inv r)
    (hyield : ∀ s t, Inv s → step s = .yield t → Inv t) {s : σ} (h : Inv s) (n : Nat) :
    Inv (run step n s) := by
  induction n generalizing s with
  | zero => exact h
  | succ n ih =>
    rw [run]
    cases hs : step s with
    | done r => exact hdone s r h hs
    | yield t => exact ih (hyield s t h hs)

/-- What a step of one loop is in another one, whose states are images under `f`. -/
def mapStep {τ : Type} (f : σ → τ) : ForInStep σ → ForInStep τ
  | .done r => .done (f r)
  | .yield t => .yield (f t)

theorem mapStep_eq_done {τ : Type} {f : σ → τ} {s : ForInStep σ} {r : τ} :
    mapStep f s = .done r ↔ ∃ r', s = .done r' ∧ f r' = r := by
  cases s with
  | done r' => simp [mapStep]
  | yield t => simp [mapStep]

theorem mapStep_eq_yield {τ : Type} {f : σ → τ} {s : ForInStep σ} {t : τ} :
    mapStep f s = .yield t ↔ ∃ t', s = .yield t' ∧ f t' = t := by
  cases s with
  | done r => simp [mapStep]
  | yield t' => simp [mapStep]

/-- Loops whose steps correspond under a map have corresponding results. -/
theorem run_map {τ : Type} {f : σ → τ} {step : σ → ForInStep σ} {step' : τ → ForInStep τ}
    (h : ∀ s, step' (f s) = mapStep f (step s)) (n : Nat) (s : σ) :
    run step' n (f s) = f (run step n s) := by
  induction n generalizing s with
  | zero => rfl
  | succ n ih =>
    rw [run, run, h]
    cases step s with
    | done r => rfl
    | yield t => exact ih t

/-- A loop has one result. -/
theorem Ends.unique {step : σ → ForInStep σ} {s r r' : σ} (h : Ends step s r) (h' : Ends step s r') :
    r = r' := by
  induction h with
  | done _ hr =>
    cases h' with
    | done _ hr' =>
      rw [hr] at hr'
      exact ForInStep.done.inj hr'
    | yield _ ht' _ =>
      rw [hr] at ht'
      cases ht'
  | yield _ ht _ ih =>
    cases h' with
    | done _ hr' =>
      rw [ht] at hr'
      cases hr'
    | yield _ ht' hrest =>
      rw [ht] at ht'
      cases ht'
      exact ih hrest

/-- Two loops whose steps correspond end with corresponding results. -/
theorem Ends.simulation {σ' : Type} {step : σ → ForInStep σ} {step' : σ' → ForInStep σ'}
    {S : σ → σ' → Prop}
    (hstep : ∀ s s', S s s' → (∃ r r', step s = .done r ∧ step' s' = .done r' ∧ S r r') ∨
      ∃ t t', step s = .yield t ∧ step' s' = .yield t' ∧ S t t')
    {s r : σ} {s' : σ'} (h : Ends step s r) (hS : S s s') : ∃ r', Ends step' s' r' ∧ S r r' := by
  induction h generalizing s' with
  | done _ hr =>
    rcases hstep _ _ hS with ⟨r₂, r', hr₂, hr', hS'⟩ | ⟨t, t', ht, -, -⟩
    · rw [hr] at hr₂
      cases hr₂
      exact ⟨r', .done trivial hr', hS'⟩
    · rw [hr] at ht
      cases ht
  | yield _ ht _ ih =>
    rcases hstep _ _ hS with ⟨r₂, r', hr₂, -, -⟩ | ⟨t, t', ht₂, ht', hS'⟩
    · rw [ht] at hr₂
      cases hr₂
    · rw [ht] at ht₂
      cases ht₂
      obtain ⟨r', hends, hr⟩ := ih hS'
      exact ⟨r', .yield trivial ht' hends, hr⟩

/-! ## Loops over lists -/

variable {α : Type} {ok : σ → α → Prop} {f : σ → α → σ}

/-- `ok` holds of each element and the state of the fold when the element is met. -/
def Along (ok : σ → α → Prop) (f : σ → α → σ) : σ → List α → Prop
  | _, [] => True
  | s, x :: xs => ok s x ∧ Along ok f (f s x) xs

/-- The rule for folds. `Inv s xs` says that the invariant holds in `s` while `xs` is left. -/
theorem along_foldl (Inv : σ → List α → Prop)
    (hstep : ∀ s x xs, Inv s (x :: xs) → ok s x ∧ Inv (f s x) xs) {s : σ} {xs : List α}
    (h : Inv s xs) : Along ok f s xs ∧ Inv (xs.foldl f s) [] := by
  induction xs generalizing s with
  | nil => exact ⟨trivial, h⟩
  | cons x xs ih =>
    obtain ⟨hok, hinv⟩ := hstep s x xs h
    obtain ⟨halong, hend⟩ := ih hinv
    exact ⟨⟨hok, halong⟩, hend⟩

theorem foldl_spec (Inv : σ → List α → Prop) (hstep : ∀ s x xs, Inv s (x :: xs) → Inv (f s x) xs)
    {s : σ} {xs : List α} (h : Inv s xs) : Inv (xs.foldl f s) [] :=
  have h' : Along (fun _ _ => True) f s xs ∧ Inv (xs.foldl f s) [] :=
    along_foldl Inv (fun s x xs h => ⟨trivial, hstep s x xs h⟩) h
  h'.2

/-- The rule for folds that may fail. -/
theorem foldlM_spec {ε : Type} {g : σ → α → Except ε σ} (Inv : σ → Prop)
    (hstep : ∀ s x t, Inv s → g s x = .ok t → Inv t) {xs : List α} {s r : σ} (h : Inv s)
    (hr : xs.foldlM g s = .ok r) : Inv r := by
  induction xs generalizing s with
  | nil => exact Except.ok.inj hr ▸ h
  | cons x xs ih =>
    rw [List.foldlM_cons] at hr
    cases hx : g s x with
    | error e =>
      rw [hx] at hr
      cases hr
    | ok t =>
      rw [hx] at hr
      exact ih (hstep s x t h hx) hr

/-- A fold whose steps check their elements succeeds if and only if all elements pass. -/
theorem foldlM_ok_iff {ε : Type} {g : σ → α → Except ε σ} {passes : α → Prop} (Inv : σ → Prop)
    (hg : ∀ s x t, Inv s → (g s x = .ok t ↔ passes x ∧ t = f s x))
    (hstep : ∀ s x, Inv s → passes x → Inv (f s x)) {xs : List α} {s r : σ} (h : Inv s) :
    xs.foldlM g s = .ok r ↔ (∀ x ∈ xs, passes x) ∧ r = xs.foldl f s := by
  induction xs generalizing s with
  | nil => exact ⟨fun hr => ⟨by simp, (Except.ok.inj hr).symm⟩, fun hr => congrArg Except.ok hr.2.symm⟩
  | cons x xs ih =>
    rw [List.foldlM_cons, List.forall_mem_cons, List.foldl_cons]
    cases hx : g s x with
    | error e =>
      refine ⟨fun hr => (nomatch hr), fun hr => ?_⟩
      have hok := (hg s x _ h).2 ⟨hr.1.1, rfl⟩
      rw [hx] at hok
      cases hok
    | ok t =>
      obtain ⟨hpasses, rfl⟩ := (hg s x t h).1 hx
      rw [and_iff_right hpasses]
      exact ih (hstep s x h hpasses)

end Loop
end ByteMatch
