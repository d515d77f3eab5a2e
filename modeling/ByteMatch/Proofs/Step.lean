import Mathlib.Logic.Basic

/-!
# ByteMatch.Proofs.Step

Steps that change a state and may fail, taken apart where they succeed, and what they may fail with.

* `Step.bind_ok`: one step after the other.
* `Step.pure_ok`, `Step.get_ok`, `Step.modify_ok`, `Step.throw_ok`: the single steps.
* `Step.bind_of_ok`, `Step.bind_of_error`: what follows a step whose result is known.
* `Step.bind_get`, `Step.bind_modify`, `Step.bind_throw`: what follows the single steps.
* `Step.except_bind_ok`: one result after the other, without a state.
* `Step.Restricts`: a step does what another one does, or it fails.
* `Step.Meets`: a step keeps an invariant, and it fails in some ways only.
* `Step.decidableEqResult`: results can be compared, so a run on a given state is decided.
-/

namespace ByteMatch
namespace Step

variable {ε τ β γ : Type} {s s' : τ}

instance decidableEqResult [DecidableEq ε] [DecidableEq τ] [DecidableEq β] : DecidableEq (EStateM.Result ε τ β)
  | .ok b s, .ok b' s' => decidable_of_iff (b = b' ∧ s = s') (by simp)
  | .error e s, .error e' s' => decidable_of_iff (e = e' ∧ s = s') (by simp)
  | .ok _ _, .error _ _ => isFalse (by simp)
  | .error _ _, .ok _ _ => isFalse (by simp)

theorem bind_ok {x : EStateM ε τ β} {f : β → EStateM ε τ γ} {b : γ} :
    (x >>= f) s = .ok b s' ↔ ∃ a s₁, x s = .ok a s₁ ∧ f a s₁ = .ok b s' := by
  change EStateM.bind x f s = .ok b s' ↔ _
  rw [EStateM.bind]
  cases x s with
  | ok a s₁ =>
    constructor
    · exact fun h => ⟨a, s₁, rfl, h⟩
    · rintro ⟨_, _, heq, h⟩
      cases heq
      exact h
  | error e s₁ => simp

theorem bind_of_ok {x : EStateM ε τ β} {f : β → EStateM ε τ γ} {a : β} (h : x s = .ok a s') :
    (x >>= f) s = f a s' := by
  change EStateM.bind x f s = _
  rw [EStateM.bind, h]

theorem bind_of_error {x : EStateM ε τ β} {f : β → EStateM ε τ γ} {e : ε} (h : x s = .error e s') :
    (x >>= f) s = .error e s' := by
  change EStateM.bind x f s = _
  rw [EStateM.bind, h]

theorem bind_get {f : τ → EStateM ε τ γ} : ((get : EStateM ε τ τ) >>= f) s = f s s := rfl

theorem bind_modify {g : τ → τ} {f : PUnit → EStateM ε τ γ} :
    ((modify g : EStateM ε τ PUnit) >>= f) s = f ⟨⟩ (g s) := rfl

theorem bind_throw {e : ε} {f : β → EStateM ε τ γ} :
    ((throw e : EStateM ε τ β) >>= f) s = .error e s := rfl

theorem map_ok {x : EStateM ε τ β} {f : β → γ} {b : γ} :
    (f <$> x) s = .ok b s' ↔ ∃ a, x s = .ok a s' ∧ f a = b := by
  change EStateM.map f x s = .ok b s' ↔ _
  rw [EStateM.map]
  cases x s with
  | ok a s₁ =>
    simp only [EStateM.Result.ok.injEq]
    constructor
    · rintro ⟨rfl, rfl⟩
      exact ⟨a, ⟨rfl, rfl⟩, rfl⟩
    · rintro ⟨_, ⟨rfl, rfl⟩, rfl⟩
      exact ⟨rfl, rfl⟩
  | error e s₁ => simp

theorem pure_ok {a b : β} : (pure a : EStateM ε τ β) s = .ok b s' ↔ a = b ∧ s = s' := by
  change EStateM.Result.ok a s = .ok b s' ↔ _
  rw [EStateM.Result.ok.injEq]

theorem get_ok {t : τ} : (get : EStateM ε τ τ) s = .ok t s' ↔ s = t ∧ s = s' := by
  change EStateM.Result.ok s s = .ok t s' ↔ _
  rw [EStateM.Result.ok.injEq]

theorem modify_ok {f : τ → τ} {u : Unit} :
    (modify f : EStateM ε τ Unit) s = .ok u s' ↔ f s = s' := by
  change EStateM.Result.ok () (f s) = .ok u s' ↔ _
  rw [EStateM.Result.ok.injEq]
  exact and_iff_right rfl

theorem throw_ok {e : ε} {b : β} : (throw e : EStateM ε τ β) s = .ok b s' ↔ False := by
  change EStateM.Result.error e s = .ok b s' ↔ _
  simp

theorem except_bind_ok {x : Except ε β} {f : β → Except ε γ} {c : γ} :
    (x >>= f) = .ok c ↔ ∃ b, x = .ok b ∧ f b = .ok c := by
  change Except.bind x f = .ok c ↔ _
  cases x with
  | ok b => simp [Except.bind]
  | error e => simp [Except.bind]

/-! ## Steps that fail less often -/

/-- The first step does what the second one does, or it fails. -/
def Restricts (x y : EStateM ε τ β) : Prop := ∀ s b s', x s = .ok b s' → y s = .ok b s'

namespace Restricts

variable {x y : EStateM ε τ β} {f g : β → EStateM ε τ γ}

theorem refl (x : EStateM ε τ β) : Restricts x x := fun _ _ _ h => h

theorem bind (h : Restricts x y) (hf : ∀ b, Restricts (f b) (g b)) : Restricts (x >>= f) (y >>= g) := by
  intro s c s' hok
  obtain ⟨b, s₁, hx, hrest⟩ := bind_ok.1 hok
  exact bind_ok.2 ⟨b, s₁, h _ _ _ hx, hf b _ _ _ hrest⟩

theorem bind_right (hf : ∀ b, Restricts (f b) (g b)) : Restricts (x >>= f) (x >>= g) := (refl x).bind hf

theorem bind_left (h : Restricts x y) : Restricts (x >>= f) (y >>= f) := h.bind fun b => refl (f b)

theorem ite {c : Prop} [Decidable c] {x' y' : EStateM ε τ β} (h : Restricts x y) (h' : Restricts x' y') :
    Restricts (if c then x else x') (if c then y else y') := by
  split
  · exact h
  · exact h'

/-- A check, and another one that is passed more often. -/
theorem check {c c' : Prop} [Decidable c] [Decidable c'] {e e' : ε} {k k' : γ → EStateM ε τ β}
    (hc : c' → c) (h : Restricts x y) :
    Restricts (if c then throw e >>= k else x) (if c' then throw e' >>= k' else y) := by
  intro s b s' hok
  by_cases hfail : c
  · rw [if_pos hfail, bind_throw] at hok
    cases hok
  · rw [if_neg hfail] at hok
    rw [if_neg (mt hc hfail)]
    exact h _ _ _ hok

end Restricts

/-! ## Steps that fail in some ways only -/

/-- From a state with the invariant, the step keeps it and answers what satisfies `post`, or it fails in a
way that `fault` allows. -/
structure Meets (inv : τ → Prop) (fault : ε → Prop) (post : β → Prop) (x : EStateM ε τ β) : Prop where
  run : ∀ s, inv s → match x s with
    | .ok b s' => inv s' ∧ post b
    | .error e _ => fault e

namespace Meets

variable {inv : τ → Prop} {fault : ε → Prop} {post post' : β → Prop} {post₂ : γ → Prop}
  {x : EStateM ε τ β} {f : β → EStateM ε τ γ}

theorem ok {b : β} (h : Meets inv fault post x) (hs : inv s) (hok : x s = .ok b s') : inv s' ∧ post b := by
  have hrun := h.run s hs
  rwa [hok] at hrun

theorem error {e : ε} (h : Meets inv fault post x) (hs : inv s) (herror : x s = .error e s') :
    fault e := by
  have hrun := h.run s hs
  rwa [herror] at hrun

theorem pure {b : β} (h : post b) : Meets inv fault post (Pure.pure b) := ⟨fun _ hs => ⟨hs, h⟩⟩

theorem throw {e : ε} (h : fault e) : Meets inv fault post (MonadExcept.throw e) := ⟨fun _ _ => h⟩

theorem bind (hx : Meets inv fault post x) (hf : ∀ b, post b → Meets inv fault post₂ (f b)) :
    Meets inv fault post₂ (x >>= f) := by
  refine ⟨fun s hs => ?_⟩
  cases hstep : x s with
  | ok b s₁ =>
    obtain ⟨hs₁, hb⟩ := hx.ok hs hstep
    rw [bind_of_ok hstep]
    exact (hf b hb).run s₁ hs₁
  | error e s₁ =>
    rw [bind_of_error hstep]
    exact hx.error hs hstep

theorem mono (h : Meets inv fault post x) (himp : ∀ b, post b → post' b) : Meets inv fault post' x := by
  refine ⟨fun s hs => ?_⟩
  cases hstep : x s with
  | ok b s₁ =>
    obtain ⟨hs₁, hb⟩ := h.ok hs hstep
    exact ⟨hs₁, himp b hb⟩
  | error e s₁ => exact h.error hs hstep

theorem map {g : β → γ} (h : Meets inv fault post x) (himp : ∀ b, post b → post₂ (g b)) :
    Meets inv fault post₂ (g <$> x) := by
  rw [map_eq_pure_bind]
  exact h.bind fun b hb => .pure (himp b hb)

/-- A step that looks at the state. -/
theorem of_get {f : τ → EStateM ε τ β} (h : ∀ t, inv t → Meets inv fault post (f t)) :
    Meets inv fault post (get >>= f) := ⟨fun s hs => (h s hs).run s hs⟩

theorem modify {g : τ → τ} (h : ∀ t, inv t → inv (g t)) :
    Meets inv fault (fun _ => True) (modify g : EStateM ε τ PUnit) := ⟨fun s hs => ⟨h s hs, trivial⟩⟩

/-- A step after a check. -/
theorem check {c : Prop} [Decidable c] {e : ε} {k : PUnit → EStateM ε τ β} (he : fault e)
    (hx : Meets inv fault post x) : Meets inv fault post (if c then MonadExcept.throw e >>= k else x) := by
  split
  · exact ⟨fun _ _ => he⟩
  · exact hx

end Meets

end Step
end ByteMatch
