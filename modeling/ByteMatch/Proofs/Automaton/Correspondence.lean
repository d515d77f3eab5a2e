import ByteMatch.Proofs.Automaton.Split

/-!
# ByteMatch.Proofs.Automaton.Correspondence

Which states of two trees correspond, while the trees are made comparable and afterwards.

* `Automaton.Correspondence`: corresponding states are reached over the same labels, and a state
  has at most one partner. The notion is symmetric (`Correspondence.swap`), so what is proved of
  the left tree holds of the right one.
* `Automaton.Settled`: the labels that leave two states are equal, with corresponding destinations,
  or disjoint.
* `Automaton.Correspondence.split`, `Automaton.Correspondence.add`: what the walk through both trees
  does to the correspondence.
-/

namespace ByteMatch
namespace Automaton

/-- Corresponding states of two trees. -/
structure Correspondence (left right : Automaton) (R : Nat → Nat → Prop) : Prop where
  root : R 0 0
  right_unique : ∀ l r r', R l r → R l r' → r = r'
  left_unique : ∀ l l' r, R l r → R l' r → l = l'
  reached : ∀ l r, R l r → left.Reaches 0 l ∧ right.Reaches 0 r
  parent : ∀ l r, R l r → (l = 0 ∧ r = 0) ∨
    ∃ p p' c, left.Edge p c l ∧ right.Edge p' c r ∧ R p p'

/-- A label is equal to a label of the right state `r`, with corresponding destinations, or
disjoint from it, whichever label that is. -/
def SettledLabel (right : Automaton) (R : Nat → Nat → Prop) (r : Nat) (c : ByteSet) (next : Nat) :
    Prop :=
  ∀ c' next', right.Edge r c' next' → (c = c' ∧ R next next') ∨ ∀ x, x ∈ c → x ∉ c'

/-- All labels of two states are settled. -/
def Settled (left right : Automaton) (R : Nat → Nat → Prop) (l r : Nat) : Prop :=
  ∀ c next, left.Edge l c next → SettledLabel right R r c next

variable {left right left' right' : Automaton} {R R' : Nat → Nat → Prop}
  {l r p p' q dest : Nat} {c code common : ByteSet}

theorem SettledLabel.mono {next : Nat} (h : SettledLabel right R r c next)
    (hR : ∀ l r, R l r → R' l r) : SettledLabel right R' r c next := fun c' next' he =>
  (h c' next' he).imp_left fun ⟨hc, hn⟩ => ⟨hc, hR _ _ hn⟩

theorem Settled.mono (h : Settled left right R l r) (hR : ∀ l r, R l r → R' l r) :
    Settled left right R' l r := fun c next he => (h c next he).mono hR

theorem Settled.swap (h : Settled left right R l r) : Settled right left (fun r l => R l r) r l := by
  intro c next he c' next' he'
  rcases h c' next' he' c next he with ⟨hc, hn⟩ | hdisj
  · exact .inl ⟨hc.symm, hn⟩
  · exact .inr fun x hx hx' => hdisj x hx' hx

theorem Settled.congr (h : Settled left right R l r) (hl : left'.state l = left.state l)
    (hr : right'.state r = right.state r) : Settled left' right' R l r := by
  intro c next he c' next' he'
  rw [Edge, hl] at he
  rw [Edge, hr] at he'
  exact h c next he c' next' he'

namespace Correspondence

theorem swap (h : Correspondence left right R) : Correspondence right left (fun r l => R l r) where
  root := h.root
  right_unique r l l' hR hR' := h.left_unique l l' r hR hR'
  left_unique r r' l hR hR' := h.right_unique l r r' hR hR'
  reached r l hR := (h.reached l r hR).symm
  parent r l hR := (h.parent l r hR).imp And.symm fun ⟨p, p', c, he, he', hR'⟩ =>
    ⟨p', p, c, he', he, hR'⟩

theorem parent_of_edge (h : Correspondence left right R) (hf : left.Forest [0]) (hR : R l r)
    (he : left.Edge p c l) : ∃ p', right.Edge p' c r ∧ R p p' := by
  rcases h.parent l r hR with ⟨rfl, -⟩ | ⟨p₀, p', c₀, he₀, he', hR'⟩
  · exact absurd ⟨c, he⟩ (hf.root_orphan 0 (by simp) p)
  · obtain ⟨rfl, rfl⟩ := hf.parent_unique _ _ _ _ _ he he₀
    exact ⟨p', he', hR'⟩

/-- Below a state without partner, no state has a partner. -/
theorem not_below (h : Correspondence left right R) (hf : left.Forest [0])
    (hdest : ∀ r, ¬ R dest r) (hR : R l r) : ¬ left.Reaches dest l := by
  intro hpath
  induction hpath generalizing r with
  | refl => exact hdest r hR
  | tail _ hchild ih =>
    obtain ⟨c, he⟩ := hchild
    obtain ⟨p', -, hR'⟩ := h.parent_of_edge hf hR he
    exact ih hR'

/-- Where the labels of corresponding states differ, the destination on the left has no
partner. -/
theorem unpaired_of_edge (h : Correspondence left right R) (hf : left.Forest [0]) (hR : R l r)
    (he : left.Edge l c dest) (hc : ∀ next, ¬ right.Edge r c next) : ∀ r', ¬ R dest r' := by
  intro r' hR'
  obtain ⟨p', he', hp'⟩ := h.parent_of_edge hf hR' he
  obtain rfl := h.right_unique _ _ _ hR hp'
  exact hc r' he'

section Split

variable (h : Correspondence left right R) (hf : left.Forest [0])
  (hedge : left.Edge q code dest) (hdest : ∀ r, ¬ R dest r)
  (hs : Split left q code common dest left')
include h hf hdest hs

/-- Splitting a transition to a state without partner changes no state that has one, but for the
state that the transition leaves. -/
theorem state_split (hR : R l r) (hne : l ≠ q) : left'.state l = left.state l :=
  hs.kept l ((h.reached l r hR).1.lt hf.target_lt (hf.root_lt 0 (by simp))) hne
    fun _ => h.not_below hf hdest hR

include hedge in
theorem split : Correspondence left' right R where
  root := h.root
  right_unique := h.right_unique
  left_unique := h.left_unique
  reached l r hR :=
    ⟨hs.reached l (h.reached l r hR).1 fun _ => h.not_below hf hdest hR, (h.reached l r hR).2⟩
  parent l r hR := by
    rcases h.parent l r hR with heq | ⟨p, p', c, he, he', hR'⟩
    · exact .inl heq
    · refine .inr ⟨p, p', c, ?_, he', hR'⟩
      by_cases hp : p = q
      · subst hp
        refine (hs.edge_here c l).2 ?_
        by_cases hc : c = code
        · subst hc
          -- the label that is split leads to a state without partner
          exact absurd hR (Transitions.dest_unique he hedge ▸ hdest r)
        · exact .inr (.inr ⟨he, hc⟩)
      · rwa [Edge, h.state_split hf hdest hs hR' hp]

end Split

/-- Two states that are reached from corresponding states over the same label are taken as
corresponding. -/
theorem add (h : Correspondence left right R) (hl : left.Forest [0]) (hr : right.Forest [0])
    (hR : R p p') (he : left.Edge p c l) (he' : right.Edge p' c r) :
    Correspondence left right fun x y => R x y ∨ (x = l ∧ y = r) := by
  have hright : ∀ y, R l y → y = r := by
    intro y hy
    obtain ⟨p'', he'', hp''⟩ := h.parent_of_edge hl hy he
    obtain rfl := h.right_unique _ _ _ hR hp''
    exact Transitions.dest_unique he'' he'
  have hleft : ∀ x, R x r → x = l := by
    intro x hx
    obtain ⟨p'', he'', hp''⟩ := h.swap.parent_of_edge hr hx he'
    obtain rfl := h.left_unique _ _ _ hR hp''
    exact Transitions.dest_unique he'' he
  refine ⟨.inl h.root, ?_, ?_, ?_, ?_⟩
  · rintro x y y' (hy | ⟨rfl, rfl⟩) (hy' | ⟨hx, rfl⟩)
    · exact h.right_unique _ _ _ hy hy'
    · exact hright y (hx ▸ hy)
    · exact (hright y' hy').symm
    · rfl
  · rintro x x' y (hx | ⟨rfl, rfl⟩) (hx' | ⟨rfl, hy⟩)
    · exact h.left_unique _ _ _ hx hx'
    · exact hleft x (hy ▸ hx)
    · exact (hleft x' hx').symm
    · rfl
  · rintro x y (hxy | ⟨rfl, rfl⟩)
    · exact h.reached x y hxy
    · obtain ⟨hp, hp'⟩ := h.reached p p' hR
      exact ⟨hp.tail ⟨c, he⟩, hp'.tail ⟨c, he'⟩⟩
  · rintro x y (hxy | ⟨rfl, rfl⟩)
    · exact (h.parent x y hxy).imp_right fun ⟨q, q', d, hd, hd', hq⟩ => ⟨q, q', d, hd, hd', .inl hq⟩
    · exact .inr ⟨p, p', c, he, he', .inl hR⟩

end Correspondence
end Automaton
end ByteMatch
