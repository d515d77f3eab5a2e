import ByteMatch.Pattern.Lookahead
import ByteMatch.Proofs.Instruction.Execution
import ByteMatch.Proofs.Pattern.Outline

/-!
# ByteMatch.Proofs.Pattern.Language

The strings of characters that a pattern matches.

* `Pattern.language`: the language of a node. `Pattern.Acyclic.language_eq` says what it is for each
  kind of node, and `Pattern.Acyclic.mem_language_unbounded` what a missing bound means.
* `Pattern.Regular`: patterns of groups, alternatives, repetitions and classes, without anything that
  a parser knows of the text around them.
* `Pattern.Regular.starts_of_preview`: a class that is found ahead is one that all matches start with.
-/

namespace ByteMatch

variable {α : Type} {cls : Int → α → Bool}

/-! ## Languages of nodes -/

/-- The largest number of iterations. Without an upper bound, `unmeasured` iterations are possible
after the required ones. -/
def mostIterations (min : Nat) : Option Nat → Nat
  | some max => if max = unmeasured then min + unmeasured else Nat.max min max
  | none => min + unmeasured

namespace Outline

mutual

/-- The strings that the node at the top of an outline matches. -/
def language (cls : Int → α → Bool) (p : Pattern) : Outline → Language α
  | node i children =>
    match (p.node i).kind with
    | .group => (languages cls p children).prod
    | .alternation => (languages cls p children).sum
    | .repetition min max =>
      match languages cls p children with
      | [] => 0
      | part :: _ => repeated part min (mostIterations min max)
    | .charClass root => classLanguage cls root
    | .action _ => 0

/-- The languages of several outlines. -/
def languages (cls : Int → α → Bool) (p : Pattern) : List Outline → List (Language α)
  | [] => []
  | o :: rest => language cls p o :: languages cls p rest

end

theorem languages_eq_map {p : Pattern} {os : List Outline} :
    languages cls p os = os.map (language cls p) := by
  induction os with
  | nil => rfl
  | cons o rest ih => rw [languages, ih, List.map_cons]

end Outline

namespace Pattern

variable {p q : Pattern} {root i : Nat}

/-- The strings that a node matches. -/
def language (cls : Int → α → Bool) (p : Pattern) (i : Nat) : Language α :=
  (p.outline i).language cls p

/-- A group matches its children one after the other, an alternation one of them, and a repetition its
child several times. -/
theorem Acyclic.language_eq (h : p.Acyclic root) (hi : p.Reaches root i) : p.language cls i =
    match (p.node i).kind with
    | .group => ((p.node i).children.map (p.language cls)).prod
    | .alternation => ((p.node i).children.map (p.language cls)).sum
    | .repetition min max =>
      match (p.node i).children with
      | [] => 0
      | j :: _ => repeated (p.language cls j) min (mostIterations min max)
    | .charClass root => classLanguage cls root
    | .action _ => 0 := by
  have hlanguages : Outline.languages cls p ((p.node i).children.map p.outline) =
      (p.node i).children.map (p.language cls) := by
    rw [Outline.languages_eq_map, List.map_map]
    rfl
  rw [language, h.outline_eq hi, Outline.language, hlanguages]
  cases (p.node i).children <;> rfl

/-- Strings of up to `unmeasured` characters may have any number of iterations. -/
theorem Acyclic.mem_language_unbounded (h : p.Acyclic root) (hi : p.Reaches root i) {min j : Nat}
    {rest : List Nat} (hkind : (p.node i).kind = .repetition min none)
    (hchildren : (p.node i).children = j :: rest) {w : List α} (hlen : w.length ≤ unmeasured) :
    w ∈ p.language cls i ↔ ∃ k, min ≤ k ∧ w ∈ p.language cls j ^ k := by
  rw [h.language_eq hi, hkind, hchildren]
  exact mem_repeated_of_length_le hlen

/-! ## Patterns without promises -/

/-- A pattern without cycles, of groups that consume what they match, alternatives, repetitions and
classes, which comes without classes to look ahead for, without what follows repetitions and without
disjoint repetitions. A tail that alternatives share is an alternation itself. -/
structure Regular (p : Pattern) (root : Nat) : Prop extends p.Acyclic root where
  no_action : ∀ i, p.Reaches root i → ∀ a, (p.node i).kind ≠ .action a
  consuming : ∀ i, p.Reaches root i → (p.node i).attributes.lookahead = false
  no_preview : ∀ i, p.Reaches root i → (p.node i).preview = none
  no_lookAhead : ∀ i, p.Reaches root i → (p.node i).lookAhead = none
  not_disjoint : ∀ i, p.Reaches root i → (p.node i).attributes.disjoint = false
  shared : ∀ i, p.Reaches root i → (p.node i).kind = .alternation →
    ∀ j ∈ (p.node i).children, (p.node j).attributes.sharedTail = true →
      (p.node j).kind = .alternation
  not_afterNewline : (p.node root).attributes.afterNewline = false

theorem head?_any_append {f : α → Bool} {u v : List α} (h : u.head?.any f = true) :
    (u ++ v).head?.any f = true := by
  cases u with
  | nil => simp at h
  | cons x u => simpa using h

/-- All matches of a node start with the class that is found ahead. -/
theorem Regular.starts_of_preview (h : p.Regular root) (hq : q.Alike p) (hi : p.Reaches root i) :
    ∀ preview, q.preview? (p.leading i) = some preview →
      ∀ w ∈ p.language cls i, w.head?.any (cls preview.charClass) = true := by
  induction i, hi using h.induction with
  | step i hi ih =>
    intro preview hpreview w hw
    have hnone : (q.node i).preview = none := by rw [hq.preview, h.no_preview i hi]
    rw [h.leading_eq hi, preview?, hq.kind] at hpreview
    rw [h.language_eq hi] at hw
    cases hkind : (p.node i).kind with
    | charClass c =>
      simp only [hkind] at hpreview hw
      split at hpreview
      · cases hpreview
      · obtain rfl := Option.some.inj hpreview
        obtain ⟨x, hx, rfl⟩ := hw
        simpa using hx
    | alternation => simp [hkind, hnone] at hpreview
    | action a => exact absurd hkind (h.no_action i hi a)
    | group =>
      have hconsuming : (q.node i).attributes.lookahead = false := by
        rw [hq.attributes (·.lookahead) fun _ => rfl, h.consuming i hi]
      simp only [hkind, hconsuming, hnone, Bool.false_eq_true, if_false] at hpreview hw
      cases hc : (p.node i).children with
      | nil => simp [hc, preview?] at hpreview
      | cons j rest =>
        simp only [hc, List.map_cons, List.prod_cons] at hpreview hw
        obtain ⟨u, hu, v, -, rfl⟩ := Language.mem_mul.1 hw
        exact head?_any_append (ih j (by simp [hc]) preview hpreview u hu)
    | repetition min max =>
      simp only [hkind, hnone, Option.map_none, ite_self] at hpreview hw
      split at hpreview
      · rename_i hmin
        cases hc : (p.node i).children with
        | nil => simp [hc, preview?] at hpreview
        | cons j rest =>
          simp only [hc] at hpreview hw
          obtain ⟨k, hk, -, hw⟩ := hw
          obtain ⟨k, rfl⟩ : ∃ n, k = n + 1 := ⟨k - 1, by omega⟩
          rw [pow_succ', Language.mem_mul] at hw
          obtain ⟨u, hu, v, -, rfl⟩ := hw
          exact head?_any_append (ih j (by simp [hc]) preview hpreview u hu)
      · cases hpreview

end Pattern
end ByteMatch
