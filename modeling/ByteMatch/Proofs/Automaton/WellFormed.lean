import ByteMatch.CharSet
import ByteMatch.Proofs.Automaton.Paths

/-!
# ByteMatch.Proofs.Automaton.WellFormed

What the operations on automata keep and rely on.

* `Automaton.Proper`: transitions lead to states, labels and leaves are not empty, and the labels
  that leave a state are disjoint.
* `Automaton.WellFormed`: moreover there are no cycles, every state is reached from the root and
  leads to a leaf. `CharSet.WellFormed` adds that a tree is one.
* `Automaton.Proper.productive_iff`: a state leads to a leaf if something is accepted from it.
* `Automaton.Covers`: a map of states that keeps leaves and steps keeps what is accepted.
-/

namespace ByteMatch
namespace Automaton

variable {a b : Automaton} {p q r : Nat} {c c' : ByteSet} {x : UInt8} {w : List UInt8}

/-- Some path leads from `q` to a leaf. -/
def Productive (a : Automaton) (q : Nat) : Prop :=
  ∃ t leaf, a.Reaches q t ∧ (a.state t).leaf = some leaf

/-- Transitions lead to states, labels and leaves are not empty, and a byte is in at most one of
the labels that leave a state. -/
structure Proper (a : Automaton) : Prop where
  target_lt : ∀ p c q, a.Edge p c q → q < a.size
  label_nonempty : ∀ p c q, a.Edge p c q → ∃ x, x ∈ c
  labels_disjoint : ∀ p, (a.state p).transitions.Disjoint
  leaf_nonempty : ∀ q leaf, (a.state q).leaf = some leaf → ∃ x, x ∈ leaf

/-- A proper automaton without cycles, whose states are all reached from the root and lead to a
leaf. -/
structure WellFormed (a : Automaton) : Prop extends a.Proper where
  acyclic : a.Acyclic
  reachable : ∀ q, q < a.size → a.Reaches 0 q
  productive : ∀ q, q < a.size → a.Productive q

/-- Exactly one transition leads to each state but the root. -/
def IsTree (a : Automaton) : Prop :=
  ∀ q, q < a.size → q ≠ 0 → ∃! e : Nat × ByteSet, a.Edge e.1 e.2 q

/-! ## Acceptance -/

theorem acceptsFrom_singleton : a.acceptsFrom q [x] = (a.state q).completes x := by
  rw [acceptsFrom]

theorem acceptsFrom_cons (h : w ≠ []) : a.acceptsFrom q (x :: w) =
    match (a.state q).transitions.step? x with
    | some next => a.acceptsFrom next w
    | none => false := by
  cases w with
  | nil => exact absurd rfl h
  | cons y w => rfl

theorem acceptsFrom_of_step {next : Nat} (hstep : (a.state q).transitions.step? x = some next)
    (h : w ≠ []) : a.acceptsFrom q (x :: w) = a.acceptsFrom next w := by
  rw [acceptsFrom_cons h, hstep]

theorem ne_nil_of_acceptsFrom (h : a.acceptsFrom q w = true) : w ≠ [] := by
  rintro rfl
  simp [acceptsFrom] at h

theorem completes_iff {s : State} : s.completes x = true ↔ ∃ leaf, s.leaf = some leaf ∧ x ∈ leaf := by
  simp only [State.completes, Option.any_eq_true, ByteSet.contains_iff]

theorem acceptsFrom_of_isHole (h : (a.state q).isHole = true) : a.acceptsFrom q w = false := by
  rw [State.isHole_iff] at h
  match w with
  | [] => rw [acceptsFrom]
  | [x] =>
    rw [acceptsFrom_singleton, h]
    rfl
  | x :: y :: w =>
    rw [acceptsFrom_cons (by simp), h]
    rfl

namespace Proper

theorem step?_iff (h : a.Proper) :
    (a.state p).transitions.step? x = some q ↔ ∃ c, x ∈ c ∧ a.Edge p c q :=
  Transitions.step?_eq_some_iff (h.labels_disjoint p)

theorem edge_unique (h : a.Proper) (hq : a.Edge p c q) (hr : a.Edge p c' r) (hx : x ∈ c)
    (hx' : x ∈ c') : c = c' ∧ q = r := by
  have hc : c = c' := h.labels_disjoint p _ hq _ hr x hx hx'
  subst hc
  exact ⟨rfl, Transitions.dest_unique hq hr⟩

theorem productive_of_child (h : a.Child p q) (hq : a.Productive q) : a.Productive p := by
  obtain ⟨t, leaf, hpath, hleaf⟩ := hq
  exact ⟨t, leaf, Relation.ReflTransGen.head h hpath, hleaf⟩

theorem productive_iff (h : a.Proper) : a.Productive q ↔ ∃ w, a.acceptsFrom q w = true := by
  constructor
  · rintro ⟨t, leaf, hpath, hleaf⟩
    induction hpath using Relation.ReflTransGen.head_induction_on with
    | refl =>
      obtain ⟨x, hx⟩ := h.leaf_nonempty t leaf hleaf
      exact ⟨[x], by rw [acceptsFrom_singleton, completes_iff]; exact ⟨leaf, hleaf, hx⟩⟩
    | head hchild _ ih =>
      obtain ⟨w, hw⟩ := ih
      obtain ⟨c, hedge⟩ := hchild
      obtain ⟨x, hx⟩ := h.label_nonempty _ _ _ hedge
      refine ⟨x :: w, ?_⟩
      rw [acceptsFrom_of_step (h.step?_iff.2 ⟨c, hx, hedge⟩) (ne_nil_of_acceptsFrom hw)]
      exact hw
  · rintro ⟨w, hw⟩
    induction w generalizing q with
    | nil => simp [acceptsFrom] at hw
    | cons x w ih =>
      cases w with
      | nil =>
        rw [acceptsFrom_singleton, completes_iff] at hw
        obtain ⟨leaf, hleaf, _⟩ := hw
        exact ⟨q, leaf, .refl, hleaf⟩
      | cons y w =>
        rw [acceptsFrom_cons (by simp)] at hw
        cases hstep : (a.state q).transitions.step? x with
        | none => simp [hstep] at hw
        | some next =>
          rw [hstep] at hw
          obtain ⟨c, _, hedge⟩ := h.step?_iff.1 hstep
          exact productive_of_child ⟨c, hedge⟩ (ih hw)

theorem step_of_same (ha : a.Proper) (hsame : ∀ w, a.acceptsFrom p w = b.acceptsFrom q w)
    (hstep : (a.state p).transitions.step? x = some r) (hprod : a.Productive r) :
    ∃ r', (b.state q).transitions.step? x = some r' ∧
      ∀ w, a.acceptsFrom r w = b.acceptsFrom r' w := by
  obtain ⟨v, hv⟩ := ha.productive_iff.1 hprod
  have hword : b.acceptsFrom q (x :: v) = true := by
    rw [← hsame, acceptsFrom_of_step hstep (ne_nil_of_acceptsFrom hv), hv]
  rw [acceptsFrom_cons (ne_nil_of_acceptsFrom hv)] at hword
  cases hstep' : (b.state q).transitions.step? x with
  | none => simp [hstep'] at hword
  | some r' =>
    refine ⟨r', rfl, fun u => ?_⟩
    cases u with
    | nil => rw [acceptsFrom, acceptsFrom]
    | cons y u =>
      rw [← acceptsFrom_of_step hstep (by simp), hsame, acceptsFrom_of_step hstep' (by simp)]

end Proper

theorem leaf_eq_of_completes (ha : a.Proper) (hb : b.Proper)
    (h : ∀ x, (a.state q).completes x = (b.state r).completes x) :
    (a.state q).leaf = (b.state r).leaf := by
  have hiff : ∀ x, (∃ leaf, (a.state q).leaf = some leaf ∧ x ∈ leaf) ↔
      ∃ leaf, (b.state r).leaf = some leaf ∧ x ∈ leaf := by
    intro x
    rw [← completes_iff, ← completes_iff, h]
  cases hl : (a.state q).leaf with
  | none =>
    cases hr : (b.state r).leaf with
    | none => rfl
    | some leaf =>
      obtain ⟨x, hx⟩ := hb.leaf_nonempty r leaf hr
      obtain ⟨leaf', hleaf', -⟩ := (hiff x).2 ⟨leaf, hr, hx⟩
      rw [hl] at hleaf'
      cases hleaf'
  | some leaf =>
    obtain ⟨x, hx⟩ := ha.leaf_nonempty q leaf hl
    obtain ⟨leaf', hr, -⟩ := (hiff x).1 ⟨leaf, hl, hx⟩
    rw [hr]
    refine congrArg some (ByteSet.ext_mem fun y => ?_)
    have := hiff y
    simpa [hl, hr] using this

theorem Productive.not_isHole (h : a.Productive q) : (a.state q).isHole = false := by
  rw [← Bool.not_eq_true, State.isHole_iff]
  intro hole
  obtain ⟨t, leaf, hpath, hleaf⟩ := h
  rcases Relation.ReflTransGen.cases_head hpath with rfl | ⟨r, ⟨c, hedge⟩, _⟩
  · rw [hole] at hleaf
    simp [State.hole] at hleaf
  · rw [Edge, hole] at hedge
    simp [State.hole] at hedge

/-- Where no state that is reached is a hole, each one leads to a leaf. -/
theorem productive_of_live (hacyc : a.Acyclic) (htarget : ∀ p c q, a.Edge p c q → q < a.size)
    (hr : r < a.size) (hlive : ∀ q, a.Reaches r q → (a.state q).isHole = false)
    (hq : a.Reaches r q) : a.Productive q := by
  -- where there is no leaf, the path goes on. It visits no state twice, so that it ends
  have hpath : ∀ n k q, k + n = a.size → a.Path r k q → a.Productive q := by
    intro n
    induction n with
    | zero =>
      intro k q hk hp
      have := path_length_lt hacyc htarget hp hr
      omega
    | succ n ih =>
      intro k q hk hp
      cases hleaf : (a.state q).leaf with
      | some leaf => exact ⟨q, leaf, .refl, hleaf⟩
      | none =>
        have hsome : (a.state q).transitions.isEmpty = false := by
          have := hlive q hp.reaches
          simpa [State.isHole, hleaf] using this
        obtain ⟨⟨c, next⟩, he⟩ := Transitions.isEmpty_eq_false_iff.1 hsome
        exact Proper.productive_of_child ⟨c, he⟩ (ih (k + 1) next (by omega) (hp.snoc ⟨c, he⟩))
  obtain ⟨k, hk⟩ := hq.path
  have hlt := path_length_lt hacyc htarget hk hr
  exact hpath (a.size - k) k q (by omega) hk

/-! ## Coverings -/

/-- `f` takes the states of `a` that satisfy `on` to states of `b` with the same leaf and with
corresponding steps. -/
structure Covers (f : Nat → Nat) (a b : Automaton) (on : Nat → Prop) : Prop where
  leaf : ∀ q, on q → (a.state q).leaf = (b.state (f q)).leaf
  step : ∀ q, on q → ∀ x, (b.state (f q)).transitions.step? x =
    ((a.state q).transitions.step? x).map f
  closed : ∀ p c q, on p → a.Edge p c q → on q

namespace Covers

variable {f g : Nat → Nat} {on : Nat → Prop}

/-- The same is accepted from a state and from the one that it is taken to. -/
theorem acceptsFrom_eq (h : Covers f a b on) (hq : on q) :
    b.acceptsFrom (f q) w = a.acceptsFrom q w := by
  induction w generalizing q with
  | nil => rw [acceptsFrom, acceptsFrom]
  | cons x w ih =>
    cases w with
    | nil => rw [acceptsFrom_singleton, acceptsFrom_singleton, State.completes, State.completes,
        h.leaf q hq]
    | cons y w =>
      rw [acceptsFrom_cons (by simp), acceptsFrom_cons (by simp), h.step q hq x]
      cases hstep : (a.state q).transitions.step? x with
      | none => rfl
      | some next =>
        obtain ⟨c, _, hedge⟩ := Transitions.exists_of_step? hstep
        exact ih (h.closed q c next hq hedge)

/-- It is enough that the transitions correspond label by label. -/
theorem of_mapDest (hstate : ∀ q, on q → b.state (f q) = (a.state q).mapDest f)
    (hclosed : ∀ p c q, on p → a.Edge p c q → on q) : Covers f a b on where
  leaf q hq := by rw [hstate q hq]; rfl
  step q hq x := by
    rw [hstate q hq]
    exact Transitions.step?_mapDest
  closed := hclosed

theorem trans {b' : Automaton} {on' : Nat → Prop} (h : Covers f a b on) (h' : Covers g b b' on')
    (hon : ∀ q, on q → on' (f q)) : Covers (g ∘ f) a b' on where
  leaf q hq := by rw [h.leaf q hq, h'.leaf _ (hon q hq)]; rfl
  step q hq x := by
    rw [Function.comp_apply, h'.step _ (hon q hq), h.step q hq, Option.map_map]
  closed := h.closed

theorem refl (hclosed : ∀ p c q, on p → a.Edge p c q → on q) : Covers id a a on where
  leaf _ _ := rfl
  step q _ x := by rw [Option.map_id, id, id]
  closed := hclosed

/-- Some of the states, with all that is below them. -/
theorem restrict {on' : Nat → Prop} (h : Covers f a b on) (hon : ∀ q, on' q → on q)
    (hclosed : ∀ p c q, on' p → a.Edge p c q → on' q) : Covers f a b on' where
  leaf q hq := h.leaf q (hon q hq)
  step q hq := h.step q (hon q hq)
  closed := hclosed

theorem child (h : Covers f a b on) (ha : a.Proper) (hp : on p) (hchild : a.Child p q) :
    b.Child (f p) (f q) := by
  obtain ⟨c, hedge⟩ := hchild
  obtain ⟨x, hx⟩ := ha.label_nonempty _ _ _ hedge
  have hstep := h.step p hp x
  rw [ha.step?_iff.2 ⟨c, hx, hedge⟩] at hstep
  obtain ⟨c', _, hedge'⟩ := Transitions.exists_of_step? hstep
  exact ⟨c', hedge'⟩

theorem path (h : Covers f a b on) (ha : a.Proper) (hp : on p) {k : Nat} (hpath : a.Path p k q) :
    on q ∧ b.Path (f p) k (f q) := by
  induction hpath with
  | nil => exact ⟨hp, .nil⟩
  | snoc _ hchild ih =>
    exact ⟨h.closed _ _ _ ih.1 hchild.choose_spec, ih.2.snoc (h.child ha ih.1 hchild)⟩

theorem reaches (h : Covers f a b on) (ha : a.Proper) (hp : on p) (hpath : a.Reaches p q) :
    b.Reaches (f p) (f q) := by
  obtain ⟨k, hk⟩ := hpath.path
  exact (h.path ha hp hk).2.reaches

theorem productive (h : Covers f a b on) (ha : a.Proper) (hb : b.Proper) (hq : on q)
    (hprod : b.Productive (f q)) : a.Productive q := by
  obtain ⟨w, hw⟩ := hb.productive_iff.1 hprod
  exact ha.productive_iff.2 ⟨w, by rw [← h.acceptsFrom_eq hq]; exact hw⟩

end Covers
/-! ## Recognising well-formed automata -/

theorem acyclic_of_lt (h : ∀ p c q, a.Edge p c q → p < q) : a.Acyclic := by
  have hlt : ∀ {p q}, Relation.TransGen a.Child p q → p < q := by
    intro p q hpath
    induction hpath with
    | single hchild => exact h _ _ _ hchild.choose_spec
    | tail _ hchild ih => exact Nat.lt_trans ih (h _ _ _ hchild.choose_spec)
  exact fun q hcycle => Nat.lt_irrefl q (hlt hcycle)

/-- An automaton is well-formed if its states are numbered from the root downwards, each one but the
root has a parent, and none is a hole. -/
theorem WellFormed.of_ascending
    (hedge : ∀ p < a.size, ∀ e ∈ (a.state p).transitions.entries,
      p < e.2 ∧ e.2 < a.size ∧ e.1.isEmpty = false)
    (hdisj : ∀ p < a.size, ∀ e ∈ (a.state p).transitions.entries,
      ∀ e' ∈ (a.state p).transitions.entries, e.1.intersects e'.1 = true → e.1 = e'.1)
    (hleaf : ∀ q < a.size, (a.state q).leaf.all (!·.isEmpty) = true)
    (hparent : ∀ q < a.size, q = 0 ∨ ∃ p < q, q ∈ (a.state p).transitions.dests)
    (hlive : ∀ q < a.size, (a.state q).isHole = false) : a.WellFormed := by
  have hascend : ∀ p c q, a.Edge p c q → p < q ∧ q < a.size ∧ c.isEmpty = false :=
    fun p c q he => hedge p (lt_of_edge he) (c, q) he
  refine ⟨⟨fun p c q he => (hascend p c q he).2.1, fun p c q he => ?_, fun p e he e' he' x hx hx' => ?_,
    fun q leaf hq => ?_⟩, acyclic_of_lt fun p c q he => (hascend p c q he).1, fun q hq => ?_,
    fun q hq => ?_⟩
  · exact ByteSet.isEmpty_eq_false_iff.1 (hascend p c q he).2.2
  · exact hdisj p (lt_of_edge he) e he e' he' (ByteSet.intersects_iff.2 ⟨x, hx, hx'⟩)
  · have hlt : q < a.size := by
      by_contra hge
      rw [state_of_ge (Nat.le_of_not_lt hge)] at hq
      cases hq
    have := hleaf q hlt
    rw [hq] at this
    exact ByteSet.isEmpty_eq_false_iff.1 (by simpa using this)
  · induction q using Nat.strongRecOn with
    | ind q ih =>
      rcases hparent q hq with rfl | ⟨p, hp, hchild⟩
      · exact .refl
      · exact (ih p hp (by omega)).tail (mem_dests_iff.1 hchild)
  · -- a state without leaf has a child, which has a higher number
    induction hn : a.size - q using Nat.strongRecOn generalizing q with
    | ind n ih =>
      cases hl : (a.state q).leaf with
      | some leaf => exact ⟨q, leaf, .refl, hl⟩
      | none =>
        have hsome : (a.state q).transitions.isEmpty = false := by
          have := hlive q hq
          simpa [State.isHole, hl] using this
        obtain ⟨⟨c, r⟩, he⟩ := Transitions.isEmpty_eq_false_iff.1 hsome
        obtain ⟨hlt, hr, -⟩ := hascend q c r he
        exact Proper.productive_of_child ⟨c, he⟩ (ih _ (by omega) r hr rfl)

theorem wellFormed_of_size_zero (h : a.size = 0) : a.WellFormed ∧ a.IsTree := by
  have hnone : ∀ q, ¬ q < a.size := fun q => by omega
  exact ⟨.of_ascending (fun q hq => absurd hq (hnone q)) (fun q hq => absurd hq (hnone q))
    (fun q hq => absurd hq (hnone q)) (fun q hq => absurd hq (hnone q))
    fun q hq => absurd hq (hnone q), fun q hq => absurd hq (hnone q)⟩

theorem WellFormed.isTree (h : a.WellFormed)
    (hunique : ∀ p < a.size, ∀ e ∈ (a.state p).transitions.entries, ∀ p' < a.size,
      ∀ e' ∈ (a.state p').transitions.entries, e.2 = e'.2 → p = p' ∧ e.1 = e'.1) : a.IsTree := by
  intro q hq hne
  rcases Relation.ReflTransGen.cases_tail (h.reachable q hq) with heq | ⟨p, _, c, he⟩
  · exact absurd heq hne
  · refine ⟨(p, c), he, ?_⟩
    rintro ⟨p', c'⟩ he'
    obtain ⟨rfl, rfl⟩ := hunique p' (lt_of_edge he') (c', q) he' p (lt_of_edge he) (c, q) he rfl
    rfl

end Automaton

/-- A set of characters whose automaton is well-formed, and a tree if it is in tree form. -/
structure CharSet.WellFormed (s : CharSet) : Prop where
  states : s.states.WellFormed
  tree : s.form = .tree → s.states.IsTree

end ByteMatch
