import Mathlib.Data.List.Nodup
import ByteMatch.Proofs.Automaton.WellFormed

/-!
# ByteMatch.Proofs.Automaton.Forest

Trees that stand side by side in one automaton, the form that trees have while they are changed.

* `Automaton.Forest`: each state has at most one parent, the roots have none, and a state that is
  reached from no root is a hole.
* `Automaton.Forest.acyclic`, `Automaton.Forest.root_unique`: there are no cycles, and no state is
  below two roots.
* `Automaton.WellFormed.forest`: a well-formed tree is a forest with one root.
* `Automaton.TreeWithHoles`: a single tree, in which labels and leaves may be empty, and holes beside it.
* `Automaton.Walk`: a walk through a subtree with a list of states to visit next, in any order. It
  comes to each state once.
-/

namespace ByteMatch
namespace Automaton

variable {a b : Automaton} {p p' q r r' : Nat} {c c' : ByteSet} {roots : List Nat}

/-- Where states have one parent, what lies on a cycle is reached from no state without a parent, as its
parent lies on the cycle too. -/
theorem not_reaches_cycle (hunique : ∀ p p' q, a.Child p q → a.Child p' q → p = p')
    (horphan : ∀ p, ¬ a.Child p r) (hq : a.Reaches r q) : ¬ Relation.TransGen a.Child q q := by
  induction hq with
  | refl =>
    intro hcycle
    obtain ⟨p, _, hchild⟩ := Relation.TransGen.tail'_iff.1 hcycle
    exact horphan p hchild
  | @tail p q _ hchild ih =>
    intro hcycle
    obtain ⟨p', hpath, hchild'⟩ := Relation.TransGen.tail'_iff.1 hcycle
    obtain rfl := hunique p p' q hchild hchild'
    exact ih (Relation.TransGen.head' hchild hpath)

/-- Trees with the given roots. States that are in none of the trees are holes. -/
structure Forest (a : Automaton) (roots : List Nat) : Prop extends a.Proper where
  parent_unique : ∀ p c p' c' q, a.Edge p c q → a.Edge p' c' q → p = p' ∧ c = c'
  root_orphan : ∀ r ∈ roots, ∀ p, ¬ a.Child p r
  root_lt : ∀ r ∈ roots, r < a.size
  live : ∀ q, q < a.size → (a.state q).isHole = false → ∃ r ∈ roots, a.Reaches r q

namespace Forest

theorem child_unique (h : a.Forest roots) (hp : a.Child p q) (hp' : a.Child p' q) : p = p' := by
  obtain ⟨c, hc⟩ := hp
  obtain ⟨c', hc'⟩ := hp'
  exact (h.parent_unique _ _ _ _ _ hc hc').1

theorem acyclic (h : a.Forest roots) : a.Acyclic := by
  intro q hcycle
  obtain ⟨p, ⟨c, hedge⟩, _⟩ := Relation.TransGen.head'_iff.1 hcycle
  obtain ⟨r, hr, hreach⟩ := h.live q (lt_of_edge hedge) (not_isHole_of_edge hedge)
  exact not_reaches_cycle (fun _ _ _ => h.child_unique) (h.root_orphan r hr) hreach hcycle

/-- A path to a state other than its start passes through the parent of that state. -/
theorem reaches_parent (h : a.Forest roots) (hpath : a.Reaches p q) (hne : p ≠ q)
    (hchild : a.Child p' q) : a.Reaches p p' := by
  rcases Relation.ReflTransGen.cases_tail hpath with heq | ⟨p'', hpath', hchild'⟩
  · exact absurd heq.symm hne
  · rwa [h.child_unique hchild hchild']

theorem root_unique (h : a.Forest roots) (hr : r ∈ roots) (hr' : r' ∈ roots) (hq : a.Reaches r q)
    (hq' : a.Reaches r' q) : r = r' := by
  induction hq with
  | refl =>
    rcases Relation.ReflTransGen.cases_tail hq' with heq | ⟨p, _, hchild⟩
    · exact heq
    · exact absurd hchild (h.root_orphan r hr p)
  | @tail p q _ hchild ih =>
    refine ih (h.reaches_parent hq' ?_ hchild)
    rintro rfl
    exact h.root_orphan _ hr' p hchild

theorem nodup_dests (h : a.Forest roots) : (a.state q).transitions.dests.Nodup := by
  refine List.Nodup.map_on ?_ Transitions.nodup_entries
  rintro ⟨c, d⟩ hc ⟨c', d'⟩ hc' rfl
  rw [(h.parent_unique q c q c' d hc hc').2]

end Forest

theorem root_orphan_of_reachable (hacyc : a.Acyclic) (hfull : ∀ q, q < a.size → a.Reaches 0 q)
    (p : Nat) : ¬ a.Child p 0 := by
  -- the root reaches its parent, so that it would lie on a cycle
  intro hchild
  have hp : p < a.size := lt_of_edge hchild.choose_spec
  exact hacyc 0 (Relation.TransGen.tail' (hfull p hp) hchild)

theorem WellFormed.root_orphan (h : a.WellFormed) (p : Nat) : ¬ a.Child p 0 :=
  root_orphan_of_reachable h.acyclic h.reachable p

theorem Forest.of_isTree (h : a.Proper) (hacyc : a.Acyclic) (hfull : ∀ q, q < a.size → a.Reaches 0 q)
    (htree : a.IsTree) (hsize : 0 < a.size) : a.Forest [0] where
  toProper := h
  parent_unique p c p' c' q hedge hedge' := by
    by_cases hq : q = 0
    · subst hq
      exact absurd ⟨c, hedge⟩ (root_orphan_of_reachable hacyc hfull p)
    · obtain ⟨e, _, hunique⟩ := htree q (h.target_lt _ _ _ hedge) hq
      have heq := (hunique (p, c) hedge).trans (hunique (p', c') hedge').symm
      exact Prod.mk.inj heq
  root_orphan r hr p := by
    rw [List.mem_singleton.1 hr]
    exact root_orphan_of_reachable hacyc hfull p
  root_lt r hr := by rwa [List.mem_singleton.1 hr]
  live q hq _ := ⟨0, by simp, hfull q hq⟩

theorem WellFormed.forest (h : a.WellFormed) (htree : a.IsTree) (hsize : 0 < a.size) : a.Forest [0] :=
  .of_isTree h.toProper h.acyclic h.reachable htree hsize

/-- A single tree in which every state leads to a leaf is well-formed. -/
theorem Forest.wellFormed (h : a.Forest [0]) (hprod : ∀ q, q < a.size → a.Productive q) :
    a.WellFormed where
  toProper := h.toProper
  acyclic := h.acyclic
  reachable q hq := by
    obtain ⟨r, hr, hreach⟩ := h.live q hq (hprod q hq).not_isHole
    rwa [List.mem_singleton.1 hr] at hreach
  productive := hprod

theorem Forest.isTree_of_reachable (h : a.Forest [0]) (hfull : ∀ q, q < a.size → a.Reaches 0 q) :
    a.IsTree := by
  intro q hq hne
  rcases Relation.ReflTransGen.cases_tail (hfull q hq) with heq | ⟨p, _, c, hedge⟩
  · exact absurd heq hne
  · refine ⟨(p, c), hedge, ?_⟩
    rintro ⟨p', c'⟩ hedge'
    obtain ⟨rfl, rfl⟩ := h.parent_unique _ _ _ _ _ hedge' hedge
    rfl

theorem Forest.isTree (h : a.Forest [0]) (hprod : ∀ q, q < a.size → a.Productive q) : a.IsTree :=
  h.isTree_of_reachable (h.wellFormed hprod).reachable

theorem Forest.of_transitions (h : a.Forest [0]) (hfull : ∀ q, q < a.size → a.Reaches 0 q)
    (hsize : b.size = a.size)
    (htrans : ∀ q, (b.state q).transitions = (a.state q).transitions)
    (hleaf : ∀ q leaf, (b.state q).leaf = some leaf → ∃ x, x ∈ leaf) :
    b.Forest [0] ∧ ∀ q, q < b.size → b.Reaches 0 q := by
  have hedge : ∀ {p c q}, b.Edge p c q ↔ a.Edge p c q := by
    intro p c q
    rw [Edge, htrans, Edge]
  have hreach : ∀ q, q < b.size → b.Reaches 0 q := fun q hq =>
    (hfull q (hsize ▸ hq)).mono_edge fun _ _ _ => hedge.2
  refine ⟨⟨⟨?_, ?_, ?_, hleaf⟩, ?_, ?_, ?_, fun q hq _ => ⟨0, by simp, hreach q hq⟩⟩, hreach⟩
  · intro p c q he
    rw [hsize]
    exact h.target_lt _ _ _ (hedge.1 he)
  · exact fun p c q he => h.label_nonempty _ _ _ (hedge.1 he)
  · intro p
    rw [htrans]
    exact h.labels_disjoint p
  · exact fun p c p' c' q he he' => h.parent_unique _ _ _ _ _ (hedge.1 he) (hedge.1 he')
  · exact fun r hr p hchild => h.root_orphan r hr p (hchild.imp fun _ => hedge.1)
  · intro r hr
    rw [hsize]
    exact h.root_lt r hr

/-! ## A single tree -/

/-- A tree with its root at 0. States that are not in it are holes that no transition leads to. Labels and
leaves may be empty, and there may be holes in the tree, too. -/
structure TreeWithHoles (a : Automaton) : Prop where
  target_lt : ∀ p c q, a.Edge p c q → q < a.size
  labels_disjoint : ∀ p, (a.state p).transitions.Disjoint
  root_orphan : ∀ p, ¬ a.Child p 0
  placed : ∀ q, q < a.size → q ≠ 0 → (a.Reaches 0 q ∧ ∃! e : Nat × ByteSet, a.Edge e.1 e.2 q) ∨
    ((a.state q).isHole = true ∧ ∀ p, ¬ a.Child p q)

theorem Forest.treeWithHoles (h : a.Forest [0]) : a.TreeWithHoles where
  target_lt := h.target_lt
  labels_disjoint := h.labels_disjoint
  root_orphan := h.root_orphan 0 (by simp)
  placed q hq hne := by
    by_cases hchild : ∃ p, a.Child p q
    · obtain ⟨p, c, he⟩ := hchild
      obtain ⟨r, hr, hreach⟩ := h.live p (lt_of_edge he) (not_isHole_of_edge he)
      obtain rfl := List.mem_singleton.1 hr
      refine .inl ⟨hreach.tail ⟨c, he⟩, (p, c), he, ?_⟩
      rintro ⟨p', c'⟩ he'
      obtain ⟨rfl, rfl⟩ := h.parent_unique _ _ _ _ _ he' he
      rfl
    · have hnone := not_exists.1 hchild
      refine .inr ⟨?_, hnone⟩
      by_contra hlive
      obtain ⟨r, hr, hreach⟩ := h.live q hq (by simpa using hlive)
      obtain rfl := List.mem_singleton.1 hr
      rcases Relation.ReflTransGen.cases_tail hreach with heq | ⟨p, -, hchild⟩
      · exact hne heq
      · exact hnone p hchild

namespace TreeWithHoles

/-- A state with a parent is in the tree. -/
theorem of_child (h : a.TreeWithHoles) (hchild : a.Child p q) :
    a.Reaches 0 q ∧ ∃! e : Nat × ByteSet, a.Edge e.1 e.2 q := by
  obtain ⟨c, he⟩ := hchild
  refine (h.placed q (h.target_lt p c q he) ?_).resolve_right fun hout => hout.2 p ⟨c, he⟩
  rintro rfl
  exact h.root_orphan p ⟨c, he⟩

theorem parent_unique (h : a.TreeWithHoles) (he : a.Edge p c q) (he' : a.Edge p' c' q) :
    p = p' ∧ c = c' := by
  obtain ⟨-, e, -, hunique⟩ := h.of_child ⟨c, he⟩
  have heq := (hunique (p, c) he).trans (hunique (p', c') he').symm
  exact Prod.mk.inj heq

theorem acyclic (h : a.TreeWithHoles) : a.Acyclic := by
  intro q hcycle
  obtain ⟨p, -, hchild⟩ := Relation.TransGen.tail'_iff.1 hcycle
  refine not_reaches_cycle ?_ h.root_orphan (h.of_child hchild).1 hcycle
  rintro p p' q ⟨c, he⟩ ⟨c', he'⟩
  exact (h.parent_unique he he').1

/-- Each state is below one without a parent, the root or the state itself. -/
theorem exists_path (h : a.TreeWithHoles) (hq : q < a.size) :
    ∃ r n, r < a.size ∧ (∀ p, ¬ a.Child p r) ∧ a.Path r n q := by
  by_cases hchild : ∃ p, a.Child p q
  · obtain ⟨p, hchild⟩ := hchild
    obtain ⟨n, hpath⟩ := (h.of_child hchild).1.path
    exact ⟨0, n, Nat.zero_lt_of_lt hq, h.root_orphan, hpath⟩
  · exact ⟨q, 0, hq, not_exists.1 hchild, .nil⟩

/-- A simple condition: ranks grow from the root downwards, and a state without a parent is a hole. -/
theorem of_rank (rank : Nat → Nat)
    (hdest : ∀ p < a.size, ∀ e ∈ (a.state p).transitions.entries,
      e.2 < a.size ∧ e.2 ≠ 0 ∧ rank p < rank e.2)
    (hdisj : ∀ p < a.size, ∀ e ∈ (a.state p).transitions.entries,
      ∀ e' ∈ (a.state p).transitions.entries, e.1.intersects e'.1 = true → e.1 = e'.1)
    (hunique : ∀ p < a.size, ∀ e ∈ (a.state p).transitions.entries, ∀ p' < a.size,
      ∀ e' ∈ (a.state p').transitions.entries, e.2 = e'.2 → p = p' ∧ e.1 = e'.1)
    (hplaced : ∀ q < a.size, q = 0 ∨ (a.state q).isHole = true ∨
      ∃ p < a.size, q ∈ (a.state p).transitions.dests) : a.TreeWithHoles := by
  have hedge : ∀ p c q, a.Edge p c q → q < a.size ∧ q ≠ 0 ∧ rank p < rank q :=
    fun p c q he => hdest p (lt_of_edge he) (c, q) he
  have hreach : ∀ n q, q < a.size → rank q < n → (q = 0 ∨ ∃ p, a.Child p q) → a.Reaches 0 q := by
    intro n
    induction n with
    | zero => exact fun q _ hq => absurd hq (Nat.not_lt_zero _)
    | succ n ih =>
      rintro q hq hrank (rfl | ⟨p, c, he⟩)
      · exact .refl
      · have hp := lt_of_edge he
        have hlt := (hedge p c q he).2.2
        refine (ih p hp (by omega) ?_).tail ⟨c, he⟩
        rcases hplaced p hp with hroot | hhole | ⟨p', -, hchild⟩
        · exact .inl hroot
        · rw [not_isHole_of_edge he] at hhole
          cases hhole
        · exact .inr ⟨p', mem_dests_iff.1 hchild⟩
  refine ⟨fun p c q he => (hedge p c q he).1, fun p e he e' he' x hx hx' => ?_,
    fun p ⟨c, he⟩ => (hedge p c 0 he).2.1 rfl, fun q hq hne => ?_⟩
  · exact hdisj p (lt_of_edge he) e he e' he' (ByteSet.intersects_iff.2 ⟨x, hx, hx'⟩)
  · by_cases hchild : ∃ p, a.Child p q
    · refine .inl ⟨hreach _ q hq (Nat.lt_succ_self _) (.inr hchild), ?_⟩
      obtain ⟨p, c, he⟩ := hchild
      refine ⟨(p, c), he, ?_⟩
      rintro ⟨p', c'⟩ he'
      obtain ⟨rfl, rfl⟩ := hunique p' (lt_of_edge he') (c', q) he' p (lt_of_edge he) (c, q) he rfl
      rfl
    · refine .inr ⟨?_, not_exists.1 hchild⟩
      rcases hplaced q hq with hroot | hhole | ⟨p, -, hparent⟩
      · exact absurd hroot hne
      · exact hhole
      · exact absurd ⟨p, mem_dests_iff.1 hparent⟩ hchild

end TreeWithHoles

/-! ## Walks -/

/-- A walk through the states below `root`: those visited, and those to be visited next. -/
structure Walk (a : Automaton) (root : Nat) (done work : List Nat) : Prop where
  nodup : (done ++ work).Nodup
  origin : ∀ q ∈ done ++ work, q = root ∨ ∃ p ∈ done, a.Child p q
  reached : ∀ q ∈ done ++ work, a.Reaches root q
  start : root ∈ done ++ work
  complete : ∀ p ∈ done, ∀ q, a.Child p q → q ∈ done ++ work

namespace Walk

variable {root : Nat} {done work rest : List Nat}

theorem single : a.Walk root [] [root] where
  nodup := by simp
  origin q hq := .inl (by simpa using hq)
  reached q hq := by
    obtain rfl : q = root := by simpa using hq
    exact .refl
  start := by simp
  complete p hp := by simp at hp

/-- The states below the one that is visited have not been met before, as they have no other
parent. -/
theorem child_fresh (h : a.Walk root done (p :: rest)) (hf : a.Forest roots) (hchild : a.Child p q) :
    q ∉ done ++ p :: rest := by
  intro hq
  rcases h.origin q hq with rfl | ⟨p', hp', hchild'⟩
  · exact hf.acyclic _ (Relation.TransGen.tail' (h.reached p (by simp)) hchild)
  · obtain rfl := hf.child_unique hchild hchild'
    exact (List.nodup_append.1 h.nodup).2.2 p hp' p (by simp) rfl

/-- One state is visited, and the states below it are visited later. -/
theorem visit (h : a.Walk root done (q :: rest)) (hf : a.Forest roots) {next : List Nat}
    (hnext : next.Perm (a.state q).transitions.dests) : a.Walk root (q :: done) (next ++ rest) := by
  have hmem : ∀ x, x ∈ next ↔ a.Child q x := by
    intro x
    rw [hnext.mem_iff, mem_dests_iff]
  have hperm : (q :: done ++ (next ++ rest)).Perm (next ++ (done ++ q :: rest)) := by
    have h1 : (next ++ (done ++ q :: rest)).Perm ((done ++ q :: rest) ++ next) :=
      List.perm_append_comm
    have h2 : (done ++ q :: rest).Perm (q :: (done ++ rest)) := List.perm_middle
    have h3 : (next ++ rest).Perm (rest ++ next) := List.perm_append_comm
    refine ((List.Perm.append_left (q :: done) h3).trans ?_).trans h1.symm
    simpa using h2.symm.append_right next
  have hiff : ∀ x, x ∈ q :: done ++ (next ++ rest) ↔ a.Child q x ∨ x ∈ done ++ q :: rest := by
    intro x
    rw [hperm.mem_iff, List.mem_append, hmem]
  refine ⟨?_, ?_, ?_, ?_, ?_⟩
  · rw [hperm.nodup_iff, List.nodup_append]
    refine ⟨hnext.nodup_iff.2 hf.nodup_dests, h.nodup, ?_⟩
    rintro x hx y hy rfl
    exact h.child_fresh hf ((hmem x).1 hx) hy
  · intro x hx
    rcases (hiff x).1 hx with hchild | hx
    · exact .inr ⟨q, by simp, hchild⟩
    · exact (h.origin x hx).imp_right fun ⟨p, hp, hchild⟩ => ⟨p, List.mem_cons_of_mem _ hp, hchild⟩
  · intro x hx
    rcases (hiff x).1 hx with hchild | hx
    · exact (h.reached q (by simp)).tail hchild
    · exact h.reached x hx
  · exact (hiff root).2 (.inr h.start)
  · intro p hp x hchild
    rcases List.mem_cons.1 hp with rfl | hp
    · exact (hiff x).2 (.inl hchild)
    · exact (hiff x).2 (.inr (h.complete p hp x hchild))

theorem length_le (h : a.Walk root done work) (hf : a.Forest roots) (hroot : root < a.size) :
    done.length + work.length ≤ a.size := by
  rw [← List.length_append]
  exact length_le_of_nodup h.nodup fun q hq => (h.reached q hq).lt hf.target_lt hroot

/-- At its end, a walk has come to the states below its start and to no others. -/
theorem mem_done_iff (h : a.Walk root done []) : q ∈ done ↔ a.Reaches root q := by
  constructor
  · exact fun hq => h.reached q (by simpa using hq)
  · intro hq
    induction hq with
    | refl => simpa using h.start
    | tail _ hchild ih => simpa using h.complete _ ih _ hchild

end Walk
end Automaton
end ByteMatch
