import ByteMatch.Automaton.Align
import ByteMatch.Proofs.Automaton.Subtree

/-!
# ByteMatch.Proofs.Automaton.Split

Splitting one transition of a tree: some bytes of its label become a transition of their own, to a
copy of the subtree below. If no byte is left then the subtree itself is erased.

* `Automaton.Forest.copy`, `Automaton.Forest.narrow`, `Automaton.Forest.attach`: the steps of a
  split, each of which keeps a forest, with other roots.
* `Automaton.Split`: what a split does to a tree. The new tree covers the old one.
* `Automaton.splitEdge_spec`: the steps together are a split.
-/

namespace ByteMatch
namespace Automaton

variable {a b : Automaton} {p q dest : Nat} {c code rest common : ByteSet} {roots : List Nat}
  {f : Nat → Nat}

/-! ## Copies in a forest -/

namespace Copying

variable {source : Nat}

theorem edge_old (h : Copying a source [] b f) (hp : p < a.size) : b.Edge p c q ↔ a.Edge p c q := by
  rw [Edge, Edge, h.old p hp]

theorem edge_new (h : Copying a source [] b f) (hp : a.size ≤ p) (hedge : b.Edge p c q) :
    a.Edge (f p) c (f q) := by
  rw [Edge, h.copied p hp (lt_of_edge hedge) (by simp)]
  exact Transitions.mem_mapDest.2 ⟨q, hedge, rfl⟩

theorem reaches_old (h : Copying a source [] b f) (hpath : a.Reaches p q) : b.Reaches p q :=
  hpath.mono_edge fun _ _ _ hedge => (h.edge_old (lt_of_edge hedge)).2 hedge

end Copying

theorem Proper.copy {source : Nat} (h : a.Proper) (hc : Copying a source [] b f) : b.Proper where
  target_lt p c q hedge := by
    by_cases hp : p < a.size
    · exact Nat.lt_trans (h.target_lt _ _ _ ((hc.edge_old hp).1 hedge)) hc.size_lt
    · exact (hc.target p c q (Nat.le_of_not_lt hp) hedge).2
  label_nonempty p c q hedge := by
    by_cases hp : p < a.size
    · exact h.label_nonempty _ _ _ ((hc.edge_old hp).1 hedge)
    · exact h.label_nonempty _ _ _ (hc.edge_new (Nat.le_of_not_lt hp) hedge)
  labels_disjoint p e he e' he' x hx hx' := by
    by_cases hp : p < a.size
    · rw [hc.old p hp] at he he'
      exact h.labels_disjoint p e he e' he' x hx hx'
    · have hp := Nat.le_of_not_lt hp
      exact h.labels_disjoint (f p) (e.1, f e.2) (hc.edge_new hp he) (e'.1, f e'.2)
        (hc.edge_new hp he') x hx hx'
  leaf_nonempty p leaf hleaf := by
    by_cases hp : p < a.size
    · rw [hc.old p hp] at hleaf
      exact h.leaf_nonempty p leaf hleaf
    by_cases hpb : p < b.size
    · refine h.leaf_nonempty (f p) leaf ?_
      rw [hc.copied p (Nat.le_of_not_lt hp) hpb (by simp)]
      exact hleaf
    · rw [state_of_ge (Nat.le_of_not_lt hpb)] at hleaf
      simp [State.hole] at hleaf

/-- A copy is one more tree of the forest. -/
theorem Forest.copy {source : Nat} (h : a.Forest roots) (hc : Copying a source [] b f) :
    b.Forest (a.size :: roots) where
  toProper := h.toProper.copy hc
  parent_unique p c p' c' q hedge hedge' := by
    by_cases hq : q < a.size
    · have hold : ∀ p c, b.Edge p c q → a.Edge p c q := by
        intro p c hedge
        by_cases hp : p < a.size
        · exact (hc.edge_old hp).1 hedge
        · have := (hc.target p c q (Nat.le_of_not_lt hp) hedge).1
          omega
      exact h.parent_unique p c p' c' q (hold p c hedge) (hold p' c' hedge')
    · exact hc.parent_unique p c p' c' q (Nat.le_of_not_lt hq) hedge hedge'
  root_orphan := by
    rintro r hr p ⟨c, hedge⟩
    by_cases hp : p < a.size
    · have hold := (hc.edge_old hp).1 hedge
      rcases List.mem_cons.1 hr with rfl | hr
      · exact Nat.lt_irrefl _ (h.target_lt _ _ _ hold)
      · exact h.root_orphan r hr p ⟨c, hold⟩
    · have hlt := (hc.target p c r (Nat.le_of_not_lt hp) hedge).1
      rcases List.mem_cons.1 hr with rfl | hr
      · exact Nat.lt_irrefl _ hlt
      · have := h.root_lt r hr
        omega
  root_lt r hr := by
    rcases List.mem_cons.1 hr with rfl | hr
    · exact hc.size_lt
    · exact Nat.lt_trans (h.root_lt r hr) hc.size_lt
  live q hq hhole := by
    by_cases hqa : q < a.size
    · rw [hc.old q hqa] at hhole
      obtain ⟨r, hr, hpath⟩ := h.live q hqa hhole
      exact ⟨r, List.mem_cons_of_mem _ hr, hc.reaches_old hpath⟩
    · exact ⟨a.size, by simp, hc.reached q (Nat.le_of_not_lt hqa) hq⟩

/-! ## Narrowing a label -/

section Narrow

theorem size_narrow : (Alignment.narrow a q code rest dest).size = a.size := by
  simp [Alignment.narrow]

theorem leaf_narrow : ((Alignment.narrow a q code rest dest).state p).leaf = (a.state p).leaf := by
  refine leaf_modify fun s => ?_
  simp only
  split <;> rfl

theorem narrow_of_ne (h : q ≠ p) : (Alignment.narrow a q code rest dest).state p = a.state p := by
  rw [Alignment.narrow, state_modify_ne h]

theorem edge_narrow (h : a.Proper) (he : a.Edge q code dest) (hsub : ∀ x, x ∈ rest → x ∈ code)
    {x : Nat} : (Alignment.narrow a q code rest dest).Edge p c x ↔
      (p = q ∧ c = rest ∧ x = dest ∧ ∃ y, y ∈ rest) ∨ (a.Edge p c x ∧ ¬ (p = q ∧ c = code)) := by
  by_cases hp : q = p
  · subst hp
    rw [Edge, Alignment.narrow, state_modify_self (lt_of_edge he)]
    by_cases hrest : rest.isEmpty = true
    · have hnone : ¬ ∃ y, y ∈ rest := not_exists.2 (ByteSet.isEmpty_iff.1 hrest)
      simp only [hrest, if_true, State.eraseTransition, Transitions.mem_erase, hnone, and_false,
        false_or, true_and, Edge, ne_eq]
    · have hsome : ∃ y, y ∈ rest := by
        rwa [Bool.not_eq_true, ByteSet.isEmpty_eq_false_iff] at hrest
      obtain ⟨y, hy⟩ := hsome
      simp only [hrest, if_false, State.eraseTransition, State.addTransition, Transitions.mem_insert,
        Transitions.mem_erase, Prod.mk.injEq, true_and, Edge, Bool.false_eq_true]
      constructor
      · rintro (⟨rfl, rfl⟩ | ⟨⟨hmem, hcode⟩, _⟩)
        · exact .inl ⟨rfl, rfl, y, hy⟩
        · exact .inr ⟨hmem, hcode⟩
      · rintro (⟨rfl, rfl, _⟩ | ⟨hmem, hcode⟩)
        · exact .inl ⟨rfl, rfl⟩
        · refine .inr ⟨⟨hmem, hcode⟩, ?_⟩
          rintro rfl
          exact hcode (h.edge_unique hmem he hy (hsub y hy)).1
  · rw [Edge, narrow_of_ne hp, Edge]
    constructor
    · exact fun h => .inr ⟨h, fun hpq => hp hpq.1.symm⟩
    · rintro (⟨rfl, _⟩ | ⟨h, _⟩)
      · exact absurd rfl hp
      · exact h

section Child

variable (h : a.Proper) (he : a.Edge q code dest) (hsub : ∀ x, x ∈ rest → x ∈ code)
include h he hsub

theorem child_of_narrow {x : Nat} (hchild : (Alignment.narrow a q code rest dest).Child p x) :
    a.Child p x := by
  obtain ⟨c, hedge⟩ := hchild
  rcases (edge_narrow h he hsub).1 hedge with ⟨rfl, rfl, rfl, _⟩ | ⟨hedge, _⟩
  · exact ⟨code, he⟩
  · exact ⟨c, hedge⟩

/-- Narrowing keeps all paths, but for those over a transition that is gone. -/
theorem reaches_narrow {r x : Nat} (hpath : a.Reaches r x) :
    (Alignment.narrow a q code rest dest).Reaches r x ∨
      (rest.isEmpty = true ∧ (Alignment.narrow a q code rest dest).Reaches dest x) := by
  induction hpath with
  | refl => exact .inl .refl
  | @tail y z _ hchild ih =>
    obtain ⟨c, hedge⟩ := hchild
    by_cases hgone : y = q ∧ c = code
    · obtain ⟨rfl, rfl⟩ := hgone
      obtain rfl : z = dest := Transitions.dest_unique hedge he
      by_cases hrest : rest.isEmpty = true
      · exact .inr ⟨hrest, .refl⟩
      · have hsome : ∃ y, y ∈ rest := by
          rwa [Bool.not_eq_true, ByteSet.isEmpty_eq_false_iff] at hrest
        have hnew : (Alignment.narrow a y c rest z).Child y z :=
          ⟨rest, (edge_narrow h he hsub).2 (.inl ⟨rfl, rfl, rfl, hsome⟩)⟩
        exact ih.imp (fun hp => hp.tail hnew) fun hp => ⟨hp.1, hp.2.tail hnew⟩
    · have hkept : (Alignment.narrow a q code rest dest).Child y z :=
        ⟨c, (edge_narrow h he hsub).2 (.inr ⟨hedge, hgone⟩)⟩
      exact ih.imp (fun hp => hp.tail hkept) fun hp => ⟨hp.1, hp.2.tail hkept⟩

theorem Proper.narrow : (Alignment.narrow a q code rest dest).Proper where
  target_lt p c x hedge := by
    obtain ⟨c', hedge'⟩ := child_of_narrow h he hsub ⟨c, hedge⟩
    rw [size_narrow]
    exact h.target_lt _ _ _ hedge'
  label_nonempty p c x hedge := by
    rcases (edge_narrow h he hsub).1 hedge with ⟨rfl, rfl, rfl, hsome⟩ | ⟨hedge, _⟩
    · exact hsome
    · exact h.label_nonempty _ _ _ hedge
  labels_disjoint := by
    rintro p ⟨c, x⟩ hc ⟨c', x'⟩ hc' y hy hy'
    rcases (edge_narrow h he hsub).1 hc with ⟨rfl, rfl, rfl, _⟩ | ⟨hedge, hne⟩
    · rcases (edge_narrow h he hsub).1 hc' with ⟨_, rfl, rfl, _⟩ | ⟨hedge', hne'⟩
      · rfl
      · exact absurd ⟨rfl, (h.edge_unique hedge' he hy' (hsub y hy)).1⟩ hne'
    · rcases (edge_narrow h he hsub).1 hc' with ⟨rfl, rfl, rfl, _⟩ | ⟨hedge', hne'⟩
      · exact absurd ⟨rfl, (h.edge_unique hedge he hy (hsub y hy')).1⟩ hne
      · exact (h.edge_unique hedge hedge' hy hy').1
  leaf_nonempty p leaf hleaf := by
    rw [leaf_narrow] at hleaf
    exact h.leaf_nonempty p leaf hleaf

end Child

variable (h : a.Forest roots) (he : a.Edge q code dest) (hsub : ∀ x, x ∈ rest → x ∈ code)
include h he hsub

theorem parent_unique_narrow {p' x : Nat} {c' : ByteSet}
    (hc : (Alignment.narrow a q code rest dest).Edge p c x)
    (hc' : (Alignment.narrow a q code rest dest).Edge p' c' x) : p = p' ∧ c = c' := by
  -- the narrowed transition stands where the one with the whole label stood
  rcases (edge_narrow h.toProper he hsub).1 hc with ⟨rfl, rfl, rfl, _⟩ | ⟨hedge, hne⟩
  · rcases (edge_narrow h.toProper he hsub).1 hc' with ⟨rfl, rfl, _, _⟩ | ⟨hedge', hne'⟩
    · exact ⟨rfl, rfl⟩
    · exact absurd (h.parent_unique _ _ _ _ _ hedge' he) hne'
  · rcases (edge_narrow h.toProper he hsub).1 hc' with ⟨rfl, rfl, rfl, _⟩ | ⟨hedge', hne'⟩
    · exact absurd (h.parent_unique _ _ _ _ _ hedge he) hne
    · exact h.parent_unique _ _ _ _ _ hedge hedge'

theorem orphan_narrow (hrest : rest.isEmpty = true) :
    ¬ (Alignment.narrow a q code rest dest).Child p dest := by
  rintro ⟨c, hedge⟩
  rcases (edge_narrow h.toProper he hsub).1 hedge with ⟨_, _, _, y, hy⟩ | ⟨hedge, hne⟩
  · exact ByteSet.isEmpty_iff.1 hrest y hy
  · exact hne (h.parent_unique _ _ _ _ _ hedge he)

/-- After narrowing, the subtree below the label is a tree of its own if no bytes are left. -/
theorem Forest.narrow : (Alignment.narrow a q code rest dest).Forest
    (if rest.isEmpty then dest :: roots else roots) where
  toProper := h.toProper.narrow he hsub
  parent_unique p c p' c' x := parent_unique_narrow h he hsub
  root_orphan r hr p hchild := by
    have hold : r ∈ roots → False := fun hr =>
      h.root_orphan r hr p (child_of_narrow h.toProper he hsub hchild)
    split at hr
    · rename_i hrest
      rcases List.mem_cons.1 hr with rfl | hr
      · exact orphan_narrow h he hsub hrest hchild
      · exact hold hr
    · exact hold hr
  root_lt r hr := by
    rw [size_narrow]
    split at hr
    · rcases List.mem_cons.1 hr with rfl | hr
      · exact h.target_lt _ _ _ he
      · exact h.root_lt r hr
    · exact h.root_lt r hr
  live x hx hhole := by
    rw [size_narrow] at hx
    have hhole' : (a.state x).isHole = false := by
      by_cases hqx : q = x
      · exact hqx ▸ not_isHole_of_edge he
      · rwa [narrow_of_ne hqx] at hhole
    obtain ⟨r, hr, hpath⟩ := h.live x hx hhole'
    rcases reaches_narrow h.toProper he hsub hpath with hpath | ⟨hrest, hpath⟩
    · refine ⟨r, ?_, hpath⟩
      split
      · exact List.mem_cons_of_mem _ hr
      · exact hr
    · exact ⟨dest, by simp [hrest], hpath⟩

end Narrow

/-! ## Attaching a tree -/

theorem edge_attach {n : Nat} (hq : q < a.size) (hcommon : ∃ x, x ∈ common)
    (hdisj : ∀ c x, a.Edge q c x → ∀ y, y ∈ common → y ∉ c) {x : Nat} :
    Edge (a.modify q (·.addTransition common n)) p c x ↔
      (p = q ∧ c = common ∧ x = n) ∨ a.Edge p c x := by
  rw [edge_addTransition hq]
  refine or_congr_right (and_iff_left_of_imp fun he heq => ?_)
  obtain ⟨rfl, rfl⟩ := heq
  obtain ⟨y, hy⟩ := hcommon
  exact hdisj c x he y hy hy

theorem Proper.attach {n : Nat} (h : a.Proper) (hq : q < a.size) (hn : n < a.size)
    (hcommon : ∃ x, x ∈ common) (hdisj : ∀ c x, a.Edge q c x → ∀ y, y ∈ common → y ∉ c) :
    Proper (a.modify q (·.addTransition common n)) where
  target_lt p c x he := by
    rw [Array.size_modify]
    rcases (edge_attach hq hcommon hdisj).1 he with ⟨_, _, rfl⟩ | he
    · exact hn
    · exact h.target_lt _ _ _ he
  label_nonempty p c x he := by
    rcases (edge_attach hq hcommon hdisj).1 he with ⟨_, rfl, _⟩ | he
    · exact hcommon
    · exact h.label_nonempty _ _ _ he
  labels_disjoint := by
    rintro p ⟨c, x⟩ hc ⟨c', x'⟩ hc' y hy hy'
    rcases (edge_attach hq hcommon hdisj).1 hc with ⟨rfl, rfl, rfl⟩ | he
    · rcases (edge_attach hq hcommon hdisj).1 hc' with ⟨_, rfl, rfl⟩ | he'
      · rfl
      · exact absurd hy' (hdisj _ _ he' y hy)
    · rcases (edge_attach hq hcommon hdisj).1 hc' with ⟨rfl, rfl, rfl⟩ | he'
      · exact absurd hy (hdisj _ _ he y hy')
      · exact (h.edge_unique he he' hy hy').1
  leaf_nonempty p leaf hl := by
    rw [leaf_addTransition] at hl
    exact h.leaf_nonempty p leaf hl

/-- A tree of a forest is attached to a state of another one with a new label. -/
theorem Forest.attach {n : Nat} (h : a.Forest (n :: roots)) (hn : n ∉ roots)
    (hq : ∃ r ∈ roots, a.Reaches r q) (hcommon : ∃ x, x ∈ common)
    (hdisj : ∀ c x, a.Edge q c x → ∀ y, y ∈ common → y ∉ c) :
    Forest (a.modify q (·.addTransition common n)) roots := by
  obtain ⟨r₀, hr₀, hpath₀⟩ := hq
  have hqlt : q < a.size := hpath₀.lt h.target_lt (h.root_lt r₀ (List.mem_cons_of_mem _ hr₀))
  have hedge : ∀ {p c x}, Edge (a.modify q (·.addTransition common n)) p c x ↔
      (p = q ∧ c = common ∧ x = n) ∨ a.Edge p c x := edge_attach hqlt hcommon hdisj
  have hreach : ∀ {x y}, a.Reaches x y → Reaches (a.modify q (·.addTransition common n)) x y :=
    Reaches.mono_edge fun _ _ _ he => hedge.2 (.inr he)
  exact
    { toProper := h.toProper.attach hqlt (h.root_lt n (by simp)) hcommon hdisj
      parent_unique := by
        have horphan : ∀ p c, ¬ a.Edge p c n := fun p c he => h.root_orphan n (by simp) p ⟨c, he⟩
        intro p c p' c' x hc hc'
        rcases hedge.1 hc with ⟨rfl, rfl, rfl⟩ | he
        · rcases hedge.1 hc' with ⟨rfl, rfl, _⟩ | he'
          · exact ⟨rfl, rfl⟩
          · exact absurd he' (horphan _ _)
        · rcases hedge.1 hc' with ⟨rfl, rfl, rfl⟩ | he'
          · exact absurd he (horphan _ _)
          · exact h.parent_unique _ _ _ _ _ he he'
      root_orphan := by
        rintro r hr p ⟨c, he⟩
        rcases hedge.1 he with ⟨_, _, rfl⟩ | he
        · exact hn hr
        · exact h.root_orphan r (List.mem_cons_of_mem _ hr) p ⟨c, he⟩
      root_lt := by
        intro r hr
        rw [Array.size_modify]
        exact h.root_lt r (List.mem_cons_of_mem _ hr)
      live := by
        intro x hx hhole
        rw [Array.size_modify] at hx
        have hnew : Child (a.modify q (·.addTransition common n)) q n :=
          ⟨common, hedge.2 (.inl ⟨rfl, rfl, rfl⟩)⟩
        by_cases hqx : q = x
        · exact ⟨r₀, hr₀, hqx ▸ hreach hpath₀⟩
        · rw [state_modify_ne hqx] at hhole
          obtain ⟨r, hr, hpath⟩ := h.live x hx hhole
          rcases List.mem_cons.1 hr with rfl | hr
          · exact ⟨r₀, hr₀, ((hreach hpath₀).tail hnew).trans (hreach hpath)⟩
          · exact ⟨r, hr, hreach hpath⟩ }

/-! ## The copy below its new label -/

/-- Gives the bytes of `common` a transition of their own, and leaves the rest of them to the old
transition. -/
def branch (a : Automaton) (q : Nat) (code common : ByteSet) (dest : Nat) : Automaton :=
  Alignment.branchOff (Alignment.narrow a q code (code \ common) dest) q common dest

/-- What branching does to a tree. The new tree covers the old one. The subtree below `dest` is a
tree of its own if the whole label has moved. -/
structure Branched (a : Automaton) (q : Nat) (code common : ByteSet) (dest : Nat) (b : Automaton) :
    Prop where
  forest : b.Forest (if (code \ common).isEmpty then [dest, 0] else [0])
  size_lt : a.size < b.size
  cover : ∃ f, (∀ p, p < a.size → f p = p) ∧ Covers f b a (· < b.size)
  edge_here : ∀ c x, b.Edge q c x ↔ (c = common ∧ x = a.size) ∨
    (c = code \ common ∧ x = dest ∧ ∃ y, y ∈ code \ common) ∨ (a.Edge q c x ∧ c ≠ code)
  kept : ∀ p, p < a.size → p ≠ q → b.state p = a.state p
  reached : ∀ p, a.Reaches 0 p → ((code \ common).isEmpty = true → ¬ a.Reaches dest p) →
    b.Reaches 0 p
  fresh : ∀ p, a.size ≤ p → p < b.size → b.Reaches 0 p

section Branch

variable (h : a.Forest [0]) (he : a.Edge q code dest)
include h he

theorem not_reaches_up : ¬ a.Reaches dest q := fun hpath =>
  h.acyclic q (Relation.TransGen.head' ⟨code, he⟩ hpath)

theorem reaches_of_edge : a.Reaches 0 q := by
  obtain ⟨r, hr, hpath⟩ := h.live q (lt_of_edge he) (not_isHole_of_edge he)
  rwa [List.mem_singleton.1 hr] at hpath

theorem reaches_narrow_self (hsub : ∀ x, x ∈ rest → x ∈ code) :
    (Alignment.narrow a q code rest dest).Reaches 0 q := by
  rcases reaches_narrow h.toProper he hsub (reaches_of_edge h he) with hpath | ⟨_, hpath⟩
  · exact hpath
  · exact absurd (hpath.mono fun _ _ => child_of_narrow h.toProper he hsub) (not_reaches_up h he)

variable (hsub : ∀ x, x ∈ common → x ∈ code) (hcommon : ∃ x, x ∈ common)
include hsub hcommon

section Copied

variable {n m : Automaton} (hn : n = Alignment.narrow a q code (code \ common) dest)
  (hcopy : Copying n dest [] m f)
include hn hcopy

omit h he hsub hcommon hcopy in
theorem size_narrowed : n.size = a.size := by rw [hn, size_narrow]

omit hsub hcommon hcopy in
theorem edge_narrowed {x : Nat} : n.Edge p c x ↔ (p = q ∧ c = code \ common ∧ x = dest ∧
    ∃ y, y ∈ code \ common) ∨ (a.Edge p c x ∧ ¬ (p = q ∧ c = code)) := by
  rw [hn]
  exact edge_narrow h.toProper he fun x hx => (ByteSet.mem_sdiff.1 hx).1

omit hsub hcommon hcopy in
theorem child_narrowed {x y : Nat} (hchild : n.Child x y) : a.Child x y := by
  rw [hn] at hchild
  exact child_of_narrow h.toProper he (fun x hx => (ByteSet.mem_sdiff.1 hx).1) hchild

omit hcommon in
theorem copied_disjoint {x : Nat} (hedge : m.Edge q c x) {y : UInt8} (hy : y ∈ common) : y ∉ c := by
  intro hyc
  have hlt : q < n.size := by
    rw [size_narrowed hn]
    exact lt_of_edge he
  rw [hcopy.edge_old hlt, edge_narrowed h he hn] at hedge
  rcases hedge with ⟨_, rfl, _⟩ | ⟨hedge, hne⟩
  · exact (ByteSet.mem_sdiff.1 hyc).2 hy
  · exact hne ⟨rfl, (h.edge_unique hedge he hyc (hsub y hy)).1⟩

theorem edge_attached {x : Nat} : Edge (m.modify q (·.addTransition common n.size)) p c x ↔
    (p = q ∧ c = common ∧ x = n.size) ∨ m.Edge p c x := by
  have hlt := lt_of_edge he
  have hsize := size_narrowed hn
  have hgrow := hcopy.size_lt
  exact edge_attach (by omega) hcommon fun c x hedge y => copied_disjoint h he hsub hn hcopy hedge

theorem edge_attached_self {x : Nat} : Edge (m.modify q (·.addTransition common n.size)) q c x ↔
    (c = common ∧ x = a.size) ∨ (c = code \ common ∧ x = dest ∧ ∃ y, y ∈ code \ common) ∨
      (a.Edge q c x ∧ c ≠ code) := by
  have hlt : q < n.size := by
    rw [size_narrowed hn]
    exact lt_of_edge he
  rw [edge_attached h he hsub hcommon hn hcopy, hcopy.edge_old hlt, edge_narrowed h he hn,
    size_narrowed hn]
  simp only [true_and]

omit hsub hcommon in
theorem reaches_copied : m.Reaches 0 q := by
  refine hcopy.reaches_old ?_
  rw [hn]
  exact reaches_narrow_self h he fun x hx => (ByteSet.mem_sdiff.1 hx).1

theorem forest_attached : Forest (m.modify q (·.addTransition common n.size))
    (if (code \ common).isEmpty then [dest, 0] else [0]) := by
  have hforest : n.Forest (if (code \ common).isEmpty then [dest, 0] else [0]) := by
    rw [hn]
    exact h.narrow he fun x hx => (ByteSet.mem_sdiff.1 hx).1
  have hroots : n.size ∉ if (code \ common).isEmpty then [dest, 0] else [0] :=
    fun hmem => Nat.lt_irrefl _ (hforest.root_lt _ hmem)
  have hzero : 0 ∈ if (code \ common).isEmpty then [dest, 0] else [0] := by
    split <;> simp
  exact (hforest.copy hcopy).attach hroots ⟨0, hzero, reaches_copied h he hn hcopy⟩ hcommon
    fun c x hedge y => copied_disjoint h he hsub hn hcopy hedge

omit h he hsub hcommon in
theorem state_attached_ne (hp : p < a.size) (hne : p ≠ q) :
    state (m.modify q (·.addTransition common n.size)) p = a.state p := by
  have hlt : p < n.size := by rwa [size_narrowed hn]
  rw [state_modify_ne hne.symm, hcopy.old p hlt, hn, narrow_of_ne hne.symm]

omit hsub hcommon in
/-- Away from `q`, states correspond label by label. -/
theorem mapDest_attached (hp : p < (m.modify q (·.addTransition common n.size)).size) (hne : p ≠ q) :
    a.state (f p) = (state (m.modify q (·.addTransition common n.size)) p).mapDest f := by
  have hsize := size_narrowed hn
  by_cases hpa : p < a.size
  · have hmap : ∀ x, x < a.size → f x = x := fun x hx => hcopy.map_old x (by omega)
    rw [state_attached_ne hn hcopy hpa hne, hmap p hpa, State.mapDest,
      Transitions.mapDest_eq_self fun c d hmem => hmap d (h.target_lt p c d hmem)]
  · rw [Array.size_modify] at hp
    have hbelow : a.Reaches dest (f p) := (hcopy.below p (by omega) hp).mono fun x y =>
      child_narrowed h he hn
    have hne' : f p ≠ q := fun heq => not_reaches_up h he (heq ▸ hbelow)
    have hcopied := hcopy.copied p (by omega) hp (by simp)
    rw [state_modify_ne hne.symm, ← hcopied, hn, narrow_of_ne hne'.symm]

/-- At `q`, some bytes lead to the copy now. -/
theorem step?_attached {x : UInt8} : (a.state q).transitions.step? x =
    ((state (m.modify q (·.addTransition common n.size)) q).transitions.step? x).map f := by
  have hsize := size_narrowed hn
  have hhere : ∀ c d, Edge (m.modify q (·.addTransition common n.size)) q c d ↔ _ := fun c d =>
    edge_attached_self h he hsub hcommon hn hcopy
  have hmap : ∀ c d, a.Edge q c d → f d = d := fun c d hedge =>
    hcopy.map_old d (hsize ▸ h.target_lt q c d hedge)
  cases hx : (state (m.modify q (·.addTransition common n.size)) q).transitions.step? x with
  | none =>
    rw [Transitions.step?_eq_none_iff] at hx
    refine Transitions.step?_eq_none_iff.2 fun c d hmem hxc => ?_
    by_cases hc : c = code
    · subst hc
      by_cases hxcommon : x ∈ common
      · exact hx _ _ ((hhere _ _).2 (.inl ⟨rfl, rfl⟩)) hxcommon
      · have hxrest := ByteSet.mem_sdiff.2 ⟨hxc, hxcommon⟩
        exact hx _ _ ((hhere _ _).2 (.inr (.inl ⟨rfl, rfl, x, hxrest⟩))) hxrest
    · exact hx c d ((hhere _ _).2 (.inr (.inr ⟨hmem, hc⟩))) hxc
  | some d =>
    obtain ⟨c, hxc, hmem⟩ := Transitions.exists_of_step? hx
    refine h.step?_iff.2 ?_
    rcases (hhere c d).1 hmem with ⟨rfl, rfl⟩ | ⟨rfl, rfl, _⟩ | ⟨hedge, _⟩
    · have hroot : f a.size = dest := by rw [← hsize, hcopy.root]
      exact ⟨code, hsub x hxc, hroot ▸ he⟩
    · exact ⟨code, (ByteSet.mem_sdiff.1 hxc).1, (hmap _ _ he).symm ▸ he⟩
    · exact ⟨c, hxc, (hmap _ _ hedge).symm ▸ hedge⟩

theorem covers_attached : Covers f (m.modify q (·.addTransition common n.size)) a
    (· < (m.modify q (·.addTransition common n.size)).size) := by
  have hsize := size_narrowed hn
  have hgrow := hcopy.size_lt
  have hlt := lt_of_edge he
  have hmap : f q = q := hcopy.map_old q (by omega)
  refine ⟨fun p hp => ?_, fun p hp x => ?_, fun p c x _ => ?_⟩
  · by_cases hpq : p = q
    · subst hpq
      rw [hmap, state_modify_self (by omega)]
      show (m.state p).leaf = _
      rw [hcopy.old p (by omega), hn, leaf_narrow]
    · rw [mapDest_attached h he hn hcopy hp hpq]
      rfl
  · by_cases hpq : p = q
    · subst hpq
      rw [hmap, step?_attached h he hsub hcommon hn hcopy]
    · rw [mapDest_attached h he hn hcopy hp hpq]
      exact Transitions.step?_mapDest
  · exact (forest_attached h he hsub hcommon hn hcopy).target_lt p c x

/-- The label is narrowed to `n`, the subtree copied to `m`, and the copy attached. -/
theorem Branched.of_copy :
    Branched a q code common dest (m.modify q (·.addTransition common n.size)) := by
  have hsize := size_narrowed hn
  have hgrow := hcopy.size_lt
  have hgrown : ∀ {x y}, m.Reaches x y → Reaches (m.modify q (·.addTransition common n.size)) x y :=
    Reaches.mono_edge fun _ _ _ hedge =>
      (edge_attached h he hsub hcommon hn hcopy).2 (.inr hedge)
  refine
    { forest := forest_attached h he hsub hcommon hn hcopy
      size_lt := by
        rw [Array.size_modify]
        omega
      cover := ⟨f, fun p hp => hcopy.map_old p (by omega), covers_attached h he hsub hcommon hn hcopy⟩
      edge_here := fun c x => edge_attached_self h he hsub hcommon hn hcopy
      kept := fun p => state_attached_ne hn hcopy
      reached := fun p hp hgone => hgrown (hcopy.reaches_old ?_)
      fresh := fun p hp hp' => ?_ }
  · rw [hn]
    rcases reaches_narrow h.toProper he (fun x hx => (ByteSet.mem_sdiff.1 hx).1) hp with
      hpath | ⟨hempty, hpath⟩
    · exact hpath
    · rw [← hn] at hpath
      exact absurd (hpath.mono fun _ _ => child_narrowed h he hn) (hgone hempty)
  · rw [Array.size_modify] at hp'
    have hnew : Child (m.modify q (·.addTransition common n.size)) q n.size :=
      ⟨common, (edge_attached h he hsub hcommon hn hcopy).2 (.inl ⟨rfl, rfl, rfl⟩)⟩
    exact ((hgrown (reaches_copied h he hn hcopy)).tail hnew).trans
      (hgrown (hcopy.reached p (by omega) hp'))

end Copied

/-- The copy that branching makes ends, and the result is as it should be. -/
theorem branch_spec :
    Loop.Ends copyStep ((Alignment.narrow a q code (code \ common) dest).copyStart dest)
      ([], (Alignment.narrow a q code (code \ common) dest).copySubtree dest) ∧
    Branched a q code common dest (a.branch q code common dest) := by
  have hrest : ∀ x, x ∈ code \ common → x ∈ code := fun x hx => (ByteSet.mem_sdiff.1 hx).1
  have hnarrow := h.narrow he hrest
  have hdest : dest < (Alignment.narrow a q code (code \ common) dest).size := by
    rw [size_narrow]
    exact h.target_lt _ _ _ he
  obtain ⟨hends, f, hcopy⟩ := copySubtree_spec hnarrow hdest
  exact ⟨hends, .of_copy h he hsub hcommon rfl hcopy⟩

end Branch

/-! ## The whole split -/

/-- Moves the bytes of `common` from the label `code` of state `q` to a transition of their own. -/
def splitEdge (a : Automaton) (q : Nat) (code common : ByteSet) (dest : Nat) : Automaton :=
  if (code \ common).isEmpty then (a.branch q code common dest).eraseSubtree dest
  else a.branch q code common dest

/-- What the split of a transition does to a tree. The new tree covers the old one. States stay as
they are, but for `q` and, if the whole label has moved, for those below `dest`. -/
structure Split (a : Automaton) (q : Nat) (code common : ByteSet) (dest : Nat) (b : Automaton) :
    Prop where
  forest : b.Forest [0]
  size_lt : a.size < b.size
  cover : ∃ f, (∀ p, p < a.size → f p = p) ∧ Covers f b a (b.Reaches 0)
  edge_here : ∀ c x, b.Edge q c x ↔ (c = common ∧ x = a.size) ∨
    (c = code \ common ∧ x = dest ∧ ∃ y, y ∈ code \ common) ∨ (a.Edge q c x ∧ c ≠ code)
  kept : ∀ p, p < a.size → p ≠ q → ((code \ common).isEmpty = true → ¬ a.Reaches dest p) →
    b.state p = a.state p
  reached : ∀ p, a.Reaches 0 p → ((code \ common).isEmpty = true → ¬ a.Reaches dest p) →
    b.Reaches 0 p
  fresh : ∀ p, a.size ≤ p → p < b.size → b.Reaches 0 p

/-- What branching leaves below `dest` was there before. -/
theorem Branched.reaches_dest (hb : Branched a q code common dest b) (h : a.Forest [0])
    (he : a.Edge q code dest) (hpath : b.Reaches dest p) : p < a.size ∧ a.Reaches dest p := by
  induction hpath with
  | refl => exact ⟨h.target_lt _ _ _ he, .refl⟩
  | @tail x y _ hchild ih =>
    obtain ⟨hx, hpath⟩ := ih
    obtain ⟨c, hedge⟩ := hchild
    have hne : x ≠ q := fun heq => not_reaches_up h he (heq ▸ hpath)
    rw [Edge, hb.kept x hx hne] at hedge
    exact ⟨h.target_lt _ _ _ hedge, hpath.tail ⟨c, hedge⟩⟩

/-- If a part of the label is left then branching is all that a split does. -/
theorem Branched.split (hb : Branched a q code common dest b)
    (hrest : ¬ (code \ common).isEmpty = true) : Split a q code common dest b := by
  have hforest := hb.forest
  rw [if_neg hrest] at hforest
  have hlt : ∀ p, b.Reaches 0 p → p < b.size :=
    fun p hp => hp.lt hforest.target_lt (hforest.root_lt 0 (by simp))
  obtain ⟨f, hmap, hcover⟩ := hb.cover
  exact
    { forest := hforest
      size_lt := hb.size_lt
      cover := ⟨f, hmap, fun p hp => hcover.leaf p (hlt p hp), fun p hp => hcover.step p (hlt p hp),
        fun p c x hp hedge => hp.tail ⟨c, hedge⟩⟩
      edge_here := hb.edge_here
      kept := fun p hp hne _ => hb.kept p hp hne
      reached := hb.reached
      fresh := hb.fresh }

theorem Branched.reaches_here (hb : Branched a q code common dest b) (h : a.Forest [0])
    (he : a.Edge q code dest) : b.Reaches 0 q :=
  hb.reached q (reaches_of_edge h he) fun _ => not_reaches_up h he

section Erase

variable (h : a.Forest [0]) (he : a.Edge q code dest) (hb : Branched a q code common dest b)
  (hrest : (code \ common).isEmpty = true)
include h he hb hrest

theorem Branched.forest_of_isEmpty : b.Forest [dest, 0] ∧ dest ∉ [0] := by
  have hforest := hb.forest
  rw [if_pos hrest] at hforest
  refine ⟨hforest, ?_⟩
  rw [List.mem_singleton]
  rintro rfl
  exact h.root_orphan 0 (by simp) q ⟨code, he⟩

theorem Branched.reaches_erase (hpath : b.Reaches 0 p) :
    (b.eraseSubtree dest).state p = b.state p ∧ (b.eraseSubtree dest).Reaches 0 p := by
  obtain ⟨hforest, hdest⟩ := hb.forest_of_isEmpty h he hrest
  exact hforest.reaches_erase hdest (by simp) hpath

theorem Branched.reaches_of_erase (hpath : (b.eraseSubtree dest).Reaches 0 p) : b.Reaches 0 p := by
  induction hpath with
  | refl => exact .refl
  | tail _ hchild ih =>
    obtain ⟨c, hedge⟩ := hchild
    rw [Edge, (hb.reaches_erase h he hrest ih).1] at hedge
    exact ih.tail ⟨c, hedge⟩

/-- If the whole label has moved then the subtree that it led to is erased. -/
theorem Branched.split_erase : Split a q code common dest (b.eraseSubtree dest) := by
  obtain ⟨hforest, hdest⟩ := hb.forest_of_isEmpty h he hrest
  obtain ⟨-, hsize, -, hkept⟩ := eraseSubtree_spec hforest (hforest.root_lt dest (by simp))
  have hstay : ∀ {p}, b.Reaches 0 p → (b.eraseSubtree dest).state p = b.state p ∧
      (b.eraseSubtree dest).Reaches 0 p := hb.reaches_erase h he hrest
  have hback : ∀ {p}, (b.eraseSubtree dest).Reaches 0 p → b.Reaches 0 p ∧ p < b.size := by
    intro p hp
    have hp := hb.reaches_of_erase h he hrest hp
    exact ⟨hp, hp.lt hforest.target_lt (hforest.root_lt 0 (by simp))⟩
  refine
    { forest := hforest.erase hdest
      size_lt := by
        rw [hsize]
        exact hb.size_lt
      cover := ?_
      edge_here := fun c x => by
        rw [Edge, (hstay (hb.reaches_here h he)).1]
        exact hb.edge_here c x
      kept := fun p hp hne hgone => by
        rw [hkept p fun hpath => hgone hrest (hb.reaches_dest h he hpath).2]
        exact hb.kept p hp hne
      reached := fun p hp hgone => (hstay (hb.reached p hp hgone)).2
      fresh := fun p hp hp' => by
        rw [hsize] at hp'
        exact (hstay (hb.fresh p hp hp')).2 }
  obtain ⟨f, hmap, hcover⟩ := hb.cover
  refine ⟨f, hmap, fun p hp => ?_, fun p hp x => ?_, fun p c x hp hedge => hp.tail ⟨c, hedge⟩⟩
  · rw [(hstay (hback hp).1).1]
    exact hcover.leaf p (hback hp).2
  · rw [(hstay (hback hp).1).1]
    exact hcover.step p (hback hp).2 x

end Erase

theorem splitEdge_spec (h : a.Forest [0]) (he : a.Edge q code dest)
    (hsub : ∀ x, x ∈ common → x ∈ code) (hcommon : ∃ x, x ∈ common) :
    Split a q code common dest (a.splitEdge q code common dest) ∧
      ((code \ common).isEmpty = true → Loop.Ends eraseStep ([dest], a.branch q code common dest)
        ([], (a.branch q code common dest).eraseSubtree dest)) ∧
      (a.splitEdge q code common dest).state a.size =
        (a.branch q code common dest).state a.size := by
  obtain ⟨-, hb⟩ := branch_spec h he hsub hcommon
  rw [splitEdge]
  by_cases hrest : (code \ common).isEmpty = true
  · obtain ⟨hforest, -⟩ := hb.forest_of_isEmpty h he hrest
    have hnew : (a.branch q code common dest).Child q a.size :=
      ⟨common, (hb.edge_here _ _).2 (.inl ⟨rfl, rfl⟩)⟩
    rw [if_pos hrest]
    exact ⟨hb.split_erase h he hrest,
      fun _ => (eraseSubtree_spec hforest (hforest.root_lt dest (by simp))).1,
      (hb.reaches_erase h he hrest ((hb.reaches_here h he).tail hnew)).1⟩
  · rw [if_neg hrest]
    exact ⟨hb.split hrest, fun hempty => absurd hempty hrest, rfl⟩

end Automaton
end ByteMatch
