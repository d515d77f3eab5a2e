import ByteMatch.Proofs.Automaton.Compact
import ByteMatch.Proofs.Automaton.EmptyLeaves

/-!
# ByteMatch.Proofs.Automaton.Trim

Removing the states of a tree from which no leaf can be reached.

* `Automaton.ParentTable`, `Automaton.parents_spec`: the table of parents.
* `Automaton.Trimming`: what holds while a tree is trimmed. Transitions are lost only to states that
  accept nothing.
* `Automaton.TrimmedBelow.climb`: a step upwards. The states that have been looked at stay without
  transitions to holes, but for the one where the walk has got to.
* `Automaton.ClimbLoop`, `Automaton.trimFrom_spec`: the walk upwards from one state ends.
* `Automaton.TrimLoop`, `Automaton.trim_spec`: all walks upwards end, and afterwards no transition leads to a
  hole.
* `Automaton.trim_exact`: what is accepted is kept, and each transition that is left leads to a leaf.
* `Automaton.accepts_compact_trim`: trimming and compacting keep what is accepted.
-/

namespace ByteMatch
namespace Automaton

variable {tree a : Automaton} {p q n : Nat} {c : ByteSet} {w : List UInt8}

/-! ## Parents -/

/-- The entries of a table of parents are right, and all but those of the transitions in `missing` are
there. -/
structure ParentTable (tree : Automaton) (missing : Nat → ByteSet → Nat → Prop)
    (ps : Array (Option (Nat × ByteSet))) : Prop where
  size : ps.size = tree.size
  sound : ∀ q p c, ps.getD q none = some (p, c) → tree.Edge p c q
  complete : ∀ p c q, tree.Edge p c q → missing p c q ∨ ps.getD q none = some (p, c)

theorem ParentTable.set {missing missing' : Nat → ByteSet → Nat → Prop}
    {ps : Array (Option (Nat × ByteSet))} (h : ParentTable tree missing ps) (ht : tree.TreeWithHoles)
    (he : tree.Edge p c q) (hmissing : ∀ p' c' q', q' ≠ q → missing p' c' q' → missing' p' c' q') :
    ParentTable tree missing' (ps.setIfInBounds q (some (p, c))) := by
  have hq : q < ps.size := by
    rw [h.size]
    exact ht.target_lt _ _ _ he
  have hget : ∀ x, (ps.setIfInBounds q (some (p, c))).getD x none =
      if x = q then some (p, c) else ps.getD x none := by
    intro x
    rw [Array.getD_eq_getD_getElem?, Array.getD_eq_getD_getElem?, Array.getElem?_setIfInBounds]
    by_cases hx : x = q
    · subst hx
      simp [hq]
    · rw [if_neg (Ne.symm hx), if_neg hx]
  refine ⟨by rw [Array.size_setIfInBounds, h.size], ?_, ?_⟩
  · intro x p' c' hx
    rw [hget] at hx
    split at hx
    · rename_i heq
      cases hx
      exact heq ▸ he
    · exact h.sound x p' c' hx
  · intro p' c' x he'
    rw [hget]
    by_cases hx : x = q
    · subst hx
      obtain ⟨rfl, rfl⟩ := ht.parent_unique he he'
      exact .inr (if_pos rfl)
    · rw [if_neg hx]
      exact (h.complete p' c' x he').imp_left (hmissing p' c' x hx)

/-- The table has the entries for the transitions of the states below `i`. -/
def ParentsBelow (tree : Automaton) (i : Nat) (ps : Array (Option (Nat × ByteSet))) : Prop :=
  ParentTable tree (fun p _ _ => i ≤ p) ps

/-- The table while the transitions of state `i` are entered: those in `es` are left. -/
structure ParentRow (tree : Automaton) (i : Nat) (ps : Array (Option (Nat × ByteSet)))
    (es : List (ByteSet × Nat)) : Prop where
  edges : ∀ e ∈ es, tree.Edge i e.1 e.2
  table : ParentTable tree (fun p c q => i + 1 ≤ p ∨ (p = i ∧ (c, q) ∈ es)) ps

section Rows

variable {i : Nat} {ps : Array (Option (Nat × ByteSet))}

theorem ParentsBelow.start : ParentsBelow tree 0 (Array.replicate tree.size none) := by
  refine ⟨by simp, fun q p c hq => ?_, fun p c q _ => .inl (Nat.zero_le p)⟩
  rw [Array.getD_eq_getD_getElem?, Array.getElem?_replicate] at hq
  split at hq <;> simp at hq

theorem ParentRow.start (h : ParentsBelow tree i ps) :
    ParentRow tree i ps (tree.state i).transitions.entries := by
  refine ⟨fun e he => he, h.size, h.sound, fun p c q he => ?_⟩
  refine (h.complete p c q he).imp_left fun hp => ?_
  rcases Nat.lt_or_eq_of_le hp with hp | rfl
  · exact .inl hp
  · exact .inr ⟨rfl, he⟩

theorem ParentRow.step (ht : tree.TreeWithHoles) {e : ByteSet × Nat} {es : List (ByteSet × Nat)}
    (h : ParentRow tree i ps (e :: es)) :
    ParentRow tree i (ps.setIfInBounds e.2 (some (i, e.1))) es where
  edges x hx := h.edges x (List.mem_cons_of_mem _ hx)
  table := by
    refine h.table.set ht (h.edges e List.mem_cons_self) fun p c q hne hmissing => ?_
    refine hmissing.imp_right fun ⟨hp, hmem⟩ => ⟨hp, (List.mem_cons.1 hmem).resolve_left fun heq => ?_⟩
    exact hne (by rw [← heq])

theorem ParentsBelow.step (ht : tree.TreeWithHoles) (h : ParentsBelow tree i ps) :
    ParentsBelow tree (i + 1) ((tree.state i).transitions.entries.foldl
      (fun ps e => ps.setIfInBounds e.2 (some (i, e.1))) ps) := by
  have hrow := Loop.foldl_spec (ParentRow tree i) (fun _ _ _ hrow => hrow.step ht) (ParentRow.start h)
  exact ⟨hrow.table.size, hrow.table.sound, fun p c q he =>
    (hrow.table.complete p c q he).imp_left fun hmissing => hmissing.resolve_right (by simp)⟩

end Rows

theorem parents_spec (ht : tree.TreeWithHoles) :
    tree.parents.getD q none = some (p, c) ↔ tree.Edge p c q := by
  have h : ParentsBelow tree tree.size tree.parents :=
    foldl_states (ParentsBelow tree) (fun _ _ _ h => h.step ht) .start
  exact ⟨h.sound q p c, fun he =>
    (h.complete p c q he).resolve_left (Nat.not_le_of_lt (lt_of_edge he))⟩

/-! ## The invariant -/

/-- A tree that has lost transitions, all of them to states that are holes. -/
structure Trimming (tree a : Automaton) : Prop where
  size : a.size = tree.size
  leaf : ∀ q, (a.state q).leaf = (tree.state q).leaf
  edge : ∀ p c q, a.Edge p c q → tree.Edge p c q
  lost : ∀ p c q, tree.Edge p c q → a.Edge p c q ∨ (a.state q).isHole = true

theorem Trimming.acceptsFrom_eq (h : Trimming tree a) (ht : tree.TreeWithHoles) :
    a.acceptsFrom q w = tree.acceptsFrom q w := by
  have hdisj : ∀ q, (a.state q).transitions.Disjoint := fun q e he e' he' x hx hx' =>
    ht.labels_disjoint q e (h.edge _ _ _ he) e' (h.edge _ _ _ he') x hx hx'
  induction w generalizing q with
  | nil => rw [acceptsFrom, acceptsFrom]
  | cons x w ih =>
    cases w with
    | nil => rw [acceptsFrom_singleton, acceptsFrom_singleton, State.completes, State.completes,
        h.leaf]
    | cons y w =>
      rw [acceptsFrom_cons (by simp), acceptsFrom_cons (by simp)]
      cases hstep : (tree.state q).transitions.step? x with
      | none =>
        have hnone : (a.state q).transitions.step? x = none :=
          Transitions.step?_eq_none_iff.2 fun c d he hx =>
            Transitions.step?_eq_none_iff.1 hstep c d (h.edge _ _ _ he) hx
        rw [hnone]
      | some next =>
        obtain ⟨c, hx, he⟩ := Transitions.exists_of_step? hstep
        rcases h.lost q c next he with he' | hnext
        · rw [(Transitions.step?_eq_some_iff (hdisj q)).2 ⟨c, hx, he'⟩]
          exact ih
        · -- nothing is accepted from a state that has become a hole
          have hnothing : tree.acceptsFrom next (y :: w) = false := by
            rw [← ih, acceptsFrom_of_isHole hnext]
          cases hstep' : (a.state q).transitions.step? x with
          | none => exact hnothing.symm
          | some next' =>
            obtain ⟨c', hx', he'⟩ := Transitions.exists_of_step? hstep'
            have hsame := (Transitions.step?_eq_some_iff (ht.labels_disjoint q)).2
              ⟨c', hx', h.edge _ _ _ he'⟩
            obtain rfl : next = next' := Option.some.inj (hstep.symm.trans hsame)
            exact ih

/-- Only the states from `i` on, and `q`, may be holes that a transition leads to. -/
structure TrimmedBelow (tree : Automaton) (i : Nat) (q : Option Nat) (a : Automaton) : Prop
    extends Trimming tree a where
  closed : ∀ x, x < i → q ≠ some x → (a.state x).isHole = true → ∀ p c, ¬ a.Edge p c x

section Step

variable (ht : tree.TreeWithHoles)
include ht

theorem TrimmedBelow.erase {i : Nat} (h : TrimmedBelow tree i (some q) a)
    (hhole : (a.state q).isHole = true) (he : tree.Edge p c q) :
    TrimmedBelow tree i (some p) (a.modify p (·.eraseTransition c)) := by
  have hedge : ∀ x d y, Edge (a.modify p (·.eraseTransition c)) x d y ↔
      a.Edge x d y ∧ ¬ (x = p ∧ d = c) := fun x d y => edge_eraseTransition
  have hstay : ∀ x, (a.state x).isHole = true →
      (state (a.modify p (·.eraseTransition c)) x).isHole = true := by
    intro x hx
    rw [State.isHole_iff] at hx
    rw [state_modify, hx]
    split <;> rfl
  refine ⟨⟨by rw [Array.size_modify, h.size], fun x => by rw [leaf_eraseTransition, h.leaf],
    fun x d y he' => h.edge _ _ _ ((hedge x d y).1 he').1, ?_⟩, ?_⟩
  · intro x d y he'
    rcases h.lost x d y he' with hkept | hlost
    · by_cases hgone : x = p ∧ d = c
      · obtain ⟨rfl, rfl⟩ := hgone
        obtain rfl := Transitions.dest_unique he' he
        exact .inr (hstay _ hhole)
      · exact .inl ((hedge x d y).2 ⟨hkept, hgone⟩)
    · exact .inr (hstay _ hlost)
  · intro x hx hxp hxhole y d he'
    obtain ⟨he', hne⟩ := (hedge y d x).1 he'
    by_cases hxq : x = q
    · -- no other transition led to this state
      subst hxq
      exact hne (ht.parent_unique (h.edge _ _ _ he') he)
    · refine h.closed x hx (fun heq => hxq (Option.some.inj heq).symm) ?_ y d he'
      rwa [state_modify_ne (fun heq => hxp (by rw [heq]))] at hxhole

/-- A step upwards below `r`. Either it is the last one, or a transition to a hole is removed. -/
theorem TrimmedBelow.climb {i r : Nat} (h : TrimmedBelow tree i (some q) a)
    (horphan : ∀ p, ¬ tree.Child p r) (hpath : tree.Path r n q) :
    (Automaton.climb tree.parents q a = .done (q, a) ∧ TrimmedBelow tree i none a) ∨
      ∃ m p b, m < n ∧ Automaton.climb tree.parents q a = .yield (p, b) ∧ tree.Path r m p ∧
        TrimmedBelow tree i (some p) b := by
  -- it is enough that no transition leads to `q` if it is a hole
  have hdone : ((a.state q).isHole = true → ∀ p c, ¬ a.Edge p c q) → TrimmedBelow tree i none a := by
    refine fun hq => ⟨h.toTrimming, fun x hx _ hhole => ?_⟩
    by_cases hxq : x = q
    · subst hxq
      exact hq hhole
    · exact h.closed x hx (fun heq => hxq (Option.some.inj heq).symm) hhole
  rw [Automaton.climb]
  cases hhole : (a.state q).isHole with
  | false => exact .inl ⟨rfl, hdone fun htrue => absurd (hhole.symm.trans htrue) (by simp)⟩
  | true =>
    cases hpath with
    | nil =>
      have hnone : tree.parents.getD q none = none := by
        rw [Option.eq_none_iff_forall_ne_some]
        rintro ⟨p, c⟩ hp
        exact horphan p ⟨c, (parents_spec ht).1 hp⟩
      refine .inl ⟨?_, hdone fun _ p c he => horphan p ⟨c, h.edge _ _ _ he⟩⟩
      rw [hnone]
      exact ite_self _
    | @snoc m p _ hpath hchild =>
      have hroot : (q == 0) = false := beq_false_of_ne fun heq => ht.root_orphan p (heq ▸ hchild)
      obtain ⟨c, he⟩ := hchild
      simp only [hroot, (parents_spec ht).2 he, Bool.not_true, Bool.or_self, Bool.false_eq_true, if_false]
      by_cases hgone : ((a.state p).transitions.get? c).isNone = true
      · rw [if_pos hgone]
        refine .inl ⟨rfl, hdone fun _ p' c' he' => ?_⟩
        obtain ⟨rfl, rfl⟩ := ht.parent_unique he (h.edge _ _ _ he')
        rw [Transitions.get?_eq_some_iff.2 he'] at hgone
        cases hgone
      · rw [if_neg hgone]
        exact .inr ⟨m, p, _, Nat.lt_succ_self m, rfl, hpath, h.erase ht hhole he⟩

/-- The walk upwards has got to a state `n` steps below `r`, where a hole may be that a transition leads
to. What the walk does is seen without the empty leaves, which it drops as it meets them. -/
def ClimbLoop (tree : Automaton) (i r n : Nat) (s : Nat × Automaton) : Prop :=
  tree.Path r n s.1 ∧ TrimmedBelow tree i (some s.1) s.2.dropEmptyLeaves

theorem ClimbLoop.step {i r : Nat} {s : Nat × Automaton} (horphan : ∀ p, ¬ tree.Child p r)
    (h : ClimbLoop tree i r n s) :
    Loop.Advances (trimStep tree.parents) (ClimbLoop tree i r)
      (fun s => TrimmedBelow tree i none s.2.dropEmptyLeaves) n s := by
  obtain ⟨x, a⟩ := s
  obtain ⟨hpath, hinv⟩ := h
  obtain ⟨hstep, hpost⟩ | ⟨m, p, b, hm, hstep, hpath, hinv⟩ := hinv.climb ht horphan hpath
  · rw [← mapStep_trimStep, Loop.mapStep_eq_done] at hstep
    obtain ⟨s, hs, heq⟩ := hstep
    exact .inl ⟨s, hs, by rwa [← (Prod.mk.inj heq).2] at hpost⟩
  · rw [← mapStep_trimStep, Loop.mapStep_eq_yield] at hstep
    obtain ⟨⟨y, s⟩, hs, heq⟩ := hstep
    obtain ⟨rfl, rfl⟩ := Prod.mk.inj heq
    exact .inr ⟨m, (y, s), hm, hs, hpath, hinv⟩

/-- The walk upwards from a state ends, after which it is no longer an exception. -/
theorem trimFrom_spec (h : TrimmedBelow tree q none a.dropEmptyLeaves) (hq : q < tree.size) :
    (∃ r, Loop.Ends (trimStep tree.parents) (q, a) r ∧ trimFrom tree.parents a q = r.2) ∧
      TrimmedBelow tree (q + 1) none (trimFrom tree.parents a q).dropEmptyLeaves := by
  obtain ⟨r, k, hr, horphan, hpath⟩ := ht.exists_path hq
  have hinit : ClimbLoop tree (q + 1) r k (q, a) := by
    refine ⟨hpath, h.toTrimming, fun x hx hne hhole => ?_⟩
    have hxq : x ≠ q := fun heq => hne (by rw [heq])
    exact h.closed x (by omega) (by simp) hhole
  have hk : k < a.size := by
    rw [← size_dropEmptyLeaves, h.size]
    exact path_length_lt ht.acyclic ht.target_lt hpath hr
  obtain ⟨hends, hpost⟩ := Loop.ends_run (fun _ _ h => h.step ht horphan) hinit hk
  exact ⟨⟨_, hends, rfl⟩, hpost⟩

end Step

/-! ## The whole tree -/

/-- All walks upwards end that trimming starts. -/
def TrimEnds (tree : Automaton) : Prop :=
  Loop.Along (fun a q => ∃ r, Loop.Ends (trimStep tree.parents) (q, a) r ∧
    trimFrom tree.parents a q = r.2) (trimFrom tree.parents) tree (List.range tree.size)

/-- The tree while the walks from the states in `rest` are left, seen without the empty leaves. -/
def TrimLoop (tree a : Automaton) (rest : List Nat) : Prop :=
  ∃ i m, i + m = tree.size ∧ rest = List.range' i m ∧
    TrimmedBelow tree.dropEmptyLeaves i none a.dropEmptyLeaves

theorem TrimLoop.start : TrimLoop tree tree (List.range tree.size) := by
  have hstart : Trimming tree.dropEmptyLeaves tree.dropEmptyLeaves :=
    ⟨rfl, fun _ => rfl, fun _ _ _ he => he, fun _ _ _ he => .inl he⟩
  exact ⟨0, tree.size, by simp, List.range_eq_range', hstart, fun x hx => absurd hx (Nat.not_lt_zero x)⟩

theorem TrimLoop.step (ht : tree.dropEmptyLeaves.TreeWithHoles) {rest : List Nat}
    (h : TrimLoop tree a (q :: rest)) :
    (∃ r, Loop.Ends (trimStep tree.parents) (q, a) r ∧ trimFrom tree.parents a q = r.2) ∧
      TrimLoop tree (trimFrom tree.parents a q) rest := by
  obtain ⟨i, m, hm, hrest, h⟩ := h
  obtain ⟨m, rfl⟩ : ∃ n, m = n + 1 := by
    cases m with
    | zero => simp at hrest
    | succ n => exact ⟨n, rfl⟩
  rw [List.range'_succ] at hrest
  obtain ⟨rfl, rfl⟩ := List.cons.inj hrest
  have hwalk := trimFrom_spec ht h (by rw [size_dropEmptyLeaves]; omega)
  rw [parents_dropEmptyLeaves] at hwalk
  exact ⟨hwalk.1, q + 1, m, by omega, rfl, hwalk.2⟩

/-- It is enough that there is a tree when the empty leaves are dropped. -/
theorem trim_spec (ht : tree.dropEmptyLeaves.TreeWithHoles) :
    TrimEnds tree ∧ TrimmedBelow tree.dropEmptyLeaves tree.dropEmptyLeaves.size none tree.trim := by
  obtain ⟨hends, i, m, hm, hrest, h⟩ :=
    Loop.along_foldl (TrimLoop tree) (fun _ _ _ h => h.step ht) TrimLoop.start
  obtain rfl : m = 0 := by simpa using hrest.symm
  obtain rfl : i = tree.size := by omega
  refine ⟨hends, ?_⟩
  rw [size_dropEmptyLeaves, ← dropEmptyLeaves_trim]
  exact h

theorem Forest.trim_spec (hf : tree.Forest [0]) :
    TrimEnds tree ∧ TrimmedBelow tree tree.size none tree.trim := by
  have hfull := dropEmptyLeaves_eq_self hf.leaf_nonempty
  have h := Automaton.trim_spec (hfull.symm ▸ hf.treeWithHoles)
  rwa [hfull] at h

theorem TrimmedBelow.not_hole (h : TrimmedBelow tree tree.size none a) (ht : tree.TreeWithHoles)
    (he : a.Edge p c q) : (a.state q).isHole = false := by
  rw [← Bool.not_eq_true]
  exact fun hhole => h.closed q (ht.target_lt _ _ _ (h.edge _ _ _ he)) (by simp) hhole p c he

theorem Trimming.acyclic (h : Trimming tree a) (ht : tree.TreeWithHoles) : a.Acyclic := by
  intro q hcycle
  have hchild : a.Child ≤ tree.Child := fun p r => Exists.imp fun c => h.edge p c r
  exact ht.acyclic q (Relation.TransGen.mono hchild q q hcycle)

theorem TrimmedBelow.productive (h : TrimmedBelow tree tree.size none a) (ht : tree.TreeWithHoles)
    (he : a.Edge p c q) : a.Productive q := by
  have htarget : ∀ p c q, a.Edge p c q → q < a.size := by
    intro p c q he
    rw [h.size]
    exact ht.target_lt p c q (h.edge p c q he)
  refine productive_of_live (h.acyclic ht) htarget (htarget p c q he) (fun x hx => ?_) .refl
  rcases Relation.ReflTransGen.cases_tail hx with rfl | ⟨y, -, d, hlast⟩
  · exact h.not_hole ht he
  · exact h.not_hole ht hlast

theorem Trimming.reaches (h : Trimming tree a) (hq : (a.state q).isHole = false)
    (hpath : tree.Reaches 0 q) : a.Reaches 0 q := by
  induction hpath with
  | refl => exact .refl
  | @tail p q _ hchild ih =>
    obtain ⟨c, he⟩ := hchild
    rcases h.lost p c q he with he | hhole
    · exact (ih (not_isHole_of_edge he)).tail ⟨c, he⟩
    · rw [hq] at hhole
      exact absurd hhole (by simp)

/-- Trimming and compacting keep what is accepted. -/
theorem accepts_compact_trim (hf : tree.Forest [0])
    (hfull : ∀ q, q < tree.size → tree.Reaches 0 q) (w : List UInt8) :
    tree.trim.compact.1.accepts w = tree.accepts w := by
  obtain ⟨-, h⟩ := hf.trim_spec
  obtain ⟨⟨τ, hn⟩, -, hroot⟩ := compact_spec tree.trim fun p c q he => h.not_hole hf.treeWithHoles he
  rw [accepts, accepts, ← h.acceptsFrom_eq hf.treeWithHoles]
  cases hhole : (tree.trim.state 0).isHole with
  | false => rw [← hn.covers.acceptsFrom_eq hhole, hroot hhole]
  | true =>
    rw [acceptsFrom_of_isHole hhole, acceptsFrom_of_isHole]
    -- without a root there are no states
    rw [State.isHole_iff, state_of_ge]
    by_contra hpos
    have hlive := hn.on_back 0 (by omega)
    have hpath := h.reaches hlive (hfull _ (h.size ▸ lt_of_not_isHole hlive))
    rcases Relation.ReflTransGen.cases_head hpath with heq | ⟨x, ⟨c, he⟩, -⟩
    · rw [← heq, hhole] at hlive
      exact absurd hlive (by simp)
    · rw [not_isHole_of_edge he] at hhole
      exact absurd hhole (by simp)

/-- Trimming a tree ends and keeps what the tree accepts. Afterwards no leaf is empty, and every transition
leads to a state from which a leaf can be reached. -/
theorem trim_exact (ht : tree.TreeWithHoles) :
    TrimEnds tree ∧ (∀ w, tree.trim.accepts w = tree.accepts w) ∧
    (∀ q leaf, (tree.trim.state q).leaf = some leaf → leaf.isEmpty = false) ∧
    ∀ p c q, tree.trim.Edge p c q → tree.trim.Productive q := by
  obtain ⟨hends, h⟩ := trim_spec ht.dropEmptyLeaves
  refine ⟨hends, fun w => ?_, fun q leaf hleaf => ?_, fun p c q he => h.productive ht.dropEmptyLeaves he⟩
  · rw [accepts, accepts, h.acceptsFrom_eq ht.dropEmptyLeaves, acceptsFrom_dropEmptyLeaves]
  · rw [← dropEmptyLeaves_trim, state_dropEmptyLeaves] at hleaf
    simpa using (Option.filter_eq_some_iff.1 hleaf).2

/-- A tree whose states are numbered in no order. There is an empty label, there are empty leaves and
holes in it, and one beside it. -/
def withered : Automaton :=
  let digit : ByteSet := .interval 0x30 0x39
  #[⟨.ofList [(.singleton 0x61, 3), (.singleton 0x62, 2), (.singleton 0x64, 8)], none⟩, .hole,
    ⟨.ofList [(.singleton 0x78, 6)], some ∅⟩, ⟨.ofList [(digit, 4)], none⟩, ⟨∅, some ∅⟩, .hole,
    ⟨.ofList [(∅, 7)], some (.singleton 0x79)⟩, .hole, ⟨.ofList [(.singleton 0x7A, 1)], none⟩]

theorem treeWithHoles_withered : withered.TreeWithHoles :=
  .of_rank (fun q => [0, 2, 1, 1, 2, 0, 2, 3, 1].getD q 0) (by decide +kernel) (by decide +kernel)
    (by decide +kernel) (by decide +kernel)

theorem trim_exact_withered : withered.TreeWithHoles ∧ TrimEnds withered ∧
    (∀ w, withered.trim.accepts w = withered.accepts w) ∧
    withered.trim.leaves = [(6, .singleton 0x79)] ∧ withered.trim.Productive 2 := by
  obtain ⟨hends, haccepts, -, hproductive⟩ := trim_exact treeWithHoles_withered
  refine ⟨treeWithHoles_withered, hends, haccepts, by decide +kernel, ?_⟩
  have he : withered.trim.Edge 0 (.singleton 0x62) 2 := by
    rw [Edge]
    decide +kernel
  exact hproductive 0 _ 2 he

end Automaton
end ByteMatch
