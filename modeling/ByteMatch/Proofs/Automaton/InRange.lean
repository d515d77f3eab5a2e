import ByteMatch.Proofs.Automaton.Aligned

/-!
# ByteMatch.Proofs.Automaton.InRange

Transitions that lead to states, while two trees are made comparable.

Nothing in the walk depends on the trees being well-formed here: new transitions lead to new states, and
states are only added or made holes. It is the holes that a transition leads to which do not go well
together with removing holes at the end.

* `Automaton.InRange`: transitions lead to states.
* `Automaton.CopyInRange`: a walk through a subtree that is copied stays within the states.
* `Alignment.CutInRange`, `Alignment.SplitInRange`, `Alignment.LabelsInRange`, `Alignment.LevelInRange`: so
  do all copies that are made for two labels, for a label, for a pair and for a level.
* `Automaton.copiesInRange`: so do the copies of the whole walk.
-/

namespace ByteMatch
namespace Automaton

open Copying

variable {a b : Automaton} {p q dest source target : Nat} {c code rest : ByteSet} {work : List (Nat × Nat)}

/-- Transitions lead to states. -/
def InRange (a : Automaton) : Prop := ∀ p c q, a.Edge p c q → q < a.size

theorem InRange.modify {f : State → State} (h : a.InRange)
    (hf : ∀ s c r, (c, r) ∈ (f s).transitions.entries → (c, r) ∈ s.transitions.entries ∨ r < a.size) :
    InRange (a.modify q f) := by
  intro p c r he
  rw [Array.size_modify]
  rw [Edge, state_modify] at he
  split at he
  · exact (hf _ c r he).elim (h p c r) id
  · exact h p c r he

theorem InRange.setHole (h : a.InRange) : InRange (a.setIfInBounds q State.hole) := by
  intro p c r he
  rw [Array.size_setIfInBounds]
  rw [Edge, state_setIfInBounds] at he
  split at he
  · simp [State.hole] at he
  · exact h p c r he

theorem InRange.pushHole (h : a.InRange) : InRange (a.push State.hole) := by
  intro p c r he
  rw [Edge, state_push_hole] at he
  rw [Array.size_push]
  exact Nat.lt_succ_of_lt (h p c r he)

/-! ## Subtrees -/

/-- The walk that copies a subtree reads and writes states only, however far it gets. -/
def CopyInRange (a : Automaton) (source : Nat) : Prop :=
  ∀ k, ∀ e ∈ (Loop.run copyStep k (a.copyStart source)).1,
    e.1 < (Loop.run copyStep k (a.copyStart source)).2.size ∧
      e.2 < (Loop.run copyStep k (a.copyStart source)).2.size

/-- Copying with the states of `work` still to be copied. -/
structure CopyingInRange (n : Nat) (work : List (Nat × Nat)) (a : Automaton) : Prop where
  inRange : a.InRange
  size : n < a.size
  work : ∀ e ∈ work, e.1 < a.size ∧ e.2 < a.size

theorem CopyingInRange.start (h : a.InRange) (hs : source < a.size) :
    CopyingInRange a.size (a.copyStart source).1 (a.copyStart source).2 := by
  refine ⟨h.pushHole, by simp [copyStart], fun e he => ?_⟩
  obtain rfl : e = (source, a.size) := by simpa [copyStart] using he
  simp [copyStart]
  omega

/-- The children of the copy are fresh states. -/
theorem CopyingInRange.step {n : Nat} (h : CopyingInRange n ((source, target) :: work) a) :
    CopyingInRange n (((a.state source).transitions.dests.zipIdx a.size).reverse ++ work)
      (fill a (a.state source) target) := by
  obtain ⟨hsource, htarget⟩ := h.work (source, target) (by simp)
  refine ⟨fun p c q he => ?_, ?_, fun e he => ?_⟩
  · rw [size_fill]
    by_cases hp : target = p
    · subst hp
      obtain ⟨i, hi, -, rfl⟩ := (edge_fill_self htarget).1 he
      rw [Transitions.dests, List.length_map]
      omega
    · exact Nat.lt_add_right _ (h.inRange p c q ((edge_fill_ne htarget hp).1 he))
  · rw [size_fill]
    exact Nat.lt_add_right _ h.size
  · rw [size_fill]
    cases List.mem_append.1 he with
    | inl hnew =>
      obtain ⟨child, i⟩ := e
      obtain ⟨hge, hlt, heq⟩ := List.mem_zipIdx (List.mem_reverse.1 hnew)
      have hchild : a.Child source child := mem_dests_iff.1 (heq ▸ List.getElem_mem _)
      obtain ⟨c, hedge⟩ := hchild
      have := h.inRange _ _ _ hedge
      exact ⟨by simp only; omega, by simp only; omega⟩
    | inr hold =>
      obtain ⟨h1, h2⟩ := h.work e (List.mem_cons_of_mem _ hold)
      exact ⟨Nat.lt_add_right _ h1, Nat.lt_add_right _ h2⟩

theorem CopyingInRange.run {n : Nat} (h : CopyingInRange n work a) (k : Nat) :
    CopyingInRange n (Loop.run copyStep k (work, a)).1 (Loop.run copyStep k (work, a)).2 := by
  refine Loop.run_spec (fun s : List (Nat × Nat) × Automaton => CopyingInRange n s.1 s.2)
    (fun s r hs hr => ?_) (fun s t hs ht => ?_) h k
  · obtain ⟨_ | ⟨e, work⟩, b⟩ := s
    · exact ForInStep.done.inj hr ▸ hs
    · cases hr
  · obtain ⟨_ | ⟨⟨source, target⟩, work⟩, b⟩ := s
    · cases ht
    · exact ForInStep.yield.inj ht ▸ hs.step

theorem copyInRange (h : a.InRange) (hs : source < a.size) : a.CopyInRange source ∧
    (a.copySubtree source).InRange ∧ a.size < (a.copySubtree source).size := by
  have hrun := (CopyingInRange.start h hs).run
  exact ⟨fun k => (hrun k).work, (hrun (a.size + 1)).inRange, (hrun (a.size + 1)).size⟩

theorem InRange.erase (h : a.InRange) :
    (a.eraseSubtree q).InRange ∧ (a.eraseSubtree q).size = a.size := by
  refine Loop.run_spec (fun s : List Nat × Automaton => s.2.InRange ∧ s.2.size = a.size)
    (fun s r hs hr => ?_) (fun s t hs ht => ?_) ⟨h, rfl⟩ _
  · obtain ⟨_ | ⟨q, work⟩, b⟩ := s
    · exact ForInStep.done.inj hr ▸ hs
    · cases hr
  · obtain ⟨_ | ⟨q, work⟩, b⟩ := s
    · cases ht
    · obtain rfl := ForInStep.yield.inj ht
      exact ⟨hs.1.setHole, Array.size_setIfInBounds.trans hs.2⟩

end Automaton

/-! ## Cuts -/

namespace Alignment

open Automaton

variable {al : Alignment} {a : Automaton} {l r q dest nextL nextR m n : Nat} {code codeL codeR rest : ByteSet}

theorem size_narrow : (narrow a q code rest dest).size = a.size := Array.size_modify

theorem inRange_narrow (h : a.InRange) (hd : dest < a.size) : (narrow a q code rest dest).InRange := by
  refine h.modify fun s c r he => ?_
  have herase : ∀ {e}, e ∈ (s.eraseTransition code).transitions.entries → e ∈ s.transitions.entries :=
    fun he => (Transitions.mem_erase.1 he).1
  dsimp only at he
  split at he
  · exact .inl (herase he)
  · cases Transitions.mem_insert.1 he with
    | inl heq => exact .inr ((Prod.mk.inj heq).2 ▸ hd)
    | inr hold => exact .inl (herase hold.1)

theorem inRange_branchOff (h : a.InRange) (hd : dest < a.size) :
    (branchOff a q code dest).InRange ∧ a.size < (branchOff a q code dest).size := by
  obtain ⟨-, hcopy, hsize⟩ := copyInRange h hd
  rw [branchOff, Array.size_modify]
  refine ⟨hcopy.modify fun s c r he => ?_, hsize⟩
  cases Transitions.mem_insert.1 he with
  | inl heq => exact .inr ((Prod.mk.inj heq).2 ▸ hsize)
  | inr hold => exact .inl hold.1

/-- The copies stay within the states that splitting two labels makes. -/
def CutInRange (al : Alignment) (l r : Nat) (codeL : ByteSet) (nextL : Nat) (codeR : ByteSet)
    (nextR : Nat) : Prop :=
  let common := codeL ∩ codeR
  (narrow al.left l codeL (codeL \ common) nextL).CopyInRange nextL ∧
    (narrow al.right r codeR (codeR \ common) nextR).CopyInRange nextR

/-- Both trees are in range, and have at least `m` and `n` states. -/
structure Within (m n : Nat) (al : Alignment) : Prop where
  left : al.left.InRange
  right : al.right.InRange
  left_size : m ≤ al.left.size
  right_size : n ≤ al.right.size

theorem Within.mono {m' n' : Nat} (h : al.Within m n) (hm : m' ≤ m) (hn : n' ≤ n) : al.Within m' n' :=
  ⟨h.left, h.right, Nat.le_trans hm h.left_size, Nat.le_trans hn h.right_size⟩

theorem Within.eraseLeft (h : al.Within m n) :
    Within m n { al with left := al.left.eraseSubtree q, leftHoles := true } := by
  obtain ⟨hrange, hsize⟩ := h.left.erase (q := q)
  exact ⟨hrange, h.right, hsize ▸ h.left_size, h.right_size⟩

theorem Within.eraseRight (h : al.Within m n) :
    Within m n { al with right := al.right.eraseSubtree q, rightHoles := true } := by
  obtain ⟨hrange, hsize⟩ := h.right.erase (q := q)
  exact ⟨h.left, hrange, h.left_size, hsize ▸ h.right_size⟩

theorem Within.cut (h : al.Within m n) (hL : nextL < m) (hR : nextR < n) :
    al.CutInRange l r codeL nextL codeR nextR ∧ (al.cut l r codeL nextL codeR nextR).Within m n := by
  have hltL := Nat.lt_of_lt_of_le hL h.left_size
  have hltR := Nat.lt_of_lt_of_le hR h.right_size
  have hleft : (narrow al.left l codeL (codeL \ (codeL ∩ codeR)) nextL).InRange := inRange_narrow h.left hltL
  have hright : (narrow al.right r codeR (codeR \ (codeL ∩ codeR)) nextR).InRange :=
    inRange_narrow h.right hltR
  have hltL' : nextL < (narrow al.left l codeL (codeL \ (codeL ∩ codeR)) nextL).size := by rwa [size_narrow]
  have hltR' : nextR < (narrow al.right r codeR (codeR \ (codeL ∩ codeR)) nextR).size := by rwa [size_narrow]
  refine ⟨⟨(copyInRange hleft hltL').1, (copyInRange hright hltR').1⟩, ?_⟩
  have hcopied : Within m n (Alignment.pair { al with
      left := branchOff (narrow al.left l codeL (codeL \ (codeL ∩ codeR)) nextL) l (codeL ∩ codeR) nextL
      right := branchOff (narrow al.right r codeR (codeR \ (codeL ∩ codeR)) nextR) r (codeL ∩ codeR) nextR }
      al.left.size al.right.size) := by
    obtain ⟨hleft, hsizeL⟩ := inRange_branchOff hleft hltL'
    obtain ⟨hright, hsizeR⟩ := inRange_branchOff hright hltR'
    rw [size_narrow] at hsizeL hsizeR
    exact ⟨hleft, hright, Nat.le_trans h.left_size (Nat.le_of_lt hsizeL),
      Nat.le_trans h.right_size (Nat.le_of_lt hsizeR)⟩
  rw [Alignment.cut]
  split
  · split
    · exact hcopied.eraseRight.eraseLeft
    · exact hcopied.eraseLeft
  · split
    · exact hcopied.eraseRight
    · exact hcopied

/-! ## The walk -/

/-- The copies stay within the states that splitting one label makes. -/
def SplitInRange (l r nextL : Nat) : ByteSet → List (ByteSet × Nat) → Alignment → Prop
  | _, [], _ => True
  | codeL, (codeR, nextR) :: others, al =>
    codeR ≠ codeL → al.CutInRange l r codeL nextL codeR nextR ∧
      SplitInRange l r nextL (codeL \ (codeL ∩ codeR)) others (al.cut l r codeL nextL codeR nextR)

/-- Those that splitting all labels of a state makes. -/
def LabelsInRange (l r : Nat) (labels : List (ByteSet × Nat)) (al : Alignment) : Prop :=
  Loop.Along (fun al (codeL, nextL) => SplitInRange l r nextL codeL (al.candidates r codeL) al)
    (fun al (codeL, nextL) => al.splitAgainst l r nextL codeL (al.candidates r codeL)) al labels

/-- Those that a level makes. -/
def LevelInRange (level : List (Nat × Nat)) (al : Alignment) : Prop :=
  Loop.Along (fun al (l, r) => LabelsInRange l r (al.left.state l).transitions.entries al)
    (fun al (l, r) => al.alignStates l r) { al with found := [] } level

theorem Within.splitAgainst {others : List (ByteSet × Nat)} (h : al.Within m n) (hL : nextL < m)
    (hothers : ∀ e ∈ others, e.2 < n) :
    SplitInRange l r nextL codeL others al ∧ (splitAgainst l r nextL codeL others al).Within m n := by
  induction others generalizing codeL al with
  | nil => exact ⟨trivial, h⟩
  | cons e others ih =>
    obtain ⟨codeR, nextR⟩ := e
    obtain ⟨hcut, hnext⟩ : al.CutInRange l r codeL nextL codeR nextR ∧
        (al.cut l r codeL nextL codeR nextR).Within m n := h.cut hL (hothers _ List.mem_cons_self)
    obtain ⟨hrest, hend⟩ := ih hnext fun e he => hothers e (List.mem_cons_of_mem _ he)
    refine ⟨fun _ => ⟨hcut, hrest⟩, ?_⟩
    rw [Alignment.splitAgainst]
    split
    · exact ⟨h.left, h.right, h.left_size, h.right_size⟩
    · dsimp only
      split
      · exact hnext
      · exact hend

theorem Within.splitLabels {labels : List (ByteSet × Nat)} (h : al.Within m n)
    (hlabels : ∀ e ∈ labels, e.2 < m) :
    LabelsInRange l r labels al ∧ (al.splitLabels l r labels).Within m n := by
  induction labels generalizing al with
  | nil => exact ⟨trivial, h⟩
  | cons e labels ih =>
    have hcands : ∀ c ∈ al.candidates r e.1, c.2 < al.right.size :=
      fun c hc => h.right r c.1 c.2 (List.mem_filter.1 hc).1
    have hself : al.Within m al.right.size := ⟨h.left, h.right, h.left_size, Nat.le_refl _⟩
    obtain ⟨hsplit, hnext⟩ := hself.splitAgainst (hlabels e List.mem_cons_self) hcands
    obtain ⟨hrest, hend⟩ := ih (hnext.mono (Nat.le_refl m) h.right_size)
      fun e he => hlabels e (List.mem_cons_of_mem _ he)
    exact ⟨⟨hsplit, hrest⟩, hend⟩

theorem Within.alignStates (h : al.Within m n) :
    LabelsInRange l r (al.left.state l).transitions.entries al ∧ (al.alignStates l r).Within m n := by
  have hself : al.Within al.left.size n := ⟨h.left, h.right, Nat.le_refl _, h.right_size⟩
  obtain ⟨hlabels, hnext⟩ := hself.splitLabels (l := l) (r := r) fun e he => h.left l e.1 e.2 he
  exact ⟨hlabels, hnext.mono h.left_size (Nat.le_refl n)⟩

theorem Within.alignLevel {level : List (Nat × Nat)} (h : al.Within m n) :
    LevelInRange level al ∧ (al.alignLevel level).Within m n :=
  Loop.along_foldl (fun (al : Alignment) _ => al.Within m n) (fun _ _ _ h => h.alignStates)
    ⟨h.left, h.right, h.left_size, h.right_size⟩

theorem Within.run {level : List (Nat × Nat)} (h : al.Within m n) (k : Nat) :
    (Loop.run alignStep k (level, al)).2.Within m n := by
  refine Loop.run_spec (fun s : List (Nat × Nat) × Alignment => s.2.Within m n)
    (fun s r hs hr => ?_) (fun s t hs ht => ?_) h k
  · obtain ⟨_ | ⟨pair, level⟩, al⟩ := s
    · exact ForInStep.done.inj hr ▸ hs
    · cases hr
  · obtain ⟨_ | ⟨pair, level⟩, al⟩ := s
    · cases ht
    · exact ForInStep.yield.inj ht ▸ hs.alignLevel.2

end Alignment

namespace Automaton

variable {left right : Automaton}

/-- The copies that aligning makes stay within the states, on each level of the walk. -/
def CopiesInRange (left right : Automaton) : Prop :=
  ∀ k, Alignment.LevelInRange (Loop.run Alignment.alignStep k ([(0, 0)], start left right)).1
    (Loop.run Alignment.alignStep k ([(0, 0)], start left right)).2

theorem copiesInRange (hleft : left.InRange) (hright : right.InRange) : CopiesInRange left right := by
  intro k
  have hstart : (start left right).Within 0 0 := ⟨hleft, hright, Nat.zero_le _, Nat.zero_le _⟩
  exact (hstart.run k).alignLevel.1

end Automaton
end ByteMatch
