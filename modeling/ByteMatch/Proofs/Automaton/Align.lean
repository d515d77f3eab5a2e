import ByteMatch.Proofs.Automaton.Cut

/-!
# ByteMatch.Proofs.Automaton.Align

The walk that makes two trees comparable.

* `Alignment.Partly`: some labels of a state are settled, and the others are still to be split.
* `Alignment.splitAgainst_spec`, `Alignment.splitLabels_spec`, `Alignment.alignStates_spec`,
  `Alignment.alignLevel_spec`: one label, all labels, one pair, one level.
* `Alignment.AlignLoop`, `Alignment.walk_spec`: the walk ends, and so do all the walks through subtrees on the way.
-/

namespace ByteMatch
namespace Alignment

open Automaton

variable {al : Alignment} {left₀ right₀ : Automaton} {k l r nextL nextR : Nat}
  {codeL codeR c : ByteSet} {todo rest : List (Nat × Nat)} {labels cands : List (ByteSet × Nat)}

/-- The labels of `l` that are not in `labels` any more are settled. -/
structure Partly (l r : Nat) (labels : List (ByteSet × Nat)) (al : Alignment) : Prop where
  present : ∀ c next, (c, next) ∈ labels → al.left.Edge l c next
  nodup : (labels.map (·.2)).Nodup
  settled : ∀ c next, al.left.Edge l c next →
    (c, next) ∈ labels ∨ SettledLabel al.right al.Paired r c next

/-- The labels of `r` that have bytes in common with `codeL` are among `cands`. -/
structure Candidates (r : Nat) (codeL : ByteSet) (cands : List (ByteSet × Nat)) (al : Alignment) :
    Prop where
  present : ∀ c next, (c, next) ∈ cands → al.right.Edge r c next ∧ ∃ x, x ∈ codeL ∧ x ∈ c
  nodup : (cands.map (·.2)).Nodup
  disjoint : ∀ c next, al.right.Edge r c next → (c, next) ∈ cands ∨ ∀ x, x ∈ codeL → x ∉ c

/-! ## One label -/

/-- The walks through subtrees end that splitting one label starts. -/
def SplitEnds (l r nextL : Nat) : ByteSet → List (ByteSet × Nat) → Alignment → Prop
  | _, [], _ => True
  | codeL, (codeR, nextR) :: others, al =>
    codeR ≠ codeL → al.CutEnds l r codeL nextL codeR nextR ∧
      SplitEnds l r nextL (codeL \ (codeL ∩ codeR)) others (al.cut l r codeL nextL codeR nextR)

theorem not_mem_of_nodup_dests {next : Nat}
    (h : (((c, next) :: labels).map (·.2)).Nodup) (c' : ByteSet) : (c', next) ∉ labels := by
  rw [List.map_cons, List.nodup_cons] at h
  exact fun hmem => h.1 (List.mem_map.2 ⟨(c', next), hmem, rfl⟩)

/-- The first label has been settled, and the others are as they were. -/
theorem Partly.next {al' : Alignment} (hp : Partly l r ((c, nextL) :: labels) al)
    (hleft : al'.left = al.left) (hhead : SettledLabel al'.right al'.Paired r c nextL)
    (hkept : ∀ d next, SettledLabel al.right al.Paired r d next →
      SettledLabel al'.right al'.Paired r d next) : Partly l r labels al' := by
  refine ⟨fun d next hd => ?_, (List.nodup_cons.1 hp.nodup).2, fun d next hd => ?_⟩
  · rw [hleft]
    exact hp.present d next (List.mem_cons_of_mem _ hd)
  · rw [hleft] at hd
    rcases hp.settled d next hd with hmem | hs
    · rcases List.mem_cons.1 hmem with heq | hmem
      · obtain ⟨rfl, rfl⟩ := Prod.mk.inj heq
        exact .inr hhead
      · exact .inl hmem
    · exact .inr (hkept d next hs)

theorem Partly.done (hp : Partly l r ((codeL, nextL) :: labels) al)
    (hc : Candidates r codeL [] al) : Partly l r labels al :=
  hp.next rfl (fun d next hd => .inr ((hc.disjoint d next hd).resolve_left (by simp)))
    fun _ _ hs => hs

section Label

variable (h : Aligning left₀ right₀ k todo al) (hpair : (l, r) ∈ todo)
include h hpair

theorem Partly.pair (hp : Partly l r ((c, nextL) :: labels) al) (he : al.right.Edge r c nextR) :
    Partly l r labels (al.pair nextL nextR) := by
  obtain ⟨-, hiff⟩ := h.pair hpair (hp.present c nextL (by simp)) he
  refine hp.next rfl (fun d next hd => ?_) fun d next hs =>
    hs.mono fun x y hxy => (hiff x y).2 (.inl hxy)
  by_cases heq : d = c
  · subst heq
    exact .inl ⟨rfl, (hiff _ _).2 (.inr ⟨rfl, Transitions.dest_unique hd he⟩)⟩
  · exact .inr fun x hx hx' => heq (h.right.forest.edge_unique hd he hx' hx).1

variable (hp : Partly l r ((codeL, nextL) :: labels) al)
  (hc : Candidates r codeL ((codeR, nextR) :: cands) al) (hne : codeR ≠ codeL)
include hp hc hne

omit hpair hne in
/-- What a cut does to the labels of the two states. -/
theorem edges_cut :
    (∀ d x, (al.cut l r codeL nextL codeR nextR).left.Edge l d x ↔
      (d = codeL ∩ codeR ∧ x = al.left.size) ∨
      (d = codeL \ (codeL ∩ codeR) ∧ x = nextL ∧ ∃ y, y ∈ codeL \ (codeL ∩ codeR)) ∨
      (al.left.Edge l d x ∧ d ≠ codeL)) ∧
    (∀ d x, (al.cut l r codeL nextL codeR nextR).right.Edge r d x ↔
      (d = codeL ∩ codeR ∧ x = al.right.size) ∨
      (d = codeR \ (codeL ∩ codeR) ∧ x = nextR ∧ ∃ y, y ∈ codeR \ (codeL ∩ codeR)) ∨
      (al.right.Edge r d x ∧ d ≠ codeR)) := by
  have heL := hp.present codeL nextL (by simp)
  obtain ⟨heR, x, hxL, hxR⟩ := hc.present codeR nextR (by simp)
  have hcommon : ∃ x, x ∈ codeL ∩ codeR := ⟨x, ByteSet.mem_inter.2 ⟨hxL, hxR⟩⟩
  rw [cut_eq h.left.forest h.right.forest heL heR hcommon]
  exact ⟨(splitEdge_spec h.left.forest heL (fun x hx => (ByteSet.mem_inter.1 hx).1) hcommon).1.edge_here,
    (splitEdge_spec h.right.forest heR (fun x hx => (ByteSet.mem_inter.1 hx).2) hcommon).1.edge_here⟩

theorem paired_cut_iff {x y : Nat} : (al.cut l r codeL nextL codeR nextR).Paired x y ↔
    al.Paired x y ∨ (x = al.left.size ∧ y = al.right.size) := by
  have heL := hp.present codeL nextL (by simp)
  obtain ⟨heR, x, hxL, hxR⟩ := hc.present codeR nextR (by simp)
  exact (h.cut hpair heL heR ⟨x, ByteSet.mem_inter.2 ⟨hxL, hxR⟩⟩ hne).2 _ _

/-- The common bytes are a label on both sides after a cut. -/
theorem settledLabel_cut_common :
    SettledLabel (al.cut l r codeL nextL codeR nextR).right (al.cut l r codeL nextL codeR nextR).Paired
      r (codeL ∩ codeR) al.left.size := by
  obtain ⟨heR, -⟩ := hc.present codeR nextR (by simp)
  intro d' next' hd'
  rcases ((edges_cut h hp hc).2 d' next').1 hd' with ⟨rfl, rfl⟩ | ⟨rfl, rfl, -⟩ | ⟨hd', hcode'⟩
  · exact .inl ⟨rfl, (paired_cut_iff h hpair hp hc hne).2 (.inr ⟨rfl, rfl⟩)⟩
  · exact .inr fun y hy hy' => (ByteSet.mem_sdiff.1 hy').2 hy
  · refine .inr fun y hy hy' => hcode' ?_
    exact (h.right.forest.edge_unique hd' heR hy' (ByteSet.mem_inter.1 hy).2).1

/-- A settled label other than the one that is cut stays settled, as it is disjoint from the label that
is split on the right. -/
theorem settledLabel_cut {d : ByteSet} {next : Nat} (hold : al.left.Edge l d next) (hcode : d ≠ codeL)
    (hs : SettledLabel al.right al.Paired r d next) :
    SettledLabel (al.cut l r codeL nextL codeR nextR).right (al.cut l r codeL nextL codeR nextR).Paired
      r d next := by
  have heL := hp.present codeL nextL (by simp)
  obtain ⟨heR, x, hxL, hxR⟩ := hc.present codeR nextR (by simp)
  have hdisj : ∀ y, y ∈ d → y ∉ codeR := by
    rcases hs codeR nextR heR with ⟨rfl, -⟩ | hdisj
    · exact absurd (h.left.forest.edge_unique hold heL hxR hxL).1 hcode
    · exact hdisj
  intro d' next' hd'
  rcases ((edges_cut h hp hc).2 d' next').1 hd' with ⟨rfl, rfl⟩ | ⟨rfl, rfl, -⟩ | ⟨hd', -⟩
  · exact .inr fun y hy hy' => hdisj y hy (ByteSet.mem_inter.1 hy').2
  · exact .inr fun y hy hy' => hdisj y hy (ByteSet.mem_sdiff.1 hy').1
  · exact (hs d' next' hd').imp_left fun ⟨hd, hn⟩ =>
      ⟨hd, (paired_cut_iff h hpair hp hc hne).2 (.inl hn)⟩

omit hpair hne in
/-- The other labels of the left state that are still to be split stay as they are. -/
theorem edge_cut_of_mem {d : ByteSet} {next : Nat} (hd : (d, next) ∈ labels) :
    (al.cut l r codeL nextL codeR nextR).left.Edge l d next := by
  have hold := hp.present d next (List.mem_cons_of_mem _ hd)
  refine ((edges_cut h hp hc).1 d next).2 (.inr (.inr ⟨hold, ?_⟩))
  rintro rfl
  obtain rfl := Transitions.dest_unique hold (hp.present _ nextL (by simp))
  exact not_mem_of_nodup_dests hp.nodup _ hd

/-- A cut settles the common bytes, and leaves the rest of the label for the other candidates. -/
theorem Partly.cut : Partly l r
    (if (codeL \ (codeL ∩ codeR)).isEmpty then labels
      else (codeL \ (codeL ∩ codeR), nextL) :: labels) (al.cut l r codeL nextL codeR nextR) := by
  have hedgeL := (edges_cut h hp hc).1
  have hsome : (codeL \ (codeL ∩ codeR)).isEmpty = false ↔ ∃ y, y ∈ codeL \ (codeL ∩ codeR) :=
    ByteSet.isEmpty_eq_false_iff
  refine ⟨?_, ?_, ?_⟩
  · intro d next hd
    split at hd
    · exact edge_cut_of_mem h hp hc hd
    · rename_i hrest
      rcases List.mem_cons.1 hd with heq | hd
      · obtain ⟨rfl, rfl⟩ := Prod.mk.inj heq
        exact (hedgeL _ _).2 (.inr (.inl ⟨rfl, rfl, hsome.1 (by simpa using hrest)⟩))
      · exact edge_cut_of_mem h hp hc hd
  · split
    · exact (List.nodup_cons.1 hp.nodup).2
    · exact hp.nodup
  · intro d next hd
    rcases (hedgeL d next).1 hd with ⟨rfl, rfl⟩ | ⟨rfl, rfl, hy⟩ | ⟨hold, hcode⟩
    · exact .inr (settledLabel_cut_common h hpair hp hc hne)
    · rw [if_neg (by rw [hsome.2 hy]; simp)]
      exact .inl (by simp)
    · rcases hp.settled d next hold with hmem | hs
      · rcases List.mem_cons.1 hmem with heq | hmem
        · exact absurd (Prod.mk.inj heq).1 hcode
        · left
          split
          · exact hmem
          · exact List.mem_cons_of_mem _ hmem
      · exact .inr (settledLabel_cut h hpair hp hc hne hold hcode hs)

omit hpair in
theorem Candidates.cut :
    Candidates r (codeL \ (codeL ∩ codeR)) cands (al.cut l r codeL nextL codeR nextR) := by
  obtain ⟨heR, x, hxL, hxR⟩ := hc.present codeR nextR (by simp)
  obtain ⟨-, hedgeR⟩ := edges_cut h hp hc
  refine ⟨?_, (List.nodup_cons.1 hc.nodup).2, ?_⟩
  · intro d next hd
    obtain ⟨he, y, hyL, hy⟩ := hc.present d next (List.mem_cons_of_mem _ hd)
    have hcode : d ≠ codeR := by
      rintro rfl
      obtain rfl := Transitions.dest_unique he heR
      exact not_mem_of_nodup_dests hc.nodup _ hd
    refine ⟨(hedgeR d next).2 (.inr (.inr ⟨he, hcode⟩)), y, ByteSet.mem_sdiff.2 ⟨hyL, ?_⟩, hy⟩
    exact fun hy' => hcode (h.right.forest.edge_unique he heR hy (ByteSet.mem_inter.1 hy').2).1
  · intro d next hd
    rcases (hedgeR d next).1 hd with ⟨rfl, -⟩ | ⟨rfl, -, -⟩ | ⟨hd, hcode⟩
    · exact .inr fun y hy hy' => (ByteSet.mem_sdiff.1 hy).2 hy'
    · refine .inr fun y hy hy' => (ByteSet.mem_sdiff.1 hy).2 ?_
      exact ByteSet.mem_inter.2 ⟨(ByteSet.mem_sdiff.1 hy).1, (ByteSet.mem_sdiff.1 hy').1⟩
    · rcases hc.disjoint d next hd with hmem | hdisj
      · exact .inl ((List.mem_cons.1 hmem).resolve_left fun heq => hcode (Prod.mk.inj heq).1)
      · exact .inr fun y hy => hdisj y (ByteSet.mem_sdiff.1 hy).1

end Label

theorem splitAgainst_spec (h : Aligning left₀ right₀ k todo al) (hpair : (l, r) ∈ todo)
    (hp : Partly l r ((codeL, nextL) :: labels) al) (hc : Candidates r codeL cands al) :
    SplitEnds l r nextL codeL cands al ∧
      Aligning left₀ right₀ k todo (splitAgainst l r nextL codeL cands al) ∧
      Partly l r labels (splitAgainst l r nextL codeL cands al) := by
  induction cands generalizing codeL al with
  | nil => exact ⟨trivial, h, hp.done hc⟩
  | cons cand cands ih =>
    obtain ⟨codeR, nextR⟩ := cand
    obtain ⟨heR, x, hxL, hxR⟩ := hc.present codeR nextR (by simp)
    rw [splitAgainst]
    by_cases hne : codeR = codeL
    · subst hne
      simp only [if_true]
      exact ⟨fun h => absurd rfl h, (h.pair hpair (hp.present _ _ (by simp)) heR).1,
        hp.pair h hpair heR⟩
    · have heL := hp.present codeL nextL (by simp)
      have hcommon : ∃ x, x ∈ codeL ∩ codeR := ⟨x, ByteSet.mem_inter.2 ⟨hxL, hxR⟩⟩
      have hends := cutEnds h.left.forest h.right.forest heL heR hcommon
      have hcut := (h.cut hpair heL heR hcommon hne).1
      have hcands := hc.cut h hp hne
      have hpartly := hp.cut h hpair hc hne
      simp only [hne, if_false]
      by_cases hrest : (codeL \ (codeL ∩ codeR)).isEmpty = true
      · -- no byte is left that another candidate could have in common
        have hnil : cands = [] := by
          cases cands with
          | nil => rfl
          | cons e cands =>
            obtain ⟨-, y, hy, -⟩ := hcands.present e.1 e.2 (by simp)
            exact absurd hy (ByteSet.isEmpty_iff.1 hrest y)
        rw [if_pos hrest] at hpartly ⊢
        subst hnil
        exact ⟨fun _ => ⟨hends, trivial⟩, hcut, hpartly⟩
      · rw [if_neg hrest] at hpartly ⊢
        obtain ⟨hrestEnds, hspec⟩ := ih hcut hpartly hcands
        exact ⟨fun _ => ⟨hends, hrestEnds⟩, hspec⟩

theorem candidates_spec (h : Aligning left₀ right₀ k todo al) :
    Candidates r codeL (al.candidates r codeL) al := by
  refine ⟨?_, ?_, ?_⟩
  · intro c next hc
    obtain ⟨hmem, hinter⟩ := List.mem_filter.1 hc
    obtain ⟨x, hx, hx'⟩ := ByteSet.intersects_iff.1 hinter
    exact ⟨hmem, x, hx', hx⟩
  · exact (h.right.forest.nodup_dests).sublist (List.filter_sublist.map _)
  · intro c next he
    by_cases hinter : c.intersects codeL = true
    · exact .inl (List.mem_filter.2 ⟨he, hinter⟩)
    · exact .inr fun x hx hx' => hinter (ByteSet.intersects_iff.2 ⟨x, hx', hx⟩)

/-! ## All labels, and all pairs -/

/-- The walks through subtrees end that splitting all labels of a state starts. -/
def LabelsEnd (l r : Nat) (labels : List (ByteSet × Nat)) (al : Alignment) : Prop :=
  Loop.Along (fun al (codeL, nextL) => SplitEnds l r nextL codeL (al.candidates r codeL) al)
    (fun al (codeL, nextL) => al.splitAgainst l r nextL codeL (al.candidates r codeL)) al labels

/-- The walks through subtrees end that a level starts. -/
def LevelEnds (level : List (Nat × Nat)) (al : Alignment) : Prop :=
  Loop.Along (fun al (l, r) => LabelsEnd l r (al.left.state l).transitions.entries al)
    (fun al (l, r) => al.alignStates l r) { al with found := [] } level

theorem splitLabels_spec (h : Aligning left₀ right₀ k todo al) (hpair : (l, r) ∈ todo)
    (hp : Partly l r labels al) :
    LabelsEnd l r labels al ∧ Aligning left₀ right₀ k todo (al.splitLabels l r labels) ∧
      Partly l r [] (al.splitLabels l r labels) :=
  Loop.along_foldl (fun al labels => Aligning left₀ right₀ k todo al ∧ Partly l r labels al)
    (fun _ _ _ ⟨h, hp⟩ => splitAgainst_spec h hpair hp (candidates_spec h)) ⟨h, hp⟩

/-- A pair whose labels have all been split is settled. -/
theorem alignStates_spec (h : Aligning left₀ right₀ k ((l, r) :: rest) al) :
    LabelsEnd l r (al.left.state l).transitions.entries al ∧
      Aligning left₀ right₀ k rest (al.alignStates l r) := by
  have hp : Partly l r (al.left.state l).transitions.entries al :=
    ⟨fun _ _ hmem => hmem, h.left.forest.nodup_dests, fun _ _ hmem => .inl hmem⟩
  obtain ⟨hends, hinv, hdone⟩ := splitLabels_spec h (by simp) hp
  refine ⟨hends, hinv.left, hinv.right, hinv.corr, ?_, ?_, hinv.found_paired, ?_, hinv.found_depth⟩
  · intro x y hxy
    rcases hinv.settled x y hxy with hmem | hs
    · rcases List.mem_cons.1 hmem with heq | hmem
      · obtain ⟨rfl, rfl⟩ := Prod.mk.inj heq
        exact .inr (.inr fun c next he => (hdone.settled c next he).resolve_left (by simp))
      · exact .inl hmem
    · exact .inr hs
  · exact fun x y hxy => hinv.todo_paired x y (List.mem_cons_of_mem _ hxy)
  · exact fun x y hxy => hinv.todo_depth x y (List.mem_cons_of_mem _ hxy)

/-- The pairs found on a level make up the next one. -/
theorem alignLevel_spec (h : Aligning left₀ right₀ k todo { al with found := [] }) :
    LevelEnds todo al ∧ Aligning left₀ right₀ (k + 1) (al.alignLevel todo).found.reverse
      { al.alignLevel todo with found := [] } := by
  obtain ⟨hends, hinv⟩ := Loop.along_foldl (fun al todo => Aligning left₀ right₀ k todo al)
    (fun _ _ _ h => alignStates_spec h) h
  refine ⟨hends, hinv.left, hinv.right, hinv.corr, ?_, ?_, by simp, ?_, by simp⟩
  · intro x y hxy
    rcases hinv.settled x y hxy with hmem | hmem | hs
    · simp at hmem
    · exact .inl (List.mem_reverse.2 hmem)
    · exact .inr (.inr hs)
  · exact fun x y hxy => hinv.found_paired x y (List.mem_reverse.1 hxy)
  · exact fun x y hxy => hinv.found_depth x y (List.mem_reverse.1 hxy)

/-! ## The walk -/

/-- The walk from the given pairs ends with an alignment, and so do the walks through subtrees on
the way. -/
def WalkEnds (todo : List (Nat × Nat)) (al last : Alignment) : Prop :=
  Loop.EndsWith (fun s => LevelEnds s.1 s.2) alignStep (todo, al) ([], last)

/-- Corresponding states of a level are at its depth, so there are no more levels than states. -/
theorem Aligning.lt_size (h : Aligning left₀ right₀ k todo al) (hleft : left₀.Forest [0])
    (hpair : (l, r) ∈ todo) : k < left₀.size := by
  obtain ⟨n, hpath⟩ := (h.corr.reached l r (h.todo_paired l r hpair)).1.path
  have hk := h.todo_depth l r hpair n hpath
  obtain ⟨f, hf, hcover⟩ := h.left.cover
  have hpath' := (hcover.path h.left.forest.toProper .refl hpath).2
  rw [hf] at hpath'
  have := path_length_lt hleft.acyclic hleft.target_lt hpath' (hleft.root_lt 0 (by simp))
  omega

/-- The walk has got to a level, with `n` more to come at most. -/
def AlignLoop (left₀ right₀ : Automaton) (n : Nat) (s : List (Nat × Nat) × Alignment) : Prop :=
  ∃ k, n + k = left₀.size ∧ Aligning left₀ right₀ k s.1 { s.2 with found := [] }

/-- There are no more pairs, so all corresponding states are settled. -/
def AlignEnd (left₀ right₀ : Automaton) (s : List (Nat × Nat) × Alignment) : Prop :=
  s.1 = [] ∧ ∃ k, Aligning left₀ right₀ k [] { s.2 with found := [] }

theorem AlignLoop.step {n : Nat} {s : List (Nat × Nat) × Alignment} (hleft : left₀.Forest [0])
    (h : AlignLoop left₀ right₀ n s) : LevelEnds s.1 s.2 ∧
      Loop.Advances alignStep (AlignLoop left₀ right₀) (AlignEnd left₀ right₀) n s := by
  obtain ⟨level, al⟩ := s
  obtain ⟨k, hn, h⟩ := h
  obtain ⟨hends, hnext⟩ := alignLevel_spec h
  refine ⟨hends, ?_⟩
  cases level with
  | nil => exact .inl ⟨([], al), rfl, rfl, k, h⟩
  | cons pair level =>
    have hk := h.lt_size hleft (l := pair.1) (r := pair.2) (by simp)
    exact .inr ⟨n - 1, _, by omega, rfl, k + 1, by omega, hnext⟩

/-- The walk as a whole. At its end all corresponding states are settled. -/
theorem walk_spec (hleft : left₀.Forest [0]) (h : Aligning left₀ right₀ 0 todo { al with found := [] }) :
    ∃ last, (Loop.run alignStep (left₀.size + 1) (todo, al)).2 = last ∧ WalkEnds todo al last ∧
      ∃ k, Aligning left₀ right₀ k [] { last with found := [] } := by
  have hinit : AlignLoop left₀ right₀ left₀.size (todo, al) := ⟨0, rfl, h⟩
  obtain ⟨hends, hnil, k, hinv⟩ :=
    Loop.endsWith_run (fun _ _ h => h.step hleft) hinit (Nat.lt_succ_self _)
  exact ⟨_, rfl, hends.of_fst_nil hnil, k, hinv⟩

end Alignment
end ByteMatch
