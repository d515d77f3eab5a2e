import ByteMatch.Proofs.Automaton.Align
import ByteMatch.Proofs.Automaton.Compact

/-!
# ByteMatch.Proofs.Automaton.Aligned

Two trees that have been made comparable.

* `Alignment.Comparable`: both trees cover the given ones, and all corresponding states are settled.
  In `Alignment.Aligned` trees there are no holes either.
* `Alignment.Comparable.compactLeft`, `Alignment.Comparable.compactRight`: removing the holes of a
  tree renumbers its states in the correspondence too.
* `Automaton.align_spec`: aligning ends, and makes two trees comparable.
-/

namespace ByteMatch
namespace Automaton

variable {left right b : Automaton} {R : Nat → Nat → Prop} {σ τ : Nat → Nat} {l r : Nat}

/-! ## Renumbering one side -/

section Renumber

variable (hn : Renumbering (left.Reaches 0) left b σ τ)
include hn

theorem Correspondence.renumber (h : Correspondence left right R) (hroot : σ 0 = 0) :
    Correspondence b right fun l' r => ∃ l, R l r ∧ σ l = l' where
  root := ⟨0, h.root, hroot⟩
  right_unique := by
    rintro l' r r' ⟨l, hR, rfl⟩ ⟨x, hR', heq⟩
    obtain rfl := hn.injective (h.reached x r' hR').1 (h.reached l r hR).1 heq
    exact h.right_unique _ _ _ hR hR'
  left_unique := by
    rintro l l' r ⟨x, hR, rfl⟩ ⟨y, hR', rfl⟩
    rw [h.left_unique _ _ _ hR hR']
  reached := by
    rintro l' r ⟨l, hR, rfl⟩
    have hl := (hn.reaches .refl (h.reached l r hR).1).2
    rw [hroot] at hl
    exact ⟨hl, (h.reached l r hR).2⟩
  parent := by
    rintro l' r ⟨l, hR, rfl⟩
    rcases h.parent l r hR with ⟨rfl, rfl⟩ | ⟨p, p', c, he, he', hp⟩
    · exact .inl ⟨hroot, rfl⟩
    · exact .inr ⟨σ p, p', c, hn.edge (h.reached p p' hp).1 he, he', p, hp, rfl⟩

theorem Settled.renumber (h : Settled left right R l r) (hl : left.Reaches 0 l) :
    Settled b right (fun l' r => ∃ l, R l r ∧ σ l = l') (σ l) r := by
  intro c next he c' next' he'
  obtain ⟨-, hnext, he⟩ := hn.edge_back he
  rw [hn.left_inv l hl] at he
  refine (h c _ he c' next' he').imp_left fun ⟨hc, hR⟩ => ⟨hc, _, hR, hn.right_inv _ hnext⟩

end Renumber
end Automaton

namespace Alignment

open Automaton

variable {al : Alignment} {left₀ right₀ : Automaton}

/-- Trees that cover the given ones, and corresponding states whose labels are settled. -/
structure Comparable (left₀ right₀ : Automaton) (leftHoles rightHoles : Bool) (al : Alignment) :
    Prop where
  left : Refines left₀ leftHoles al.left
  right : Refines right₀ rightHoles al.right
  corr : Correspondence al.left al.right al.Paired
  settled : ∀ l r, al.Paired l r → Settled al.left al.right al.Paired l r

/-- Comparable trees without holes. -/
abbrev Aligned (left₀ right₀ : Automaton) (al : Alignment) : Prop :=
  Comparable left₀ right₀ false false al

theorem Aligning.comparable {k : Nat} (h : Aligning left₀ right₀ k [] { al with found := [] }) :
    Comparable left₀ right₀ al.leftHoles al.rightHoles al :=
  ⟨h.left, h.right, h.corr, fun l r hlr =>
    ((h.settled l r hlr).resolve_left (by simp)).resolve_left (by simp)⟩

namespace Comparable

variable {leftHoles rightHoles : Bool} (h : Comparable left₀ right₀ leftHoles rightHoles al)
include h

section Left

variable (hwf : left₀.WellFormed) (hpos : 0 < left₀.size)
include hwf hpos

theorem paired_compactLeft (hholes : al.leftHoles = true) : al.compactLeft.Paired =
    fun l' r => ∃ l, al.Paired l r ∧ al.left.compact.2.apply l = l' := by
  funext l' r
  have hpairs : al.compactLeft.pairs =
      (al.pairs.filter fun _ l => !(al.left.state l).isHole).mapValues al.left.compact.2.apply := by
    rw [compactLeft, if_pos hholes]
  rw [Paired, hpairs, Matching.get?_mapValues, Matching.get?_filter, eq_iff_iff]
  constructor
  · intro heq
    obtain ⟨l, hl, rfl⟩ := Option.map_eq_some_iff.1 heq
    exact ⟨l, (Option.filter_eq_some_iff.1 hl).1, rfl⟩
  · rintro ⟨l, hl, rfl⟩
    -- a state that has a partner is not a hole
    have hlive := (h.left.live_iff hwf hpos).2 (h.corr.reached l r hl).1
    exact Option.map_eq_some_iff.2 ⟨l, Option.filter_eq_some_iff.2 ⟨hl, by simp [hlive]⟩, rfl⟩

theorem compactLeft (hholes : leftHoles = al.leftHoles) :
    Comparable left₀ right₀ false rightHoles al.compactLeft := by
  cases hal : al.leftHoles with
  | false =>
    rw [Alignment.compactLeft, hal, if_neg (by simp)]
    rw [hholes, hal] at h
    exact h
  | true =>
    obtain ⟨τ, hn, hroot, -⟩ := h.left.compact hwf hpos
    have hleft : al.compactLeft.left = al.left.compact.1 := by rw [Alignment.compactLeft, if_pos hal]
    have hright : al.compactLeft.right = al.right := by rw [Alignment.compactLeft, if_pos hal]
    have hpaired := h.paired_compactLeft hwf hpos hal
    refine ⟨?_, ?_, ?_, ?_⟩
    · rw [hleft]
      exact h.left.renumber hn hroot
    · rw [hright]
      exact h.right
    · rw [hleft, hright, hpaired]
      exact h.corr.renumber hn hroot
    · rw [hleft, hright, hpaired]
      rintro l' r ⟨l, hlr, rfl⟩
      exact (h.settled l r hlr).renumber hn (h.corr.reached l r hlr).1

end Left

section Right

variable (hwf : right₀.WellFormed) (hpos : 0 < right₀.size)
include hwf hpos

theorem paired_compactRight (hholes : al.rightHoles = true) : al.compactRight.Paired =
    fun l r' => ∃ r, al.Paired l r ∧ al.right.compact.2.apply r = r' := by
  funext l r'
  obtain ⟨τ, hn, -, hkey⟩ := h.right.compact hwf hpos
  have hpairs : al.compactRight.pairs =
      (al.pairs.filter fun r _ => !(al.right.state r).isHole).rename al.right.compact.2 := by
    rw [compactRight, if_pos hholes]
  have hfilter : ∀ l r, (al.pairs.filter fun r _ => !(al.right.state r).isHole).get? r = some l ↔
      al.Paired l r := by
    intro l r
    rw [Matching.get?_filter, Option.filter_eq_some_iff]
    refine ⟨And.left, fun hlr => ⟨hlr, ?_⟩⟩
    have hlive := (h.right.live_iff hwf hpos).2 (h.corr.reached l r hlr).2
    simp [hlive]
  have hinj : ∀ r r', (al.pairs.filter fun r _ => !(al.right.state r).isHole).contains r = true →
      (al.pairs.filter fun r _ => !(al.right.state r).isHole).contains r' = true →
      al.right.compact.2.apply r = al.right.compact.2.apply r' → r = r' := by
    intro r r' hr hr' heq
    obtain ⟨l, hl⟩ := Matching.contains_iff.1 hr
    obtain ⟨l', hl'⟩ := Matching.contains_iff.1 hr'
    exact hn.injective (h.corr.reached l r ((hfilter l r).1 hl)).2
      (h.corr.reached l' r' ((hfilter l' r').1 hl')).2 heq
  rw [Paired, hpairs, Matching.get?_rename hkey hinj, eq_iff_iff]
  exact exists_congr fun r => and_congr_left fun _ => hfilter l r

theorem compactRight (hholes : rightHoles = al.rightHoles) :
    Comparable left₀ right₀ leftHoles false al.compactRight := by
  cases hal : al.rightHoles with
  | false =>
    rw [Alignment.compactRight, hal, if_neg (by simp)]
    rw [hholes, hal] at h
    exact h
  | true =>
    obtain ⟨τ, hn, hroot, -⟩ := h.right.compact hwf hpos
    have hleft : al.compactRight.left = al.left := by rw [Alignment.compactRight, if_pos hal]
    have hright : al.compactRight.right = al.right.compact.1 := by
      rw [Alignment.compactRight, if_pos hal]
    have hpaired := h.paired_compactRight hwf hpos hal
    refine ⟨?_, ?_, ?_, ?_⟩
    · rw [hleft]
      exact h.left
    · rw [hright]
      exact h.right.renumber hn hroot
    · rw [hleft, hright, hpaired]
      exact (h.corr.swap.renumber hn hroot).swap
    · rw [hleft, hright, hpaired]
      rintro l r' ⟨r, hlr, rfl⟩
      exact ((h.settled l r hlr).swap.renumber hn (h.corr.reached l r hlr).2).swap

end Right
end Comparable
end Alignment

/-! ## Aligning two trees -/

namespace Automaton

open ByteMatch.Alignment

variable {left right : Automaton}

/-- The two trees before the walk. Only the roots correspond. -/
def start (left right : Automaton) : Alignment :=
  ⟨left, right, (∅ : Matching).insert 0 0, [], false, false⟩

/-- Aligning two trees ends, with the result that `align` gives. -/
def AlignEnds (left right : Automaton) : Prop :=
  2 ≤ left.size → 2 ≤ right.size → ∃ last, WalkEnds [(0, 0)] (start left right) last ∧
    align left right = last.compactLeft.compactRight

theorem align_of_size_lt (hl : 0 < left.size) (hr : 0 < right.size)
    (h : left.size < 2 ∨ right.size < 2) : align left right = start left right := by
  have hl' : left.isEmpty = false := by simpa using Nat.ne_of_gt hl
  have hr' : right.isEmpty = false := by simpa using Nat.ne_of_gt hr
  rw [align, if_pos (by simpa using h), hl', hr']
  rfl

theorem align_of_size_ge (h : ¬ (left.size < 2 ∨ right.size < 2)) : align left right =
    (Loop.run alignStep (left.size + 1) ([(0, 0)], start left right)).2.compactLeft.compactRight := by
  rw [align, if_neg (by simpa using h)]
  rfl

theorem paired_start {l r : Nat} : (start left right).Paired l r ↔ l = 0 ∧ r = 0 := by
  show ((∅ : Matching).insert 0 0).get? r = some l ↔ _
  rw [Matching.get?_insert]
  by_cases hr : r = 0 <;> simp [hr, eq_comm]

theorem correspondence_start : Correspondence left right (start left right).Paired where
  root := paired_start.2 ⟨rfl, rfl⟩
  right_unique l r r' h h' := (paired_start.1 h).2.trans (paired_start.1 h').2.symm
  left_unique l l' r h h' := (paired_start.1 h).1.trans (paired_start.1 h').1.symm
  reached l r h := by
    obtain ⟨rfl, rfl⟩ := paired_start.1 h
    exact ⟨.refl, .refl⟩
  parent l r h := .inl (paired_start.1 h)

theorem Forest.not_edge_of_size (h : left.Forest [0]) (hsize : left.size < 2) {p q : Nat} {c : ByteSet} :
    ¬ left.Edge p c q := by
  intro he
  have hp := lt_of_edge he
  have hq := h.target_lt _ _ _ he
  obtain rfl : p = 0 := by omega
  obtain rfl : q = 0 := by omega
  exact h.acyclic 0 (.single ⟨c, he⟩)

section Forest

variable (hleft : left.Forest [0]) (hl : ∀ q, q < left.size → left.Reaches 0 q)
  (hright : right.Forest [0]) (hr : ∀ q, q < right.size → right.Reaches 0 q)
include hleft hl hright hr

/-- Where one of the trees is a single state, there are no labels to split. -/
theorem aligned_of_size_lt (hsize : left.size < 2 ∨ right.size < 2) :
    Aligned left right (align left right) := by
  rw [align_of_size_lt (hleft.root_lt 0 (by simp)) (hright.root_lt 0 (by simp)) hsize]
  refine ⟨.refl hleft hl, .refl hright hr, correspondence_start, ?_⟩
  intro l r _ c next he c' next' he'
  rcases hsize with hsize | hsize
  · exact absurd he (hleft.not_edge_of_size hsize)
  · exact absurd he' (hright.not_edge_of_size hsize)

theorem aligning_start : Aligning left right 0 [(0, 0)] { start left right with found := [] } := by
  refine ⟨.refl hleft hl, .refl hright hr, correspondence_start, ?_, ?_, by simp,
    fun _ _ _ n _ => Nat.zero_le n, by simp⟩
  · exact fun l r hlr => .inl (by simp [paired_start.1 hlr])
  · exact fun l r hlr => paired_start.2 (by simpa using hlr)

end Forest

section Align

variable (hl : left.WellFormed) (hlt : left.IsTree) (hlpos : 0 < left.size)
  (hr : right.WellFormed) (hrt : right.IsTree) (hrpos : 0 < right.size)
include hl hlt hlpos hr hrt hrpos

/-- Aligning ends, and makes two trees comparable. -/
theorem align_spec : AlignEnds left right ∧ Aligned left right (align left right) := by
  have hleft := hl.forest hlt hlpos
  have hright := hr.forest hrt hrpos
  by_cases hsize : left.size < 2 ∨ right.size < 2
  · exact ⟨fun h h' => by omega, aligned_of_size_lt hleft hl.reachable hright hr.reachable hsize⟩
  · obtain ⟨last, hlast, hends, k, hinv⟩ :=
      walk_spec hleft (aligning_start hleft hl.reachable hright hr.reachable)
    have halign : align left right = last.compactLeft.compactRight := by
      rw [align_of_size_ge hsize, hlast]
    refine ⟨fun _ _ => ⟨last, hends, halign⟩, ?_⟩
    rw [halign]
    have hcompact := hinv.comparable.compactLeft hl hlpos rfl
    refine hcompact.compactRight hr hrpos ?_
    rw [compactLeft]
    split <;> rfl

end Align
end Automaton
end ByteMatch
