import ByteMatch.Proofs.Machine.Run
import ByteMatch.Proofs.Pattern.OwnMarks

/-!
# ByteMatch.Proofs.Machine.MarkCount

The number of marks in the entry point of a program.

It counts the groups that capture and the mark for alternatives, but not the marks that lookaheads and lazy
groups take for themselves.

* `Pattern.HasPart`: the nodes whose fragments are parts of the fragment of a node.
* `Pattern.Marks.exists_within_iff`: the marks of these nodes, and of no others, are in its nesting.
* `Pattern.compile_marks_lt_iff`: the marks of a loaded program are below the number if and only if no group
  in it takes a mark for itself.
-/

namespace ByteMatch

open Step

/-! ## Absolute addresses -/

@[simp] theorem Instruction.opcode_relocateAt {i : Instruction} {pc : Nat} :
    (i.relocateAt pc).opcode = i.opcode := by
  rw [relocateAt]
  split <;> rfl

@[simp] theorem Instruction.index_relocateAt {i : Instruction} {pc : Nat} :
    (i.relocateAt pc).index = i.index := by
  rw [relocateAt]
  split <;> rfl

/-- Instructions with absolute addresses have the same opcodes and indices. -/
theorem forall_mem_relocate {base : Nat} {code : Code} {P : UInt8 → Int → Prop} :
    (∀ i ∈ relocate base code, P i.opcode i.index) ↔ ∀ i ∈ code, P i.opcode i.index := by
  induction code generalizing base with
  | nil => exact Iff.rfl
  | cons i rest ih =>
    have hcons : relocate base (i :: rest) = i.relocateAt base :: relocate (base + 1) rest := rfl
    rw [hcons, List.forall_mem_cons, List.forall_mem_cons, ih, Instruction.opcode_relocateAt,
      Instruction.index_relocateAt]

namespace Pattern

variable {p p' q : Pattern} {root i j next limit : Nat} {alternativeMark : Option Nat} {t : Nesting}
  {options : CompileOptions} {limits : Limits}

/-! ## Parts of fragments -/

/-- The fragment of node `i` has the one of node `j` as a part. -/
def HasPart (p : Pattern) (i j : Nat) : Prop :=
  match (p.node i).kind with
  | .group | .alternation => j ∈ (p.node i).children
  | .repetition min max => mostIterations min max ≠ 0 ∧ (p.node i).children.head? = some j
  | .charClass _ | .action _ => False

theorem HasPart.child (h : p.HasPart i j) : p.Child i j := by
  rw [HasPart] at h
  split at h
  · exact h
  · exact h
  · exact List.mem_of_mem_head? h.2
  · exact h.elim
  · exact h.elim

/-- What is in a nesting is a part of the fragment. -/
theorem Marks.hasPart_of_within {u : Nesting} (h : p.Marks limit alternativeMark next t) (hu : u.Within t) :
    Relation.ReflTransGen p.HasPart t.place u.place := by
  induction h with
  | @group next i parts hkind hroom hplaces h ih =>
    cases hu with
    | refl => exact .refl
    | part hv hu =>
      refine .head ?_ (ih _ hv hu)
      rw [Nesting.place, HasPart, hkind]
      exact child_of_mem_parts hplaces hv
  | @alternation next i parts hkind hplaces h ih =>
    cases hu with
    | refl => exact .refl
    | part hw hu =>
      obtain ⟨v, hv, rfl⟩ := List.mem_map.1 hw
      cases hu with
      | refl => exact .refl
      | part hv' hu =>
        obtain rfl := List.mem_singleton.1 hv'
        refine .head ?_ (ih _ hv hu)
        rw [Nesting.place, HasPart, hkind]
        exact child_of_mem_parts hplaces hv
  | @repetition next i child min max parts rest hkind hchildren hplaces hparts h ih =>
    cases hu with
    | refl => exact .refl
    | part hv hu =>
      refine .head ?_ (ih _ hv hu)
      rw [Nesting.place, HasPart, hkind, hchildren, hplaces _ hv]
      exact ⟨fun hzero => List.ne_nil_of_mem hv (hparts.2 hzero), rfl⟩
  | charClass hkind | action hkind =>
    cases hu with
    | refl => exact .refl
    | part hv => cases hv

/-- A part of the fragment of a node has its marks in the nesting. -/
theorem Marks.exists_part (h : p.Marks limit alternativeMark next t) (hpart : p.HasPart t.place j) :
    ∃ (u : Nesting) (n : Nat), u.Within t ∧ u.place = j ∧ p.Marks limit alternativeMark n u := by
  cases h with
  | @group _ i parts hkind hroom hplaces h =>
    rw [Nesting.place, HasPart, hkind] at hpart
    simp only [← hplaces] at hpart
    obtain ⟨u, hu, rfl⟩ := List.mem_map.1 hpart
    exact ⟨u, _, .part hu .refl, rfl, h u hu⟩
  | @alternation _ i parts hkind hplaces h =>
    rw [Nesting.place, HasPart, hkind] at hpart
    simp only [← hplaces] at hpart
    obtain ⟨u, hu, rfl⟩ := List.mem_map.1 hpart
    exact ⟨u, _, .part (List.mem_map_of_mem hu) (.part List.mem_cons_self .refl), rfl, h u hu⟩
  | @repetition _ i child min max parts rest hkind hchildren hplaces hparts h =>
    rw [Nesting.place, HasPart, hkind, hchildren] at hpart
    obtain ⟨hmost, hhead⟩ := hpart
    obtain rfl := Option.some.inj hhead
    obtain ⟨u, hu⟩ := List.exists_mem_of_ne_nil parts fun hnil => hmost (hparts.1 hnil)
    exact ⟨u, _, .part hu .refl, hplaces u hu, h u hu⟩
  | charClass hkind | action hkind =>
    rw [Nesting.place, HasPart, hkind] at hpart
    exact hpart.elim

theorem Marks.exists_within_iff (h : p.Marks limit alternativeMark next t) :
    (∃ u : Nesting, u.Within t ∧ u.place = j) ↔ Relation.ReflTransGen p.HasPart t.place j := by
  constructor
  · rintro ⟨u, hu, rfl⟩
    exact h.hasPart_of_within hu
  · intro hpath
    generalize hi : t.place = i at hpath
    induction hpath using Relation.ReflTransGen.head_induction_on generalizing t next with
    | refl => exact ⟨t, .refl, hi⟩
    | head hpart _ ih =>
      obtain ⟨v, n, hv, hplace, hmarks⟩ := h.exists_part (hi ▸ hpart)
      obtain ⟨u, hu, huj⟩ := ih hmarks hplace
      exact ⟨u, hu.trans hv, huj⟩

/-! ## The number of marks -/

/-- A lookahead or a lazy group that does not capture. -/
def TakesMark (p : Pattern) (root i : Nat) : Prop :=
  (p.node i).kind = .group ∧ p.captures root i = false ∧
    ((p.node i).attributes.lookahead = true ∨ (p.node i).attributes.lazy = true)

namespace Marked

variable {numbering : Numbering} (h : p.Marked root numbering limits q)
include h

theorem hasPart : q.HasPart = p.HasPart := by
  funext i j
  cases hkind : (p.node i).kind with
  | group | alternation | repetition | charClass =>
    have hkind' := (h.kind i _ (by simp)).2 hkind
    simp only [HasPart, hkind, hkind', h.children]
  | action a =>
    cases hkind' : (q.node i).kind with
    | group | alternation | repetition | charClass =>
      have hsame := (h.kind i _ (by simp)).1 hkind'
      simp [hkind] at hsame
    | action a' => simp only [HasPart, hkind, hkind']

theorem ownsMark_iff (hacyclic : p.Acyclic root) (hi : p.Reaches root i) :
    q.ownsMark i = true ↔ p.TakesMark root i := by
  have hmark : (q.node i).mark = none ↔ i ∉ p.capturing root := by
    rw [Option.eq_none_iff_forall_ne_some, List.mem_iff_getElem?, not_exists]
    exact forall_congr' fun k => not_congr (h.mark i hi k)
  rw [Pattern.ownsMark_iff, hmark, TakesMark, h.kind i _ (by simp), h.isLazy, h.lookahead,
    hacyclic.mem_capturing]
  simp [hi]

end Marked

theorem build_groupCount {c : AssembledProgram} (hok : p.build options limits = .ok c p') :
    c.start.groupCount = c.numbering.groupCount := by
  obtain ⟨s, _, -, hrest⟩ := bind_ok.1 hok
  cases hroot : s.root with
  | none =>
    rw [hroot] at hrest
    exact (throw_ok.1 hrest).elim
  | some root =>
    simp only [hroot, bind_ok, pure_ok] at hrest
    obtain ⟨-, -, -, -, -, -, -, -, -, numbering, -, -, guardCount, -, -, code, -, -, rfl, -⟩ := hrest
    rfl

/-- The marks that a program uses are below the group count unless a group takes one for itself. -/
theorem Tree.build_marks_lt_iff {c : AssembledProgram} (h : p.Tree root) (hroot : p.root = some root)
    (hfresh : p.Unmarked root) (hok : p.build options limits = .ok c p') :
    (∀ a ∈ c.code, Opcode.usesMark a.opcode = true → a.index < c.numbering.groupCount) ↔
      ∀ i, Relation.ReflTransGen p.HasPart root i → ¬ p.TakesMark root i := by
  obtain ⟨hmarked, start, t, hcode, hstart, rfl, hmarks⟩ := h.build_ok hroot hfresh hok
  have hpos := hmarked.groupCount_pos h
  have hmem : ∀ a, a ∈ start ++ t.code ↔ a ∈ c.code ∧ Opcode.usesMark a.opcode = true := by
    intro a
    rw [← hcode, Code.mem_marks]
  have howns : ∀ i, Relation.ReflTransGen p.HasPart t.place i →
      (p'.ownsMark i = true ↔ p.TakesMark t.place i) := fun i hpath =>
    hmarked.ownsMark_iff h.toAcyclic (Relation.ReflTransGen.mono (fun _ _ => HasPart.child) _ _ hpath)
  constructor
  · intro hlt i hpath htakes
    obtain ⟨u, hu, rfl⟩ := hmarks.exists_within_iff.2 (hmarked.hasPart ▸ hpath)
    have hu' := (howns u.place hpath).2 htakes
    obtain ⟨n, hnext, hmarks', hreaches⟩ := hmarks.within hu hu'
    have hown := hmarked.ownMark hpos hnext (hmarked.reaches ▸ hreaches) hmarks' hu'
    obtain ⟨ha, huses⟩ := (hmem _).1 (List.mem_append_right _ (hu.mem_code hown.start_mem))
    have hindex : (n : Int) < c.numbering.groupCount := hlt _ ha huses
    omega
  · intro hnone a ha huses
    rcases List.mem_append.1 ((hmem a).2 ⟨ha, huses⟩) with hinit | hinside
    · rw [hstart a hinit]
      exact_mod_cast hpos
    · cases hmarks.origin hinside with
      | captured hj hmark hindex =>
        have hlt := hmarked.lt_groupCount (hmarked.reaches ▸ hj) hmark
        omega
      | alternative hmark hindex =>
        have hlt := hmarked.alternative_lt _ hmark
        omega
      | @own u mark hu hu' hfree hroom hindex =>
        have hpath := hmarks.hasPart_of_within hu
        rw [hmarked.hasPart] at hpath
        exact absurd ((howns u.place hpath).1 hu') (hnone u.place hpath)

/-- The marks that a loaded program uses are below the number in its entry point if and only if no lookahead
and no lazy group in it is without a mark of the numbering. -/
theorem compile_marks_lt_iff {reported : Limits} {m m' : Machine} {l : LoadedPattern} (h : p.Tree root)
    (hroot : p.root = some root) (hfresh : p.Unmarked root)
    (hok : p.compile options reported m = (.ok l, p', m')) :
    ∃ added, m'.program = m.program ++ added ∧
      ((∀ a ∈ added, Opcode.usesMark a.opcode = true → a.index < l.start.groupCount) ↔
        ∀ i, Relation.ReflTransGen p.HasPart root i → ¬ p.TakesMark root i) := by
  obtain ⟨c, hbuild, rfl, rfl⟩ := compile_ok hok
  refine ⟨_, rfl, ?_⟩
  have hcount : (c.startAt m.programEnd).groupCount = c.numbering.groupCount := build_groupCount hbuild
  rw [hcount, ← h.build_marks_lt_iff hroot hfresh hbuild]
  exact forall_mem_relocate (P := fun op index => Opcode.usesMark op = true → index < _)

/-- A machine with two marks. -/
def twoMarks : Limits := { maxMarkPairs := 2 }

/-- A group that captures, and a lookahead no time at all. -/
def skippedLookahead : Pattern where
  nodes := #[
    { kind := .group, children := [1, 3] },
    { kind := .group, children := [2] },
    { kind := .charClass 10 },
    { kind := .repetition 0 (some 0), children := [4] },
    { kind := .group, attributes := { lookahead := true }, children := [5] },
    { kind := .charClass 11 }]
  root := some 0

/-- `skippedLookahead` with two marks. -/
def skippedLookaheadMarked : Pattern :=
  (skippedLookahead.update 0 ({ · with mark := some 0 })).update 1 ({ · with mark := some 1 })

/-- What the numbering of `skippedLookahead` answers, and the entry point of the program. -/
def skippedLookaheadLoaded : LoadedPattern where
  handle := 0
  start := ⟨0, 0, 2, 0, 1, 0, 0, [0xFFFFFFFC, 0xFFFFFFFD]⟩
  numbering :=
    { groupCount := 2
      names := []
      endOrder := [(1, 0)]
      backrefMask := 0
      subMasks := #[0xFFFFFFFC, 0xFFFFFFFD]
      alternativeMark := none }

open Opcode in
/-- The program of `skippedLookahead`, loaded at the beginning. -/
def skippedLookaheadProgram : Code :=
  [ ⟨markStart, 0, 0, false⟩, ⟨markStart, 1, 0, false⟩,
    ⟨character, 0, 10, false⟩,
    ⟨newThread, 0, 4, true⟩, ⟨markEnd, 1, 0, false⟩,
    ⟨newThread, 0, 6, true⟩, ⟨markEnd, 0, 0, false⟩,
    ⟨newThread, 0, 8, true⟩, ⟨report, 0, 0, true⟩ ]

/-- The lookahead is not a part of the program, and so two marks are enough. -/
theorem compile_marks_lt_iff_skippedLookahead :
    skippedLookahead.Tree 0 ∧ skippedLookahead.root = some 0 ∧ skippedLookahead.Unmarked 0 ∧
    skippedLookahead.compile {} twoMarks (.empty twoMarks) =
      (.ok skippedLookaheadLoaded, skippedLookaheadMarked,
        ⟨twoMarks, #[], skippedLookaheadProgram, #[skippedLookaheadLoaded.start]⟩) ∧
    (∀ a ∈ skippedLookaheadProgram, Opcode.usesMark a.opcode = true → a.index < 2) ∧
    skippedLookahead.TakesMark 0 4 ∧ ¬ Relation.ReflTransGen skippedLookahead.HasPart 0 4 := by
  have htree : skippedLookahead.Tree 0 := tree_of_lt (by decide) rfl (by decide) (by decide) (by decide)
  have hfresh : skippedLookahead.Unmarked 0 := htree.unmarked (by decide)
  have hcompile : skippedLookahead.compile {} twoMarks (.empty twoMarks) =
      (.ok skippedLookaheadLoaded, skippedLookaheadMarked,
        ⟨twoMarks, #[], skippedLookaheadProgram, #[skippedLookaheadLoaded.start]⟩) := by decide +kernel
  have htakes : skippedLookahead.TakesMark 0 4 := ⟨rfl, by decide, .inl rfl⟩
  have hlt : ∀ a ∈ skippedLookaheadProgram, Opcode.usesMark a.opcode = true → a.index < 2 := by decide
  obtain ⟨added, hadded, hiff⟩ := compile_marks_lt_iff htree rfl hfresh hcompile
  obtain rfl : skippedLookaheadProgram = added := hadded
  exact ⟨htree, rfl, hfresh, hcompile, hlt, htakes, fun hpath => hiff.1 hlt 4 hpath htakes⟩

/-- A lookahead. -/
def lookaheadOnly : Pattern where
  nodes := #[
    { kind := .group, children := [1] },
    { kind := .group, attributes := { lookahead := true }, children := [2] },
    { kind := .charClass 1 }]
  root := some 0

/-- What the numbering of `lookaheadOnly` answers, and the entry point of the program. -/
def lookaheadOnlyLoaded : LoadedPattern where
  handle := 0
  start := ⟨0, 0, 1, 0, 1, 0, 0, [0xFFFFFFFE, 0xFFFFFFFF]⟩
  numbering :=
    { groupCount := 1
      names := []
      endOrder := []
      backrefMask := 0
      subMasks := #[0xFFFFFFFE, 0xFFFFFFFF]
      alternativeMark := none }

open Opcode in
/-- The program of `lookaheadOnly`, loaded at the beginning. -/
def lookaheadOnlyProgram : Code :=
  [ ⟨markStart, 0, 0, false⟩,
    ⟨markStart, 1, 0, false⟩, ⟨character, 0, 1, false⟩, ⟨resetToMark, 1, 0, false⟩,
    ⟨newThread, 0, 5, true⟩, ⟨markEnd, 0, 0, false⟩,
    ⟨newThread, 0, 7, true⟩, ⟨report, 0, 0, true⟩ ]

/-- The entry point counts a single mark, and the lookahead uses mark 1. -/
theorem groupCount_le_lookaheadOnly :
    lookaheadOnly.Tree 0 ∧ lookaheadOnly.root = some 0 ∧ lookaheadOnly.Unmarked 0 ∧
    lookaheadOnly.compile {} twoMarks (.empty twoMarks) =
      (.ok lookaheadOnlyLoaded, lookaheadOnly.update 0 ({ · with mark := some 0 }),
        ⟨twoMarks, #[], lookaheadOnlyProgram, #[lookaheadOnlyLoaded.start]⟩) ∧
    ∃ a ∈ lookaheadOnlyProgram, Opcode.usesMark a.opcode = true ∧
      ¬ a.index < lookaheadOnlyLoaded.start.groupCount := by
  have htree : lookaheadOnly.Tree 0 := tree_of_lt (by decide) rfl (by decide) (by decide) (by decide)
  exact ⟨htree, rfl, htree.unmarked (by decide), by decide +kernel,
    ⟨Opcode.resetToMark, 1, 0, false⟩, by decide, by decide, by decide⟩

end Pattern
end ByteMatch
