import ByteMatch.Proofs.Pattern.Program

/-!
# ByteMatch.Proofs.Pattern.Capacity

Room in a machine decides whether a pattern is compiled, and never how.

* `Limits.Within`: a machine has at least as much room of each kind as another one.
* `Assembler.restricts_construct`, `Outline.restricts_assemble`: what can be emitted with less room is also
  emitted with more, construct by construct and then for all nodes.
* `Pattern.number_of_within`, `Pattern.build_of_within`: the steps before and the whole build, whose masks
  are the only thing in which the results differ.
* `Pattern.assemble_of_within`: with more room the program is the same, and so is what has been noted in the
  pattern.
-/

namespace ByteMatch

open Step

/-- No limit is higher than the one of the same kind. -/
structure Limits.Within (l l' : Limits) : Prop where
  maxStates : l.maxStates ≤ l'.maxStates
  maxBytecode : l.maxBytecode ≤ l'.maxBytecode
  maxCounters : l.maxCounters ≤ l'.maxCounters
  maxMarkPairs : l.maxMarkPairs ≤ l'.maxMarkPairs
  maxGuards : l.maxGuards ≤ l'.maxGuards

theorem Limits.Within.marks {l l' : Limits} (h : l.Within l') : l.marks ≤ l'.marks := by
  have hpairs := h.maxMarkPairs
  rw [Limits.marks, Limits.marks]
  omega

/-- The same settings, but for the room. -/
structure Settings.Within (settings settings' : Settings) : Prop where
  limits : settings.limits.Within settings'.limits
  alternativeMark : settings.alternativeMark = settings'.alternativeMark

/-! ## Fragments -/

namespace Assembler

/-- The same place with a step that fails more often. -/
def SamePart (part part' : Nat × Assembler Code) : Prop := part.1 = part'.1 ∧ Restricts part.2 part'.2

variable {settings settings' : Settings} {x y : Assembler Code} {xs ys : List (Assembler Code)}
  {parts parts' : List (Nat × Assembler Code)}

theorem restricts_inSequence (h : List.Forall₂ Restricts xs ys) :
    Restricts (inSequence xs) (inSequence ys) := by
  induction h with
  | nil => exact .refl _
  | cons hx _ ih => exact hx.bind fun code => ih.bind_left

theorem restricts_skippable {preview : Option Nat} (h : Restricts x y) :
    Restricts (skippable preview x) (skippable preview y) :=
  .bind_right fun _ => .bind_right fun _ => h.bind_left

/-- The decisions of an alternation only use the places of the alternatives. -/
theorem decisions_congr (h : List.Forall₂ SamePart parts parts') : decisions parts = decisions parts' := by
  induction h with
  | nil => rfl
  | @cons part part' _ _ hpart _ ih =>
    obtain ⟨i, x⟩ := part
    obtain ⟨i', y⟩ := part'
    obtain ⟨rfl, -⟩ := hpart
    rw [decisions, decisions, ih]

section Room

variable (hs : settings.Within settings')
include hs

/-! ### Counters and repetitions -/

theorem restricts_takeCounter : Restricts (takeCounter settings) (takeCounter settings') :=
  .bind_right fun _ => .check (Nat.le_trans hs.limits.maxCounters) (.refl _)

theorem restricts_withCounter {f g : Nat → Assembler Code} (h : ∀ n, Restricts (f n) (g n)) :
    Restricts (withCounter settings f) (withCounter settings' g) :=
  (restricts_takeCounter hs).bind fun counter => (h counter).bind_left

theorem restricts_counted {count : Int} (h : Restricts x y) :
    Restricts (counted settings count x) (counted settings' count y) :=
  restricts_withCounter hs fun _ => .bind_right fun _ => .bind_right fun _ => h.bind_left

theorem restricts_requiredCharacters {t : Template} {root : Int} {min : Nat} :
    Restricts (requiredCharacters settings t root min) (requiredCharacters settings' t root min) :=
  .ite (.refl _) (restricts_counted hs (.refl _))

theorem restricts_required {child min : Nat} (h : Restricts x y) :
    Restricts (required settings child x min) (required settings' child y min) := by
  have hlooped : ∀ count : Nat, Restricts
      (counted settings count (inSequence [x, emit Template.yieldThread []]))
      (counted settings' count (inSequence [y, emit Template.yieldThread []])) := fun count =>
    restricts_counted hs (restricts_inSequence (.cons h (.cons (.refl _) .nil)))
  match min with
  | 0 => exact .refl _
  | 1 => exact h
  | count + 2 =>
    refine .bind_right fun _ => .ite ?_ (hlooped _)
    exact restricts_inSequence (.cons h (.cons (.ite h (hlooped _)) .nil))

theorem restricts_disjoint {t : Template} {root count : Int} :
    Restricts (disjoint settings t root count) (disjoint settings' t root count) :=
  .ite (.refl _) (restricts_inSequence
    (.cons (.refl _) (.cons (restricts_withCounter hs fun _ => .refl _) .nil)))

theorem restricts_optional {preview : Option Nat} {count : Int} (h : Restricts x y) :
    Restricts (optional settings preview x count) (optional settings' preview y count) := by
  refine .ite (restricts_skippable h) (.ite (restricts_withCounter hs fun _ => ?_) (.refl _))
  refine .bind_right fun _ => .bind_right fun _ => .bind_left ?_
  exact restricts_skippable (restricts_inSequence (.cons h (.cons (.refl _) (.cons (.refl _) .nil))))

theorem restricts_characterRepetition {n : Node} {root : Int} {min : Nat} {max : Option Nat} :
    Restricts (characterRepetition settings n root min max)
      (characterRepetition settings' n root min max) := by
  refine .bind_right fun _ => (restricts_requiredCharacters hs).bind fun _ => .ite ?_ ?_
  · exact .bind_left (restricts_disjoint hs)
  · exact .bind_right fun _ => .bind_left (restricts_optional hs (.refl _))

theorem restricts_partRepetition {n : Node} {child min : Nat} {max : Option Nat} (h : Restricts x y) :
    Restricts (partRepetition settings n child x min max)
      (partRepetition settings' n child y min max) :=
  .bind_right fun _ => (restricts_required hs h).bind fun _ => .bind_right fun _ =>
    .bind_left (restricts_optional hs h)

theorem restricts_repetition {i min : Nat} {max : Option Nat} (h : List.Forall₂ SamePart parts parts') :
    Restricts (repetition settings i min max parts) (repetition settings' i min max parts') := by
  cases h with
  | nil => exact .refl _
  | @cons part part' _ _ hpart _ =>
    obtain ⟨child, x⟩ := part
    obtain ⟨child', y⟩ := part'
    obtain ⟨rfl, hstep⟩ := hpart
    refine .bind_right fun n => .bind_right fun m => ?_
    cases m.kind.class? with
    | some root => exact .bind_right fun _ => .bind_left (restricts_characterRepetition hs)
    | none => exact .bind_left (restricts_partRepetition hs hstep)

/-! ### Marks and groups -/

theorem restricts_takeMark : Restricts (takeMark settings) (takeMark settings') :=
  .bind_right fun _ => .check (Nat.le_trans hs.limits.marks) (.refl _)

theorem restricts_group {i : Nat} (h : List.Forall₂ Restricts xs ys) :
    Restricts (group settings i xs) (group settings' i ys) := by
  have hwith : ∀ (n : Node) (mark : Option Nat), Restricts
      (inSequence (groupStart n.attributes.lazy mark :: xs ++ [groupEnd n.attributes.lookahead mark]))
      (inSequence (groupStart n.attributes.lazy mark :: ys ++ [groupEnd n.attributes.lookahead mark])) :=
    fun n mark => restricts_inSequence (.cons (.refl _) (List.rel_append h (.cons (.refl _) .nil)))
  refine .bind_right fun n => .ite ?_ (hwith n _)
  exact (restricts_takeMark hs).bind fun mark => (hwith n (some mark)).bind_left

/-! ### Alternations -/

theorem restricts_alternative {fork i : Nat} (h : Restricts x y) :
    Restricts (alternative settings fork i x) (alternative settings' fork i y) := by
  refine .bind_right fun _ => .bind_right fun n => ?_
  have hmark : alternativeMark settings n = alternativeMark settings' n := by
    rw [alternativeMark, alternativeMark, hs.alternativeMark]
  rw [hmark]
  refine .ite ?_ ?_
  · exact .bind_right fun _ => h.bind_left
  · exact .bind_right fun _ => h.bind_left

theorem restricts_alternatives {forks : List Fork} (h : List.Forall₂ SamePart parts parts') :
    Restricts (alternatives settings forks parts) (alternatives settings' forks parts') := by
  induction h generalizing forks with
  | nil => cases forks <;> exact .refl _
  | @cons part part' _ _ hpart _ ih =>
    obtain ⟨i, x⟩ := part
    obtain ⟨i', y⟩ := part'
    obtain ⟨rfl, hstep⟩ := hpart
    cases forks with
    | nil => exact .refl _
    | cons fork forks => exact (restricts_alternative hs hstep).bind fun _ => ih.bind_left

theorem restricts_alternation (h : List.Forall₂ SamePart parts parts') :
    Restricts (alternation settings parts) (alternation settings' parts') := by
  rw [alternation, alternation, decisions_congr h]
  exact .bind_right fun _ => .bind_right fun _ => (restricts_alternatives hs h).bind_left

/-! ### Nodes -/

theorem restricts_construct {i : Nat} (h : List.Forall₂ SamePart parts parts') :
    Restricts (construct settings i parts) (construct settings' i parts') := by
  refine .bind_right fun n => ?_
  cases n.kind with
  | group =>
    have hsteps : List.Forall₂ Restricts (parts.map (·.2)) (parts'.map (·.2)) :=
      List.forall₂_map_left_iff.2 (List.forall₂_map_right_iff.2 (h.imp fun _ _ hpart => hpart.2))
    exact restricts_group hs hsteps
  | alternation => exact restricts_alternation hs h
  | repetition min max => exact restricts_repetition hs h
  | charClass root => exact .refl _
  | action a => exact .refl _

end Room
end Assembler

namespace Outline

open Assembler

variable {settings settings' : Settings}

mutual

theorem restricts_assemble (hs : settings.Within settings') :
    ∀ o : Outline, Restricts (o.assemble settings) (o.assemble settings')
  | node _ children => restricts_construct hs (restricts_assembleList hs children)

theorem restricts_assembleList (hs : settings.Within settings') : ∀ os : List Outline,
    List.Forall₂ SamePart (assembleList settings os) (assembleList settings' os)
  | [] => .nil
  | o :: rest => .cons ⟨rfl, restricts_assemble hs o⟩ (restricts_assembleList hs rest)

end
end Outline

/-! ## Programs -/

namespace Pattern

open Assembler

variable {limits limits' : Limits} {p q : Pattern} {root : Nat} {options : CompileOptions} {code : Code}

theorem restricts_assignMarks {limit limit' mark : Nat} {names : List (String × Nat)} {groups : List Nat}
    (h : limit ≤ limit') :
    Restricts (assignMarks limit mark names groups) (assignMarks limit' mark names groups) := by
  induction groups generalizing mark names with
  | nil => exact .refl _
  | cons i rest ih =>
    refine .check (Nat.le_trans h) (.bind_right fun _ => .bind_right fun p => ?_)
    cases (p.node i).name with
    | some name => exact ih
    | none => exact ih

theorem restricts_assignGuards {limit limit' guard : Nat} {found : List Nat} (h : limit ≤ limit') :
    Restricts (assignGuards limit guard found) (assignGuards limit' guard found) := by
  induction found generalizing guard with
  | nil => exact .refl _
  | cons i rest ih => exact .check (Nat.le_trans h) (.bind_right fun _ => ih)

section Room

variable (hl : limits.Within limits')
include hl

/-- With more room the marks are the same, and there are more masks. -/
theorem number_of_within {indexAlternatives : Bool} {numbering : Numbering}
    (hok : number root indexAlternatives limits p = .ok numbering q) :
    ∃ masks, number root indexAlternatives limits' p = .ok { numbering with subMasks := masks } q := by
  rw [number, bind_get, bind_get] at hok
  obtain ⟨names, q₁, hmarks, hrest⟩ := bind_ok.1 hok
  simp only at hrest
  split at hrest
  · rw [bind_throw] at hrest
    cases hrest
  · rename_i hroom
    rw [bind_get] at hrest
    obtain ⟨mask, q₂, hreferences, hpure⟩ := bind_ok.1 hrest
    obtain ⟨rfl, rfl⟩ := pure_ok.1 hpure
    have hroom' : ¬ (indexAlternatives && decide (limits'.marks ≤ (p.capturing root).length)) = true := by
      simp only [Bool.and_eq_true, decide_eq_true_eq, not_and] at hroom ⊢
      exact fun hindex hle => hroom hindex (Nat.le_trans hl.marks hle)
    refine ⟨subMasks limits'.marks (q₁.closings (p.outline root)).2, ?_⟩
    rw [number, bind_get, bind_get, bind_of_ok (restricts_assignMarks hl.marks _ _ _ hmarks)]
    simp only
    rw [if_neg hroom', bind_get, bind_of_ok hreferences]
    rfl

theorem restricts_noteGuards : Restricts (noteGuards root limits) (noteGuards root limits') :=
  .bind_right fun _ => (restricts_assignGuards hl.maxGuards).bind_left

/-- The masks of the numbering have no effect on the program. -/
theorem restricts_assembleProgram {numbering : Numbering} {masks : Array UInt32} :
    Restricts (assembleProgram root limits numbering)
      (assembleProgram root limits' { numbering with subMasks := masks }) := by
  intro p code q hok
  obtain ⟨hresolved, s, hprogram, rfl⟩ := assembleProgram_ok hok
  have hs : Settings.Within ⟨limits, numbering.alternativeMark⟩ ⟨limits', numbering.alternativeMark⟩ :=
    ⟨hl, rfl⟩
  have hsteps : Restricts (program ⟨limits, numbering.alternativeMark⟩ root)
      (program ⟨limits', numbering.alternativeMark⟩ root) :=
    .bind_right fun _ => restricts_inSequence (.cons (.refl _)
      (.cons (Outline.restricts_assemble hs _) (.cons (.refl _) (.cons (.refl _) .nil))))
  rw [assembleProgram]
  simp only [hsteps _ _ _ hprogram, hresolved]

theorem build_of_within {c : AssembledProgram} (hok : p.build options limits = .ok c q) :
    ∃ masks : Array UInt32, p.build options limits' = .ok
      { c with
        numbering := { c.numbering with subMasks := masks }
        start := { c.start with subMasks := masks.toList } } q := by
  rw [build, bind_get] at hok ⊢
  cases hroot : p.root with
  | none =>
    rw [hroot] at hok
    cases hok
  | some root =>
    simp only [hroot] at hok ⊢
    rw [bind_modify, bind_get, bind_get] at hok ⊢
    obtain ⟨numbering, q₁, hnumber, hrest₁⟩ := bind_ok.1 hok
    obtain ⟨guardCount, q₂, hguards, hrest₂⟩ := bind_ok.1 hrest₁
    obtain ⟨code, q₃, hprogram, hpure⟩ := bind_ok.1 hrest₂
    obtain ⟨rfl, rfl⟩ := pure_ok.1 hpure
    obtain ⟨masks, hnumber'⟩ := number_of_within hl hnumber
    refine ⟨masks, ?_⟩
    rw [bind_of_ok hnumber', bind_of_ok (restricts_noteGuards hl _ _ _ hguards),
      bind_of_ok (restricts_assembleProgram hl _ _ _ hprogram)]
    rfl

/-- A pattern that compiles with some room compiles to the same program with more of it, and the same is
noted in its nodes. -/
theorem assemble_of_within (hok : p.assemble options limits = .ok code q) :
    p.assemble options limits' = .ok code q := by
  obtain ⟨c, q₁, hbuild, hpure⟩ := bind_ok.1 hok
  obtain ⟨rfl, rfl⟩ := pure_ok.1 hpure
  obtain ⟨masks, hbuild'⟩ := build_of_within hl hbuild
  rw [assemble, bind_of_ok hbuild']
  rfl

end Room

/-- A lookahead, a guarded loop, and a named group of two alternatives. The first characters of two classes
have been tested before. -/
def resourceful : Pattern where
  nodes := #[
    { kind := .group, children := [1, 3, 5] },
    { kind := .group, attributes := { lookahead := true }, children := [2] },
    { kind := .charClass 10, attributes := { previewed := true } },
    { kind := .repetition 0 none, children := [4] },
    { kind := .charClass 11 },
    { kind := .group, name := some "tail", children := [6] },
    { kind := .alternation, children := [7, 8] },
    { kind := .charClass 12, attributes := { previewed := true }, altIndex := some 1 },
    { kind := .charClass 13, altIndex := some 2 }]
  root := some 0

/-- The least room that is enough for `resourceful`: one counter, four marks and a guard. -/
def leastRoom : Limits := ⟨0, 0, 1, 4, 1⟩

open Opcode in
/-- The program of `resourceful`. -/
def resourcefulCode : Code :=
  [ ⟨markStart, 0, 0, false⟩,
    ⟨markStart, 3, 0, false⟩,
    ⟨character, 0, 10, false⟩,
    ⟨resetToMark, 3, 0, false⟩,
    ⟨test ||| guard, 0, 1, true⟩,
    Code.setCount 0 65535,
    Code.forkTo 6 10 false,
    ⟨character ||| setGuard, 0, 11, false⟩,
    Code.forkTo 8 9 true,
    Code.countDown 0 9 6,
    Code.setCount 0 0,
    ⟨markStart, 1, 0, false⟩,
    Code.forkTo 12 16 false,
    ⟨character ||| zeroWidth ||| branch, 1, 13, false⟩,
    Code.forkTo 14 19 false,
    ⟨test ||| negate, 0, 0, true⟩,
    ⟨setMark, 2, 1, false⟩,
    ⟨character, 0, 12, false⟩,
    Code.forkTo 18 22 true,
    ⟨setMark, 2, 2, false⟩,
    ⟨character, 0, 13, false⟩,
    Code.forkTo 21 22 true,
    Code.forkTo 22 23 true,
    ⟨markEnd, 1, 0, false⟩,
    Code.forkTo 24 25 true,
    ⟨markEnd, 0, 0, false⟩,
    Code.forkTo 26 27 true,
    ⟨report, 0, 0, true⟩ ]

/-- What is found out about `resourceful`: two marks, a guard, and another class that is tested ahead. -/
def resourcefulNoted : Pattern :=
  (((resourceful.update 0 ({ · with mark := some 0 })).update 3 ({ · with guard := some 0 })).update 5
    ({ · with mark := some 1 })).updateAttributes 8 ({ · with previewed := true })

theorem assemble_of_within_resourceful :
    leastRoom.Within {} ∧
      resourceful.assemble { indexAlternatives := true } leastRoom = .ok resourcefulCode resourcefulNoted ∧
      resourceful.assemble { indexAlternatives := true } {} = .ok resourcefulCode resourcefulNoted := by
  have hroom : leastRoom.Within {} := ⟨by decide, by decide, by decide, by decide, by decide⟩
  have hassemble : resourceful.assemble { indexAlternatives := true } leastRoom =
      .ok resourcefulCode resourcefulNoted := by decide +kernel
  exact ⟨hroom, hassemble, assemble_of_within hroom hassemble⟩

end Pattern
end ByteMatch
