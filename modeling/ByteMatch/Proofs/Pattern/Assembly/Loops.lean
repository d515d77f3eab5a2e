import ByteMatch.Proofs.Pattern.Assembly.Disjoint
import ByteMatch.Proofs.Pattern.Assembly.Plain

/-!
# ByteMatch.Proofs.Pattern.Assembly.Loops

The loops in the fragment of a construct.

A construct takes the next free counter for a loop and gives it back at the end, so the loops in it have later
counters. Forks and jumps cross the bounds of loops only outwards: those of an alternation lead to the
beginnings of its alternatives or to its end, and a shared tail goes back to the forks of the alternation
around it.

* `Assembler.Nests`: whenever a step succeeds, the loops of its fragment are nested, and its jumps stay in it.
* `Assembler.NestsOr`: the same for an alternation that a shared tail may be.
* `Assembler.nests_counted`, `Assembler.nests_optional`, `Assembler.nests_disjoint`: the three kinds of loops.
* `Assembler.nests_alternation`: forks, alternatives and tails.
-/

namespace ByteMatch

open Step

/-! ## Fragments with a fork -/

namespace Code

variable {body : Code} {place start target finish level limit count n : Nat} {halt : Bool} {op : UInt8}
  {distance root value : Int} {preview : Option Nat} {t : Int} {T : Set Int}

/-- Resetting a counter is no loop. -/
theorem nested_setCount : Nested [setCount level value] place level limit T where
  counter i hi _ := by
    rw [List.mem_singleton.1 hi]
    exact Int.le_refl _
  lands := lands_cons.2 ⟨by simp [setCount, jumps_setCount], lands_nil⟩
  loop last i hi htest := by
    rw [List.mem_singleton.1 hi.mem] at htest
    cases htest

/-- A fragment that a thread may leave out. -/
def skipTo (preview : Option Nat) (place finish : Nat) (body : Code) : Code :=
  Assembler.forkTest preview ++ forkTo (place + (Assembler.forkTest preview).length) finish false :: body

theorem length_skipTo : (skipTo preview place finish body).length =
    (Assembler.forkTest preview).length + 1 + body.length := by
  rw [skipTo, List.length_append, List.length_cons]
  omega

/-- A fork to the end of a fragment, or to a place after it, leads into none of its loops. -/
theorem Nested.skipTo (h : Nested body start level limit (Set.Icc (start : Int) (start + body.length : Nat)))
    (hstart : start = place + (Assembler.forkTest preview).length + 1)
    (hfinish : start + body.length ≤ finish) :
    Nested (skipTo preview place finish body) place level limit (Set.Icc (place : Int) finish) := by
  have hfork : Plain (Assembler.forkTest preview ++
      [forkTo (place + (Assembler.forkTest preview).length) finish false]) place
      {(start : Int), (finish : Int)} :=
    (plain_forkTest (by simp [hstart])).append (plain_forkTo (by simp))
  have hlength : start = place + (Assembler.forkTest preview ++
      [forkTo (place + (Assembler.forkTest preview).length) finish false]).length := by
    rw [hstart, List.length_append, List.length_singleton, Nat.add_assoc]
  rw [Code.skipTo, List.append_cons]
  refine (hfork.nested.append h hlength (fun t ht => h.avoids ?_) fun t _ => hfork.avoids).mono
    (Nat.le_refl _) (Set.union_subset ?_ (Set.Icc_subset_Icc ?_ ?_))
  · rcases ht with rfl | rfl
    · exact .inl (Int.le_refl _)
    · exact .inr (by omega)
  · rintro t (rfl | rfl)
    · exact ⟨by omega, by omega⟩
    · exact ⟨by omega, Int.le_refl _⟩
  · omega
  · omega

theorem rounds_eq (hfinish : finish = place + 1 + body.length) :
    setCount level value :: body ++ [countDown level finish (place + 1)] = rounds body place level value := by
  rw [hfinish]
  rfl

/-- A loop that a thread may leave before each round for the instruction that resets the counter. -/
theorem Nested.optionalLoop
    (h : Nested body start (level + 1) limit (Set.Icc (start : Int) (start + body.length : Nat)))
    (hstart : start = place + 1 + (Assembler.forkTest preview).length + 1) (hlimit : level < limit)
    (hcount : 1 ≤ value) (hfinish : finish = start + body.length) :
    Nested (setCount level value :: (Assembler.forkTest preview ++
        forkTo (place + 1 + (Assembler.forkTest preview).length) (finish + 1) false ::
          (body ++ [countDown level finish (place + 1)])) ++ [setCount level 0]) place level limit
      (Set.Icc (place : Int) (finish + 2 : Nat)) := by
  have hskip := h.skipTo hstart (by omega : start + body.length ≤ finish + 1)
  have hlength : (Code.skipTo preview (place + 1) (finish + 1) body).length =
      (Assembler.forkTest preview).length + 1 + body.length := length_skipTo
  have hloop := hskip.rounds (Set.Icc_subset_Icc_right (by omega))
    (List.ne_nil_of_length_pos (by omega)) hlimit hcount
  have hreset : Nested [setCount level 0] (finish + 1) level limit
      (Set.Icc ((finish + 1 : Nat) : Int) (finish + 2 : Nat)) := nested_setCount
  have hall := (hloop.mono (Nat.le_refl _) (Set.Icc_subset_Icc_right (by omega))).seq hreset ?_ rfl
  · rw [← rounds_eq (by omega : finish = _)] at hall
    simpa only [Code.skipTo, List.cons_append, List.append_assoc] using hall
  · rw [length_rounds]
    omega

/-- Tests that branch to one place. -/
theorem plain_branchTests (hjump : Opcode.isJump op = false) (hbranch : Opcode.isBranch op = true)
    (hfree : Opcode.usesCounter op = false) (h : place + 1 + distance ∈ T) :
    Plain (branchTests op root distance count) place T := by
  induction count generalizing place distance with
  | zero => exact .nil
  | succ count ih =>
    refine .branch hjump hbranch hfree h (ih ?_)
    rwa [show ((place + 1 : Nat) : Int) + 1 + (distance - 1) = place + 1 + distance by omega]

/-- Tests, and then a loop. All tests branch to the instruction that resets the counter. -/
theorem nested_testsThenLoop (hjump : Opcode.isJump op = false) (hbranch : Opcode.isBranch op = true)
    (hfree : Opcode.usesCounter op = false) (hlimit : level < limit) (hvalue : 1 ≤ value) :
    Nested (branchTests op root ((count : Int) + 2) count ++
      [setCount level value, ⟨op, 1, root, false⟩,
        countDown level (place + count + 2) (place + count + 1), setCount level 0])
      place level limit (Set.Icc (place : Int) (place + count + 4 : Nat)) := by
  have htests : Plain (branchTests op root ((count : Int) + 2) count) place
      {((place + count + 3 : Nat) : Int)} :=
    plain_branchTests hjump hbranch hfree (by rw [Set.mem_singleton_iff]; omega)
  have htest : Nested [⟨op, 1, root, false⟩] (place + count + 1) (level + 1) limit
      {((place + count + 3 : Nat) : Int)} :=
    (Plain.branch hjump hbranch hfree (by rw [Set.mem_singleton_iff]; omega) .nil).nested
  have hreset : Nested [setCount level 0] (place + count + 3) level limit
      (Set.Icc ((place + count + 3 : Nat) : Int) (place + count + 4 : Nat)) := nested_setCount
  have hloop := htest.rounds (Set.singleton_subset_iff.2 ⟨by omega, by simp; omega⟩) (by simp) hlimit hvalue
  have hend : place + count + [(⟨op, 1, root, false⟩ : Instruction)].length + 2 = place + count + 3 := rfl
  rw [hend] at hloop
  have hboth := htests.nested.append hloop (by simp) (fun t ht => hloop.avoids ?_) fun t _ => htests.avoids
  · have hall := (hboth.mono (Nat.le_refl _) (Set.union_subset ?_ (Set.Icc_subset_Icc_left ?_))).seq
      hreset ?_ rfl
    · simpa [rounds, setCount, countDown, Int.add_assoc] using hall
    · exact Set.singleton_subset_iff.2 ⟨by omega, Int.le_refl _⟩
    · omega
    · simp
      omega
  · rw [Set.mem_singleton_iff.1 ht, length_rounds]
    exact .inr (by simp)

/-- An alternative in front of others: it leads back to the forks, which are in front of it, and to the end. -/
theorem Nested.alternative {more : Code} {mid last back stop : Nat}
    (h : Nested body start level limit
      {t | (start ≤ t ∧ t ≤ (start + body.length : Nat)) ∨ t = (back : Int)})
    (hmore : Nested more mid level limit
      {t | (back ≤ t ∧ t ≤ stop) ∨ (mid ≤ t ∧ t ≤ last) ∨ t = (finish : Int)})
    (hback : back ≤ stop) (hstop : stop ≤ start) (hmid : mid = start + body.length + 1)
    (hlast : last = mid + more.length) (hfinish : last ≤ finish) :
    Nested (body ++ forkTo (start + body.length) finish true :: more) start level limit
      {t | (back ≤ t ∧ t ≤ stop) ∨ (start ≤ t ∧ t ≤ last) ∨ t = (finish : Int)} := by
  have hleave : Plain [forkTo (start + body.length) finish true] (start + body.length) {(finish : Int)} :=
    plain_forkTo rfl
  have hfirst := h.append hleave.nested rfl (fun t _ => hleave.avoids) fun t ht => h.avoids ?_
  · have hlength : mid = start + (body ++ [forkTo (start + body.length) finish true]).length := by
      rw [List.length_append, List.length_singleton, ← Nat.add_assoc, hmid]
    have hall := hfirst.append hmore hlength (fun t ht => hmore.avoids ?_) fun t ht => hfirst.avoids ?_
    · rw [List.append_cons]
      refine hall.mono (Nat.le_refl _) fun t ht => ?_
      simp only [Set.mem_union, Set.mem_ofPred_eq, Set.mem_singleton_iff] at ht ⊢
      omega
    · simp only [Set.mem_union, Set.mem_ofPred_eq, Set.mem_singleton_iff] at ht
      omega
    · rw [Set.mem_ofPred_eq] at ht
      omega
  · rw [Set.mem_singleton_iff.1 ht]
    exact .inr (by omega)

theorem avoids_alternative {more : Code} (h : body.Avoids start t)
    (hmore : more.Avoids (start + body.length + 1) t) :
    (body ++ forkTo (start + body.length) finish true :: more).Avoids start t := by
  have hleave : Plain [forkTo (start + body.length) finish true] (start + body.length) {(finish : Int)} :=
    plain_forkTo rfl
  rw [List.append_cons]
  refine avoids_append.2 ⟨avoids_append.2 ⟨h, hleave.avoids⟩, ?_⟩
  rwa [List.length_append, List.length_singleton, ← Nat.add_assoc]

end Code

namespace Assembler

open Code

variable {α : Type} {settings : Settings} {s s' s₁ : Assembly} {code more : Code} {p : Pattern}
  {place stop limit : Nat} {back : Option Nat}

/-! ## Steps -/

/-- Whenever the step succeeds in the assembly of a pattern like `p`, and not in the place of a shared tail,
the loops of the fragment are nested, with counters from the next free one on, and its jumps stay in it. -/
def Nests (p : Pattern) (limit : Nat) (x : Assembler Code) : Prop :=
  ∀ s code s', s.pattern.Alike p → s.returns = [] → x s = .ok code s' →
    Emitted s code s' ∧ code.Nested s.position s.counter limit (Set.Icc (s.position : Int) s'.position)

/-- This is so also if jumps may go back to the place `back`, in front of the fragment. -/
def NestsOr (p : Pattern) (limit : Nat) (back : Option Nat) (x : Assembler Code) : Prop :=
  ∀ s code s', s.pattern.Alike p → s.returns = back.toList → (∀ place, back = some place → place ≤ s.position) →
    x s = .ok code s' → Emitted { s with returns := [] } code s' ∧
      code.Nested s.position s.counter limit
        {t | (s.position ≤ t ∧ t ≤ s'.position) ∨ ∃ place : Nat, back = some place ∧ t = place}

namespace Nests

variable {x y z : Assembler Code}

theorem of_stays (h : Stays x) : Nests p limit x := fun s code s' _ _ hok =>
  ⟨(h s code s' hok).1, (h s code s' hok).2.nested⟩

theorem nil : Nests p limit (pure []) := .of_stays .nil

theorem of_throw {e : CompileError} : Nests p limit (throw e) := .of_stays .of_throw

/-- An instance of a template that uses no counters and whose jumps do not leave it. -/
theorem of_emit {t : Template} {args : List Int} (hfree : t.counterFree = true)
    (hjump : t.jumpsInside 0 = true) : Nests p limit (emit t args) := .of_stays (.of_emit hfree hjump)

theorem of_silent {x : Assembler α} {f : α → Assembler Code} (hx : Silent x) (h : ∀ a, Nests p limit (f a)) :
    Nests p limit (x >>= f) := by
  intro s code s' hp hret hok
  obtain ⟨a, s₁, hok₁, hrest⟩ := bind_ok.1 hok
  have hnone := hx _ _ _ hok₁
  obtain ⟨hemit, hnested⟩ := h a s₁ code s' (hnone.pattern.trans hp) (hnone.returns.trans hret) hrest
  rw [hnone.position, hnone.counter] at hnested
  exact ⟨hnone.append hemit, hnested⟩

theorem of_get {f : Assembly → Assembler Code} (h : ∀ t, Nests p limit (f t)) : Nests p limit (get >>= f) :=
  of_silent (.of_eq fun _ _ _ hget => (get_ok.1 hget).2.symm) h

/-- What is done after a fragment, if nothing more is emitted. -/
theorem keep {y : Assembler α} (hx : Nests p limit x) (hy : Silent y) :
    Nests p limit (do
      let code ← x
      let _ ← y
      pure code) := by
  intro s code s' hp hret hok
  obtain ⟨code', s₁, hok₁, hrest⟩ := bind_ok.1 hok
  obtain ⟨_, s₂, hok₂, hpure⟩ := bind_ok.1 hrest
  obtain ⟨rfl, rfl⟩ := pure_ok.1 hpure
  obtain ⟨hemit, hnested⟩ := hx s _ _ hp hret hok₁
  have hnone := hy _ _ _ hok₂
  have hall := hemit.append hnone
  have hposition : s₂.position = s₁.position := hnone.position
  rw [List.append_nil] at hall
  rw [hposition]
  exact ⟨hall, hnested⟩

theorem append (hx : Nests p limit x) (hy : Nests p limit y) :
    Nests p limit (do
      let code ← x
      let more ← y
      pure (code ++ more)) := by
  intro s code s' hp hret hok
  obtain ⟨a, s₁, hok₁, hrest⟩ := bind_ok.1 hok
  obtain ⟨b, s₂, hok₂, hpure⟩ := bind_ok.1 hrest
  obtain ⟨rfl, rfl⟩ := pure_ok.1 hpure
  obtain ⟨hemit, hnested⟩ := hx _ _ _ hp hret hok₁
  obtain ⟨hemit', hnested'⟩ := hy _ _ _ (hemit.pattern.trans hp) (hemit.returns.trans hret) hok₂
  rw [hemit.counter] at hnested'
  exact ⟨hemit.append hemit', hnested.seq hnested' hemit.position hemit'.position⟩

theorem append₃ (hx : Nests p limit x) (hy : Nests p limit y) (hz : Nests p limit z) :
    Nests p limit (do
      let a ← x
      let b ← y
      let c ← z
      pure (a ++ b ++ c)) := by
  simpa only [bind_assoc, pure_bind] using (hx.append hy).append hz

theorem inSequence {xs : List (Assembler Code)} (h : ∀ x ∈ xs, Nests p limit x) :
    Nests p limit (inSequence xs) := by
  induction xs with
  | nil => exact .nil
  | cons x rest ih =>
    rw [List.forall_mem_cons] at h
    rw [Assembler.inSequence]
    exact h.1.append (ih h.2)

end Nests

theorem NestsOr.nests {x : Assembler Code} (h : NestsOr p limit none x) : Nests p limit x := by
  intro s code s' hp hret hok
  obtain ⟨hemit, hnested⟩ := h s code s' hp hret (by simp) hok
  refine ⟨⟨hemit.pattern, hemit.position, hemit.counter, hemit.returns.trans hret.symm⟩, ?_⟩
  refine hnested.mono (Nat.le_refl _) ?_
  rintro t (ht | ⟨place, hplace, -⟩)
  · exact ht
  · cases hplace

/-! ## Groups -/

theorem nests_group {i : Nat} {parts : List (Assembler Code)} (h : ∀ x ∈ parts, Nests p limit x) :
    Nests p limit (group settings i parts) := by
  have hwith : ∀ isLazy lookahead mark, Nests p limit
      (inSequence (groupStart isLazy mark :: parts ++ [groupEnd lookahead mark])) := by
    intro isLazy lookahead mark
    refine .inSequence fun x hx => ?_
    rw [List.mem_append, List.mem_cons, List.mem_singleton] at hx
    rcases hx with (rfl | hx) | rfl
    · exact .of_stays stays_groupStart
    · exact h x hx
    · exact .of_stays stays_groupEnd
  refine .of_silent .node fun n => ?_
  simp only
  split
  · exact .of_silent .takeMark fun mark => (hwith _ _ _).keep .releaseMark
  · exact hwith _ _ _

/-! ## Repetitions -/

/-- The counter that is taken is below the limit. -/
theorem withCounter_lt {f : Nat → Assembler Code} (h : withCounter settings f s = .ok code s') :
    s.counter < settings.limits.maxCounters := by
  obtain ⟨counter, s₁, htake, -⟩ := bind_ok.1 h
  obtain ⟨t, s₂, hget, hrest⟩ := bind_ok.1 htake
  obtain ⟨rfl, rfl⟩ := get_ok.1 hget
  simp only at hrest
  split at hrest
  · rw [bind_throw] at hrest
    cases hrest
  · rename_i hroom
    exact Nat.lt_of_not_le hroom

/-- Whenever the step succeeds, it emits an instruction. -/
def EmitsSome (x : Assembler Code) : Prop := ∀ s code s', x s = .ok code s' → code ≠ []

/-- A loop around a part has a counter of its own. -/
theorem nests_counted {count : Int} {part : Assembler Code} (hcount : 1 ≤ count) (hsome : EmitsSome part)
    (h : Nests p settings.limits.maxCounters part) :
    Nests p settings.limits.maxCounters (counted settings count part) := by
  intro s code s' hp hret hok
  have hlimit := withCounter_lt hok
  obtain ⟨body, s₁, hbody, rfl, rfl⟩ := counted_ok hok
  obtain ⟨hemit, hnested⟩ := h { s with counter := s.counter + 1, position := s.position + 1 } _ _ hp hret hbody
  have hposition := hemit.position
  have hcounter := hemit.counter
  simp only at hposition hcounter hnested
  have hrounds := hnested.rounds (Set.Icc_subset_Icc_right (by omega)) (hsome _ _ _ hbody) hlimit hcount
  rw [hposition]
  refine ⟨⟨hemit.pattern, ?_, ?_, hemit.returns⟩, ?_⟩
  · simp
    omega
  · simp [hcounter]
  · exact hrounds.mono (Nat.le_refl _) (Set.Icc_subset_Icc_right (by simp only; omega))

theorem nests_skippable {preview : Option Nat} {part : Assembler Code} (h : Nests p limit part) :
    Nests p limit (skippable preview part) := by
  intro s code s' hp hret hok
  obtain ⟨body, hbody, rfl⟩ := skippable_ok hok
  obtain ⟨hemit, hnested⟩ :=
    h { s with position := s.position + (forkTest preview).length + 1 } _ _ hp hret hbody
  have hposition := hemit.position
  simp only at hposition
  refine ⟨⟨hemit.pattern, ?_, hemit.counter, hemit.returns⟩, ?_⟩
  · rw [hposition, List.length_append, List.length_cons]
    omega
  · exact Code.Nested.skipTo (by simpa only [hposition] using hnested) rfl (Nat.le_of_eq hposition.symm)

theorem nests_yielding {part : Assembler Code} (h : Nests p limit part) :
    Nests p limit (inSequence [part, emit Template.yieldThread []]) := by
  refine .inSequence fun x hx => ?_
  rcases List.mem_pair.1 hx with rfl | rfl
  · exact h
  · exact .of_emit (by decide) (by decide)

theorem emitsSome_yielding {part : Assembler Code} :
    EmitsSome (inSequence [part, emit Template.yieldThread []]) := by
  intro s code s' hok
  obtain ⟨body, more, s₁, -, hmore, rfl⟩ := inSequence_cons_ok hok
  obtain ⟨yield, more', s₂, hyield, -, rfl⟩ := inSequence_cons_ok hmore
  obtain ⟨rfl, -⟩ := emit_ok hyield
  simp [Template.yieldThread, Template.fill]

/-- Optional iterations: a thread that leaves the loop goes on where the counter is reset. -/
theorem nests_optional {preview : Option Nat} {part : Assembler Code} {count : Int}
    (h : Nests p settings.limits.maxCounters part) :
    Nests p settings.limits.maxCounters (optional settings preview part count) := by
  rw [optional]
  split
  · exact nests_skippable h
  · split
    · rename_i hmany
      intro s code s' hp hret hok
      have hlimit := withCounter_lt hok
      obtain ⟨rounds, s₁, hrounds, rfl, rfl⟩ := optionalLoop_ok hok
      obtain ⟨round, hround, rfl⟩ := skippable_ok hrounds
      obtain ⟨body, s₂, hbody, rfl, rfl⟩ := round_steps hround
      obtain ⟨hemit, hnested⟩ := nests_yielding h
        { s with counter := s.counter + 1, position := s.position + 1 + (forkTest preview).length + 1 }
        _ _ hp hret hbody
      have hposition := hemit.position
      have hcounter := hemit.counter
      simp only at hposition hcounter hnested
      rw [hposition] at hnested
      refine ⟨⟨hemit.pattern, ?_, ?_, hemit.returns⟩, ?_⟩
      · simp [hposition]
        omega
      · simp [hcounter]
      · exact hnested.optionalLoop rfl hlimit (Int.le_of_lt hmany) hposition
    · exact .nil

theorem emitsSome_emit {t : Template} {args : List Int} (h : t ≠ []) : EmitsSome (emit t args) := by
  intro s code s' hok
  obtain ⟨rfl, -⟩ := emit_ok hok
  rw [← List.length_pos_iff, t.length_fill args]
  exact List.length_pos_iff.2 h

theorem nests_requiredCharacters {t : Template} {root : Int} {min : Nat} (ht : t ≠ [])
    (h : Stays (emit t [root])) :
    Nests p settings.limits.maxCounters (requiredCharacters settings t root min) := by
  rw [requiredCharacters]
  split
  · exact .of_stays (stays_copies h)
  · rename_i hmany
    refine nests_counted ?_ (emitsSome_emit ht) (.of_stays h)
    rw [enumerationBound] at hmany
    omega

theorem nests_required {child min : Nat} {part : Assembler Code}
    (h : Nests p settings.limits.maxCounters part) :
    Nests p settings.limits.maxCounters (required settings child part min) := by
  have hlooped : ∀ count : Nat, 1 ≤ count → Nests p settings.limits.maxCounters
      (counted settings count (inSequence [part, emit Template.yieldThread []])) :=
    fun count hcount => nests_counted (by omega) emitsSome_yielding (nests_yielding h)
  unfold required
  match min with
  | 0 => exact .nil
  | 1 => exact h
  | count + 2 =>
    refine .of_get fun t => ?_
    simp only
    split
    · -- the first iteration stands apart
      refine .inSequence fun x hx => ?_
      rcases List.mem_pair.1 hx with rfl | rfl
      · exact h
      · split
        · exact h
        · exact hlooped _ (by omega)
    · exact hlooped _ (by omega)

/-- Characters that are enumerated, or a loop after those that are. -/
theorem nests_disjoint {t : Template} {op : UInt8} {root count : Int} (hjump : Opcode.isJump op = false)
    (hbranch : Opcode.isBranch op = true) (hfree : Opcode.usesCounter op = false)
    (hfill : ∀ x, t.fill [x, root] = [⟨op, x, root, false⟩]) :
    Nests p settings.limits.maxCounters (disjoint settings t root count) := by
  intro s code s' hp hret hok
  unfold disjoint at hok
  split at hok
  · obtain ⟨rfl, rfl⟩ := branches_ok hfill hok
    refine ⟨⟨.refl _, by simp, rfl, rfl⟩, Code.Plain.nested ?_⟩
    rcases Int.lt_or_le 0 count with hsome | hnone
    · exact Code.plain_branchTests hjump hbranch hfree ⟨by omega, by simp only; omega⟩
    · rw [Int.toNat_of_nonpos hnone]
      exact .nil
  · rename_i hmany
    obtain ⟨tests, more, s₁, htests, hmore, rfl⟩ := inSequence_cons_ok hok
    obtain ⟨loop, more', s₂, hloop, hnil, rfl⟩ := inSequence_cons_ok hmore
    obtain ⟨rfl, rfl⟩ := pure_ok.1 hnil
    obtain ⟨rfl, rfl⟩ := branches_ok hfill htests
    have hlimit := withCounter_lt hloop
    obtain ⟨rfl, rfl⟩ := disjointLoop_ok hloop
    rw [hfill]
    refine ⟨⟨.refl _, by simp; omega, rfl, rfl⟩, ?_⟩
    exact Code.nested_testsThenLoop hjump hbranch hfree hlimit (by omega)

theorem nests_characterRepetition {n : Node} {root : Int} {min : Nat} {max : Option Nat} :
    Nests p settings.limits.maxCounters (characterRepetition settings n root min max) := by
  have hsome : (if n.attributes.controlling then Template.charAnchor else Template.char) ≠ [] := by
    split <;> simp [Template.charAnchor, Template.char]
  have hdisjoint : Nests p settings.limits.maxCounters (disjoint settings
      (if n.attributes.controlling then Template.charAnchorBranch else Template.charBranchTo) root
      (optionalCount min max)) := by
    split
    · exact nests_disjoint (by decide) (by decide) (by decide) fun _ => rfl
    · exact nests_disjoint (by decide) (by decide) (by decide) fun _ => rfl
  have hfirst : Nests p settings.limits.maxCounters (requiredCharacters settings
      (if n.attributes.controlling then Template.charAnchor else Template.char) root min) :=
    nests_requiredCharacters hsome stays_char
  have hguard : Nests p settings.limits.maxCounters (loopGuard n) := .of_stays stays_loopGuard
  rw [characterRepetition]
  cases n.attributes.disjoint with
  | true => exact hguard.append₃ hfirst hdisjoint
  | false =>
    have hmore : Nests p settings.limits.maxCounters (do
        optional settings (← nextPreview n.lookAhead)
          (emit (if n.attributes.controlling then Template.charAnchor else Template.char) [root])
          (optionalCount min max)) :=
      .of_silent .nextPreview fun _ => nests_optional (.of_stays stays_char)
    have hall := hguard.append₃ hfirst hmore
    simpa only [Bool.false_eq_true, if_false, bind_assoc] using hall

theorem nests_partRepetition {n : Node} {child min : Nat} {max : Option Nat} {part : Assembler Code}
    (h : Nests p settings.limits.maxCounters part) :
    Nests p settings.limits.maxCounters (partRepetition settings n child part min max) := by
  have hmore : Nests p settings.limits.maxCounters (do
      optional settings (← nextPreview n.lookAhead) part (optionalCount min max)) :=
    .of_silent .nextPreview fun _ => nests_optional h
  have hfirst : Nests p settings.limits.maxCounters (required settings child part min) := nests_required h
  have hguard : Nests p settings.limits.maxCounters (loopGuard n) := .of_stays stays_loopGuard
  have hall := hguard.append₃ hfirst hmore
  simpa only [partRepetition, bind_assoc] using hall

theorem nests_repetition {i min : Nat} {max : Option Nat} {children : List (Nat × Assembler Code)}
    (hchildren : ∀ c ∈ children, Nests p settings.limits.maxCounters c.2) :
    Nests p settings.limits.maxCounters (repetition settings i min max children) := by
  cases children with
  | nil => exact .of_throw
  | cons c rest =>
    obtain ⟨child, part⟩ := c
    have hpart : Nests p settings.limits.maxCounters part := hchildren _ (List.mem_cons_self ..)
    rw [repetition]
    refine .of_silent .node fun n => .of_silent .node fun c => ?_
    simp only
    split
    · exact .of_silent .operand fun root => nests_characterRepetition.keep .uncontrol
    · exact (nests_partRepetition hpart).keep .uncontrol

/-! ## Alternations -/

/-- What is known of an alternative: its loops are nested, also if it is a shared tail. -/
structure NestsIn (p : Pattern) (limit : Nat) (c : Nat × Assembler Code) : Prop where
  nests : Nests p limit c.2
  tail : (p.node c.1).attributes.sharedTail = true → ∀ place, NestsOr p limit (some place) c.2

/-- An alternative is entered at its beginning, and a shared tail goes back to the place after its fork. -/
theorem alternative_nests {c : Nat × Assembler Code} (hc : NestsIn p limit c) {fork : Nat} {a : Alternative}
    (hp : s.pattern.Alike p) (hret : s.returns = []) (hfork : fork < s.position)
    (h : alternative settings fork c.1 c.2 s = .ok a s') :
    Emitted s a.code s' ∧ ∃ (entry : Instruction) (code : Code) (blank : Instruction),
      a = ⟨entry, code ++ [blank], s.position + code.length⟩ ∧ Code.Plain [entry] fork {(s.position : Int)} ∧
      code.Nested s.position s.counter limit
        {t | (s.position ≤ t ∧ t ≤ (s.position + code.length : Nat)) ∨ t = (fork + 1 : Nat)} := by
  obtain ⟨entry, mark, code, s₁, s₂, hentered, hcode, rfl, rfl⟩ := alternative_steps h
  rw [Entered] at hentered
  split at hentered
  · rename_i htail
    obtain ⟨rfl, rfl, rfl⟩ := hentered
    have hshared : (p.node c.1).attributes.sharedTail = true := by
      rw [← hp.attributes (·.sharedTail) fun _ => rfl]
      exact htail
    obtain ⟨hemit, hnested⟩ := hc.tail hshared (fork + 1)
      { s with returns := (fork + 1) :: s.returns } _ _ hp (by simp [hret]) (by simpa using Nat.succ_le_of_lt hfork) hcode
    have hwhole := hemit.append (.blank _)
    have hposition := hemit.position
    simp only at hposition hnested
    refine ⟨⟨hwhole.pattern, hwhole.position, hwhole.counter, hwhole.returns.trans hret.symm⟩,
      _, code, ⟨Opcode.null, 0, 0, false⟩, by rw [hposition, List.nil_append], plain_jumpTo rfl, ?_⟩
    refine hnested.mono (Nat.le_refl _) ?_
    rintro t (ht | ⟨place, hplace, rfl⟩)
    · rw [← hposition]
      exact .inl ht
    · rw [← Option.some.inj hplace]
      exact .inr rfl
  · obtain ⟨rfl, hmark⟩ := hentered
    obtain ⟨hemit, hnested⟩ := ((Nests.of_stays stays_alternativeMark).append hc.nests) s _ _ hp hret
      (bind_ok.2 ⟨_, _, hmark, bind_ok.2 ⟨_, _, hcode, pure_ok.2 ⟨rfl, rfl⟩⟩⟩)
    have hposition := hemit.position
    rw [hposition] at hnested
    exact ⟨hemit.append (.blank _), _, _, ⟨Opcode.null, 0, 0, false⟩, by rw [hposition], plain_forkTo rfl,
      hnested.mono (Nat.le_refl _) fun t ht => Or.inl ht⟩

/-- Forks lead to the beginnings of alternatives, and alternatives to the end or back to the forks. -/
theorem alternatives_nests {children : List (Nat × Assembler Code)} {forks : List Fork}
    {parts : List Alternative} {finish : Nat} (hchildren : ∀ c ∈ children, NestsIn p limit c)
    (hforks : Forks place forks stop) (hlength : forks.length = children.length) (hstop : stop ≤ s.position)
    (hp : s.pattern.Alike p) (hret : s.returns = []) (hfinish : s'.position ≤ finish)
    (h : alternatives settings forks children s = .ok parts s') :
    Emitted s (resolveEnds finish parts) s' ∧ place + (resolveForks forks parts).length = stop ∧
      (resolveForks forks parts).Plain place {t | (place ≤ t ∧ t ≤ stop) ∨ (s.position ≤ t ∧
        t ≤ s'.position ∧ (resolveEnds finish parts).Avoids s.position t)} ∧
      (resolveEnds finish parts).Nested s.position s.counter limit
        {t | (place ≤ t ∧ t ≤ stop) ∨ (s.position ≤ t ∧ t ≤ s'.position) ∨ t = finish} := by
  induction hforks generalizing children parts s with
  | nil =>
    obtain rfl : children = [] := List.length_eq_zero_iff.1 hlength.symm
    obtain ⟨rfl, rfl⟩ := pure_ok.1 h
    exact ⟨.nil, rfl, .nil, Code.Plain.nil.nested⟩
  | @cons place stop tests blank forks htests hrest ih =>
    obtain ⟨c, rest, rfl⟩ := List.exists_cons_of_length_eq_add_one hlength.symm
    rw [List.forall_mem_cons] at hchildren
    obtain ⟨first, s₁, hfirst, hrest'⟩ := bind_ok.1 h
    obtain ⟨more, s₂, hmore, hpure⟩ := bind_ok.1 hrest'
    obtain ⟨rfl, rfl⟩ := pure_ok.1 hpure
    have hle := hrest.le
    obtain ⟨hemit, entry, code, blank', rfl, hentry, hnested⟩ :=
      alternative_nests hchildren.1 hp hret (by simp only; omega) hfirst
    have hposition := hemit.position
    simp only [List.length_append, List.length_singleton] at hposition
    obtain ⟨hemit', hplace, hdecisions, hends⟩ := ih hchildren.2 (Nat.succ.inj hlength) (by omega)
      (hemit.pattern.trans hp) (hemit.returns.trans hret) hmore
    have hposition' := hemit'.position
    rw [hemit.counter] at hends
    rw [resolveForks_cons, resolveEnds_cons]
    have hall := hnested.alternative hends (by simp only; omega) hstop (by omega) hposition' hfinish
    refine ⟨⟨hemit'.pattern.trans hemit.pattern, ?_, hemit'.counter.trans hemit.counter,
      hemit'.returns.trans hemit.returns⟩, ?_, ?_, ?_⟩
    · rw [List.length_append, List.length_cons]
      omega
    · rw [List.length_append, List.length_cons]
      omega
    · have hlength' : place + tests.length + 1 = place + (tests ++ [entry]).length := by
        rw [List.length_append, List.length_singleton, Nat.add_assoc]
      rw [List.append_cons]
      refine ((htests.mono ?_).append (hentry.mono ?_)).append (hlength' ▸ hdecisions.mono ?_)
      · exact Set.singleton_subset_iff.2 (Or.inl ⟨by omega, by omega⟩)
      · exact Set.singleton_subset_iff.2 (Or.inr ⟨by omega, by omega, hall.avoids (.inl (Int.le_refl _))⟩)
      · rintro t (ht | ⟨hlow, hhigh, havoids⟩)
        · exact Or.inl ⟨by omega, ht.2⟩
        · refine Or.inr ⟨by omega, hhigh, Code.avoids_alternative (hnested.avoids (.inr (by omega))) ?_⟩
          rwa [hposition, ← Nat.add_assoc] at havoids
    · refine hall.mono (Nat.le_refl _) fun t ht => ?_
      simp only [Set.mem_ofPred_eq] at ht ⊢
      omega

theorem decisionEnd_plain {stop : Code} (hret : s.returns = back.toList) (h : decisionEnd s = .ok stop s') :
    Emitted { s with returns := [] } stop s' ∧ stop.length = 1 ∧
      stop.Plain s.position {t | t = s.position ∨ ∃ place : Nat, back = some place ∧ t = place} := by
  rcases decisionEnd_steps h with ⟨hnil, rfl, rfl⟩ | ⟨place, rest, hcons, rfl, rfl⟩
  · refine ⟨⟨.refl _, rfl, rfl, hnil⟩, rfl, .jump (by decide) (by decide) (by decide) ?_ .nil⟩
    exact Or.inl (Int.add_zero _)
  · cases back with
    | none => cases hret.symm.trans hcons
    | some target =>
      obtain ⟨rfl, rfl⟩ := List.cons.inj (hret.symm.trans hcons)
      exact ⟨⟨.refl _, rfl, rfl, rfl⟩, rfl, plain_jumpTo (Or.inr ⟨_, rfl, rfl⟩)⟩

/-- The loops of an alternation are those of its alternatives. As a shared tail it goes back to the alternation
around it. -/
theorem nests_alternation {children : List (Nat × Assembler Code)}
    (hchildren : ∀ c ∈ children, NestsIn p limit c) : NestsOr p limit back (alternation settings children) := by
  intro s code s' hp hret hback hok
  obtain ⟨forks, stop, parts, s₁, s₂, hforks, hstop, hparts, rfl⟩ := alternation_steps hok
  obtain ⟨hemit₁, hforked, hlength⟩ := decisions_forks hforks
  obtain ⟨hemit₂, hone, hplain⟩ := decisionEnd_plain (hemit₁.returns.trans hret) hstop
  have hposition₂ : s₂.position = s₁.position + stop.length := hemit₂.position
  obtain ⟨hemit₃, hplace, hdecisions, hends⟩ := alternatives_nests hchildren hforked hlength (by omega)
    (hemit₂.pattern.trans (hemit₁.pattern.trans hp)) hemit₂.returns (Nat.le_refl _) hparts
  have hposition₃ := hemit₃.position
  have hle := hforked.le
  have hcounter : s₂.counter = s.counter := hemit₂.counter.trans hemit₁.counter
  rw [hcounter] at hends
  have hfront : Code.Plain (resolveForks forks parts ++ stop) s.position
      {t | ((s.position ≤ t ∧ t ≤ s₁.position) ∨ (s₂.position ≤ t ∧ t ≤ s'.position ∧
        (resolveEnds s'.position parts).Avoids s₂.position t)) ∨
          ∃ place : Nat, back = some place ∧ t = place} := by
    refine (hdecisions.mono fun t ht => Or.inl ht).append (hplace ▸ hplain.mono fun t ht => ?_)
    exact ht.imp_left fun heq => Or.inl ⟨by omega, by omega⟩
  have hlast : s.position + (resolveForks forks parts ++ stop).length = s₂.position := by
    rw [List.length_append]
    omega
  have hall := hfront.nested.append hends hlast.symm (fun t ht => ?_) fun t _ => hfront.avoids
  · refine ⟨⟨?_, ?_, hemit₃.counter.trans hcounter, hemit₃.returns.trans hemit₂.returns⟩,
      hall.mono (Nat.le_refl _) ?_⟩
    · exact hemit₃.pattern.trans (hemit₂.pattern.trans hemit₁.pattern)
    · rw [List.length_append]
      simp only
      omega
    · rintro t (((ht | ht) | ht) | ht | ht | ht)
      · exact Or.inl ⟨ht.1, by omega⟩
      · exact Or.inl ⟨by omega, ht.2.1⟩
      · exact Or.inr ht
      · exact Or.inl ⟨ht.1, by omega⟩
      · exact Or.inl ⟨by omega, ht.2⟩
      · exact Or.inl ⟨by omega, by omega⟩
  · rcases ht with (ht | ht) | ⟨place, hplace, rfl⟩
    · exact hends.avoids (.inl (by omega))
    · exact ht.2.2
    · have := hback place hplace
      exact hends.avoids (.inl (by omega))

end Assembler
end ByteMatch
