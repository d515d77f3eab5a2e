import ByteMatch.Proofs.Pattern.Assembly.GuardTests

/-!
# ByteMatch.Proofs.Pattern.Assembly.Guards

The constructs of a pattern test each guard once.

* `Assembler.Settles`: whenever a step succeeds, its fragment tests the guards that are no longer untested.
  `Assembler.Still` steps test nothing.
* `Assembler.settles_group`, `Assembler.settles_alternation`, `Assembler.settles_repetition`: the constructs
  of a pattern.
-/

namespace ByteMatch
namespace Assembler

open Step Pattern

variable {α : Type} {settings : Settings} {s s' s₁ : Assembly} {code more : Code} {q : Pattern}
  {L : List Nat} {S S' D D' : Set Nat} {k : Int}

/-- The step only notes what has been tested ahead. -/
def Still (x : Assembler α) : Prop :=
  ∀ s a s', x s = .ok a s' → s'.pattern.SameUpTo Node.unpreviewed s.pattern

/-- Whenever the step succeeds in the assembly of a pattern like `q`, its fragment tests the guards that are
no longer untested, and the repetitions in `D` have been done with. -/
def Settles (L : List Nat) (S D : Set Nat) (q : Pattern) (x : Assembler Code) : Prop :=
  ∀ s code s', s.pattern.SameUpTo Node.assembled q → x s = .ok code s' →
    s.pattern.Spends L S D code s'.pattern

namespace Still

theorem of_eq {x : Assembler α} (h : ∀ s a s', x s = .ok a s' → s'.pattern = s.pattern) : Still x :=
  fun s a s' hok => h s a s' hok ▸ .refl _

theorem node {i : Nat} : Still (Assembler.node i) := of_eq fun _ _ _ h => by rw [(node_ok.1 h).2]

theorem operand {role : OperandRole} {value : Int} : Still (operand role value) :=
  of_eq fun _ _ _ h => by rw [(operand_ok h).2]

theorem takeMark : Still (takeMark settings) := of_eq fun _ _ _ h => by rw [(takeMark_ok h).2.2]

theorem releaseMark : Still releaseMark := of_eq fun _ _ _ h => by rw [← modify_ok.1 h]

theorem assertionClass {a : AssertionClass} : Still (assertionClass a) :=
  of_eq fun _ _ _ h => by rw [assertionClass_ok h]

theorem position : Still position := of_eq fun _ _ _ h => by rw [(position_ok.1 h).2]

theorem distanceTo {target ahead : Nat} : Still (distanceTo target ahead) :=
  of_eq fun _ _ _ h => by rw [(distanceTo_ok h).2]

theorem takePreview {i : Nat} : Still (takePreview i) := by
  intro s preview s' h
  rcases takePreview_steps h with ⟨-, rfl⟩ | ⟨v, -, -, rfl | ⟨place, rfl⟩⟩
  · exact .refl _
  · exact .refl _
  · exact .of_update rfl

theorem nextPreview {following : Option Nat} : Still (nextPreview following) := by
  cases following with
  | none => exact of_eq fun _ _ _ h => by rw [(pure_ok.1 h).2]
  | some following => exact takePreview

end Still

theorem setOf_mem_cons {Ds : List (Set Nat)} :
    {j | ∃ D' ∈ D :: Ds, j ∈ D'} = D ∪ {j | ∃ D' ∈ Ds, j ∈ D'} := by
  ext j
  simp

namespace Settles

variable {x y z : Assembler Code}

theorem mono (h : Settles L S D q x) (hS : S ⊆ S') (hD : D' ⊆ D) : Settles L S' D' q x :=
  fun s code s' hs hok => (h s code s' hs hok).mono hS hD

theorem nil : Settles L S ∅ q (pure []) := by
  intro s code s' _ hok
  obtain ⟨rfl, rfl⟩ := pure_ok.1 hok
  exact .of_unpreviewed (.refl _) fun _ => rfl

theorem of_throw {e : CompileError} : Settles L S D q (throw e) := fun _ _ _ _ hok => (throw_ok.1 hok).elim

/-- An instance of a template that does not test guards. -/
theorem of_emit {t : Template} {args : List Int} (h : t.guardFree = true) :
    Settles L S ∅ q (emit t args) := by
  intro s code s' _ hok
  obtain ⟨rfl, rfl⟩ := emit_ok hok
  exact .of_unpreviewed (.refl _) (Template.guardTests_fill h args)

theorem of_still {x : Assembler α} {f : α → Assembler Code} (hx : Still x)
    (h : ∀ a, Settles L S D q (f a)) : Settles L S D q (x >>= f) := by
  intro s code s' hs hok
  obtain ⟨a, s₁, hok₁, hrest⟩ := bind_ok.1 hok
  have hstill := hx _ _ _ hok₁
  have hfirst : s.pattern.Spends L S ∅ [] s₁.pattern := .of_unpreviewed hstill fun _ => rfl
  have hspends := hfirst.append (h a s₁ code s' (hfirst.same.trans hs) hrest)
  rwa [Set.empty_union, List.nil_append] at hspends

theorem of_node {i : Nat} {f : Node → Assembler Code}
    (h : ∀ n, n.kind = (q.node i).kind → Settles L S D q (f n)) :
    Settles L S D q (Assembler.node i >>= f) := by
  intro s code s' hs hok
  obtain ⟨n, s₁, hnode, hrest⟩ := bind_ok.1 hok
  obtain ⟨rfl, rfl⟩ := node_ok.1 hnode
  exact h _ (hs.get Node.kind (fun _ => rfl) i) _ _ _ hs hrest

theorem of_get {f : Assembly → Assembler Code} (h : ∀ t, Settles L S D q (f t)) :
    Settles L S D q (get >>= f) :=
  of_still (.of_eq fun _ _ _ hget => by rw [(get_ok.1 hget).2]) h

/-- What is done after a fragment, if it tests nothing. -/
theorem keep {y : Assembler α} (hx : Settles L S D q x) (hy : Still y) :
    Settles L S D q (do
      let code ← x
      let _ ← y
      pure code) := by
  intro s code s' hs hok
  obtain ⟨code', s₁, hok₁, hrest⟩ := bind_ok.1 hok
  obtain ⟨_, s₂, hok₂, hpure⟩ := bind_ok.1 hrest
  obtain ⟨rfl, rfl⟩ := pure_ok.1 hpure
  have hlast : s₁.pattern.Spends L S ∅ [] s₂.pattern := .of_unpreviewed (hy _ _ _ hok₂) fun _ => rfl
  have hspends := (hx s _ _ hs hok₁).append hlast
  rwa [Set.union_empty, List.append_nil] at hspends

theorem append (hx : Settles L S D q x) (hy : Settles L S D' q y) :
    Settles L S (D ∪ D') q (do
      let code ← x
      let more ← y
      pure (code ++ more)) := by
  intro s code s' hs hok
  obtain ⟨a, s₁, hok₁, hrest⟩ := bind_ok.1 hok
  obtain ⟨b, s₂, hok₂, hpure⟩ := bind_ok.1 hrest
  obtain ⟨rfl, rfl⟩ := pure_ok.1 hpure
  have hspends := hx s _ _ hs hok₁
  exact hspends.append (hy _ _ _ (hspends.same.trans hs) hok₂)

theorem append_nothing (hx : Settles L S ∅ q x) (hy : Settles L S ∅ q y) :
    Settles L S ∅ q (do
      let code ← x
      let more ← y
      pure (code ++ more)) := (hx.append hy).mono subset_rfl (Set.empty_subset _)

/-- Steps one after the other. What the steps have done with has been done with. -/
theorem inSequence {Ds : List (Set Nat)} {xs : List (Assembler Code)}
    (h : List.Forall₂ (fun D x => Settles L S D q x) Ds xs) :
    Settles L S {j | ∃ D ∈ Ds, j ∈ D} q (inSequence xs) := by
  induction h with
  | nil => exact nil.mono subset_rfl (by simp)
  | cons hx _ ih =>
    rw [setOf_mem_cons, Assembler.inSequence]
    exact hx.append ih

/-- Steps that are done with nothing. -/
theorem inSequence_nothing {xs : List (Assembler Code)} (h : ∀ x ∈ xs, Settles L S ∅ q x) :
    Settles L S ∅ q (Assembler.inSequence xs) := by
  induction xs with
  | nil => exact nil
  | cons x rest ih =>
    rw [List.forall_mem_cons] at h
    rw [Assembler.inSequence]
    exact h.1.append_nothing (ih h.2)

end Settles

/-! ## Assertions -/

theorem settles_failBetween {before after : GraphemeBreak} :
    Settles L S ∅ q (failBetween before after) :=
  .of_still .assertionClass fun _ => .of_still .assertionClass fun _ => .of_emit (by decide)

theorem settles_grapheme : Settles L S ∅ q grapheme := by
  refine .of_still .position fun place => .inSequence_nothing fun x hx => ?_
  simp only [List.mem_cons, List.not_mem_nil, or_false] at hx
  rcases hx with rfl | rfl | rfl | rfl | rfl | rfl | rfl | rfl | rfl | rfl | rfl | rfl | rfl
  · exact .of_still .distanceTo fun _ => .of_emit (by decide)
  · exact .of_still .distanceTo fun _ => .of_emit (by decide)
  · exact settles_failBetween
  · exact .of_still .assertionClass fun _ => .of_still .distanceTo fun _ => .of_emit (by decide)
  · exact .of_still .assertionClass fun _ => .of_still .distanceTo fun _ => .of_emit (by decide)
  · exact settles_failBetween
  · exact settles_failBetween
  · exact settles_failBetween
  · exact settles_failBetween
  · exact .of_still .assertionClass fun _ => .of_emit (by decide)
  · exact .of_still .assertionClass fun _ => .of_emit (by decide)
  · exact .of_still .assertionClass fun _ => .of_emit (by decide)
  · exact .of_still .assertionClass fun _ => .of_emit (by decide)

theorem settles_action {a : Action} : Settles L S ∅ q (action a) := by
  cases a with
  | bufferStart | bufferEnd =>
    rw [action]
    exact .of_emit (by decide)
  | backreference target =>
    cases target with
    | mark mark =>
      rw [action]
      exact .of_emit (by decide)
    | name name => exact .of_throw
  | textStart | textEnd =>
    rw [action]
    exact .of_still .assertionClass fun _ => .of_emit (by decide)
  | wordBoundary | notWordBoundary =>
    rw [action]
    exact .of_still .assertionClass fun _ => .of_still .assertionClass fun _ => .of_emit (by decide)
  | grapheme => exact settles_grapheme

/-! ## Groups -/

theorem settles_groupStart {isLazy : Bool} {mark : Option Nat} :
    Settles L S ∅ q (groupStart isLazy mark) := by
  cases mark with
  | none => exact .nil
  | some mark =>
    rw [groupStart]
    split
    · exact .of_emit (by decide)
    · split
      · exact .of_emit (by decide)
      · exact .nil

theorem settles_groupEnd {lookahead : Bool} {mark : Option Nat} :
    Settles L S ∅ q (groupEnd lookahead mark) := by
  cases mark with
  | none => exact .nil
  | some mark =>
    rw [groupEnd]
    split
    · exact .of_emit (by decide)
    · exact .of_emit (by decide)

theorem settles_group {i : Nat} {Ds : List (Set Nat)} {parts : List (Assembler Code)}
    (h : List.Forall₂ (fun D x => Settles L S D q x) Ds parts) :
    Settles L S {j | ∃ D ∈ Ds, j ∈ D} q (group settings i parts) := by
  have hwith : ∀ isLazy lookahead mark, Settles L S {j | ∃ D ∈ Ds, j ∈ D} q
      (inSequence (groupStart isLazy mark :: parts ++ [groupEnd lookahead mark])) := by
    intro isLazy lookahead mark
    have hall : List.Forall₂ (fun D x => Settles L S D q x) (∅ :: Ds ++ [∅])
        (groupStart isLazy mark :: parts ++ [groupEnd lookahead mark]) :=
      .cons settles_groupStart (List.rel_append h (.cons settles_groupEnd .nil))
    refine (Settles.inSequence hall).mono subset_rfl fun j ⟨D, hD, hj⟩ => ⟨D, ?_, hj⟩
    simp [hD]
  refine .of_still .node fun n => ?_
  simp only
  split
  · exact .of_still .takeMark fun mark => (hwith _ _ _).keep .releaseMark
  · exact hwith _ _ _

/-! ## Alternations -/

theorem takeGuard_spends {i : Nat} {guard : Option Int} (hL : L.Nodup)
    (hbelow : ∀ j, q.Reaches i j → j ∈ L ∧ j ∈ S) (hs : s.pattern.SameUpTo Node.assembled q)
    (h : takeGuard i s = .ok guard s')
    (hcode : ∀ k, code.guardTests k = if guard = some k then 1 else 0) :
    s.pattern.Spends L S ∅ code s'.pattern := by
  rcases takeGuard_steps h with ⟨rfl, rfl⟩ | ⟨place, g, hguard, rfl, rfl⟩
  · exact .of_unpreviewed (.refl _) hcode
  · obtain ⟨hmem, hcontrolling, htested, hg⟩ := untestedGuard?_some hguard
    have hreaches : q.Reaches i place := by
      have hsame := reaches_of_same (hs.get Node.children fun _ => rfl)
      exact hsame ▸ reaches_of_mem_leading hmem
    obtain ⟨hplaceL, hplaceS⟩ := hbelow place hreaches
    refine .of_updateAttributes (f := ({ · with guardTested := true })) hL hplaceL hplaceS (fun _ => rfl)
      (fun _ => id) (fun j (hj : j ∈ (∅ : Set Nat)) => hj.elim) fun k => ?_
    rw [hcode, node_updateAttributes_self (lt_of_controlling hcontrolling)]
    simp only [Node.untested, hcontrolling, htested, hg, Option.some.injEq]
    by_cases heq : (g : Int) = k
    · simp [heq]
    · simp [heq, beq_eq_false_iff_ne.2 heq]

theorem decisionTests_ok_guard {guard : Option Int} {preview : Option Nat} {tests : Code}
    (h : decisionTests guard preview s = .ok tests s') :
    s'.pattern = s.pattern ∧ ∀ k, tests.guardTests k = if guard = some k then 1 else 0 := by
  have htest : ∀ {guard distance k : Int}, Code.guardTests
      [⟨Opcode.test ||| Opcode.negate ||| Opcode.guard, guard, distance, false⟩] k =
        if some guard = some k then 1 else 0 := by
    intro guard distance k
    rw [Code.guardTests_singleton (by decide)]
    simp only [Option.some.injEq]
  cases guard with
  | none =>
    cases preview with
    | none =>
      obtain ⟨rfl, rfl⟩ := pure_ok.1 h
      exact ⟨rfl, fun k => rfl⟩
    | some root =>
      obtain ⟨rfl, rfl⟩ := charZero_laid h
      exact ⟨rfl, fun k => Code.guardTests_forkTest⟩
  | some guard =>
    cases preview with
    | none =>
      obtain ⟨rfl, rfl⟩ := alternativeGuard_laid h
      exact ⟨rfl, fun k => htest⟩
    | some root =>
      obtain ⟨test, more, s₁, htests, hmore, rfl⟩ := inSequence_cons_ok h
      obtain ⟨look, more', s₂, hlook, hnil, rfl⟩ := inSequence_cons_ok hmore
      obtain ⟨rfl, rfl⟩ := pure_ok.1 hnil
      obtain ⟨rfl, rfl⟩ := alternativeGuard_laid htests
      obtain ⟨rfl, rfl⟩ := charZero_laid hlook
      refine ⟨rfl, fun k => ?_⟩
      rw [List.append_nil, Code.guardTests_append, htest, Code.guardTests_forkTest, Nat.add_zero]

/-- The fork has its tests, and a placeholder after them. -/
def Unresolved (fork : Fork) : Prop :=
  ∃ tests place, fork = ⟨tests ++ [⟨Opcode.null, 0, 0, false⟩], place⟩

/-- The fork to an alternative tests a guard at the beginning of the alternative. -/
theorem decision_spends {i : Nat} {fork : Fork} (hL : L.Nodup)
    (hbelow : ∀ j, q.Reaches i j → j ∈ L ∧ j ∈ S) (hs : s.pattern.SameUpTo Node.assembled q)
    (h : decision i s = .ok fork s') : s.pattern.Spends L S ∅ fork.code s'.pattern ∧ Unresolved fork := by
  obtain ⟨preview, guard, tests, s₁, s₂, s₃, hpreview, hguard, htests, rfl, rfl⟩ := decision_steps h
  have hstill : s.pattern.Spends L S ∅ [] s₁.pattern :=
    .of_unpreviewed (Still.takePreview _ _ _ hpreview) fun _ => rfl
  obtain ⟨hpattern, hcount⟩ := decisionTests_ok_guard htests
  have hspends := hstill.append (takeGuard_spends hL hbelow (hstill.same.trans hs) hguard hcount)
  rw [Set.empty_union, List.nil_append] at hspends
  simp only [hpattern]
  exact ⟨hspends.recode fun k => by simp, tests, _, rfl⟩

theorem decisions_spends {children : List (Nat × Assembler Code)} {forks : List Fork} (hL : L.Nodup)
    (hbelow : ∀ c ∈ children, ∀ j, q.Reaches c.1 j → j ∈ L ∧ j ∈ S)
    (hs : s.pattern.SameUpTo Node.assembled q) (h : decisions children s = .ok forks s') :
    s.pattern.Spends L S ∅ (forks.flatMap (·.code)) s'.pattern ∧ forks.length = children.length ∧
      ∀ fork ∈ forks, Unresolved fork := by
  induction children generalizing s forks with
  | nil =>
    obtain ⟨rfl, rfl⟩ := pure_ok.1 h
    exact ⟨.of_unpreviewed (.refl _) fun _ => rfl, rfl, by simp⟩
  | cons c rest ih =>
    rw [List.forall_mem_cons] at hbelow
    obtain ⟨fork, s₁, hfork, hrest⟩ := bind_ok.1 h
    obtain ⟨more, s₂, hmore, hpure⟩ := bind_ok.1 hrest
    obtain ⟨rfl, rfl⟩ := pure_ok.1 hpure
    obtain ⟨hspends, hunresolved⟩ := decision_spends hL hbelow.1 hs hfork
    obtain ⟨hspends', hlength, hrest⟩ := ih hbelow.2 (hspends.same.trans hs) hmore
    have hboth := hspends.append hspends'
    rw [Set.empty_union] at hboth
    exact ⟨hboth, by rw [List.length_cons, hlength, List.length_cons],
      List.forall_mem_cons.2 ⟨hunresolved, hrest⟩⟩

/-- The end of the decisions tests no guard. -/
theorem decisionEnd_spends {stop : Code} (h : decisionEnd s = .ok stop s') :
    s.pattern.Spends L S ∅ stop s'.pattern := by
  rcases decisionEnd_steps h with ⟨-, rfl, rfl⟩ | ⟨place, rest, -, rfl, rfl⟩
  · refine .of_unpreviewed (.refl _) fun k => ?_
    rw [Code.guardTests_cons, Code.testsGuard_of_opcode (by decide)]
    rfl
  · exact .of_unpreviewed (.refl _) fun k => by simp

theorem settles_alternativeMark {n : Node} : Settles L S ∅ q (alternativeMark settings n) := by
  rw [alternativeMark]
  split
  · exact .of_still .operand fun _ => .of_emit (by decide)
  · exact .nil

/-- An alternative tests the guards of its part, and the instruction that leads to it tests none. -/
theorem alternative_spends {fork i : Nat} {part : Assembler Code} {a : Alternative}
    (hpart : Settles L S D q part) (hs : s.pattern.SameUpTo Node.assembled q)
    (h : alternative settings fork i part s = .ok a s') :
    ∃ entry code place, a = ⟨entry, code ++ [⟨Opcode.null, 0, 0, false⟩], place⟩ ∧
      s.pattern.Spends L S D code s'.pattern ∧ ∀ k, entry.testsGuard k = false := by
  obtain ⟨entry, mark, code, s₁, s₂, hentered, hcode, rfl, rfl⟩ := alternative_steps h
  refine ⟨entry, mark ++ code, _, rfl, ?_⟩
  rw [Entered] at hentered
  split at hentered
  · obtain ⟨rfl, rfl, rfl⟩ := hentered
    have hspends := hpart { s with returns := (fork + 1) :: s.returns } _ _ hs hcode
    exact ⟨hspends, fun k => by simp⟩
  · obtain ⟨rfl, hmark⟩ := hentered
    have hmarked : s.pattern.Spends L S ∅ mark s₁.pattern := settles_alternativeMark s _ _ hs hmark
    have hspends := hmarked.append (hpart _ _ _ (hmarked.same.trans hs) hcode)
    rw [Set.empty_union] at hspends
    exact ⟨hspends, fun k => by simp⟩

/-- The alternatives test the guards of their parts, and their forks test what they have tested before they
were resolved. -/
theorem alternatives_spends {children : List (Nat × Assembler Code)} {Ds : List (Set Nat)}
    {forks : List Fork} {parts : List Alternative} (finish : Nat)
    (hchildren : List.Forall₂ (fun D c => Settles L S D q c.2) Ds children)
    (hlength : forks.length = children.length) (hforks : ∀ fork ∈ forks, Unresolved fork)
    (hs : s.pattern.SameUpTo Node.assembled q)
    (h : alternatives settings forks children s = .ok parts s') :
    s.pattern.Spends L S {j | ∃ D ∈ Ds, j ∈ D} (resolveEnds finish parts) s'.pattern ∧
      ∀ k, (resolveForks forks parts).guardTests k = Code.guardTests (forks.flatMap (·.code)) k := by
  induction hchildren generalizing forks parts s with
  | nil =>
    obtain rfl : forks = [] := List.length_eq_zero_iff.1 hlength
    obtain ⟨rfl, rfl⟩ := pure_ok.1 h
    have hnothing : s.pattern.Spends L S ∅ [] s.pattern := .of_unpreviewed (.refl _) fun _ => rfl
    exact ⟨hnothing.mono subset_rfl (by simp), fun k => rfl⟩
  | @cons D c Ds rest hpart _ ih =>
    obtain ⟨fork, forks, rfl⟩ := List.exists_cons_of_length_eq_add_one hlength
    rw [List.forall_mem_cons] at hforks
    obtain ⟨⟨tests, place, rfl⟩, hforks⟩ := hforks
    obtain ⟨first, s₁, hfirst, hrest⟩ := bind_ok.1 h
    obtain ⟨more, s₂, hmore, hpure⟩ := bind_ok.1 hrest
    obtain ⟨rfl, rfl⟩ := pure_ok.1 hpure
    obtain ⟨entry, code, place', rfl, hspends, hentry⟩ := alternative_spends hpart hs hfirst
    obtain ⟨hends, hcount⟩ := ih (Nat.succ.inj hlength) hforks (hspends.same.trans hs) hmore
    rw [setOf_mem_cons, resolveForks_cons, resolveEnds_cons]
    refine ⟨(hspends.append hends).recode fun k => by simp, fun k => ?_⟩
    simp [hentry, hcount]

theorem settles_alternation {children : List (Nat × Assembler Code)} {Ds : List (Set Nat)} (hL : L.Nodup)
    (hbelow : ∀ c ∈ children, ∀ j, q.Reaches c.1 j → j ∈ L ∧ j ∈ S)
    (hchildren : List.Forall₂ (fun D c => Settles L S D q c.2) Ds children) :
    Settles L S {j | ∃ D ∈ Ds, j ∈ D} q (alternation settings children) := by
  intro s code s' hs hok
  obtain ⟨forks, stop, parts, s₁, s₂, hforks, hstop, hparts, rfl⟩ := alternation_steps hok
  obtain ⟨hdecided, hlength, hunresolved⟩ := decisions_spends hL hbelow hs hforks
  have hended := hdecided.append (decisionEnd_spends hstop)
  rw [Set.empty_union] at hended
  obtain ⟨hends, hcount⟩ :=
    alternatives_spends s'.position hchildren hlength hunresolved (hended.same.trans hs) hparts
  have hspends := hended.append hends
  rw [Set.empty_union] at hspends
  exact hspends.recode fun k => by simp [hcount]

/-! ## Repetitions -/

theorem settles_counted {count : Int} {part : Assembler Code} (h : Settles L S D q part) :
    Settles L S D q (counted settings count part) := by
  intro s code s' hs hok
  obtain ⟨body, s₁, hbody, rfl, rfl⟩ := counted_ok hok
  have hspends := h { s with counter := s.counter + 1, position := s.position + 1 } _ _ hs hbody
  exact hspends.recode fun k => by simp

theorem settles_skippable {preview : Option Nat} {part : Assembler Code} (h : Settles L S D q part) :
    Settles L S D q (skippable preview part) := by
  intro s code s' hs hok
  obtain ⟨body, hbody, rfl⟩ := skippable_ok hok
  have hspends := h { s with position := s.position + (forkTest preview).length + 1 } _ _ hs hbody
  exact hspends.recode fun k => by simp

theorem settles_loopTo {counter head : Nat} : Settles L S ∅ q (loopTo counter head) := by
  intro s code s' _ hok
  obtain ⟨rfl, rfl⟩ := loopTo_ok hok
  exact .of_unpreviewed (.refl _) fun k => by simp

/-- Optional iterations may be left out, so nothing is done with. -/
theorem settles_optional {preview : Option Nat} {part : Assembler Code} {count : Int}
    (h : Settles L S D q part) : Settles L S ∅ q (optional settings preview part count) := by
  have hpart : Settles L S ∅ q part := h.mono subset_rfl (Set.empty_subset _)
  rw [optional]
  split
  · exact settles_skippable hpart
  · split
    · intro s code s' hs hok
      obtain ⟨rounds, s₁, hrounds, rfl, rfl⟩ := optionalLoop_ok hok
      have hround : Settles L S ∅ q
          (inSequence [part, emit Template.yieldThread [], loopTo s.counter (s.position + 1)]) := by
        refine .inSequence_nothing fun x hx => ?_
        simp only [List.mem_cons, List.not_mem_nil, or_false] at hx
        rcases hx with rfl | rfl | rfl
        · exact hpart
        · exact .of_emit (by decide)
        · exact settles_loopTo
      have hspends := settles_skippable hround
        { s with counter := s.counter + 1, position := s.position + 1 } _ _ hs hrounds
      exact hspends.recode fun k => by simp
    · exact .nil

/-! ### Required iterations -/

theorem settles_copies {t : Template} {root : Int} {n : Nat} (h : Settles L S ∅ q (emit t [root])) :
    Settles L S ∅ q (copies t root n) := by
  induction n with
  | zero => exact .nil
  | succ n ih =>
    rw [copies]
    exact h.append_nothing ih

theorem settles_requiredCharacters {t : Template} {root : Int} {min : Nat}
    (h : Settles L S ∅ q (emit t [root])) :
    Settles L S ∅ q (requiredCharacters settings t root min) := by
  rw [requiredCharacters]
  split
  · exact settles_copies h
  · exact settles_counted h

/-- At least one iteration has been emitted if one is required. -/
theorem settles_required {child min : Nat} {part : Assembler Code} (h : Settles L S D q part) :
    Settles L S {j | min ≠ 0 ∧ j ∈ D} q (required settings child part min) := by
  have hfirst : ∀ {y : Assembler Code}, Settles L S ∅ q y →
      Settles L S D q (inSequence [part, y]) := by
    intro y hy
    refine (Settles.inSequence (.cons h (.cons hy .nil))).mono subset_rfl fun j hj => ?_
    exact ⟨D, List.mem_cons_self, hj⟩
  have hyields : Settles L S ∅ q (emit Template.yieldThread []) := .of_emit (by decide)
  have hlooped : ∀ count : Nat, Settles L S D q
      (counted settings count (inSequence [part, emit Template.yieldThread []])) :=
    fun count => settles_counted (hfirst hyields)
  have hpart : Settles L S ∅ q part := h.mono subset_rfl (Set.empty_subset _)
  unfold required
  match min with
  | 0 => exact Settles.nil.mono subset_rfl fun j hj => hj.1 rfl
  | 1 => exact h.mono subset_rfl fun j hj => hj.2
  | count + 2 =>
    refine .of_get fun t => ?_
    simp only
    refine Settles.mono (D := D) ?_ subset_rfl fun j hj => hj.2
    split
    · refine hfirst ?_
      split
      · exact hpart
      · exact (hlooped _).mono subset_rfl (Set.empty_subset _)
    · exact hlooped _

/-! ### Optional characters -/

theorem settles_branches {t : Template} (ht : t.guardFree = true) {root distance : Int} {count : Nat} :
    Settles L S ∅ q (branches t root distance count) := by
  induction count generalizing distance with
  | zero => exact .nil
  | succ count ih =>
    rw [branches]
    exact .of_still .operand fun _ => (Settles.of_emit ht).append_nothing ih

theorem settles_disjoint {t : Template} (ht : t.guardFree = true) {root count : Int} :
    Settles L S ∅ q (disjoint settings t root count) := by
  rw [disjoint]
  split
  · exact settles_branches ht
  · refine .inSequence_nothing fun x hx => ?_
    rcases List.mem_pair.1 hx with rfl | rfl
    · exact settles_branches ht
    · intro s code s' _ hok
      obtain ⟨rfl, rfl⟩ := disjointLoop_ok hok
      exact .of_unpreviewed (.refl _) fun k => by simp [Template.guardTests_fill ht]

/-! ### Repetitions of characters and of other parts -/

theorem guardTests_loopGuard {guard : Int} :
    (Template.loopGuard.fill [guard, 1]).guardTests k = if guard = k then 1 else 0 :=
  Code.guardTests_singleton (by decide)

/-- The guard of a repetition is tested if it has not been tested before. -/
theorem loopGuard_ok {n : Node} (h : loopGuard n s = .ok code s') :
    s'.pattern = s.pattern ∧ ∀ k, code.guardTests k = (n.untested k).toNat := by
  rw [loopGuard] at h
  split at h
  · rename_i huntested
    cases hguard : n.guard with
    | none =>
      rw [hguard] at h
      exact (throw_ok.1 h).elim
    | some guard =>
      rw [hguard] at h
      obtain ⟨x, s₁, hx, hemit⟩ := bind_ok.1 h
      obtain ⟨rfl, rfl⟩ := operand_ok hx
      obtain ⟨rfl, rfl⟩ := emit_ok hemit
      refine ⟨rfl, fun k => ?_⟩
      rw [guardTests_loopGuard, Node.untested, huntested, hguard, Bool.true_and]
      by_cases hk : (guard : Int) = k
      · simp [hk]
      · simp [hk, beq_eq_false_iff_ne.2 hk]
  · rename_i htested
    obtain ⟨rfl, rfl⟩ := pure_ok.1 h
    refine ⟨rfl, fun k => ?_⟩
    rw [Node.untested, Bool.eq_false_iff.2 htested, Bool.false_and]
    rfl

/-- The guard of a repetition, if it has not been tested before, and then the iterations. The guard is of no
more use after them. -/
theorem iterations_spends {i : Nat} {first more : Assembler Code} (hL : L.Nodup) (hi : i ∈ L) (hS : i ∉ S)
    (hfirst : Settles L S D q first) (hmore : Settles L S ∅ q more)
    (hs : s.pattern.SameUpTo Node.assembled q)
    (h : (do
      let a ← loopGuard (s.pattern.node i)
      let b ← first
      let c ← more
      pure (a ++ b ++ c)) s = .ok code s') :
    s.pattern.Spends L (insert i S) (insert i D) code
      (s'.pattern.updateAttributes i ({ · with controlling := false })) := by
  obtain ⟨guard, s₁, hguard, hrest₁⟩ := bind_ok.1 h
  obtain ⟨a, s₂, ha, hrest₂⟩ := bind_ok.1 hrest₁
  obtain ⟨b, s₃, hb, hpure⟩ := bind_ok.1 hrest₂
  obtain ⟨rfl, rfl⟩ := pure_ok.1 hpure
  obtain ⟨hpattern, hcount⟩ := loopGuard_ok hguard
  rw [← hpattern] at hs
  have hspends := hfirst _ _ _ hs ha
  have hboth := hspends.append (hmore _ _ _ (hspends.same.trans hs) hb)
  rw [Set.union_empty, hpattern] at hboth
  -- the iterations have not changed what is known about the guard
  have hsame : ∀ k, (s₃.pattern.node i).untested k = (s.pattern.node i).untested k := by
    intro k
    have hguard : (s₃.pattern.node i).guard = (s.pattern.node i).guard :=
      hboth.same.get Node.guard (fun _ => rfl) i
    have hflags := Prod.ext_iff.1 (hboth.flags i hS)
    rw [Node.untested, Node.untested, hguard]
    simp only [Node.guardFlags] at hflags
    rw [hflags.1, hflags.2]
  have hlast : s₃.pattern.Spends L (insert i S) {i} guard
      (s₃.pattern.updateAttributes i ({ · with controlling := false })) := by
    refine .of_updateAttributes hL hi (Set.mem_insert _ _) (fun _ => rfl) (fun a ha => by cases ha)
      (fun j hj => ⟨hj, fun _ => rfl⟩) fun k => ?_
    rw [hcount, hsame, Node.untested_of_uncontrolled (controlling_updateAttributes fun _ => rfl)]
    rfl
  refine ((hboth.mono (Set.subset_insert i S) subset_rfl).append hlast).recode (fun k => ?_) |>.mono
    subset_rfl ?_
  · simp
    omega
  · intro j hj
    rcases hj with rfl | hj
    · exact .inr rfl
    · exact .inl hj

theorem settles_more {preview : Option Nat} {part : Assembler Code} {count : Int} (h : Settles L S D q part) :
    Settles L S ∅ q (do optional settings (← nextPreview preview) part count) :=
  .of_still .nextPreview fun _ => settles_optional h

theorem characterRepetition_spends {i min : Nat} {root : Int} {max : Option Nat} (hL : L.Nodup) (hi : i ∈ L)
    (hS : i ∉ S) (hs : s.pattern.SameUpTo Node.assembled q)
    (h : characterRepetition settings (s.pattern.node i) root min max s = .ok code s') :
    s.pattern.Spends L (insert i S) {i} code
      (s'.pattern.updateAttributes i ({ · with controlling := false })) := by
  have hchar : Settles L S ∅ q
      (emit (if (s.pattern.node i).attributes.controlling then Template.charAnchor else Template.char)
        [root]) := by
    split
    · exact .of_emit (by decide)
    · exact .of_emit (by decide)
  have hbranch : Template.guardFree (if (s.pattern.node i).attributes.controlling then
      Template.charAnchorBranch else Template.charBranchTo) = true := by
    split
    · decide
    · decide
  have hfirst : Settles L S ∅ q (requiredCharacters settings
      (if (s.pattern.node i).attributes.controlling then Template.charAnchor else Template.char) root min) :=
    settles_requiredCharacters hchar
  rw [← insert_empty_eq]
  cases hdisjoint : (s.pattern.node i).attributes.disjoint with
  | true =>
    simp only [characterRepetition, hdisjoint, if_true] at h
    exact iterations_spends hL hi hS hfirst (settles_disjoint hbranch) hs h
  | false =>
    have hmore : Settles L S ∅ q (do
        optional settings (← nextPreview (s.pattern.node i).lookAhead)
          (emit (if (s.pattern.node i).attributes.controlling then Template.charAnchor else Template.char)
            [root]) (optionalCount min max)) := settles_more hchar
    refine iterations_spends hL hi hS hfirst hmore hs ?_
    simpa only [characterRepetition, hdisjoint, Bool.false_eq_true, if_false, bind_assoc] using h

theorem partRepetition_spends {i child min : Nat} {max : Option Nat} {part : Assembler Code} (hL : L.Nodup)
    (hi : i ∈ L) (hS : i ∉ S) (hpart : Settles L S D q part) (hs : s.pattern.SameUpTo Node.assembled q)
    (h : partRepetition settings (s.pattern.node i) child part min max s = .ok code s') :
    s.pattern.Spends L (insert i S) (insert i {j | min ≠ 0 ∧ j ∈ D}) code
      (s'.pattern.updateAttributes i ({ · with controlling := false })) := by
  have hmore : Settles L S ∅ q (do
      optional settings (← nextPreview (s.pattern.node i).lookAhead) part (optionalCount min max)) :=
    settles_more hpart
  have hfirst : Settles L S {j | min ≠ 0 ∧ j ∈ D} q (required settings child part min) :=
    settles_required hpart
  refine iterations_spends hL hi hS hfirst hmore hs ?_
  simpa only [partRepetition, bind_assoc] using h

/-- A repetition tests its guard and the guards of its child. The child of a repetition that may be left out
is not done with. -/
theorem settles_repetition {i child min : Nat} {max : Option Nat} {part : Assembler Code}
    {children : List (Nat × Assembler Code)} (hL : L.Nodup) (hi : i ∈ L) (hS : i ∉ S)
    (hclass : (q.node child).kind.class?.isSome = true → D = ∅) (h : Settles L S D q part) :
    Settles L (insert i S) (insert i {j | min ≠ 0 ∧ j ∈ D}) q
      (repetition settings i min max ((child, part) :: children)) := by
  intro s code s' hs hok
  obtain ⟨n, s₁, hnode, hrest₁⟩ := bind_ok.1 hok
  obtain ⟨rfl, rfl⟩ := node_ok.1 hnode
  obtain ⟨c, s₂, hchild, hrest₂⟩ := bind_ok.1 hrest₁
  obtain ⟨rfl, rfl⟩ := node_ok.1 hchild
  have hkind : (s.pattern.node child).kind = (q.node child).kind := hs.get Node.kind (fun _ => rfl) child
  simp only [hkind] at hrest₂
  cases hroot : (q.node child).kind.class? with
  | none =>
    rw [hroot] at hrest₂
    obtain ⟨code', s₃, hcode, hrest₃⟩ := bind_ok.1 hrest₂
    obtain ⟨_, s₄, hupdate, hpure⟩ := bind_ok.1 hrest₃
    obtain ⟨rfl, rfl⟩ := pure_ok.1 hpure
    obtain rfl := updateAttributes_ok hupdate
    exact partRepetition_spends hL hi hS h hs hcode
  | some root =>
    rw [hroot] at hrest₂
    obtain ⟨x, s₃, hx, hrest₃⟩ := bind_ok.1 hrest₂
    obtain ⟨rfl, rfl⟩ := operand_ok hx
    obtain ⟨code', s₄, hcode, hrest₄⟩ := bind_ok.1 hrest₃
    obtain ⟨_, s₅, hupdate, hpure⟩ := bind_ok.1 hrest₄
    obtain ⟨rfl, rfl⟩ := pure_ok.1 hpure
    obtain rfl := updateAttributes_ok hupdate
    have hD : D = ∅ := hclass (by rw [hroot, Option.isSome_some])
    refine (characterRepetition_spends hL hi hS hs hcode).mono subset_rfl fun j hj => ?_
    rcases hj with rfl | ⟨-, hj⟩
    · rfl
    · rw [hD] at hj
      exact hj.elim

end Assembler
end ByteMatch
