import ByteMatch.Pattern.Assembly.Alternation
import ByteMatch.Proofs.Pattern.Assembly

/-!
# ByteMatch.Proofs.Pattern.Assembly.Alternation

An alternation reads what one of its alternatives reads.

A thread goes from fork to fork, and each fork starts a thread at its alternative. A shared tail is
entered by a jump instead, so its last fork gives the thread back to the alternation around it.

* `Code.ReadsOr`: a fragment that a thread may also leave for another place.
* `Code.Screens`: tests that let a thread skip a fork only if the alternative would fail.
* `Code.Enters`: an instruction that leads to an alternative and to the next fork.
* `Assembler.Decided`, `Assembler.Placed`: where forks and alternatives stand.
* `Assembler.emits_alternation`: the fragment of an alternation.
-/

namespace ByteMatch

variable {α : Type} {cls : Int → α → Bool}

namespace Code

variable {program code tests : Code} {place start fork counter : Nat} {rest : List α} {L : Language α}
  {back : Option Nat}

/-- What is accepted at the place that a thread may go to instead. -/
def acceptedAt (cls : Int → α → Bool) (program : Code) (rest : List α) (σ : Int → Int) :
    Option Nat → Language α
  | none => 0
  | some place => accepted cls program rest place σ

/-- A thread that enters the fragment reads a string of the language and leaves the fragment at its
end, or it goes to the place `back`. -/
def ReadsOr (cls : Int → α → Bool) (back : Option Nat) (L : Language α) (code : Code)
    (place counter : Nat) : Prop :=
  ∀ program rest, Holds program place code → ∀ σ,
    Acceptor.Settled (accepted cls program rest) counter (place + code.length) σ →
    accepted cls program rest place σ =
      L * accepted cls program rest (place + code.length) σ + acceptedAt cls program rest σ back

theorem readsOr_none :
    ReadsOr cls none L code place counter ↔ Reads cls L code place counter := by
  simp only [ReadsOr, Reads, acceptedAt, add_zero]

/-! ## Tests before a fork -/

/-- What the fork after the tests does is what the tests and the fork do: no test fails before a
string that starts with one of `L`. -/
def Screens (cls : Int → α → Bool) (L : Language α) (tests : Code) (place : Nat) : Prop :=
  ∀ program rest, Holds program place tests → ∀ σ X,
    accepted cls program rest (place + tests.length) σ =
      L * X + accepted cls program rest (place + tests.length + 1) σ →
    accepted cls program rest place σ =
      L * X + accepted cls program rest (place + tests.length + 1) σ

theorem Screens.nil : Screens cls L [] place := fun _ _ _ _ _ h => h

theorem Screens.skip {op : UInt8} {index address : Int} (hop : Opcode.operation op = .skip)
    (h : Screens cls L tests (place + 1)) :
    Screens cls L (⟨op, index, address, false⟩ :: tests) place := by
  intro program rest hholds σ X hX
  obtain ⟨htest, htests⟩ := holds_cons.1 hholds
  rw [List.length_cons, ← Nat.add_assoc, Nat.add_right_comm place] at hX ⊢
  rw [accepted_skip htest hop]
  exact h program rest htests σ X hX

/-- A look at the next character, if all strings of the language start with the class. -/
theorem Screens.lookahead {op : UInt8} {root : Int}
    (hop : Opcode.operation op = .character true true)
    (hstarts : ∀ w ∈ L, w.head?.any (cls root) = true) :
    Screens cls L [⟨op, 1, root, false⟩] place := by
  intro program rest hholds σ X hX
  have htest : program[place]? = some ⟨op, (1 : Nat), root, false⟩ := (holds_cons.1 hholds).1
  rw [List.length_singleton] at hX ⊢
  refine Language.ext fun w => ?_
  rw [mem_accepted_lookahead htest hop]
  split
  · rw [hX]
  · rename_i hfail
    have hnot : w ∉ L * X := by
      intro hw
      obtain ⟨u, hu, v, -, rfl⟩ := Language.mem_mul.1 hw
      exact hfail (Pattern.head?_any_append (hstarts u hu))
    rw [Language.mem_add, or_iff_right hnot]

/-! ## Entering an alternative -/

/-- The instruction leads to an alternative, and to the instruction after it. -/
def Enters (cls : Int → α → Bool) (L : Language α) (entry : Instruction) (code : Code)
    (fork start counter : Nat) : Prop :=
  ∀ program rest, Holds program start code → program[fork]? = some entry → ∀ σ,
    Acceptor.Settled (accepted cls program rest) counter (start + code.length) σ →
    accepted cls program rest fork σ =
      L * accepted cls program rest (start + code.length) σ +
        accepted cls program rest (fork + 1) σ

theorem Reads.enters (h : Reads cls L code start counter) :
    Enters cls L (forkTo fork start false) code fork start counter := by
  intro program rest hholds hentry σ hσ
  rw [accepted_fork hentry (by decide), h program rest hholds σ hσ]

theorem ReadsOr.enters (h : ReadsOr cls (some (fork + 1)) L code start counter) :
    Enters cls L (jumpTo fork start) code fork start counter := by
  intro program rest hholds hentry σ hσ
  rw [accepted_jump hentry (by decide), h program rest hholds σ hσ, acceptedAt]

end Code

namespace Assembler

open Step

variable {p : Pattern} {settings : Settings} {s s' : Assembly} {L : Language α}
  {Ls : List (Language α)} {back : Option Nat} {place start stop finish counter : Nat}
  {forks : List Fork} {parts : List Alternative}

/-! ## The layout of an alternation -/

/-- Forks stand one after the other from the first place to the last one. -/
inductive Decided (cls : Int → α → Bool) : Nat → List (Language α) → List Fork → Nat → Prop
  | nil {place : Nat} : Decided cls place [] [] place
  | cons {place stop : Nat} {L : Language α} {Ls : List (Language α)} {tests : Code}
      {blank : Instruction} {forks : List Fork} (hscreens : Code.Screens cls L tests place)
      (hrest : Decided cls (place + tests.length + 1) Ls forks stop) :
      Decided cls place (L :: Ls) (⟨tests ++ [blank], place + tests.length⟩ :: forks) stop

/-- Alternatives stand one after the other from the first place to the last one, and the forks lead to
them. -/
inductive Placed (cls : Int → α → Bool) (counter : Nat) :
    Nat → List (Language α) → List Fork → List Alternative → Nat → Prop
  | nil {start : Nat} : Placed cls counter start [] [] [] start
  | cons {start finish : Nat} {L : Language α} {Ls : List (Language α)} {fork : Fork}
      {entry blank : Instruction} {code : Code} {forks : List Fork} {parts : List Alternative}
      (henters : Code.Enters cls L entry code fork.place start counter)
      (hrest : Placed cls counter (start + code.length + 1) Ls forks parts finish) :
      Placed cls counter start (L :: Ls) (fork :: forks)
        (⟨entry, code ++ [blank], start + code.length⟩ :: parts) finish

section Layout

variable {tests code : Code} {entry blank : Instruction}

theorem resolveForks_cons {fork : Nat} {a : Alternative} :
    resolveForks (⟨tests ++ [blank], fork⟩ :: forks) (a :: parts) =
      tests ++ a.entry :: resolveForks forks parts := by
  simp [resolveForks, Code.resolveLast]

theorem resolveEnds_cons :
    resolveEnds finish (⟨entry, code ++ [blank], place⟩ :: parts) =
      code ++ Code.forkTo place finish true :: resolveEnds finish parts := by
  simp [resolveEnds, Code.resolveLast]

theorem Decided.length_resolveForks (hdecided : Decided cls place Ls forks stop)
    (hplaced : Placed cls counter start Ls forks parts finish) :
    place + (resolveForks forks parts).length = stop := by
  induction hplaced generalizing place with
  | nil =>
    cases hdecided
    rfl
  | cons _ _ ih =>
    cases hdecided with
    | cons _ hrest =>
      rw [← ih hrest, resolveForks_cons, List.length_append, List.length_cons]
      omega

theorem Placed.length_resolveEnds (target : Nat)
    (hplaced : Placed cls counter start Ls forks parts finish) :
    start + (resolveEnds target parts).length = finish := by
  induction hplaced with
  | nil => rfl
  | cons _ _ ih =>
    rw [← ih, resolveEnds_cons, List.length_append, List.length_cons]
    omega

end Layout

/-- From the first fork a thread reads one of the alternatives, or comes to the end of the forks. -/
theorem accepted_forks {program : Code} {rest : List α} {target : Nat} {σ : Int → Int}
    (hdecided : Decided cls place Ls forks stop)
    (hplaced : Placed cls counter start Ls forks parts finish)
    (hforks : Code.Holds program place (resolveForks forks parts))
    (hends : Code.Holds program start (resolveEnds target parts))
    (hσ : Acceptor.Settled (Code.accepted cls program rest) counter target σ) :
    Code.accepted cls program rest place σ =
      Ls.sum * Code.accepted cls program rest target σ + Code.accepted cls program rest stop σ := by
  induction hplaced generalizing place with
  | nil =>
    cases hdecided
    rw [List.sum_nil, zero_mul, zero_add]
  | @cons start _ L Ls fork entry _ code forks parts henters _ ih =>
    cases hdecided with
    | @cons _ _ _ _ tests _ _ hscreens hrest =>
      rw [resolveForks_cons, Code.holds_append, Code.holds_cons] at hforks
      rw [resolveEnds_cons, Code.holds_append, Code.holds_cons] at hends
      obtain ⟨htests, hentry, hforks⟩ := hforks
      obtain ⟨hcode, hleave, hends⟩ := hends
      -- the alternative leaves for the end of the alternation
      have hend : ∀ σ', Code.accepted cls program rest (start + code.length) σ' =
          Code.accepted cls program rest target σ' := fun σ' =>
        Code.accepted_leave hleave (by decide)
      have hsettled : Acceptor.Settled (Code.accepted cls program rest) counter
          (start + code.length) σ := by
        intro σ' hσ'
        rw [hend, hend, hσ σ' hσ']
      have hfork := henters program rest hcode hentry σ hsettled
      rw [hend] at hfork
      rw [hscreens program rest htests σ _ hfork, ih hrest hforks hends, List.sum_cons, add_mul,
        add_assoc]

/-! ## Assembling alternatives -/

/-- Whenever the step succeeds where `back` is where a thread goes instead, the fragment reads `L` or
goes there. -/
def EmitsOr (cls : Int → α → Bool) (p : Pattern) (back : Option Nat) (L : Language α)
    (x : Assembler Code) : Prop :=
  ∀ s code s', s.pattern.Alike p → s.returns = back.toList → x s = .ok code s' →
    Emitted { s with returns := [] } code s' ∧
      Code.ReadsOr cls back L code s.position s.counter

theorem EmitsOr.emits {x : Assembler Code} (h : EmitsOr cls p none L x) : Emits cls p L x := by
  intro s code s' hp hret hok
  obtain ⟨hemit, hreads⟩ := h s code s' hp hret hok
  exact ⟨⟨hemit.pattern, hemit.position, hemit.counter, hemit.returns.trans hret.symm⟩,
    Code.readsOr_none.1 hreads⟩

/-- What is known of an alternative: what it reads, also as a shared tail, and how its strings start
if a class is found ahead. -/
structure IsAlternative (cls : Int → α → Bool) (p : Pattern) (L : Language α)
    (c : Nat × Assembler Code) : Prop where
  emits : Emits cls p L c.2
  emits_tail : (p.node c.1).attributes.sharedTail = true → ∀ place, EmitsOr cls p (some place) L c.2
  starts : ∀ q : Pattern, q.Alike p → ∀ preview, q.preview? (p.leading c.1) = some preview →
    ∀ w ∈ L, w.head?.any (cls preview.charClass) = true

/-- A preview is found at the beginning of the node, and the node that it has been found for is noted. -/
theorem takePreview_steps {i : Nat} {preview : Option Nat} (h : takePreview i s = .ok preview s') :
    (preview = none ∧ s' = s) ∨ ∃ v, s.pattern.preview? (s.pattern.leading i) = some v ∧
      preview = some v.charClass ∧ (s' = s ∨ ∃ place,
        s' = { s with pattern := s.pattern.updateAttributes place ({ · with previewed := true }) }) := by
  obtain ⟨t, s₁, hget, hrest⟩ := bind_ok.1 h
  obtain ⟨rfl, rfl⟩ := get_ok.1 hget
  simp only at hrest
  cases hpreview : s.pattern.preview? (s.pattern.leading i) with
  | none =>
    rw [hpreview] at hrest
    obtain ⟨rfl, rfl⟩ := pure_ok.1 hrest
    exact .inl ⟨rfl, rfl⟩
  | some v =>
    rw [hpreview] at hrest
    simp only at hrest
    cases hplace : v.place with
    | none =>
      simp only [hplace] at hrest
      obtain ⟨rfl, rfl⟩ := pure_ok.1 hrest
      exact .inr ⟨v, rfl, rfl, .inl rfl⟩
    | some place =>
      simp only [hplace] at hrest
      obtain ⟨_, s₂, hupdate, hpure⟩ := bind_ok.1 hrest
      obtain ⟨rfl, rfl⟩ := pure_ok.1 hpure
      exact .inr ⟨v, rfl, rfl, .inr ⟨place, updateAttributes_ok hupdate⟩⟩

theorem takePreview_ok {i : Nat} {preview : Option Nat} (h : takePreview i s = .ok preview s') :
    Emitted s [] s' ∧ ∀ root, preview = some root →
      ∃ v, s.pattern.preview? (s.pattern.leading i) = some v ∧ v.charClass = root := by
  rcases takePreview_steps h with ⟨rfl, rfl⟩ | ⟨v, hv, rfl, rfl | ⟨place, rfl⟩⟩
  · exact ⟨.nil, fun root hroot => by cases hroot⟩
  · exact ⟨.nil, fun root hroot => ⟨v, hv, Option.some.inj hroot⟩⟩
  · exact ⟨⟨Pattern.alike_updateAttributes fun _ => rfl, rfl, rfl, rfl⟩,
      fun root hroot => ⟨v, hv, Option.some.inj hroot⟩⟩

/-- A guard is found at the beginning of the node, and its repetition is noted. -/
theorem takeGuard_steps {i : Nat} {guard : Option Int} (h : takeGuard i s = .ok guard s') :
    (guard = none ∧ s' = s) ∨ ∃ place g : Nat,
      s.pattern.untestedGuard? (s.pattern.leading i) = some ⟨place, some g⟩ ∧ guard = some (g : Int) ∧
      s' = { s with pattern := s.pattern.updateAttributes place ({ · with guardTested := true }) } := by
  obtain ⟨t, s₁, hget, hrest⟩ := bind_ok.1 h
  obtain ⟨rfl, rfl⟩ := get_ok.1 hget
  cases hguard : s.pattern.untestedGuard? (s.pattern.leading i) with
  | none =>
    rw [hguard] at hrest
    obtain ⟨rfl, rfl⟩ := pure_ok.1 hrest
    exact .inl ⟨rfl, rfl⟩
  | some v =>
    obtain ⟨place, guard⟩ := v
    rw [hguard] at hrest
    cases guard with
    | none => exact (throw_ok.1 hrest).elim
    | some g =>
      obtain ⟨_, s₂, hupdate, hmap⟩ := bind_ok.1 hrest
      obtain ⟨_, hoperand, rfl⟩ := map_ok.1 hmap
      obtain ⟨rfl, rfl⟩ := operand_ok hoperand
      exact .inr ⟨place, g, rfl, rfl, updateAttributes_ok hupdate⟩

theorem takeGuard_ok {i : Nat} {guard : Option Int} (h : takeGuard i s = .ok guard s') :
    Emitted s [] s' := by
  rcases takeGuard_steps h with ⟨-, rfl⟩ | ⟨place, g, -, -, rfl⟩
  · exact .nil
  · exact ⟨Pattern.alike_updateAttributes fun _ => rfl, rfl, rfl, rfl⟩

theorem Emits.of_takeGuard {i : Nat} {f : Option Int → Assembler Code}
    (h : ∀ guard, Emits cls p L (f guard)) : Emits cls p L (takeGuard i >>= f) := by
  intro s code s' hp hret hok
  obtain ⟨guard, s₁, hguard, hrest⟩ := bind_ok.1 hok
  have hnone := takeGuard_ok hguard
  obtain ⟨hemit, hreads⟩ := h guard s₁ code s' (hnone.pattern.trans hp)
    (hnone.returns.trans hret) hrest
  rw [hnone.position, hnone.counter] at hreads
  exact ⟨hnone.append hemit, hreads⟩

theorem charZero_ok {root : Nat} {tests : Code}
    (hstarts : ∀ w ∈ L, w.head?.any (cls root) = true)
    (h : (do emit Template.charZero [1, ← operand .charClass root]) s = .ok tests s') :
    Emitted s tests s' ∧ ∀ place, Code.Screens cls L tests place := by
  obtain ⟨x, s₁, hx, hemit⟩ := bind_ok.1 h
  obtain ⟨rfl, rfl⟩ := operand_ok hx
  refine ⟨.of_emit hemit, fun place => ?_⟩
  rw [(emit_ok hemit).1]
  exact Code.Screens.lookahead (by decide) hstarts

theorem decisionTests_ok {guard : Option Int} {preview : Option Nat} {tests : Code}
    (hstarts : ∀ root : Nat, preview = some root → ∀ w ∈ L, w.head?.any (cls root) = true)
    (h : decisionTests guard preview s = .ok tests s') :
    Emitted s tests s' ∧ ∀ place, Code.Screens cls L tests place := by
  cases guard with
  | none =>
    cases preview with
    | none =>
      obtain ⟨rfl, rfl⟩ := pure_ok.1 h
      exact ⟨.nil, fun _ => .nil⟩
    | some root => exact charZero_ok (hstarts root rfl) h
  | some guard =>
    cases preview with
    | none =>
      rw [decisionTests] at h
      refine ⟨.of_emit h, fun place => ?_⟩
      rw [(emit_ok h).1]
      exact Code.Screens.nil.skip (by decide)
    | some root =>
      obtain ⟨test, more, s₁, htest, hmore, rfl⟩ := inSequence_cons_ok h
      obtain ⟨look, more', s₂, hlook, hnil, rfl⟩ := inSequence_cons_ok hmore
      obtain ⟨rfl, rfl⟩ := pure_ok.1 hnil
      obtain ⟨hemit, hscreens⟩ := charZero_ok (hstarts root rfl) hlook
      rw [List.append_nil]
      refine ⟨(Emitted.of_emit htest).append hemit, fun place => ?_⟩
      rw [(emit_ok htest).1]
      exact (hscreens (place + 1)).skip (by decide)

theorem placeholder_ok {blank : Code} (h : emit Template.placeholder [] s = .ok blank s') :
    blank = [⟨Opcode.null, 0, 0, false⟩] ∧ s' = { s with position := s.position + 1 } := by
  obtain ⟨rfl, rfl⟩ := emit_ok h
  exact ⟨rfl, rfl⟩

/-- A fork has its tests, and a placeholder after them. -/
theorem decision_steps {i : Nat} {fork : Fork} (h : decision i s = .ok fork s') :
    ∃ preview guard tests s₁ s₂ s₃, takePreview i s = .ok preview s₁ ∧
      takeGuard i s₁ = .ok guard s₂ ∧ decisionTests guard preview s₂ = .ok tests s₃ ∧
      fork = ⟨tests ++ [⟨Opcode.null, 0, 0, false⟩], s₃.position⟩ ∧
      s' = { s₃ with position := s₃.position + 1 } := by
  obtain ⟨preview, s₁, hpreview, hrest₁⟩ := bind_ok.1 h
  obtain ⟨guard, s₂, hguard, hrest₂⟩ := bind_ok.1 hrest₁
  obtain ⟨tests, s₃, htests, hrest₃⟩ := bind_ok.1 hrest₂
  obtain ⟨place, s₄, hplace, hrest₄⟩ := bind_ok.1 hrest₃
  obtain ⟨blank, s₅, hblank, hpure⟩ := bind_ok.1 hrest₄
  obtain ⟨rfl, rfl⟩ := pure_ok.1 hpure
  obtain ⟨rfl, rfl⟩ := position_ok.1 hplace
  obtain ⟨rfl, rfl⟩ := placeholder_ok hblank
  exact ⟨preview, guard, tests, s₁, s₂, s₃, hpreview, hguard, htests, rfl, rfl⟩

theorem decision_ok {c : Nat × Assembler Code} (hc : IsAlternative cls p L c) {fork : Fork}
    (hp : s.pattern.Alike p) (h : decision c.1 s = .ok fork s') :
    Emitted s fork.code s' ∧ ∃ tests blank, fork = ⟨tests ++ [blank], s.position + tests.length⟩ ∧
      Code.Screens cls L tests s.position := by
  obtain ⟨preview, guard, tests, s₁, s₂, s₃, hpreview, hguard, htests, rfl, rfl⟩ := decision_steps h
  obtain ⟨hemit₁, hfound⟩ := takePreview_ok hpreview
  have hstarts : ∀ root : Nat, preview = some root → ∀ w ∈ L, w.head?.any (cls root) = true := by
    intro root hroot
    obtain ⟨v, hv, rfl⟩ := hfound root hroot
    rw [hp.leading] at hv
    exact hc.starts _ hp v hv
  obtain ⟨hemit₂, hscreens⟩ := decisionTests_ok hstarts htests
  have hemit := (hemit₁.append (takeGuard_ok hguard)).append hemit₂
  refine ⟨hemit.append (.blank _), tests, ⟨Opcode.null, 0, 0, false⟩, ?_, hscreens s.position⟩
  rw [hemit.position]
  rfl

theorem decisions_ok {children : List (Nat × Assembler Code)}
    (hchildren : List.Forall₂ (IsAlternative cls p) Ls children) (hp : s.pattern.Alike p)
    (h : decisions children s = .ok forks s') :
    Emitted s (forks.flatMap (·.code)) s' ∧ Decided cls s.position Ls forks s'.position := by
  induction hchildren generalizing s forks with
  | nil =>
    obtain ⟨rfl, rfl⟩ := pure_ok.1 h
    exact ⟨.nil, .nil⟩
  | @cons L c Ls children hc _ ih =>
    obtain ⟨fork, s₁, hfork, hrest⟩ := bind_ok.1 h
    obtain ⟨more, s₂, hmore, hpure⟩ := bind_ok.1 hrest
    obtain ⟨rfl, rfl⟩ := pure_ok.1 hpure
    obtain ⟨hemit, tests, blank, rfl, hscreens⟩ := decision_ok hc hp hfork
    obtain ⟨hemit', hdecided⟩ := ih (hemit.pattern.trans hp) hmore
    refine ⟨hemit.append hemit', .cons hscreens ?_⟩
    have hposition := hemit.position
    rw [List.length_append, List.length_singleton, ← Nat.add_assoc] at hposition
    rwa [hposition] at hdecided

theorem takeReturn_ok {place : Nat} (h : takeReturn s = .ok place s') :
    ∃ rest, s.returns = place :: rest ∧ s' = { s with returns := rest } := by
  obtain ⟨t, s₁, hget, hrest⟩ := bind_ok.1 h
  obtain ⟨rfl, rfl⟩ := get_ok.1 hget
  cases hreturns : s.returns with
  | nil =>
    rw [hreturns] at hrest
    exact (throw_ok.1 hrest).elim
  | cons place' rest =>
    rw [hreturns] at hrest
    obtain ⟨_, _, hmodify, hpure⟩ := bind_ok.1 hrest
    obtain ⟨rfl, rfl⟩ := pure_ok.1 hpure
    exact ⟨rest, rfl, (modify_ok.1 hmodify).symm⟩

/-- After the decisions a thread ends, or it goes back to the alternation around a shared tail. -/
theorem decisionEnd_steps (h : decisionEnd s = .ok code s') :
    (s.returns = [] ∧ code = [⟨Opcode.test ||| Opcode.negate, 0, 0, true⟩] ∧
      s' = { s with position := s.position + 1 }) ∨
    ∃ place rest, s.returns = place :: rest ∧ code = [Code.jumpTo s.position place] ∧
      s' = { s with returns := rest, position := s.position + 1 } := by
  obtain ⟨t, s₁, hget, hrest⟩ := bind_ok.1 h
  obtain ⟨rfl, rfl⟩ := get_ok.1 hget
  split at hrest
  · rename_i hempty
    obtain ⟨rfl, rfl⟩ := emit_ok hrest
    exact .inl ⟨List.isEmpty_iff.1 hempty, rfl, rfl⟩
  · obtain ⟨place, s₂, htake, hrest'⟩ := bind_ok.1 hrest
    obtain ⟨rest, hreturns, rfl⟩ := takeReturn_ok htake
    obtain ⟨x, s₃, hposition, hemit⟩ := bind_ok.1 hrest'
    obtain ⟨rfl, rfl⟩ := position_ok.1 hposition
    obtain ⟨rfl, rfl⟩ := emit_ok hemit
    exact .inr ⟨place, rest, hreturns, rfl, rfl⟩

theorem decisionEnd_ok {code : Code} (hret : s.returns = back.toList)
    (h : decisionEnd s = .ok code s') :
    Emitted { s with returns := [] } code s' ∧ code.length = 1 ∧
      ∀ program (rest : List α) σ, Code.Holds program s.position code →
        Code.accepted cls program rest s.position σ =
          Code.acceptedAt cls program rest σ back := by
  rcases decisionEnd_steps h with ⟨hnil, rfl, rfl⟩ | ⟨place, rest, hcons, rfl, rfl⟩
  · obtain rfl : back = none := Option.toList_eq_nil_iff.1 (hret.symm.trans hnil)
    refine ⟨⟨.refl _, rfl, rfl, hnil⟩, rfl, fun program rest σ hholds => ?_⟩
    exact Code.accepted_stop (Code.holds_cons.1 hholds).1 (by decide)
  · cases back with
    | none => cases hret.symm.trans hcons
    | some target =>
      obtain ⟨rfl, rfl⟩ := List.cons.inj (hret.symm.trans hcons)
      refine ⟨⟨.refl _, rfl, rfl, rfl⟩, rfl, fun program rest σ hholds => ?_⟩
      exact Code.accepted_jump (Code.holds_cons.1 hholds).1 (by decide)

theorem emits_alternativeMark {n : Node} :
    Emits cls p (1 : Language α) (alternativeMark settings n) := by
  rw [alternativeMark]
  split
  · exact .of_operand (.of_emit fun _ _ => Code.Reads.skip (by decide))
  · exact .nil

/-- How a thread gets to an alternative, and the mark before it. A shared tail is reached by a jump, and
where it returns to is noted. -/
def Entered (settings : Settings) (fork i : Nat) (s : Assembly) (entry : Instruction) (mark : Code)
    (s' : Assembly) : Prop :=
  if (s.pattern.node i).attributes.sharedTail then
    entry = Code.jumpTo fork s.position ∧ mark = [] ∧
      s' = { s with returns := (fork + 1) :: s.returns }
  else
    entry = Code.forkTo fork s.position false ∧
      alternativeMark settings (s.pattern.node i) s = .ok mark s'

/-- An alternative has its mark, its part, and a placeholder after them. -/
theorem alternative_steps {fork i : Nat} {part : Assembler Code} {a : Alternative}
    (h : alternative settings fork i part s = .ok a s') : ∃ entry mark code s₁ s₂,
      Entered settings fork i s entry mark s₁ ∧ part s₁ = .ok code s₂ ∧
      a = ⟨entry, mark ++ code ++ [⟨Opcode.null, 0, 0, false⟩], s₂.position⟩ ∧
      s' = { s₂ with position := s₂.position + 1 } := by
  obtain ⟨start, s₁, hstart, hrest⟩ := bind_ok.1 h
  obtain ⟨rfl, rfl⟩ := position_ok.1 hstart
  obtain ⟨n, s₂, hnode, hrest'⟩ := bind_ok.1 hrest
  obtain ⟨rfl, rfl⟩ := node_ok.1 hnode
  simp only at hrest'
  have hfinish : ∀ {entry : Instruction} {mark : Code} {s₃ : Assembly}, (do
        let code ← part
        let place ← position
        let placeholder ← emit Template.placeholder []
        pure (⟨entry, mark ++ code ++ placeholder, place⟩ : Alternative)) s₃ = .ok a s' →
      ∃ code s₄, part s₃ = .ok code s₄ ∧
        a = ⟨entry, mark ++ code ++ [⟨Opcode.null, 0, 0, false⟩], s₄.position⟩ ∧
        s' = { s₄ with position := s₄.position + 1 } := by
    intro entry mark s₃ hok
    obtain ⟨code, s₄, hcode, hrest₁⟩ := bind_ok.1 hok
    obtain ⟨place, s₅, hplace, hrest₂⟩ := bind_ok.1 hrest₁
    obtain ⟨blank, s₆, hblank, hpure⟩ := bind_ok.1 hrest₂
    obtain ⟨rfl, rfl⟩ := pure_ok.1 hpure
    obtain ⟨rfl, rfl⟩ := position_ok.1 hplace
    obtain ⟨rfl, rfl⟩ := placeholder_ok hblank
    exact ⟨code, s₄, hcode, rfl, rfl⟩
  split at hrest'
  · rename_i htail
    obtain ⟨_, s₃, hpush, hrest''⟩ := bind_ok.1 hrest'
    obtain rfl := modify_ok.1 hpush
    obtain ⟨_, s₄, hpair, hrest₁⟩ := bind_ok.1 hrest''
    obtain ⟨rfl, rfl⟩ := pure_ok.1 hpair
    obtain ⟨code, s₅, hcode, hend⟩ := hfinish hrest₁
    exact ⟨_, [], code, _, s₅, by rw [Entered, if_pos htail]; exact ⟨rfl, rfl, rfl⟩, hcode, hend⟩
  · rename_i htail
    obtain ⟨mark, s₃, hmark, hrest''⟩ := bind_ok.1 hrest'
    obtain ⟨_, s₄, hpair, hrest₁⟩ := bind_ok.1 hrest''
    obtain ⟨rfl, rfl⟩ := pure_ok.1 hpair
    obtain ⟨code, s₅, hcode, hend⟩ := hfinish hrest₁
    exact ⟨_, mark, code, _, s₅, by rw [Entered, if_neg htail]; exact ⟨rfl, hmark⟩, hcode, hend⟩

theorem alternative_ok {c : Nat × Assembler Code} (hc : IsAlternative cls p L c) {fork : Nat}
    {a : Alternative} (hp : s.pattern.Alike p) (hret : s.returns = [])
    (h : alternative settings fork c.1 c.2 s = .ok a s') :
    Emitted s a.code s' ∧ ∃ entry code blank, a = ⟨entry, code ++ [blank], s.position + code.length⟩ ∧
      Code.Enters cls L entry code fork s.position s.counter := by
  obtain ⟨entry, mark, code, s₁, s₂, hentered, hcode, rfl, rfl⟩ := alternative_steps h
  rw [Entered] at hentered
  split at hentered
  · rename_i htail
    obtain ⟨rfl, rfl, rfl⟩ := hentered
    have hshared : (p.node c.1).attributes.sharedTail = true := by
      rw [← hp.attributes (·.sharedTail) fun _ => rfl]
      exact htail
    obtain ⟨hemit, hreads⟩ := hc.emits_tail hshared (fork + 1)
      { s with returns := (fork + 1) :: s.returns } _ _ hp (by simp [hret]) hcode
    have hwhole := hemit.append (.blank _)
    have hposition := hemit.position
    simp only at hposition hreads
    refine ⟨⟨hwhole.pattern, hwhole.position, hwhole.counter, hwhole.returns.trans hret.symm⟩,
      _, code, ⟨Opcode.null, 0, 0, false⟩, ?_, hreads.enters⟩
    rw [hposition, List.nil_append]
  · obtain ⟨rfl, hmark⟩ := hentered
    obtain ⟨hemit, hreads⟩ := (emits_alternativeMark.append hc.emits) s _ _ hp hret
      (bind_ok.2 ⟨_, _, hmark, bind_ok.2 ⟨_, _, hcode, pure_ok.2 ⟨rfl, rfl⟩⟩⟩)
    rw [one_mul] at hreads
    refine ⟨hemit.append (.blank _), _, _, ⟨Opcode.null, 0, 0, false⟩, ?_, hreads.enters⟩
    rw [hemit.position]

theorem alternatives_ok {children : List (Nat × Assembler Code)}
    (hchildren : List.Forall₂ (IsAlternative cls p) Ls children)
    (hdecided : Decided cls place Ls forks stop) (hp : s.pattern.Alike p) (hret : s.returns = [])
    (h : alternatives settings forks children s = .ok parts s') :
    Emitted s (parts.flatMap (·.code)) s' ∧
      Placed cls s.counter s.position Ls forks parts s'.position := by
  induction hchildren generalizing s place forks parts with
  | nil =>
    cases hdecided
    obtain ⟨rfl, rfl⟩ := pure_ok.1 h
    exact ⟨.nil, .nil⟩
  | @cons L c Ls children hc _ ih =>
    cases hdecided with
    | cons _ hrest =>
      obtain ⟨first, s₁, hfirst, hrest'⟩ := bind_ok.1 h
      obtain ⟨more, s₂, hmore, hpure⟩ := bind_ok.1 hrest'
      obtain ⟨rfl, rfl⟩ := pure_ok.1 hpure
      obtain ⟨hemit, entry, code, blank, rfl, henters⟩ := alternative_ok hc hp hret hfirst
      obtain ⟨hemit', hplaced⟩ :=
        ih hrest (hemit.pattern.trans hp) (hemit.returns.trans hret) hmore
      refine ⟨hemit.append hemit', .cons henters ?_⟩
      have hposition := hemit.position
      rw [List.length_append, List.length_singleton, ← Nat.add_assoc] at hposition
      rwa [hposition, hemit.counter] at hplaced

theorem alternation_steps {children : List (Nat × Assembler Code)}
    (h : alternation settings children s = .ok code s') : ∃ forks stop parts s₁ s₂,
      decisions children s = .ok forks s₁ ∧ decisionEnd s₁ = .ok stop s₂ ∧
      alternatives settings forks children s₂ = .ok parts s' ∧
      code = resolveForks forks parts ++ stop ++ resolveEnds s'.position parts := by
  obtain ⟨forks, s₁, hforks, hrest₁⟩ := bind_ok.1 h
  obtain ⟨stop, s₂, hstop, hrest₂⟩ := bind_ok.1 hrest₁
  obtain ⟨parts, s₃, hparts, hrest₃⟩ := bind_ok.1 hrest₂
  obtain ⟨finish, s₄, hfinish, hpure⟩ := bind_ok.1 hrest₃
  obtain ⟨rfl, rfl⟩ := pure_ok.1 hpure
  obtain ⟨rfl, rfl⟩ := position_ok.1 hfinish
  exact ⟨forks, stop, parts, s₁, s₂, hforks, hstop, hparts, rfl⟩

/-- An alternation reads what one of its alternatives reads. As a shared tail it gives back a thread
that none of them takes. -/
theorem emits_alternation {children : List (Nat × Assembler Code)}
    (hchildren : List.Forall₂ (IsAlternative cls p) Ls children) :
    EmitsOr cls p back Ls.sum (alternation settings children) := by
  intro s code s' hp hret hok
  obtain ⟨forks, stop, parts, s₁, s₂, hforks, hstop, hparts, rfl⟩ := alternation_steps hok
  obtain ⟨hemit₁, hdecided⟩ := decisions_ok hchildren hp hforks
  obtain ⟨hemit₂, hlength, hback⟩ := decisionEnd_ok (hemit₁.returns.trans hret) hstop
  obtain ⟨hemit₃, hplaced⟩ := alternatives_ok hchildren hdecided
    (hemit₂.pattern.trans (hemit₁.pattern.trans hp)) hemit₂.returns hparts
  have hstart : s₂.position = s₁.position + 1 := by rw [hemit₂.position, hlength]
  have hdecisions := hdecided.length_resolveForks hplaced
  have hends := hplaced.length_resolveEnds s'.position
  have hposition : s'.position =
      s.position + (resolveForks forks parts ++ stop ++ resolveEnds s'.position parts).length := by
    rw [List.length_append, List.length_append]
    omega
  refine ⟨⟨?_, hposition, ?_, ?_⟩, fun program rest hholds σ hσ => ?_⟩
  · exact hemit₃.pattern.trans (hemit₂.pattern.trans hemit₁.pattern)
  · exact hemit₃.counter.trans (hemit₂.counter.trans hemit₁.counter)
  · exact hemit₃.returns.trans hemit₂.returns
  · rw [← hposition] at hσ ⊢
    rw [List.append_assoc, Code.holds_append, Code.holds_append, hdecisions, hlength, ← hstart]
      at hholds
    obtain ⟨hholds₁, hholds₂, hholds'⟩ := hholds
    have hcounter : s₂.counter = s.counter := hemit₂.counter.trans hemit₁.counter
    rw [hcounter] at hplaced
    rw [accepted_forks hdecided hplaced hholds₁ hholds' hσ, hback program rest σ hholds₂]

end Assembler
end ByteMatch
