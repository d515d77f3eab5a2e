import ByteMatch.Pattern.Program
import ByteMatch.Proofs.Instruction.Outcome
import ByteMatch.Proofs.Pattern.Assembly.Repetition

/-!
# ByteMatch.Proofs.Pattern.Assembly.Disjoint

A repetition of a single character that cannot be confused with what follows takes as many characters
as it can.

Such a repetition starts no threads. The tests that are enumerated branch to a common place, and a loop
takes over after the last of them, so both ways out have to lead to the end with the same characters left.

* `Code.comes_rounds`: the loop of the required characters. `Code.comes_remainder`: that of the optional ones.
* `Code.comes_tests`: the tests that are enumerated.
* `Assembler.Consumes`: whenever a step succeeds, its fragment consumes characters of a class.
* `Pattern.disjoint_runs_iff`: the outcome of a thread that enters the repetition.
-/

namespace ByteMatch

variable {α : Type} {cls : Int → α → Bool}

namespace Code

variable {program code : Code} {low high place counter head target n count : Nat} {op : UInt8}
  {root : Int} {σ : Int → Int}

/-! ## Loops -/

/-- Counting down, with at least one round to go. -/
theorem comes_countDown (hi : program[place]? = some (countDown counter place head)) (hlow : low ≤ place)
    (hhigh : place < high) (hcount : σ counter = n + 1) (w : List α) :
    Comes cls program low high ⟨place, w, σ⟩
      ⟨if n = 0 then place + 1 else head, w, Function.update σ counter (n : Int)⟩ := by
  refine .step hlow hhigh hi ?_
  rw [countDown, Thread.next_countDown (by decide), hcount, Int.add_sub_cancel]
  simp

theorem comes_setCount {value : Int} (hi : program[place]? = some (setCount counter value))
    (hlow : low ≤ place) (hhigh : place < high) (w : List α) (σ : Int → Int) :
    Comes cls program low high ⟨place, w, σ⟩ ⟨place + 1, w, Function.update σ counter value⟩ :=
  .step hlow hhigh hi (Thread.next_setCount (by decide))

theorem comes_branch (hop : Opcode.operation op = .character false true)
    (hi : program[place]? = some ⟨op, (target : Int) - (place + 1), root, false⟩) (hlow : low ≤ place)
    (hhigh : place < high) (w : List α) (σ : Int → Int) :
    Comes cls program low high ⟨place, w, σ⟩
      (if 0 < runLength cls root w then ⟨place + 1, w.drop 1, σ⟩ else ⟨target, w, σ⟩) := by
  refine .step hlow hhigh hi ?_
  rw [Thread.next_branch hop]
  split <;> rfl

/-- A loop with `n + 1` rounds to go. Each of them consumes a character of the class. -/
theorem comes_rounds (h : Consumes cls root 1 1 code head (counter + 1))
    (hcode : Holds program head code)
    (hback : program[head + code.length]? = some (countDown counter (head + code.length) head))
    (hlow : low ≤ head) (hhigh : head + code.length < high) (hcount : σ counter = n + 1) (w : List α) :
    (runLength cls root w < n + 1 → Runs cls program low high ⟨head, w, σ⟩ none) ∧
    (n + 1 ≤ runLength cls root w → ∃ σ', SameBelow counter σ σ' ∧
      Comes cls program low high ⟨head, w, σ⟩ ⟨head + code.length + 1, w.drop (n + 1), σ'⟩) := by
  -- one round, if there is a character for it
  have hround : ∀ {n : Nat} {σ : Int → Int} {w : List α}, σ counter = n + 1 →
      1 ≤ runLength cls root w → ∃ σ', SameBelow counter σ σ' ∧ σ' counter = n ∧
        Comes cls program low high ⟨head, w, σ⟩
          ⟨if n = 0 then head + code.length + 1 else head, w.drop 1, σ'⟩ := by
    intro n σ w hcount hone
    obtain ⟨σ₁, hσ₁, hcomes⟩ := (h program low high hcode hlow (Nat.le_of_lt hhigh) w σ).2 hone
    have hcount₁ : σ₁ counter = n + 1 := (hσ₁ counter (by omega)).trans hcount
    rw [Nat.min_eq_right hone] at hcomes
    exact ⟨_, (hσ₁.mono (Nat.le_succ _)).update, Function.update_self ..,
      hcomes.trans (comes_countDown hback (Nat.le_trans hlow (Nat.le_add_right _ _)) hhigh hcount₁ _)⟩
  have hends : ∀ {σ : Int → Int} {w : List α}, runLength cls root w < 1 →
      Runs cls program low high ⟨head, w, σ⟩ none :=
    fun hnone => (h program low high hcode hlow (Nat.le_of_lt hhigh) _ _).1 hnone
  induction n generalizing w σ with
  | zero =>
    refine ⟨hends, fun hone => ?_⟩
    obtain ⟨σ', hσ', -, hcomes⟩ := hround hcount hone
    exact ⟨σ', hσ', hcomes⟩
  | succ n ih =>
    by_cases hone : 1 ≤ runLength cls root w
    · obtain ⟨σ₁, hσ₁, hcount₁, hcomes⟩ := hround hcount hone
      rw [if_neg (Nat.succ_ne_zero n)] at hcomes
      obtain ⟨hfew, hmany⟩ := ih (hcount₁.trans (Int.natCast_succ n)) (w.drop 1)
      rw [runLength_drop hone] at hfew hmany
      constructor
      · intro hless
        exact hcomes _ (hfew (by omega))
      · intro hmore
        obtain ⟨σ₂, hσ₂, hrest⟩ := hmany (by omega)
        rw [List.drop_drop, Nat.add_comm 1] at hrest
        exact ⟨σ₂, hσ₁.trans hσ₂, hcomes.trans hrest⟩
    · exact ⟨fun _ => hends (by omega), fun hmore => by omega⟩

/-- A loop that counts its rounds consumes a character in each of them. -/
theorem Consumes.counted (h : Consumes cls root 1 1 code (place + 1) (counter + 1)) :
    Consumes cls root (n + 1) (n + 1)
      (setCount counter (n + 1) :: code ++
        [countDown counter (place + 1 + code.length) (place + 1)]) place counter := by
  intro program low high hholds hlow hhigh w σ
  obtain ⟨hset, hcode, hback⟩ := holds_counted.1 hholds
  rw [end_counted] at hhigh ⊢
  have hstart : Comes cls program low high _ _ := comes_setCount hset hlow (by omega) w σ
  obtain ⟨hfew, hmany⟩ := comes_rounds h hcode hback (Nat.le_succ_of_le hlow) hhigh
    (Function.update_self ..) w
  refine ⟨fun hless => hstart _ (hfew hless), fun hmore => ?_⟩
  obtain ⟨σ', hσ', hrounds⟩ := hmany hmore
  rw [Nat.min_eq_right hmore]
  exact ⟨σ', SameBelow.refl.update.trans hσ', hstart.trans hrounds⟩

/-- A loop that is left as soon as a character is not of the class. Either way a thread then comes to
the instruction after it. -/
theorem comes_remainder (hop : Opcode.operation op = .character false true)
    (htest : program[head]? = some ⟨op, 1, root, false⟩)
    (hback : program[head + 1]? = some (countDown counter (head + 1) head))
    (hlow : low ≤ head) (hhigh : head + 1 < high) (hcount : σ counter = n + 1) (w : List α) :
    ∃ σ', SameBelow counter σ σ' ∧ Comes cls program low high ⟨head, w, σ⟩
      ⟨head + 2, w.drop (min (runLength cls root w) (n + 1)), σ'⟩ := by
  rw [show (1 : Int) = ((head + 2 : Nat) : Int) - (head + 1) by omega] at htest
  induction n generalizing w σ with
  | zero =>
    have hfirst : Comes cls program low high _ _ :=
      comes_branch hop htest hlow (Nat.lt_of_succ_lt hhigh) w σ
    split at hfirst
    · rename_i hpos
      have hdown := hfirst.trans (comes_countDown hback (Nat.le_succ_of_le hlow) hhigh hcount _)
      rw [Nat.min_eq_right hpos]
      exact ⟨_, SameBelow.refl.update, hdown⟩
    · rename_i hnone
      rw [Nat.eq_zero_of_not_pos hnone, Nat.zero_min, List.drop_zero]
      exact ⟨σ, .refl, hfirst⟩
  | succ n ih =>
    have hfirst : Comes cls program low high _ _ :=
      comes_branch hop htest hlow (Nat.lt_of_succ_lt hhigh) w σ
    split at hfirst
    · rename_i hpos
      have hdown := hfirst.trans (comes_countDown hback (Nat.le_succ_of_le hlow) hhigh hcount _)
      rw [if_neg (Nat.succ_ne_zero n)] at hdown
      obtain ⟨σ', hσ', hrest⟩ := ih (Function.update_self ..) (w.drop 1)
      rw [runLength_drop hpos, List.drop_drop] at hrest
      rw [show min (runLength cls root w) (n + 1 + 1) = 1 + min (runLength cls root w - 1) (n + 1)
        by omega]
      exact ⟨σ', SameBelow.refl.update.trans hσ', hdown.trans hrest⟩
    · rename_i hnone
      rw [Nat.eq_zero_of_not_pos hnone, Nat.zero_min, List.drop_zero]
      exact ⟨σ, .refl, hfirst⟩

/-! ## Tests that are enumerated -/

/-- Tests for a class that branch, if they fail, to a common place. The first one branches over `distance`
instructions. -/
def branchTests (op : UInt8) (root distance : Int) : Nat → Code
  | 0 => []
  | count + 1 => ⟨op, distance, root, false⟩ :: branchTests op root (distance - 1) count

@[simp] theorem length_branchTests {distance : Int} :
    (branchTests op root distance count).length = count := by
  induction count generalizing distance with
  | zero => rfl
  | succ count ih => simp [branchTests, ih]

/-- A thread that passes all tests comes to the end of them, and one that does not to the common
place. -/
theorem comes_tests (hop : Opcode.operation op = .character false true)
    (hholds : Holds program place (branchTests op root ((target : Int) - (place + 1)) count))
    (hlow : low ≤ place) (hhigh : place + count ≤ high) (w : List α) (σ : Int → Int) :
    Comes cls program low high ⟨place, w, σ⟩
      (if count ≤ runLength cls root w then ⟨place + count, w.drop count, σ⟩
        else ⟨target, w.drop (runLength cls root w), σ⟩) := by
  induction count generalizing place w with
  | zero => simpa using Comes.refl
  | succ count ih =>
    rw [branchTests, holds_cons] at hholds
    obtain ⟨htest, hmore⟩ := hholds
    rw [show (target : Int) - (place + 1) - 1 = target - ((place + 1 : Nat) + 1) by omega] at hmore
    have hfirst : Comes cls program low high _ _ := comes_branch hop htest hlow (by omega) w σ
    by_cases hpos : 0 < runLength cls root w
    · rw [if_pos hpos] at hfirst
      have hboth := hfirst.trans (ih hmore (Nat.le_succ_of_le hlow) (by omega) (w.drop 1))
      rw [runLength_drop hpos, List.drop_drop, List.drop_drop] at hboth
      by_cases hall : count + 1 ≤ runLength cls root w
      · rw [if_pos (by omega), Nat.add_comm 1, Nat.add_assoc, Nat.add_comm 1] at hboth
        rwa [if_pos hall]
      · rw [if_neg (by omega), Nat.add_sub_cancel' hpos] at hboth
        rwa [if_neg hall]
    · rw [if_neg hpos] at hfirst
      rw [if_neg (by omega), Nat.eq_zero_of_not_pos hpos, List.drop_zero]
      exact hfirst

theorem Consumes.tests (hop : Opcode.operation op = .character false true) :
    Consumes cls root 0 count (branchTests op root ((count : Int) - 1) count) place counter := by
  intro program low high hholds hlow hhigh w σ
  refine ⟨fun h => absurd h (Nat.not_lt_zero _), fun _ => ⟨σ, .refl, ?_⟩⟩
  rw [length_branchTests] at hhigh ⊢
  rw [show (count : Int) - 1 = ((place + count : Nat) : Int) - (place + 1) by omega] at hholds
  have htests : Comes cls program low high _ _ := comes_tests hop hholds hlow hhigh w σ
  split at htests
  · rename_i hall
    rwa [Nat.min_eq_right hall]
  · rwa [Nat.min_eq_left (by omega)]

/-- Tests, and then a loop. The tests that fail branch to the instruction that resets the counter, and
so does a test in the loop. -/
theorem Consumes.testsThenLoop (hop : Opcode.operation op = .character false true) :
    Consumes cls root 0 (count + (n + 1))
      (branchTests op root ((count : Int) + 2) count ++
        [setCount counter (n + 1), ⟨op, 1, root, false⟩,
          countDown counter (place + count + 2) (place + count + 1), setCount counter 0])
      place counter := by
  intro program low high hholds hlow hhigh w σ
  refine ⟨fun h => absurd h (Nat.not_lt_zero _), fun _ => ?_⟩
  simp only [holds_append, holds_cons, length_branchTests] at hholds
  obtain ⟨htests, hset, htest, hback, hreset, -⟩ := hholds
  simp only [List.length_append, length_branchTests, List.length_cons, List.length_nil] at hhigh ⊢
  rw [show (count : Int) + 2 = ((place + count + 3 : Nat) : Int) - (place + 1) by omega] at htests
  have hfirst : Comes cls program low high _ _ := comes_tests hop htests hlow (by omega) w σ
  have hend : ∀ (v : List α) (σ' : Int → Int), Comes cls program low high ⟨place + count + 3, v, σ'⟩
      ⟨place + (count + (0 + 1 + 1 + 1 + 1)), v, Function.update σ' counter 0⟩ :=
    comes_setCount hreset (by omega) (by omega)
  split at hfirst
  · rename_i hall
    have hstart := hfirst.trans (comes_setCount hset (by omega) (by omega) _ σ)
    have hinside : low ≤ place + count + 1 ∧ place + count + 1 + 1 < high := by omega
    obtain ⟨σ', hσ', hloop⟩ := comes_remainder hop htest hback hinside.1 hinside.2
      (Function.update_self ..) (w.drop count)
    rw [runLength_drop hall, List.drop_drop] at hloop
    rw [show min (runLength cls root w) (count + (n + 1)) =
      count + min (runLength cls root w - count) (n + 1) by omega]
    exact ⟨_, (SameBelow.refl.update.trans hσ').update, (hstart.trans hloop).trans (hend _ _)⟩
  · rw [Nat.min_eq_left (by omega)]
    exact ⟨_, SameBelow.refl.update, hfirst.trans (hend _ _)⟩

end Code

/-! ## Assembling the tests -/

namespace Assembler

open Step

variable {settings : Settings} {s s' : Assembly} {code : Code} {x y : Assembler Code} {n m a b count : Nat}
  {op : UInt8} {t : Template} {root distance : Int}

/-- Whenever the step succeeds, its fragment has been counted, and a thread consumes at least `n` and at
most `m` characters of a class in it. -/
def Consumes (cls : Int → α → Bool) (root : Int) (n m : Nat) (x : Assembler Code) : Prop :=
  ∀ s code s', x s = .ok code s' → s'.position = s.position + code.length ∧ s'.counter = s.counter ∧
    Code.Consumes cls root n m code s.position s.counter

namespace Consumes

theorem nil : Consumes cls root 0 0 (pure []) := by
  intro s code s' h
  obtain ⟨rfl, rfl⟩ := pure_ok.1 h
  exact ⟨rfl, rfl, .nil⟩

theorem of_emit {args : List Int}
    (h : ∀ place counter, Code.Consumes cls root n m (t.fill args) place counter) :
    Consumes cls root n m (emit t args) := by
  intro s code s' hok
  obtain ⟨rfl, rfl⟩ := emit_ok hok
  exact ⟨rfl, rfl, h _ _⟩

theorem append (hx : Consumes cls root n n x) (hy : Consumes cls root a b y) :
    Consumes cls root (n + a) (n + b) (do
      let code ← x
      let more ← y
      pure (code ++ more)) := by
  intro s code s' hok
  obtain ⟨code, s₁, hok₁, hrest⟩ := bind_ok.1 hok
  obtain ⟨more, s₂, hok₂, hpure⟩ := bind_ok.1 hrest
  obtain ⟨rfl, rfl⟩ := pure_ok.1 hpure
  obtain ⟨hposition, hcounter, hcode⟩ := hx _ _ _ hok₁
  obtain ⟨hposition', hcounter', hmore⟩ := hy _ _ _ hok₂
  rw [hposition, hcounter] at hmore
  refine ⟨?_, hcounter'.trans hcounter, hcode.append hmore⟩
  rw [hposition', hposition, List.length_append, Nat.add_assoc]

end Consumes

theorem consumes_copies (h : Consumes cls root 1 1 (emit t [root])) :
    Consumes cls root n n (copies t root n) := by
  induction n with
  | zero => exact .nil
  | succ n ih =>
    rw [copies, Nat.add_comm n]
    exact h.append ih

theorem consumes_counted (h : Consumes cls root 1 1 x) :
    Consumes cls root (n + 1) (n + 1) (counted settings ((n + 1 : Nat) : Int) x) := by
  intro s code s' hok
  obtain ⟨body, s₁, hbody, rfl, rfl⟩ := counted_ok hok
  obtain ⟨hposition, hcounter, hconsumes⟩ := h _ _ _ hbody
  simp only at hposition hcounter hconsumes
  refine ⟨?_, ?_, ?_⟩
  · simp only [hposition, List.length_append, List.length_cons, List.length_nil]
    omega
  · simp only [hcounter]
    omega
  · rw [hposition]
    exact hconsumes.counted

theorem consumes_requiredCharacters (h : Consumes cls root 1 1 (emit t [root])) :
    Consumes cls root n n (requiredCharacters settings t root n) := by
  rw [requiredCharacters]
  split
  · exact consumes_copies h
  · rename_i hmany
    obtain ⟨n, rfl⟩ : ∃ m, n = m + 1 := ⟨n - 1, by rw [enumerationBound] at hmany; omega⟩
    exact consumes_counted h

theorem branches_ok (hfill : ∀ x, t.fill [x, root] = [⟨op, x, root, false⟩])
    (h : branches t root distance count s = .ok code s') :
    code = Code.branchTests op root distance count ∧ s' = { s with position := s.position + count } := by
  induction count generalizing distance s code with
  | zero =>
    obtain ⟨rfl, rfl⟩ := pure_ok.1 h
    exact ⟨rfl, rfl⟩
  | succ count ih =>
    obtain ⟨x, s₁, hx, hrest₁⟩ := bind_ok.1 h
    obtain ⟨rfl, rfl⟩ := operand_ok hx
    obtain ⟨test, s₂, htest, hrest₂⟩ := bind_ok.1 hrest₁
    obtain ⟨rfl, rfl⟩ := emit_ok htest
    obtain ⟨more, s₃, hmore, hpure⟩ := bind_ok.1 hrest₂
    obtain ⟨rfl, rfl⟩ := pure_ok.1 hpure
    rw [hfill] at hmore ⊢
    obtain ⟨rfl, rfl⟩ := ih hmore
    refine ⟨rfl, ?_⟩
    rw [List.length_singleton, Nat.add_assoc, Nat.add_comm 1]

/-- The optional characters: all of them are enumerated, or a loop takes over. -/
theorem consumes_disjoint (hfill : ∀ x, t.fill [x, root] = [⟨op, x, root, false⟩])
    (hop : Opcode.operation op = .character false true) {count : Int} :
    Consumes cls root 0 count.toNat (disjoint settings t root count) := by
  intro s code s' hok
  unfold disjoint at hok
  split at hok
  · rcases Int.lt_or_le 0 count with hsome | hnone
    · obtain ⟨n, rfl⟩ : ∃ n : Nat, count = n := ⟨count.toNat, by omega⟩
      obtain ⟨rfl, rfl⟩ := branches_ok hfill hok
      exact ⟨by simp, rfl, .tests hop⟩
    · rw [Int.toNat_of_nonpos hnone] at hok ⊢
      exact Consumes.nil s code s' hok
  · rename_i hmany
    obtain ⟨n, rfl⟩ : ∃ n : Nat, count = (enumerationBound + (n + 1) : Nat) :=
      ⟨(count - enumerationBound - 1).toNat, by omega⟩
    obtain ⟨tests, more, s₁, htests, hmore, rfl⟩ := inSequence_cons_ok hok
    obtain ⟨loop, more', s₂, hloop, hnil, rfl⟩ := inSequence_cons_ok hmore
    obtain ⟨rfl, rfl⟩ := pure_ok.1 hnil
    obtain ⟨rfl, rfl⟩ := branches_ok hfill htests
    obtain ⟨rfl, rfl⟩ := disjointLoop_ok hloop
    have hcount : ((enumerationBound + (n + 1) : Nat) : Int) - enumerationBound = n + 1 := by omega
    rw [hfill, hcount]
    refine ⟨?_, rfl, ?_⟩
    · simp
      omega
    · exact Code.Consumes.testsThenLoop hop

theorem consumes_loopGuard {n : Node} : Consumes cls root 0 0 (loopGuard n) := by
  rw [loopGuard]
  split
  · cases n.guard with
    | none => exact fun _ _ _ hok => (throw_ok.1 hok).elim
    | some guard =>
      intro s code s' hok
      obtain ⟨x, s₁, hx, hemit⟩ := bind_ok.1 hok
      obtain ⟨rfl, rfl⟩ := operand_ok hx
      obtain ⟨rfl, rfl⟩ := emit_ok hemit
      exact ⟨rfl, rfl, .jump (by decide)⟩
  · exact .nil

/-- A repetition of a single character takes at least `min` characters, and then all that it can. -/
theorem consumes_characterRepetition {n : Node} {min : Nat} {max : Option Nat}
    (hdisjoint : n.attributes.disjoint = true) :
    Consumes cls root min (mostIterations min max) (characterRepetition settings n root min max) := by
  have hchar : Consumes cls root 1 1
      (emit (if n.attributes.controlling then Template.charAnchor else Template.char) [root]) := by
    split
    · exact .of_emit fun _ _ => .single (by decide)
    · exact .of_emit fun _ _ => .single (by decide)
  have hmore : Consumes cls root 0 (optionalCount min max).toNat (disjoint settings
      (if n.attributes.controlling then Template.charAnchorBranch else Template.charBranchTo) root
      (optionalCount min max)) := by
    split
    · exact consumes_disjoint (fun _ => rfl) (by decide)
    · exact consumes_disjoint (fun _ => rfl) (by decide)
  have hfirst : Consumes cls root min min (requiredCharacters settings
      (if n.attributes.controlling then Template.charAnchor else Template.char) root min) :=
    consumes_requiredCharacters hchar
  have hall := ((consumes_loopGuard (n := n)).append hfirst).append hmore
  rw [characterRepetition, hdisjoint, mostIterations_eq]
  simpa only [if_true, Nat.zero_add, Nat.add_zero, bind_assoc, pure_bind] using hall

/-- A repetition of a character that cannot be confused with what follows. -/
theorem consumes_repetition {i child min : Nat} {max : Option Nat} {part : Assembler Code}
    {children : List (Nat × Assembler Code)} {root : Nat} {code : Code}
    (hdisjoint : (s.pattern.node i).attributes.disjoint = true)
    (hclass : (s.pattern.node child).kind = .charClass root)
    (h : repetition settings i min max ((child, part) :: children) s = .ok code s') :
    Code.Consumes cls root min (mostIterations min max) code s.position s.counter := by
  obtain ⟨n, s₁, hnode, hrest₁⟩ := bind_ok.1 h
  obtain ⟨rfl, rfl⟩ := node_ok.1 hnode
  obtain ⟨c, s₂, hchild, hrest₂⟩ := bind_ok.1 hrest₁
  obtain ⟨rfl, rfl⟩ := node_ok.1 hchild
  simp only [hclass, Kind.class?] at hrest₂
  obtain ⟨x, s₃, hx, hrest₃⟩ := bind_ok.1 hrest₂
  obtain ⟨rfl, rfl⟩ := operand_ok hx
  obtain ⟨code', s₄, hrepetition, hrest₄⟩ := bind_ok.1 hrest₃
  obtain ⟨_, s₅, -, hpure⟩ := bind_ok.1 hrest₄
  obtain ⟨rfl, rfl⟩ := pure_ok.1 hpure
  exact (consumes_characterRepetition hdisjoint _ _ _ hrepetition).2.2

end Assembler

/-! ## The outcome of a repetition -/

namespace Pattern

open Assembler Step

variable {p : Pattern} {settings : Settings} {s s' : Assembly} {code program : Code} {i child min : Nat}
  {max : Option Nat} {rest : List Nat}

theorem place_outlineTo {n : Nat} : (p.outlineTo n i).place = i := by
  cases n <;> rfl

/-- Only nodes of the pattern have a kind of their own. -/
theorem outline_of_repetition (h : (p.node i).kind = .repetition min max) :
    ∃ n, p.outline i = .node i ((p.node i).children.map (p.outlineTo n)) := by
  rw [outline]
  cases hsize : p.nodes.size with
  | zero =>
    rw [node, Array.getD, dif_neg (by omega)] at h
    cases h
  | succ n => exact ⟨n, rfl⟩

/-- A thread that enters a repetition of a character that cannot be confused with what follows has a
single outcome. It ends if there are too few characters of the class. Otherwise it leaves the repetition
at its end, and has consumed as many of them as the repetition allows and as there are. Counters that were
in use before are as they were. -/
theorem disjoint_runs_iff {root : Nat} (hkind : (s.pattern.node i).kind = .repetition min max)
    (hdisjoint : (s.pattern.node i).attributes.disjoint = true)
    (hchildren : (s.pattern.node i).children = child :: rest)
    (hclass : (s.pattern.node child).kind = .charClass root)
    (h : (s.pattern.outline i).assemble settings s = .ok code s')
    (hholds : Code.Holds program s.position code) (w : List α) (σ : Int → Int) :
    ∃ σ', SameBelow s.counter σ σ' ∧ ∀ outcome,
      Code.Runs cls program s.position (s.position + code.length) ⟨s.position, w, σ⟩ outcome ↔
        outcome =
          if runLength cls root w < min then none
          else some ⟨s.position + code.length,
            w.drop (Nat.min (runLength cls root w) (mostIterations min max)), σ'⟩ := by
  obtain ⟨n, houtline⟩ := outline_of_repetition hkind
  rw [houtline, hchildren, List.map_cons, Outline.assemble, Outline.assembleList, place_outlineTo] at h
  obtain ⟨m, s₁, hnode, hrest⟩ := bind_ok.1 h
  obtain ⟨rfl, rfl⟩ := node_ok.1 hnode
  simp only [hkind] at hrest
  have hconsumes : Code.Consumes cls root min (mostIterations min max) code s.position s.counter :=
    consumes_repetition hdisjoint hclass hrest
  obtain ⟨hfew, hmany⟩ := hconsumes program s.position (s.position + code.length) hholds (Nat.le_refl _)
    (Nat.le_refl _) w σ
  by_cases hless : runLength cls root w < min
  · refine ⟨σ, .refl, fun outcome => ?_⟩
    rw [if_pos hless]
    constructor
    · exact fun hruns => hruns.unique (hfew hless)
    · rintro rfl
      exact hfew hless
  · obtain ⟨σ', hσ', hcomes⟩ := hmany (Nat.le_of_not_lt hless)
    refine ⟨σ', hσ', fun outcome => ?_⟩
    rw [if_neg hless]
    have hleaves := hcomes _ (.leave (.inr (Nat.le_refl _)))
    constructor
    · exact fun hruns => hruns.unique hleaves
    · rintro rfl
      exact hleaves

/-- A repetition with a guard, at least once and at most 70 times. -/
def guardedRun : Pattern where
  nodes := #[
    { kind := .repetition 1 (some 70), attributes := { disjoint := true, controlling := true },
      children := [1], guard := some 3 },
    { kind := .charClass 5 }]

open Opcode in
/-- The fragment of `guardedRun` at place 10: the guard, the first character, 64 tests, and a loop for the
last five characters. -/
def guardedRunCode : Code :=
  [⟨test ||| guard, 3, 1, true⟩, ⟨character ||| setGuard, 0, 5, false⟩] ++
    Code.branchTests (character ||| branch ||| setGuard) 5 66 64 ++
    [ Code.setCount 2 5, ⟨character ||| branch ||| setGuard, 1, 5, false⟩, Code.countDown 2 78 77,
      Code.setCount 2 0 ]

set_option maxRecDepth 4000 in
/-- Before 68 characters of the class and another one, they are all consumed, four of them in the
loop. -/
theorem disjoint_runs_iff_guardedRun :
    ∃ s', (guardedRun.outline 0).assemble ⟨{}, none⟩ ⟨guardedRun, 10, 2, 1, []⟩ =
      .ok guardedRunCode s' ∧
    ∃ σ' : Int → Int, SameBelow 2 (fun _ => 0) σ' ∧ ∀ outcome,
      Code.Runs (fun _ c => c == 'a') (List.replicate 10 default ++ guardedRunCode) 10 80
        ⟨10, List.replicate 68 'a' ++ ['b'], fun _ => 0⟩ outcome ↔ outcome = some ⟨80, ['b'], σ'⟩ := by
  have hassemble : (guardedRun.outline 0).assemble ⟨{}, none⟩ ⟨guardedRun, 10, 2, 1, []⟩ =
      .ok guardedRunCode ⟨guardedRun.updateAttributes 0 ({ · with controlling := false }), 80, 2, 1, []⟩ := by
    decide +kernel
  have hprogram : Code.Holds (List.replicate 10 default ++ guardedRunCode) 0
      (List.replicate 10 default ++ guardedRunCode) := fun k i hk => by rwa [Nat.zero_add]
  have hholds : Code.Holds (List.replicate 10 default ++ guardedRunCode) 10 guardedRunCode :=
    (Code.holds_append.1 hprogram).2
  exact ⟨_, hassemble, disjoint_runs_iff (s := ⟨guardedRun, 10, 2, 1, []⟩) rfl rfl rfl rfl hassemble hholds
    (List.replicate 68 'a' ++ ['b']) (fun _ => 0)⟩

end Pattern
end ByteMatch
