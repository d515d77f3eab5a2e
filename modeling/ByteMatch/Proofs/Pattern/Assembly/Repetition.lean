import ByteMatch.Pattern.Assembly.Repetition
import ByteMatch.Proofs.Pattern.Assembly

/-!
# ByteMatch.Proofs.Pattern.Assembly.Repetition

A repetition reads what its child reads, several times.

* `Code.accepted_head`: a loop does the same in each round until its counter is zero.
* `Code.Reads.counted`, `Code.Reads.skippable`, `Code.Reads.optional`: the shapes of loops.
* `Assembler.emits_required`, `Assembler.emits_optional`: the required iterations and the optional ones.
* `Assembler.emits_repetition`: the fragment of a repetition.
-/

namespace ByteMatch

variable {α : Type} {cls : Int → α → Bool}

/-! ## Loops -/

namespace Code

variable {program code : Code} {place counter : Nat} {rest : List α} {σ : Int → Int}
  {L X : Language α} {F : Language α → Language α} {head back n : Nat}

/-- Sets a counter. -/
def setCount (counter : Nat) (count : Int) : Instruction := ⟨Opcode.setCount, counter, count, false⟩

/-- Counts down at `place`, and goes back to `head` while the counter is not zero. -/
def countDown (counter place head : Nat) : Instruction :=
  ⟨Opcode.test ||| Opcode.negate ||| Opcode.count, counter, (head : Int) - place, false⟩

/-- A loop that counts down. From `head` to its end it does what `F` says, and `X` is accepted after
it. -/
theorem accepted_head (hback : program[back]? = some (countDown counter back head))
    (hexit : ∀ σ', SameBelow counter σ σ' → accepted cls program rest (back + 1) σ' = X)
    (hhead : ∀ σ', SameBelow counter σ σ' →
      Acceptor.Settled (accepted cls program rest) (counter + 1) back σ' →
      accepted cls program rest head σ' = F (accepted cls program rest back σ'))
    {σ' : Int → Int} (hcount : σ' counter = n + 1) (hσ : SameBelow counter σ σ') :
    accepted cls program rest head σ' = F^[n + 1] X := by
  induction n generalizing σ' with
  | zero =>
    have hend : ∀ σ'', σ'' counter = 1 → SameBelow counter σ σ'' →
        accepted cls program rest back σ'' = X := by
      intro σ'' hone hσ''
      rw [accepted_countDown hback (by decide), hone, if_pos (by decide)]
      exact hexit _ hσ''.update
    have hone : σ' counter = 1 := by simpa using hcount
    rw [hhead σ' hσ, hend σ' hone hσ, Function.iterate_one]
    intro σ'' hσ''
    rw [hend σ'' ((hσ'' counter (by omega)).trans hone) (hσ.trans (hσ''.mono (Nat.le_succ _))),
      hend σ' hone hσ]
  | succ n ih =>
    have hend : ∀ σ'', σ'' counter = ((n + 1 : Nat) : Int) + 1 → SameBelow counter σ σ'' →
        accepted cls program rest back σ'' = F^[n + 1] X := by
      intro σ'' hcount'' hσ''
      rw [accepted_countDown hback (by decide), hcount'', if_neg (by omega)]
      exact ih (by rw [Function.update_self]; omega) hσ''.update
    rw [hhead σ' hσ, hend σ' hcount hσ, Function.iterate_succ_apply' F (n + 1)]
    intro σ'' hσ''
    rw [hend σ'' ((hσ'' counter (by omega)).trans hcount) (hσ.trans (hσ''.mono (Nat.le_succ _))),
      hend σ' hcount hσ]

theorem iterate_mul : (L * ·)^[n] X = L ^ n * X := by
  induction n with
  | zero => rw [Function.iterate_zero_apply, pow_zero, one_mul]
  | succ n ih => rw [Function.iterate_succ_apply', ih, pow_succ', mul_assoc]

theorem iterate_add_mul : (fun Y => X + L * Y)^[n] X = repeated L 0 n * X := by
  induction n with
  | zero => rw [Function.iterate_zero_apply, repeated_zero, one_mul]
  | succ n ih =>
    rw [Function.iterate_succ_apply', ih, repeated_succ, add_mul, one_mul, mul_assoc]

/-- A loop has its body between setting the counter and counting down. -/
theorem holds_counted {count : Int} : Holds program place
    (setCount counter count :: code ++ [countDown counter back head]) ↔
      program[place]? = some (setCount counter count) ∧ Holds program (place + 1) code ∧
        program[place + 1 + code.length]? = some (countDown counter back head) := by
  rw [List.cons_append, holds_cons, holds_append, holds_cons]
  simp

theorem end_counted {count : Int} :
    place + (setCount counter count :: code ++ [countDown counter back head]).length =
      place + 1 + code.length + 1 := by
  simp only [List.cons_append, List.length_cons, List.length_append, List.length_nil]
  omega

theorem Reads.counted (h : Reads cls L code (place + 1) (counter + 1)) :
    Reads cls (L ^ (n + 1))
      (setCount counter (n + 1) :: code ++
        [countDown counter (place + 1 + code.length) (place + 1)]) place counter := by
  intro program rest hholds σ hσ
  obtain ⟨hset, hcode, hback⟩ := holds_counted.1 hholds
  rw [end_counted] at hσ ⊢
  rw [accepted_setCount hset (by decide), ← iterate_mul]
  exact accepted_head hback hσ (fun σ' _ hsettled => h program rest hcode σ' hsettled)
    (Function.update_self _ _ _) SameBelow.refl.update

/-- A fragment that a thread may skip. -/
theorem Reads.skippable (h : Reads cls L code (place + 1) counter) :
    Reads cls (1 + L) (forkTo place (place + 1 + code.length) false :: code) place counter := by
  intro program rest hholds σ hσ
  obtain ⟨hfork, hcode⟩ := holds_cons.1 hholds
  have hlength : place + (forkTo place (place + 1 + code.length) false :: code).length =
      place + 1 + code.length := by
    rw [List.length_cons]
    omega
  rw [hlength] at hσ ⊢
  rw [accepted_fork hfork (by decide), h program rest hcode σ hσ, add_mul, one_mul]

/-- A fragment that is repeated, and that a thread may leave before each iteration. -/
theorem Reads.optional (h : Reads cls L code (place + 2) (counter + 1)) :
    Reads cls (repeated L 0 (n + 1))
      (setCount counter (n + 1) ::
        forkTo (place + 1) (place + 2 + code.length + 1) false :: code ++
        [countDown counter (place + 2 + code.length) (place + 1), setCount counter 0])
      place counter := by
  intro program rest hholds σ hσ
  simp only [List.cons_append, holds_cons, holds_append] at hholds
  obtain ⟨hset, hfork, hcode, hback, hreset, -⟩ := hholds
  have hlength : place + (setCount counter (n + 1) ::
      forkTo (place + 1) (place + 2 + code.length + 1) false :: code ++
      [countDown counter (place + 2 + code.length) (place + 1), setCount counter 0]).length =
      place + 2 + code.length + 1 + 1 := by
    simp only [List.cons_append, List.length_cons, List.length_append, List.length_nil]
    omega
  rw [hlength] at hσ ⊢
  -- the counter is reset when the loop is left, whichever way
  have hexit : ∀ σ', SameBelow counter σ σ' →
      accepted cls program rest (place + 2 + code.length + 1) σ' =
        accepted cls program rest (place + 2 + code.length + 1 + 1) σ := by
    intro σ' hσ'
    rw [accepted_setCount hreset (by decide)]
    exact hσ _ hσ'.update
  rw [accepted_setCount hset (by decide), ← iterate_add_mul]
  refine accepted_head hback hexit (fun σ' hσ' hsettled => ?_) (Function.update_self _ _ _)
    SameBelow.refl.update
  rw [accepted_fork hfork (by decide), hexit σ' hσ', h program rest hcode σ' hsettled]

end Code

/-! ## Assembling loops -/

namespace Assembler

open Step

variable {p : Pattern} {settings : Settings} {s s' : Assembly} {L : Language α}
  {part : Assembler Code} {counter head n : Nat} {count : Int} {code : Code}

theorem takeCounter_ok (h : takeCounter settings s = .ok counter s') :
    counter = s.counter ∧ s' = { s with counter := s.counter + 1 } := by
  rw [takeCounter] at h
  obtain ⟨t, s₁, hget, hrest⟩ := bind_ok.1 h
  obtain ⟨rfl, rfl⟩ := get_ok.1 hget
  simp only at hrest
  split at hrest
  · obtain ⟨_, _, hthrow, -⟩ := bind_ok.1 hrest
    exact (throw_ok.1 hthrow).elim
  · obtain ⟨_, _, hmodify, hpure⟩ := bind_ok.1 hrest
    obtain ⟨hcounter, hs'⟩ := pure_ok.1 hpure
    exact ⟨hcounter.symm, by rw [← hs', ← modify_ok.1 hmodify]⟩

/-- The counter that is taken for a part is given back. -/
theorem withCounter_ok {f : Nat → Assembler Code} (h : withCounter settings f s = .ok code s') :
    ∃ s₁, f s.counter { s with counter := s.counter + 1 } = .ok code s₁ ∧
      s' = { s₁ with counter := s₁.counter - 1 } := by
  obtain ⟨counter, s₁, htake, hrest⟩ := bind_ok.1 h
  obtain ⟨rfl, rfl⟩ := takeCounter_ok htake
  obtain ⟨code', s₂, hcode, hrest'⟩ := bind_ok.1 hrest
  obtain ⟨_, s₃, hrelease, hpure⟩ := bind_ok.1 hrest'
  obtain ⟨rfl, rfl⟩ := pure_ok.1 hpure
  exact ⟨s₂, hcode, (modify_ok.1 hrelease).symm⟩

theorem setCounter_ok (h : setCounter counter count s = .ok code s') :
    code = [Code.setCount counter count] ∧ s' = { s with position := s.position + 1 } := by
  obtain ⟨x, s₁, hx, hemit⟩ := bind_ok.1 h
  obtain ⟨rfl, rfl⟩ := operand_ok hx
  obtain ⟨rfl, rfl⟩ := emit_ok hemit
  exact ⟨rfl, rfl⟩

theorem loopTo_ok (h : loopTo counter head s = .ok code s') :
    code = [Code.countDown counter s.position head] ∧
      s' = { s with position := s.position + 1 } := by
  obtain ⟨x, s₁, hx, hemit⟩ := bind_ok.1 h
  obtain ⟨rfl, rfl⟩ := position_ok.1 hx
  obtain ⟨rfl, rfl⟩ := emit_ok hemit
  exact ⟨rfl, rfl⟩

/-- A loop has its part between setting the counter and counting down. -/
theorem counted_ok (h : counted settings count part s = .ok code s') : ∃ body s₁,
    part { s with counter := s.counter + 1, position := s.position + 1 } = .ok body s₁ ∧
      code = Code.setCount s.counter count :: body ++
        [Code.countDown s.counter s₁.position (s.position + 1)] ∧
      s' = { s₁ with counter := s₁.counter - 1, position := s₁.position + 1 } := by
  obtain ⟨s₁, hloop, rfl⟩ := withCounter_ok h
  obtain ⟨set, s₂, hset, hrest⟩ := bind_ok.1 hloop
  obtain ⟨rfl, rfl⟩ := setCounter_ok hset
  obtain ⟨head, s₃, hhead, hrest'⟩ := bind_ok.1 hrest
  obtain ⟨rfl, rfl⟩ := position_ok.1 hhead
  obtain ⟨body, s₄, hbody, hrest''⟩ := bind_ok.1 hrest'
  obtain ⟨back, s₅, hback, hpure⟩ := bind_ok.1 hrest''
  obtain ⟨rfl, rfl⟩ := pure_ok.1 hpure
  obtain ⟨rfl, rfl⟩ := loopTo_ok hback
  exact ⟨body, s₄, hbody, rfl, rfl⟩

theorem emits_counted (h : Emits cls p L part) :
    Emits cls p (L ^ (n + 1)) (counted settings (n + 1) part) := by
  intro s code s' hp hret hok
  obtain ⟨body, s₁, hbody, rfl, rfl⟩ := counted_ok hok
  obtain ⟨hemit, hreads⟩ := h { s with counter := s.counter + 1, position := s.position + 1 } _ _
    hp hret hbody
  have hposition := hemit.position
  have hcounter := hemit.counter
  simp only at hposition hcounter
  refine ⟨⟨hemit.pattern, ?_, ?_, hemit.returns⟩, ?_⟩
  · simp only [hposition, List.length_append, List.length_cons, List.length_nil]
    omega
  · simp only [hcounter]
    omega
  · rw [hposition]
    exact hreads.counted

/-- The test before a fork that a thread skips. -/
def forkTest : Option Nat → Code
  | some root => [⟨Opcode.character ||| Opcode.zeroWidth ||| Opcode.branch, 1, root, false⟩]
  | none => []

theorem fork_ok {preview : Option Nat} (h : fork preview s = .ok code s') :
    code = forkTest preview ++ [⟨Opcode.null, 0, 0, false⟩] ∧
      s' = { s with position := s.position + (forkTest preview).length + 1 } := by
  cases preview with
  | none =>
    rw [fork] at h
    obtain ⟨rfl, rfl⟩ := emit_ok h
    exact ⟨rfl, rfl⟩
  | some root =>
    obtain ⟨x, s₁, hx, hemit⟩ := bind_ok.1 h
    obtain ⟨rfl, rfl⟩ := operand_ok hx
    obtain ⟨rfl, rfl⟩ := emit_ok hemit
    exact ⟨rfl, rfl⟩

/-- A part that a thread may skip stands after a fork to its end. -/
theorem skippable_ok {preview : Option Nat} (h : skippable preview part s = .ok code s') : ∃ body,
    part { s with position := s.position + (forkTest preview).length + 1 } = .ok body s' ∧
      code = forkTest preview ++
        Code.forkTo (s.position + (forkTest preview).length) s'.position false :: body := by
  obtain ⟨entry, s₁, hentry, hrest⟩ := bind_ok.1 h
  obtain ⟨rfl, rfl⟩ := fork_ok hentry
  obtain ⟨start, s₂, hstart, hrest'⟩ := bind_ok.1 hrest
  obtain ⟨rfl, rfl⟩ := position_ok.1 hstart
  obtain ⟨body, s₃, hbody, hrest''⟩ := bind_ok.1 hrest'
  obtain ⟨finish, s₄, hfinish, hpure⟩ := bind_ok.1 hrest''
  obtain ⟨rfl, rfl⟩ := position_ok.1 hfinish
  obtain ⟨rfl, rfl⟩ := pure_ok.1 hpure
  refine ⟨body, hbody, ?_⟩
  rw [Code.resolveLast, List.dropLast_concat, Nat.add_sub_cancel, List.append_assoc]
  rfl

theorem emits_skippable (h : Emits cls p L part) :
    Emits cls p (1 + L) (skippable none part) := by
  intro s code s' hp hret hok
  obtain ⟨body, hbody, rfl⟩ := skippable_ok hok
  obtain ⟨hemit, hreads⟩ := h { s with position := s.position + 1 } _ _ hp hret hbody
  have hposition := hemit.position
  simp only at hposition
  refine ⟨⟨hemit.pattern, ?_, hemit.counter, hemit.returns⟩, ?_⟩
  · rw [hposition, forkTest, List.nil_append, List.length_cons]
    omega
  · rw [hposition]
    exact hreads.skippable

/-- One round of a loop is the part with a thread of its own after it, and then counting down. -/
theorem round_steps
    (h : inSequence [part, emit Template.yieldThread [], loopTo counter head] s = .ok code s') :
    ∃ body s₁, inSequence [part, emit Template.yieldThread []] s = .ok body s₁ ∧
      code = body ++ [Code.countDown counter s₁.position head] ∧
      s' = { s₁ with position := s₁.position + 1 } := by
  obtain ⟨body, more, s₁, hpart, hmore, rfl⟩ := inSequence_cons_ok h
  obtain ⟨yield, more', s₂, hyield, hmore', rfl⟩ := inSequence_cons_ok hmore
  obtain ⟨down, more'', s₃, hdown, hnil, rfl⟩ := inSequence_cons_ok hmore'
  obtain ⟨rfl, rfl⟩ := pure_ok.1 hnil
  obtain ⟨rfl, rfl⟩ := loopTo_ok hdown
  refine ⟨body ++ yield, s₂, ?_, by simp, rfl⟩
  refine bind_ok.2 ⟨body, s₁, hpart, bind_ok.2 ⟨yield, s₂, ?_, pure_ok.2 ⟨rfl, rfl⟩⟩⟩
  exact bind_ok.2 ⟨yield, s₂, hyield, bind_ok.2 ⟨[], s₂, pure_ok.2 ⟨rfl, rfl⟩, pure_ok.2 ⟨by simp, rfl⟩⟩⟩

theorem emits_yielding (h : Emits cls p L part) :
    Emits cls p L (inSequence [part, emit Template.yieldThread []]) := by
  have hyield : Emits cls p (1 : Language α) (emit Template.yieldThread []) := emits_yield
  have hboth := Emits.inSequence (.cons h (.cons hyield .nil))
  rwa [List.prod_cons, List.prod_singleton, mul_one] at hboth

/-- The rounds of a loop that a thread may leave stand between two instructions that set the counter. -/
theorem optionalLoop_ok {preview : Option Nat} (h : (withCounter settings fun counter => do
      let set ← setCounter counter count
      let head ← position
      let code ← skippable preview
        (inSequence [part, emit Template.yieldThread [], loopTo counter head])
      let reset ← setCounter counter 0
      pure (set ++ code ++ reset)) s = .ok code s') : ∃ rounds s₁,
    skippable preview
        (inSequence [part, emit Template.yieldThread [], loopTo s.counter (s.position + 1)])
        { s with counter := s.counter + 1, position := s.position + 1 } = .ok rounds s₁ ∧
      code = Code.setCount s.counter count :: rounds ++ [Code.setCount s.counter 0] ∧
      s' = { s₁ with counter := s₁.counter - 1, position := s₁.position + 1 } := by
  obtain ⟨s₁, hloop, rfl⟩ := withCounter_ok h
  obtain ⟨set, s₂, hset, hrest⟩ := bind_ok.1 hloop
  obtain ⟨rfl, rfl⟩ := setCounter_ok hset
  obtain ⟨head, s₃, hhead, hrest'⟩ := bind_ok.1 hrest
  obtain ⟨rfl, rfl⟩ := position_ok.1 hhead
  obtain ⟨rounds, s₄, hrounds, hrest''⟩ := bind_ok.1 hrest'
  obtain ⟨reset, s₅, hreset, hpure⟩ := bind_ok.1 hrest''
  obtain ⟨rfl, rfl⟩ := pure_ok.1 hpure
  obtain ⟨rfl, rfl⟩ := setCounter_ok hreset
  exact ⟨rounds, s₄, hrounds, rfl, rfl⟩

/-- A loop of single characters has their test between setting the counter and counting down, and the counter
is reset after it. -/
theorem disjointLoop_ok {t : Template} {root : Int} (h : (withCounter settings fun counter => do
      let set ← setCounter counter count
      let head ← position
      let code ← emit t [1, root]
      let back ← loopTo counter head
      let reset ← setCounter counter 0
      pure (set ++ code ++ back ++ reset)) s = .ok code s') :
    code = [Code.setCount s.counter count] ++ t.fill [1, root] ++
        [Code.countDown s.counter (s.position + 1 + (t.fill [1, root]).length) (s.position + 1)] ++
        [Code.setCount s.counter 0] ∧
      s' = { s with position := s.position + 1 + (t.fill [1, root]).length + 1 + 1 } := by
  obtain ⟨s₁, hcode, rfl⟩ := withCounter_ok h
  obtain ⟨set, s₂, hset, hrest₁⟩ := bind_ok.1 hcode
  obtain ⟨rfl, rfl⟩ := setCounter_ok hset
  obtain ⟨head, s₃, hhead, hrest₂⟩ := bind_ok.1 hrest₁
  obtain ⟨rfl, rfl⟩ := position_ok.1 hhead
  obtain ⟨test, s₄, htest, hrest₃⟩ := bind_ok.1 hrest₂
  obtain ⟨rfl, rfl⟩ := emit_ok htest
  obtain ⟨back, s₅, hback, hrest₄⟩ := bind_ok.1 hrest₃
  obtain ⟨rfl, rfl⟩ := loopTo_ok hback
  obtain ⟨reset, s₆, hreset, hpure⟩ := bind_ok.1 hrest₄
  obtain ⟨rfl, rfl⟩ := pure_ok.1 hpure
  obtain ⟨rfl, rfl⟩ := setCounter_ok hreset
  exact ⟨rfl, rfl⟩

theorem emits_optionalLoop (h : Emits cls p L part) :
    Emits cls p (repeated L 0 (n + 1)) (withCounter settings fun counter => do
      let set ← setCounter counter (n + 1)
      let head ← position
      let code ← skippable none
        (inSequence [part, emit Template.yieldThread [], loopTo counter head])
      let reset ← setCounter counter 0
      pure (set ++ code ++ reset)) := by
  intro s code s' hp hret hok
  obtain ⟨rounds, s₁, hrounds, rfl, rfl⟩ := optionalLoop_ok hok
  obtain ⟨code, hcode, rfl⟩ := skippable_ok hrounds
  obtain ⟨body, s₂, hbody, rfl, rfl⟩ := round_steps hcode
  obtain ⟨hemit, hreads⟩ := emits_yielding h
    { s with counter := s.counter + 1, position := s.position + 2 } _ _ hp hret hbody
  have hposition := hemit.position
  have hcounter := hemit.counter
  simp only at hposition hcounter hreads
  refine ⟨⟨hemit.pattern, ?_, ?_, hemit.returns⟩, ?_⟩
  · simp only [hposition, forkTest, List.length_append, List.length_cons, List.length_nil]
    omega
  · simp only [hcounter]
    omega
  · have hloop := hreads.optional (n := n)
    simp only [hposition, List.cons_append, List.append_assoc, List.nil_append] at hloop ⊢
    exact hloop

theorem emits_optional (h : Emits cls p L part) :
    Emits cls p (repeated L 0 count.toNat) (optional settings none part count) := by
  rw [optional]
  split
  · rename_i hone
    rw [hone, show (1 : Int).toNat = 0 + 1 from rfl, repeated_succ, repeated_zero, mul_one]
    exact emits_skippable h
  · split
    · obtain ⟨n, rfl⟩ : ∃ n : Nat, count = n + 1 := ⟨(count - 1).toNat, by omega⟩
      exact emits_optionalLoop h
    · rw [show count.toNat = 0 by omega, repeated_zero]
      exact .nil

/-! ## Required iterations -/

theorem emits_copies {t : Template} {root : Int} (h : Emits cls p L (emit t [root])) :
    Emits cls p (L ^ n) (copies t root n) := by
  induction n with
  | zero =>
    rw [pow_zero]
    exact .nil
  | succ n ih =>
    rw [pow_succ', copies]
    exact h.append ih

theorem emits_requiredCharacters {t : Template} {root : Int} (h : Emits cls p L (emit t [root])) :
    Emits cls p (L ^ n) (requiredCharacters settings t root n) := by
  rw [requiredCharacters]
  split
  · exact emits_copies h
  · rename_i hmany
    obtain ⟨n, rfl⟩ : ∃ m, n = m + 1 := ⟨n - 1, by rw [enumerationBound] at hmany; omega⟩
    exact emits_counted h

theorem emits_required {child : Nat} (h : Emits cls p L part) :
    Emits cls p (L ^ n) (required settings child part n) := by
  have hlooped : ∀ m : Nat, Emits cls p (L ^ (m + 1))
      (counted settings ((m + 1 : Nat) : Int) (inSequence [part, emit Template.yieldThread []])) :=
    fun m => emits_counted (emits_yielding h)
  unfold required
  match n with
  | 0 =>
    rw [pow_zero]
    exact .nil
  | 1 =>
    rw [pow_one]
    exact h
  | m + 2 =>
    refine .of_get fun t => ?_
    simp only
    split
    · -- the first iteration stands apart
      have hrest : Emits cls p (L ^ (m + 1)) (if m = 0 then part else
          counted settings ((m + 1 : Nat) : Int)
            (inSequence [part, emit Template.yieldThread []])) := by
        split
        · rename_i hzero
          rw [hzero, pow_one]
          exact h
        · exact hlooped m
      have hall := Emits.inSequence (.cons h (.cons hrest .nil))
      rw [List.prod_cons, List.prod_singleton, ← pow_succ'] at hall
      exact hall
    · exact hlooped (m + 1)

/-! ## Repetitions -/

theorem mostIterations_eq {min : Nat} {max : Option Nat} :
    mostIterations min max = min + (optionalCount min max).toNat := by
  cases max with
  | none => rfl
  | some max =>
    rw [mostIterations, optionalCount]
    split
    · rfl
    · change Max.max min max = _
      omega

theorem emits_loopGuard {n : Node} : Emits cls p (1 : Language α) (loopGuard n) := by
  rw [loopGuard]
  split
  · split
    · exact .of_operand (.of_emit fun _ _ => Code.Reads.goOn (.inl (by decide)))
    · exact .of_throw
  · exact .nil

theorem emits_iterations {n : Node} {min : Nat} {max : Option Nat} {first more : Assembler Code}
    (hfirst : Emits cls p (L ^ min) first)
    (hmore : Emits cls p (repeated L 0 (optionalCount min max).toNat) more) :
    Emits cls p (repeated L min (mostIterations min max)) (do
      let a ← loopGuard n
      let b ← first
      let c ← more
      pure (a ++ b ++ c)) := by
  have hall := (emits_loopGuard (n := n)).append₃ hfirst hmore
  rw [one_mul, ← repeated_add, ← mostIterations_eq] at hall
  exact hall

theorem emits_characterRepetition {n : Node} {root : Int} {min : Nat} {max : Option Nat}
    (hdisjoint : n.attributes.disjoint = false) (hlookAhead : n.lookAhead = none) :
    Emits cls p (repeated (classLanguage cls root) min (mostIterations min max))
      (characterRepetition settings n root min max) := by
  have hchar : Emits cls p (classLanguage cls root)
      (emit (if n.attributes.controlling then Template.charAnchor else Template.char) [root]) := by
    split
    · exact emits_char (.inr rfl)
    · exact emits_char (.inl rfl)
  rw [characterRepetition, hdisjoint, hlookAhead]
  exact emits_iterations (emits_requiredCharacters hchar) (emits_optional hchar)

theorem emits_partRepetition {n : Node} {child min : Nat} {max : Option Nat}
    (hlookAhead : n.lookAhead = none) (h : Emits cls p L part) :
    Emits cls p (repeated L min (mostIterations min max))
      (partRepetition settings n child part min max) := by
  rw [partRepetition, hlookAhead]
  exact emits_iterations (emits_required h) (emits_optional h)

/-- The guard of a repetition is of no more use. -/
theorem emits_uncontrolled {i : Nat} {x : Assembler Code} (h : Emits cls p L x) :
    Emits cls p L (do
      let code ← x
      updateAttributes i ({ · with controlling := false })
      pure code) := by
  intro s code s' hp hret hok
  obtain ⟨code', s₁, hok', hrest⟩ := bind_ok.1 hok
  obtain ⟨_, s₂, hupdate, hpure⟩ := bind_ok.1 hrest
  obtain ⟨rfl, rfl⟩ := pure_ok.1 hpure
  obtain rfl := updateAttributes_ok hupdate
  obtain ⟨hemit, hreads⟩ := h _ _ _ hp hret hok'
  have hpattern := (Pattern.alike_updateAttributes (p := s₁.pattern) (i := i)
    (f := ({ · with controlling := false })) fun _ => rfl).trans hemit.pattern
  exact ⟨⟨hpattern, hemit.position, hemit.counter, hemit.returns⟩, hreads⟩

/-- A repetition reads what its child reads, several times. -/
theorem emits_repetition {i child min : Nat} {max : Option Nat}
    {children : List (Nat × Assembler Code)} (hdisjoint : (p.node i).attributes.disjoint = false)
    (hlookAhead : (p.node i).lookAhead = none)
    (hclass : ∀ root, (p.node child).kind = .charClass root → L = classLanguage cls root)
    (h : Emits cls p L part) :
    Emits cls p (repeated L min (mostIterations min max))
      (repetition settings i min max ((child, part) :: children)) := by
  rw [repetition]
  refine .of_node fun n hn => ?_
  have hdisjoint' : n.attributes.disjoint = false := by
    rw [← hdisjoint]
    exact congrArg (·.attributes.disjoint) hn
  have hlookAhead' : n.lookAhead = none := by
    rw [← hlookAhead]
    exact congrArg (·.lookAhead) hn
  refine .of_node fun c hc => ?_
  have hkind : c.kind = (p.node child).kind := congrArg (·.kind) hc
  simp only
  cases hk : c.kind with
  | charClass root =>
    rw [hclass root (hkind ▸ hk)]
    exact .of_operand (emits_uncontrolled (emits_characterRepetition hdisjoint' hlookAhead'))
  | group | alternation | repetition | action =>
    exact emits_uncontrolled (emits_partRepetition hlookAhead' h)

end Assembler
end ByteMatch
