import ByteMatch.Proofs.Pattern.Assembly.Disjoint
import ByteMatch.Proofs.Pattern.Assembly.Plain

/-!
# ByteMatch.Proofs.Pattern.Assembly.ControlFlow

The jumps of a fragment lead to instructions that have been emitted, or to the one that comes next.

Most jumps stay in the fragment of their construct. A shared tail goes back to the alternation that
jumps to it, and that place has been noted before.

* `Assembler.Laid`: a fragment has been counted, and its jumps lead to places up to its end.
* `Assembler.Confines`: whenever a step succeeds, this is so of its fragment.
* `Assembler.confines_group`, `Assembler.confines_alternation`, `Assembler.confines_repetition`: the constructs
  of a pattern.
-/

namespace ByteMatch

/-- The places that shared tails return to have been emitted. -/
def Assembly.Returnable (s : Assembly) : Prop := ∀ place ∈ s.returns, place ≤ s.position

theorem Assembly.Returnable.of_eq {s s' : Assembly} (h : s.Returnable)
    (hposition : s.position ≤ s'.position) (hreturns : s'.returns = s.returns) : s'.Returnable := by
  intro place hplace
  rw [hreturns] at hplace
  exact Nat.le_trans (h place hplace) hposition

namespace Assembler

open Step

variable {α : Type} {settings : Settings} {s s' s₁ : Assembly} {code more : Code} {low : Nat}

/-! ## Fragments -/

/-- The fragment has been counted, and its jumps lead to places up to its end. -/
structure Laid (s : Assembly) (code : Code) (s' : Assembly) : Prop where
  position : s'.position = s.position + code.length
  returnable : s'.Returnable
  leads : code.Leads s.position s'.position

namespace Laid

theorem nil (h : s.Returnable) : Laid s [] s := ⟨rfl, h, trivial⟩

theorem append (h : Laid s code s₁) (h' : Laid s₁ more s') : Laid s (code ++ more) s' where
  position := by rw [h'.position, h.position, List.length_append, Nat.add_assoc]
  returnable := h'.returnable
  leads := by
    refine Code.leads_append.2 ⟨h.leads.mono ?_, ?_⟩
    · have := h'.position
      omega
    · rw [← h.position]
      exact h'.leads

/-- After the fragment, nothing more is emitted. -/
theorem keep (h : Laid s code s₁) (hposition : s'.position = s₁.position)
    (hreturns : s'.returns = s₁.returns) : Laid s code s' where
  position := hposition.trans h.position
  returnable := h.returnable.of_eq hposition.ge hreturns
  leads := hposition ▸ h.leads

/-- One instruction that leads to the next one at most. -/
theorem single {i : Instruction} (h : s.Returnable) (hposition : s'.position = s.position + 1)
    (hreturns : s'.returns = s.returns) (hleads : Code.Leads [i] s.position (s.position + 1)) :
    Laid s [i] s' := by
  refine ⟨hposition, h.of_eq (by omega) hreturns, ?_⟩
  rw [hposition]
  exact hleads

/-- A fragment without loops whose jumps stay in it. -/
theorem of_plain (h : Emitted s code s')
    (hplain : code.Plain s.position (Set.Icc (s.position : Int) s'.position)) (hret : s.Returnable) :
    Laid s code s' where
  position := h.position
  returnable := by
    have := h.position
    exact hret.of_eq (by omega) h.returns
  leads := hplain.leads fun t ht => ⟨by have := ht.1; omega, ht.2⟩

theorem le (h : Laid s code s') : s.position ≤ s'.position := by
  rw [h.position]
  exact Nat.le_add_right _ _

end Laid

/-- Whenever the step succeeds at the place `low` or later, the jumps of its fragment lead to places up
to the end of the fragment. -/
def Confines (low : Nat) (x : Assembler Code) : Prop :=
  ∀ s code s', low ≤ s.position → s.Returnable → x s = .ok code s' → Laid s code s'

namespace Confines

variable {x y z : Assembler Code}

theorem mono {low' : Nat} (h : Confines low x) (hle : low ≤ low') : Confines low' x :=
  fun _ _ _ hlow hret hok => h _ _ _ (Nat.le_trans hle hlow) hret hok

theorem of_stays (h : Stays x) : Confines low x := fun s code s' _ hret hok =>
  have hplain := h s code s' hok
  .of_plain hplain.1 hplain.2 hret

theorem nil : Confines low (pure []) := .of_stays .nil

theorem of_throw {e : CompileError} : Confines low (throw e) := .of_stays .of_throw

/-- An instance of a template that uses no counters and whose jumps do not leave it. -/
theorem of_emit {t : Template} {args : List Int} (hfree : t.counterFree = true)
    (hjump : t.jumpsInside 0 = true) : Confines low (emit t args) := .of_stays (.of_emit hfree hjump)

theorem of_silent {x : Assembler α} {f : α → Assembler Code} (hx : Silent x)
    (h : ∀ a, Confines low (f a)) : Confines low (x >>= f) := by
  intro s code s' hlow hret hok
  obtain ⟨a, s₁, hok₁, hrest⟩ := bind_ok.1 hok
  have hnone := hx _ _ _ hok₁
  have hposition : s₁.position = s.position := hnone.position
  obtain ⟨hlaid, hreturnable, hleads⟩ := h a s₁ code s' (hposition ▸ hlow)
    (hret.of_eq hposition.ge hnone.returns) hrest
  rw [hposition] at hlaid hleads
  exact ⟨hlaid, hreturnable, hleads⟩

theorem of_get {f : Assembly → Assembler Code} (h : ∀ t, Confines low (f t)) :
    Confines low (get >>= f) :=
  of_silent (.of_eq fun _ _ _ hget => (get_ok.1 hget).2.symm) h

/-- What is done after a fragment, if nothing more is emitted. -/
theorem keep {y : Assembler α} (hx : Confines low x) (hy : Silent y) :
    Confines low (do
      let code ← x
      let _ ← y
      pure code) := by
  intro s code s' hlow hret hok
  obtain ⟨code', s₁, hok₁, hrest⟩ := bind_ok.1 hok
  obtain ⟨_, s₂, hok₂, hpure⟩ := bind_ok.1 hrest
  obtain ⟨rfl, rfl⟩ := pure_ok.1 hpure
  have hnone := hy _ _ _ hok₂
  exact (hx s _ _ hlow hret hok₁).keep hnone.position hnone.returns

theorem append (hx : Confines low x) (hy : Confines low y) :
    Confines low (do
      let code ← x
      let more ← y
      pure (code ++ more)) := by
  intro s code s' hlow hret hok
  obtain ⟨a, s₁, hok₁, hrest⟩ := bind_ok.1 hok
  obtain ⟨b, s₂, hok₂, hpure⟩ := bind_ok.1 hrest
  obtain ⟨rfl, rfl⟩ := pure_ok.1 hpure
  have hlaid := hx s _ _ hlow hret hok₁
  exact hlaid.append (hy _ _ _ (Nat.le_trans hlow hlaid.le) hlaid.returnable hok₂)

theorem append₃ (hx : Confines low x) (hy : Confines low y) (hz : Confines low z) :
    Confines low (do
      let a ← x
      let b ← y
      let c ← z
      pure (a ++ b ++ c)) := by
  intro s code s' hlow hret hok
  obtain ⟨a, s₁, hok₁, hrest₁⟩ := bind_ok.1 hok
  obtain ⟨b, s₂, hok₂, hrest₂⟩ := bind_ok.1 hrest₁
  obtain ⟨c, s₃, hok₃, hpure⟩ := bind_ok.1 hrest₂
  obtain ⟨rfl, rfl⟩ := pure_ok.1 hpure
  have hlaid := hx s _ _ hlow hret hok₁
  have hlaid' := hlaid.append (hy _ _ _ (Nat.le_trans hlow hlaid.le) hlaid.returnable hok₂)
  exact hlaid'.append (hz _ _ _ (Nat.le_trans hlow hlaid'.le) hlaid'.returnable hok₃)

theorem inSequence {xs : List (Assembler Code)} (h : ∀ x ∈ xs, Confines low x) :
    Confines low (inSequence xs) := by
  induction xs with
  | nil => exact .nil
  | cons x rest ih =>
    rw [Assembler.inSequence]
    exact (h x (List.mem_cons_self ..)).append (ih fun y hy => h y (List.mem_cons_of_mem _ hy))

end Confines

/-! ## Groups -/

theorem confines_group {i : Nat} {parts : List (Assembler Code)}
    (h : ∀ x ∈ parts, Confines low x) : Confines low (group settings i parts) := by
  have hwith : ∀ isLazy lookahead mark, Confines low
      (inSequence (groupStart isLazy mark :: parts ++ [groupEnd lookahead mark])) := by
    intro isLazy lookahead mark
    refine .inSequence fun x hx => ?_
    rw [List.mem_append, List.mem_cons, List.mem_singleton] at hx
    rcases hx with (rfl | hx) | rfl
    · exact .of_stays stays_groupStart
    · exact h x hx
    · exact .of_stays stays_groupEnd
  refine .of_silent .node fun n => ?_
  simp only
  split
  · exact .of_silent .takeMark fun mark => (hwith _ _ _).keep .releaseMark
  · exact hwith _ _ _

/-! ## Alternations -/

theorem decisionEnd_laid {stop : Code} (hret : s.Returnable)
    (h : decisionEnd s = .ok stop s') : Laid s stop s' := by
  rcases decisionEnd_steps h with ⟨hnil, rfl, rfl⟩ | ⟨place, rest, hcons, rfl, rfl⟩
  · refine ⟨rfl, hret.of_eq (Nat.le_succ _) rfl, ?_⟩
    refine (Code.leads_jump (by decide) (by decide)).2 ⟨?_, Code.leads_nil⟩
    simp only
    omega
  · have hplace : place ≤ s.position := hret place (by simp [hcons])
    refine ⟨rfl, fun other hother => ?_, ?_⟩
    · have : other ≤ s.position := hret other (by simpa [hcons] using .inr hother)
      simp only
      omega
    · refine (Code.leads_jump (by decide) (by decide)).2 ⟨?_, Code.leads_nil⟩
      simp only
      omega

/-- An alternative is reached from its fork, and its jumps lead to places up to its end. -/
theorem alternative_laid {fork i : Nat} {part : Assembler Code} {a : Alternative}
    (hpart : Confines 0 part) (hret : s.Returnable) (hfork : fork < s.position)
    (h : alternative settings fork i part s = .ok a s') :
    ∃ entry code, a = ⟨entry, code ++ [⟨Opcode.null, 0, 0, false⟩], s.position + code.length⟩ ∧
      s'.position = s.position + code.length + 1 ∧ s'.Returnable ∧
      Code.Leads code s.position (s.position + code.length) ∧
      Code.Leads [entry] fork s.position := by
  obtain ⟨entry, mark, code, s₁, s₂, hentered, hcode, rfl, rfl⟩ := alternative_steps h
  have hlaid : Laid s (mark ++ code) s₂ ∧ Code.Leads [entry] fork s.position := by
    rw [Entered] at hentered
    split at hentered
    · obtain ⟨rfl, rfl, rfl⟩ := hentered
      have hpushed : Assembly.Returnable { s with returns := (fork + 1) :: s.returns } := by
        intro place hplace
        rcases List.mem_cons.1 hplace with rfl | hplace
        · exact hfork
        · exact hret place hplace
      obtain ⟨hposition, hreturnable, hleads⟩ := hpart _ _ _ (Nat.zero_le _) hpushed hcode
      refine ⟨⟨hposition, hreturnable, hleads⟩, ?_⟩
      refine (Code.leads_jump (by decide) (by decide)).2 ⟨?_, Code.leads_nil⟩
      omega
    · obtain ⟨rfl, hmark⟩ := hentered
      obtain ⟨hemit, hplain⟩ := stays_alternativeMark s _ _ hmark
      have hmarked : Laid s mark _ := .of_plain hemit hplain hret
      refine ⟨hmarked.append (hpart _ _ _ (Nat.zero_le _) hmarked.returnable hcode), ?_⟩
      refine (Code.leads_jump (by decide) (by decide)).2 ⟨?_, Code.leads_nil⟩
      omega
  obtain ⟨⟨hposition, hreturnable, hleads⟩, hentry⟩ := hlaid
  rw [hposition] at hleads
  refine ⟨entry, mark ++ code, by rw [hposition], by rw [hposition], ?_, hleads, hentry⟩
  exact hreturnable.of_eq (Nat.le_succ _) rfl

/-- The alternatives and their forks have been counted, and their jumps lead to places up to the end. -/
theorem alternatives_laid {children : List (Nat × Assembler Code)} {forks : List Fork}
    {parts : List Alternative} {place stop : Nat} (hchildren : ∀ c ∈ children, Confines 0 c.2)
    (hforks : Forks place forks stop) (hlength : forks.length = children.length)
    (hstop : stop ≤ s.position) (hret : s.Returnable)
    (h : alternatives settings forks children s = .ok parts s') :
    Laid s (resolveEnds s'.position parts) s' ∧ place + (resolveForks forks parts).length = stop ∧
      (resolveForks forks parts).Leads place s'.position := by
  induction hforks generalizing children parts s with
  | nil =>
    obtain rfl : children = [] := List.length_eq_zero_iff.1 hlength.symm
    obtain ⟨rfl, rfl⟩ := pure_ok.1 h
    exact ⟨.nil hret, rfl, trivial⟩
  | @cons place stop tests blank forks htests hrest ih =>
    obtain ⟨⟨i, part⟩, rest, rfl⟩ := List.exists_cons_of_length_eq_add_one hlength.symm
    obtain ⟨first, s₁, hfirst, hrest'⟩ := bind_ok.1 h
    obtain ⟨more, s₂, hmore, hpure⟩ := bind_ok.1 hrest'
    obtain ⟨rfl, rfl⟩ := pure_ok.1 hpure
    have hle := hrest.le
    obtain ⟨entry, code, rfl, hposition, hreturnable, hleads, hentry⟩ :=
      alternative_laid (hchildren _ (List.mem_cons_self ..)) hret (by simp only; omega) hfirst
    obtain ⟨hends, hplace, hleads'⟩ := ih (fun c hc => hchildren c (List.mem_cons_of_mem _ hc))
      (Nat.succ.inj hlength) (by omega) hreturnable hmore
    have hfinish := hends.le
    rw [resolveForks_cons, resolveEnds_cons]
    refine ⟨⟨?_, hends.returnable, ?_⟩, ?_, ?_⟩
    · have := hends.position
      rw [List.length_append, List.length_cons]
      omega
    · refine Code.leads_append.2 ⟨hleads.mono (by omega),
        (Code.leads_jump (by decide) (by decide)).2 ⟨by omega, ?_⟩⟩
      rw [← hposition]
      exact hends.leads
    · rw [List.length_append, List.length_cons]
      omega
    · have htested : tests.Leads place s₂.position := htests.leads fun t ht => by
        rw [Set.mem_singleton_iff.1 ht]
        omega
      exact Code.leads_append.2 ⟨htested, (hentry.mono (by omega)).1, hleads'⟩

/-- The jumps of an alternation lead to places up to its end, or to where a shared tail returns to. -/
theorem confines_alternation {children : List (Nat × Assembler Code)}
    (hchildren : ∀ c ∈ children, Confines 0 c.2) : Confines low (alternation settings children) := by
  intro s code s' _ hret hok
  obtain ⟨forks, stop, parts, s₁, s₂, hforks, hstop, hparts, rfl⟩ := alternation_steps hok
  obtain ⟨hemit, hforked, hlength⟩ := decisions_forks hforks
  have hend := decisionEnd_laid (hret.of_eq hforked.le hemit.returns) hstop
  obtain ⟨hends, hplace, hleads⟩ :=
    alternatives_laid hchildren hforked hlength hend.le hend.returnable hparts
  have hrest := hend.append hends
  rw [List.append_assoc]
  refine ⟨?_, hrest.returnable, Code.leads_append.2 ⟨hleads, ?_⟩⟩
  · rw [List.length_append, ← Nat.add_assoc, hplace]
    exact hrest.position
  · rw [hplace]
    exact hrest.leads

/-! ## Repetitions -/

theorem laid_setCount {counter : Nat} {count : Int} (hret : s.Returnable)
    (hposition : s'.position = s.position + 1) (hreturns : s'.returns = s.returns) :
    Laid s [Code.setCount counter count] s' :=
  .single hret hposition hreturns ((Code.leads_plain (by decide) (by decide)).2 Code.leads_nil)

theorem laid_countDown {counter head : Nat} (hret : s.Returnable)
    (hposition : s'.position = s.position + 1) (hreturns : s'.returns = s.returns)
    (hhead : head ≤ s.position) : Laid s [Code.countDown counter s.position head] s' := by
  refine .single hret hposition hreturns
    ((Code.leads_jump (by decide) (by decide)).2 ⟨?_, Code.leads_nil⟩)
  omega

/-- A loop goes back to an instruction that has been emitted. -/
theorem confines_loopTo {counter head : Nat} : Confines head (loopTo counter head) := by
  intro s code s' hhead hret hok
  obtain ⟨rfl, rfl⟩ := loopTo_ok hok
  exact laid_countDown hret rfl rfl hhead

theorem confines_counted {count : Int} {part : Assembler Code} (h : Confines low part) :
    Confines low (counted settings count part) := by
  intro s code s' hlow hret hok
  obtain ⟨body, s₁, hbody, rfl, rfl⟩ := counted_ok hok
  have hset : Laid s [Code.setCount s.counter count]
      { s with counter := s.counter + 1, position := s.position + 1 } := laid_setCount hret rfl rfl
  have hpart := h _ _ _ (Nat.le_succ_of_le hlow) hset.returnable hbody
  have hback : Laid s₁ [Code.countDown s.counter s₁.position (s.position + 1)]
      { s₁ with counter := s₁.counter - 1, position := s₁.position + 1 } :=
    laid_countDown hpart.returnable rfl rfl hpart.le
  exact (hset.append hpart).append hback

/-- A test and a fork lead to places up to the end of the part that is skipped. -/
theorem confines_skippable {preview : Option Nat} {part : Assembler Code} (h : Confines low part) :
    Confines low (skippable preview part) := by
  intro s code s' hlow hret hok
  obtain ⟨body, hbody, rfl⟩ := skippable_ok hok
  have hforked : Assembly.Returnable
      { s with position := s.position + (forkTest preview).length + 1 } :=
    hret.of_eq (by simp only; omega) rfl
  obtain ⟨hposition, hreturnable, hleads⟩ := h _ _ _ (by simp only; omega) hforked hbody
  simp only at hposition hleads
  refine ⟨?_, hreturnable, ?_⟩
  · rw [hposition, List.length_append, List.length_cons]
    omega
  · have htest : (forkTest preview).Leads s.position s'.position :=
      (Code.plain_forkTest (Set.mem_singleton _)).leads fun t ht => by
        rw [Set.mem_singleton_iff.1 ht]
        omega
    refine Code.leads_append.2 ⟨htest, (Code.leads_jump (by decide) (by decide)).2 ⟨?_, hleads⟩⟩
    omega

/-- The rounds of a loop go back to an instruction that has been emitted. -/
theorem confines_optional {preview : Option Nat} {part : Assembler Code} {count : Int}
    (h : Confines 0 part) : Confines low (optional settings preview part count) := by
  rw [optional]
  split
  · exact confines_skippable (h.mono (Nat.zero_le _))
  · split
    · intro s code s' hlow hret hok
      obtain ⟨rounds, s₁, hrounds, rfl, rfl⟩ := optionalLoop_ok hok
      have hset : Laid s [Code.setCount s.counter count]
          { s with counter := s.counter + 1, position := s.position + 1 } :=
        laid_setCount hret rfl rfl
      have hround : Confines (s.position + 1)
          (inSequence [part, emit Template.yieldThread [], loopTo s.counter (s.position + 1)]) := by
        refine .inSequence fun x hx => ?_
        simp only [List.mem_cons, List.not_mem_nil, or_false] at hx
        rcases hx with rfl | rfl | rfl
        · exact h.mono (Nat.zero_le _)
        · exact .of_emit (by decide) (by decide)
        · exact confines_loopTo
      have hloop := confines_skippable hround _ _ _ (Nat.le_refl _) hset.returnable hrounds
      have hreset : Laid s₁ [Code.setCount s.counter 0]
          { s₁ with counter := s₁.counter - 1, position := s₁.position + 1 } :=
        laid_setCount hloop.returnable rfl rfl
      exact (hset.append hloop).append hreset
    · exact .nil

/-! ### Required iterations -/

theorem confines_requiredCharacters {t : Template} {root : Int} {min : Nat}
    (h : Stays (emit t [root])) : Confines low (requiredCharacters settings t root min) := by
  rw [requiredCharacters]
  split
  · exact .of_stays (stays_copies h)
  · exact confines_counted (.of_stays h)

theorem confines_required {child min : Nat} {part : Assembler Code} (h : Confines low part) :
    Confines low (required settings child part min) := by
  have hlooped : ∀ count : Nat, Confines low
      (counted settings count (inSequence [part, emit Template.yieldThread []])) := by
    intro count
    refine confines_counted (.inSequence fun x hx => ?_)
    rcases List.mem_pair.1 hx with rfl | rfl
    · exact h
    · exact .of_emit (by decide) (by decide)
  unfold required
  match min with
  | 0 => exact .nil
  | 1 => exact h
  | count + 2 =>
    refine .of_get fun t => ?_
    simp only
    split
    · refine .inSequence fun x hx => ?_
      rcases List.mem_pair.1 hx with rfl | rfl
      · exact h
      · split
        · exact h
        · exact hlooped _
    · exact hlooped _

/-! ### Optional characters -/

/-- Whether the template is a character test that branches over some instructions. -/
def IsBranch (t : Template) : Prop := ∃ op, Opcode.isJump op = false ∧ Opcode.isBranch op = true ∧
  ∀ distance root, t.fill [distance, root] = [⟨op, distance, root, false⟩]

theorem leads_branchTests {op : UInt8} (hjump : Opcode.isJump op = false)
    (hbranch : Opcode.isBranch op = true) {root distance : Int} {count place limit : Nat}
    (hdistance : count ≤ distance + 1) (hlimit : place + 1 + distance ≤ limit) :
    (Code.branchTests op root distance count).Leads place limit := by
  induction count generalizing distance place with
  | zero => exact Code.leads_nil
  | succ count ih =>
    rw [Code.branchTests]
    exact (Code.leads_branch hjump hbranch).2 ⟨by omega, ih (by omega) (by omega)⟩

/-- All branches lead to one place, and that is not before their end. -/
theorem branches_laid {t : Template} (ht : IsBranch t) {root distance : Int} {count : Nat}
    (limit : Nat) (hdistance : count ≤ distance + 1) (hlimit : s.position + 1 + distance ≤ limit)
    (h : branches t root distance count s = .ok code s') :
    code.length = count ∧ s'.position = s.position + count ∧ s'.returns = s.returns ∧
      code.Leads s.position limit := by
  obtain ⟨op, hjump, hbranch, hfill⟩ := ht
  obtain ⟨rfl, rfl⟩ := branches_ok (fun distance => hfill distance root) h
  exact ⟨Code.length_branchTests, rfl, rfl, leads_branchTests hjump hbranch hdistance hlimit⟩

/-- The loop after the tests that are enumerated. A test that fails leaves it for the last instruction,
which resets the counter. -/
theorem disjointLoop_laid {t : Template} (ht : IsBranch t) {root count : Int} (hret : s.Returnable)
    (h : (withCounter settings fun counter => do
      let set ← setCounter counter count
      let head ← position
      let code ← emit t [1, root]
      let back ← loopTo counter head
      let reset ← setCounter counter 0
      pure (set ++ code ++ back ++ reset)) s = .ok code s') :
    Laid s code s' ∧ code.length = 4 ∧ s'.returns = s.returns := by
  obtain ⟨rfl, rfl⟩ := disjointLoop_ok h
  obtain ⟨op, hjump, hbranch, hfill⟩ := ht
  rw [hfill, List.length_singleton]
  refine ⟨⟨rfl, hret.of_eq ?_ rfl, ?_⟩, rfl, rfl⟩
  · simp only
    omega
  · refine (Code.leads_plain (by decide) (by decide)).2 ((Code.leads_branch hjump hbranch).2 ⟨?_,
      (Code.leads_jump (by decide) (by decide)).2 ⟨?_,
        (Code.leads_plain (by decide) (by decide)).2 Code.leads_nil⟩⟩)
    · simp only
      omega
    · simp only
      omega

theorem confines_disjoint {t : Template} (ht : IsBranch t) {root count : Int} :
    Confines low (disjoint settings t root count) := by
  rw [disjoint]
  split
  · intro s code s' _ hret hok
    rcases Int.lt_or_le 0 count with hsome | hnone
    · obtain ⟨hlength, hposition, hreturns, hleads⟩ :=
        branches_laid ht (s.position + count.toNat) (by omega) (by omega) hok
      rw [← hposition] at hleads
      exact ⟨by rw [hposition, hlength], hret.of_eq (by omega) hreturns, hleads⟩
    · rw [Int.toNat_of_nonpos hnone] at hok
      exact Confines.nil s code s' (Nat.le_refl _) hret hok
  · intro s code s' _ hret hok
    obtain ⟨tests, more, s₁, htests, hmore, rfl⟩ := inSequence_cons_ok hok
    obtain ⟨loop, more', s₂, hloop, hnil, rfl⟩ := inSequence_cons_ok hmore
    obtain ⟨rfl, rfl⟩ := pure_ok.1 hnil
    obtain ⟨hlength, hposition, hreturns, hleads⟩ := branches_laid ht
      (s.position + enumerationBound + 4) (by omega) (by omega) htests
    obtain ⟨hlaid, hfour, -⟩ :=
      disjointLoop_laid ht (hret.of_eq (by omega) hreturns) hloop
    have hend := hlaid.position
    rw [List.append_nil]
    refine ⟨?_, hlaid.returnable, Code.leads_append.2 ⟨hleads.mono (by omega), ?_⟩⟩
    · rw [List.length_append]
      omega
    · rw [hlength, ← hposition]
      exact hlaid.leads

/-! ### Repetitions of characters and of other parts -/

theorem confines_characterRepetition {n : Node} {root : Int} {min : Nat} {max : Option Nat} :
    Confines low (characterRepetition settings n root min max) := by
  have hbranch : IsBranch
      (if n.attributes.controlling then Template.charAnchorBranch else Template.charBranchTo) := by
    split
    · exact ⟨_, by decide, by decide, fun _ _ => rfl⟩
    · exact ⟨_, by decide, by decide, fun _ _ => rfl⟩
  have hfirst : Confines low (requiredCharacters settings
      (if n.attributes.controlling then Template.charAnchor else Template.char) root min) :=
    confines_requiredCharacters stays_char
  have hguard : Confines low (loopGuard n) := .of_stays stays_loopGuard
  rw [characterRepetition]
  cases hdisjoint : n.attributes.disjoint with
  | true => exact hguard.append₃ hfirst (confines_disjoint hbranch)
  | false =>
    have hmore : Confines low (do
        optional settings (← nextPreview n.lookAhead)
          (emit (if n.attributes.controlling then Template.charAnchor else Template.char) [root])
          (optionalCount min max)) :=
      .of_silent .nextPreview fun _ => confines_optional (.of_stays stays_char)
    have hall := hguard.append₃ hfirst hmore
    simpa only [Bool.false_eq_true, if_false, bind_assoc] using hall

theorem confines_partRepetition {n : Node} {child min : Nat} {max : Option Nat}
    {part : Assembler Code} (h : Confines 0 part) :
    Confines low (partRepetition settings n child part min max) := by
  have hmore : Confines low (do
      optional settings (← nextPreview n.lookAhead) part (optionalCount min max)) :=
    .of_silent .nextPreview fun _ => confines_optional h
  have hfirst : Confines low (required settings child part min) :=
    confines_required (h.mono (Nat.zero_le _))
  have hguard : Confines low (loopGuard n) := .of_stays stays_loopGuard
  have hall := hguard.append₃ hfirst hmore
  simpa only [partRepetition, bind_assoc] using hall

theorem confines_repetition {i min : Nat} {max : Option Nat}
    {children : List (Nat × Assembler Code)} (hchildren : ∀ c ∈ children, Confines 0 c.2) :
    Confines low (repetition settings i min max children) := by
  cases children with
  | nil => exact .of_throw
  | cons c rest =>
    obtain ⟨child, part⟩ := c
    have hpart : Confines 0 part := hchildren _ (List.mem_cons_self ..)
    rw [repetition]
    refine .of_silent .node fun n => .of_silent .node fun c => ?_
    simp only
    split
    · refine .of_silent .operand fun root => ?_
      exact confines_characterRepetition.keep .uncontrol
    · exact (confines_partRepetition hpart).keep .uncontrol

end Assembler
end ByteMatch
