import ByteMatch.Proofs.Pattern.Assembly.Marks
import ByteMatch.Proofs.Pattern.Guards
import ByteMatch.Proofs.Pattern.Numbering

/-!
# ByteMatch.Proofs.Pattern.OwnMarks

The marks of a program do not interfere.

* `Pattern.Marks.origin`: each index is the mark of a group, the mark for alternatives, or the mark that a
  group has taken for itself.
* `Pattern.Marked`: the pattern and its marks when the program is assembled.
* `Pattern.OwnMark`: a mark that opens and closes a group, and that nothing in the group uses.
* `Pattern.build_marks`: the groups that take a mark for themselves have one that is their own.
-/

namespace ByteMatch

open Step

/-- A node without its guard and what an assembly finds out. -/
def Node.unguarded (n : Node) : Node := { n.assembled with guard := none }

namespace Pattern

open Assembler

variable {p p' q : Pattern} {root i j k next limit mark : Nat} {alternativeMark : Option Nat}
  {t u : Nesting} {a : Instruction} {settings : Settings} {s s' : Assembly} {code : Code}

/-! ## Where marks come from -/

theorem ownsMark_iff : p.ownsMark i = true ↔ (p.node i).kind = .group ∧ (p.node i).mark = none ∧
    ((p.node i).attributes.lookahead = true ∨ (p.node i).attributes.lazy = true) := by
  simp [ownsMark, and_assoc]

theorem not_ownsMark_of_kind (h : (p.node i).kind ≠ .group) : p.ownsMark i = false := by
  simp [ownsMark, h]

theorem mem_openingMarks {isLazy : Bool} {mark : Option Nat} (h : a ∈ openingMarks isLazy mark) :
    ∃ m : Nat, mark = some m ∧ a.index = m := by
  cases mark with
  | none => cases h
  | some m =>
    refine ⟨m, rfl, ?_⟩
    rw [openingMarks] at h
    split at h
    · rw [List.mem_singleton.1 h]
    · split at h
      · rw [List.mem_singleton.1 h]
      · cases h

theorem mem_closingMarks {lookahead : Bool} {mark : Option Nat} (h : a ∈ closingMarks lookahead mark) :
    ∃ m : Nat, mark = some m ∧ a.index = m := by
  cases mark with
  | none => cases h
  | some m =>
    refine ⟨m, rfl, ?_⟩
    rw [closingMarks] at h
    split at h
    · rw [List.mem_singleton.1 h]
    · rw [List.mem_singleton.1 h]

theorem mem_alternativeMarks (h : a ∈ p.alternativeMarks alternativeMark i) :
    ∃ m : Nat, alternativeMark = some m ∧ a.index = m := by
  unfold alternativeMarks at h
  split at h
  · cases h
  · split at h
    · rename_i m index hindex
      exact ⟨m, rfl, by rw [List.mem_singleton.1 h]⟩
    · cases h

theorem child_of_mem_parts {parts : List Nesting} (hplaces : parts.map Nesting.place = (p.node i).children)
    (ht : t ∈ parts) : p.Child i t.place := by
  rw [Child, ← hplaces]
  exact List.mem_map_of_mem ht

/-- Where an index comes from: it is the mark of a group, the mark for alternatives, or one that a group
takes for itself. -/
inductive Origin (p : Pattern) (limit : Nat) (alternativeMark : Option Nat) (next : Nat) (t : Nesting)
    (index : Int) : Prop
  | captured {j mark : Nat} (hj : p.Reaches t.place j) (hmark : (p.node j).mark = some mark)
      (h : index = mark)
  | alternative {mark : Nat} (hmark : alternativeMark = some mark) (h : index = mark)
  | own {u : Nesting} {mark : Nat} (hu : u.Within t) (howns : p.ownsMark u.place = true)
      (hfree : next ≤ mark) (hroom : mark < limit) (h : index = mark)

/-- What comes from a part also comes from the whole. -/
theorem Origin.lift {index : Int} {n : Nat} (h : p.Origin limit alternativeMark n t index) (hnext : next ≤ n)
    (hplace : p.Reaches u.place t.place) (hpart : ∀ v : Nesting, v.Within t → v.Within u) :
    p.Origin limit alternativeMark next u index := by
  cases h with
  | captured hj hmark h => exact .captured (hplace.trans hj) hmark h
  | alternative hmark h => exact .alternative hmark h
  | own hu howns hfree hroom h => exact .own (hpart _ hu) howns (Nat.le_trans hnext hfree) hroom h

theorem le_nextMark : next ≤ p.nextMark i next := by
  rw [nextMark]
  split <;> omega

theorem Marks.origin (h : p.Marks limit alternativeMark next t) (ha : a ∈ t.code) :
    p.Origin limit alternativeMark next t a.index := by
  induction h with
  | @group next i parts hkind hroom hplaces _ ih =>
    have hmark : ∀ m : Nat, p.groupMark i next = some m → a.index = m →
        p.Origin limit alternativeMark next (.node i (openingMarks (p.node i).attributes.lazy
          (p.groupMark i next)) parts (closingMarks (p.node i).attributes.lookahead
            (p.groupMark i next))) a.index := by
      intro m hm hindex
      rw [groupMark] at hm
      split at hm
      · rename_i howns
        obtain rfl := Option.some.inj hm
        exact .own .refl howns (Nat.le_refl _) (hroom howns) hindex
      · exact .captured .refl hm hindex
    rw [Nesting.code, List.mem_append, List.mem_append] at ha
    rcases ha with (hopening | hparts) | hclosing
    · obtain ⟨m, hm, hindex⟩ := mem_openingMarks hopening
      exact hmark m hm hindex
    · obtain ⟨v, hv, hcode⟩ := Nesting.mem_codeList.1 hparts
      exact (ih v hv hcode).lift le_nextMark (.single (child_of_mem_parts hplaces hv)) fun _ => .part hv
    · obtain ⟨m, hm, hindex⟩ := mem_closingMarks hclosing
      exact hmark m hm hindex
  | @alternation next i parts hkind hplaces _ ih =>
    rw [Nesting.code, List.nil_append, List.append_nil] at ha
    obtain ⟨_, hv, hcode⟩ := Nesting.mem_codeList.1 ha
    obtain ⟨v, hv', rfl⟩ := List.mem_map.1 hv
    rw [Nesting.code, List.append_nil, List.mem_append, Nesting.codeList, Nesting.codeList,
      List.append_nil] at hcode
    rcases hcode with hset | hcode
    · obtain ⟨m, hm, hindex⟩ := mem_alternativeMarks hset
      exact .alternative hm hindex
    · exact (ih v hv' hcode).lift (Nat.le_refl _) (.single (child_of_mem_parts hplaces hv')) fun _ hw =>
        .part hv (.part List.mem_cons_self hw)
  | @repetition next i child min max parts rest hkind hchildren hplaces hparts _ ih =>
    rw [Nesting.code, List.nil_append, List.append_nil] at ha
    obtain ⟨v, hv, hcode⟩ := Nesting.mem_codeList.1 ha
    have hchild : p.Child i v.place := by rw [hplaces v hv, Child, hchildren]; exact List.mem_cons_self
    exact (ih v hv hcode).lift (Nat.le_refl _) (.single hchild) fun _ => .part hv
  | charClass hkind => cases ha
  | action hkind => cases ha

/-- The marks of a group that takes a mark for itself. -/
theorem Marks.group_of_owns (h : p.Marks limit alternativeMark next u) (howns : p.ownsMark u.place = true) :
    ∃ parts, u = .node u.place (openingMarks (p.node u.place).attributes.lazy (some next)) parts
        (closingMarks (p.node u.place).attributes.lookahead (some next)) ∧
      parts.map Nesting.place = (p.node u.place).children ∧
      ∀ v ∈ parts, p.Marks limit alternativeMark (next + 1) v := by
  cases h with
  | @group _ i parts hkind hroom hplaces h =>
    have howns' : p.ownsMark i = true := howns
    rw [nextMark, if_pos howns'] at h
    refine ⟨parts, ?_, hplaces, h⟩
    rw [groupMark, if_pos howns', Nesting.place]
  | alternation hkind | repetition hkind | charClass hkind | action hkind =>
    rw [Nesting.place, not_ownsMark_of_kind (by simp [hkind])] at howns
    cases howns

/-- A group below has its marks too, and the ones before it are not free. -/
theorem Marks.within (h : p.Marks limit alternativeMark next t) (hu : u.Within t)
    (howns : p.ownsMark u.place = true) :
    ∃ n, next ≤ n ∧ p.Marks limit alternativeMark n u ∧ p.Reaches t.place u.place := by
  induction h with
  | @group next i parts hkind hroom hplaces h ih =>
    cases hu with
    | refl => exact ⟨next, Nat.le_refl _, .group hkind hroom hplaces h, .refl⟩
    | part hv hu =>
      obtain ⟨n, hle, hmarks, hreaches⟩ := ih _ hv hu
      exact ⟨n, Nat.le_trans le_nextMark hle, hmarks, .head (child_of_mem_parts hplaces hv) hreaches⟩
  | @alternation next i parts hkind hplaces h ih =>
    have hnot : p.ownsMark i = false := not_ownsMark_of_kind (by simp [hkind])
    cases hu with
    | refl => exact absurd howns (by simp [Nesting.place, hnot])
    | part hw hu =>
      obtain ⟨v, hv, rfl⟩ := List.mem_map.1 hw
      cases hu with
      | refl => exact absurd howns (by simp [Nesting.place, hnot])
      | part hv' hu =>
        obtain rfl := List.mem_singleton.1 hv'
        obtain ⟨n, hle, hmarks, hreaches⟩ := ih _ hv hu
        exact ⟨n, hle, hmarks, .head (child_of_mem_parts hplaces hv) hreaches⟩
  | @repetition next i child min max parts rest hkind hchildren hplaces hparts h ih =>
    cases hu with
    | refl => exact ⟨next, Nat.le_refl _, .repetition hkind hchildren hplaces hparts h, .refl⟩
    | part hv hu =>
      obtain ⟨n, hle, hmarks, hreaches⟩ := ih _ hv hu
      have hchild : p.Child i child := by simp [Child, hchildren]
      exact ⟨n, hle, hmarks, .head hchild (hplaces _ hv ▸ hreaches)⟩
  | @charClass next i root hkind =>
    cases hu with
    | refl => exact ⟨next, Nat.le_refl _, .charClass hkind, .refl⟩
    | part hv => cases hv
  | @action next i a hkind =>
    cases hu with
    | refl => exact ⟨next, Nat.le_refl _, .action hkind, .refl⟩
    | part hv => cases hv

/-! ## Programs -/

/-- The fragment of a node uses the marks of the node and of those below it. -/
theorem Acyclic.uses (h : q.Acyclic root) (hi : q.Reaches root i) (n : Nat) :
    Uses q n (q.markings settings.limits.marks settings.alternativeMark n i)
      ((q.outline i).assemble settings) := by
  induction i, hi using h.induction generalizing n with
  | step i hi ih =>
    rw [h.assemble_eq hi]
    exact uses_construct fun j hj n => ih j hj n

/-- Instructions that use no mark other than that of the root. -/
def rootMarks : Language Instruction := {w | ∀ a ∈ w, a.index = 0}

/-- The mark of the root is set where the match starts. -/
theorem uses_searchStart {n : Nat} : Uses q n rootMarks (searchStart root) := by
  have hnone : ∀ w ∈ (1 : Language Instruction), w ∈ rootMarks := by
    rintro _ rfl a ha
    cases ha
  have hmark : Uses q n rootMarks (emit Template.groupStart [0]) :=
    .of_emit fun a ha => by rw [List.mem_singleton.1 ha]; rfl
  have htest : ∀ guard : Int, Uses q n 1 (emit Template.loopGuard [guard, 1]) :=
    fun _ => .of_markFree (by decide)
  refine .of_steady .node fun v => ?_
  simp only
  split
  · refine .of_steady .assertionClass fun newline => .of_emit fun a ha => ?_
    rw [List.mem_singleton.1 ha]
  · cases v.preview with
    | none =>
      simp only [pure_bind, List.nil_append]
      refine .of_steady .takeGuard fun guard => ?_
      cases guard with
      | none => simpa only [pure_bind, List.nil_append, bind_pure] using hmark
      | some guard => simpa only [one_mul] using (htest guard).append hmark
    | some c =>
      have hscan : ∀ root, Uses q n 1 (emit Template.scanFor [root]) := fun _ => .of_markFree (by decide)
      refine .of_steady .operand fun charClass => .of_nothing (hscan charClass) fun scan hfree => ?_
      refine .of_steady .takeGuard fun guard => ?_
      cases guard with
      | none => exact .of_pure (hnone _ (by simp [hfree]))
      | some guard =>
        exact .of_nothing (htest guard) fun test hfree' => .of_pure (hnone _ (by simp [hfree, hfree']))

/-- The program uses the marks of the root after that of the start. -/
theorem Acyclic.program_marks (h : q.Acyclic root) (hs : s.pattern.SameUpTo Node.assembled q)
    (hok : program settings root s = .ok code s') :
    s'.pattern.SameUpTo Node.assembled q ∧ ∃ start t, code.marks = start ++ t.code ∧
      (∀ a ∈ start, a.index = 0) ∧ t.place = root ∧
      q.Marks settings.limits.marks settings.alternativeMark s.nextMark t := by
  have halike : s.pattern.Alike q := ⟨hs.size, hs.get Node.given fun _ => rfl⟩
  rw [program_eq, halike.outline] at hok
  have hyield : Uses q s.nextMark 1 (emit Template.yieldThread []) := .of_markFree (by decide)
  have hreport : Uses q s.nextMark 1 (emit Template.reportMatch []) := .of_markFree (by decide)
  have hstart : Uses q s.nextMark rootMarks (searchStart root) := uses_searchStart
  have hroot : Uses q s.nextMark
      (q.markings settings.limits.marks settings.alternativeMark s.nextMark root)
      ((q.outline root).assemble settings) := h.uses .refl _
  have hall := Uses.inSequence (.cons hstart (.cons hroot (.cons hyield (.cons hreport .nil))))
  obtain ⟨hs', -, hcode⟩ := hall s _ _ hs rfl hok
  simp only [List.prod_cons, List.prod_nil, mul_one, Language.mem_mul] at hcode
  obtain ⟨start, hstart, _, ⟨t, hplace, hmarks, rfl⟩, heq⟩ := hcode
  exact ⟨hs', start, t, heq.symm, hstart, hplace, hmarks⟩

/-! ## Patterns with marks -/

theorem Tree.noteGuards_same {limits : Limits} {count : Nat} (h : p.Tree root)
    (hok : noteGuards root limits p = .ok count q) : q.SameUpTo Node.unguarded p := by
  obtain ⟨-, rfl⟩ := noteGuards_ok hok
  refine ⟨size_updateEach, fun i => ?_⟩
  rw [h.node_giveGuards]
  split
  · rfl
  · rfl

theorem mark_noteStart (i : Nat) : ((p.noteStart root).node i).mark = (p.node i).mark := by
  rw [noteStart]
  split
  · rw [updateAttributes, node_update]
    split <;> rfl
  · rw [updateAttributes, node_update]
    split <;> rfl
  · rfl

theorem Prepared.captures_eq (h : q.Prepared p) : q.captures root = p.captures root := by
  funext i
  have hgroup : ((q.node i).kind == .group) = ((p.node i).kind == .group) :=
    Bool.eq_iff_iff.2 (by rw [beq_iff_eq, beq_iff_eq]; exact h.kind_eq (by simp))
  have huncaptured : (q.node i).attributes.uncaptured = (p.node i).attributes.uncaptured :=
    h.get (·.attributes.uncaptured) (fun _ => rfl) i
  have hlookahead : (q.node i).attributes.lookahead = (p.node i).attributes.lookahead :=
    h.get (·.attributes.lookahead) (fun _ => rfl) i
  simp only [captures, hgroup, huncaptured, hlookahead]

theorem Prepared.capturing_eq (h : q.Prepared p) : q.capturing root = p.capturing root := by
  rw [capturing, capturing, h.captures_eq, outline_of_same h.size h.children]

theorem Tree.numbered_of_ok (h : p.Tree root) (hfresh : p.Unmarked root) {indexAlternatives : Bool}
    {limits : Limits} {numbering : Numbering}
    (hok : number root indexAlternatives limits p = .ok numbering q) :
    p.Numbered root indexAlternatives limits numbering q := by
  have hnot : ∀ e, ¬ p.NumberingFails root indexAlternatives limits e := by
    intro e he
    obtain ⟨q', herror⟩ := h.number_error hfresh he
    cases hok.symm.trans herror
  obtain ⟨numbering', q', hok', hnumbered⟩ := h.number_ok hfresh hnot
  obtain ⟨rfl, rfl⟩ := EStateM.Result.ok.inj (hok.symm.trans hok')
  exact hnumbered

/-- A pattern `q` is like `p`, and its groups that capture have the marks of the numbering. -/
structure Marked (p : Pattern) (root : Nat) (numbering : Numbering) (limits : Limits) (q : Pattern) :
    Prop where
  children : ∀ i, (q.node i).children = (p.node i).children
  kind : ∀ i k, (∀ a, k ≠ .action a) → ((q.node i).kind = k ↔ (p.node i).kind = k)
  isLazy : ∀ i, (q.node i).attributes.lazy = (p.node i).attributes.lazy
  lookahead : ∀ i, (q.node i).attributes.lookahead = (p.node i).attributes.lookahead
  mark : ∀ i, p.Reaches root i → ∀ k, (q.node i).mark = some k ↔ (p.capturing root)[k]? = some i
  groupCount_le : numbering.groupCount ≤ limits.marks
  capturing_le : (p.capturing root).length ≤ numbering.groupCount
  alternative_lt : ∀ k, numbering.alternativeMark = some k → k < numbering.groupCount

theorem Tree.marked_of_number (h : p.Tree root) (hfresh : p.Unmarked root) {indexAlternatives : Bool}
    {limits : Limits} {numbering : Numbering}
    (hok : number root indexAlternatives limits (p.noteStart root) = .ok numbering q)
    (hsame : p'.SameUpTo Node.unguarded q) : p.Marked root numbering limits p' := by
  have hstart : (p.noteStart root).Prepared p := noteStart_same
  have hprepared : q.Prepared p := (number_same hok).trans hstart
  have hnumbered := (hstart.tree h).numbered_of_ok
    (fun i hi => (mark_noteStart i).trans (hfresh i (hstart.reaches ▸ hi))) hok
  have hcapturing : (p.noteStart root).capturing root = p.capturing root := hstart.capturing_eq
  have hgroups := hnumbered.groupCount
  have halternative := hnumbered.alternativeMark
  rw [hcapturing] at hgroups halternative
  refine ⟨fun i => ?_, fun i k hk => ?_, fun i => ?_, fun i => ?_, fun i hi k => ?_, ?_, ?_, ?_⟩
  · exact (hsame.get Node.children (fun _ => rfl) i).trans (hprepared.children i)
  · have hkind : (p'.node i).kind = (q.node i).kind := hsame.get Node.kind (fun _ => rfl) i
    rw [hkind]
    exact hprepared.kind_eq hk
  · exact (hsame.get (·.attributes.lazy) (fun _ => rfl) i).trans
      (hprepared.get (·.attributes.lazy) (fun _ => rfl) i)
  · exact (hsame.get (·.attributes.lookahead) (fun _ => rfl) i).trans
      (hprepared.get (·.attributes.lookahead) (fun _ => rfl) i)
  · have hmark : (p'.node i).mark = (q.node i).mark := hsame.get Node.mark (fun _ => rfl) i
    rw [hmark, hnumbered.mark i (hstart.reaches ▸ hi), hcapturing]
  · rw [hnumbered.groupCount]
    exact hnumbered.room
  · rw [hgroups]
    exact Nat.le_add_right _ _
  · intro k hk
    rw [halternative] at hk
    rw [hgroups]
    cases indexAlternatives with
    | false => cases hk
    | true =>
      obtain rfl := Option.some.inj hk
      exact Nat.lt_succ_self _

namespace Marked

variable {numbering : Numbering} {limits : Limits}

theorem reaches (h : p.Marked root numbering limits q) : q.Reaches = p.Reaches :=
  reaches_of_same h.children

theorem groupCount_pos (h : p.Marked root numbering limits q) (htree : p.Tree root) :
    0 < numbering.groupCount :=
  Nat.lt_of_lt_of_le (List.getElem?_eq_some_iff.1 htree.capturing_zero).1 h.capturing_le

theorem lt_groupCount (h : p.Marked root numbering limits q) (hj : p.Reaches root j)
    (hmark : (q.node j).mark = some mark) : mark < numbering.groupCount := by
  have hplace := (h.mark j hj mark).1 hmark
  exact Nat.lt_of_lt_of_le (List.getElem?_eq_some_iff.1 hplace).1 h.capturing_le

/-- Where the marks from the group count on are free, the ones that are used come before the next one, or
they have been free. -/
theorem lt_or_free {index : Int} (h : p.Marked root numbering limits q) (ht : p.Reaches root t.place)
    (horigin : q.Origin limits.marks numbering.alternativeMark next t index) :
    ∃ m : Nat, index = m ∧ (m < numbering.groupCount ∨ next ≤ m ∧ m < limits.marks) := by
  cases horigin with
  | @captured j m hj hmark hindex =>
    rw [h.reaches] at hj
    exact ⟨m, hindex, .inl (h.lt_groupCount (ht.trans hj) hmark)⟩
  | @alternative m hmark hindex => exact ⟨m, hindex, .inl (h.alternative_lt m hmark)⟩
  | @own u m hu howns hfree hroom hindex => exact ⟨m, hindex, .inr ⟨hfree, hroom⟩⟩

end Marked

/-- The instruction that opens a group with a mark of its own. -/
def ownStart (p : Pattern) (i mark : Nat) : Instruction :=
  ⟨if (p.node i).attributes.lazy then Opcode.setContext else Opcode.markStart, mark, 0, false⟩

/-- The instruction that closes it. -/
def ownEnd (p : Pattern) (i mark : Nat) : Instruction :=
  ⟨if (p.node i).attributes.lookahead then Opcode.resetToMark else Opcode.markEnd, mark, 0, false⟩

theorem openingMarks_own (hmark : mark ≠ 0) :
    openingMarks (p.node i).attributes.lazy (some mark) = [p.ownStart i mark] := by
  rw [openingMarks, if_pos hmark, ownStart]
  split <;> rfl

theorem closingMarks_own :
    closingMarks (p.node i).attributes.lookahead (some mark) = [p.ownEnd i mark] := by
  rw [closingMarks, ownEnd]
  split <;> rfl

/-- A mark that a group has taken for itself: it is used to open the group and to close it, and nothing in
the group uses it. It is not the mark of a group that captures, and not the one for alternatives. -/
structure OwnMark (p : Pattern) (root : Nat) (alternativeMark : Option Nat) (u : Nesting) (mark : Nat) :
    Prop where
  used : u = .node u.place [p.ownStart u.place mark] u.parts [p.ownEnd u.place mark]
  unused : ∀ a ∈ Nesting.codeList u.parts, a.index ≠ mark
  not_captured : ∀ j, p.Reaches root j → (p.node j).mark ≠ some mark
  not_alternative : alternativeMark ≠ some mark

theorem OwnMark.start_mem (h : p.OwnMark root alternativeMark u mark) :
    p.ownStart u.place mark ∈ u.code := by
  have hcode := congrArg Nesting.code h.used
  rw [hcode, Nesting.code]
  simp

/-- A group in the group has another mark. -/
theorem OwnMark.ne_of_part {v w : Nesting} {mark' : Nat} (hu : p.OwnMark root alternativeMark u mark)
    (hv : p.OwnMark root alternativeMark v mark') (hw : w ∈ u.parts) (hwithin : v.Within w) :
    mark' ≠ mark := by
  intro heq
  have hstart := Nesting.mem_codeList.2 ⟨w, hw, hwithin.mem_code hv.start_mem⟩
  exact hu.unused _ hstart (congrArg Nat.cast heq)

/-- A group that takes the next mark has it for itself. -/
theorem Marked.ownMark {numbering : Numbering} {limits : Limits} (h : p.Marked root numbering limits q)
    (hpos : 0 < numbering.groupCount) (hnext : numbering.groupCount ≤ next) (hu : p.Reaches root u.place)
    (hmarks : q.Marks limits.marks numbering.alternativeMark next u) (howns : q.ownsMark u.place = true) :
    q.OwnMark root numbering.alternativeMark u next := by
  obtain ⟨parts, heq, hplaces, hparts⟩ := hmarks.group_of_owns howns
  rw [openingMarks_own (by omega), closingMarks_own] at heq
  have hu' : u.parts = parts := congrArg Nesting.parts heq
  refine ⟨hu' ▸ heq, fun a ha hindex => ?_, fun j hj hmark => ?_, fun hmark => ?_⟩
  · rw [hu'] at ha
    obtain ⟨v, hv, hcode⟩ := Nesting.mem_codeList.1 ha
    have hchild : p.Child u.place v.place := by
      have hchild := child_of_mem_parts hplaces hv
      rwa [child_of_same h.children] at hchild
    obtain ⟨m, hm, hlt | ⟨hle, -⟩⟩ := h.lt_or_free (hu.tail hchild) ((hparts v hv).origin hcode)
    · omega
    · omega
  · rw [h.reaches] at hj
    have hlt := h.lt_groupCount hj hmark
    omega
  · have hlt := h.alternative_lt _ hmark
    omega

/-! ## Marks of programs -/

section Build

variable {options : CompileOptions} {limits : Limits} {c : AssembledProgram}

/-- The marks of a program: that of the root at the start, and those of the nodes. -/
theorem Tree.build_ok (h : p.Tree root) (hroot : p.root = some root) (hfresh : p.Unmarked root)
    (hok : p.build options limits = .ok c p') : p.Marked root c.numbering limits p' ∧
      ∃ start t, c.code.marks = start ++ t.code ∧ (∀ a ∈ start, a.index = 0) ∧ t.place = root ∧
        p'.Marks limits.marks c.numbering.alternativeMark c.numbering.groupCount t := by
  obtain ⟨root', guardCount, q₁, q₂, hroot', hnumber, hguards, hprogram, -⟩ := Pattern.build_ok hok
  obtain rfl : root = root' := Option.some.inj (hroot.symm.trans hroot')
  obtain ⟨-, s, hassembled, rfl⟩ := assembleProgram_ok hprogram
  have hprepared : q₁.Prepared p := (number_same hnumber).trans noteStart_same
  have hnoted : q₂.Alike q₁ := keeps_noteGuards _ _ _ hguards
  have htree : q₂.Tree root := hnoted.tree (hprepared.tree h)
  obtain ⟨hsame, -⟩ := htree.program_marks (.refl _) hassembled
  -- the marks are those of the pattern as it has been left
  have halike : s.pattern.Alike q₂ := ⟨hsame.size, hsame.get Node.given fun _ => rfl⟩
  obtain ⟨-, hmarks⟩ := (halike.tree htree).program_marks hsame.symm hassembled
  refine ⟨h.marked_of_number hfresh hnumber ?_, hmarks⟩
  have hunguarded : s.pattern.SameUpTo Node.unguarded q₂ :=
    ⟨hsame.size, hsame.get Node.unguarded fun _ => rfl⟩
  exact hunguarded.trans ((hprepared.tree h).noteGuards_same hguards)

/-- The marks of a program are below the limit. A lookahead or a lazy group that does not capture has a mark
of its own, which nothing in the group uses. -/
theorem build_marks (h : p.Tree root) (hroot : p.root = some root) (hfresh : p.Unmarked root)
    (hok : p.build options limits = .ok c p') :
    (∀ a ∈ c.code, Opcode.usesMark a.opcode = true → 0 ≤ a.index ∧ a.index < limits.marks) ∧
    (∀ i, p.Reaches root i → ∀ k, (p'.node i).mark = some k ↔ (p.capturing root)[k]? = some i) ∧
    ∃ start t, c.code.marks = start ++ t.code ∧ (∀ a ∈ start, a.index = 0) ∧ t.place = root ∧
      p'.Marks limits.marks c.numbering.alternativeMark c.numbering.groupCount t ∧
      ∀ u, u.Within t → p'.ownsMark u.place = true →
        ∃ mark, p'.OwnMark root c.numbering.alternativeMark u mark ∧
          ∀ w ∈ u.parts, ∀ v, v.Within w → p'.ownsMark v.place = true →
            ∃ mark', p'.OwnMark root c.numbering.alternativeMark v mark' ∧ mark' ≠ mark := by
  obtain ⟨hmarked, start, t, hcode, hstart, hplace, hmarks⟩ := h.build_ok hroot hfresh hok
  have hpos := hmarked.groupCount_pos h
  have hown : ∀ u, u.Within t → p'.ownsMark u.place = true →
      ∃ mark, p'.OwnMark root c.numbering.alternativeMark u mark := by
    intro u hu howns
    obtain ⟨n, hnext, hu', hreaches⟩ := hmarks.within hu howns
    rw [hplace, hmarked.reaches] at hreaches
    exact ⟨n, hmarked.ownMark hpos hnext hreaches hu' howns⟩
  refine ⟨fun a ha huses => ?_, hmarked.mark, start, t, hcode, hstart, hplace, hmarks, fun u hu howns => ?_⟩
  · have hle := hmarked.groupCount_le
    have hmem : a ∈ start ++ t.code := hcode ▸ Code.mem_marks.2 ⟨ha, huses⟩
    rcases List.mem_append.1 hmem with ha | ha
    · have hzero := hstart a ha
      omega
    · obtain ⟨m, hm, hlt⟩ := hmarked.lt_or_free (hplace ▸ .refl) (hmarks.origin ha)
      omega
  · obtain ⟨mark, hmark⟩ := hown u hu howns
    refine ⟨mark, hmark, fun w hw v hv howns' => ?_⟩
    obtain ⟨mark', hmark'⟩ := hown v ((hv.trans (.of_mem_parts hw)).trans hu) howns'
    exact ⟨mark', hmark', hmark.ne_of_part hmark' hw hv⟩

end Build

/-- A lazy group in a lookahead in a group that captures, and then a lookahead twice. -/
def nestedLookaheads : Pattern where
  nodes := #[
    { kind := .group, children := [1, 5] },
    { kind := .group, children := [2] },
    { kind := .group, attributes := { lookahead := true }, children := [3] },
    { kind := .group, attributes := { lazy := true, uncaptured := true }, children := [4] },
    { kind := .charClass 10 },
    { kind := .repetition 2 (some 2), children := [6] },
    { kind := .group, attributes := { lookahead := true }, children := [7] },
    { kind := .charClass 11 }]
  root := some 0

/-- `nestedLookaheads` with two marks. -/
def nestedLookaheadsMarked : Pattern :=
  (nestedLookaheads.update 0 ({ · with mark := some 0 })).update 1 ({ · with mark := some 1 })

open Opcode in
/-- The program of `nestedLookaheads`. Both lookaheads use mark 3, and the lazy group uses mark 4. -/
def nestedLookaheadsProgram : AssembledProgram where
  code :=
    [ ⟨markStart, 0, 0, false⟩, ⟨markStart, 1, 0, false⟩,
      ⟨markStart, 3, 0, false⟩, ⟨setContext, 4, 0, false⟩,
      ⟨character, 0, 10, false⟩,
      Code.forkTo 5 6 true, ⟨markEnd, 4, 0, false⟩, ⟨resetToMark, 3, 0, false⟩,
      Code.forkTo 8 9 true, ⟨markEnd, 1, 0, false⟩,
      Code.setCount 0 2,
      ⟨markStart, 3, 0, false⟩, ⟨character, 0, 11, false⟩, ⟨resetToMark, 3, 0, false⟩,
      Code.forkTo 14 15 true,
      Code.countDown 0 15 11,
      Code.forkTo 16 17 true, ⟨markEnd, 0, 0, false⟩,
      Code.forkTo 18 19 true, ⟨report, 0, 0, true⟩ ]
  start := ⟨EntryPoint.reservedMatchFlag, 0, 3, 0, 1, 0, 0,
    [0xFFFFFFFC, 0xFFFFFFFD, 0xFFFFFFFF, 0xFFFFFFFF, 0xFFFFFFFF]⟩
  numbering :=
    { groupCount := 3
      names := []
      endOrder := [(1, 0)]
      backrefMask := 0
      subMasks := #[0xFFFFFFFC, 0xFFFFFFFD, 0xFFFFFFFF, 0xFFFFFFFF, 0xFFFFFFFF]
      alternativeMark := some 2 }

/-- The two groups and the alternatives have the marks 0 to 2, and so marks 3 and 4 are taken. -/
theorem build_marks_nestedLookaheads :
    nestedLookaheads.Tree 0 ∧ nestedLookaheads.root = some 0 ∧ nestedLookaheads.Unmarked 0 ∧
    nestedLookaheads.build { indexAlternatives := true } { maxMarkPairs := 5 } =
      .ok nestedLookaheadsProgram nestedLookaheadsMarked ∧
    ∃ start t, nestedLookaheadsProgram.code.marks = start ++ t.code ∧ (∀ a ∈ start, a.index = 0) ∧
      t.place = 0 ∧ nestedLookaheadsMarked.Marks 5 (some 2) 3 t ∧
      ∀ u, u.Within t → nestedLookaheadsMarked.ownsMark u.place = true →
        ∃ mark, nestedLookaheadsMarked.OwnMark 0 (some 2) u mark ∧
          ∀ w ∈ u.parts, ∀ v, v.Within w → nestedLookaheadsMarked.ownsMark v.place = true →
            ∃ mark', nestedLookaheadsMarked.OwnMark 0 (some 2) v mark' ∧ mark' ≠ mark := by
  have htree : nestedLookaheads.Tree 0 := tree_of_lt (by decide) rfl (by decide) (by decide) (by decide)
  have hfresh : nestedLookaheads.Unmarked 0 := htree.unmarked (by decide)
  have hbuild : nestedLookaheads.build { indexAlternatives := true } { maxMarkPairs := 5 } =
      .ok nestedLookaheadsProgram nestedLookaheadsMarked := by decide +kernel
  exact ⟨htree, rfl, hfresh, hbuild, (build_marks htree rfl hfresh hbuild).2.2⟩

end Pattern
end ByteMatch
