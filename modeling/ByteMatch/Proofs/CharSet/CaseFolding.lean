import Mathlib.Data.List.Nodup
import ByteMatch.Proofs.CharSet.Combination

/-!
# ByteMatch.Proofs.CharSet.CaseFolding

A character with its other cases, for any table of cases. The table need not consist of cycles: from a
character it may lead into a cycle that the character does not belong to, and it may end.

* `CaseFolding.after`: the sequence of the characters that follow a character in the table.
* `CaseFolding.Trail`: what is known of the characters seen so far. Each of them but the last one is the
  key of an entry, so that there are not more of them than entries before the table ends or leads back.
* `CaseFolding.follow_spec`: following the table ends, and has then met all the sequence.
* `CharSet.ofCased_exact`: the set of the character and its other cases accepts the sequence, as far as the
  encoding has it.
-/

namespace ByteMatch
namespace CaseFolding

variable {f : CaseFolding} {start c d : Char} {seen : List Char}

/-- The character that is `n` places after `c`, if the table does not end before it. -/
def after (f : CaseFolding) (c : Char) : Nat → Option Char
  | 0 => some c
  | n + 1 => (f.after c n).bind f.next?

/-- A step along the table from the last of the seen characters. It is the last step if there is no next
character, or if it has been seen. -/
def visit (f : CaseFolding) : Char × List Char → ForInStep (Char × List Char)
  | (c, seen) =>
    match f.next? c with
    | none => .done (c, seen)
    | some d => if d ∈ seen then .done (c, seen) else .yield (d, d :: seen)

/-- Without a bound on its steps, following the table from `c` ends, and the other characters are those that
have been seen by then. -/
def FollowEnds (f : CaseFolding) (c : Char) : Prop :=
  ∃ last, Loop.Ends f.visit (c, [c]) (last, (f.others c).reverse ++ [c])

theorem mem_keys_of_next? (h : f.next? c = some d) : c ∈ f.entries.map (·.1) := by
  obtain ⟨entry, hentry, -⟩ := Option.map_eq_some_iff.1 h
  have hkey := List.find?_some hentry
  have hmem := List.mem_reverse.1 (List.mem_of_find?_eq_some hentry)
  exact List.mem_map.2 ⟨entry, hmem, of_decide_eq_true hkey⟩

/-- The characters that have been seen on the way from `start` to `c`. -/
structure Trail (f : CaseFolding) (start c : Char) (seen : List Char) : Prop where
  start_mem : start ∈ seen
  mem : c ∈ seen
  nodup : seen.Nodup
  reached : ∀ x ∈ seen, ∃ n, f.after start n = some x
  passed : ∀ x ∈ seen, x ≠ c → ∃ y ∈ seen, f.next? x = some y

namespace Trail

theorem single (f : CaseFolding) (c : Char) : f.Trail c c [c] where
  start_mem := List.mem_singleton_self c
  mem := List.mem_singleton_self c
  nodup := List.nodup_singleton c
  reached _ hx := ⟨0, congrArg some (List.mem_singleton.1 hx).symm⟩
  passed _ hx hne := absurd (List.mem_singleton.1 hx) hne

theorem next (h : f.Trail start c seen) (hd : f.next? c = some d) (hnew : d ∉ seen) :
    f.Trail start d (d :: seen) where
  start_mem := List.mem_cons_of_mem d h.start_mem
  mem := List.mem_cons_self
  nodup := List.nodup_cons.2 ⟨hnew, h.nodup⟩
  reached x hx := by
    cases List.mem_cons.1 hx with
    | inl heq =>
      obtain ⟨n, hn⟩ := h.reached c h.mem
      exact ⟨n + 1, by rw [after, hn, Option.bind_some, hd, heq]⟩
    | inr hold => exact h.reached x hold
  passed x hx hne := by
    have hold := (List.mem_cons.1 hx).resolve_left hne
    by_cases heq : x = c
    · exact ⟨d, List.mem_cons_self, heq ▸ hd⟩
    · obtain ⟨y, hy, hnext⟩ := h.passed x hold heq
      exact ⟨y, List.mem_cons_of_mem d hy, hnext⟩

/-- Where the table goes on, all seen characters are keys of different entries. -/
theorem length_le (h : f.Trail start c seen) (hd : f.next? c = some d) :
    seen.length ≤ f.entries.length := by
  have hkeys : seen ⊆ f.entries.map (·.1) := by
    intro x hx
    by_cases heq : x = c
    · exact mem_keys_of_next? (heq ▸ hd)
    · obtain ⟨y, -, hnext⟩ := h.passed x hx heq
      exact mem_keys_of_next? hnext
  calc seen.length ≤ (f.entries.map (·.1)).length := (h.nodup.subperm hkeys).length_le
    _ = f.entries.length := List.length_map _

/-- Where the table ends or leads back, all the sequence has been seen. -/
theorem mem_iff (h : f.Trail start c seen) (hend : ∀ d, f.next? c = some d → d ∈ seen) (x : Char) :
    x ∈ seen ↔ ∃ n, f.after start n = some x := by
  refine ⟨h.reached x, ?_⟩
  rintro ⟨n, hn⟩
  induction n generalizing x with
  | zero => exact Option.some.inj hn ▸ h.start_mem
  | succ n ih =>
    obtain ⟨y, hy, hnext⟩ := Option.bind_eq_some_iff.1 hn
    by_cases heq : y = c
    · exact hend x (heq ▸ hnext)
    · obtain ⟨z, hz, hnext'⟩ := h.passed y (ih y hy) heq
      exact Option.some.inj (hnext.symm.trans hnext') ▸ hz

/-- Where the table ends or leads back, following it is over. -/
theorem finished (h : f.Trail start c seen) (hend : ∀ d, f.next? c = some d → d ∈ seen) :
    (∃ last, Loop.Ends f.visit (c, seen) (last, seen)) ∧
      ∀ x, x ∈ seen ↔ ∃ n, f.after start n = some x := by
  refine ⟨⟨c, .done trivial ?_⟩, h.mem_iff hend⟩
  rw [visit]
  cases hnext : f.next? c with
  | none => rfl
  | some d => exact if_pos (hend d hnext)

end Trail

/-- The bound on the steps is not reached: as long as there are steps to make, each of them uses an entry
of its own. -/
theorem follow_spec {steps : Nat} (h : f.Trail start c seen)
    (hsteps : f.entries.length < steps + seen.length) :
    (∃ last, Loop.Ends f.visit (c, seen) (last, (f.follow steps c seen).reverse ++ seen)) ∧
      ∀ x, x ∈ (f.follow steps c seen).reverse ++ seen ↔ ∃ n, f.after start n = some x := by
  induction steps generalizing c seen with
  | zero =>
    refine h.finished fun d hd => ?_
    have := h.length_le hd
    omega
  | succ steps ih =>
    rw [follow]
    cases hnext : f.next? c with
    | none => exact h.finished fun d hd => by simp [hnext] at hd
    | some d =>
      dsimp only
      split
      · rename_i hseen
        refine h.finished fun d' hd' => ?_
        rw [hnext] at hd'
        exact Option.some.inj hd' ▸ hseen
      · rename_i hnew
        have hlength : f.entries.length < steps + (d :: seen).length := by
          rw [List.length_cons]
          omega
        obtain ⟨⟨last, hends⟩, hmem⟩ := ih (h.next hnext hnew) hlength
        rw [List.reverse_cons, List.append_assoc]
        refine ⟨⟨last, .yield trivial ?_ hends⟩, hmem⟩
        simp only [visit, hnext, if_neg hnew]

theorem others_spec (f : CaseFolding) (c : Char) :
    f.FollowEnds c ∧ ∀ x, x ∈ (f.others c).reverse ++ [c] ↔ ∃ n, f.after c n = some x :=
  follow_spec (.single f c) (by simp)

/-- A character and those that its table has for it are the sequence that starts with it. -/
theorem mem_others (x : Char) : x = c ∨ x ∈ f.others c ↔ ∃ n, f.after c n = some x := by
  rw [← (others_spec f c).2 x, List.mem_append, List.mem_reverse, List.mem_singleton, or_comm]

end CaseFolding

namespace CharSet

variable {e : Encoding} {set : CharSet}

/-- The loops end of the unions that add characters to a set, one after the other. -/
def AddCharsEnd (e : Encoding) : CharSet → List Char → Prop
  | _, [] => True
  | set, d :: ds => CombineEnds set (ofString e (String.singleton d)) ∧
    ∀ next, set.union (ofString e (String.singleton d)) = .ok next → AddCharsEnd e next ds

/-- The loops end that make the set of a character and its other cases. -/
def OfCasedEnds (e : Encoding) (ch : Char) (f : CaseFolding) : Prop :=
  f.FollowEnds ch ∧ AddCharsEnd e (ofString e (String.singleton ch)) (f.others ch)

/-- Characters can be added to a set of their encoding, and the set then accepts them too. -/
theorem addChars_spec (hset : set.WellFormed) (he : set.encoding = e) (ds : List Char) :
    AddCharsEnd e set ds ∧ ∃ whole,
      ds.foldlM (fun set d => set.union (ofString e (String.singleton d))) set = .ok whole ∧
      ∀ w, whole.accepts w = true ↔ set.accepts w = true ∨ ∃ d ∈ ds, e.encode d.toNat = some w := by
  induction ds generalizing set with
  | nil => exact ⟨trivial, set, rfl, fun w => by simp⟩
  | cons d ds ih =>
    have hd := wellFormed_ofString e (String.singleton d)
    obtain ⟨next, hnext⟩ : ∃ next, set.union (ofString e (String.singleton d)) = .ok next :=
      ⟨_, union_eq he⟩
    obtain ⟨hends, whole, hwhole, haccepts⟩ :=
      ih (wellFormed_union hset hd hnext) ((encoding_union hnext).trans he)
    refine ⟨⟨combineEnds hset hd, fun next' hnext' => ?_⟩, whole, ?_, fun w => ?_⟩
    · exact Except.ok.inj (hnext.symm.trans hnext') ▸ hends
    · rw [List.foldlM_cons, hnext]
      exact hwhole
    · rw [haccepts w, accepts_union hset hd hnext, Bool.or_eq_true, accepts_ofString_singleton, or_assoc]
      simp only [List.mem_cons, exists_eq_or_imp]

/-- With any table of cases, the set of a character and its other cases can be made. It accepts what the
encoding has of the sequence that the character starts in the table, and nothing else. -/
theorem ofCased_exact (e : Encoding) (ch : Char) (f : CaseFolding) : OfCasedEnds e ch f ∧
    ∃ c, ofCased e (String.singleton ch) f true = .ok c ∧
      ∀ w, c.accepts w = true ↔ ∃ n d, f.after ch n = some d ∧ e.encode d.toNat = some w := by
  obtain ⟨hends, whole, hwhole, haccepts⟩ :=
    addChars_spec (e := e) (wellFormed_ofString e (String.singleton ch)) rfl (f.others ch)
  refine ⟨⟨(f.others_spec ch).1, hends⟩, whole, ?_, fun w => ?_⟩
  · simp only [ofCased, String.toList_singleton]
    exact hwhole
  · rw [haccepts w, accepts_ofString_singleton]
    constructor
    · rintro (hw | ⟨d, hd, hw⟩)
      · exact ⟨0, ch, rfl, hw⟩
      · obtain ⟨n, hn⟩ := (CaseFolding.mem_others d).1 (.inr hd)
        exact ⟨n, d, hn, hw⟩
    · rintro ⟨n, d, hn, hw⟩
      cases (CaseFolding.mem_others d).2 ⟨n, hn⟩ with
      | inl heq => exact .inl (heq ▸ hw)
      | inr hd => exact .inr ⟨d, hd, hw⟩

-- a table that leads from `x` into a cycle without it
example : CaseFolding.others ⟨[('x', 'a'), ('a', 'A'), ('A', 'a')]⟩ 'x' = ['a', 'A'] := by decide

end CharSet
end ByteMatch
