import ByteMatch.Proofs.Automaton.Trie

/-!
# ByteMatch.Proofs.Automaton.TrieLanguage

What tries accept.

A string that is added below a state changes only what is below that state, so all other strings are
accepted as before.

* `Automaton.Trie.acceptsFrom_cons`: reading one byte.
* `Automaton.Trie.acceptsFrom_descend`: what is added below a child is added below its parent.
* `Automaton.Trie.acceptsFrom_insertBelow`: exactly the string is added.
* `Automaton.Grown.accepts_insertCodePoints`, `Automaton.accepts_chain`: the characters of code points.
-/

namespace ByteMatch
namespace Automaton

variable {a b : Automaton} {p q r next n : Nat} {c : ByteSet} {x y : UInt8} {bytes w : List UInt8}

/-! ## Reading from a state -/

/-- What is accepted from a state depends only on the states below it. -/
theorem acceptsFrom_congr (h : ∀ p, a.Reaches q p → b.state p = a.state p) :
    b.acceptsFrom q w = a.acceptsFrom q w := by
  have hcovers : Covers id a b (a.Reaches q) :=
    { leaf := fun p hp => by rw [id, h p hp]
      step := fun p hp x => by rw [id, h p hp, Option.map_id, id]
      closed := fun p c r hp he => hp.tail ⟨c, he⟩ }
  exact hcovers.acceptsFrom_eq .refl

namespace Trie

theorem acceptsFrom_cons (h : a.Trie) (hw : w ≠ []) : a.acceptsFrom q (x :: w) = true ↔
    ∃ r, a.Edge q (.singleton x) r ∧ a.acceptsFrom r w = true := by
  have hstep : ∀ r, (a.state q).transitions.step? x = some r ↔ a.Edge q (.singleton x) r := by
    intro r
    rw [h.forest.toProper.step?_iff]
    constructor
    · rintro ⟨c, hx, he⟩
      obtain ⟨y, rfl⟩ := h.single_byte q c r he
      rwa [ByteSet.mem_singleton.1 hx]
    · exact fun he => ⟨_, ByteSet.mem_singleton.2 rfl, he⟩
  rw [Automaton.acceptsFrom_cons hw]
  cases hnext : (a.state q).transitions.step? x with
  | none =>
    constructor
    · intro hr
      cases hr
    · rintro ⟨r, he, -⟩
      rw [(hstep r).2 he] at hnext
      cases hnext
  | some next =>
    constructor
    · exact fun hr => ⟨next, (hstep next).1 hnext, hr⟩
    · rintro ⟨r, he, hr⟩
      rw [(hstep r).2 he] at hnext
      obtain rfl := Option.some.inj hnext
      exact hr

/-- A child does not lead back to its parent. -/
theorem not_reaches_parent (h : a.Trie) (he : a.Edge q c next) : ¬ a.Reaches next q := fun hback =>
  h.forest.acyclic q (Relation.TransGen.head' ⟨c, he⟩ hback)

/-- Two children of a state have nothing in common below them. -/
theorem not_reaches_sibling {c' : ByteSet} (h : a.Trie) (he : a.Edge q c next) (he' : a.Edge q c' r)
    (hne : r ≠ next) (hp : a.Reaches r p) : ¬ a.Reaches next p := by
  induction hp with
  | refl =>
    intro hr
    exact h.not_reaches_parent he (h.forest.reaches_parent hr (Ne.symm hne) ⟨c', he'⟩)
  | @tail p' p hp' hchild ih =>
    intro hp
    by_cases heq : next = p
    · subst heq
      obtain rfl := h.forest.child_unique hchild ⟨c, he⟩
      exact h.not_reaches_parent he' hp'
    · exact ih (h.forest.reaches_parent hp heq hchild)

/-! ## Adding below a child -/

/-- If only the states below a child have changed, and a string has been added there, then that string has
been added to the parent after the byte that leads to the child. -/
theorem acceptsFrom_descend (h : a.Trie) (hb : b.Trie) (he : a.Edge q (.singleton x) next)
    (hframe : ∀ p, p < a.size → ¬ a.Reaches next p → b.state p = a.state p) (hbytes : bytes ≠ [])
    (hadded : ∀ w, b.acceptsFrom next w = true ↔ a.acceptsFrom next w = true ∨ w = bytes)
    (w : List UInt8) :
    b.acceptsFrom q w = true ↔ a.acceptsFrom q w = true ∨ w = x :: bytes := by
  have hq : b.state q = a.state q := hframe q (lt_of_edge he) (h.not_reaches_parent he)
  have hedge : ∀ {c r}, b.Edge q c r ↔ a.Edge q c r := by
    intro c r
    rw [Edge, Edge, hq]
  rcases w with - | ⟨y, - | ⟨z, w⟩⟩
  · simp [acceptsFrom]
  · rw [acceptsFrom_singleton, acceptsFrom_singleton, hq]
    refine (or_iff_left fun heq => hbytes ?_).symm
    exact (List.cons.inj heq).2.symm
  · rw [hb.acceptsFrom_cons (by simp), h.acceptsFrom_cons (by simp)]
    have hother : ∀ {y r}, a.Edge q (.singleton y) r → r ≠ next →
        b.acceptsFrom r (z :: w) = a.acceptsFrom r (z :: w) := by
      intro y r hr hne
      refine acceptsFrom_congr fun p hp => hframe p ?_ (h.not_reaches_sibling he hr hne hp)
      exact hp.lt h.target_lt (h.target_lt q _ r hr)
    constructor
    · rintro ⟨r, hr, hw⟩
      have hr' := hedge.1 hr
      by_cases hne : r = next
      · subst hne
        have hlabel := (h.parent_unique q _ q _ r hr' he).2
        rcases (hadded (z :: w)).1 hw with hw | hw
        · exact .inl ⟨r, hr', hw⟩
        · refine .inr ?_
          rw [hw, show y = x from ?_]
          exact ByteSet.mem_singleton.1 (hlabel ▸ ByteSet.mem_singleton.2 rfl)
      · exact .inl ⟨r, hr', by rw [← hother hr' hne]; exact hw⟩
    · rintro (⟨r, hr, hw⟩ | heq)
      · by_cases hne : r = next
        · subst hne
          exact ⟨r, hedge.2 hr, (hadded (z :: w)).2 (.inl hw)⟩
        · exact ⟨r, hedge.2 hr, by rw [hother hr hne]; exact hw⟩
      · obtain ⟨rfl, hw⟩ := List.cons.inj heq
        exact ⟨next, hedge.2 he, (hadded (z :: w)).2 (.inr hw)⟩

/-! ## Adding a string -/

theorem acceptsFrom_addLeaf (h : a.Trie) (hq : q < a.size) (hbut : a.ProductiveBut q) (w : List UInt8) :
    acceptsFrom (a.modify q (·.addLeaf (.singleton x))) q w = true ↔
      a.acceptsFrom q w = true ∨ w = [x] := by
  rcases w with - | ⟨y, - | ⟨z, w⟩⟩
  · simp [acceptsFrom]
  · rw [acceptsFrom_singleton, acceptsFrom_singleton, state_modify_self hq, State.addLeaf, State.completes,
      State.completes, List.cons.injEq, and_iff_left rfl, Option.any_some, ByteSet.contains_iff,
      ByteSet.mem_union, ByteSet.mem_singleton]
    cases (a.state q).leaf with
    | none => simp [ByteSet.not_mem_empty]
    | some leaf => simp [ByteSet.contains_iff]
  · have hb : Trie (a.modify q (·.addLeaf (.singleton x))) :=
      (h.addLeaf hq hbut ⟨x, ByteSet.mem_singleton.2 rfl⟩).toTrie
    rw [hb.acceptsFrom_cons (by simp), h.acceptsFrom_cons (by simp)]
    refine Iff.trans (exists_congr fun r => ?_) (or_iff_left (by simp)).symm
    rw [edge_addLeaf]
    refine and_congr_right fun he => ?_
    rw [acceptsFrom_congr fun p hp => state_modify_ne ?_]
    -- the state with the new leaf is not below its own children
    rintro rfl
    exact h.not_reaches_parent he hp

theorem state_addChild_new (hq : q < a.size) : (a.addChild q c).state a.size = State.hole := by
  rw [Automaton.addChild, state_modify_ne (Nat.ne_of_lt hq), state_push, if_pos rfl]

/-- A new state is the end of nothing yet. -/
theorem acceptsFrom_addChild (h : a.Trie) (hq : q < a.size)
    (hnew : (a.state q).transitions.get? (.singleton x) = none) (hp : p < a.size) :
    (a.addChild q (.singleton x)).acceptsFrom p w = a.acceptsFrom p w := by
  induction w generalizing p with
  | nil => rw [acceptsFrom, acceptsFrom]
  | cons y w ih =>
    cases w with
    | nil =>
      rw [acceptsFrom_singleton, acceptsFrom_singleton, State.completes, leaf_addChild, State.completes]
    | cons z w =>
      rw [Bool.eq_iff_iff, (h.addChild hq hnew).acceptsFrom_cons (by simp),
        h.acceptsFrom_cons (by simp)]
      constructor
      · rintro ⟨r, he, hw⟩
        rcases (edge_addChild hq hnew).1 he with he | ⟨-, -, rfl⟩
        · exact ⟨r, he, by rw [← ih (h.target_lt _ _ _ he), hw]⟩
        · rw [acceptsFrom_of_isHole (by rw [state_addChild_new hq]; rfl)] at hw
          cases hw
      · rintro ⟨r, he, hw⟩
        exact ⟨r, (edge_addChild hq hnew).2 (.inl he), by rw [ih (h.target_lt _ _ _ he), hw]⟩

/-- The states that are not below `q` stay as they are when a string is added there. -/
theorem state_insertBelow (h : a.Trie) (hq : q < a.size) (hbut : a.ProductiveBut q) (hp : p < a.size)
    (hbelow : ¬ a.Reaches q p) : (Automaton.insertBelow a q bytes).state p = a.state p := by
  induction bytes generalizing a q with
  | nil => rfl
  | cons x bytes ih =>
    have hne : q ≠ p := by
      rintro rfl
      exact hbelow .refl
    cases bytes with
    | nil => exact state_modify_ne hne
    | cons y bytes =>
      rw [insertBelow_cons (by simp)]
      cases hget : (a.state q).transitions.get? (.singleton x) with
      | some next =>
        have he : a.Edge q (.singleton x) next := Transitions.get?_eq_some_iff.1 hget
        exact ih h (h.target_lt q _ next he) (hbut.child he) hp fun hreach =>
          hbelow (.head ⟨_, he⟩ hreach)
      | none =>
        have htrie := h.addChild hq hget
        have hbut' := hbut.addChild hq hget
        have hstate : (a.addChild q (.singleton x)).state p = a.state p := by
          rw [Automaton.addChild, state_modify_ne hne, state_push_hole]
        refine Eq.trans (ih htrie lt_size_addChild hbut' (Nat.lt_trans hp lt_size_addChild) ?_) hstate
        intro hreach
        -- the new state leads nowhere
        cases hreach.cases_head with
        | inl heq => omega
        | inr hchild =>
          obtain ⟨r, ⟨c, he⟩, -⟩ := hchild
          rw [Edge, state_addChild_new hq] at he
          cases he

/-- Adding a string below a state adds just that string to what is accepted from there. -/
theorem acceptsFrom_insertBelow (h : a.Trie) (hq : q < a.size) (hbut : a.ProductiveBut q)
    (hbytes : bytes ≠ []) (w : List UInt8) : (Automaton.insertBelow a q bytes).acceptsFrom q w = true ↔
      a.acceptsFrom q w = true ∨ w = bytes := by
  induction bytes generalizing a q w with
  | nil => exact absurd rfl hbytes
  | cons x bytes ih =>
    cases bytes with
    | nil => exact h.acceptsFrom_addLeaf hq hbut w
    | cons y bytes =>
      rw [insertBelow_cons (by simp)]
      cases hget : (a.state q).transitions.get? (.singleton x) with
      | some next =>
        have he : a.Edge q (.singleton x) next := Transitions.get?_eq_some_iff.1 hget
        have hnext : next < a.size := h.target_lt q _ next he
        have hbut' : a.ProductiveBut next := hbut.child he
        exact h.acceptsFrom_descend (h.insertBelow hnext hbut' (by simp)).toTrie he
          (fun p hp hbelow => h.state_insertBelow hnext hbut' hp hbelow) (by simp)
          (fun w => ih h hnext hbut' (by simp) w) w
      | none =>
        have htrie := h.addChild hq hget
        have hbut' := hbut.addChild hq hget
        have hsize : a.size < (a.addChild q (.singleton x)).size := lt_size_addChild
        have he := (edge_addChild hq hget).2 (.inr ⟨rfl, rfl, rfl⟩)
        rw [← h.acceptsFrom_addChild hq hget hq]
        exact htrie.acceptsFrom_descend (htrie.insertBelow hsize hbut' (by simp)).toTrie he
          (fun p hp hbelow => htrie.state_insertBelow hsize hbut' hp hbelow) (by simp)
          (fun w => ih htrie hsize hbut' (by simp) w) w

end Trie

/-! ## Tries that start as a hole -/

theorem accepts_hole (w : List UInt8) : accepts #[State.hole] w = false := acceptsFrom_of_isHole rfl

theorem Grown.accepts_insertBelow (h : a.Grown) (hbytes : bytes ≠ []) (w : List UInt8) :
    (Automaton.insertBelow a 0 bytes).accepts w = true ↔ a.accepts w = true ∨ w = bytes := by
  cases h with
  | inl h =>
    subst h
    exact trie_hole.acceptsFrom_insertBelow (by decide) productiveBut_hole hbytes w
  | inr h =>
    exact h.toTrie.acceptsFrom_insertBelow h.size_pos (fun p hp => .inl (h.productive p hp)) hbytes w

/-- What is accepted after code points have been added is what was accepted before and the characters of
these code points. -/
theorem Grown.accepts_insertCodePoints (h : a.Grown) (e : Encoding) (count first : Nat) (w : List UInt8) :
    (Automaton.insertCodePoints e count first a).accepts w = true ↔
      a.accepts w = true ∨ ∃ n, first ≤ n ∧ n < first + count ∧ e.encode n = some w := by
  induction count generalizing a first with
  | zero =>
    refine (or_iff_left ?_).symm
    rintro ⟨n, hge, hlt, -⟩
    omega
  | succ count ih =>
    -- the first of the code points, or one of the others
    have hsplit : (∃ n, first ≤ n ∧ n < first + (count + 1) ∧ e.encode n = some w) ↔
        e.encode first = some w ∨ ∃ n, first + 1 ≤ n ∧ n < first + 1 + count ∧ e.encode n = some w := by
      constructor
      · rintro ⟨n, hge, hlt, hw⟩
        rcases Nat.eq_or_lt_of_le hge with rfl | hge
        · exact .inl hw
        · exact .inr ⟨n, hge, by omega, hw⟩
      · rintro (hw | ⟨n, hge, hlt, hw⟩)
        · exact ⟨first, Nat.le_refl _, by omega, hw⟩
        · exact ⟨n, by omega, by omega, hw⟩
    rw [Automaton.insertCodePoints, hsplit, ← or_assoc]
    cases hbytes : e.encode first with
    | none =>
      rw [ih h]
      simp
    | some bytes =>
      have hne := Encoding.encode_ne_nil hbytes
      rw [ih (.inr (h.insertBelow hne)), h.accepts_insertBelow hne, Option.some_inj, @eq_comm _ bytes w]

/-- A chain of states accepts one string. -/
theorem accepts_chain (hbytes : bytes ≠ []) (w : List UInt8) :
    accepts (chain 0 bytes).toArray w = true ↔ w = bytes := by
  have hadded := grown_hole.accepts_insertBelow hbytes w
  rwa [insertBelow_hole hbytes, accepts_hole, or_iff_right Bool.false_ne_true] at hadded

end Automaton
end ByteMatch
