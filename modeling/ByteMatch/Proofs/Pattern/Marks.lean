import ByteMatch.Proofs.Pattern.Changes
import ByteMatch.Proofs.Pattern.Closings
import ByteMatch.Proofs.Step

/-!
# ByteMatch.Proofs.Pattern.Marks

Marks for groups.
-/

namespace ByteMatch

open Step

namespace Pattern

variable {p q q' : Pattern} {root i j k m mark limit : Nat} {groups : List Nat} {name : String}

/-! ## Marks -/

theorem Acyclic.mem_capturing (h : p.Acyclic root) :
    j ∈ p.capturing root ↔ p.Reaches root j ∧ p.captures root j = true := by
  rw [capturing, List.mem_filter, h.mem_preorder .refl]

/-- The groups with their marks, the first one with `mark`. -/
def giveMarks (p : Pattern) : Nat → List Nat → Pattern :=
  p.updateEach fun mark n => { n with mark := some mark }

/-- The place of the last group with a name. -/
def LastNamed (p : Pattern) (groups : List Nat) (name : String) (k : Nat) : Prop :=
  (∃ g, groups[k]? = some g ∧ (p.node g).name = some name) ∧
    ∀ m g, groups[m]? = some g → (p.node g).name = some name → m ≤ k

theorem lastNamed_cons : p.LastNamed (i :: groups) name k ↔
    (∃ n, k = n + 1 ∧ p.LastNamed groups name n) ∨
      (k = 0 ∧ (p.node i).name = some name ∧ ∀ g ∈ groups, (p.node g).name ≠ some name) := by
  constructor
  · rintro ⟨⟨g, hg, hname⟩, hlast⟩
    cases k with
    | zero =>
      obtain rfl := Option.some.inj hg
      refine .inr ⟨rfl, hname, fun g hg hname => ?_⟩
      obtain ⟨n, hn⟩ := List.mem_iff_getElem?.1 hg
      exact absurd (hlast (n + 1) g hn hname) (by omega)
    | succ n =>
      exact .inl ⟨n, rfl, ⟨g, hg, hname⟩, fun m g hg hname =>
        Nat.le_of_succ_le_succ (hlast (m + 1) g hg hname)⟩
  · rintro (⟨n, rfl, hsome, hlast⟩ | ⟨rfl, hname, hnone⟩)
    · refine ⟨hsome, fun m g hg hname => ?_⟩
      cases m with
      | zero => exact Nat.zero_le _
      | succ m => exact Nat.succ_le_succ (hlast m g hg hname)
    · refine ⟨⟨i, rfl, hname⟩, fun m g hg hname => ?_⟩
      cases m with
      | zero => exact Nat.le_refl _
      | succ m => exact absurd hname (hnone g (List.mem_of_getElem? hg))

theorem exists_lastNamed (h : ∃ g ∈ groups, (p.node g).name = some name) :
    ∃ k, p.LastNamed groups name k := by
  induction groups with
  | nil => exact absurd h.choose_spec.1 List.not_mem_nil
  | cons i rest ih =>
    by_cases hrest : ∃ g ∈ rest, (p.node g).name = some name
    · obtain ⟨k, hk⟩ := ih hrest
      exact ⟨k + 1, lastNamed_cons.2 (.inl ⟨k, rfl, hk⟩)⟩
    · have hi := ((List.exists_mem_cons_iff ..).1 h).resolve_right hrest
      exact ⟨0, lastNamed_cons.2 (.inr ⟨rfl, hi, fun g hg hname => hrest ⟨g, hg, hname⟩⟩)⟩

/-- The mark of the last group with a name, if one group more comes first. -/
theorem exists_lastNamed_cons {s : String} {n : Nat} :
    (∃ k, n = mark + k ∧ p.LastNamed (i :: groups) s k) ↔
      (∃ k, n = mark + 1 + k ∧ p.LastNamed groups s k) ∨
        ((∀ g ∈ groups, (p.node g).name ≠ some s) ∧ (p.node i).name = some s ∧ n = mark) := by
  simp only [lastNamed_cons]
  constructor
  · rintro ⟨k, rfl, ⟨k', rfl, hk⟩ | ⟨rfl, hi, hnone⟩⟩
    · exact .inl ⟨k', by omega, hk⟩
    · exact .inr ⟨hnone, hi, rfl⟩
  · rintro (⟨k, rfl, hk⟩ | ⟨hnone, hi, rfl⟩)
    · exact ⟨k + 1, by omega, .inl ⟨k, rfl, hk⟩⟩
    · exact ⟨0, rfl, .inr ⟨rfl, hi, hnone⟩⟩

theorem name_update_mark {n : Option Nat} :
    ((p.update i ({ · with mark := n })).node j).name = (p.node j).name := by
  rw [node_update]
  split <;> rfl

theorem lastNamed_update_mark {n : Option Nat} :
    (p.update i ({ · with mark := n })).LastNamed groups name k ↔ p.LastNamed groups name k := by
  simp only [LastNamed, name_update_mark]

theorem lookup_replaced {names : List (String × Nat)} {s : String} :
    ((name, mark) :: names.filter (·.1 != name)).lookup s =
      if s = name then some mark else names.lookup s := by
  rw [List.lookup_cons]
  by_cases hs : s = name
  · rw [if_pos hs, hs, beq_self_eq_true]
  · rw [if_neg hs, beq_false_of_ne hs]
    simp only
    induction names with
    | nil => rfl
    | cons e rest ih =>
      rw [List.filter_cons]
      split
      · rw [List.lookup_cons, List.lookup_cons, ih]
      · rename_i he
        have he : e.1 = name := by simpa using he
        rw [ih, List.lookup_cons, he, beq_false_of_ne hs]

theorem assignMarks_ok (names : List (String × Nat)) (hlt : ∀ i ∈ groups, i < p.nodes.size)
    (hroom : mark + groups.length ≤ limit) :
    ∃ names', assignMarks limit mark names groups p = .ok names' (p.giveMarks mark groups) ∧
      ∀ s n, names'.lookup s = some n ↔ (∃ k, n = mark + k ∧ p.LastNamed groups s k) ∨
        ((∀ g ∈ groups, (p.node g).name ≠ some s) ∧ names.lookup s = some n) := by
  induction groups generalizing p mark names with
  | nil =>
    refine ⟨names, rfl, fun s n => ?_⟩
    simp [LastNamed]
  | cons i rest ih =>
    rw [List.length_cons] at hroom
    have hrest : ∀ names, ∃ names', assignMarks limit (mark + 1) names rest
        (p.update i ({ · with mark := some mark })) = .ok names' (p.giveMarks mark (i :: rest)) ∧
        ∀ s n, names'.lookup s = some n ↔ (∃ k, n = mark + 1 + k ∧ p.LastNamed rest s k) ∨
          ((∀ g ∈ rest, (p.node g).name ≠ some s) ∧ names.lookup s = some n) := by
      intro names
      obtain ⟨names', hok, hlookup⟩ := ih (p := p.update i ({ · with mark := some mark })) names
        (fun j hj => by rw [size_update]; exact hlt j (List.mem_cons_of_mem _ hj))
        (show mark + 1 + rest.length ≤ limit by omega)
      refine ⟨names', hok, fun s n => ?_⟩
      rw [hlookup]
      simp only [name_update_mark, lastNamed_update_mark]
    rw [assignMarks, if_neg (by omega)]
    beta_reduce
    rw [bind_modify, bind_get, name_update_mark]
    cases hi : (p.node i).name with
    | none =>
      obtain ⟨names', hok, hlookup⟩ := hrest names
      refine ⟨names', hok, fun s n => ?_⟩
      rw [hlookup, exists_lastNamed_cons, List.forall_mem_cons, hi]
      simp
    | some name =>
      obtain ⟨names', hok, hlookup⟩ := hrest ((name, mark) :: names.filter (·.1 != name))
      refine ⟨names', hok, fun s n => ?_⟩
      rw [hlookup, exists_lastNamed_cons, List.forall_mem_cons, hi, lookup_replaced]
      by_cases hs : s = name
      · simp [hs, eq_comm]
      · simp [hs, Ne.symm hs]

theorem assignMarks_error (names : List (String × Nat)) (hmark : mark ≤ limit)
    (hroom : limit < mark + groups.length) :
    ∃ q, assignMarks limit mark names groups p = .error (.tooManyGroups limit) q := by
  induction groups generalizing p mark names with
  | nil => exact absurd hroom (by simpa using hmark)
  | cons i rest ih =>
    rw [List.length_cons] at hroom
    rw [assignMarks]
    by_cases hfull : limit ≤ mark
    · rw [if_pos hfull]
      exact ⟨p, bind_throw⟩
    · rw [if_neg hfull]
      beta_reduce
      rw [bind_modify, bind_get]
      cases ((p.update i ({ · with mark := some mark })).node i).name with
      | none => exact ih _ (by omega) (by omega)
      | some name => exact ih _ (by omega) (by omega)

end Pattern
end ByteMatch
