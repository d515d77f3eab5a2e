import Mathlib.Data.List.Nodup
import ByteMatch.Automaton.Merge
import ByteMatch.Proofs.Automaton.WellFormed

/-!
# ByteMatch.Proofs.Automaton.Signature

Signatures, and the states that they stand for.

* `Signature.mem_combine`: the label of a destination consists of all bytes that lead there.
* `Merging.mem_targets`: so do the labels that a state gets when its children have been resolved.
* `Signature.Proper`: destinations ascend, labels are disjoint, and nothing is empty.
  `Signature.Proper.eq_of_toState`: such a signature is known by the state that it stands for.
* `Merging.signature_eq`: the signature of a state in a proper automaton.
-/

namespace ByteMatch

variable {x : UInt8} {c code : ByteSet} {d d' dest id q : Nat}

namespace Signature

variable {s s' : Signature} {entries : List (Nat × ByteSet)}

/-- The label of a destination consists of all bytes that lead there. -/
theorem mem_combine : (∃ c, (d, c) ∈ combine dest code entries ∧ x ∈ c) ↔
    (d = dest ∧ x ∈ code) ∨ ∃ c, (d, c) ∈ entries ∧ x ∈ c := by
  induction entries with
  | nil => simp [combine]
  | cons entry rest ih =>
    obtain ⟨e, l⟩ := entry
    rw [combine]
    have hcons : ∀ {y : Nat × ByteSet} {ys : List (Nat × ByteSet)},
        (∃ c, (d, c) ∈ y :: ys ∧ x ∈ c) ↔ (d = y.1 ∧ x ∈ y.2) ∨ ∃ c, (d, c) ∈ ys ∧ x ∈ c := by
      rintro ⟨y, m⟩ ys
      constructor
      · rintro ⟨c, hmem, hx⟩
        rcases List.mem_cons.1 hmem with heq | hmem
        · obtain ⟨rfl, rfl⟩ := Prod.mk.inj heq
          exact .inl ⟨rfl, hx⟩
        · exact .inr ⟨c, hmem, hx⟩
      · rintro (⟨rfl, hx⟩ | ⟨c, hmem, hx⟩)
        · exact ⟨m, by simp, hx⟩
        · exact ⟨c, List.mem_cons_of_mem _ hmem, hx⟩
    split
    · rw [hcons]
    · split
      · rw [hcons, hcons, ih]
        exact or_left_comm
      · rename_i hlt hgt
        obtain rfl : dest = e := by simp only at hlt hgt; omega
        rw [hcons, hcons, ByteSet.mem_union, and_or_left, or_assoc]
        exact or_left_comm

theorem mem_fst_combine (h : d ∈ (combine dest code entries).map (·.1)) :
    d = dest ∨ d ∈ entries.map (·.1) := by
  induction entries with
  | nil => simpa [combine] using h
  | cons entry rest ih =>
    rw [combine] at h
    split at h
    · simpa using h
    · split at h
      · rcases List.mem_cons.1 h with h | h
        · exact .inr (by simp [h])
        · exact (ih h).imp_right (List.mem_cons_of_mem _)
      · exact (List.mem_cons.1 h).imp_right (List.mem_cons_of_mem _)

theorem pairwise_combine (h : (entries.map (·.1)).Pairwise (· < ·)) :
    ((combine dest code entries).map (·.1)).Pairwise (· < ·) := by
  induction entries with
  | nil => simp [combine]
  | cons entry rest ih =>
    obtain ⟨hentry, hrest⟩ := List.pairwise_cons.1 h
    rw [combine]
    split
    · rename_i hlt
      refine List.pairwise_cons.2 ⟨fun y hy => ?_, h⟩
      rcases List.mem_cons.1 hy with rfl | hy
      · exact hlt
      · exact Nat.lt_trans hlt (hentry y hy)
    · split
      · rename_i hgt
        refine List.pairwise_cons.2 ⟨fun y hy => ?_, ih hrest⟩
        rcases mem_fst_combine hy with rfl | hy
        · exact hgt
        · exact hentry y hy
      · rename_i hlt hgt
        obtain rfl : dest = entry.1 := by omega
        exact List.pairwise_cons.2 ⟨hentry, hrest⟩

theorem nonempty_combine (hcode : ∃ x, x ∈ code) (h : ∀ e ∈ entries, ∃ x, x ∈ e.2)
    (e : Nat × ByteSet) (he : e ∈ combine dest code entries) : ∃ x, x ∈ e.2 := by
  induction entries with
  | nil =>
    obtain rfl : e = (dest, code) := by simpa [combine] using he
    exact hcode
  | cons entry rest ih =>
    rw [combine] at he
    split at he
    · rcases List.mem_cons.1 he with rfl | he
      · exact hcode
      · exact h e he
    · split at he
      · rcases List.mem_cons.1 he with rfl | he
        · exact h _ (by simp)
        · exact ih (fun e he => h e (List.mem_cons_of_mem _ he)) he
      · rcases List.mem_cons.1 he with rfl | he
        · obtain ⟨x, hx⟩ := hcode
          exact ⟨x, ByteSet.mem_union.2 (.inr hx)⟩
        · exact h e (List.mem_cons_of_mem _ he)

/-- A signature in which destinations ascend, labels are disjoint, and nothing is empty. -/
structure Proper (s : Signature) : Prop where
  ascending : (s.targets.map (·.1)).Pairwise (· < ·)
  label_nonempty : ∀ e ∈ s.targets, ∃ x, x ∈ e.2
  disjoint : ∀ e ∈ s.targets, ∀ e' ∈ s.targets, ∀ x, x ∈ e.2 → x ∈ e'.2 → e.1 = e'.1
  leaf_nonempty : ∀ leaf, s.leaf = some leaf → ∃ x, x ∈ leaf

theorem Proper.label_unique (h : s.Proper) (he : (d, c) ∈ s.targets) (he' : (d, code) ∈ s.targets) :
    c = code := by
  have hnodup : (s.targets.map (·.1)).Nodup := h.ascending.imp Nat.ne_of_lt
  have heq := List.inj_on_of_nodup_map hnodup he he' rfl
  exact (Prod.mk.inj heq).2

theorem mem_foldl_insert {l : List (ByteSet × Nat)} {t : Transitions} {e : ByteSet × Nat}
    (hnodup : (l.map (·.1)).Nodup) (hnew : ∀ e ∈ t.entries, e.1 ∉ l.map (·.1)) :
    e ∈ (l.foldl (fun t e => t.insert e.1 e.2) t).entries ↔ e ∈ t.entries ∨ e ∈ l := by
  induction l generalizing t with
  | nil => simp
  | cons y l ih =>
    obtain ⟨hy, hl⟩ := List.nodup_cons.1 hnodup
    have hnew' : ∀ e ∈ (t.insert y.1 y.2).entries, e.1 ∉ l.map (·.1) := by
      intro e he
      rcases Transitions.mem_insert.1 he with rfl | ⟨he, -⟩
      · exact hy
      · exact fun hmem => hnew e he (List.mem_cons_of_mem _ hmem)
    have hkept : e ∈ t.entries → e.1 ≠ y.1 := fun he heq => hnew e he (by simp [heq])
    rw [List.foldl_cons, ih hl hnew', Transitions.mem_insert, List.mem_cons]
    constructor
    · rintro ((rfl | ⟨he, -⟩) | he)
      · exact .inr (.inl rfl)
      · exact .inl he
      · exact .inr (.inr he)
    · rintro (he | rfl | he)
      · exact .inl (.inr ⟨he, hkept he⟩)
      · exact .inl (.inl rfl)
      · exact .inr he

theorem Proper.mem_toState (h : s.Proper) :
    (c, d) ∈ s.toState.transitions.entries ↔ (d, c) ∈ s.targets := by
  have hnodup : ((s.targets.map fun t => (t.2, t.1)).map (·.1)).Nodup := by
    have hdest : (s.targets.map (·.1)).Nodup := h.ascending.imp Nat.ne_of_lt
    rw [List.map_map]
    refine List.Nodup.map_on (fun e he e' he' heq => ?_) (List.Nodup.of_map _ hdest)
    obtain ⟨x, hx⟩ := h.label_nonempty e he
    have heq : e.2 = e'.2 := heq
    exact Prod.ext (h.disjoint e he e' he' x hx (heq ▸ hx)) heq
  rw [toState, Transitions.ofList, mem_foldl_insert hnodup (by simp)]
  simp only [Transitions.entries_empty, List.not_mem_nil, false_or, List.mem_map, Prod.mk.injEq]
  constructor
  · rintro ⟨e, he, rfl, rfl⟩
    exact he
  · exact fun he => ⟨_, he, rfl, rfl⟩

theorem Proper.disjoint_toState (h : s.Proper) : s.toState.transitions.Disjoint := by
  rintro ⟨c, d⟩ he ⟨c', d'⟩ he' x hx hx'
  have he := h.mem_toState.1 he
  have he' := h.mem_toState.1 he'
  obtain rfl : d = d' := h.disjoint _ he _ he' x hx hx'
  exact h.label_unique he he'

theorem Proper.eq_of_toState (h : s.Proper) (h' : s'.Proper) (heq : s.toState = s'.toState) :
    s = s' := by
  have hmem : ∀ e, e ∈ s.targets ↔ e ∈ s'.targets := by
    rintro ⟨d, c⟩
    rw [← h.mem_toState, heq, h'.mem_toState]
  have hnodup : s.targets.Nodup := .of_map _ (h.ascending.imp Nat.ne_of_lt)
  have hnodup' : s'.targets.Nodup := .of_map _ (h'.ascending.imp Nat.ne_of_lt)
  have hperm : s.targets.Perm s'.targets := (List.perm_ext_iff_of_nodup hnodup hnodup').2 hmem
  have htargets : s.targets = s'.targets := by
    refine hperm.eq_of_pairwise (fun e e' _ _ hlt hgt => ?_) (List.pairwise_map.1 h.ascending)
      (List.pairwise_map.1 h'.ascending)
    exact absurd hlt (Nat.lt_asymm hgt)
  have hleaf : s.leaf = s'.leaf := congrArg State.leaf heq
  cases s
  cases s'
  simp only at htargets hleaf
  rw [htargets, hleaf]

/-- The row of a signature comes after all destinations. -/
theorem row_le {n : Nat} (hlt : ∀ e ∈ s.targets, e.1 < n) : s.row ≤ n := by
  rw [row]
  cases hlast : s.targets.getLast? with
  | none => exact Nat.zero_le n
  | some e => exact hlt e (List.mem_of_getLast? hlast)

end Signature

namespace Merging

variable {m m' : Merging} {t : Transitions} {a : Automaton}

theorem mem_addTarget {ts : List (Nat × ByteSet)} {e : ByteSet × Nat} :
    (∃ c, (d, c) ∈ m.addTarget ts e ∧ x ∈ c) ↔
      (m.resolution e.2 = .kept d ∧ x ∈ e.1) ∨ ∃ c, (d, c) ∈ ts ∧ x ∈ c := by
  rw [addTarget]
  cases m.resolution e.2 with
  | kept id =>
    rw [Signature.mem_combine]
    refine or_congr_left (and_congr_left fun _ => ?_)
    rw [Resolution.kept.injEq]
    exact eq_comm
  | pending | dropped => simp

/-- What the fold over the transitions of a state has collected. -/
theorem foldl_addTarget {l : List (ByteSet × Nat)} {ts : List (Nat × ByteSet)}
    (hasc : (ts.map (·.1)).Pairwise (· < ·)) (hts : ∀ e ∈ ts, ∃ x, x ∈ e.2)
    (hl : ∀ e ∈ l, ∃ x, x ∈ e.1) :
    ((l.foldl m.addTarget ts).map (·.1)).Pairwise (· < ·) ∧
      (∀ e ∈ l.foldl m.addTarget ts, ∃ x, x ∈ e.2) ∧
      ∀ d x, (∃ c, (d, c) ∈ l.foldl m.addTarget ts ∧ x ∈ c) ↔
        (∃ c, (d, c) ∈ ts ∧ x ∈ c) ∨ ∃ e ∈ l, m.resolution e.2 = .kept d ∧ x ∈ e.1 := by
  induction l generalizing ts with
  | nil => exact ⟨hasc, hts, by simp⟩
  | cons y l ih =>
    have hasc' : ((m.addTarget ts y).map (·.1)).Pairwise (· < ·) := by
      rw [addTarget]
      split
      · exact Signature.pairwise_combine hasc
      · exact hasc
    have hts' : ∀ e ∈ m.addTarget ts y, ∃ x, x ∈ e.2 := by
      rw [addTarget]
      split
      · exact Signature.nonempty_combine (hl y (by simp)) hts
      · exact hts
    obtain ⟨hasc'', hne, hmem⟩ := ih hasc' hts' fun e he => hl e (List.mem_cons_of_mem _ he)
    refine ⟨hasc'', hne, fun d x => ?_⟩
    rw [List.foldl_cons, hmem, mem_addTarget, List.exists_mem_cons_iff, or_assoc, or_left_comm]

variable (hlabel : ∀ e ∈ t.entries, ∃ x, x ∈ e.1)

section Targets

include hlabel

theorem targets_ascending : ((m.targets t).map (·.1)).Pairwise (· < ·) :=
  (foldl_addTarget (by simp) (by simp) hlabel).1

theorem targets_nonempty : ∀ e ∈ m.targets t, ∃ x, x ∈ e.2 :=
  (foldl_addTarget (by simp) (by simp) hlabel).2.1

/-- A byte is in the label of a destination if it leads to a state that has been resolved so. -/
theorem mem_targets : (∃ c, (d, c) ∈ m.targets t ∧ x ∈ c) ↔
    ∃ e ∈ t.entries, m.resolution e.2 = .kept d ∧ x ∈ e.1 := by
  rw [targets, (foldl_addTarget (by simp) (by simp) hlabel).2.2]
  simp

end Targets

/-- Only what has become of the children matters. -/
theorem targets_congr (h : ∀ c d, (c, d) ∈ t.entries → m'.resolution d = m.resolution d) :
    m'.targets t = m.targets t := by
  rw [targets, targets]
  refine List.foldl_ext _ _ _ fun ts e he => ?_
  rw [addTarget, addTarget, h e.1 e.2 he]

theorem signature_congr {s : State}
    (h : ∀ c d, (c, d) ∈ s.transitions.entries → m'.resolution d = m.resolution d) :
    m'.signature s = m.signature s := by
  rw [signature, signature, targets_congr h]

/-- Nothing is left out of the signature of a state in a proper automaton. -/
theorem signature_eq (ha : a.Proper) :
    m.signature (a.state q) = ⟨(a.state q).leaf, m.targets (a.state q).transitions⟩ := by
  have hleaf : (a.state q).leaf.filter (!·.isEmpty) = (a.state q).leaf := by
    cases hl : (a.state q).leaf with
    | none => rfl
    | some leaf =>
      rw [Option.filter_some, ByteSet.isEmpty_eq_false_iff.2 (ha.leaf_nonempty q leaf hl)]
      rfl
  have htargets : (m.targets (a.state q).transitions).filter (!·.2.isEmpty) =
      m.targets (a.state q).transitions := by
    rw [List.filter_eq_self]
    intro e he
    rw [ByteSet.isEmpty_eq_false_iff.2
      (targets_nonempty (fun e he => ha.label_nonempty q e.1 e.2 he) e he)]
    rfl
  rw [signature, hleaf, htargets]

theorem signature_proper (ha : a.Proper) : (m.signature (a.state q)).Proper := by
  have hlabel : ∀ e ∈ (a.state q).transitions.entries, ∃ x, x ∈ e.1 :=
    fun e he => ha.label_nonempty q e.1 e.2 he
  rw [signature_eq ha]
  refine ⟨targets_ascending hlabel, targets_nonempty hlabel, ?_, ha.leaf_nonempty q⟩
  rintro ⟨d, c⟩ he ⟨d', c'⟩ he' x hx hx'
  obtain ⟨⟨l, p⟩, hp, hd, hl⟩ := (mem_targets hlabel).1 ⟨c, he, hx⟩
  obtain ⟨⟨l', p'⟩, hp', hd', hl'⟩ := (mem_targets hlabel).1 ⟨c', he', hx'⟩
  obtain ⟨-, rfl⟩ := ha.edge_unique hp hp' hl hl'
  rw [hd] at hd'
  exact Resolution.kept.inj hd'

end Merging
end ByteMatch
