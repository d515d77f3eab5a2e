import ByteMatch.Automaton.Transitions
import ByteMatch.Proofs.ByteSet.Membership

/-!
# ByteMatch.Proofs.Automaton.Transitions

The transitions of a state seen through their entries.

* `Transitions.ext_mem`: transitions with the same entries are equal, as labels are kept in order.
* `Transitions.mem_insert`, `Transitions.mem_erase`, `Transitions.mem_mapDest`: the operations.
* `Transitions.step?_eq_some_iff`: with disjoint labels, a byte leads where a label with it does.
* `Transitions.Combined`: one label for each destination. Such transitions are known by their steps.
* `Transitions.mapDest_consecutive`: labels with new destinations, and back to the old ones.
-/

namespace ByteMatch
namespace Transitions

variable {t u : Transitions} {c c' : ByteSet} {d d' : Nat} {b : UInt8} {e : ByteSet × Nat}

/-- A byte is in at most one label. -/
def Disjoint (t : Transitions) : Prop :=
  ∀ e ∈ t.entries, ∀ f ∈ t.entries, ∀ b, b ∈ e.1 → b ∈ f.1 → e.1 = f.1

@[simp] theorem entries_empty : (∅ : Transitions).entries = [] := rfl

theorem isEmpty_iff : t.isEmpty = true ↔ t.entries = [] := List.isEmpty_iff

theorem isEmpty_eq_false_iff : t.isEmpty = false ↔ ∃ e, e ∈ t.entries := by
  rw [isEmpty, List.isEmpty_eq_false_iff_exists_mem]

theorem eq_empty_of_isEmpty (h : t.isEmpty = true) : t = ∅ :=
  Transitions.ext (isEmpty_iff.1 h)

theorem dest_unique (h : (c, d) ∈ t.entries) (h' : (c, d') ∈ t.entries) : d = d' := by
  have key : ∀ l : List (ByteSet × Nat), l.Pairwise (fun a b => a.1 < b.1) →
      (c, d) ∈ l → (c, d') ∈ l → d = d' := by
    intro l hl hd hd'
    induction l with
    | nil => simp at hd
    | cons x l ih =>
      rw [List.pairwise_cons] at hl
      rcases List.mem_cons.1 hd with rfl | hmem
      · rcases List.mem_cons.1 hd' with heq | hmem'
        · simpa using heq.symm
        · exact absurd (hl.1 (c, d') hmem') (ByteSet.lt_irrefl c)
      · rcases List.mem_cons.1 hd' with rfl | hmem'
        · exact absurd (hl.1 (c, d) hmem) (ByteSet.lt_irrefl c)
        · exact ih hl.2 hmem hmem'
  exact key t.entries t.sorted h h'

theorem nodup_entries : t.entries.Nodup := by
  refine t.sorted.imp ?_
  rintro a b hlt rfl
  exact ByteSet.lt_irrefl _ hlt

theorem ext_mem (h : ∀ e, e ∈ t.entries ↔ e ∈ u.entries) : t = u := by
  have hperm : t.entries.Perm u.entries :=
    (List.perm_ext_iff_of_nodup nodup_entries nodup_entries).2 h
  have hasymm : ∀ a b : ByteSet × Nat, a ∈ t.entries → b ∈ u.entries → a.1 < b.1 → b.1 < a.1 →
      a = b := fun _ _ _ _ hab hba => absurd hba (ByteSet.lt_asymm hab)
  exact Transitions.ext (hperm.eq_of_pairwise hasymm t.sorted u.sorted)

/-! ## Insertion and removal -/

theorem mem_insertLabel_iff {l : List (ByteSet × Nat)} (hl : l.Pairwise fun a b => a.1 < b.1) :
    e ∈ insertLabel c d l ↔ e = (c, d) ∨ (e ∈ l ∧ e.1 ≠ c) := by
  induction l with
  | nil => simp [insertLabel]
  | cons x l ih =>
    rw [List.pairwise_cons] at hl
    unfold insertLabel
    split
    · rename_i hlt
      have hne : ∀ y ∈ x :: l, y.1 ≠ c := by
        intro y hy heq
        rcases List.mem_cons.1 hy with rfl | hy
        · exact ByteSet.lt_irrefl c (heq ▸ hlt)
        · exact ByteSet.lt_irrefl c (ByteSet.lt_trans hlt (heq ▸ hl.1 y hy))
      rw [List.mem_cons]
      constructor
      · exact Or.imp_right fun h => ⟨h, hne e h⟩
      · exact Or.imp_right And.left
    · split
      · rename_i hgt
        have hne : x.1 ≠ c := fun heq => ByteSet.lt_irrefl c (heq ▸ hgt)
        rw [List.mem_cons, List.mem_cons, ih hl.2]
        constructor
        · rintro (rfl | rfl | ⟨h, h'⟩)
          · exact .inr ⟨.inl rfl, hne⟩
          · exact .inl rfl
          · exact .inr ⟨.inr h, h'⟩
        · rintro (rfl | ⟨rfl | h, h'⟩)
          · exact .inr (.inl rfl)
          · exact .inl rfl
          · exact .inr (.inr ⟨h, h'⟩)
      · rename_i hnlt hngt
        obtain rfl : c = x.1 := by
          rcases ByteSet.lt_or_eq_or_gt c x.1 with h | h | h
          · exact absurd h hnlt
          · exact h
          · exact absurd h hngt
        have hne : ∀ y ∈ l, y.1 ≠ x.1 := fun y hy heq => ByteSet.lt_irrefl x.1 (heq ▸ hl.1 y hy)
        rw [List.mem_cons, List.mem_cons]
        constructor
        · exact Or.imp_right fun h => ⟨.inr h, hne e h⟩
        · rintro (h | ⟨rfl | h, h'⟩)
          · exact .inl h
          · exact absurd rfl h'
          · exact .inr h

@[simp] theorem mem_insert : e ∈ (t.insert c d).entries ↔ e = (c, d) ∨ (e ∈ t.entries ∧ e.1 ≠ c) :=
  mem_insertLabel_iff t.sorted

@[simp] theorem mem_erase : e ∈ (t.erase c).entries ↔ e ∈ t.entries ∧ e.1 ≠ c := by
  simp [erase]

/-! ## Look-up -/

theorem get?_eq_some_iff : t.get? c = some d ↔ (c, d) ∈ t.entries := by
  rw [get?, Option.map_eq_some_iff]
  constructor
  · rintro ⟨⟨c', d'⟩, hfind, rfl⟩
    have hc := List.find?_some hfind
    simp only [decide_eq_true_eq] at hc
    subst hc
    exact List.mem_of_find?_eq_some hfind
  · intro h
    cases hfind : t.entries.find? (·.1 = c) with
    | none =>
      rw [List.find?_eq_none] at hfind
      exact absurd (decide_eq_true rfl) (hfind _ h)
    | some x =>
      obtain ⟨c', d'⟩ := x
      have hc := List.find?_some hfind
      simp only [decide_eq_true_eq] at hc
      subst hc
      exact ⟨_, rfl, dest_unique (List.mem_of_find?_eq_some hfind) h⟩

theorem exists_of_step? (h : t.step? b = some d) : ∃ c, b ∈ c ∧ (c, d) ∈ t.entries := by
  rw [step?, Option.map_eq_some_iff] at h
  obtain ⟨⟨c, d'⟩, hfind, rfl⟩ := h
  exact ⟨c, by simpa using List.find?_some hfind, List.mem_of_find?_eq_some hfind⟩

theorem step?_eq_none_iff : t.step? b = none ↔ ∀ c d, (c, d) ∈ t.entries → b ∉ c := by
  rw [step?, Option.map_eq_none_iff, List.find?_eq_none]
  constructor
  · intro h c d hmem
    simpa using h _ hmem
  · rintro h ⟨c, d⟩ hmem
    simpa using h c d hmem

/-- With disjoint labels, a byte leads where a label with that byte does. -/
theorem step?_eq_some_iff (hd : t.Disjoint) :
    t.step? b = some d ↔ ∃ c, b ∈ c ∧ (c, d) ∈ t.entries := by
  constructor
  · exact exists_of_step?
  · rintro ⟨c, hb, hmem⟩
    cases hstep : t.step? b with
    | none => exact absurd hb (step?_eq_none_iff.1 hstep c d hmem)
    | some d' =>
      obtain ⟨c', hb', hmem'⟩ := exists_of_step? hstep
      have heq : c = c' := hd _ hmem _ hmem' b hb hb'
      subst heq
      rw [dest_unique hmem hmem']

/-- Labels that consist of all bytes that lead to their destination. -/
structure Combined (t : Transitions) : Prop where
  disjoint : t.Disjoint
  nonempty : ∀ c d, (c, d) ∈ t.entries → ∃ b, b ∈ c
  one_label : ∀ c c' d, (c, d) ∈ t.entries → (c', d) ∈ t.entries → c = c'

theorem Combined.mem_iff (h : t.Combined) :
    (c, d) ∈ t.entries ↔ (∃ b, b ∈ c) ∧ ∀ b, b ∈ c ↔ t.step? b = some d := by
  constructor
  · intro hmem
    refine ⟨h.nonempty c d hmem, fun b => ⟨fun hb => ?_, fun hb => ?_⟩⟩
    · exact (step?_eq_some_iff h.disjoint).2 ⟨c, hb, hmem⟩
    · obtain ⟨c', hb', hmem'⟩ := exists_of_step? hb
      rwa [h.one_label c c' d hmem hmem']
  · rintro ⟨⟨b, hb⟩, hc⟩
    obtain ⟨c', -, hmem⟩ := exists_of_step? ((hc b).1 hb)
    have heq : c = c' := by
      refine ByteSet.ext_mem fun y => ?_
      rw [hc]
      constructor
      · intro hy
        obtain ⟨c₂, hy₂, hmem₂⟩ := exists_of_step? hy
        rwa [h.one_label c' c₂ d hmem hmem₂]
      · exact fun hy => (step?_eq_some_iff h.disjoint).2 ⟨c', hy, hmem⟩
    rwa [heq]

theorem Combined.eq_of_step? (ht : t.Combined) (hu : u.Combined)
    (h : ∀ b, t.step? b = u.step? b) : t = u := by
  refine ext_mem fun e => ?_
  rw [ht.mem_iff, hu.mem_iff]
  simp only [h]

/-! ## Other destinations -/

@[simp] theorem mem_mapDest {f : Nat → Nat} :
    e ∈ (t.mapDest f).entries ↔ ∃ d, (e.1, d) ∈ t.entries ∧ f d = e.2 := by
  simp only [mapDest, List.mem_map]
  constructor
  · rintro ⟨x, hx, rfl⟩
    exact ⟨x.2, hx, rfl⟩
  · rintro ⟨d, hd, hf⟩
    exact ⟨_, hd, by rw [hf]⟩

theorem step?_mapDest {f : Nat → Nat} : (t.mapDest f).step? b = (t.step? b).map f := by
  simp only [step?, mapDest, List.find?_map, Option.map_map]
  rfl

theorem Combined.mapDest {f : Nat → Nat} (h : t.Combined)
    (hf : ∀ c d c' d', (c, d) ∈ t.entries → (c', d') ∈ t.entries → f d = f d' → d = d') :
    (t.mapDest f).Combined where
  disjoint := by
    rintro ⟨c, d⟩ he ⟨c', d'⟩ he'
    obtain ⟨e, he, -⟩ := mem_mapDest.1 he
    obtain ⟨e', he', -⟩ := mem_mapDest.1 he'
    exact h.disjoint (c, e) he (c', e') he'
  nonempty c d hmem := by
    obtain ⟨e, he, -⟩ := mem_mapDest.1 hmem
    exact h.nonempty c e he
  one_label c c' d hmem hmem' := by
    obtain ⟨e, he, rfl⟩ := mem_mapDest.1 hmem
    obtain ⟨e', he', heq⟩ := mem_mapDest.1 hmem'
    obtain rfl := hf c' e' c e he' he heq
    exact h.one_label c c' e' he he'

theorem mapDest_congr {f g : Nat → Nat} (h : ∀ c d, (c, d) ∈ t.entries → f d = g d) :
    t.mapDest f = t.mapDest g := by
  apply Transitions.ext
  refine List.map_congr_left ?_
  rintro ⟨c, d⟩ hmem
  rw [h c d hmem]

theorem mapDest_eq_self {f : Nat → Nat} (h : ∀ c d, (c, d) ∈ t.entries → f d = d) :
    t.mapDest f = t := by
  rw [mapDest_congr (g := id) h]
  exact Transitions.ext (List.map_id _)

theorem mapDest_mapDest {f g : Nat → Nat} : (t.mapDest f).mapDest g = t.mapDest (g ∘ f) := by
  apply Transitions.ext
  simp [mapDest]

theorem mem_dests : d ∈ t.dests ↔ ∃ c, (c, d) ∈ t.entries := by
  simp [dests]

theorem mem_consecutiveEntries {base : Nat} {l : List (ByteSet × Nat)} :
    e ∈ consecutiveEntries base l ↔ ∃ i, ∃ h : i < l.length, e = (l[i].1, base + i) := by
  induction l generalizing base with
  | nil => simp [consecutiveEntries]
  | cons x l ih =>
    rw [consecutiveEntries, List.mem_cons, ih]
    constructor
    · rintro (rfl | ⟨i, h, rfl⟩)
      · exact ⟨0, by simp, rfl⟩
      · exact ⟨i + 1, by simpa using h, by simp; omega⟩
    · rintro ⟨i, h, rfl⟩
      cases i with
      | zero => exact .inl rfl
      | succ i => exact .inr ⟨i, by simpa using h, by simp; omega⟩

theorem mem_consecutive {base : Nat} :
    e ∈ (t.consecutive base).entries ↔
      ∃ i, ∃ h : i < t.entries.length, e = (t.entries[i].1, base + i) :=
  mem_consecutiveEntries

theorem mapDest_consecutive {base : Nat} {f : Nat → Nat}
    (hf : ∀ i, ∀ h : i < t.dests.length, f (base + i) = t.dests[i]) :
    (t.consecutive base).mapDest f = t := by
  apply ext_mem
  rintro ⟨c, d⟩
  rw [mem_mapDest]
  constructor
  · rintro ⟨d', hmem, hd'⟩
    obtain ⟨i, hi, heq⟩ := mem_consecutive.1 hmem
    obtain ⟨rfl, rfl⟩ := Prod.mk.inj heq
    have := hf i (by simpa [dests] using hi)
    rw [this] at hd'
    simp only [dests, List.getElem_map] at hd'
    rw [← hd']
    exact List.getElem_mem hi
  · intro hmem
    obtain ⟨i, hi, heq⟩ := List.getElem_of_mem hmem
    refine ⟨base + i, mem_consecutive.2 ⟨i, hi, by rw [heq]⟩, ?_⟩
    rw [hf i (by simpa [dests] using hi)]
    simp [dests, heq]

end Transitions
end ByteMatch
