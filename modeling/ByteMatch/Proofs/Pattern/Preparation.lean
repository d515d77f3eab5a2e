import ByteMatch.Proofs.Pattern.References

/-!
# ByteMatch.Proofs.Pattern.Preparation

What the steps before the search for guards leave as it is.

* `Node.prepared`: a node without what these steps find out.
* `Pattern.noteStart_same`, `Pattern.number_same`: the nodes are the same otherwise.
* `Pattern.Prepared.tree`, `Pattern.Prepared.kind_eq`: so a tree stays a tree, and only backreferences change.
-/

namespace ByteMatch

open Step

/-- The kind of a node without the group that a backreference refers to. -/
def Kind.unresolved : Kind → Kind
  | .action (.backreference _) => .action (.backreference (.mark 0))
  | k => k

/-- A node without where matches start, without marks and without what backreferences refer to. -/
def Node.prepared (n : Node) : Node :=
  { n with
    kind := n.kind.unresolved
    attributes := { n.attributes with atBufferStart := false, afterNewline := false, referenced := false }
    mark := none }

theorem Kind.unresolved_eq {k k' : Kind} (hk : ∀ a, k' ≠ .action a) : k.unresolved = k' ↔ k = k' := by
  cases k with
  | action a =>
    have hne : ∀ a, Kind.action a ≠ k' := fun a heq => hk a heq.symm
    cases a <;> simp [unresolved, hne]
  | group | alternation | repetition | charClass => rfl

namespace Pattern

variable {p q : Pattern} {root i : Nat} {limits : Limits}

/-- Patterns that differ only in what has been found out about them before the search for guards. -/
abbrev Prepared (p q : Pattern) : Prop := p.SameUpTo Node.prepared q

/-! ## Steps -/

theorem noteStart_same : (p.noteStart root).Prepared p := by
  rw [noteStart]
  split
  · exact .of_update rfl
  · exact .of_update rfl
  · exact .refl p

theorem assignMarks_same {limit mark : Nat} {names names' : List (String × Nat)} {groups : List Nat}
    (h : assignMarks limit mark names groups p = .ok names' q) : q.Prepared p := by
  induction groups generalizing p mark names with
  | nil =>
    obtain ⟨-, rfl⟩ := pure_ok.1 h
    exact .refl p
  | cons i rest ih =>
    rw [assignMarks] at h
    beta_reduce at h
    split at h
    · rw [bind_throw] at h
      cases h
    · rw [bind_modify, bind_get] at h
      have hmark : (p.update i ({ · with mark := some mark })).Prepared p := .of_update rfl
      cases hname : ((p.update i ({ · with mark := some mark })).node i).name with
      | none =>
        rw [hname] at h
        exact (ih h).trans hmark
      | some name =>
        rw [hname] at h
        exact (ih h).trans hmark

theorem giveLink_same {m g : Nat} {target : Reference}
    (hkind : (p.node i).kind = .action (.backreference target)) : (p.giveLink ⟨i, m, g⟩).Prepared p := by
  refine SameUpTo.trans (.of_update rfl) (.of_update ?_)
  rw [Node.prepared, Node.prepared, hkind]
  rfl

theorem resolveReferences_same {places rest : List Nat} {names : List (String × Nat)}
    {mask mask' : UInt32} (h : resolveReferences root places names mask rest p = .ok mask' q) :
    q.Prepared p := by
  induction rest generalizing p mask with
  | nil =>
    obtain ⟨-, rfl⟩ := pure_ok.1 h
    exact .refl p
  | cons i rest ih =>
    by_cases hreference : ∃ target, (p.node i).kind = .action (.backreference target)
    · obtain ⟨target, hkind⟩ := hreference
      cases hmark : target.mark? names with
      | none =>
        cases target with
        | mark mark => cases hmark
        | name name =>
          rw [resolveReferences_unknown hkind hmark] at h
          cases h
      | some m =>
        rw [resolveReferences_link hkind hmark] at h
        cases hfind : places.find? (p.hasMark root m) with
        | none =>
          rw [hfind] at h
          cases h
        | some g =>
          rw [hfind] at h
          exact (ih h).trans (giveLink_same hkind)
    · rw [resolveReferences_skip fun target hkind => hreference ⟨target, hkind⟩] at h
      exact ih h

/-- Numbering finds out marks and what backreferences refer to, and changes nothing else. -/
theorem number_same {indexAlternatives : Bool} {numbering : Numbering}
    (h : number root indexAlternatives limits p = .ok numbering q) : q.Prepared p := by
  rw [number, bind_get, bind_get] at h
  obtain ⟨names, q₁, hmarks, hrest⟩ := bind_ok.1 h
  simp only at hrest
  split at hrest
  · rw [bind_throw] at hrest
    cases hrest
  · rw [bind_get] at hrest
    obtain ⟨mask, q₂, hreferences, hpure⟩ := bind_ok.1 hrest
    obtain ⟨-, rfl⟩ := pure_ok.1 hpure
    exact (resolveReferences_same hreferences).trans (assignMarks_same hmarks)

namespace Prepared

variable (h : q.Prepared p)
include h

/-! ## What stays -/

theorem children (i : Nat) : (q.node i).children = (p.node i).children :=
  h.get Node.children (fun _ => rfl) i

/-- Only backreferences change. -/
theorem kind_eq {k : Kind} (hk : ∀ a, k ≠ .action a) : (q.node i).kind = k ↔ (p.node i).kind = k := by
  have hsame : (q.node i).kind.unresolved = (p.node i).kind.unresolved :=
    congrArg Node.kind (h.node i)
  rw [← Kind.unresolved_eq hk, hsame, Kind.unresolved_eq hk]

theorem class?_eq (i : Nat) : (q.node i).kind.class? = (p.node i).kind.class? := by
  have hclass : ∀ k : Kind, k.unresolved.class? = k.class? := by
    rintro (_ | _ | _ | _ | a)
    · rfl
    · rfl
    · rfl
    · rfl
    · cases a <;> rfl
  have hsame : (q.node i).kind.unresolved = (p.node i).kind.unresolved :=
    congrArg Node.kind (h.node i)
  rw [← hclass, hsame, hclass]

theorem tree (hp : p.Tree root) : q.Tree root :=
  hp.of_same h.size h.children ((h.kind_eq (by simp)).2 hp.root_group)

end Prepared

end Pattern
end ByteMatch
