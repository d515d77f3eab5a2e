import ByteMatch.Proofs.Pattern.Marks

/-!
# ByteMatch.Proofs.Pattern.References

The groups that backreferences refer to.

* `Pattern.MarkOf`: the mark that a reference stands for.
* `Pattern.IsLink`: a backreference, its mark and the group with the mark.
* `Pattern.Resolving.giveLink`, `Pattern.resolveReferences_append`: a backreference is resolved to its link,
  and so are several of them.
* `Pattern.resolveReferences_error_name`, `Pattern.resolveReferences_error_mark`: the first one without a link
  is reported.
-/

namespace ByteMatch

open Step ByteMatch.Numbering

/-- A backreference with the mark and the group that it refers to. -/
structure Link where
  place : Nat
  mark : Nat
  group : Nat
deriving DecidableEq, Repr

/-- A node without what its links change. -/
def Node.unlinked (n : Node) : Node :=
  { n with kind := default, attributes := { n.attributes with referenced := false } }

/-- The mark that a reference stands for, given the marks of the names. -/
def Reference.mark? (names : List (String × Nat)) : Reference → Option Nat
  | .mark m => some m
  | .name s => names.lookup s

namespace Pattern

variable {p q : Pattern} {root i j k m : Nat} {name : String} {target : Reference} {l : Link}
  {links : List Link}

/-! ## Links -/

/-- The mark that a reference stands for. A name stands for the last group that has it. -/
def MarkOf (p : Pattern) (root : Nat) : Reference → Nat → Prop
  | .mark mark, k => mark = k
  | .name name, k => p.LastNamed (p.capturing root) name k

/-- A backreference below the root refers to a group. It cannot refer to the root. -/
structure IsLink (p : Pattern) (root : Nat) (l : Link) : Prop where
  reaches : p.Reaches root l.place
  reference : ∃ target, (p.node l.place).kind = .action (.backreference target) ∧
    p.MarkOf root target l.mark
  mark_ne : l.mark ≠ 0
  marked : (p.capturing root)[l.mark]? = some l.group

/-- A node is no backreference, or a group that it refers to exists. -/
def Resolves (p : Pattern) (root i : Nat) : Prop :=
  (∃ target, (p.node i).kind = .action (.backreference target)) → ∃ m g, p.IsLink root ⟨i, m, g⟩

theorem LastNamed.unique {groups : List Nat} {name : String} (hk : p.LastNamed groups name k)
    (hm : p.LastNamed groups name m) : k = m := by
  obtain ⟨⟨g, hg, hname⟩, hlast⟩ := hk
  obtain ⟨⟨g', hg', hname'⟩, hlast'⟩ := hm
  exact Nat.le_antisymm (hlast' k g hg hname) (hlast m g' hg' hname')

theorem MarkOf.unique (hk : p.MarkOf root target k) (hm : p.MarkOf root target m) : k = m := by
  cases target with
  | mark mark => exact hk.symm.trans hm
  | name name => exact LastNamed.unique hk hm

/-- A backreference refers to a single group. -/
theorem IsLink.unique {l l' : Link} (h : p.IsLink root l) (h' : p.IsLink root l')
    (hplace : l.place = l'.place) : l = l' := by
  obtain ⟨i, m, g⟩ := l
  obtain ⟨i', m', g'⟩ := l'
  obtain rfl : i = i' := hplace
  obtain ⟨t, hkind, hm⟩ := h.reference
  obtain ⟨t', hkind', hm'⟩ := h'.reference
  obtain rfl : t = t' := by
    rw [hkind] at hkind'
    simpa using hkind'
  obtain rfl : m = m' := hm.unique hm'
  obtain rfl : g = g' := Option.some.inj (h.marked.symm.trans h'.marked)
  rfl

/-- Notes a link in the backreference and in the group. -/
def giveLink (p : Pattern) (l : Link) : Pattern :=
  (p.update l.place ({ · with kind := .action (.backreference (.mark l.mark)) })).updateAttributes l.group
    ({ · with referenced := true })

/-- Notes several links. -/
def giveLinks (p : Pattern) (links : List Link) : Pattern := links.foldl giveLink p

theorem size_giveLink : (p.giveLink l).nodes.size = p.nodes.size := by
  rw [giveLink, updateAttributes, size_update, size_update]

theorem node_giveLink (hplace : l.place < p.nodes.size) (hgroup : l.group < p.nodes.size) :
    (p.giveLink l).node j =
      { p.node j with
        kind := if l.place = j then .action (.backreference (.mark l.mark)) else (p.node j).kind
        attributes := { (p.node j).attributes with
          referenced := (p.node j).attributes.referenced || decide (l.group = j) } } := by
  rw [giveLink, updateAttributes, node_update, size_update, node_update]
  by_cases hp : l.place = j <;> by_cases hg : l.group = j
  · rw [if_pos ⟨hg, hg ▸ hgroup⟩, if_pos ⟨hp, hp ▸ hplace⟩, if_pos hp, decide_eq_true hg, Bool.or_true]
  · rw [if_neg fun h => hg h.1, if_pos ⟨hp, hp ▸ hplace⟩, if_pos hp, decide_eq_false hg, Bool.or_false]
  · rw [if_pos ⟨hg, hg ▸ hgroup⟩, if_neg fun h => hp h.1, if_neg hp, decide_eq_true hg, Bool.or_true]
  · rw [if_neg fun h => hg h.1, if_neg fun h => hp h.1, if_neg hp, decide_eq_false hg, Bool.or_false]

/-- Links change the kinds of backreferences and which groups are referred to, and nothing else. -/
structure LinksNoted (links : List Link) (p q : Pattern) : Prop where
  same : ∀ j, (q.node j).unlinked = (p.node j).unlinked
  linked : ∀ l ∈ links, (q.node l.place).kind = .action (.backreference (.mark l.mark))
  other : ∀ j, (∀ l ∈ links, l.place ≠ j) → (q.node j).kind = (p.node j).kind
  referenced : ∀ j, (q.node j).attributes.referenced = true ↔
    (p.node j).attributes.referenced = true ∨ ∃ l ∈ links, l.group = j

theorem linksNoted (hlt : ∀ l ∈ links, l.place < p.nodes.size ∧ l.group < p.nodes.size)
    (hunique : ∀ l ∈ links, ∀ l' ∈ links, l.place = l'.place → l = l') :
    LinksNoted links p (p.giveLinks links) := by
  induction links generalizing p with
  | nil => exact ⟨fun _ => rfl, fun l hl => absurd hl List.not_mem_nil, fun _ _ => rfl, by simp [giveLinks]⟩
  | cons l rest ih =>
    obtain ⟨hplace, hgroup⟩ := hlt l List.mem_cons_self
    have hrest := ih (p := p.giveLink l)
      (fun l' hl' => by rw [size_giveLink]; exact hlt l' (List.mem_cons_of_mem _ hl'))
      (fun a ha b hb => hunique a (List.mem_cons_of_mem _ ha) b (List.mem_cons_of_mem _ hb))
    rw [giveLinks, List.foldl_cons]
    refine ⟨fun j => ?_, fun l' hl' => ?_, fun j hj => ?_, fun j => ?_⟩
    · rw [← giveLinks, hrest.same, node_giveLink hplace hgroup, Node.unlinked, Node.unlinked]
    · rcases List.mem_cons.1 hl' with rfl | hl'
      · by_cases hlater : ∃ l₂ ∈ rest, l₂.place = l'.place
        · obtain ⟨l₂, hl₂, heq⟩ := hlater
          obtain rfl := hunique l₂ (List.mem_cons_of_mem _ hl₂) l' List.mem_cons_self heq
          exact hrest.linked l₂ hl₂
        · rw [← giveLinks, hrest.other _ fun l₂ hl₂ heq => hlater ⟨l₂, hl₂, heq⟩,
            node_giveLink hplace hgroup, if_pos rfl]
      · exact hrest.linked l' hl'
    · rw [← giveLinks, hrest.other j fun l' hl' => hj l' (List.mem_cons_of_mem _ hl'),
        node_giveLink hplace hgroup, if_neg (hj l List.mem_cons_self)]
    · rw [← giveLinks, hrest.referenced, node_giveLink hplace hgroup, List.exists_mem_cons_iff]
      simp [or_assoc]

/-- Which groups have a mark does not change. -/
theorem hasMark_giveLink (hkind : (p.node l.place).kind ≠ .group) :
    (p.giveLink l).hasMark = p.hasMark := by
  funext root m j
  rw [giveLink, updateAttributes, hasMark, hasMark, node_update, node_update]
  have hplace : ∀ j, l.place = j → ((p.node j).kind == .group) = false := by
    rintro _ rfl
    exact beq_false_of_ne hkind
  by_cases hp : l.place = j
  · simp only [hplace j hp]
    split <;> split <;> simp_all
  · rw [if_neg (c := l.place = j ∧ _) fun h => hp h.1]
    split <;> rfl

/-! ## Resolution -/

variable {places before rest : List Nat} {names : List (String × Nat)} {mask : UInt32}

theorem resolveReferences_skip (h : ∀ target, (q.node i).kind ≠ .action (.backreference target)) :
    resolveReferences root places names mask (i :: rest) q =
      resolveReferences root places names mask rest q := by
  rw [resolveReferences, bind_get]
  cases hkind : (q.node i).kind with
  | action a =>
    cases a with
    | backreference target => exact absurd hkind (h target)
    | textStart | textEnd | bufferStart | bufferEnd | wordBoundary | notWordBoundary | grapheme => rfl
  | group | alternation | repetition | charClass => rfl

theorem resolveReferences_link (hkind : (q.node i).kind = .action (.backreference target))
    (hmark : target.mark? names = some m) : resolveReferences root places names mask (i :: rest) q =
      match places.find? (q.hasMark root m) with
      | none => .error (.invalidBackreference m) q
      | some g => resolveReferences root places names (mask ||| markBit m) rest (q.giveLink ⟨i, m, g⟩) := by
  rw [resolveReferences, bind_get, hkind]
  cases target with
  | mark mark =>
    obtain rfl : mark = m := Option.some.inj hmark
    simp only [pure_bind]
    rw [bind_get]
    cases places.find? (q.hasMark root mark) with
    | none => rfl
    | some g => rfl
  | name name =>
    rw [Reference.mark?] at hmark
    simp only [hmark, pure_bind]
    rw [bind_get]
    cases places.find? (q.hasMark root m) with
    | none => rfl
    | some g => rfl

theorem resolveReferences_unknown (hkind : (q.node i).kind = .action (.backreference (.name name)))
    (hname : names.lookup name = none) : resolveReferences root places names mask (i :: rest) q =
      .error (.unknownBackreference name) q := by
  rw [resolveReferences, bind_get, hkind]
  simp only [hname]
  rfl

/-- The names stand for the marks that the pattern gives to them. -/
def NamesOf (p : Pattern) (root : Nat) (names : List (String × Nat)) : Prop :=
  ∀ s m, names.lookup s = some m ↔ p.LastNamed (p.capturing root) s m

theorem NamesOf.mark? (h : p.NamesOf root names) : target.mark? names = some m ↔ p.MarkOf root target m := by
  cases target with
  | mark mark => exact Option.some_inj
  | name name => exact h name m

/-- The groups have the marks of the pattern, and the backreferences to come have not been changed. -/
structure Resolving (p : Pattern) (root : Nat) (places rest : List Nat) (q : Pattern) : Prop where
  size : q.nodes.size = p.nodes.size
  kind : ∀ i ∈ rest, (q.node i).kind = (p.node i).kind
  find : ∀ m g, places.find? (q.hasMark root m) = some g ↔ m ≠ 0 ∧ (p.capturing root)[m]? = some g

theorem IsLink.lt (h : p.Acyclic root) (hl : p.IsLink root l) :
    l.place < p.nodes.size ∧ l.group < p.nodes.size :=
  ⟨h.lt _ hl.reaches, h.lt _ (h.mem_capturing.1 (List.mem_of_getElem? hl.marked)).1⟩

/-- A single backreference is resolved. -/
theorem Resolving.giveLink (h : p.Acyclic root) (hq : p.Resolving root places (l.place :: rest) q)
    (hl : p.IsLink root l) (hfresh : l.place ∉ rest) : p.Resolving root places rest (q.giveLink l) := by
  obtain ⟨hplace, hgroup⟩ := hl.lt h
  rw [← hq.size] at hplace hgroup
  refine ⟨size_giveLink.trans hq.size, fun i hi => ?_, fun m g => ?_⟩
  · have hne : l.place ≠ i := fun heq => hfresh (heq ▸ hi)
    rw [node_giveLink hplace hgroup, if_neg hne]
    exact hq.kind i (List.mem_cons_of_mem _ hi)
  · have hkind : (q.node l.place).kind ≠ .group := by
      obtain ⟨target, htarget, -⟩ := hl.reference
      rw [hq.kind _ List.mem_cons_self, htarget]
      exact Kind.noConfusion
    rw [hasMark_giveLink hkind, hq.find]

/-- Backreferences that refer to groups are resolved to their links. -/
theorem resolveReferences_append (mask : UInt32) (h : p.Acyclic root) (hnames : p.NamesOf root names)
    (hq : p.Resolving root places (before ++ rest) q) (hreach : ∀ i ∈ before, p.Reaches root i)
    (hnodup : (before ++ rest).Nodup) (hresolves : ∀ i ∈ before, p.Resolves root i) :
    ∃ links, (∀ l, l ∈ links ↔ l.place ∈ before ∧ p.IsLink root l) ∧
      p.Resolving root places rest (q.giveLinks links) ∧
      resolveReferences root places names mask (before ++ rest) q =
        resolveReferences root places names (links.foldl (fun mask l => mask ||| markBit l.mark) mask)
          rest (q.giveLinks links) := by
  induction before generalizing q mask with
  | nil => exact ⟨[], by simp, hq, rfl⟩
  | cons i before ih =>
    rw [List.cons_append] at hq hnodup ⊢
    obtain ⟨hfresh, hnodup⟩ := List.nodup_cons.1 hnodup
    rw [List.forall_mem_cons] at hreach hresolves
    have hkind := hq.kind i List.mem_cons_self
    by_cases hreference : ∃ target, (p.node i).kind = .action (.backreference target)
    · obtain ⟨m, g, hl⟩ := hresolves.1 hreference
      obtain ⟨target, htarget, hmark⟩ := hl.reference
      obtain ⟨links, hlinks, hq', heq⟩ := ih (mask ||| markBit m) (hq.giveLink h hl hfresh)
        hreach.2 hnodup hresolves.2
      refine ⟨⟨i, m, g⟩ :: links, fun l => ?_, hq', ?_⟩
      · rw [List.mem_cons, List.mem_cons, hlinks]
        constructor
        · rintro (rfl | ⟨hl', hlink⟩)
          · exact ⟨.inl rfl, hl⟩
          · exact ⟨.inr hl', hlink⟩
        · rintro ⟨hplace | hl', hlink⟩
          · exact .inl (hlink.unique hl hplace)
          · exact .inr ⟨hl', hlink⟩
      · rw [resolveReferences_link (hkind.trans htarget) (hnames.mark?.2 hmark),
          (hq.find m g).2 ⟨hl.mark_ne, hl.marked⟩]
        exact heq
    · obtain ⟨links, hlinks, hq', heq⟩ := ih mask ⟨hq.size, fun j hj =>
        hq.kind j (List.mem_cons_of_mem _ hj), hq.find⟩ hreach.2 hnodup hresolves.2
      refine ⟨links, fun l => ?_, hq', ?_⟩
      · rw [hlinks, List.mem_cons]
        refine ⟨fun hl => ⟨.inr hl.1, hl.2⟩, fun ⟨hplace, hl⟩ => ⟨hplace.resolve_left ?_, hl⟩⟩
        rintro rfl
        exact hreference (hl.reference.imp fun _ => And.left)
      · rw [resolveReferences_skip fun target htarget => hreference ⟨target, hkind.symm.trans htarget⟩]
        exact heq

/-- A name that no group has is reported. -/
theorem resolveReferences_error_name (mask : UInt32) (h : p.Acyclic root) (hnames : p.NamesOf root names)
    (hq : p.Resolving root places (before ++ i :: rest) q) (hreach : ∀ i ∈ before, p.Reaches root i)
    (hnodup : (before ++ i :: rest).Nodup) (hresolves : ∀ i ∈ before, p.Resolves root i)
    (hkind : (p.node i).kind = .action (.backreference (.name name)))
    (hname : ∀ m, ¬ p.MarkOf root (.name name) m) :
    ∃ q', resolveReferences root places names mask (before ++ i :: rest) q =
      .error (.unknownBackreference name) q' := by
  obtain ⟨links, -, hq', heq⟩ := resolveReferences_append mask h hnames hq hreach hnodup hresolves
  refine ⟨_, heq.trans (resolveReferences_unknown ((hq'.kind i List.mem_cons_self).trans hkind) ?_)⟩
  exact Option.eq_none_iff_forall_ne_some.2 fun m hm => hname m ((hnames name m).1 hm)

/-- A mark that no group but the root can have is reported. -/
theorem resolveReferences_error_mark (mask : UInt32) (h : p.Acyclic root) (hnames : p.NamesOf root names)
    (hq : p.Resolving root places (before ++ i :: rest) q) (hreach : ∀ i ∈ before, p.Reaches root i)
    (hnodup : (before ++ i :: rest).Nodup) (hresolves : ∀ i ∈ before, p.Resolves root i)
    (hkind : (p.node i).kind = .action (.backreference target)) (hmark : p.MarkOf root target m)
    (hunused : m = 0 ∨ (p.capturing root).length ≤ m) :
    ∃ q', resolveReferences root places names mask (before ++ i :: rest) q =
      .error (.invalidBackreference m) q' := by
  obtain ⟨links, -, hq', heq⟩ := resolveReferences_append mask h hnames hq hreach hnodup hresolves
  have hnone : places.find? ((q.giveLinks links).hasMark root m) = none := by
    refine Option.eq_none_iff_forall_ne_some.2 fun g hg => ?_
    obtain ⟨hne, hg⟩ := (hq'.find m g).1 hg
    exact hunused.elim hne fun hle => absurd (List.getElem?_eq_some_iff.1 hg).1 (by omega)
  refine ⟨q.giveLinks links, heq.trans ?_⟩
  rw [resolveReferences_link ((hq'.kind i List.mem_cons_self).trans hkind) (hnames.mark?.2 hmark), hnone]

/-- The bits of the marks that are referred to. -/
theorem testBit_links (hbound : ∀ l ∈ links, l.mark < 32) :
    (links.foldl (fun mask l => mask ||| markBit l.mark) mask).toNat.testBit k = true ↔
      mask.toNat.testBit k = true ∨ ∃ l ∈ links, l.mark = k := by
  induction links generalizing mask with
  | nil => simp
  | cons l links ih =>
    rw [List.forall_mem_cons] at hbound
    rw [List.foldl_cons, ih hbound.2, testBit_or, testBit_markBit hbound.1, Bool.or_eq_true,
      decide_eq_true_iff, List.exists_mem_cons_iff, or_assoc, eq_comm (a := k)]

end Pattern
end ByteMatch
