import ByteMatch.Proofs.CharSet.CodePoints

/-!
# ByteMatch.Proofs.CharSet.Complement

The inverse of a set is its complement, whatever the catalog has been used for before.

* `Catalog.Use`, `Catalog.use`, `Catalog.useAll`: what a catalog can be used for.
* `Catalog.Pathless`: a catalog that has no search path and no sets of all characters but its own.
  `Catalog.Pathless.use` and `Catalog.Pathless.useAll` say that it stays one.
* `CharSet.InverseEnds`: the loops end that invert a set.
* `CharSet.inverse_complement`: the inverse of a set, and the inverse of the inverse.
-/

namespace ByteMatch

/-! ## Catalogs without a search path -/

namespace Catalog

variable {r : Catalog} {files : Store} {e : Encoding}

/-- What a catalog is used for. The files may have changed in between. -/
inductive Use where
  | load (files : Store) (path : Path)
  | unite (files : Store) (e : Encoding) (paths : List Path)
  | any (files : Store) (e : Encoding)
  | inverse (files : Store) (c : CharSet)

/-- The catalog after it has been used, whether that failed or not. -/
def use (r : Catalog) : Use → Catalog
  | .load files path => (r.load files path).2
  | .unite files e paths => (r.unite files e paths).2
  | .any files e => (r.any files e).2
  | .inverse files c => (c.inverse r files).2

/-- The catalog after it has been used several times. -/
def useAll (r : Catalog) (uses : List Use) : Catalog := uses.foldl use r

/-- There is no search path, and the sets of all characters have been built from the code points. -/
structure Pathless (r : Catalog) : Prop where
  searchPath : r.searchPath = none
  selfBuilt : r.SelfBuilt

theorem pathless_empty : (empty none).Pathless where
  searchPath := rfl
  selfBuilt _ hentry := nomatch hentry

theorem searchPath_load (r : Catalog) (files : Store) (path : Path) :
    (r.load files path).2.searchPath = r.searchPath := by
  rw [load]
  cases r.loaded.find? (·.1 = path.steps) with
  | some _ => rfl
  | none => cases CharSet.load files path <;> rfl

theorem prebuiltAny_of_pathless (h : r.Pathless) : r.prebuiltAny files e = (none, r) := by
  rw [prebuiltAny, pathOf, h.searchPath]
  rfl

namespace Pathless

theorem load (h : r.Pathless) (files : Store) (path : Path) : (r.load files path).2.Pathless where
  searchPath := (searchPath_load r files path).trans h.searchPath
  selfBuilt := by
    intro entry hentry
    rw [anySets_load] at hentry
    exact h.selfBuilt entry hentry

theorem addFiles (h : r.Pathless) (files : Store) (paths : List Path) (total : CharSet) :
    (Catalog.addFiles files paths total r).2.Pathless := by
  induction paths generalizing total r with
  | nil => exact h
  | cons path rest ih =>
    have hload := h.load files path
    rw [Catalog.addFiles]
    split
    · rename_i c r' heq
      rw [heq] at hload
      split
      · exact ih hload _
      · exact hload
    · rename_i r' heq
      rw [heq] at hload
      exact ih hload total
    · rename_i error r' _ heq
      rw [heq] at hload
      exact hload

/-- The set of all characters is the one of the code points, and the catalog keeps it. -/
theorem any (h : r.Pathless) (files : Store) (e : Encoding) : ∃ whole r', r.any files e = (whole, r') ∧
    whole = CharSet.ofRange e 0 Encoding.lastCodePoint ∧ r'.Pathless := by
  have hnone : r.anySets.find? (·.1 = e) = none → (r.prebuiltAny files e).1 = none :=
    fun _ => by rw [prebuiltAny_of_pathless h]
  obtain ⟨whole, r', hany, hwhole, hbuilt⟩ := any_of_selfBuilt h.selfBuilt hnone
  refine ⟨whole, r', hany, hwhole, ?_, hbuilt⟩
  rw [Catalog.any] at hany
  split at hany
  · exact (Prod.mk.inj hany).2 ▸ h.searchPath
  · rw [prebuiltAny_of_pathless h] at hany
    exact (Prod.mk.inj hany).2 ▸ h.searchPath

theorem inverse (h : r.Pathless) (files : Store) (c : CharSet) : (c.inverse r files).2.Pathless := by
  obtain ⟨whole, r', hany, -, hr'⟩ := h.any files c.encoding
  rw [CharSet.inverse, hany]
  exact hr'

theorem use (h : r.Pathless) (u : Use) : (r.use u).Pathless := by
  cases u with
  | load files path => exact h.load files path
  | unite files e paths => exact h.addFiles files paths _
  | any files e =>
    obtain ⟨whole, r', hany, -, hr'⟩ := h.any files e
    rw [Catalog.use, hany]
    exact hr'
  | inverse files c => exact h.inverse files c

theorem useAll (h : r.Pathless) (uses : List Use) : (r.useAll uses).Pathless := by
  induction uses generalizing r with
  | nil => exact h
  | cons u rest ih => exact ih (h.use u)

end Pathless
end Catalog

/-! ## The complement -/

namespace CharSet

variable {c d : CharSet} {r : Catalog} {files : Store} {w : List UInt8}

/-- The loops end that build the set of all characters and take `c` away from it. -/
def InverseEnds (c : CharSet) (r : Catalog) (files : Store) : Prop :=
  OfRangeEnds c.encoding 0 Encoding.lastCodePoint ∧ CombineEnds (r.any files c.encoding).1 c

theorem inverseEnds (hc : c.WellFormed) (hr : r.Pathless) : InverseEnds c r files := by
  obtain ⟨whole, r', hany, hwhole, -⟩ := hr.any files c.encoding
  have hwf : whole.WellFormed := hwhole ▸ wellFormed_ofRange _ _ _
  refine ⟨ofRangeEnds _ _ _, ?_⟩
  rw [hany]
  exact combineEnds hwf hc

theorem inverse_of_pathless (hc : c.WellFormed) (hr : r.Pathless) (files : Store) :
    ∃ d, (c.inverse r files).1 = .ok d ∧ d.WellFormed ∧ d.encoding = c.encoding ∧
      ∀ w, d.accepts w = true ↔ (∃ n, c.encoding.encode n = some w) ∧ c.accepts w = false :=
  inverse_spec hc hr.selfBuilt fun _ => by rw [Catalog.prebuiltAny_of_pathless hr]

/-- With a catalog that has no search path, whatever it has been used for before, the inverse of a set accepts
the code points that the set does not accept. The inverse of the inverse, by the same catalog or another
one, accepts what the set accepts as far as it is a single code point. -/
theorem inverse_complement (hc : c.WellFormed) (uses : List Catalog.Use) (files : Store) :
    InverseEnds c (Catalog.useAll (.empty none) uses) files ∧
    ∃ d, (c.inverse (Catalog.useAll (.empty none) uses) files).1 = .ok d ∧ d.WellFormed ∧
      d.encoding = c.encoding ∧
      (∀ w, d.accepts w = true ↔ (∃ n, c.encoding.encode n = some w) ∧ c.accepts w = false) ∧
      ∀ uses' files', InverseEnds d (Catalog.useAll (.empty none) uses') files' ∧
        ∃ d', (d.inverse (Catalog.useAll (.empty none) uses') files').1 = .ok d' ∧
          ∀ w, d'.accepts w = true ↔ c.accepts w = true ∧ ∃ n, c.encoding.encode n = some w := by
  have hpathless : ∀ uses, (Catalog.useAll (.empty none) uses).Pathless :=
    Catalog.pathless_empty.useAll
  obtain ⟨d, hd, hwf, he, haccepts⟩ := inverse_of_pathless hc (hpathless uses) files
  refine ⟨inverseEnds hc (hpathless uses), d, hd, hwf, he, haccepts, fun uses' files' => ?_⟩
  obtain ⟨d', hd', -, -, haccepts'⟩ := inverse_of_pathless hwf (hpathless uses') files'
  refine ⟨inverseEnds hwf (hpathless uses'), d', hd', fun w => ?_⟩
  rw [haccepts' w, he]
  constructor
  · rintro ⟨hcode, hnot⟩
    refine ⟨?_, hcode⟩
    rw [← Bool.not_eq_false]
    intro hc'
    exact Bool.eq_false_iff.1 hnot ((haccepts w).2 ⟨hcode, hc'⟩)
  · rintro ⟨hw, hcode⟩
    refine ⟨hcode, Bool.eq_false_iff.2 fun hd => ?_⟩
    rw [((haccepts w).1 hd).2] at hw
    cases hw

/-- A catalog that has been used before, and a set with a sequence of two code points. The inverse lacks none
of the code points, and nothing is left when it is inverted again. -/
theorem inverse_complement_sequence :
    ∃ d, ((ofString .utf8 "ab").inverse (Catalog.useAll (.empty none)
        [.any .empty .utf8, .inverse .empty shortTree]) .empty).1 = .ok d ∧
      d.accepts [0x61] = true ∧ d.accepts [0x61, 0x62] = false ∧
      ∃ d', (d.inverse (.empty none) .empty).1 = .ok d' ∧ ∀ w, d'.accepts w = false := by
  have hab : ∀ w, (ofString .utf8 "ab").accepts w = true → w = [0x61, 0x62] := by
    intro w hw
    rw [ofString, accepts_ofEncoded, show Encoding.utf8.encodeString "ab" = some [0x61, 0x62] by decide]
      at hw
    exact (Option.some.inj hw.1).symm
  have hseq : ¬ ∃ n, Encoding.utf8.encode n = some [0x61, 0x62] := by
    rintro ⟨n, hn⟩
    exact absurd (Encoding.prefix_free (u := [0x61]) (show Encoding.utf8.encode 0x61 = _ by decide) hn)
      (by decide)
  obtain ⟨-, d, hd, -, -, haccepts, htwice⟩ := inverse_complement (wellFormed_ofString .utf8 "ab")
    [.any .empty .utf8, .inverse .empty shortTree] .empty
  obtain ⟨-, d', hd', haccepts'⟩ := htwice [] .empty
  refine ⟨d, hd, (haccepts _).2 ⟨⟨0x61, by decide⟩, ?_⟩, Bool.eq_false_iff.2 fun h => ?_, d', hd',
    fun w => Bool.eq_false_iff.2 fun h => ?_⟩
  · exact Bool.eq_false_iff.2 fun h => absurd (hab _ h) (by decide)
  · exact hseq ((haccepts _).1 h).1
  · obtain ⟨hw, hcode⟩ := (haccepts' w).1 h
    rw [hab w hw] at hcode
    exact hseq hcode

end CharSet
end ByteMatch
