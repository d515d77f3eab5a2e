import ByteMatch.Proofs.CharSet.Ambiguity
import ByteMatch.Proofs.CharSet.Session

/-!
# ByteMatch.Proofs.CharSet.CodePoints

Sets that are made of code points.

However such sets are combined, their characters are those of code points, none of which starts with the
bytes of another one.

* `CharSet.OfCodePoints`: what is made of code points and combined.
* `CharSet.Within`: a well-formed set with no characters but those of code points.
* `CharSet.inverse_spec`: the inverse of any well-formed set.
* `CharSet.Within.combine`, `CharSet.OfCodePoints.within`: what the operations keep.
* `CharSet.OfCodePoints.distinguishable`: the characters can be told apart byte by byte.
-/

namespace ByteMatch
namespace CharSet

/-- Sets of code points of an encoding, and all that can be made of them. No set of all characters is read
from a file. -/
inductive OfCodePoints (e : Encoding) : CharSet → Prop
  | ofRange (first last : Nat) : OfCodePoints e (ofRange e first last)
  | ofChar (ch : Char) : OfCodePoints e (ofString e (String.singleton ch))
  | ofCased {c : CharSet} (ch : Char) (f : CaseFolding) (ignoreCase : Bool)
      (h : CharSet.ofCased e (String.singleton ch) f ignoreCase = .ok c) : OfCodePoints e c
  | union {a b c : CharSet} (ha : OfCodePoints e a) (hb : OfCodePoints e b) (h : a.union b = .ok c) :
      OfCodePoints e c
  | intersect {a b c : CharSet} (ha : OfCodePoints e a) (hb : OfCodePoints e b)
      (h : a.intersect b = .ok c) : OfCodePoints e c
  | difference {a b c : CharSet} (ha : OfCodePoints e a) (hb : OfCodePoints e b)
      (h : a.difference b = .ok c) : OfCodePoints e c
  | inverse {c d : CharSet} {r : Catalog} {files : Store} (hc : OfCodePoints e c) (hr : r.SelfBuilt)
      (hnone : r.anySets.find? (·.1 = e) = none → (r.prebuiltAny files e).1 = none)
      (h : (c.inverse r files).1 = .ok d) : OfCodePoints e d
  | toTree {c : CharSet} (hc : OfCodePoints e c) : OfCodePoints e c.toTree
  | toGraph {c : CharSet} (hc : OfCodePoints e c) : OfCodePoints e c.toGraph

/-- A well-formed set of an encoding, all of whose characters are those of code points. -/
structure Within (e : Encoding) (c : CharSet) : Prop where
  wellFormed : c.WellFormed
  encoding : c.encoding = e
  codePoint : ∀ w, c.accepts w = true → ∃ n, e.encode n = some w

variable {e : Encoding} {a b c d : CharSet} {r : Catalog} {files : Store}

/-! ## Encodings -/

theorem encoding_toTree : c.toTree.encoding = c.encoding := by
  rw [toTree]
  split <;> rfl

theorem encoding_toGraph : c.toGraph.encoding = c.encoding := by
  rw [toGraph]
  split
  · rfl
  · split
    · rfl
    · split <;> rfl

theorem encoding_ofRange (e : Encoding) (first last : Nat) : (ofRange e first last).encoding = e := by
  rw [ofRange]
  split
  · rfl
  · simp only
    split
    · rfl
    · exact encoding_toGraph

/-! ## The inverse -/

/-- Unless a file with all characters is found, the inverse of a set accepts the code points that the set
does not accept. -/
theorem inverse_spec (hc : c.WellFormed) (hr : r.SelfBuilt)
    (hnone : r.anySets.find? (·.1 = c.encoding) = none → (r.prebuiltAny files c.encoding).1 = none) :
    ∃ d, (c.inverse r files).1 = .ok d ∧ d.WellFormed ∧ d.encoding = c.encoding ∧
      ∀ w, d.accepts w = true ↔ (∃ n, c.encoding.encode n = some w) ∧ c.accepts w = false := by
  obtain ⟨whole, r', hany, hwhole, -⟩ := Catalog.any_of_selfBuilt hr hnone
  have hwf : whole.WellFormed := hwhole ▸ wellFormed_ofRange _ _ _
  have he : whole.encoding = c.encoding := hwhole ▸ encoding_ofRange _ _ _
  have hall : ∀ w, whole.accepts w = true ↔ ∃ n, c.encoding.encode n = some w := by
    intro w
    rw [hwhole, accepts_ofRange]
    refine exists_congr fun n => ⟨fun h => h.2.2, fun h => ?_⟩
    exact ⟨Nat.zero_le n, Encoding.le_lastCodePoint h, h⟩
  have hd := difference_eq he
  refine ⟨_, by rw [CharSet.inverse, hany]; exact hd, wellFormed_difference hwf hc hd,
    (encoding_difference hd).trans he, fun w => ?_⟩
  rw [accepts_difference hwf hc hd, Bool.and_eq_true_iff, hall, Bool.not_eq_true']

/-! ## What the operations keep -/

theorem within_ofRange (e : Encoding) (first last : Nat) : Within e (ofRange e first last) where
  wellFormed := wellFormed_ofRange e first last
  encoding := encoding_ofRange e first last
  codePoint w hw := by
    obtain ⟨n, -, -, hn⟩ := accepts_ofRange.1 hw
    exact ⟨n, hn⟩

theorem within_ofChar (e : Encoding) (ch : Char) : Within e (ofString e (String.singleton ch)) where
  wellFormed := wellFormed_ofString e _
  encoding := rfl
  codePoint _ hw := ⟨ch.toNat, accepts_ofString_singleton.1 hw⟩

/-- A set with no characters but those of two sets. -/
theorem Within.combine (ha : Within e a) (hb : Within e b) (hwf : c.WellFormed)
    (hencoding : c.encoding = a.encoding)
    (haccepts : ∀ w, c.accepts w = true → a.accepts w = true ∨ b.accepts w = true) : Within e c where
  wellFormed := hwf
  encoding := hencoding.trans ha.encoding
  codePoint w hw := (haccepts w hw).elim (ha.codePoint w) (hb.codePoint w)

theorem Within.union (ha : Within e a) (hb : Within e b) (h : a.union b = .ok c) : Within e c := by
  refine ha.combine hb (wellFormed_union ha.wellFormed hb.wellFormed h) (encoding_union h) fun w hw => ?_
  rw [accepts_union ha.wellFormed hb.wellFormed h] at hw
  exact Bool.or_eq_true_iff.1 hw

theorem Within.intersect (ha : Within e a) (hb : Within e b) (h : a.intersect b = .ok c) : Within e c := by
  refine ha.combine hb (wellFormed_intersect ha.wellFormed hb.wellFormed h) (encoding_intersect h)
    fun w hw => ?_
  rw [accepts_intersect ha.wellFormed hb.wellFormed h] at hw
  exact .inl (Bool.and_eq_true_iff.1 hw).1

theorem Within.difference (ha : Within e a) (hb : Within e b) (h : a.difference b = .ok c) :
    Within e c := by
  refine ha.combine hb (wellFormed_difference ha.wellFormed hb.wellFormed h) (encoding_difference h)
    fun w hw => ?_
  rw [accepts_difference ha.wellFormed hb.wellFormed h] at hw
  exact .inl (Bool.and_eq_true_iff.1 hw).1

theorem Within.inverse (hc : Within e c) (hr : r.SelfBuilt)
    (hnone : r.anySets.find? (·.1 = e) = none → (r.prebuiltAny files e).1 = none)
    (h : (c.inverse r files).1 = .ok d) : Within e d := by
  obtain rfl := hc.encoding
  obtain ⟨d', hd', hwf, he, haccepts⟩ := inverse_spec hc.wellFormed hr hnone
  obtain rfl : d' = d := Except.ok.inj (hd'.symm.trans h)
  exact ⟨hwf, he, fun w hw => ((haccepts w).1 hw).1⟩

theorem OfCodePoints.within (h : OfCodePoints e c) : Within e c := by
  induction h with
  | ofRange first last => exact within_ofRange e first last
  | ofChar ch => exact within_ofChar e ch
  | ofCased ch f ignoreCase h =>
    exact ofCased_induction (within_ofChar e ch)
      (fun total ch next htotal hnext => htotal.union (within_ofChar e ch) hnext) h
  | union _ _ h ha hb => exact ha.union hb h
  | intersect _ _ h ha hb => exact ha.intersect hb h
  | difference _ _ h ha hb => exact ha.difference hb h
  | inverse _ hr hnone h hc => exact hc.inverse hr hnone h
  | toTree _ hc =>
    refine hc.combine hc (wellFormed_toTree hc.wellFormed) encoding_toTree fun w hw => ?_
    exact .inl (by rwa [accepts_toTree hc.wellFormed] at hw)
  | toGraph _ hc =>
    obtain ⟨hwf, hsame⟩ := wellFormed_toGraph hc.wellFormed
    exact hc.combine hc hwf encoding_toGraph fun w hw => .inl (by rwa [hsame] at hw)

/-! ## Telling characters apart -/

theorem Within.eq_nil (h : Within e c) {u v : List UInt8} (hu : c.accepts u = true)
    (huv : c.accepts (u ++ v) = true) : v = [] := by
  obtain ⟨n, hn⟩ := h.codePoint u hu
  obtain ⟨m, hm⟩ := h.codePoint (u ++ v) huv
  exact Encoding.prefix_free hn hm

/-- In sets of code points no character starts with the bytes of another one, and no set is refused for
that when it is written to a file. -/
theorem OfCodePoints.distinguishable (h : OfCodePoints e c) :
    (∀ u v, c.accepts u = true → c.accepts (u ++ v) = true → v = []) ∧
      ∀ q, c.encodeFile ≠ .error (.nonDeterministic q) := by
  have hfree : ∀ u v, c.accepts u = true → c.accepts (u ++ v) = true → v = [] :=
    fun u v => h.within.eq_nil
  exact ⟨hfree, encodeFile_ne_nonDeterministic h.within.wellFormed hfree⟩

/-- All characters but one, among them some with two bytes and some with four. -/
theorem OfCodePoints.distinguishable_allButOne :
    ∃ d, ((ofString .utf16le (String.singleton 'A')).inverse (.empty none) .empty).1 = .ok d ∧
      OfCodePoints .utf16le d ∧ d.accepts [0x42, 0x00] = true ∧ d.accepts [0x00, 0xD8, 0x00, 0xDC] = true ∧
      (∀ u v, d.accepts u = true → d.accepts (u ++ v) = true → v = []) ∧
      ∀ q, d.encodeFile ≠ .error (.nonDeterministic q) := by
  have hr : (Catalog.empty none).SelfBuilt := by
    intro entry hentry
    cases hentry
  obtain ⟨d, hd, -, -, haccepts⟩ := inverse_spec (r := .empty none)
    (wellFormed_ofString .utf16le (String.singleton 'A')) hr fun _ => rfl
  have hof := OfCodePoints.inverse (.ofChar 'A') hr (fun _ => rfl) hd
  have hother : ∀ w n, Encoding.utf16le.encode n = some w →
      Encoding.utf16le.encode 'A'.toNat ≠ some w → d.accepts w = true := by
    intro w n hn hne
    refine (haccepts w).2 ⟨⟨n, hn⟩, ?_⟩
    rw [← Bool.not_eq_true, accepts_ofString_singleton]
    exact hne
  exact ⟨d, hd, hof, hother _ 0x42 (by decide) (by decide), hother _ 0x10000 (by decide) (by decide),
    hof.distinguishable⟩

end CharSet
end ByteMatch
