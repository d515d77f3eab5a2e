import ByteMatch.CharSet.FileFormat
import ByteMatch.Proofs.Step

/-!
# ByteMatch.Proofs.CharSet.FileLayout

The layout of class files, and the readers of their parts.

* `ClassFile.Layout`: the bytes that may stand for a value, for each part of a file up to
  `ClassFile.Layout.file`.
* `ClassFile.Reads`: a reader succeeds if and only if its input starts with bytes of a layout, and it takes
  just these. `Reads.bind`, `Reads.view`, `Reads.check`, `Reads.pair`, `Reads.many` and `Reads.counted` are
  for readers that are put together.
* `ClassFile.reads_readContents`: all that precedes the checksum.
-/

namespace ByteMatch
namespace ClassFile

variable {α β : Type} {item : Reader α} {input rest : List UInt8} {x : α} {y : β} {n : Nat}

/-! ## Layouts -/

/-- Which bytes may stand for which values. -/
abbrev Layout (α : Type) := List UInt8 → α → Prop

namespace Layout

/-- Two bytes, the least significant first. -/
def number : Layout Nat := fun bytes n => n < 65536 ∧ bytes = numberBytes n

/-- An indicator and the bytes that it announces, the most significant first. From the position in the
indicator on they have to fit into the map. -/
def code : Layout ByteSet := fun bytes set => ∃ indicator serial, bytes = indicator :: serial ∧
  serial.length = ByteSet.serialLength indicator ∧
  indicator.toNat % 32 + serial.length ≤ ByteSet.mapLength ∧
  set = ByteSet.ofLeBytes (List.replicate (indicator.toNat % 32) 0 ++ serial.reverse)

/-- Two values, one after the other. -/
def pair (P : Layout α) (Q : Layout β) : Layout (α × β) := fun bytes v =>
  ∃ first second, bytes = first ++ second ∧ P first v.1 ∧ Q second v.2

/-- Values of one kind, one after the other. -/
inductive Series (P : Layout α) : List UInt8 → List α → Prop where
  | nil : Series P [] []
  | cons {first rest : List UInt8} {x : α} {xs : List α} :
      P first x → Series P rest xs → Series P (first ++ rest) (x :: xs)

theorem series_cons {P : Layout α} {bytes : List UInt8} {xs : List α} : Series P bytes (x :: xs) ↔
    ∃ first rest, bytes = first ++ rest ∧ P first x ∧ Series P rest xs := by
  constructor
  · intro h
    cases h with
    | @cons first rest _ _ hx hxs => exact ⟨first, rest, rfl, hx, hxs⟩
  · rintro ⟨first, rest, rfl, hx, hxs⟩
    exact .cons hx hxs

/-- The number of values, and the values. -/
def counted (P : Layout α) : Layout (List α) := fun bytes xs =>
  ∃ first rest, bytes = first ++ rest ∧ number first xs.length ∧ Series P rest xs

/-- A destination and a label. -/
def transition : Layout (Nat × ByteSet) := pair number code

/-- A state and its transitions. -/
def transitionRecord : Layout (Nat × List (Nat × ByteSet)) := pair number (counted transition)

/-- A state and its leaf. -/
def leafRecord : Layout (Nat × ByteSet) := pair number code

/-- A name of an encoding. -/
def name : Layout Encoding := fun bytes e =>
  ∃ text : String, bytes = text.toUTF8.data.toList ∧ Encoding.ofName? text = some e

/-- The header, the name and the records, and nothing after them. -/
def contents : Layout Contents := fun bytes c =>
  ∃ header nameBytes transitions leaves, bytes = header ++ nameBytes ++ transitions ++ leaves ∧
    Series number header
      [magic, nameBytes.length, c.stateCount, c.transitions.length, c.leaves.length] ∧
    name nameBytes c.encoding ∧ Series transitionRecord transitions c.transitions ∧
    Series leafRecord leaves c.leaves

/-- The contents and their checksum. -/
def file : Layout Contents := fun data c => ∃ body, data = sealed body ∧ contents body c

end Layout

/-! ## Readers -/

/-- The reader succeeds where the input starts with bytes of the layout, and takes these. -/
def Reads (item : Reader α) (P : Layout α) : Prop :=
  ∀ input x rest, item input = .ok (x, rest) ↔ ∃ bytes, P bytes x ∧ input = bytes ++ rest

theorem bind_ok {f : α → Reader β} : (item >>= f) input = .ok (y, rest) ↔
    ∃ x mid, item input = .ok (x, mid) ∧ f x mid = .ok (y, rest) := by
  show (item input >>= fun (x, mid) => f x mid) = _ ↔ _
  rw [Step.except_bind_ok, Prod.exists]

namespace Reads

variable {P : Layout α} {Q : α → Layout β}

theorem congr {P' : Layout α} (h : Reads item P) (heq : ∀ bytes x, P bytes x ↔ P' bytes x) :
    Reads item P' := fun input x rest => by
  rw [h input x rest]
  exact exists_congr fun bytes => and_congr_left' (heq bytes x)

/-- One reader after the other. -/
theorem bind {f : α → Reader β} (h : Reads item P) (hf : ∀ x, Reads (f x) (Q x)) :
    Reads (item >>= f) fun bytes y => ∃ first second x, bytes = first ++ second ∧ P first x ∧ Q x second y := by
  intro input y rest
  rw [bind_ok]
  constructor
  · rintro ⟨x, mid, hx, hy⟩
    obtain ⟨first, hfirst, rfl⟩ := (h _ _ _).1 hx
    obtain ⟨second, hsecond, rfl⟩ := (hf x _ _ _).1 hy
    exact ⟨first ++ second, ⟨first, second, x, rfl, hfirst, hsecond⟩, (List.append_assoc ..).symm⟩
  · rintro ⟨_, ⟨first, second, x, rfl, hfirst, hsecond⟩, rfl⟩
    exact ⟨x, second ++ rest, (h _ _ _).2 ⟨first, hfirst, List.append_assoc ..⟩,
      (hf x _ _ _).2 ⟨second, hsecond, rfl⟩⟩

/-- A reader whose value is looked at, without taking any more of the input. -/
theorem view {f : α → Reader β} {R : α → β → Prop} (h : Reads item P)
    (hf : ∀ x mid y rest, f x mid = .ok (y, rest) ↔ R x y ∧ mid = rest) :
    Reads (item >>= f) fun bytes y => ∃ x, P bytes x ∧ R x y := by
  intro input y rest
  rw [bind_ok]
  constructor
  · rintro ⟨x, mid, hx, hy⟩
    obtain ⟨bytes, hbytes, rfl⟩ := (h _ _ _).1 hx
    obtain ⟨hR, rfl⟩ := (hf x _ _ _).1 hy
    exact ⟨bytes, ⟨x, hbytes, hR⟩, rfl⟩
  · rintro ⟨bytes, ⟨x, hbytes, hR⟩, rfl⟩
    exact ⟨x, rest, (h _ _ _).2 ⟨bytes, hbytes, rfl⟩, (hf x _ _ _).2 ⟨hR, rfl⟩⟩

/-- A check before a reader. -/
theorem check {c : Prop} [Decidable c] {e : FileError} {k : PUnit → Reader α} (h : Reads item P) :
    Reads (if c then throw e >>= k else item) fun bytes x => ¬ c ∧ P bytes x := by
  intro input x rest
  split
  · rename_i hc
    refine ⟨fun h => (by cases h), ?_⟩
    rintro ⟨bytes, ⟨hpass, -⟩, -⟩
    exact absurd hc hpass
  · rename_i hc
    rw [h input x rest]
    exact exists_congr fun bytes => and_congr_left' (and_iff_right hc).symm

theorem map {g : α → β} (h : Reads item P) :
    Reads (item >>= fun x => pure (g x)) fun bytes y => ∃ x, P bytes x ∧ g x = y :=
  h.view fun x mid y rest => by
    show Except.ok (g x, mid) = Except.ok (y, rest) ↔ _
    rw [Except.ok.injEq, Prod.mk.injEq]

theorem pair {item' : Reader β} {P' : Layout β} (h : Reads item P) (h' : Reads item' P') :
    Reads (do let x ← item; let y ← item'; pure (x, y)) (P.pair P') := by
  refine (h.bind fun x => h'.map).congr fun bytes v => ?_
  constructor
  · rintro ⟨first, second, x, rfl, hx, y, hy, rfl⟩
    exact ⟨first, second, rfl, hx, hy⟩
  · rintro ⟨first, second, rfl, hx, hy⟩
    exact ⟨first, second, v.1, rfl, hx, v.2, hy, rfl⟩

end Reads

theorem reads_readByte : Reads readByte fun bytes b => bytes = [b] := by
  intro input b rest
  cases input with
  | nil => simp [readByte]
  | cons first input => simp [readByte]

theorem reads_readBytes (n : Nat) :
    Reads (readBytes n) fun bytes taken => bytes = taken ∧ taken.length = n := by
  intro input taken rest
  rw [readBytes, List.splitAt_eq]
  split
  · rename_i hle
    rw [Except.ok.injEq, Prod.mk.injEq]
    constructor
    · rintro ⟨rfl, rfl⟩
      exact ⟨_, ⟨rfl, List.length_take_of_le hle⟩, (List.take_append_drop n input).symm⟩
    · rintro ⟨_, ⟨rfl, rfl⟩, rfl⟩
      exact ⟨List.take_left, List.drop_left⟩
  · rename_i hlt
    refine ⟨fun h => (by cases h), ?_⟩
    rintro ⟨_, ⟨rfl, rfl⟩, rfl⟩
    exact absurd (by simp) hlt

theorem numberBytes_toNat (low high : UInt8) : numberBytes (low.toNat + 256 * high.toNat) = [low, high] := by
  have hlow := low.toNat_lt
  rw [numberBytes, show (low.toNat + 256 * high.toNat) % 256 = low.toNat by omega,
    show (low.toNat + 256 * high.toNat) / 256 = high.toNat by omega, UInt8.ofNat_toNat, UInt8.ofNat_toNat]

theorem reads_readNumber : Reads readNumber Layout.number := by
  refine (reads_readByte.bind fun low => reads_readByte.map).congr fun bytes n => ?_
  constructor
  · rintro ⟨_, _, low, rfl, rfl, high, rfl, rfl⟩
    have hlow := low.toNat_lt
    have hhigh := high.toNat_lt
    exact ⟨by omega, (numberBytes_toNat low high).symm⟩
  · rintro ⟨hn, rfl⟩
    refine ⟨[UInt8.ofNat (n % 256)], [UInt8.ofNat (n / 256)], _, rfl, rfl, _, rfl, ?_⟩
    rw [UInt8.toNat_ofNat', UInt8.toNat_ofNat']
    omega

theorem ofSerial?_eq_some_iff {indicator : UInt8} {serial : List UInt8} {set : ByteSet} :
    ByteSet.ofSerial? indicator serial = some set ↔
      (serial.length = ByteSet.serialLength indicator ∧
        indicator.toNat % 32 + serial.length ≤ ByteSet.mapLength) ∧
      ByteSet.ofLeBytes (List.replicate (indicator.toNat % 32) 0 ++ serial.reverse) = set := by
  rw [ByteSet.ofSerial?]
  split
  · rename_i h
    rw [Option.some_inj, and_iff_right h]
  · rename_i h
    exact ⟨fun h' => (by cases h'), fun h' => absurd h'.1 h⟩

theorem reads_readCode : Reads readCode Layout.code := by
  refine (reads_readByte.bind fun indicator => (reads_readBytes _).view
    (R := fun serial set => ByteSet.ofSerial? indicator serial = some set)
    fun serial mid set rest => ?_).congr fun bytes set => ?_
  · cases ByteSet.ofSerial? indicator serial with
    | none => exact ⟨fun h => (by cases h), fun h => (by cases h.1)⟩
    | some set' =>
      show Except.ok (set', mid) = Except.ok (set, rest) ↔ _
      rw [Except.ok.injEq, Prod.mk.injEq, Option.some_inj]
  · constructor
    · rintro ⟨_, serial, indicator, rfl, rfl, _, ⟨rfl, hlength⟩, hset⟩
      obtain ⟨⟨-, hfits⟩, rfl⟩ := ofSerial?_eq_some_iff.1 hset
      exact ⟨indicator, serial, rfl, hlength, hfits, rfl⟩
    · rintro ⟨indicator, serial, rfl, hlength, hfits, rfl⟩
      exact ⟨[indicator], serial, indicator, rfl, rfl, serial, ⟨rfl, hlength⟩,
        ofSerial?_eq_some_iff.2 ⟨⟨hlength, hfits⟩, rfl⟩⟩

theorem Reads.onto {P : Layout α} (h : Reads item P) (n : Nat) (taken : List α) :
    Reads (readOnto item n taken) fun bytes xs =>
      ∃ new, xs = taken.reverse ++ new ∧ new.length = n ∧ Layout.Series P bytes new := by
  induction n generalizing taken with
  | zero =>
    intro input xs rest
    show Except.ok (taken.reverse, input) = Except.ok (xs, rest) ↔ _
    rw [Except.ok.injEq, Prod.mk.injEq]
    constructor
    · rintro ⟨rfl, rfl⟩
      exact ⟨[], ⟨[], (List.append_nil _).symm, rfl, .nil⟩, rfl⟩
    · rintro ⟨bytes, ⟨new, rfl, hlength, hnew⟩, rfl⟩
      obtain rfl := List.length_eq_zero_iff.1 hlength
      cases hnew
      exact ⟨(List.append_nil _).symm, rfl⟩
  | succ n ih =>
    refine (h.bind fun x => ih (x :: taken)).congr fun bytes xs => ?_
    constructor
    · rintro ⟨first, second, x, rfl, hx, new, rfl, rfl, hnew⟩
      exact ⟨x :: new, by simp, rfl, .cons hx hnew⟩
    · rintro ⟨new, rfl, hlength, hnew⟩
      cases hnew with
      | nil => cases hlength
      | @cons first rest x xs hx hxs =>
        exact ⟨first, rest, x, rfl, hx, xs, by simp, Nat.succ.inj hlength, hxs⟩

theorem Reads.many {P : Layout α} (h : Reads item P) (n : Nat) :
    Reads (readMany item n) fun bytes xs => xs.length = n ∧ Layout.Series P bytes xs :=
  (h.onto n []).congr fun bytes xs => by simp

theorem Reads.counted {P : Layout α} (h : Reads item P) :
    Reads (readNumber >>= readMany item) (Layout.counted P) := by
  refine (reads_readNumber.bind h.many).congr fun bytes xs => ?_
  constructor
  · rintro ⟨first, rest, n, rfl, hn, rfl, hxs⟩
    exact ⟨first, rest, rfl, hn, hxs⟩
  · rintro ⟨first, rest, rfl, hn, hxs⟩
    exact ⟨first, rest, _, rfl, hn, rfl, hxs⟩

/-! ## Records -/

theorem reads_readTransition : Reads readTransition Layout.transition := reads_readNumber.pair reads_readCode

theorem reads_readLeafRecord : Reads readLeafRecord Layout.leafRecord := reads_readNumber.pair reads_readCode

theorem reads_readTransitionRecord : Reads readTransitionRecord Layout.transitionRecord := by
  have h := reads_readNumber.pair reads_readTransition.counted
  simp only [bind_assoc] at h
  exact h

theorem fromUTF8?_eq_some_iff {bytes : List UInt8} {text : String} :
    String.fromUTF8? ⟨bytes.toArray⟩ = some text ↔ bytes = text.toUTF8.data.toList := by
  have hbytes : (⟨bytes.toArray⟩ : ByteArray) = text.toByteArray ↔ bytes = text.toUTF8.data.toList :=
    ⟨fun h => congrArg (·.data.toList) h, fun h => h ▸ rfl⟩
  rw [String.fromUTF8?, ← hbytes]
  split
  · rw [Option.some_inj, ← String.toByteArray_inj]
    rfl
  · rename_i hinvalid
    exact ⟨fun h => (by cases h), fun h => absurd (h ▸ text.isValidUTF8) hinvalid⟩

theorem reads_readEncoding (n : Nat) :
    Reads (readEncoding n) fun bytes e => bytes.length = n ∧ Layout.name bytes e := by
  refine ((reads_readBytes n).view (R := Layout.name) fun taken mid e rest => ?_).congr fun bytes e => ?_
  · cases htext : String.fromUTF8? ⟨taken.toArray⟩ with
    | none =>
      refine ⟨fun h => (by cases h), ?_⟩
      rintro ⟨⟨text, hbytes, -⟩, -⟩
      rw [fromUTF8?_eq_some_iff.2 hbytes] at htext
      cases htext
    | some text =>
      have hname : Layout.name taken e ↔ Encoding.ofName? text = some e := by
        constructor
        · rintro ⟨text', hbytes, he⟩
          rw [fromUTF8?_eq_some_iff.2 hbytes] at htext
          exact Option.some.inj htext ▸ he
        · exact fun he => ⟨text, fromUTF8?_eq_some_iff.1 htext, he⟩
      rw [hname]
      dsimp only
      cases Encoding.ofName? text with
      | none => exact ⟨fun h => (by cases h), fun h => (by cases h.1)⟩
      | some e' =>
        show Except.ok (e', mid) = Except.ok (e, rest) ↔ _
        rw [Except.ok.injEq, Prod.mk.injEq, Option.some_inj]
  · constructor
    · rintro ⟨_, ⟨rfl, hlength⟩, hname⟩
      exact ⟨hlength, hname⟩
    · rintro ⟨hlength, hname⟩
      exact ⟨bytes, ⟨rfl, hlength⟩, hname⟩

/-- What follows the header. -/
theorem reads_body (nameLength stateCount transitionCount leafCount : Nat) :
    Reads (do
      let encoding ← readEncoding nameLength
      let transitions ← readMany readTransitionRecord transitionCount
      let leaves ← readMany readLeafRecord leafCount
      pure { encoding, stateCount, transitions, leaves }) fun bytes (c : Contents) =>
    ∃ nameBytes transitions leaves, bytes = nameBytes ++ (transitions ++ leaves) ∧
      [nameLength, stateCount, transitionCount, leafCount] =
        [nameBytes.length, c.stateCount, c.transitions.length, c.leaves.length] ∧
      Layout.name nameBytes c.encoding ∧
      Layout.Series Layout.transitionRecord transitions c.transitions ∧
      Layout.Series Layout.leafRecord leaves c.leaves := by
  refine ((reads_readEncoding nameLength).bind fun encoding =>
    (reads_readTransitionRecord.many transitionCount).bind fun transitions =>
    (reads_readLeafRecord.many leafCount).map).congr fun bytes c => ?_
  constructor
  · rintro ⟨nameBytes, _, e, rfl, ⟨rfl, hname⟩, transitions, leaves, _, rfl, ⟨rfl, ht⟩, _, ⟨rfl, hl⟩, rfl⟩
    exact ⟨nameBytes, transitions, leaves, rfl, rfl, hname, ht, hl⟩
  · rintro ⟨nameBytes, transitions, leaves, rfl, heq, hname, ht, hl⟩
    simp only [List.cons.injEq, and_true] at heq
    obtain ⟨rfl, rfl, rfl, rfl⟩ := heq
    exact ⟨nameBytes, _, c.encoding, rfl, ⟨rfl, hname⟩, transitions, leaves, c.transitions, rfl, ⟨rfl, ht⟩,
      c.leaves, ⟨rfl, hl⟩, rfl⟩

theorem reads_readContents : Reads readContents Layout.contents := by
  refine (reads_readNumber.bind fun version => reads_readNumber.bind fun nameLength =>
    reads_readNumber.bind fun stateCount => reads_readNumber.bind fun transitionCount =>
    reads_readNumber.bind fun leafCount =>
    (reads_body nameLength stateCount transitionCount leafCount).check).congr fun bytes c => ?_
  constructor
  · rintro ⟨h₁, _, _, rfl, hn₁, h₂, _, _, rfl, hn₂, h₃, _, _, rfl, hn₃, h₄, _, _, rfl, hn₄, h₅, _, _, rfl, hn₅,
      hmagic, nameBytes, transitions, leaves, rfl, heq, hparts⟩
    simp only [List.cons.injEq, and_true] at heq
    obtain ⟨rfl, rfl, rfl, rfl⟩ := heq
    obtain rfl := not_ne_iff.1 hmagic
    refine ⟨h₁ ++ (h₂ ++ (h₃ ++ (h₄ ++ (h₅ ++ [])))), nameBytes, transitions, leaves, by simp, ?_, hparts⟩
    exact .cons hn₁ (.cons hn₂ (.cons hn₃ (.cons hn₄ (.cons hn₅ .nil))))
  · rintro ⟨header, nameBytes, transitions, leaves, rfl, hheader, hparts⟩
    simp only [Layout.series_cons] at hheader
    obtain ⟨h₁, _, rfl, hn₁, h₂, _, rfl, hn₂, h₃, _, rfl, hn₃, h₄, _, rfl, hn₄, h₅, _, rfl, hn₅, hnil⟩ := hheader
    cases hnil
    exact ⟨h₁, _, _, by simp, hn₁, h₂, _, _, rfl, hn₂, h₃, _, _, rfl, hn₃, h₄, _, _, rfl, hn₄, h₅, _, _, rfl,
      hn₅, not_ne_iff.2 rfl, nameBytes, transitions, leaves, rfl, rfl, hparts⟩

end ClassFile
end ByteMatch
