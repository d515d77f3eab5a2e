import ByteMatch.Catalog
import ByteMatch.Proofs.CharSet.FileFormat
import ByteMatch.Proofs.CharSet.Sequence
import ByteMatch.Proofs.Machine.Run

/-!
# ByteMatch.Proofs.CharSet.Session

Sets of characters stay well-formed, whatever is done with them.

* `Session`, `Session.Operation`: the sets, catalogs and machines of a program, and what it does with
  them.
* `Session.Admits`: a run that only appends to unambiguous sets, and whose catalogs find no file with
  all characters.
* `Session.Valid.perform`, `Session.Valid.run`: what one operation and a whole run keep.
* `Session.wellFormed_run`: all sets of a run are well-formed.
-/

namespace ByteMatch

/-! ## Catalogs -/

namespace Catalog

variable {r : Catalog} {files : Store} {e : Encoding}

/-- The sets of all characters have been built from the code points, and none has been read. -/
def SelfBuilt (r : Catalog) : Prop :=
  ∀ entry ∈ r.anySets, entry.2 = CharSet.ofRange entry.1 0 Encoding.lastCodePoint

theorem anySets_load (r : Catalog) (files : Store) (path : Path) :
    (r.load files path).2.anySets = r.anySets := by
  rw [load]
  cases r.loaded.find? (·.1 = path.steps) with
  | some _ => rfl
  | none => cases CharSet.load files path <;> rfl

theorem anySets_prebuiltAny (r : Catalog) (files : Store) (e : Encoding) :
    (r.prebuiltAny files e).2.anySets = r.anySets := by
  rw [prebuiltAny]
  cases r.pathOf e (.ofString "any") with
  | none => rfl
  | some path =>
    by_cases hfile : files.isFile path
    · simp only [hfile, if_true]
      have := anySets_load r files path
      cases hload : r.load files path with
      | mk result r' =>
        rw [hload] at this
        cases result <;> exact this
    · simp only [hfile]
      rfl

theorem SelfBuilt.add {whole : CharSet} (h : r.SelfBuilt)
    (hwhole : whole = CharSet.ofRange e 0 Encoding.lastCodePoint) :
    SelfBuilt { r with anySets := (e, whole) :: r.anySets } := by
  -- the set is a variable, as a check that computes would go through all code points
  intro entry hentry
  cases List.mem_cons.1 hentry with
  | inl hnew =>
    rw [hnew]
    exact hwhole
  | inr hold => exact h entry hold

/-- Unless a file is found, all characters are those of the code points. -/
theorem any_of_selfBuilt (h : r.SelfBuilt)
    (hnone : r.anySets.find? (·.1 = e) = none → (r.prebuiltAny files e).1 = none) :
    ∃ whole r', r.any files e = (whole, r') ∧
      whole = CharSet.ofRange e 0 Encoding.lastCodePoint ∧ r'.SelfBuilt := by
  cases hfind : r.anySets.find? (·.1 = e) with
  | some entry =>
    have hkey : entry.1 = e := by simpa using List.find?_some hfind
    have hset := h entry (List.mem_of_find?_eq_some hfind)
    rw [hkey] at hset
    exact ⟨entry.2, r, by rw [any, hfind], hset, h⟩
  | none =>
    cases hprebuilt : r.prebuiltAny files e with
    | mk prebuilt r' =>
      have hprebuiltNone := hnone hfind
      have hany := anySets_prebuiltAny r files e
      rw [hprebuilt] at hprebuiltNone hany
      have hbuilt : r'.SelfBuilt := fun entry hentry => h entry (hany ▸ hentry)
      have hwhole : prebuilt.getD (CharSet.ofRange e 0 Encoding.lastCodePoint) =
          CharSet.ofRange e 0 Encoding.lastCodePoint := by
        rw [show prebuilt = none from hprebuiltNone, Option.getD_none]
      exact ⟨_, _, by rw [any, hfind, hprebuilt], hwhole, hbuilt.add hwhole⟩

end Catalog

namespace CharSet

variable {c d : CharSet} {data : List UInt8}

/-! ## Single operations -/

theorem wellFormed_decodeFile (hc : c.WellFormed) (h : c.encodeFile = .ok data)
    (hd : decodeFile data = .ok d) : d.WellFormed := by
  rw [decodeFile_of_encodeFile hc h] at hd
  cases hd
  exact ⟨(toGraph_toTree_spec hc).1.states, fun hform => nomatch hform⟩

theorem unambiguous_of_size_lt (h : c.WellFormed) (hsize : c.size < 2) : c.states.Unambiguous := by
  intro p label q leaf he
  rw [Automaton.Edge, h.states.transitions_of_size_lt hsize p] at he
  simp at he

end CharSet

/-! ## Sessions -/

/-- The sets, catalogs and machines that a program has made so far. -/
structure Session where
  sets : List CharSet
  catalogs : List Catalog
  machines : List Machine

namespace Session

variable {s : Session} {made : Option CharSet} {i : Nat}

/-- What a program does. Sets, catalogs and machines are given by their numbers. -/
inductive Operation where
  | openCatalog (r : Catalog)
  | openMachine (m : Machine)
  | empty (e : Encoding)
  | ofRange (e : Encoding) (first last : Nat)
  | ofString (e : Encoding) (text : String)
  | ofCased (e : Encoding) (text : String) (f : CaseFolding) (ignoreCase : Bool)
  | copy (i : Nat)
  | reload (i : Nat)
  | addByteRange (i first last : Nat)
  | union (i j : Nat)
  | intersect (i j : Nat)
  | difference (i j : Nat)
  | sequence (i j : Nat)
  | inverse (i catalog : Nat) (files : Store)
  | toTree (i : Nat)
  | toGraph (i : Nat)
  | install (i machine : Nat) (reported : Limits)

def start : Session := ⟨[], [], []⟩

/-- Adds a set if one has been made. -/
def create (s : Session) (made : Option CharSet) : Session :=
  { s with sets := s.sets ++ made.toList }

/-- Replaces a set. One whose operation failed stays as it is. -/
def replace (s : Session) (i : Nat) (made : Option CharSet) : Session :=
  { s with sets := s.sets.modify i made.getD }

def combine (s : Session) (op : CharSet → CharSet → Except CharSetError CharSet) (i j : Nat) : Session :=
  s.replace i (s.sets[i]?.bind fun a => s.sets[j]?.bind fun b => (op a b).toOption)

/-- The session after an operation, which may have failed. -/
def perform (s : Session) : Operation → Session
  | .openCatalog r => { s with catalogs := s.catalogs ++ [r] }
  | .openMachine m => { s with machines := s.machines ++ [m] }
  | .empty e => s.create (some (.empty e))
  | .ofRange e first last => s.create (some (.ofRange e first last))
  | .ofString e text => s.create (some (.ofString e text))
  | .ofCased e text f ignoreCase => s.create (CharSet.ofCased e text f ignoreCase).toOption
  | .copy i => s.create s.sets[i]?
  | .reload i => s.create (s.sets[i]?.bind fun c => c.encodeFile.toOption.bind fun data =>
      (CharSet.decodeFile data).toOption)
  | .addByteRange i first last =>
    s.replace i (s.sets[i]?.bind fun c => (c.addByteRange first last).toOption)
  | .union i j => s.combine CharSet.union i j
  | .intersect i j => s.combine CharSet.intersect i j
  | .difference i j => s.combine CharSet.difference i j
  | .sequence i j => s.combine CharSet.sequence i j
  | .inverse i k files =>
    match s.sets[i]?, s.catalogs[k]? with
    | some c, some r => { s.replace i (c.inverse r files).1.toOption with
        catalogs := s.catalogs.set k (c.inverse r files).2 }
    | _, _ => s
  | .toTree i => s.replace i (s.sets[i]?.map CharSet.toTree)
  | .toGraph i => s.replace i (s.sets[i]?.map CharSet.toGraph)
  | .install i k reported =>
    match s.sets[i]?, s.machines[k]? with
    | some c, some m => { s.replace i (some c.toGraph) with
        machines := s.machines.set k (m.after (.install c reported)) }
    | _, _ => s

def run (s : Session) (ops : List Operation) : Session := ops.foldl perform s

/-- What an operation relies on: no catalog reads the set of all characters from a file, and no byte
both ends a character of a set that is appended to and leads on there. -/
def Admissible (s : Session) : Operation → Prop
  | .openCatalog r => r.SelfBuilt
  | .sequence i _ => ∀ c, s.sets[i]? = some c → c.states.Unambiguous
  | .inverse i k files => ∀ c r, s.sets[i]? = some c → s.catalogs[k]? = some r →
      r.anySets.find? (·.1 = c.encoding) = none → (r.prebuiltAny files c.encoding).1 = none
  | _ => True

/-- Each operation of a run has what it relies on. -/
def Admits (s : Session) : List Operation → Prop
  | [] => True
  | op :: ops => s.Admissible op ∧ (s.perform op).Admits ops

/-! ## What a run keeps -/

/-- All sets are well-formed, and no catalog has read the set of all characters. -/
structure Valid (s : Session) : Prop where
  sets : ∀ c ∈ s.sets, c.WellFormed
  catalogs : ∀ r ∈ s.catalogs, r.SelfBuilt

theorem Valid.create (h : s.Valid) (hmade : ∀ c, made = some c → c.WellFormed) :
    (s.create made).Valid where
  sets c hc := by
    cases List.mem_append.1 hc with
    | inl hold => exact h.sets c hold
    | inr hnew => exact hmade c (Option.mem_toList.1 hnew)
  catalogs := h.catalogs

/-- A set was there before the replacement, or it is the one that has been made. -/
theorem mem_sets_replace {c : CharSet} (hc : c ∈ (s.replace i made).sets) :
    c ∈ s.sets ∨ made = some c := by
  obtain ⟨k, hk⟩ := List.mem_iff_getElem?.1 hc
  rw [Session.replace, List.getElem?_modify] at hk
  obtain ⟨old, hold, hnew⟩ := Option.map_eq_some_iff.1 hk
  have hmem := List.mem_of_getElem? hold
  by_cases hik : i = k
  · rw [if_pos hik] at hnew
    cases made with
    | none => exact .inl (hnew ▸ hmem)
    | some c' => exact .inr (congrArg some hnew)
  · rw [if_neg hik] at hnew
    exact .inl (hnew ▸ hmem)

theorem Valid.replace (h : s.Valid) (hmade : ∀ c, made = some c → c.WellFormed) :
    (s.replace i made).Valid where
  sets c hc := (mem_sets_replace hc).elim (h.sets c) (hmade c)
  catalogs := h.catalogs

theorem Valid.wellFormed (h : s.Valid) {c : CharSet} (hc : s.sets[i]? = some c) : c.WellFormed :=
  h.sets c (List.mem_of_getElem? hc)

theorem toOption_eq_some {ε α : Type} {result : Except ε α} {x : α} :
    result.toOption = some x ↔ result = .ok x := by
  cases result <;> simp [Except.toOption]

/-- A combination that keeps sets well-formed, at least those that are combined, keeps a session
valid. -/
theorem Valid.combine {op : CharSet → CharSet → Except CharSetError CharSet} {j : Nat} (h : s.Valid)
    (hop : ∀ a b c, s.sets[i]? = some a → a.WellFormed → b.WellFormed → op a b = .ok c → c.WellFormed) :
    (s.combine op i j).Valid := by
  refine h.replace fun c hc => ?_
  obtain ⟨a, ha, hc⟩ := Option.bind_eq_some_iff.1 hc
  obtain ⟨b, hb, hc⟩ := Option.bind_eq_some_iff.1 hc
  exact hop a b c ha (h.wellFormed ha) (h.wellFormed hb) (toOption_eq_some.1 hc)

theorem Valid.inverse {k : Nat} {files : Store} (h : s.Valid)
    (hop : s.Admissible (.inverse i k files)) : (s.perform (.inverse i k files)).Valid := by
  cases hc : s.sets[i]? with
  | none => simpa only [Session.perform, hc] using h
  | some c =>
    cases hr : s.catalogs[k]? with
    | none => simpa only [Session.perform, hc, hr] using h
    | some r =>
      obtain ⟨whole, r', hany, hwhole, hkept⟩ := Catalog.any_of_selfBuilt
        (h.catalogs r (List.mem_of_getElem? hr)) (hop c r hc hr)
      have hwhole : whole.WellFormed := hwhole ▸ CharSet.wellFormed_ofRange _ _ _
      have hinverse : c.inverse r files = (whole.difference c, r') := by rw [CharSet.inverse, hany]
      have hreplaced : (s.replace i (whole.difference c).toOption).Valid :=
        h.replace fun d hd => CharSet.wellFormed_difference hwhole (h.wellFormed hc) (toOption_eq_some.1 hd)
      simp only [Session.perform, hc, hr, hinverse]
      refine ⟨hreplaced.sets, fun r'' hr'' => ?_⟩
      cases List.mem_or_eq_of_mem_set hr'' with
      | inl hold => exact h.catalogs r'' hold
      | inr hnew => exact hnew ▸ hkept

/-- A machine takes a graph, which the session keeps in place of the set. -/
theorem Valid.install {k : Nat} {reported : Limits} (h : s.Valid) :
    (s.perform (.install i k reported)).Valid := by
  cases hc : s.sets[i]? with
  | none => simpa only [Session.perform, hc] using h
  | some c =>
    cases hm : s.machines[k]? with
    | none => simpa only [Session.perform, hc, hm] using h
    | some m =>
      have hgraph := (CharSet.wellFormed_toGraph (h.wellFormed hc)).1
      have hreplaced := h.replace (i := i) fun d hd => Option.some.inj hd ▸ hgraph
      simp only [Session.perform, hc, hm]
      exact ⟨hreplaced.sets, hreplaced.catalogs⟩

theorem Valid.perform {op : Operation} (h : s.Valid) (hop : s.Admissible op) : (s.perform op).Valid := by
  cases op with
  | openCatalog r =>
    refine ⟨h.sets, fun r' hr' => ?_⟩
    cases List.mem_append.1 hr' with
    | inl hold => exact h.catalogs r' hold
    | inr hnew => exact List.mem_singleton.1 hnew ▸ hop
  | openMachine m => exact ⟨h.sets, h.catalogs⟩
  | empty e => exact h.create fun c hc => Option.some.inj hc ▸ CharSet.wellFormed_empty e
  | ofRange e first last =>
    exact h.create fun c hc => Option.some.inj hc ▸ CharSet.wellFormed_ofRange e first last
  | ofString e text =>
    exact h.create fun c hc => Option.some.inj hc ▸ CharSet.wellFormed_ofString e text
  | ofCased e text f ignoreCase =>
    exact h.create fun c hc => CharSet.wellFormed_ofCased (toOption_eq_some.1 hc)
  | copy i => exact h.create fun c hc => h.wellFormed hc
  | reload i =>
    -- only what has been written from a well-formed set is read, not any bytes
    refine h.create fun d hd => ?_
    obtain ⟨c, hc, hd⟩ := Option.bind_eq_some_iff.1 hd
    obtain ⟨data, hdata, hd⟩ := Option.bind_eq_some_iff.1 hd
    exact CharSet.wellFormed_decodeFile (h.wellFormed hc) (toOption_eq_some.1 hdata)
      (toOption_eq_some.1 hd)
  | addByteRange i first last =>
    refine h.replace fun d hd => ?_
    obtain ⟨c, hc, hd⟩ := Option.bind_eq_some_iff.1 hd
    exact CharSet.wellFormed_addByteRange (h.wellFormed hc) (toOption_eq_some.1 hd)
  | union i j => exact h.combine fun a b c _ ha hb => CharSet.wellFormed_union ha hb
  | intersect i j => exact h.combine fun a b c _ ha hb => CharSet.wellFormed_intersect ha hb
  | difference i j => exact h.combine fun a b c _ ha hb => CharSet.wellFormed_difference ha hb
  | sequence i j =>
    exact h.combine fun a b c hi ha hb => CharSet.wellFormed_sequence ha hb (hop a hi)
  | inverse i k files => exact h.inverse hop
  -- a conversion keeps the set well-formed in either form, so that it does not matter which one it had
  | toTree i =>
    refine h.replace fun d hd => ?_
    obtain ⟨c, hc, rfl⟩ := Option.map_eq_some_iff.1 hd
    exact CharSet.wellFormed_toTree (h.wellFormed hc)
  | toGraph i =>
    refine h.replace fun d hd => ?_
    obtain ⟨c, hc, rfl⟩ := Option.map_eq_some_iff.1 hd
    exact (CharSet.wellFormed_toGraph (h.wellFormed hc)).1
  | install i k reported => exact h.install

theorem Valid.run {ops : List Operation} (h : s.Valid) (hops : s.Admits ops) : (s.run ops).Valid := by
  induction ops generalizing s with
  | nil => exact h
  | cons op ops ih => exact ih (h.perform hops.1) hops.2

theorem valid_start : start.Valid where
  sets _ hc := nomatch hc
  catalogs _ hr := nomatch hr

/-- All sets that a run makes are well-formed. None of their states is a hole, and nothing leads to
the root of a tree. -/
theorem wellFormed_run {ops : List Operation} (h : start.Admits ops) :
    ∀ c ∈ (start.run ops).sets, c.WellFormed ∧
      (∀ q, q < c.size → (c.states.state q).isHole = false) ∧
      (c.form = .tree → ∀ p, ¬ c.states.Child p 0) := by
  intro c hc
  have hwf := (valid_start.run h).sets c hc
  exact ⟨hwf, fun q hq => (hwf.states.productive q hq).not_isHole, fun _ => hwf.states.root_orphan⟩

/-- Sets that are made, appended to, inverted, loaded into a machine, written and read. -/
def mixedRun : List Operation :=
  [.openCatalog (.empty none), .openMachine (.empty {}), .ofString .ascii "a", .ofString .ascii "b",
    .sequence 0 1, .addByteRange 1 0 9, .union 1 0, .inverse 1 0 .empty, .copy 0, .toTree 2,
    .install 2 0 {}, .reload 0]

theorem admits_mixedRun : start.Admits mixedRun := by
  refine ⟨?_, trivial, trivial, trivial, ?_, trivial, trivial, ?_, trivial, trivial, trivial, trivial,
    trivial⟩
  · intro entry hentry
    cases hentry
  · intro c hc
    obtain rfl : CharSet.ofString .ascii "a" = c := Option.some.inj hc
    exact CharSet.unambiguous_of_size_lt (CharSet.wellFormed_ofString .ascii "a") (by decide +kernel)
  · intro c r _ hr _
    obtain rfl : Catalog.empty none = r := Option.some.inj hr
    rfl

theorem wellFormed_run_mixed : start.Admits mixedRun ∧ (start.run mixedRun).sets.length = 4 ∧
    ∀ c ∈ (start.run mixedRun).sets, c.WellFormed ∧
      (∀ q, q < c.size → (c.states.state q).isHole = false) ∧
      (c.form = .tree → ∀ p, ¬ c.states.Child p 0) :=
  ⟨admits_mixedRun, by decide +kernel, wellFormed_run admits_mixedRun⟩

end Session
end ByteMatch
