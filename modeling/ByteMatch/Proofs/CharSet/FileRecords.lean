import ByteMatch.Proofs.Automaton.Paths
import ByteMatch.Proofs.CharSet.FileLayout

/-!
# ByteMatch.Proofs.CharSet.FileRecords

The sets that class files stand for.

* `ClassFile.Contents.InRange`: the records name states of the file only.
* `ClassFile.LastFor`, `ClassFile.Recorded`: an automaton with the transitions and leaves of records, in which
  the last one for a label or a leaf counts. There is only one such automaton (`Recorded.unique`).
* `ClassFile.automaton_ok_iff`, `ClassFile.automaton_ok_iff_recorded`: it can be built if and only if the
  records are in range.
* `CharSet.decodeFile_iff`, `CharSet.decodeFile_ok_iff`: the files that are read, and what they are read as.
-/

namespace ByteMatch
namespace ClassFile

variable {α β : Type} {n : Nat}

/-! ## The automaton of the records -/

/-- The records name states of the file only. -/
def Contents.InRange (c : Contents) : Prop :=
  (∀ record ∈ c.transitions, record.1 < c.stateCount ∧ ∀ entry ∈ record.2, entry.1 < c.stateCount) ∧
    ∀ record ∈ c.leaves, record.1 < c.stateCount

/-- The transitions of a record, each with its state and its label first. -/
def recordEdges (record : Nat × List (Nat × ByteSet)) : List ((Nat × ByteSet) × Nat) :=
  record.2.map fun entry => ((record.1, entry.2), entry.1)

theorem mem_recordEdges {q dest : Nat} {label : ByteSet} {record : Nat × List (Nat × ByteSet)} :
    ((q, label), dest) ∈ recordEdges record ↔ record.1 = q ∧ (dest, label) ∈ record.2 := by
  simp only [recordEdges, List.mem_map, Prod.exists, Prod.mk.injEq]
  constructor
  · rintro ⟨_, _, hentry, ⟨rfl, rfl⟩, rfl⟩
    exact ⟨rfl, hentry⟩
  · rintro ⟨rfl, hentry⟩
    exact ⟨_, _, hentry, ⟨rfl, rfl⟩, rfl⟩

/-- The transitions of all records, in their order. -/
def Contents.edges (c : Contents) : List ((Nat × ByteSet) × Nat) := c.transitions.flatMap recordEdges

/-- The last entry for the key has this value. -/
def LastFor (entries : List (α × β)) (key : α) (value : β) : Prop :=
  ∃ before after, entries = before ++ (key, value) :: after ∧ ∀ v, (key, v) ∉ after

/-- The automaton has `n` states, the transitions that come last for their states and labels, and the leaves
that come last for their states. -/
structure Recorded (n : Nat) (edges : List ((Nat × ByteSet) × Nat)) (leaves : List (Nat × ByteSet))
    (a : Automaton) : Prop where
  size : a.size = n
  edge : ∀ q label dest, a.Edge q label dest ↔ LastFor edges (q, label) dest
  leaf : ∀ q leaf, (a.state q).leaf = some leaf ↔ LastFor leaves q leaf

theorem LastFor.mem {entries : List (α × β)} {key : α} {value : β} (h : LastFor entries key value) :
    (key, value) ∈ entries := by
  obtain ⟨before, after, rfl, -⟩ := h
  simp

theorem not_lastFor_nil {key : α} {value : β} : ¬ LastFor [] key value := by
  rintro ⟨before, after, h, -⟩
  simp at h

/-- An entry that is added takes the place of all others for its key. -/
theorem lastFor_concat {entries : List (α × β)} {key key' : α} {value value' : β} :
    LastFor (entries ++ [(key, value)]) key' value' ↔
      (key' = key ∧ value' = value) ∨ (key' ≠ key ∧ LastFor entries key' value') := by
  constructor
  · rintro ⟨before, after, heq, hlast⟩
    cases after.eq_nil_or_concat' with
    | inl hnil =>
      subst hnil
      have hentry := (List.append_inj' heq rfl).2
      simp only [List.cons.injEq, Prod.mk.injEq, and_true] at hentry
      exact .inl ⟨hentry.1.symm, hentry.2.symm⟩
    | inr hconcat =>
      obtain ⟨after, entry, rfl⟩ := hconcat
      rw [← List.cons_append, ← List.append_assoc] at heq
      obtain ⟨rfl, hentry⟩ := List.append_inj' heq rfl
      obtain rfl := List.singleton_inj.1 hentry
      refine .inr ⟨fun hkey => ?_, before, after, rfl, fun v hv => hlast v (by simp [hv])⟩
      exact hlast value (by simp [hkey])
  · rintro (⟨rfl, rfl⟩ | ⟨hne, before, after, rfl, hlast⟩)
    · exact ⟨entries, [], rfl, by simp⟩
    · refine ⟨before, after ++ [(key, value)], by simp, fun v hv => ?_⟩
      cases List.mem_append.1 hv with
      | inl hafter => exact hlast v hafter
      | inr hentry => exact hne (Prod.mk.inj (List.mem_singleton.1 hentry)).1

/-- Where no key occurs twice, every entry is the last one for its key. -/
theorem lastFor_iff_mem {entries : List (α × β)} (hdistinct : entries.Pairwise fun e e' => e.1 ≠ e'.1)
    {key : α} {value : β} : LastFor entries key value ↔ (key, value) ∈ entries := by
  refine ⟨LastFor.mem, fun h => ?_⟩
  obtain ⟨before, after, rfl⟩ := List.append_of_mem h
  have hafter := (List.pairwise_cons.1 (List.pairwise_append.1 hdistinct).2.1).1
  exact ⟨before, after, rfl, fun v hv => hafter _ hv rfl⟩

namespace Recorded

variable {edges : List ((Nat × ByteSet) × Nat)} {leaves : List (Nat × ByteSet)} {a b : Automaton} {q : Nat}

theorem holes (n : Nat) : Recorded n [] [] (Array.replicate n State.hole) := by
  have hstate : ∀ q, Automaton.state (Array.replicate n State.hole) q = State.hole := by
    intro q
    rw [Automaton.state_eq_getD, Array.getElem?_replicate]
    split <;> rfl
  refine ⟨Array.size_replicate, fun q label dest => ?_, fun q leaf => ?_⟩
  · rw [Automaton.Edge, hstate]
    exact iff_of_false List.not_mem_nil not_lastFor_nil
  · rw [hstate]
    exact iff_of_false (fun h => (by cases h)) not_lastFor_nil

/-- One more transition. -/
theorem addTransition (h : Recorded n edges leaves a) (hq : q < n) (label : ByteSet) (dest : Nat) :
    Recorded n (edges ++ [((q, label), dest)]) leaves (a.modify q (·.addTransition label dest)) := by
  have hsize : q < a.size := h.size.symm ▸ hq
  refine ⟨Array.size_modify.trans h.size, fun p label' dest' => ?_, fun p leaf => ?_⟩
  · rw [lastFor_concat, ← h.edge p label' dest', Automaton.Edge, Automaton.Edge]
    by_cases hp : q = p
    · subst hp
      rw [Automaton.state_modify_self hsize, State.addTransition, Transitions.mem_insert]
      simp [and_comm]
    · rw [Automaton.state_modify_ne hp]
      simp [Ne.symm hp]
  · rw [← h.leaf p leaf]
    by_cases hp : q = p
    · subst hp
      rw [Automaton.state_modify_self hsize]
      rfl
    · rw [Automaton.state_modify_ne hp]

/-- One more leaf. -/
theorem setLeaf (h : Recorded n edges leaves a) (hq : q < n) (leaf : ByteSet) :
    Recorded n edges (leaves ++ [(q, leaf)]) (a.modify q fun s => { s with leaf := some leaf }) := by
  have hsize : q < a.size := h.size.symm ▸ hq
  refine ⟨Array.size_modify.trans h.size, fun p label dest => ?_, fun p leaf' => ?_⟩
  · rw [← h.edge p label dest, Automaton.Edge, Automaton.Edge]
    by_cases hp : q = p
    · subst hp
      rw [Automaton.state_modify_self hsize]
    · rw [Automaton.state_modify_ne hp]
  · rw [lastFor_concat, ← h.leaf p leaf']
    by_cases hp : q = p
    · subst hp
      rw [Automaton.state_modify_self hsize]
      simp [eq_comm]
    · rw [Automaton.state_modify_ne hp]
      simp [Ne.symm hp]

/-- The records leave nothing open. -/
theorem unique (h : Recorded n edges leaves a) (h' : Recorded n edges leaves b) : a = b := by
  refine Automaton.ext_state (h.size.trans h'.size.symm) fun q => ?_
  have htransitions : (a.state q).transitions = (b.state q).transitions :=
    Transitions.ext_mem fun entry => (h.edge q entry.1 entry.2).trans (h'.edge q entry.1 entry.2).symm
  have hleaf : (a.state q).leaf = (b.state q).leaf :=
    Option.ext fun leaf => (h.leaf q leaf).trans (h'.leaf q leaf).symm
  calc a.state q = ⟨(a.state q).transitions, (a.state q).leaf⟩ := rfl
    _ = ⟨(b.state q).transitions, (b.state q).leaf⟩ := by rw [htransitions, hleaf]
    _ = b.state q := rfl

end Recorded

/-! ## Entering the records -/

variable {a b : Automaton} {q : Nat}

theorem change_ok {f : State → State} : change a q f = .ok b ↔ q < a.size ∧ b = a.modify q f := by
  rw [change]
  split
  · rename_i hq
    rw [Except.ok.injEq, and_iff_right hq, eq_comm]
  · rename_i hq
    exact ⟨fun h => (by cases h), fun h => absurd h.1 hq⟩

/-- The automaton with the transitions of a record. -/
def withRecord (a : Automaton) (record : Nat × List (Nat × ByteSet)) : Automaton :=
  record.2.foldl (fun a entry => a.modify record.1 (·.addTransition entry.2 entry.1)) a

/-- The automaton with a leaf. -/
def withLeaf (a : Automaton) (record : Nat × ByteSet) : Automaton :=
  a.modify record.1 fun s => { s with leaf := some record.2 }

theorem size_withRecord {record : Nat × List (Nat × ByteSet)} : (withRecord a record).size = a.size :=
  Loop.foldl_spec (fun (b : Automaton) _ => b.size = a.size)
    (fun _ _ _ hb => Array.size_modify.trans hb) rfl

theorem enterTransitions_ok_iff (record : Nat × List (Nat × ByteSet)) (ha : a.size = n) :
    enterTransitions n a record = .ok b ↔
      (record.1 < n ∧ ∀ entry ∈ record.2, entry.1 < n) ∧ b = withRecord a record := by
  rw [enterTransitions, Step.except_bind_ok]
  simp only [change_ok, Automaton.modify_id, ha]
  have hfold : record.1 < n → (record.2.foldlM (fun states entry =>
      if entry.1 < n then change states record.1 (·.addTransition entry.2 entry.1)
      else throw (FileError.corrupt .stateOutOfRange)) a = .ok b ↔
        (∀ entry ∈ record.2, entry.1 < n) ∧ b = withRecord a record) := by
    intro hq
    refine Loop.foldlM_ok_iff (fun (b : Automaton) => b.size = n) (fun b entry t hb => ?_)
      (fun b entry hb _ => Array.size_modify.trans hb) ha
    split
    · rename_i hdest
      rw [change_ok, hb, and_iff_right hq, and_iff_right hdest]
    · rename_i hdest
      exact ⟨fun h => (by cases h), fun h => absurd h.1 hdest⟩
  constructor
  · rintro ⟨_, ⟨hq, rfl⟩, hok⟩
    obtain ⟨hdest, hb⟩ := (hfold hq).1 hok
    exact ⟨⟨hq, hdest⟩, hb⟩
  · rintro ⟨⟨hq, hdest⟩, hb⟩
    exact ⟨a, ⟨hq, rfl⟩, (hfold hq).2 ⟨hdest, hb⟩⟩

theorem foldlM_enterTransitions {records : List (Nat × List (Nat × ByteSet))} (ha : a.size = n) :
    records.foldlM (enterTransitions n) a = .ok b ↔
      (∀ record ∈ records, record.1 < n ∧ ∀ entry ∈ record.2, entry.1 < n) ∧
        b = records.foldl withRecord a :=
  Loop.foldlM_ok_iff (fun (b : Automaton) => b.size = n) (fun _ record _ => enterTransitions_ok_iff record)
    (fun _ _ hb _ => size_withRecord.trans hb) ha

theorem foldlM_enterLeaf {records : List (Nat × ByteSet)} (ha : a.size = n) :
    records.foldlM enterLeaf a = .ok b ↔
      (∀ record ∈ records, record.1 < n) ∧ b = records.foldl withLeaf a :=
  Loop.foldlM_ok_iff (fun (b : Automaton) => b.size = n)
    (fun _ _ _ hb => change_ok.trans (by rw [hb])) (fun _ _ hb _ => Array.size_modify.trans hb) ha

theorem size_foldl_withRecord {records : List (Nat × List (Nat × ByteSet))} :
    (records.foldl withRecord a).size = a.size :=
  Loop.foldl_spec (fun (b : Automaton) _ => b.size = a.size) (fun _ _ _ hb => size_withRecord.trans hb) rfl

/-- The automaton that is built from the records, if they are in range. -/
def Contents.built (c : Contents) : Automaton :=
  c.leaves.foldl withLeaf (c.transitions.foldl withRecord (Array.replicate c.stateCount State.hole))

theorem automaton_ok_iff {c : Contents} : c.automaton = .ok a ↔ c.InRange ∧ a = c.built := by
  have hholes : (Array.replicate c.stateCount State.hole).size = c.stateCount := Array.size_replicate
  rw [Contents.automaton, Step.except_bind_ok]
  constructor
  · rintro ⟨b, hb, ha⟩
    obtain ⟨htransitions, rfl⟩ := (foldlM_enterTransitions hholes).1 hb
    obtain ⟨hleaves, rfl⟩ := (foldlM_enterLeaf (size_foldl_withRecord.trans hholes)).1 ha
    exact ⟨⟨htransitions, hleaves⟩, rfl⟩
  · rintro ⟨⟨htransitions, hleaves⟩, rfl⟩
    exact ⟨_, (foldlM_enterTransitions hholes).2 ⟨htransitions, rfl⟩,
      (foldlM_enterLeaf (size_foldl_withRecord.trans hholes)).2 ⟨hleaves, rfl⟩⟩

namespace Recorded

variable {edges : List ((Nat × ByteSet) × Nat)} {leaves : List (Nat × ByteSet)}

theorem withRecord (h : Recorded n edges leaves a) {record : Nat × List (Nat × ByteSet)} (hq : record.1 < n) :
    Recorded n (edges ++ recordEdges record) leaves (withRecord a record) := by
  obtain ⟨q, entries⟩ := record
  induction entries generalizing a edges with
  | nil => rwa [recordEdges, List.map_nil, List.append_nil]
  | cons entry entries ih =>
    have hrest := ih (h.addTransition hq entry.2 entry.1) hq
    rwa [List.append_assoc] at hrest

theorem withRecords (h : Recorded n edges leaves a) {records : List (Nat × List (Nat × ByteSet))}
    (hq : ∀ record ∈ records, record.1 < n) :
    Recorded n (edges ++ records.flatMap recordEdges) leaves (records.foldl ClassFile.withRecord a) := by
  induction records generalizing a edges with
  | nil => rwa [List.flatMap_nil, List.append_nil]
  | cons record records ih =>
    obtain ⟨hfirst, hrest⟩ := List.forall_mem_cons.1 hq
    rw [List.flatMap_cons, ← List.append_assoc]
    exact ih (h.withRecord hfirst) hrest

theorem withLeaves (h : Recorded n edges leaves a) {records : List (Nat × ByteSet)}
    (hq : ∀ record ∈ records, record.1 < n) :
    Recorded n edges (leaves ++ records) (records.foldl withLeaf a) := by
  induction records generalizing a leaves with
  | nil => rwa [List.append_nil]
  | cons record records ih =>
    obtain ⟨hfirst, hrest⟩ := List.forall_mem_cons.1 hq
    have hall := ih (h.setLeaf hfirst record.2) hrest
    rwa [List.append_assoc] at hall

end Recorded

/-- The graph of the records. -/
theorem recorded_built {c : Contents} (hc : c.InRange) :
    Recorded c.stateCount c.edges c.leaves c.built :=
  ((Recorded.holes c.stateCount).withRecords fun record hr => (hc.1 record hr).1).withLeaves hc.2

/-- The records can be entered if they are in range, and the result is the graph of them. -/
theorem automaton_ok_iff_recorded {c : Contents} :
    c.automaton = .ok a ↔ c.InRange ∧ Recorded c.stateCount c.edges c.leaves a := by
  rw [automaton_ok_iff]
  refine and_congr_right fun hc => ⟨fun ha => ha ▸ recorded_built hc, fun ha => ha.unique (recorded_built hc)⟩

end ClassFile

namespace CharSet

open ClassFile

variable {data : List UInt8}

theorem checksum_lt (body : List UInt8) : Checksum.checksum body < 65536 :=
  Nat.lt_trans (Nat.mod_lt _ (by decide : 0 < Checksum.modulus)) (by decide)

/-- The checksum is the last two bytes. -/
theorem readNumber_tail_iff {found : Nat} {rest : List UInt8} (hlength : 2 ≤ data.length) :
    readNumber (data.drop (data.length - 2)) = .ok (found, rest) ↔
      found < 65536 ∧ data = data.take (data.length - 2) ++ numberBytes found ∧ rest = [] := by
  have hdrop : (data.drop (data.length - 2)).length = 2 := by
    rw [List.length_drop]
    omega
  rw [reads_readNumber]
  constructor
  · rintro ⟨_, ⟨hfound, rfl⟩, heq⟩
    have hrest : rest = [] := by
      rw [heq, List.length_append] at hdrop
      exact List.length_eq_zero_iff.1 (by simpa [numberBytes] using hdrop)
    rw [hrest, List.append_nil] at heq
    exact ⟨hfound, by rw [← heq, List.take_append_drop], hrest⟩
  · rintro ⟨hfound, heq, rfl⟩
    refine ⟨_, ⟨hfound, rfl⟩, ?_⟩
    rw [List.append_nil]
    exact List.append_cancel_left ((List.take_append_drop _ data).trans heq)

theorem decodeFile_sealed_ok {bytes : List UInt8} {c : Contents} {states : Automaton}
    (hc : readContents bytes = .ok (c, [])) (hstates : c.automaton = .ok states) :
    decodeFile (sealed bytes) = .ok ⟨c.encoding, states, .graph⟩ := by
  have hlength : (sealed bytes).length = bytes.length + 2 := by simp [ClassFile.sealed, numberBytes]
  have hsplit : (sealed bytes).splitAt ((sealed bytes).length - 2) =
      (bytes, numberBytes (Checksum.checksum bytes)) := by
    rw [hlength, Nat.add_sub_cancel, ClassFile.sealed, List.splitAt_eq, List.take_left, List.drop_left]
  have hfound : readNumber (numberBytes (Checksum.checksum bytes)) = .ok (Checksum.checksum bytes, []) :=
    (reads_readNumber _ _ _).2 ⟨_, ⟨checksum_lt bytes, rfl⟩, (List.append_nil _).symm⟩
  rw [decodeFile, if_neg (by omega), hsplit]
  show (readNumber (numberBytes (Checksum.checksum bytes)) >>= _) = _
  rw [hfound]
  show (if Checksum.checksum bytes ≠ Checksum.checksum bytes then _ else readContents bytes >>= _) = _
  rw [if_neg (by simp), hc]
  show (c.automaton >>= _) = _
  rw [hstates]
  rfl

/-- A file consists of bytes that are read to their end, and their checksum. -/
theorem decodeFile_ok {s : CharSet} (h : decodeFile data = .ok s) : ∃ bytes c, data = sealed bytes ∧
    readContents bytes = .ok (c, []) ∧ c.automaton = .ok s.states ∧ s.encoding = c.encoding ∧
    s.form = .graph := by
  rw [decodeFile] at h
  split at h
  · cases h
  · rename_i hlength
    rw [List.splitAt_eq] at h
    obtain ⟨⟨found, tail⟩, hfound, h⟩ := Step.except_bind_ok.1 h
    obtain ⟨-, hdata, rfl⟩ := (readNumber_tail_iff (Nat.le_of_not_lt hlength)).1 hfound
    dsimp only at h
    split at h
    · cases h
    · rename_i hchecksum
      obtain ⟨⟨c, rest⟩, hc, h⟩ := Step.except_bind_ok.1 h
      dsimp only at h
      split at h
      · cases h
      · rename_i hrest
        obtain ⟨states, hstates, h⟩ := Step.except_bind_ok.1 h
        cases h
        obtain rfl : rest = [] := by simpa using hrest
        rw [not_ne_iff.1 hchecksum] at hdata
        exact ⟨_, c, hdata, hc, hstates, rfl, rfl⟩

/-- What is read is laid out as a file, and its records make the automaton. -/
theorem decodeFile_iff {s : CharSet} : decodeFile data = .ok s ↔ ∃ c, Layout.file data c ∧
    c.automaton = .ok s.states ∧ s.encoding = c.encoding ∧ s.form = .graph := by
  constructor
  · intro h
    obtain ⟨bytes, c, hdata, hc, hs⟩ := decodeFile_ok h
    obtain ⟨bytes', hcontents, heq⟩ := (reads_readContents _ _ _).1 hc
    rw [List.append_nil] at heq
    exact ⟨c, ⟨bytes, hdata, heq ▸ hcontents⟩, hs⟩
  · rintro ⟨c, ⟨bytes, rfl, hcontents⟩, hstates, hencoding, hform⟩
    have hc := (reads_readContents _ _ _).2 ⟨bytes, hcontents, (List.append_nil _).symm⟩
    rw [decodeFile_sealed_ok hc hstates, ← hencoding, ← hform]

/-- Bytes are read if and only if they are laid out as a class file whose records are in range. They are read
as the graph of these records, and as nothing else. -/
theorem decodeFile_ok_iff (data : List UInt8) :
    ((∃ s, decodeFile data = .ok s) ↔ ∃ c, Layout.file data c ∧ c.InRange) ∧
    ∀ s, decodeFile data = .ok s ↔ ∃ c, Layout.file data c ∧ c.InRange ∧ s.encoding = c.encoding ∧
      s.form = .graph ∧ Recorded c.stateCount c.edges c.leaves s.states := by
  have hgraph : ∀ s, decodeFile data = .ok s ↔ ∃ c, Layout.file data c ∧ c.InRange ∧
      s.encoding = c.encoding ∧ s.form = .graph ∧ Recorded c.stateCount c.edges c.leaves s.states := by
    intro s
    rw [decodeFile_iff]
    refine exists_congr fun c => and_congr_right fun _ => ?_
    rw [automaton_ok_iff_recorded, and_assoc]
    exact and_congr_right fun _ => by rw [and_comm, and_assoc]
  refine ⟨⟨fun ⟨s, hs⟩ => ?_, fun ⟨c, hfile, hc⟩ => ?_⟩, hgraph⟩
  · obtain ⟨c, hfile, hc, -⟩ := (hgraph s).1 hs
    exact ⟨c, hfile, hc⟩
  · exact ⟨⟨c.encoding, c.built, .graph⟩, (hgraph _).2 ⟨c, hfile, hc, rfl, rfl, recorded_built hc⟩⟩

end CharSet
end ByteMatch
