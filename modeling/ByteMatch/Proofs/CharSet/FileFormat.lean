import ByteMatch.Proofs.ByteSet.Serial
import ByteMatch.Proofs.CharSet.FileRecords
import ByteMatch.Proofs.CharSet.NormalForm

/-!
# ByteMatch.Proofs.CharSet.FileFormat

Reading the body of a class file gives the states back that it was written for.

* `ClassFile.serial_exact`: the serial form of a set is read back, and no other is shorter.
* `ClassFile.contents_body`: the body that is written for an automaton has the layout of its records.
* `ClassFile.automaton_recorded`: the records of an automaton describe it.
* `CharSet.decodeFile_sealed`: a file with its checksum is read as the graph that it was written for.
* `CharSet.decodeFile_encodeFile`: a set that has been written and read accepts the same.
* `CharSet.encodeFile_canonical`: the file says what is accepted, and nothing else.
-/

namespace ByteMatch
namespace ClassFile

/-! ## Parts of a file -/

theorem code_codeBytes (code : ByteSet) : Layout.code (codeBytes code) code := by
  obtain ⟨-, hset⟩ := ByteSet.ofSerial?_serial code
  obtain ⟨⟨hlength, hfits⟩, hcode⟩ := ofSerial?_eq_some_iff.1 hset
  exact ⟨code.serial.1, code.serial.2, rfl, hlength, hfits, hcode.symm⟩

theorem readCode_codeBytes (code : ByteSet) (rest : List UInt8) :
    readCode (codeBytes code ++ rest) = .ok (code, rest) :=
  (reads_readCode _ _ _).2 ⟨codeBytes code, code_codeBytes code, rfl⟩

/-- The serial form of a set is as long as its indicator tells, is read as the set wherever it stands in a
file, and is the shortest that there is. -/
theorem serial_exact (code : ByteSet) :
    (code.serial.2.length = ByteSet.serialLength code.serial.1 ∧
      ByteSet.ofSerial? code.serial.1 code.serial.2 = some code) ∧
    (∀ rest, readCode (codeBytes code ++ rest) = .ok (code, rest)) ∧
    (∀ indicator bytes, ByteSet.ofSerial? indicator bytes = some code →
      code.serial.2.length ≤ bytes.length) ∧
    ∀ indicator bytes, ByteSet.ofSerial? indicator bytes = none ↔
      bytes.length ≠ ByteSet.serialLength indicator ∨
        ByteSet.mapLength < indicator.toNat % 32 + ByteSet.serialLength indicator := by
  refine ⟨ByteSet.ofSerial?_serial code, readCode_codeBytes code, ?_, ?_⟩
  · intro indicator bytes h
    exact ByteSet.length_serial_le h
  · intro indicator bytes
    exact ByteSet.ofSerial?_eq_none_iff

/-- A span of eight bytes in the middle of the map cannot be announced by its length, so all that follows it
is written as well. -/
example : (ByteSet.interval 64 127).serial = (0xe8, List.replicate 16 0 ++ List.replicate 8 0xff) := by
  decide +kernel

theorem series_flatMap {α : Type} {P : Layout α} {written : α → List UInt8} {items : List α}
    (h : ∀ x ∈ items, P (written x) x) : Layout.Series P (items.flatMap written) items := by
  induction items with
  | nil => exact .nil
  | cons x items ih =>
    obtain ⟨hx, hitems⟩ := List.forall_mem_cons.1 h
    exact .cons hx (ih hitems)

/-! ## Records -/

variable {e : Encoding} {states : Automaton}

/-- The bytes of a record of transitions. -/
def recordBytes (record : Nat × List (Nat × ByteSet)) : List UInt8 :=
  numberBytes record.1 ++ numberBytes record.2.length ++
    record.2.flatMap fun entry => numberBytes entry.1 ++ codeBytes entry.2

theorem transitionRecord_recordBytes {record : Nat × List (Nat × ByteSet)} (hq : record.1 < 65536)
    (hlength : record.2.length < 65536) (hdest : ∀ entry ∈ record.2, entry.1 < 65536) :
    Layout.transitionRecord (recordBytes record) record := by
  have hentries : ∀ entry ∈ record.2, Layout.transition (numberBytes entry.1 ++ codeBytes entry.2) entry :=
    fun entry he => ⟨_, _, rfl, ⟨hdest entry he, rfl⟩, code_codeBytes entry.2⟩
  rw [recordBytes, List.append_assoc]
  exact ⟨_, _, rfl, ⟨hq, rfl⟩, _, _, rfl, ⟨hlength, rfl⟩, series_flatMap hentries⟩

theorem leafRecord_leafEntry {record : Nat × ByteSet} (hq : record.1 < 65536) :
    Layout.leafRecord (leafEntry record.1 record.2) record :=
  ⟨_, _, rfl, ⟨hq, rfl⟩, code_codeBytes record.2⟩

/-- The records of the states that have transitions. -/
def transitionRecords (states : Automaton) : List (Nat × List (Nat × ByteSet)) :=
  (states.toList.zipIdx.filter fun entry => !entry.1.transitions.isEmpty).map fun entry =>
    (entry.2, entry.1.transitions.entries.map Prod.swap)

theorem mem_zipIdx_iff {s : State} {q : Nat} :
    (s, q) ∈ states.toList.zipIdx ↔ q < states.size ∧ states.state q = s := by
  rw [List.mk_mem_zipIdx_iff_getElem?, Array.getElem?_toList]
  constructor
  · intro h
    obtain ⟨hq, hs⟩ := Array.getElem?_eq_some_iff.1 h
    exact ⟨hq, by rw [Automaton.state_of_lt hq, hs]⟩
  · intro h
    obtain ⟨hq, hs⟩ := h
    rw [← hs, Automaton.state_of_lt hq, Array.getElem?_eq_getElem hq]

theorem mem_transitionRecords {record : Nat × List (Nat × ByteSet)} :
    record ∈ transitionRecords states ↔ record.1 < states.size ∧
      (states.state record.1).transitions.isEmpty = false ∧
      record.2 = (states.state record.1).transitions.entries.map Prod.swap := by
  obtain ⟨q, entries⟩ := record
  simp only [transitionRecords, List.mem_map, List.mem_filter, Prod.exists, mem_zipIdx_iff,
    Bool.not_eq_true', Prod.mk.injEq]
  constructor
  · intro h
    obtain ⟨s, q', ⟨⟨hq, rfl⟩, hs⟩, rfl, rfl⟩ := h
    exact ⟨hq, hs, rfl⟩
  · intro h
    obtain ⟨hq, hs, rfl⟩ := h
    exact ⟨_, q, ⟨⟨hq, rfl⟩, hs⟩, rfl, rfl⟩

theorem mem_leaves {record : Nat × ByteSet} :
    record ∈ states.leaves ↔ (states.state record.1).leaf = some record.2 := by
  obtain ⟨q, leaf⟩ := record
  simp only [Automaton.leaves, List.mem_filterMap, Prod.exists, mem_zipIdx_iff,
    Option.map_eq_some_iff, Prod.mk.injEq]
  constructor
  · intro h
    obtain ⟨s, q', ⟨-, rfl⟩, leaf', hleaf, rfl, rfl⟩ := h
    exact hleaf
  · intro h
    exact ⟨_, q, ⟨Automaton.lt_of_leaf h, rfl⟩, leaf, h, rfl, rfl⟩

theorem length_transitionRecords :
    (transitionRecords states).length = states.countP (!·.transitions.isEmpty) := by
  have hfst : states.toList.zipIdx.map Prod.fst = states.toList := List.zipIdx_map_fst 0 states.toList
  rw [transitionRecords, List.length_map, ← List.countP_eq_length_filter, ← Array.countP_toList,
    ← hfst, List.countP_map, hfst]
  rfl

theorem flatMap_transitionEntry :
    (states.toList.zipIdx.flatMap fun (s, q) => transitionEntry q s) =
      (transitionRecords states).flatMap recordBytes := by
  rw [transitionRecords]
  induction states.toList.zipIdx with
  | nil => rfl
  | cons entry rest ih =>
    obtain ⟨s, q⟩ := entry
    rw [List.flatMap_cons, ih]
    cases hempty : s.transitions.isEmpty with
    | true => simp [transitionEntry, hempty]
    | false => simp [transitionEntry, hempty, recordBytes, Transitions.size, List.flatMap_map]

/-- Disjoint labels that are not empty are not more than there are bytes. -/
theorem length_entries_le (h : states.Proper) (q : Nat) :
    (states.state q).transitions.entries.length ≤ 256 := by
  have hmember : ∀ entry ∈ (states.state q).transitions.entries, ∃ x, x ∈ entry.1 :=
    fun entry he => h.label_nonempty q entry.1 entry.2 he
  choose! f hf using hmember
  have hnodup : ((states.state q).transitions.entries.map fun entry => (f entry).toNat).Nodup := by
    refine List.Nodup.map_on (fun a ha b hb heq => ?_) Transitions.nodup_entries
    have hlabel := h.labels_disjoint q a ha b hb (f a) (hf a ha) (UInt8.toNat_inj.1 heq ▸ hf b hb)
    exact Prod.ext hlabel (Transitions.dest_unique ha (hlabel ▸ hb))
  have hlt : ∀ n ∈ (states.state q).transitions.entries.map fun entry => (f entry).toNat, n < 256 := by
    intro n hn
    obtain ⟨entry, -, rfl⟩ := List.mem_map.1 hn
    exact (f entry).toNat_lt
  simpa using Automaton.length_le_of_nodup hnodup hlt

theorem lt_of_mem_transitionRecords (h : states.Proper) {record : Nat × List (Nat × ByteSet)}
    (hr : record ∈ transitionRecords states) : ∀ entry ∈ record.2, entry.1 < states.size := by
  intro entry he
  rw [(mem_transitionRecords.1 hr).2.2] at he
  obtain ⟨edge, hedge, rfl⟩ := List.mem_map.1 he
  exact h.target_lt record.1 edge.1 edge.2 hedge

theorem length_leaves_le : states.leaves.length ≤ states.size := by
  have := List.length_filterMap_le (fun (s, q) => s.leaf.map fun leaf => (q, leaf))
    states.toList.zipIdx
  simpa [Automaton.leaves] using this

/-! ## The body -/

theorem name_encoding (e : Encoding) : Layout.name e.name.toUTF8.toList e :=
  ⟨e.name, by cases e <;> decide +kernel, by cases e <;> decide⟩

/-- What is written for an automaton is laid out as it has to be. -/
theorem contents_body (h : states.Proper) (hsize : states.size ≤ stateLimit) :
    Layout.contents (body e states) ⟨e, states.size, transitionRecords states, states.leaves⟩ := by
  -- the numbers fit into two bytes: lengths, counts, states and the destinations of transitions
  have hlimit : states.size < 65536 := Nat.lt_of_le_of_lt hsize (by decide)
  have hname : e.name.toUTF8.toList.length < 65536 := by cases e <;> decide +kernel
  have hleaves : states.leaves.length < 65536 := Nat.lt_of_le_of_lt length_leaves_le hlimit
  have hcount : (transitionRecords states).length < 65536 := by
    rw [length_transitionRecords]
    exact Nat.lt_of_le_of_lt Array.countP_le_size hlimit
  have hheader : ∀ n ∈ [magic, e.name.toUTF8.toList.length, states.size, (transitionRecords states).length,
      states.leaves.length], Layout.number (numberBytes n) n := by
    simp only [List.forall_mem_cons]
    exact ⟨⟨by decide, rfl⟩, ⟨hname, rfl⟩, ⟨hlimit, rfl⟩, ⟨hcount, rfl⟩, ⟨hleaves, rfl⟩, by simp⟩
  have htransitions : ∀ record ∈ transitionRecords states,
      Layout.transitionRecord (recordBytes record) record := by
    intro record hrecord
    obtain ⟨hq, -, hentries⟩ := mem_transitionRecords.1 hrecord
    have hlength := length_entries_le h record.1
    refine transitionRecord_recordBytes (by omega) ?_ fun entry he =>
      Nat.lt_trans (lt_of_mem_transitionRecords h hrecord entry he) hlimit
    rw [hentries, List.length_map]
    omega
  have hrecords : ∀ record ∈ states.leaves, Layout.leafRecord (leafEntry record.1 record.2) record :=
    fun record hrecord =>
      leafRecord_leafEntry (Nat.lt_trans (Automaton.lt_of_leaf (mem_leaves.1 hrecord)) hlimit)
  refine ⟨_, _, _, _, ?_, series_flatMap hheader, name_encoding e, series_flatMap htransitions,
    series_flatMap hrecords⟩
  rw [body, flatMap_transitionEntry, ← length_transitionRecords]
  simp

/-! ## The automaton of the records -/

theorem distinct_zipIdx : states.toList.zipIdx.Pairwise fun e e' => e.2 ≠ e'.2 := by
  refine List.pairwise_map.1 ?_
  rw [List.zipIdx_map_snd]
  exact List.nodup_range'

theorem distinct_leaves : states.leaves.Pairwise fun r r' => r.1 ≠ r'.1 := by
  refine distinct_zipIdx.filterMap _ fun e e' hne r hr r' hr' => ?_
  obtain ⟨leaf, -, rfl⟩ := Option.map_eq_some_iff.1 hr
  obtain ⟨leaf', -, rfl⟩ := Option.map_eq_some_iff.1 hr'
  exact hne

theorem mem_edges_transitionRecords {q dest : Nat} {label : ByteSet} :
    ((q, label), dest) ∈ (transitionRecords states).flatMap recordEdges ↔ states.Edge q label dest := by
  simp only [List.mem_flatMap, mem_recordEdges, mem_transitionRecords]
  constructor
  · rintro ⟨record, ⟨-, -, hentries⟩, rfl, hentry⟩
    rw [hentries] at hentry
    obtain ⟨edge, hedge, heq⟩ := List.mem_map.1 hentry
    cases heq
    exact hedge
  · intro hedge
    refine ⟨(q, (states.state q).transitions.entries.map Prod.swap),
      ⟨Automaton.lt_of_edge hedge, Transitions.isEmpty_eq_false_iff.2 ⟨_, hedge⟩, rfl⟩, rfl, ?_⟩
    exact List.mem_map.2 ⟨(label, dest), hedge, rfl⟩

theorem distinct_edges : ((transitionRecords states).flatMap recordEdges).Pairwise fun e e' => e.1 ≠ e'.1 := by
  have hrecords : (transitionRecords states).Pairwise fun r r' => r.1 ≠ r'.1 :=
    List.pairwise_map.2 (distinct_zipIdx.filter _)
  refine List.pairwise_flatMap.2 ⟨fun record hr => ?_, hrecords.imp fun hne x hx y hy heq => ?_⟩
  · rw [recordEdges, (mem_transitionRecords.1 hr).2.2]
    refine List.pairwise_map.2 (List.pairwise_map.2 ?_)
    refine (states.state record.1).transitions.sorted.imp fun {e e'} hlt heq => ?_
    rw [show e.1 = e'.1 from (Prod.mk.inj heq).2] at hlt
    exact ByteSet.lt_irrefl e'.1 hlt
  · exact hne ((mem_recordEdges.1 hx).1.trans ((congrArg Prod.fst heq).trans (mem_recordEdges.1 hy).1.symm))

/-- The records of an automaton describe it. -/
theorem automaton_recorded (h : states.Proper) :
    (Contents.mk e states.size (transitionRecords states) states.leaves).automaton = .ok states := by
  refine automaton_ok_iff_recorded.2 ⟨⟨fun record hr => ?_, fun record hr => ?_⟩, rfl, fun q label dest => ?_,
    fun q leaf => ?_⟩
  · exact ⟨(mem_transitionRecords.1 hr).1, lt_of_mem_transitionRecords h hr⟩
  · exact Automaton.lt_of_leaf (mem_leaves.1 hr)
  · rw [Contents.edges, lastFor_iff_mem distinct_edges, mem_edges_transitionRecords]
  · rw [lastFor_iff_mem distinct_leaves, mem_leaves]

end ClassFile

namespace CharSet

open ClassFile

variable {e : Encoding} {states : Automaton}

theorem decodeFile_sealed (h : states.Proper) (hsize : states.size ≤ stateLimit) :
    decodeFile (sealed (body e states)) = .ok ⟨e, states, .graph⟩ :=
  decodeFile_iff.2 ⟨_, ⟨_, rfl, contents_body h hsize⟩, automaton_recorded h, rfl, rfl⟩

/-! ## Files of sets -/

variable {a b c : CharSet} {data data' : List UInt8}

/-- A file is made of the encoding and the smallest graph. -/
theorem encodeFile_congr (he : a.encoding = b.encoding)
    (hstates : a.toTree.toGraph.states = b.toTree.toGraph.states) :
    a.encodeFile = b.encodeFile := by
  simp only [encodeFile, size, hstates, he]
  rfl

theorem encodeFile_ok (h : c.encodeFile = .ok data) : c.toTree.toGraph.size ≤ stateLimit ∧
    data = sealed (body c.encoding c.toTree.toGraph.states) := by
  simp only [encodeFile] at h
  split at h
  · cases h
  · rename_i hsize
    split at h
    · cases h
    · cases h
      exact ⟨Nat.le_of_not_lt hsize, rfl⟩

theorem decodeFile_of_encodeFile (hc : c.WellFormed) (h : c.encodeFile = .ok data) :
    decodeFile data = .ok ⟨c.encoding, c.toTree.toGraph.states, .graph⟩ := by
  obtain ⟨hsize, rfl⟩ := encodeFile_ok h
  exact decodeFile_sealed (toGraph_toTree_spec hc).1.states.toProper hsize

/-- A set that has been written is read as the smallest graph of the set, which accepts the same and
leads to the same file. -/
theorem decodeFile_encodeFile (hc : c.WellFormed) (h : c.encodeFile = .ok data) :
    ∃ read, decodeFile data = .ok read ∧ read.encoding = c.encoding ∧ read.form = .graph ∧
      read.states = c.toTree.toGraph.states ∧ (∀ w, read.accepts w = c.accepts w) ∧
      read.encodeFile = .ok data := by
  obtain ⟨hwf, hsame⟩ := toGraph_toTree_spec hc
  have hread : CharSet.WellFormed ⟨c.encoding, c.toTree.toGraph.states, .graph⟩ :=
    ⟨hwf.states, fun hform => nomatch hform⟩
  refine ⟨_, decodeFile_of_encodeFile hc h, rfl, rfl, rfl, hsame, ?_⟩
  rw [← h]
  exact encodeFile_congr rfl (states_toGraph_toTree_eq hread hc hsame)

theorem decodeFile_encodeFile_split : splitTree.WellFormed ∧
    ∃ data, splitTree.encodeFile = .ok data ∧
      ∃ read, decodeFile data = .ok read ∧ read.encoding = splitTree.encoding ∧
        read.form = .graph ∧ read.states = splitTree.toTree.toGraph.states ∧
        (∀ w, read.accepts w = splitTree.accepts w) ∧ read.encodeFile = .ok data := by
  have hok : splitTree.encodeFile.toBool = true := by decide +kernel
  cases hdata : splitTree.encodeFile with
  | error e =>
    rw [hdata] at hok
    cases hok
  | ok data =>
    exact ⟨wellFormed_splitTree, data, rfl, decodeFile_encodeFile wellFormed_splitTree hdata⟩

/-- Sets of one encoding lead to the same file if and only if they accept the same. Then they also
fail for the same reason, if they do. -/
theorem encodeFile_canonical (ha : a.WellFormed) (hb : b.WellFormed) (he : a.encoding = b.encoding) :
    (∀ data data', a.encodeFile = .ok data → b.encodeFile = .ok data' →
      (data = data' ↔ ∀ w, a.accepts w = b.accepts w)) ∧
    ((∀ w, a.accepts w = b.accepts w) → a.encodeFile = b.encodeFile) := by
  have hcongr : (∀ w, a.accepts w = b.accepts w) → a.encodeFile = b.encodeFile := fun hsame =>
    encodeFile_congr he (states_toGraph_toTree_eq ha hb hsame)
  refine ⟨fun data data' hdata hdata' => ⟨fun heq w => ?_, fun hsame => ?_⟩, hcongr⟩
  · -- both files are read as a set that accepts what they have been written for
    subst heq
    have hread := decodeFile_of_encodeFile ha hdata
    rw [decodeFile_of_encodeFile hb hdata', Except.ok.injEq, CharSet.mk.injEq] at hread
    have hsame : b.toTree.toGraph.accepts w = a.toTree.toGraph.accepts w := by
      rw [accepts, accepts, hread.2.1]
    rw [← (toGraph_toTree_spec ha).2, ← (toGraph_toTree_spec hb).2, hsame]
  · have := hcongr hsame
    rw [hdata, hdata'] at this
    cases this
    rfl

theorem encodeFile_canonical_short :
    shortTree.WellFormed ∧ splitTree.WellFormed ∧ shortTree.encoding = splitTree.encoding ∧
      shortTree.encodeFile.toBool = true ∧ splitTree.encodeFile.toBool = true ∧
      (∀ data data', shortTree.encodeFile = .ok data → splitTree.encodeFile = .ok data' →
        (data = data' ↔ ∀ w, shortTree.accepts w = splitTree.accepts w)) ∧
      ((∀ w, shortTree.accepts w = splitTree.accepts w) →
        shortTree.encodeFile = splitTree.encodeFile) :=
  ⟨wellFormed_shortTree, wellFormed_splitTree, rfl, by decide +kernel, by decide +kernel,
    encodeFile_canonical wellFormed_shortTree wellFormed_splitTree rfl⟩

end CharSet
end ByteMatch
