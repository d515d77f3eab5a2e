import Mathlib.Data.List.Chain
import ByteMatch.ByteSet.Ranges
import ByteMatch.Proofs.ByteSet.Membership

/-!
# ByteMatch.Proofs.ByteSet.Ranges

The runs of a byte set hold its members and no other bytes, and there is only one way to write a set as
runs with gaps between them.

* `ByteSet.mem_ranges`: a byte is a member if and only if it lies in one of the runs.
* `ByteSet.Separated`: ascending runs with gaps between them. `ByteSet.Separated.eq` says that the bytes in
  them determine the runs, and `ByteSet.separated_ranges` that the runs of a set are of this form.
* `ByteSet.ranges_normalForm`: so the runs of a union of intervals are its normal form, and a set is the union
  of its runs.
-/

namespace ByteMatch
namespace ByteSet

variable {a : ByteSet} {x : UInt8}

/-- The byte lies in one of the runs. -/
def InRuns (x : UInt8) (rs : List (UInt8 × UInt8)) : Prop := ∃ r ∈ rs, r.1 ≤ x ∧ x ≤ r.2

theorem le_of_mem_extendRuns {b : UInt8} {rs : List (UInt8 × UInt8)} (h : ∀ r ∈ rs, r.1 ≤ r.2) :
    ∀ r ∈ extendRuns b rs, r.1 ≤ r.2 := by
  cases rs with
  | nil =>
    intro r hr
    simp [extendRuns] at hr
    simp [hr]
  | cons run more =>
    obtain ⟨first, last⟩ := run
    have hrun := h (first, last) (by simp)
    intro r hr
    simp only [extendRuns] at hr
    split at hr
    · rename_i hnext
      cases hr with
      | head =>
        simp only [UInt8.le_iff_toNat_le] at hrun ⊢
        omega
      | tail _ hr => exact h r (List.mem_cons_of_mem _ hr)
    · cases hr with
      | head => exact UInt8.le_refl b
      | tail _ hr => exact h r hr

theorem inRuns_extendRuns {b : UInt8} {rs : List (UInt8 × UInt8)} (h : ∀ r ∈ rs, r.1 ≤ r.2) :
    InRuns x (extendRuns b rs) ↔ x = b ∨ InRuns x rs := by
  have hsingle : b ≤ x ∧ x ≤ b ↔ x = b := by
    rw [UInt8.le_iff_toNat_le, UInt8.le_iff_toNat_le, ← UInt8.toNat_inj]
    omega
  cases rs with
  | nil => simp [InRuns, extendRuns, hsingle]
  | cons run more =>
    obtain ⟨first, last⟩ := run
    have hrun := h (first, last) (by simp)
    simp only [extendRuns]
    split
    · rename_i hnext
      have hgrown : b ≤ x ∧ x ≤ last ↔ x = b ∨ (first ≤ x ∧ x ≤ last) := by
        simp only [UInt8.le_iff_toNat_le, ← UInt8.toNat_inj] at hrun ⊢
        omega
      simp [InRuns, hgrown, or_assoc]
    · simp [InRuns, hsingle]

/-! ## Runs with gaps -/

/-- No run is reversed, and between each run and the next one there is a byte that is in neither. -/
structure Separated (rs : List (UInt8 × UInt8)) : Prop where
  le : ∀ r ∈ rs, r.1 ≤ r.2
  gaps : rs.IsChain fun r r' => r.2.toNat + 2 ≤ r'.1.toNat

namespace Separated

variable {r r' : UInt8 × UInt8} {rs rs' : List (UInt8 × UInt8)}

theorem tail (h : Separated (r :: rs)) : Separated rs :=
  ⟨fun r' hr' => h.le r' (List.mem_cons_of_mem _ hr'), h.gaps.tail⟩

/-- The gap after the first run is before all other runs, too. -/
theorem gap (h : Separated (r :: rs)) : ∀ r' ∈ rs, r.2.toNat + 2 ≤ r'.1.toNat := by
  induction rs generalizing r with
  | nil => simp
  | cons next rs ih =>
    intro r' hr'
    have hnext := (List.isChain_cons_cons.1 h.gaps).1
    rcases List.mem_cons.1 hr' with rfl | hr'
    · exact hnext
    · have hle := h.le next (by simp)
      have hrest := ih h.tail r' hr'
      rw [UInt8.le_iff_toNat_le] at hle
      omega

theorem inRuns_first (h : Separated rs) (hr : r ∈ rs) : InRuns r.1 rs :=
  ⟨r, hr, UInt8.le_refl _, h.le r hr⟩

theorem first_le (h : Separated (r :: rs)) (hx : InRuns x (r :: rs)) : r.1 ≤ x := by
  obtain ⟨r', hr', hlow, -⟩ := hx
  rcases List.mem_cons.1 hr' with rfl | hr'
  · exact hlow
  · have hle := h.le r (by simp)
    have hgap := h.gap r' hr'
    rw [UInt8.le_iff_toNat_le] at *
    omega

/-- The bytes of the other runs are those after the first run. -/
theorem inRuns_tail (h : Separated (r :: rs)) : InRuns x rs ↔ InRuns x (r :: rs) ∧ r.2 < x := by
  constructor
  · rintro ⟨r', hr', hlow, hhigh⟩
    have hgap := h.gap r' hr'
    refine ⟨⟨r', List.mem_cons_of_mem _ hr', hlow, hhigh⟩, ?_⟩
    rw [UInt8.le_iff_toNat_le] at hlow
    rw [UInt8.lt_iff_toNat_lt]
    omega
  · rintro ⟨⟨r', hr', hlow, hhigh⟩, hlt⟩
    rcases List.mem_cons.1 hr' with rfl | hr'
    · rw [UInt8.le_iff_toNat_le] at hhigh
      rw [UInt8.lt_iff_toNat_lt] at hlt
      omega
    · exact ⟨r', hr', hlow, hhigh⟩

/-- A run ends where the byte after it is in no run. -/
theorem last_le (h : Separated (r :: rs)) (hfirst : r.1 = r'.1)
    (hmem : ∀ x, InRuns x (r' :: rs') → InRuns x (r :: rs)) : r'.2 ≤ r.2 := by
  rw [UInt8.le_iff_toNat_le]
  by_contra hlt
  have hle := h.le r (by simp)
  have hlast := r'.2.toNat_lt
  have hnext : (UInt8.ofNat (r.2.toNat + 1)).toNat = r.2.toNat + 1 := by
    rw [UInt8.toNat_ofNat']
    omega
  have hin : InRuns (UInt8.ofNat (r.2.toNat + 1)) (r' :: rs') := by
    refine ⟨r', by simp, ?_⟩
    rw [← hfirst]
    simp only [UInt8.le_iff_toNat_le, hnext] at hle ⊢
    omega
  have hlater : r.2 < UInt8.ofNat (r.2.toNat + 1) := by
    rw [UInt8.lt_iff_toNat_lt, hnext]
    omega
  obtain ⟨r'', hr'', hlow, -⟩ := h.inRuns_tail.2 ⟨hmem _ hin, hlater⟩
  have hgap := h.gap r'' hr''
  rw [UInt8.le_iff_toNat_le, hnext] at hlow
  omega

/-- Runs with gaps between them are determined by the bytes that lie in them. -/
theorem eq (h : Separated rs) (h' : Separated rs') (hmem : ∀ x, InRuns x rs ↔ InRuns x rs') : rs = rs' := by
  induction rs generalizing rs' with
  | nil =>
    cases rs' with
    | nil => rfl
    | cons r' rs' =>
      have hin := (hmem r'.1).2 (h'.inRuns_first (by simp))
      simp [InRuns] at hin
  | cons r rs ih =>
    cases rs' with
    | nil =>
      have hin := (hmem r.1).1 (h.inRuns_first (by simp))
      simp [InRuns] at hin
    | cons r' rs' =>
      have hlow := h.first_le ((hmem r'.1).2 (h'.inRuns_first (by simp)))
      have hlow' := h'.first_le ((hmem r.1).1 (h.inRuns_first (by simp)))
      have heq : r.1 = r'.1 := UInt8.le_antisymm hlow hlow'
      have heq' : r.2 = r'.2 := UInt8.le_antisymm (h'.last_le heq.symm fun x => (hmem x).1)
        (h.last_le heq fun x => (hmem x).2)
      obtain rfl : r = r' := Prod.ext heq heq'
      rw [ih h.tail h'.tail fun x => by rw [h.inRuns_tail, h'.inRuns_tail, hmem]]

/-- A byte before all runs extends the first of them, or is a run of its own. -/
theorem extendRuns {b : UInt8} (h : Separated rs) (hlt : ∀ r ∈ rs, b < r.1) :
    Separated (extendRuns b rs) := by
  refine ⟨le_of_mem_extendRuns h.le, ?_⟩
  cases rs with
  | nil => simp [ByteSet.extendRuns]
  | cons run more =>
    obtain ⟨first, last⟩ := run
    have hfirst := hlt (first, last) (by simp)
    simp only [ByteSet.extendRuns]
    split
    · cases more with
      | nil => simp
      | cons next more =>
        have hgaps := List.isChain_cons_cons.1 h.gaps
        exact List.isChain_cons_cons.2 hgaps
    · rename_i hnext
      refine List.isChain_cons_cons.2 ⟨?_, h.gaps⟩
      rw [UInt8.lt_iff_toNat_lt] at hfirst
      simp only at hfirst ⊢
      omega

end Separated

theorem pairwise_toList (s : ByteSet) : s.toList.Pairwise (· < ·) := by
  refine List.Pairwise.filter _ (List.pairwise_map.2 ?_)
  refine List.pairwise_lt_range.imp_of_mem fun {i j} hi hj hlt => ?_
  rw [List.mem_range] at hi hj
  rw [UInt8.lt_iff_toNat_lt, UInt8.toNat_ofNat', UInt8.toNat_ofNat']
  omega

/-- The runs of ascending bytes have gaps between them, and hold these bytes and no others. -/
theorem foldr_extendRuns {l : List UInt8} (hl : l.Pairwise (· < ·)) :
    Separated (l.foldr extendRuns []) ∧ ∀ x, InRuns x (l.foldr extendRuns []) ↔ x ∈ l := by
  induction l with
  | nil => exact ⟨⟨by simp, .nil⟩, by simp [InRuns]⟩
  | cons b l ih =>
    obtain ⟨hb, hl⟩ := List.pairwise_cons.1 hl
    obtain ⟨hruns, hmem⟩ := ih hl
    have hlt : ∀ r ∈ l.foldr extendRuns [], b < r.1 := by
      intro r hr
      exact hb _ ((hmem r.1).1 (hruns.inRuns_first hr))
    refine ⟨hruns.extendRuns hlt, fun x => ?_⟩
    rw [List.foldr_cons, inRuns_extendRuns hruns.le, hmem, List.mem_cons]

/-- There are gaps between the runs of a set. -/
theorem separated_ranges (s : ByteSet) : Separated s.ranges := (foldr_extendRuns s.pairwise_toList).1

theorem mem_ranges : InRuns x a.ranges ↔ x ∈ a := by
  rw [ranges, (foldr_extendRuns a.pairwise_toList).2, mem_toList]

/-! ## Unions of intervals -/

theorem mem_ofRanges {rs : List (UInt8 × UInt8)} : x ∈ ofRanges rs ↔ ∃ r ∈ rs, x ∈ interval r.1 r.2 := by
  have hfold : ∀ s : ByteSet, x ∈ rs.foldl (fun s r => s ∪ interval r.1 r.2) s ↔
      x ∈ s ∨ ∃ r ∈ rs, x ∈ interval r.1 r.2 := by
    induction rs with
    | nil => simp
    | cons r rs ih =>
      intro s
      rw [List.foldl_cons, ih, mem_union, or_assoc]
      simp
  rw [ofRanges, hfold]
  simp

/-- The runs of a union of intervals are the only list of ascending runs with gaps between them whose bytes
are those between the two ends of some interval. A set is the union of its runs. -/
theorem ranges_normalForm :
    (∀ rs runs : List (UInt8 × UInt8), (ofRanges rs).ranges = runs ↔
      Separated runs ∧
        ∀ x, InRuns x runs ↔ ∃ r ∈ rs, (r.1 ≤ x ∧ x ≤ r.2) ∨ (r.2 ≤ x ∧ x ≤ r.1)) ∧
    ∀ s : ByteSet, ofRanges s.ranges = s := by
  have hbytes : ∀ {rs x}, InRuns x (ofRanges rs).ranges ↔
      ∃ r ∈ rs, (r.1 ≤ x ∧ x ≤ r.2) ∨ (r.2 ≤ x ∧ x ≤ r.1) := by
    intro rs x
    rw [mem_ranges, mem_ofRanges]
    simp only [mem_interval]
  refine ⟨fun rs runs => ⟨?_, ?_⟩, fun s => ext_mem fun x => ?_⟩
  · rintro rfl
    exact ⟨separated_ranges _, fun x => hbytes⟩
  · rintro ⟨hruns, hmem⟩
    exact (separated_ranges _).eq hruns fun x => by rw [hbytes, hmem]
  · rw [mem_ofRanges, ← mem_ranges]
    refine exists_congr fun r => and_congr_right fun hr => ?_
    have hle := (separated_ranges s).le r hr
    rw [mem_interval, UInt8.le_iff_toNat_le] at *
    simp only [UInt8.le_iff_toNat_le]
    omega

/-- Intervals that overlap or meet, one of them reversed, and a gap of a single byte. -/
example : (ofRanges [(9, 5), (1, 2), (8, 20), (255, 255), (4, 4)]).ranges = [(1, 2), (4, 20), (255, 255)] := by
  decide +kernel

end ByteSet
end ByteMatch
