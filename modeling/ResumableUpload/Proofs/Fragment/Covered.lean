import ResumableUpload.Words
import Mathlib.Order.Interval.Finset.Nat
import Mathlib.Algebra.Order.Ring.Nat

/-
  Covered — how many offsets ranges cover

  The total of a coverage counts each byte as often as it was written. So it is
  no less than the number of offsets that are covered, and just that number
  where no offset was written twice. An upload whose every offset is covered is
  complete therefore, and one that is complete is covered throughout, unless
  some offset was written twice.

  What is held:
    1. `ByteRange.Covers`, `ByteRange.Apart` — the offsets of a range.
    2. `ByteRange.offsets` — the offsets that some ranges cover.
    3. `Coverage.ofRanges` — a coverage with these writes.

  What is proved:
    1. `card_offsets_le`, `card_offsets_eq_iff` — how many they are.
    2. `covered_at_most_saved` — and so what a coverage says of its size.
-/

namespace ResumableUpload

namespace ByteRange

/-- The range has the offset. -/
def Covers (r : ByteRange) (i : Nat) : Prop := r.start ≤ i ∧ i < r.stop

instance (r : ByteRange) (i : Nat) : Decidable (r.Covers i) := inferInstanceAs (Decidable (_ ∧ _))

/-- The ranges share no offset. -/
def Apart (x y : ByteRange) : Prop :=
  ∀ i, ¬ ((x.start ≤ i ∧ i < x.stop) ∧ (y.start ≤ i ∧ i < y.stop))

/-- The offsets that ranges cover. -/
def offsets : List ByteRange → Finset Nat
  | [] => ∅
  | r :: rest => Finset.Ico r.start r.stop ∪ offsets rest

variable {r : ByteRange} {ranges : List ByteRange} {i : Nat}

theorem mem_offsets : i ∈ offsets ranges ↔ ∃ r ∈ ranges, r.Covers i := by
  induction ranges with
  | nil => simp [offsets]
  | cons r rest ih =>
    rw [offsets, Finset.mem_union, Finset.mem_Ico, ih, List.exists_mem_cons_iff]
    rfl

theorem card_offsets_cons (r : ByteRange) (rest : List ByteRange) :
    (offsets (r :: rest)).card + (Finset.Ico r.start r.stop ∩ offsets rest).card =
      r.length + (offsets rest).card := by
  rw [offsets, Finset.card_union_add_card_inter, Nat.card_Ico]
  rfl

theorem card_inter_eq_zero :
    (Finset.Ico r.start r.stop ∩ offsets ranges).card = 0 ↔ ∀ x ∈ ranges, r.Apart x := by
  rw [Finset.card_eq_zero, Finset.eq_empty_iff_forall_notMem]
  constructor
  · rintro h x hx i ⟨hr, hxi⟩
    exact h i (Finset.mem_inter.mpr ⟨Finset.mem_Ico.mpr hr, mem_offsets.mpr ⟨x, hx, hxi⟩⟩)
  · intro h i hi
    obtain ⟨hr, hrest⟩ := Finset.mem_inter.mp hi
    obtain ⟨x, hx, hxi⟩ := mem_offsets.mp hrest
    exact h x hx i ⟨Finset.mem_Ico.mp hr, hxi⟩

/-- Ranges cover no more offsets than their lengths sum to. -/
theorem card_offsets_le (ranges : List ByteRange) : (offsets ranges).card ≤ coveredBytes ranges := by
  induction ranges with
  | nil => exact Nat.le_refl 0
  | cons r rest ih =>
    have hcard := card_offsets_cons r rest
    show _ ≤ r.length + coveredBytes rest
    omega

/-- They cover as many just where they share none. -/
theorem card_offsets_eq_iff :
    (offsets ranges).card = coveredBytes ranges ↔ ranges.Pairwise Apart := by
  induction ranges with
  | nil => exact ⟨fun _ => .nil, fun _ => rfl⟩
  | cons r rest ih =>
    have hcard := card_offsets_cons r rest
    have hle := card_offsets_le rest
    rw [List.pairwise_cons, ← ih, ← card_inter_eq_zero]
    show _ = r.length + coveredBytes rest ↔ _
    omega

theorem offsets_subset {size : Nat} (hwithin : ∀ r ∈ ranges, r.stop ≤ size) :
    offsets ranges ⊆ Finset.range size := by
  intro i hi
  obtain ⟨r, hr, hcovers⟩ := mem_offsets.mp hi
  exact Finset.mem_range.mpr (Nat.lt_of_lt_of_le hcovers.2 (hwithin r hr))

theorem card_offsets_eq_size_iff {size : Nat} (hwithin : ∀ r ∈ ranges, r.stop ≤ size) :
    size ≤ (offsets ranges).card ↔ ∀ i < size, ∃ r ∈ ranges, r.Covers i := by
  constructor
  · intro hall i hi
    rw [← mem_offsets, Finset.eq_of_subset_of_card_le (offsets_subset hwithin)]
    · exact Finset.mem_range.mpr hi
    · rw [Finset.card_range]
      exact hall
  · intro hall
    rw [← Finset.card_range size]
    exact Finset.card_le_card fun i hi => mem_offsets.mpr (hall i (Finset.mem_range.mp hi))

end ByteRange

/-- A coverage with these writes, one after another. -/
def Coverage.ofRanges (ranges : List ByteRange) : Coverage := ranges.foldl Coverage.record .empty

theorem Coverage.saved_ofRanges (ranges : List ByteRange) :
    (ofRanges ranges).saved = coveredBytes ranges := by
  have hfold : ∀ c : Coverage, (ranges.foldl record c).saved = c.saved + coveredBytes ranges := by
    induction ranges with
    | nil => exact fun c => rfl
    | cons r rest ih =>
      intro c
      rw [List.foldl_cons, ih]
      exact Nat.add_assoc _ _ _
  exact (hfold .empty).trans (Nat.zero_add _)

/-- The offsets that writes cover are no more than the bytes saved, and as many just where no two writes
share one. So an upload whose every offset is covered is complete; and where no two writes share an
offset, no more is saved than its size, and it is complete only if every offset is covered. The sum of
the machine is this total, as long as it is a word. -/
theorem covered_at_most_saved (size : Nat) (ranges : List ByteRange)
    (hwithin : ∀ r ∈ ranges, r.stop ≤ size) :
    let c := Coverage.ofRanges ranges
    let covered := (Finset.range size).filter fun i => ∃ r ∈ ranges, r.Covers i
    covered.card ≤ c.saved ∧
    (covered.card = c.saved ↔ ranges.Pairwise ByteRange.Apart) ∧
    ((∀ i < size, ∃ r ∈ ranges, r.Covers i) → c.isComplete size = true) ∧
    (ranges.Pairwise ByteRange.Apart → c.saved ≤ size ∧
      (c.isComplete size = true ↔ ∀ i < size, ∃ r ∈ ranges, r.Covers i)) ∧
    ∀ words total, rangesOfWords words = ranges →
      (coveredWord? words = some total ↔ c.saved = total.toNat) := by
  intro c covered
  have hcovered : covered = ByteRange.offsets ranges := by
    ext i
    rw [ByteRange.mem_offsets, Finset.mem_filter, Finset.mem_range, and_iff_right_iff_imp]
    rintro ⟨r, hr, hcovers⟩
    exact Nat.lt_of_lt_of_le hcovers.2 (hwithin r hr)
  have hsaved : c.saved = coveredBytes ranges := Coverage.saved_ofRanges ranges
  have hle := ByteRange.card_offsets_le ranges
  have hsize : (ByteRange.offsets ranges).card ≤ size := by
    have hcard := Finset.card_le_card (ByteRange.offsets_subset hwithin)
    rwa [Finset.card_range] at hcard
  have hall := ByteRange.card_offsets_eq_size_iff hwithin
  rw [hcovered, hsaved]
  refine ⟨hle, ByteRange.card_offsets_eq_iff, ?_, ?_, ?_⟩
  · intro hcovers
    rw [Coverage.isComplete_iff, hsaved]
    exact Nat.le_trans (hall.mpr hcovers) hle
  · intro hapart
    have hequal := ByteRange.card_offsets_eq_iff.mpr hapart
    rw [Coverage.isComplete_iff, hsaved, ← hequal]
    exact ⟨hsize, hall⟩
  · rintro words total rfl
    exact coveredWord?_eq_some_iff

/-- Two writes, of which the second covers the end of the first. -/
theorem five_bytes_saved_twice :
    let ranges : List ByteRange := [⟨0, 10⟩, ⟨5, 10⟩]
    (∀ r ∈ ranges, r.stop ≤ 10) ∧ (Coverage.ofRanges ranges).saved = 15 ∧
      ((Finset.range 10).filter fun i => ∃ r ∈ ranges, r.Covers i).card ≤ (Coverage.ofRanges ranges).saved ∧
      (Coverage.ofRanges ranges).isComplete 10 = true := by
  intro ranges
  have hwithin : ∀ r ∈ ranges, r.stop ≤ 10 := by decide
  obtain ⟨hle, -, hcomplete, -, -⟩ := covered_at_most_saved 10 ranges hwithin
  exact ⟨hwithin, by decide, hle, hcomplete (by decide)⟩

end ResumableUpload
