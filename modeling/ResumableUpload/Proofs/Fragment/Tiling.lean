import ResumableUpload.Fragment.Basic
import Mathlib.Data.List.Pairwise
import Mathlib.Data.List.Perm.Basic
import Mathlib.Order.Interval.Finset.Nat
import Mathlib.Algebra.Ring.Nat

/-
  Tiling — fragments that share no offset

  Fragments that share no offset may be laid over a content in any order: each
  byte comes from the one fragment that covers it, or is as it was. If they
  cover the first `n` offsets, and nothing behind them, their lengths sum to
  `n`.

  What is held:
    1. `Fragment.covers`, `Fragment.Apart` — the offsets of a fragment.
    2. `Content.lay` — fragments laid one after another.
    3. `Tiling` — fragments that share no offset and cover the first `n`.

  What is proved:
    1. `Content.lay_perm` — the order makes no difference.
    2. `Content.byte_lay_of_covers`, `byte_lay_of_not_covers` — what lies at an
       offset.
    3. `Tiling.totalLen_eq`, `of_le_totalLen`, `le_totalLen_iff`, `size_lay` — the
       lengths sum to `n`, and only those of a tiling do; they reach it with the
       last fragment that has bytes; the content ends there, or where it ended
       before.
-/

namespace ResumableUpload

/-- The bytes of fragments, counted. -/
def totalLen (fs : List Fragment) : Nat := (fs.map Fragment.len).sum

theorem totalLen_cons (f : Fragment) (fs : List Fragment) : totalLen (f :: fs) = f.len + totalLen fs :=
  List.sum_cons

theorem totalLen_append (fs gs : List Fragment) : totalLen (fs ++ gs) = totalLen fs + totalLen gs := by
  rw [totalLen, List.map_append, List.sum_append]
  rfl

theorem totalLen_concat (fs : List Fragment) (f : Fragment) :
    totalLen (fs ++ [f]) = totalLen fs + f.len := by
  rw [totalLen_append]
  simp [totalLen]

/-- Whether a fragment has a byte for the offset. -/
def Fragment.covers (f : Fragment) (i : Nat) : Prop := f.position ≤ i ∧ i < f.stop

/-- The fragments share no offset. -/
def Fragment.Apart (f g : Fragment) : Prop := ∀ i, ¬ (f.covers i ∧ g.covers i)

theorem Fragment.Apart.symm {f g : Fragment} (h : f.Apart g) : g.Apart f :=
  fun i hi => h i ⟨hi.2, hi.1⟩

instance : Std.Symm Fragment.Apart := ⟨fun _ _ => Fragment.Apart.symm⟩

namespace Content

/-- Fragments laid over a content, one after another. -/
def lay (c : Content) (fs : List Fragment) : Content :=
  fs.foldl (fun c f => c.overlay f.position f.bytes) c

theorem lay_append (c : Content) (fs gs : List Fragment) : c.lay (fs ++ gs) = (c.lay fs).lay gs :=
  List.foldl_append

theorem byte_overlay_of_covers {f : Fragment} {i : Nat} (h : f.covers i) (c : Content) :
    (c.overlay f.position f.bytes).byte i = (f.bytes[i - f.position]?).getD 0 := by
  have hin : i - f.position < f.bytes.size := by
    have hstop : i < f.position + f.bytes.size := h.2
    have hstart := h.1
    omega
  rw [byte_overlay, laid, if_pos h.1, Array.getElem?_eq_getElem hin]
  rfl

theorem byte_overlay_of_not_covers {f : Fragment} {i : Nat} (h : ¬ f.covers i) (c : Content) :
    (c.overlay f.position f.bytes).byte i = c.byte i := by
  rw [byte_overlay, laid]
  split
  · rename_i hstart
    have hout : f.bytes.size ≤ i - f.position := by
      have hstop : ¬ i < f.position + f.bytes.size := fun hstop => h ⟨hstart, hstop⟩
      omega
    rw [Array.getElem?_eq_none hout]
    rfl
  · rfl

theorem overlay_comm {f g : Fragment} (h : f.Apart g) (c : Content) :
    (c.overlay f.position f.bytes).overlay g.position g.bytes =
      (c.overlay g.position g.bytes).overlay f.position f.bytes := by
  ext i
  · simp only [size_overlay, sizeAfter]
    split <;> split <;> omega
  · by_cases hf : f.covers i
    · have hg : ¬ g.covers i := fun hg => h i ⟨hf, hg⟩
      rw [byte_overlay_of_not_covers hg, byte_overlay_of_covers hf, byte_overlay_of_covers hf]
    · by_cases hg : g.covers i
      · rw [byte_overlay_of_covers hg, byte_overlay_of_not_covers hf, byte_overlay_of_covers hg]
      · rw [byte_overlay_of_not_covers hg, byte_overlay_of_not_covers hf,
          byte_overlay_of_not_covers hf, byte_overlay_of_not_covers hg]

theorem lay_perm {fs gs : List Fragment} (hperm : fs.Perm gs) (h : fs.Pairwise Fragment.Apart)
    (c : Content) : c.lay fs = c.lay gs := by
  refine hperm.foldl_eq' ?_ c
  intro f hf g hg c
  by_cases hfg : f = g
  · rw [hfg]
  · exact overlay_comm (h.forall hf hg hfg) c

theorem byte_lay_of_not_covers {fs : List Fragment} {i : Nat} (h : ∀ f ∈ fs, ¬ f.covers i)
    (c : Content) : (c.lay fs).byte i = c.byte i := by
  induction fs generalizing c with
  | nil => rfl
  | cons f rest ih =>
    show ((c.overlay f.position f.bytes).lay rest).byte i = _
    rw [ih fun g hg => h g (List.mem_cons_of_mem _ hg)]
    exact byte_overlay_of_not_covers (h f List.mem_cons_self) c

theorem byte_lay_of_covers {fs : List Fragment} (h : fs.Pairwise Fragment.Apart) {f : Fragment}
    (hf : f ∈ fs) {i : Nat} (hi : f.covers i) (c : Content) :
    (c.lay fs).byte i = (f.bytes[i - f.position]?).getD 0 := by
  induction fs generalizing c with
  | nil => cases hf
  | cons g rest ih =>
    rw [List.pairwise_cons] at h
    show ((c.overlay g.position g.bytes).lay rest).byte i = _
    rcases List.mem_cons.mp hf with rfl | hf
    · -- nothing that is laid later covers the offset
      rw [byte_lay_of_not_covers fun x hx hxi => h.1 x hx i ⟨hi, hxi⟩]
      exact byte_overlay_of_covers hi c
    · exact ih h.2 hf _

theorem size_le_size_lay (fs : List Fragment) (c : Content) : c.size ≤ (c.lay fs).size := by
  induction fs generalizing c with
  | nil => exact Nat.le_refl _
  | cons f rest ih =>
    refine Nat.le_trans ?_ (ih (c.overlay f.position f.bytes))
    rw [size_overlay, sizeAfter]
    split <;> omega

theorem stop_le_size_lay {fs : List Fragment} {f : Fragment} (hf : f ∈ fs) (hsome : f.len ≠ 0)
    (c : Content) : f.stop ≤ (c.lay fs).size := by
  induction fs generalizing c with
  | nil => cases hf
  | cons g rest ih =>
    rcases List.mem_cons.mp hf with rfl | hf
    · refine Nat.le_trans ?_ (size_le_size_lay rest (c.overlay f.position f.bytes))
      have hsome : f.bytes.size ≠ 0 := hsome
      rw [size_overlay, sizeAfter, if_neg hsome]
      exact Nat.le_max_right _ _
    · exact ih hf _

theorem size_lay_le {fs : List Fragment} {m : Nat} (h : ∀ f ∈ fs, f.stop ≤ m) (c : Content)
    (hc : c.size ≤ m) : (c.lay fs).size ≤ m := by
  induction fs generalizing c with
  | nil => exact hc
  | cons f rest ih =>
    refine ih (fun g hg => h g (List.mem_cons_of_mem _ hg)) (c.overlay f.position f.bytes) ?_
    have hstop : f.position + f.bytes.size ≤ m := h f List.mem_cons_self
    rw [size_overlay, sizeAfter]
    split <;> omega

end Content

/-- Fragments that share no offset and cover the first `n` offsets, and none behind them. -/
structure Tiling (n : Nat) (fs : List Fragment) : Prop where
  apart : fs.Pairwise Fragment.Apart
  within : ∀ f ∈ fs, f.stop ≤ n
  covered : ∀ i, i < n → ∃ f ∈ fs, f.covers i

namespace Tiling

theorem perm {n : Nat} {fs gs : List Fragment} (h : Tiling n fs) (hperm : fs.Perm gs) :
    Tiling n gs where
  apart := hperm.pairwise h.apart Fragment.Apart.symm
  within := fun f hf => h.within f (hperm.mem_iff.mpr hf)
  covered := by
    intro i hi
    obtain ⟨f, hf, hfi⟩ := h.covered i hi
    exact ⟨f, hperm.mem_iff.mp hf, hfi⟩

/-- The offsets that fragments cover. -/
def offsets : List Fragment → Finset Nat
  | [] => ∅
  | f :: rest => Finset.Ico f.position f.stop ∪ offsets rest

theorem mem_offsets {fs : List Fragment} {i : Nat} : i ∈ offsets fs ↔ ∃ f ∈ fs, f.covers i := by
  induction fs with
  | nil => simp [offsets]
  | cons f rest ih =>
    rw [offsets, Finset.mem_union, Finset.mem_Ico, ih]
    simp [Fragment.covers]

theorem card_offsets {fs : List Fragment} (h : fs.Pairwise Fragment.Apart) :
    (offsets fs).card = totalLen fs := by
  induction fs with
  | nil => rfl
  | cons f rest ih =>
    rw [List.pairwise_cons] at h
    have hdisjoint : Disjoint (Finset.Ico f.position f.stop) (offsets rest) := by
      rw [Finset.disjoint_left]
      intro i hi hrest
      obtain ⟨g, hg, hgi⟩ := mem_offsets.mp hrest
      exact h.1 g hg i ⟨Finset.mem_Ico.mp hi, hgi⟩
    rw [offsets, Finset.card_union_of_disjoint hdisjoint, Nat.card_Ico, ih h.2]
    show f.position + f.len - f.position + totalLen rest = _
    rw [Nat.add_sub_cancel_left]
    rfl

theorem totalLen_eq {n : Nat} {fs : List Fragment} (h : Tiling n fs) : totalLen fs = n := by
  have hall : offsets fs = Finset.range n := by
    ext i
    rw [mem_offsets, Finset.mem_range]
    constructor
    · rintro ⟨f, hf, hfi⟩
      exact Nat.lt_of_lt_of_le hfi.2 (h.within f hf)
    · exact h.covered i
  rw [← card_offsets h.apart, hall, Finset.card_range]

/-- Fragments that share no offset and have `n` bytes cover the first `n` offsets, if none is behind. -/
theorem of_le_totalLen {n : Nat} {fs : List Fragment} (hapart : fs.Pairwise Fragment.Apart)
    (hwithin : ∀ f ∈ fs, f.stop ≤ n) (hall : n ≤ totalLen fs) : Tiling n fs := by
  have hsub : offsets fs ⊆ Finset.range n := by
    intro i hi
    obtain ⟨f, hf, hfi⟩ := mem_offsets.mp hi
    exact Finset.mem_range.mpr (Nat.lt_of_lt_of_le hfi.2 (hwithin f hf))
  have heq : offsets fs = Finset.range n := by
    apply Finset.eq_of_subset_of_card_le hsub
    rw [card_offsets hapart, Finset.card_range]
    exact hall
  refine ⟨hapart, hwithin, fun i hi => mem_offsets.mp ?_⟩
  rw [heq]
  exact Finset.mem_range.mpr hi

theorem exists_stop {n : Nat} {fs : List Fragment} (h : Tiling n fs) (hn : 0 < n) :
    ∃ f ∈ fs, f.len ≠ 0 ∧ n ≤ f.stop := by
  obtain ⟨f, hf, hstart, hstop⟩ := h.covered (n - 1) (by omega)
  refine ⟨f, hf, fun hnone => ?_, by omega⟩
  rw [Fragment.stop, hnone] at hstop
  omega

/-- The lengths of the first fragments reach `n` exactly where the others have no bytes. -/
theorem le_totalLen_iff {n : Nat} {fs gs : List Fragment} (h : Tiling n (fs ++ gs)) :
    n ≤ totalLen fs ↔ gs.all Fragment.isEmpty = true := by
  have hsum := h.totalLen_eq
  rw [totalLen_append] at hsum
  have hnone : totalLen gs = 0 ↔ gs.all Fragment.isEmpty = true := by
    simp [totalLen, List.sum_eq_zero_iff_forall_eq_nat, Fragment.isEmpty]
  rw [← hnone]
  omega

/-- A content under a tiling ends where the tiling ends, or where it ended before. -/
theorem size_lay {n : Nat} {fs : List Fragment} (h : Tiling n fs) (c : Content) :
    (c.lay fs).size = max c.size n := by
  apply Nat.le_antisymm
  · refine Content.size_lay_le ?_ c (Nat.le_max_left _ _)
    intro f hf
    exact Nat.le_trans (h.within f hf) (Nat.le_max_right _ _)
  · refine Nat.max_le.mpr ⟨Content.size_le_size_lay fs c, ?_⟩
    cases n with
    | zero => exact Nat.zero_le _
    | succ k =>
      obtain ⟨f, hf, hsome, hstop⟩ := h.exists_stop (Nat.succ_pos k)
      exact Nat.le_trans hstop (Content.stop_le_size_lay hf hsome c)

end Tiling

end ResumableUpload
