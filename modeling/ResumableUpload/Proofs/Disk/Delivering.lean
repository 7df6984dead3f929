import ResumableUpload.Delivery
import ResumableUpload.Proofs.Disk.Storing

/-
  Delivering — what the operations of a delivery touch

  A delivery brings a fragment to the file that its path names, operation by
  operation. Each of them touches that file alone, and none grows it beyond the
  end of the fragment. The file that a delivery has open is the one its path
  names, and it is there, so once all operations have succeeded the file reaches
  the end of the fragment.

  What is held:
    1. `Storage.HasOpen` — a handle of the file that names stand for.
    2. `Delivery.Ready` — a delivery that may go on.

  What is proved:
    1. `advanced_seeking`, `advanced_writing` — what comes of a seek and of a
       burst.
    2. `Ready.advance` — what any operation touches, and what it leaves.
    3. `Ready.fail`, `Ready.effect` — one that fails touches no more.
-/

namespace ResumableUpload

/-- A handle of the file that `names` stand for, which is there, at the end of a way that is clear. -/
structure Storage.HasOpen (s : Storage) (d : Disk) (base names : Location) (w : FileWriter) :
    Prop where
  loc : w.file.loc = base ++ names
  clear : s.Clear d base names
  there : ∃ content, d.get? w.file.loc = some (.file w.file.serial content)

variable {s : Storage} {d d' : Disk} {base names ns : Location} {limit : Nat} {path : String}
  {f : Fragment} {w : FileWriter} {x : Delivery}

namespace Storage.HasOpen

theorem mono (h : s.HasOpen d base names w) (hfills : s.Fills base ns limit d d') :
    s.HasOpen d' base names w := by
  refine ⟨h.loc, h.clear.steady hfills.steady, ?_⟩
  obtain ⟨content, hthere⟩ := h.there
  obtain ⟨e, he, hsame⟩ := hfills.grown _ _ hthere
  cases hsame
  exact ⟨_, he⟩

theorem count (h : s.HasOpen d base names w) (len : Nat) : s.HasOpen d base names (w.count len) :=
  ⟨h.loc, h.clear, h.there⟩

end Storage.HasOpen

theorem Storage.Rooted.fills_makeSome (h : s.Rooted d base)
    (hpath : Storage.resolve path = .ok names) (limit count : Nat) :
    s.Fills base names limit d (s.makeSome d path count) := by
  obtain ⟨hne, hnames⟩ := resolve_eq_ok hpath
  simp only [makeSome, hpath]
  exact fills_makeAll limit h fun p hp => h.above hnames hne (List.mem_of_mem_drop hp)

namespace Delivery

/-- The file that a delivery has open. -/
def writer? : Delivery → Option FileWriter
  | directories | opening => none
  | seeking w | writing w _ => some w

/-- A delivery that may go on: what it has open is the file that `names` stand for, and of a fragment
that is partly written some bytes are left. -/
structure Ready (s : Storage) (d : Disk) (base names : Location) (f : Fragment) (x : Delivery) :
    Prop where
  opened : ∀ w, x.writer? = some w → s.HasOpen d base names w
  left : ∀ w done, x = writing w done → done < f.len

theorem Ready.of_none (hwriter : x.writer? = none) : Ready s d base names f x := by
  refine ⟨fun w hw => ?_, fun w done hx => ?_⟩
  · rw [hwriter] at hw
    cases hw
  · rw [hx] at hwriter
    cases hwriter

theorem Ready.seeking (hopen : s.HasOpen d base names w) : Ready s d base names f (seeking w) := by
  refine ⟨fun v hv => ?_, fun v done hx => ?_⟩
  · cases hv
    exact hopen
  · cases hx

theorem Ready.mono (h : Ready s d base names f x) (hfills : s.Fills base ns limit d d') :
    Ready s d' base names f x :=
  ⟨fun w hw => (h.opened w hw).mono hfills, h.left⟩

/-- An operation touches the file of its path alone, and leaves a delivery that may go on; the last one
leaves the file open, as long as the fragment needs it. -/
structure Advanced (s : Storage) (base names : Location) (f : Fragment) (d : Disk)
    (result : Disk × Step) : Prop where
  fills : s.Fills base names f.stop d result.1
  onward : ∀ next, result.2 = .onward next → Ready s result.1 base names f next
  ended : ∀ w, result.2 = .ended (.ok w) →
    s.HasOpen result.1 base names w ∧ (f.len ≠ 0 → f.stop ≤ result.1.sizeAt (base ++ names))

namespace Advanced

theorem of_onward {next : Delivery} (hfills : s.Fills base names f.stop d d')
    (hnext : Ready s d' base names f next) :
    Advanced s base names f d (d', .onward next) := by
  refine ⟨hfills, ?_, ?_⟩
  · intro y hy
    cases hy
    exact hnext
  · intro w hw
    cases hw

theorem of_error {cause : OsError} (hfills : s.Fills base names f.stop d d') :
    Advanced s base names f d (d', .ended (.error cause)) := by
  refine ⟨hfills, ?_, ?_⟩
  · intro y hy
    cases hy
  · intro w hw
    cases hw

theorem of_ok (hfills : s.Fills base names f.stop d d') (hopen : s.HasOpen d' base names w)
    (hreach : f.len ≠ 0 → f.stop ≤ d'.sizeAt (base ++ names)) :
    Advanced s base names f d (d', .ended (.ok w)) := by
  refine ⟨hfills, ?_, ?_⟩
  · intro y hy
    cases hy
  · intro v hv
    cases hv
    exact ⟨hopen, hreach⟩

end Advanced

/-- To go to the place of a fragment touches nothing, and an empty fragment ends with it. -/
theorem advanced_seeking (h : Ready s d base names f (seeking w)) :
    Advanced s base names f d ((seeking w).advance s path f d) := by
  have hsame : s.Fills base names f.stop d d := .refl s base names f.stop d
  have hopen := h.opened w rfl
  rcases hseek : Disk.seek f.position with cause | u
  · simp only [Delivery.advance, hseek]
    exact .of_error hsame
  · cases hempty : f.isEmpty with
    | true =>
      simp only [Delivery.advance, hseek, hempty, if_true]
      refine .of_ok hsame (hopen.count f.len) fun hsome => ?_
      exact absurd (beq_iff_eq.mp hempty) hsome
    | false =>
      simp only [Delivery.advance, hseek, hempty, Bool.false_eq_true, if_false]
      refine .of_onward hsame ⟨fun v hv => h.opened v hv, ?_⟩
      intro v done hx
      cases hx
      have hsome : f.len ≠ 0 := by simpa [Fragment.isEmpty] using hempty
      omega

/-- A burst grows the file up to the end of the fragment at most, and the last one reaches it. -/
theorem advanced_writing {done : Nat} (h : Ready s d base names f (writing w done)) :
    Advanced s base names f d ((writing w done).advance s path f d) := by
  have hopen := h.opened w rfl
  have hleft := h.left w done rfl
  obtain ⟨content, hthere⟩ := hopen.there
  have hburst := FileWriter.burst_pos
  -- some bytes are left, so the burst is not empty
  have hsize : (f.bytes.extract done (done + FileWriter.burst)).size =
      min (done + FileWriter.burst) f.len - done := by
    rw [Array.size_extract]
    rfl
  have hfills : s.Fills base names f.stop d (d.place w.file (f.position + done)
      (f.bytes.extract done (done + FileWriter.burst))) := by
    apply Storage.fills_place hopen.loc
    right
    rw [hsize, Fragment.stop]
    omega
  by_cases hlast : f.len ≤ done + FileWriter.burst
  · simp only [Delivery.advance, hlast, if_true]
    refine .of_ok hfills ((hopen.mono hfills).count f.len) fun _ => ?_
    have hreach := Storage.sizeAt_place hthere (f.position + done)
      (f.bytes.extract done (done + FileWriter.burst)) (by omega)
    rw [hsize, hopen.loc] at hreach
    rw [Fragment.stop]
    omega
  · simp only [Delivery.advance, hlast, if_false]
    refine .of_onward hfills ⟨fun v hv => (h.opened v hv).mono hfills, ?_⟩
    intro v next hx
    cases hx
    omega

/-- What an operation touches, and what it leaves. -/
theorem Ready.advance (h : Ready s d base names f x) (hrooted : s.Rooted d base)
    (hpath : Storage.resolve path = .ok names) :
    Advanced s base names f d (x.advance s path f d) := by
  cases x with
  | directories =>
    have hfills := hrooted.fills_makeWay hpath f.stop
    rcases hmake : s.makeWay d path with ⟨d', err | u⟩
    · rw [hmake] at hfills
      simp only [Delivery.advance, hmake]
      exact .of_error hfills
    · rw [hmake] at hfills
      simp only [Delivery.advance, hmake]
      exact .of_onward hfills (.of_none rfl)
  | opening =>
    obtain ⟨hfills, hopen⟩ := hrooted.fills_openFile hpath f.stop
    rcases hfile : s.openFile d path with ⟨d', err | file⟩
    · rw [hfile] at hfills
      simp only [Delivery.advance, hfile]
      exact .of_error hfills
    · rw [hfile] at hfills hopen
      obtain ⟨hloc, hclear, hthere⟩ := hopen file rfl
      simp only [Delivery.advance, hfile]
      exact .of_onward hfills (.seeking ⟨hloc, hclear.steady hfills.steady, hthere⟩)
  | seeking w => exact advanced_seeking h
  | writing w done => exact advanced_writing h

/-- What an operation that fails leaves behind lies within what it was to touch. -/
theorem Ready.fail (h : Ready s d base names f x) (hrooted : s.Rooted d base)
    (hpath : Storage.resolve path = .ok names) (count : Nat) :
    s.Fills base names f.stop d (x.fail s path f count d) := by
  cases x with
  | directories => exact hrooted.fills_makeSome hpath f.stop count
  | opening => exact .refl s base names f.stop d
  | seeking w => exact .refl s base names f.stop d
  | writing w done =>
    have hleft := h.left w done rfl
    have hsize : (f.bytes.extract done (done + min count FileWriter.burst)).size =
        min (done + min count FileWriter.burst) f.len - done := by
      rw [Array.size_extract]
      rfl
    apply Storage.fills_place (h.opened w rfl).loc
    right
    rw [hsize, Fragment.stop]
    omega

theorem Ready.effect (h : Ready s d base names f x) (hrooted : s.Rooted d base)
    (hpath : Storage.resolve path = .ok names) (fault : Option DiskFault) :
    s.Fills base names f.stop d (x.effect s path f fault d) := by
  cases fault with
  | none => exact (h.advance hrooted hpath).fills
  | some fault => exact h.fail hrooted hpath fault.done

end Delivery

end ResumableUpload
