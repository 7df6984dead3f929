import ResumableUpload.Proofs.Writer.Bursts

/-
  Retry — a failed write leaves nothing that its repetition does not mend

  A write fails at the seek, at some call, or at the flush. It is not counted
  then, and what it left is the beginning of its payload, where it belongs; a
  target that takes no bytes fills the gap before it with zeros besides. Laying
  the whole payload covers all of that. So a write that succeeds after failed
  ones leaves what it would have left without them, whatever else was written
  meanwhile, if it was written elsewhere.

  What is held:
    1. `Writer.failure?` — why a write fails, if it does.
    2. `Writer.Attempt`, `Writer.tryEach` — writes one after another, each with what
       goes wrong, and with what the target takes meanwhile.
    3. `Writer.Mends` — two writers that a payload brings together.

  What is proved:
    1. `writeAt_failed` — what a failed write leaves.
    2. `Mends.of_failed`, `of_apart` — a failed write of the payload, and writes
       elsewhere, leave two writers that it brings together.
    3. `failed_writes_are_mended` — and so the payload does.
    4. `taking_nothing_fills_the_gap` — a failed write may leave zeros before its
       position.
-/

namespace ResumableUpload

namespace Content

theorem overlay_overlay_extract (c : Content) (position n : Nat) (bytes : Bytes) :
    (c.overlay position (bytes.extract 0 n)).overlay position bytes = c.overlay position bytes := by
  ext i
  · simp only [size_overlay, sizeAfter, Array.size_extract]
    grind
  · simp only [byte_overlay, laid, Array.getElem?_extract]
    grind

end Content

/-! ## One write -/

/-- A target that takes no bytes accepts a call and fills the gap before it. -/
theorem Target.writeAll_of_no_burst {t : Target} {budget? : Option Nat} {bytes : Bytes}
    (hburst : t.burst = 0) (hsome : bytes.size ≠ 0) (hbudget : budget? ≠ some 0) (cursor calls : Nat) :
    let p := t.writeAll (calls + 2) budget? cursor bytes
    p.taken = [#[]] ∧ p.result = .error (.other "write zero") ∧
      p.target.content = t.content.padTo cursor ∧ t.Keeps p.target := by
  have hfree : ∀ (calls : Nat) (t : Target), t.burst = 0 → t.busy = false →
      let p := t.writeAll (calls + 1) budget? cursor bytes
      p.taken = [#[]] ∧ p.result = .error (.other "write zero") ∧
        p.target.content = t.content.padTo cursor ∧ t.Keeps p.target := by
    intro calls t hburst hbusy
    have hnone : min (min t.burst bytes.size) (budget?.getD bytes.size) = 0 := by
      rw [hburst, Nat.zero_min, Nat.zero_min]
    dsimp only
    rw [writeAll, if_neg hsome, offer_of_free hbusy hbudget, hnone]
    refine ⟨rfl, rfl, ?_, ⟨rfl, rfl, rfl, rfl⟩⟩
    show (t.content.padTo cursor).overlay cursor (bytes.extract 0 0) = _
    rw [Array.extract_zero, Content.overlay_empty]
  cases hbusy : t.busy with
  | false => exact hfree (calls + 1) t hburst hbusy
  | true =>
    obtain ⟨htaken, hresult, hcontent, hkeeps⟩ := hfree calls { t with busy := false } hburst rfl
    dsimp only
    rw [writeAll, if_neg hsome, offer_of_busy hbusy]
    exact ⟨htaken, hresult, hcontent, ⟨hkeeps.burst, hkeeps.stalls, hkeeps.lastPosition, hkeeps.flushes⟩⟩

namespace Writer

variable {w v : Writer} {fault? : Option Fault} {position : Nat} {bytes : Bytes} {f : Fragment}

/-- Why a write fails, if it does: bytes that would get through are not taken, or something hinders
it. -/
def failure? (w : Writer) (fault? : Option Fault) (position len : Nat) : Option OsError :=
  if w.through fault? position len ≠ 0 ∧ w.target.burst = 0 then some (.other "write zero")
  else w.hindrance? fault? position len

/-- What a write that fails leaves: what it took of the payload, behind a gap that is filled if a call
was accepted that took nothing. -/
structure Failed (w : Writer) (fault? : Option Fault) (position : Nat) (bytes : Bytes)
    (done : Writer × WriteReport) : Prop where
  through : w.target.burst ≠ 0 → done.2.chunks.sum = w.through fault? position bytes.size
  taken : joined done.2.taken = bytes.extract 0 done.2.chunks.sum
  content : done.1.target.content =
    (if 0 ∈ done.2.chunks then w.target.content.padTo position else w.target.content).overlay position
      (bytes.extract 0 done.2.chunks.sum)
  gap : 0 ∈ done.2.chunks → bytes.size ≠ 0 ∧ w.target.burst = 0
  bytesWritten : done.1.bytesWritten = w.bytesWritten
  flushes : done.1.target.flushes = w.target.flushes
  lastPosition : done.1.target.lastPosition = w.target.lastPosition

theorem through_ne_zero (h : w.through fault? position bytes.size ≠ 0) :
    ¬ (fault? = some .seek ∨ w.target.lastPosition < position) ∧ bytes.size ≠ 0 ∧
      Fault.budget? fault? ≠ some 0 := by
  unfold through at h
  by_cases hseek : fault? = some .seek ∨ w.target.lastPosition < position
  · rw [if_pos hseek] at h
    exact absurd rfl h
  rw [if_neg hseek] at h
  refine ⟨hseek, fun hnone => h ?_, fun hspent => h ?_⟩
  · rw [hnone]
    exact Nat.min_zero _
  · rw [hspent]
    exact Nat.zero_min _

theorem writeAt_of_no_burst (hburst : w.target.burst = 0)
    (hthrough : w.through fault? position bytes.size ≠ 0) :
    let done := w.writeAt fault? position bytes
    done.2 = ⟨[#[]], .error (.other "write zero")⟩ ∧
      done.1.target.content = w.target.content.padTo position ∧
      done.1.bytesWritten = w.bytesWritten ∧ w.target.Keeps done.1.target := by
  obtain ⟨hseek, hsome, hbudget⟩ := through_ne_zero hthrough
  obtain ⟨htaken, hresult, hcontent, hkeeps⟩ :=
    Target.writeAll_of_no_burst hburst hsome hbudget position (2 * bytes.size)
  dsimp only
  rw [writeAt, if_neg hseek, Target.callsFor]
  simp only [hresult, htaken]
  exact ⟨trivial, hcontent, trivial, hkeeps⟩

theorem result_writeAt (w : Writer) (fault? : Option Fault) (position : Nat) (bytes : Bytes) :
    (w.writeAt fault? position bytes).2.result =
      (w.failure? fault? position bytes.size).elim (.ok ()) .error := by
  unfold failure?
  by_cases hnothing : w.through fault? position bytes.size ≠ 0 ∧ w.target.burst = 0
  · obtain ⟨hreport, -⟩ := writeAt_of_no_burst hnothing.2 hnothing.1
    rw [if_pos hnothing, hreport]
    rfl
  · rw [if_neg hnothing]
    exact (writeAt_wrote fun h => Nat.pos_of_ne_zero fun hburst => hnothing ⟨h, hburst⟩).result

theorem failure?_congr (hburst : w.target.burst = v.target.burst)
    (hlast : w.target.lastPosition = v.target.lastPosition) (fault? : Option Fault)
    (position len : Nat) : w.failure? fault? position len = v.failure? fault? position len := by
  have hthrough : w.through fault? position len = v.through fault? position len := by
    rw [through, through, hlast]
  have hhindrance : w.hindrance? fault? position len = v.hindrance? fault? position len := by
    rw [hindrance?, hindrance?, hlast]
  rw [failure?, failure?, hthrough, hhindrance, hburst]

theorem through_le (w : Writer) (fault? : Option Fault) (position len : Nat) :
    w.through fault? position len ≤ len := by
  unfold through
  split
  · exact Nat.zero_le len
  · exact Nat.min_le_right _ _

theorem Wrote.sum_chunks {n : Nat} {cause? : Option OsError} {done : Writer × WriteReport}
    (h : w.Wrote position bytes n cause? done) (hle : n ≤ bytes.size) : done.2.chunks.sum = n := by
  rw [WriteReport.chunks, ← size_joined, h.taken.whole, Array.size_extract]
  omega

theorem Wrote.zero_notMem_chunks {n : Nat} {cause? : Option OsError} {done : Writer × WriteReport}
    (h : w.Wrote position bytes n cause? done) : 0 ∉ done.2.chunks := by
  intro hmem
  obtain ⟨chunk, hchunk, hzero⟩ := List.mem_map.mp hmem
  have hsome := (h.taken.sizes chunk hchunk).1
  omega

/-- What a failed write leaves. -/
theorem writeAt_failed {cause : OsError}
    (hfailed : (w.writeAt fault? position bytes).2.result = .error cause) :
    w.Failed fault? position bytes (w.writeAt fault? position bytes) := by
  by_cases hnothing : w.through fault? position bytes.size ≠ 0 ∧ w.target.burst = 0
  · obtain ⟨hreport, hcontent, hwritten, hkeeps⟩ := writeAt_of_no_burst hnothing.2 hnothing.1
    obtain ⟨-, hsome, -⟩ := through_ne_zero hnothing.1
    have hchunks : (w.writeAt fault? position bytes).2.chunks = [0] := by
      rw [hreport]
      rfl
    have hempty : bytes.extract 0 [0].sum = #[] := Array.extract_zero
    refine ⟨fun htakes => absurd hnothing.2 htakes, ?_, ?_, fun _ => ⟨hsome, hnothing.2⟩, hwritten,
      hkeeps.flushes, hkeeps.lastPosition⟩
    · rw [hchunks, hempty, hreport]
      rfl
    · rw [hchunks, hempty, Content.overlay_empty, if_pos List.mem_cons_self, hcontent]
  · have h := writeAt_wrote fun h => Nat.pos_of_ne_zero fun hburst => hnothing ⟨h, hburst⟩
    have hcause : w.hindrance? fault? position bytes.size ≠ none := by
      intro hnone
      have hok := h.result
      rw [hnone, hfailed] at hok
      cases hok
    have hsum := h.sum_chunks (w.through_le fault? position bytes.size)
    have hzero := h.zero_notMem_chunks
    refine ⟨fun _ => hsum, ?_, ?_, fun hmem => absurd hmem hzero, ?_, ?_, h.lastPosition⟩
    · rw [hsum, h.taken.whole]
    · rw [hsum, if_neg hzero, h.content]
    · rw [h.bytesWritten, if_neg hcause, Nat.add_zero]
    · rw [h.flushes, if_neg hcause, Nat.add_zero]

/-- A write that succeeds wrote the whole payload. -/
theorem writeAt_succeeded (hok : (w.writeAt fault? position bytes).2.result = .ok ()) :
    w.Wrote position bytes bytes.size none (w.writeAt fault? position bytes) := by
  have hnone : w.failure? fault? position bytes.size = none := by
    rw [result_writeAt] at hok
    cases hfailure : w.failure? fault? position bytes.size with
    | none => rfl
    | some cause =>
      rw [hfailure] at hok
      cases hok
  unfold failure? at hnone
  by_cases hnothing : w.through fault? position bytes.size ≠ 0 ∧ w.target.burst = 0
  · rw [if_pos hnothing] at hnone
    cases hnone
  rw [if_neg hnothing] at hnone
  have h := writeAt_wrote fun h => Nat.pos_of_ne_zero fun hburst => hnothing ⟨h, hburst⟩
  have hall : w.through fault? position bytes.size = bytes.size := by
    unfold hindrance? at hnone
    unfold through
    split at hnone
    · cases hnone
    · rename_i hseek
      rw [if_neg hseek]
      split at hnone
      · cases hnone
      · rename_i hspent
        have hle : Target.placed (Fault.budget? fault?) bytes.size ≤ bytes.size := Nat.min_le_right _ _
        omega
  rw [hnone, hall] at h
  exact h

/-! ## Writes one after another -/

theorem Failed.overlay {done : Writer × WriteReport} (h : w.Failed fault? position bytes done) :
    done.1.target.content.overlay position bytes = w.target.content.overlay position bytes := by
  rw [h.content, Content.overlay_overlay_extract]
  split
  · rename_i hgap
    exact Content.overlay_padTo (h.gap hgap).1 _ _
  · rfl

/-- One write, with what goes wrong, and with what the target takes meanwhile. -/
structure Attempt where
  fragment : Fragment
  fault? : Option Fault
  burst : Nat
  stalls : Bool
  deriving DecidableEq, Repr

variable {a : Attempt}

/-- The writer, while its target takes so much by a call. -/
def taking (w : Writer) (burst : Nat) (stalls : Bool) : Writer :=
  { w with target := { w.target with burst, stalls } }

/-- Makes an attempt. -/
def attempt (w : Writer) (a : Attempt) : Writer × WriteReport :=
  (w.taking a.burst a.stalls).writeAt a.fault? a.fragment.position a.fragment.bytes

/-- Makes attempts one after another. -/
def tryEach (w : Writer) : List Attempt → Writer × List (Attempt × WriteReport)
  | [] => (w, [])
  | a :: rest =>
    let (w, report) := w.attempt a
    let (w, reports) := w.tryEach rest
    (w, (a, report) :: reports)

/-- The attempts of a run that succeeded. -/
def succeeded (reports : List (Attempt × WriteReport)) : List Attempt :=
  (reports.filter fun x => x.2.result.isOk).map Prod.fst

/-- Two writers that hold the same once `f` is laid, and have counted the same. -/
structure Mends (f : Fragment) (w v : Writer) : Prop where
  content : w.target.content.overlay f.position f.bytes = v.target.content.overlay f.position f.bytes
  bytesWritten : w.bytesWritten = v.bytesWritten
  flushes : w.target.flushes = v.target.flushes
  lastPosition : w.target.lastPosition = v.target.lastPosition

namespace Mends

theorem refl (f : Fragment) (w : Writer) : Mends f w w := ⟨rfl, rfl, rfl, rfl⟩

theorem of_failed (h : Mends f w v) (hfragment : a.fragment = f) {cause : OsError}
    (hfailed : (w.attempt a).2.result = .error cause) : Mends f (w.attempt a).1 v := by
  subst hfragment
  have hleft := writeAt_failed hfailed
  exact ⟨hleft.overlay.trans h.content, hleft.bytesWritten.trans h.bytesWritten,
    hleft.flushes.trans h.flushes, hleft.lastPosition.trans h.lastPosition⟩

/-- An attempt that succeeds does so in both, and counts the same. -/
structure Both (a : Attempt) (w v : Writer) : Prop where
  ok : (v.attempt a).2.result = .ok ()
  left : (w.attempt a).1.target.content =
    w.target.content.overlay a.fragment.position a.fragment.bytes
  right : (v.attempt a).1.target.content =
    v.target.content.overlay a.fragment.position a.fragment.bytes
  bytesWritten : (w.attempt a).1.bytesWritten = (v.attempt a).1.bytesWritten
  flushes : (w.attempt a).1.target.flushes = (v.attempt a).1.target.flushes
  lastPosition : (w.attempt a).1.target.lastPosition = (v.attempt a).1.target.lastPosition

theorem both (h : Mends f w v) (hok : (w.attempt a).2.result = .ok ()) : Both a w v := by
  have hvok : (v.attempt a).2.result = .ok () := by
    -- whether a write fails is not a matter of what the target holds
    have hsame := failure?_congr (w := w.taking a.burst a.stalls) (v := v.taking a.burst a.stalls) rfl
      h.lastPosition a.fault? a.fragment.position a.fragment.bytes.size
    rw [attempt, result_writeAt] at hok ⊢
    rw [← hsame, hok]
  have hall : a.fragment.bytes.extract 0 a.fragment.bytes.size = a.fragment.bytes := Array.extract_size
  have hw := writeAt_succeeded hok
  have hv := writeAt_succeeded hvok
  refine ⟨hvok, ?_, ?_, ?_, ?_, ?_⟩
  · rw [attempt, hw.content, hall]
    rfl
  · rw [attempt, hv.content, hall]
    rfl
  · exact hw.bytesWritten.trans (.trans (congrArg (· + _) h.bytesWritten) hv.bytesWritten.symm)
  · exact hw.flushes.trans (.trans (congrArg (· + _) h.flushes) hv.flushes.symm)
  · exact hw.lastPosition.trans (.trans h.lastPosition hv.lastPosition.symm)

/-- A payload written elsewhere in both makes no difference. -/
theorem of_apart (h : Mends f w v) (hapart : a.fragment.Apart f)
    (hok : (w.attempt a).2.result = .ok ()) : Mends f (w.attempt a).1 (v.attempt a).1 := by
  have hboth := h.both hok
  refine ⟨?_, hboth.bytesWritten, hboth.flushes, hboth.lastPosition⟩
  rw [hboth.left, hboth.right, Content.overlay_comm hapart, h.content, Content.overlay_comm hapart]

/-- Attempts of the payload that fail, and writes elsewhere that succeed, leave what those writes alone
would have left, but for what the payload covers. -/
theorem tryEach {attempts : List Attempt} (h : Mends f w v)
    (hfailed : ∀ x ∈ (w.tryEach attempts).2, x.2.result ≠ .ok () → x.1.fragment = f)
    (hsucceeded : ∀ x ∈ (w.tryEach attempts).2, x.2.result = .ok () → x.1.fragment.Apart f) :
    Mends f (w.tryEach attempts).1 (v.tryEach (succeeded (w.tryEach attempts).2)).1 ∧
      ∀ x ∈ (v.tryEach (succeeded (w.tryEach attempts).2)).2, x.2.result = .ok () := by
  induction attempts generalizing w v with
  | nil => exact ⟨h, fun x hx => by cases hx⟩
  | cons a rest ih =>
    have hhead : (a, (w.attempt a).2) ∈ (w.tryEach (a :: rest)).2 := List.mem_cons_self
    have htail : ∀ x ∈ ((w.attempt a).1.tryEach rest).2, x ∈ (w.tryEach (a :: rest)).2 :=
      fun x hx => List.mem_cons_of_mem _ hx
    have hreports : (w.tryEach (a :: rest)).2 =
        (a, (w.attempt a).2) :: ((w.attempt a).1.tryEach rest).2 := rfl
    cases hresult : (w.attempt a).2.result with
    | error cause =>
      have hfragment : a.fragment = f := by
        refine hfailed _ hhead ?_
        rw [hresult]
        exact fun hok => by cases hok
      have hskipped : succeeded (w.tryEach (a :: rest)).2 = succeeded ((w.attempt a).1.tryEach rest).2 := by
        rw [succeeded, hreports, List.filter_cons_of_neg]
        · rfl
        · rw [hresult]
          exact Bool.false_ne_true
      rw [hskipped]
      exact ih (h.of_failed hfragment hresult) (fun x hx => hfailed x (htail x hx))
        fun x hx => hsucceeded x (htail x hx)
    | ok u =>
      have hapart := hsucceeded _ hhead hresult
      have hkept : succeeded (w.tryEach (a :: rest)).2 =
          a :: succeeded ((w.attempt a).1.tryEach rest).2 := by
        rw [succeeded, hreports, List.filter_cons_of_pos]
        · rfl
        · rw [hresult]
          rfl
      rw [hkept]
      obtain ⟨hmends, hall⟩ := ih (h.of_apart hapart hresult) (fun x hx => hfailed x (htail x hx))
        fun x hx => hsucceeded x (htail x hx)
      refine ⟨hmends, fun x hx => ?_⟩
      rcases List.mem_cons.mp hx with rfl | hx
      · exact (h.both hresult).ok
      · exact hall x hx

end Mends

end Writer

/-- A write that fails, at whatever point, returns its failure, is not counted and not flushed, and
leaves the beginning of its payload at its position, as much as its calls took; where a call was accepted
that took nothing, the gap before the position is filled with zeros besides. And it can be mended: after
any failed attempts of a payload, and any writes elsewhere that succeeded meanwhile, an attempt of the
payload that succeeds leaves what it would have left without the failed ones. -/
theorem failed_writes_are_mended :
    (∀ (w : Writer) (fault? : Option Fault) (position : Nat) (bytes : Bytes),
      let done := w.writeAt fault? position bytes
      done.2.result = (w.failure? fault? position bytes.size).elim (.ok ()) .error ∧
      ∀ cause, done.2.result = .error cause →
        done.1.bytesWritten = w.bytesWritten ∧ done.1.target.flushes = w.target.flushes ∧
        (w.target.burst ≠ 0 → done.2.chunks.sum = w.through fault? position bytes.size) ∧
        joined done.2.taken = bytes.extract 0 done.2.chunks.sum ∧
        done.1.target.content =
          (if 0 ∈ done.2.chunks then w.target.content.padTo position else w.target.content).overlay
            position (bytes.extract 0 done.2.chunks.sum) ∧
        (0 ∈ done.2.chunks → w.target.burst = 0)) ∧
    ∀ (w : Writer) (attempts : List Writer.Attempt) (last : Writer.Attempt),
      let run := w.tryEach attempts
      (∀ x ∈ run.2, x.2.result ≠ .ok () → x.1.fragment = last.fragment) →
      (∀ x ∈ run.2, x.2.result = .ok () → x.1.fragment.Apart last.fragment) →
      (run.1.attempt last).2.result = .ok () →
      let clean := w.tryEach (Writer.succeeded run.2)
      (∀ x ∈ clean.2, x.2.result = .ok ()) ∧ (clean.1.attempt last).2.result = .ok () ∧
        (run.1.attempt last).1.target.content = (clean.1.attempt last).1.target.content ∧
        (run.1.attempt last).1.bytesWritten = (clean.1.attempt last).1.bytesWritten ∧
        (run.1.attempt last).1.target.flushes = (clean.1.attempt last).1.target.flushes := by
  constructor
  · intro w fault? position bytes done
    refine ⟨w.result_writeAt fault? position bytes, fun cause hfailed => ?_⟩
    have h := Writer.writeAt_failed hfailed
    exact ⟨h.bytesWritten, h.flushes, h.through, h.taken, h.content, fun hgap => (h.gap hgap).2⟩
  · intro w attempts last run hfailed hsucceeded hok clean
    obtain ⟨hmends, hclean⟩ :=
      (Writer.Mends.refl last.fragment w).tryEach hfailed hsucceeded
    have hboth := hmends.both hok
    refine ⟨hclean, hboth.ok, ?_, hboth.bytesWritten, hboth.flushes⟩
    rw [hboth.left, hboth.right]
    exact hmends.content

/-- Four bytes, of which two are taken before a call is refused, none at a time when the target takes
nothing, and all before the flush is refused; and one byte elsewhere. -/
def failedAttempts : List Writer.Attempt :=
  [⟨⟨3, #[1, 2, 3, 4]⟩, some (.write 2), 1, true⟩, ⟨⟨9, #[7]⟩, none, 8, false⟩,
    ⟨⟨3, #[1, 2, 3, 4]⟩, none, 0, false⟩, ⟨⟨3, #[1, 2, 3, 4]⟩, some .flush, 3, true⟩]

theorem four_bytes_are_mended :
    let w := Writer.new (Target.new 4 false)
    let last : Writer.Attempt := ⟨⟨3, #[1, 2, 3, 4]⟩, none, 2, true⟩
    let run := w.tryEach failedAttempts
    Writer.succeeded run.2 = [⟨⟨9, #[7]⟩, none, 8, false⟩] ∧
      (run.1.attempt last).1.target.content =
        ((w.tryEach [⟨⟨9, #[7]⟩, none, 8, false⟩]).1.attempt last).1.target.content := by
  intro w last run
  have hrun : run = w.tryEach failedAttempts := rfl
  have hsucceeded : Writer.succeeded run.2 = [⟨⟨9, #[7]⟩, none, 8, false⟩] := by decide
  have hfailed : ∀ x ∈ run.2, x.2.result ≠ .ok () → x.1.fragment = last.fragment := by decide
  have helsewhere : ∀ x ∈ run.2, x.2.result = .ok () → x.1.fragment = ⟨9, #[7]⟩ := by decide
  have hok : (run.1.attempt last).2.result = .ok () := by decide
  have hapart : ∀ x ∈ run.2, x.2.result = .ok () → x.1.fragment.Apart last.fragment := by
    intro x hx hok i
    rw [helsewhere x hx hok]
    simp [Fragment.covers, Fragment.stop, Fragment.len, last]
    omega
  rw [hrun] at hsucceeded hfailed hapart hok ⊢
  obtain ⟨-, -, hcontent, -⟩ :=
    failed_writes_are_mended.2 w failedAttempts last hfailed hapart hok
  rw [hsucceeded] at hcontent
  exact ⟨hsucceeded, hcontent⟩

/-- What a failed write leaves may be more than the beginning of its payload: a call that took nothing
has filled the gap before it. -/
theorem taking_nothing_fills_the_gap :
    ¬ ∀ (w : Writer) (fault? : Option Fault) (position : Nat) (bytes : Bytes) (cause : OsError),
      let done := w.writeAt fault? position bytes
      done.2.result = .error cause →
        done.1.target.content =
          w.target.content.overlay position (bytes.extract 0 done.2.chunks.sum) := by
  intro h
  have hsame := congrArg Content.size
    (h (.new (.new 0 false)) none 3 #[1] (.other "write zero") (by decide))
  revert hsame
  decide

end ResumableUpload
