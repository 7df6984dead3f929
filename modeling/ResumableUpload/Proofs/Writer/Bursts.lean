import ResumableUpload.Proofs.Fragment.Tiling
import ResumableUpload.Writer.Target

/-
  Bursts — what a positional write comes to, however the target takes it

  A target takes a payload in calls, a burst by a call at most, and may put off
  every other call. None of this is seen afterwards: the bytes it took lie where
  they belong, in one piece, as if they had been laid at once.

  What is held:
    1. `Chopped` — chunks of a full burst each, but for the last.
    2. `Target.placed` — how many bytes of a payload get through.
    3. `Target.Keeps`, `Target.Delivers` — what offers leave as it is, and what
       they come to.
    4. `Writer.writeEach` — payloads written one after another.

  What is proved:
    1. `Content.size_lay`, `byte_lay` — how long a content is, and what lies at
       an offset, once payloads were laid over it.
    2. `writeAll_delivers` — offers of a payload deliver what gets through.
    3. `writeAt_of_sound` — a write that nothing hinders.
    4. `writes_alike_in_any_bursts` — writes come to the same, whatever the
       bursts.
-/

namespace ResumableUpload

/-! ## Payloads over a content -/

instance (f : Fragment) (i : Nat) : Decidable (f.covers i) :=
  inferInstanceAs (Decidable (_ ∧ _))

/-- The byte a fragment has for an offset. -/
def Fragment.byteAt (f : Fragment) (i : Nat) : UInt8 := (f.bytes[i - f.position]?).getD 0

namespace Content

theorem size_padTo (c : Content) (n : Nat) : (c.padTo n).size = max c.size n := rfl

theorem overlay_padTo {bytes : Bytes} (hsome : bytes.size ≠ 0) (c : Content) (position : Nat) :
    (c.padTo position).overlay position bytes = c.overlay position bytes := by
  ext i
  · simp only [size_overlay, size_padTo, sizeAfter, if_neg hsome]
    omega
  · rfl

theorem size_lay (fs : List Fragment) (c : Content) :
    (c.lay fs).size = fs.foldl (fun size f => if f.len = 0 then size else max size f.stop) c.size := by
  induction fs generalizing c with
  | nil => rfl
  | cons f rest ih => exact ih (c.overlay f.position f.bytes)

/-- At an offset lies the byte of the last payload that covers it. -/
theorem byte_lay (fs : List Fragment) (c : Content) (i : Nat) :
    (c.lay fs).byte i =
      match fs.reverse.find? fun f => f.covers i with
      | some f => f.byteAt i
      | none => c.byte i := by
  -- the last payload decides, so the induction takes payloads off the end
  induction fs using List.reverseRecOn with
  | nil => rfl
  | append_singleton fs f ih =>
    rw [lay_append, List.reverse_append, List.reverse_singleton, List.singleton_append,
      List.find?_cons]
    show ((c.lay fs).overlay f.position f.bytes).byte i = _
    by_cases hcovers : f.covers i
    · rw [byte_overlay_of_covers hcovers, decide_eq_true hcovers]
      rfl
    · rw [byte_overlay_of_not_covers hcovers, ih, decide_eq_false hcovers]

end Content

/-! ## Chunks -/

/-- Chunks put together again. -/
def joined (chunks : List Bytes) : Bytes := chunks.foldr (· ++ ·) #[]

theorem size_joined (chunks : List Bytes) : (joined chunks).size = (chunks.map Array.size).sum := by
  induction chunks with
  | nil => rfl
  | cons chunk rest ih =>
    show (chunk ++ joined rest).size = _
    rw [Array.size_append, ih, List.map_cons, List.sum_cons]

/-- The chunks of `bytes`: none is empty, and all but the last are a full burst. -/
structure Chopped (burst : Nat) (bytes : Bytes) (chunks : List Bytes) : Prop where
  whole : joined chunks = bytes
  full : ∀ chunk ∈ chunks.dropLast, chunk.size = burst
  sizes : ∀ chunk ∈ chunks, 0 < chunk.size ∧ chunk.size ≤ burst

namespace Chopped

variable {burst : Nat} {bytes chunk : Bytes} {chunks : List Bytes}

theorem nil (burst : Nat) : Chopped burst #[] [] :=
  ⟨rfl, (fun _ h => by cases h), (fun _ h => by cases h)⟩

theorem eq_nil (h : Chopped burst bytes chunks) (hnone : bytes.size = 0) : chunks = [] := by
  cases chunks with
  | nil => rfl
  | cons chunk rest =>
    have hsome := (h.sizes chunk List.mem_cons_self).1
    have hsize := congrArg Array.size h.whole
    rw [size_joined, List.map_cons, List.sum_cons] at hsize
    omega

theorem cons (h : Chopped burst bytes chunks) (hsome : 0 < chunk.size) (hle : chunk.size ≤ burst)
    (hfull : bytes.size ≠ 0 → chunk.size = burst) : Chopped burst (chunk ++ bytes) (chunk :: chunks) where
  whole := congrArg (chunk ++ ·) h.whole
  full := by
    intro x hx
    cases chunks with
    | nil => cases hx
    | cons next rest =>
      rw [List.dropLast_cons_of_ne_nil (List.cons_ne_nil next rest)] at hx
      rcases List.mem_cons.mp hx with rfl | hx
      · exact hfull fun hnone => List.cons_ne_nil next rest (h.eq_nil hnone)
      · exact h.full x hx
  sizes := by
    intro x hx
    rcases List.mem_cons.mp hx with rfl | hx
    · exact ⟨hsome, hle⟩
    · exact h.sizes x hx

end Chopped

/-! ## Offers -/

namespace Target

variable {t t' : Target} {budget? : Option Nat} {cursor calls : Nat} {bytes : Bytes}

/-- How many of `len` bytes get through. -/
def placed (budget? : Option Nat) (len : Nat) : Nat := min (budget?.getD len) len

theorem placed_none (len : Nat) : placed none len = len := Nat.min_self len

/-- The same target, but for what it holds and whether it is busy. -/
structure Keeps (t t' : Target) : Prop where
  burst : t'.burst = t.burst
  stalls : t'.stalls = t.stalls
  lastPosition : t'.lastPosition = t.lastPosition
  flushes : t'.flushes = t.flushes

theorem Keeps.refl (t : Target) : t.Keeps t := ⟨rfl, rfl, rfl, rfl⟩

theorem Keeps.trans {a b c : Target} (hab : a.Keeps b) (hbc : b.Keeps c) : a.Keeps c :=
  ⟨hbc.burst.trans hab.burst, hbc.stalls.trans hab.stalls, hbc.lastPosition.trans hab.lastPosition,
    hbc.flushes.trans hab.flushes⟩

theorem offer_of_busy (hbusy : t.busy = true) :
    t.offer budget? cursor bytes = ({ t with busy := false }, .later) := by
  rw [offer, if_pos hbusy]

theorem offer_of_spent (hfree : t.busy = false) :
    t.offer (some 0) cursor bytes = (t, .refused (.other "device full")) := by
  rw [offer, hfree, if_neg Bool.false_ne_true, if_pos rfl]

theorem offer_of_free (hfree : t.busy = false) (hbudget : budget? ≠ some 0) :
    t.offer budget? cursor bytes =
      ({ t with
          content := (t.content.padTo cursor).overlay cursor
            (bytes.extract 0 (min (min t.burst bytes.size) (budget?.getD bytes.size)))
          busy := t.stalls },
        .accepted (min (min t.burst bytes.size) (budget?.getD bytes.size))) := by
  rw [offer, hfree, if_neg Bool.false_ne_true, if_neg hbudget]

/-- What gets through of a payload lies at the cursor, taken in chunks; what does not is refused. -/
structure Delivers (t : Target) (budget? : Option Nat) (cursor : Nat) (bytes : Bytes)
    (p : Progress) : Prop where
  keeps : t.Keeps p.target
  content : p.target.content =
    t.content.overlay cursor (bytes.extract 0 (placed budget? bytes.size))
  taken : Chopped t.burst (bytes.extract 0 (placed budget? bytes.size)) p.taken
  result : p.result =
    if placed budget? bytes.size < bytes.size then .error (.other "device full") else .ok ()

theorem delivers_none {result : Except OsError Unit} (hnone : placed budget? bytes.size = 0)
    (hresult : result = if 0 < bytes.size then .error (.other "device full") else .ok ()) :
    t.Delivers budget? cursor bytes ⟨t, [], result⟩ := by
  have hempty : bytes.extract 0 (placed budget? bytes.size) = #[] := by
    rw [hnone]
    exact Array.extract_zero
  refine ⟨.refl t, ?_, ?_, ?_⟩
  · rw [hempty, Content.overlay_empty]
  · rw [hempty]
    exact .nil t.burst
  · rw [hnone]
    exact hresult

/-- A chunk, and then what is delivered behind it. -/
theorem Delivers.after {n : Nat} {p : Progress} (hn : n = min (min t.burst bytes.size) (budget?.getD bytes.size))
    (hsome : 0 < n)
    (h : Delivers { t with
        content := (t.content.padTo cursor).overlay cursor (bytes.extract 0 n)
        busy := t.stalls } (budget?.map (· - n)) (cursor + n) (bytes.extract n bytes.size) p) :
    t.Delivers budget? cursor bytes (p.after (bytes.extract 0 n)) := by
  have hsize : (bytes.extract 0 n).size = n := by
    rw [Array.size_extract]
    omega
  have hrest : (bytes.extract n bytes.size).size = bytes.size - n := by
    rw [Array.size_extract, Nat.min_self]
  have hplaced : placed budget? bytes.size =
      n + placed (budget?.map (· - n)) (bytes.extract n bytes.size).size := by
    rw [hrest]
    cases budget? <;> simp only [placed, Option.getD_none, Option.getD_some, Option.map_none,
      Option.map_some] at hn ⊢ <;> omega
  have hjoin : bytes.extract 0 n ++ (bytes.extract n bytes.size).extract 0
        (placed (budget?.map (· - n)) (bytes.extract n bytes.size).size) =
      bytes.extract 0 (placed budget? bytes.size) := by
    rw [hplaced, Array.extract_extract, Nat.add_zero, Array.extract_append_extract]
    have hle : placed (budget?.map (· - n)) (bytes.extract n bytes.size).size ≤ bytes.size - n := by
      rw [hrest]
      exact Nat.min_le_right _ _
    congr 1
    omega
  refine ⟨⟨h.keeps.burst, h.keeps.stalls, h.keeps.lastPosition, h.keeps.flushes⟩, ?_, ?_, ?_⟩
  · have hcontent := h.content
    have hlaid := Content.overlay_append (t.content.padTo cursor) cursor (bytes.extract 0 n)
      ((bytes.extract n bytes.size).extract 0
        (placed (budget?.map (· - n)) (bytes.extract n bytes.size).size))
    rw [hsize, hjoin] at hlaid
    rw [hlaid, Content.overlay_padTo] at hcontent
    · exact hcontent
    · rw [Array.size_extract]
      omega
  · rw [← hjoin]
    refine h.taken.cons (by omega) (by rw [hsize]; show n ≤ t.burst; omega) fun hmore => ?_
    -- a chunk short of a burst is the end of what gets through
    rw [Array.size_extract] at hmore
    rw [hsize]
    show n = t.burst
    cases budget? <;> simp only [placed, Option.getD_none, Option.getD_some, Option.map_none,
      Option.map_some] at hn hmore <;> omega
  · show p.result = _
    rw [h.result, hplaced, hrest]
    congr 1
    rw [eq_iff_iff]
    omega

/-- Offers of a payload deliver what gets through of it: each call takes some, or the one after it
does. -/
theorem writeAll_delivers (hburst : placed budget? bytes.size ≠ 0 → 0 < t.burst)
    (hcalls : 2 * bytes.size + t.busy.toNat < calls) :
    t.Delivers budget? cursor bytes (t.writeAll calls budget? cursor bytes) := by
  induction calls generalizing t budget? cursor bytes with
  | zero => omega
  | succ calls ih =>
    rw [writeAll]
    by_cases hnone : bytes.size = 0
    · rw [if_pos hnone]
      refine delivers_none ?_ ?_
      · rw [hnone]
        exact Nat.min_zero _
      · rw [hnone]
        rfl
    rw [if_neg hnone]
    cases hbusy : t.busy with
    | true =>
      rw [offer_of_busy hbusy]
      have hrest : Delivers { t with busy := false } budget? cursor bytes
          (writeAll calls { t with busy := false } budget? cursor bytes) := by
        refine ih (show placed budget? bytes.size ≠ 0 → 0 < { t with busy := false }.burst from hburst) ?_
        rw [hbusy, Bool.toNat_true] at hcalls
        show 2 * bytes.size + 0 < calls
        omega
      exact ⟨⟨hrest.keeps.burst, hrest.keeps.stalls, hrest.keeps.lastPosition, hrest.keeps.flushes⟩,
        hrest.content, hrest.taken, hrest.result⟩
    | false =>
      by_cases hspent : budget? = some 0
      · rw [hspent, offer_of_spent hbusy]
        refine delivers_none (Nat.zero_min _) ?_
        rw [if_pos (Nat.pos_of_ne_zero hnone)]
      rw [offer_of_free hbusy hspent]
      have hroom : 0 < budget?.getD bytes.size := by
        cases budget? with
        | none => exact Nat.pos_of_ne_zero hnone
        | some room => exact Nat.pos_of_ne_zero fun h => hspent (congrArg some h)
      have htakes : 0 < t.burst := hburst (by rw [placed]; omega)
      obtain ⟨n, hn⟩ : ∃ n, min (min t.burst bytes.size) (budget?.getD bytes.size) = n + 1 :=
        Nat.exists_eq_succ_of_ne_zero (by omega)
      rw [hn]
      refine Delivers.after hn.symm (Nat.succ_pos n) (ih (fun _ => htakes) ?_)
      have hstalls : t.stalls.toNat ≤ 1 := Bool.toNat_le t.stalls
      rw [Array.size_extract, Nat.min_self]
      show 2 * (bytes.size - (n + 1)) + t.stalls.toNat < calls
      omega

end Target

/-! ## Writes -/

namespace Writer

variable {w : Writer} {fault? : Option Fault} {position : Nat} {bytes : Bytes}

/-- What a write comes to of which so many bytes get through: it fails for the cause, or it is counted
and flushed. -/
structure Wrote (w : Writer) (position : Nat) (bytes : Bytes) (through : Nat)
    (cause? : Option OsError) (done : Writer × WriteReport) : Prop where
  result : done.2.result = cause?.elim (.ok ()) .error
  taken : Chopped w.target.burst (bytes.extract 0 through) done.2.taken
  content : done.1.target.content = w.target.content.overlay position (bytes.extract 0 through)
  bytesWritten : done.1.bytesWritten = w.bytesWritten + if cause? = none then bytes.size else 0
  flushes : done.1.target.flushes = w.target.flushes + if cause? = none then 1 else 0
  burst : done.1.target.burst = w.target.burst
  lastPosition : done.1.target.lastPosition = w.target.lastPosition

/-- Why a write fails, if it does, where calls take bytes. -/
def hindrance? (w : Writer) (fault? : Option Fault) (position len : Nat) : Option OsError :=
  if fault? = some .seek ∨ w.target.lastPosition < position then some (.other "seek refused")
  else if Target.placed (Fault.budget? fault?) len < len then some (.other "device full")
  else if fault? = some .flush then some (.other "flush refused")
  else none

/-- How many bytes of a write get through, where calls take bytes. -/
def through (w : Writer) (fault? : Option Fault) (position len : Nat) : Nat :=
  if fault? = some .seek ∨ w.target.lastPosition < position then 0
  else Target.placed (Fault.budget? fault?) len

/-- A write comes to what gets through of it. -/
theorem writeAt_wrote (hburst : w.through fault? position bytes.size ≠ 0 → 0 < w.target.burst) :
    w.Wrote position bytes (w.through fault? position bytes.size)
      (w.hindrance? fault? position bytes.size) (w.writeAt fault? position bytes) := by
  unfold through at hburst
  unfold writeAt hindrance? through
  by_cases hseek : fault? = some .seek ∨ w.target.lastPosition < position
  · have hnone : bytes.extract 0 0 = #[] := Array.extract_zero
    simp only [if_pos hseek]
    refine ⟨rfl, ?_, ?_, rfl, rfl, rfl, rfl⟩
    · rw [hnone]
      exact .nil _
    · rw [hnone, Content.overlay_empty]
  rw [if_neg hseek] at hburst
  simp only [if_neg hseek]
  have hcalls : 2 * bytes.size + w.target.busy.toNat < Target.callsFor bytes := by
    have hbusy : w.target.busy.toNat ≤ 1 := Bool.toNat_le _
    rw [Target.callsFor]
    omega
  have h : w.target.Delivers (Fault.budget? fault?) position bytes
      (w.target.writeAll (Target.callsFor bytes) (Fault.budget? fault?) position bytes) :=
    Target.writeAll_delivers hburst hcalls
  have hresult := h.result
  by_cases hspent : Target.placed (Fault.budget? fault?) bytes.size < bytes.size
  · rw [if_pos hspent] at hresult
    simp only [hresult, if_pos hspent]
    exact ⟨rfl, h.taken, h.content, rfl, h.keeps.flushes, h.keeps.burst, h.keeps.lastPosition⟩
  · rw [if_neg hspent] at hresult
    simp only [hresult, if_neg hspent]
    by_cases hflush : fault? = some .flush
    · simp only [if_pos hflush]
      exact ⟨rfl, h.taken, h.content, rfl, h.keeps.flushes, h.keeps.burst, h.keeps.lastPosition⟩
    · simp only [if_neg hflush]
      exact ⟨rfl, h.taken, h.content, rfl, congrArg (· + 1) h.keeps.flushes, h.keeps.burst,
        h.keeps.lastPosition⟩

/-- A write that nothing hinders gets through as a whole. -/
theorem writeAt_of_sound (hburst : 0 < w.target.burst) {f : Fragment}
    (hposition : f.position ≤ w.target.lastPosition) :
    w.Wrote f.position f.bytes f.len none (w.writeAt none f.position f.bytes) := by
  have h := writeAt_wrote fun _ : w.through none f.position f.bytes.size ≠ 0 => hburst
  have hseek : ¬ (none = some Fault.seek ∨ w.target.lastPosition < f.position) := by
    rintro (hfault | hbeyond)
    · cases hfault
    · omega
  have hall : Target.placed (Fault.budget? none) f.bytes.size = f.bytes.size := Target.placed_none _
  rw [through, hindrance?, if_neg hseek, if_neg hseek, hall, if_neg (Nat.lt_irrefl _),
    if_neg (by simp)] at h
  exact h

/-- Writes payloads one after another. -/
def writeEach (w : Writer) : List Fragment → Writer × List WriteReport
  | [] => (w, [])
  | f :: rest =>
    let (w, report) := w.writeAt none f.position f.bytes
    let (w, reports) := w.writeEach rest
    (w, report :: reports)

/-- What the writes of payloads come to that nothing hinders. -/
structure WroteEach (w : Writer) (fs : List Fragment) (done : Writer × List WriteReport) : Prop where
  reports : List.Forall₂
    (fun f report => report.result = .ok () ∧ Chopped w.target.burst f.bytes report.taken) fs done.2
  content : done.1.target.content = w.target.content.lay fs
  bytesWritten : done.1.bytesWritten = w.bytesWritten + totalLen fs
  flushes : done.1.target.flushes = w.target.flushes + fs.length

theorem writeEach_wrote {fs : List Fragment} (hburst : 0 < w.target.burst)
    (hpositions : ∀ f ∈ fs, f.position ≤ w.target.lastPosition) : w.WroteEach fs (w.writeEach fs) := by
  induction fs generalizing w with
  | nil => exact ⟨.nil, rfl, rfl, rfl⟩
  | cons f rest ih =>
    have h := writeAt_of_sound hburst (hpositions f List.mem_cons_self)
    have hrest := ih (w := (w.writeAt none f.position f.bytes).1) (by rw [h.burst]; exact hburst)
      fun g hg => by rw [h.lastPosition]; exact hpositions g (List.mem_cons_of_mem f hg)
    have hall : f.bytes.extract 0 f.len = f.bytes := Array.extract_size
    have htaken := h.taken
    have hcontent := h.content
    rw [hall] at htaken hcontent
    refine ⟨.cons ⟨h.result, htaken⟩ ?_, ?_, ?_, ?_⟩
    · have hreports := hrest.reports
      rw [h.burst] at hreports
      exact hreports
    · refine hrest.content.trans ?_
      rw [hcontent]
      rfl
    · refine hrest.bytesWritten.trans ?_
      rw [h.bytesWritten, Nat.add_assoc]
      rfl
    · refine hrest.flushes.trans ?_
      rw [h.flushes, List.length_cons]
      show w.target.flushes + 1 + rest.length = _
      omega

end Writer

/-- Writes come to the same in any bursts, and whether the target stalls or not: all succeed, the
payloads lie over what the target held, in their order, all their bytes are counted, each call flushes
once, and each payload is taken in chunks of a full burst, but for its last. A payload lengthens the
target up to its end, and one without bytes does not; the last payload that covers an offset decides what
lies there, and where none does, all is as it was. -/
theorem writes_alike_in_any_bursts (t : Target) (fs : List Fragment)
    (hpositions : ∀ f ∈ fs, f.position ≤ t.lastPosition) :
    (∀ burst stalls, 0 < burst →
      let done := (Writer.new { t with burst, stalls }).writeEach fs
      List.Forall₂ (fun f report => report.result = .ok () ∧ joined report.taken = f.bytes ∧
        (∀ chunk ∈ report.taken.dropLast, chunk.size = burst) ∧
        ∀ chunk ∈ report.taken, 0 < chunk.size ∧ chunk.size ≤ burst) fs done.2 ∧
      done.1.target.content = t.content.lay fs ∧
      done.1.bytesWritten = totalLen fs ∧
      done.1.target.flushes = t.flushes + fs.length) ∧
    (∀ burst burst' stalls stalls', 0 < burst → 0 < burst' →
      ((Writer.new { t with burst, stalls }).writeEach fs).1.target.content =
        ((Writer.new { t with burst := burst', stalls := stalls' }).writeEach fs).1.target.content) ∧
    (t.content.lay fs).size =
      fs.foldl (fun size f => if f.len = 0 then size else max size f.stop) t.content.size ∧
    ∀ i, (t.content.lay fs).byte i =
      match fs.reverse.find? fun f => f.covers i with
      | some f => f.byteAt i
      | none => t.content.byte i := by
  have hwrote : ∀ burst stalls, 0 < burst → (Writer.new { t with burst, stalls }).WroteEach fs
      ((Writer.new { t with burst, stalls }).writeEach fs) := fun burst stalls hburst =>
    Writer.writeEach_wrote hburst hpositions
  refine ⟨?_, ?_, Content.size_lay fs t.content, Content.byte_lay fs t.content⟩
  · intro burst stalls hburst done
    have h := hwrote burst stalls hburst
    refine ⟨h.reports.imp ?_, h.content, h.bytesWritten.trans (Nat.zero_add _), h.flushes⟩
    rintro f report ⟨hresult, htaken⟩
    exact ⟨hresult, htaken.whole, htaken.full, htaken.sizes⟩
  · intro burst burst' stalls stalls' hburst hburst'
    rw [(hwrote burst stalls hburst).content, (hwrote burst' stalls' hburst').content]
    rfl

/-- Eight bytes behind a gap, and four into the gap. -/
def twoPayloads : List Fragment := [⟨4, #[1, 2, 3, 4, 5, 6, 7, 8]⟩, ⟨0, #[9, 9, 9, 9]⟩]

theorem two_payloads_in_bursts_of_three :
    (∀ f ∈ twoPayloads, f.position ≤ (Target.new 3 true).lastPosition) ∧
    ((Writer.new (Target.new 3 true)).writeEach twoPayloads).1.target.content =
      Content.empty.lay twoPayloads ∧
    ((Writer.new (Target.new 3 true)).writeEach twoPayloads).1.bytesWritten = 12 := by
  have hpositions : ∀ f ∈ twoPayloads, f.position ≤ (Target.new 3 true).lastPosition := by decide
  obtain ⟨hall, -⟩ := writes_alike_in_any_bursts (Target.new 3 true) twoPayloads hpositions
  obtain ⟨-, hcontent, hwritten, -⟩ := hall 3 true (by decide)
  exact ⟨hpositions, hcontent, hwritten⟩

end ResumableUpload
