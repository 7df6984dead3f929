import ResumableUpload.Proofs.Disk.Delivering
import ResumableUpload.Proofs.Path.Resolution
import ResumableUpload.Quota

/-
  Asking — what an operation asks of the disk

  An operation on a path knows the disk by asking only: it names a path, the
  disk answers, and what is asked next hangs on the answers alone. `Asks` holds
  of an operation whose questions may all be asked, whatever the answers are,
  so also where the disk fails or other programs change it. Bytes are written
  through files that are open, and the path a file was opened by counts as
  named again with each write.

  What is held:
    1. `Disk.Request`, `Answer`, `carryOut` — the questions, and the disk's part.
    2. `Disk.Asks` — an operation with the questions it may ask and the files it
       has open; `bind`, `mono` and `grown` compose them.
    3. `Storage.Names` — the questions that name only the location of a path:
       the location itself, or for a directory the way to it.
    4. `Storage.Holds` — a file opened at the location of a path.

  What is proved:
    1. `eq_of_none_may` — who may ask nothing neither changes nor reads the disk.
    2. `asks_makeWay`, `asks_openFile`, `asks_delete`, `asks_hasFile`,
       `asks_fileSize` — the operations of a storage.
    3. `asks_advance`, `asks_finish` — the operations of a delivery.
-/

namespace ResumableUpload

namespace Disk

/-- A question to the disk. -/
inductive Request where
  | makeDirectory (p : OsPath)
  | isDirectory (p : OsPath)
  | isFile (p : OsPath)
  | sizeOf (p : OsPath)
  | openForWriting (p : OsPath)
  | remove (p : OsPath)
  /-- Bytes go to a file that was opened by the path. -/
  | write (p : OsPath) (file : OpenFile) (position : Nat) (bytes : Bytes)
  /-- The figure of a quota, who looks at what it will. -/
  | figure (quota : Quota)

namespace Request

/-- What is answered to a question. -/
def Answer : Request → Type
  | makeDirectory _ => Except OsError Unit
  | isDirectory _ => Bool
  | isFile _ => Bool
  | sizeOf _ => Except OsError Nat
  | openForWriting _ => Except OsError OpenFile
  | remove _ => Except OsError Unit
  | write _ _ _ _ => Unit
  | figure _ => Except Error Nat

/-- What becomes of a disk that may refuse a change. -/
def attempt (d : Disk) : Except OsError Disk → Disk × Except OsError Unit
  | .ok d => (d, .ok ())
  | .error cause => (d, .error cause)

/-- The disk's part. -/
def carryOut (d : Disk) : (r : Request) → Disk × r.Answer
  | makeDirectory p => attempt d (d.makeDirectory p)
  | isDirectory p => (d, d.isDirectory p)
  | isFile p => (d, d.isFile p)
  | sizeOf p => (d, d.sizeOf p)
  | openForWriting p =>
    match d.openForWriting p with
    | .ok (d, file) => (d, .ok file)
    | .error cause => (d, .error cause)
  | remove p => attempt d (d.remove p)
  | write _ file position bytes => (d.place file position bytes, ())
  | figure quota => (d, quota.usedBytes d)

end Request

/-- The files that are open, each with the path it was opened by. -/
abbrev Held := List (OsPath × OpenFile)

/-- Bytes go through files that are open; all else goes by a path. -/
def Request.Through (held : Held) : Request → Prop
  | write p file _ _ => (p, file) ∈ held
  | _ => True

/-- The file that a question opened. -/
def Request.opened : (r : Request) → r.Answer → Held
  | openForWriting p, .ok file => [(p, file)]
  | _, _ => []

/-- What is made of a failure, or of a result. -/
def either {ε α β : Type} (failed : ε → β) (done : α → β) : Except ε α → β
  | .error e => failed e
  | .ok a => done a

/-- Goes on where an operation succeeded, and ends where it failed. -/
def andThen {ε α β : Type} (x : Disk × Except ε α) (k : α → Disk → Disk × Except ε β) :
    Disk × Except ε β :=
  match x with
  | (d, .ok a) => k a d
  | (d, .error e) => (d, .error e)

/-- The operation asks what it may, whatever is answered, and ends as it should with the files that
are open then. -/
inductive Asks {α : Type} (may : Request → Prop) (ends : Held → α → Prop) :
    Held → (Disk → Disk × α) → Prop where
  /-- All has been asked. -/
  | answer {held : Held} {a : α} : ends held a → Asks may ends held fun d => (d, a)
  /-- One question, and what is made of its answer. -/
  | ask {held : Held} (r : Request) {k : r.Answer → Disk → Disk × α} : may r → r.Through held →
      (∀ a, Asks may ends (r.opened a ++ held) (k a)) →
      Asks may ends held fun d => k (r.carryOut d).2 (r.carryOut d).1

namespace Asks

variable {α β : Type} {may may' : Request → Prop} {ends : Held → α → Prop} {held : Held}
  {op op' : Disk → Disk × α}

theorem congr (h : Asks may ends held op') (heq : ∀ d, op d = op' d) : Asks may ends held op := by
  rw [funext heq]
  exact h

theorem mono {ends' : Held → α → Prop} (h : Asks may ends held op) (hmay : ∀ r, may r → may' r)
    (hends : ∀ held a, ends held a → ends' held a) : Asks may' ends' held op := by
  induction h with
  | answer ha => exact .answer (hends _ _ ha)
  | ask r hr hthrough _ ih => exact .ask r (hmay r hr) hthrough ih

/-- What is asked next may hang on what the first operation came to. -/
theorem bind {ends' : Held → β → Prop} {k : α → Disk → Disk × β} (h : Asks may ends held op)
    (hk : ∀ held a, ends held a → Asks may ends' held (k a)) :
    Asks may ends' held fun d => k (op d).2 (op d).1 := by
  induction h with
  | answer ha => exact hk _ _ ha
  | ask r hr hthrough _ ih => exact .ask r hr hthrough ih

/-- Files that were open stay so. -/
theorem grown (h : Asks may ends held op) :
    Asks may (fun held' a => held ⊆ held' ∧ ends held' a) held op := by
  induction h with
  | answer ha => exact .answer ⟨List.Subset.refl _, ha⟩
  | @ask held r k hr hthrough _ ih =>
    refine .ask r hr hthrough fun a => (ih a).mono (fun _ h => h) fun held' b hb => ⟨?_, hb.2⟩
    exact List.Subset.trans (List.subset_append_right _ _) hb.1

theorem andThen {ε : Type} {ends : Held → Except ε α → Prop} {ends' : Held → Except ε β → Prop}
    {op : Disk → Disk × Except ε α} {k : α → Disk → Disk × Except ε β} (h : Asks may ends held op)
    (hok : ∀ held a, ends held (.ok a) → Asks may ends' held (k a))
    (herror : ∀ held e, ends held (.error e) → ends' held (.error e)) :
    Asks may ends' held fun d => Disk.andThen (op d) k := by
  refine (h.bind (k := fun result d => Disk.andThen (d, result) k) fun held result hend => ?_).congr
    fun d => rfl
  cases result with
  | ok a => exact hok held a hend
  | error e => exact .answer (herror held e hend)

/-- Who may ask nothing neither changes the disk nor reads it. -/
theorem eq_of_none_may (h : Asks may ends held op) (hnone : ∀ r, ¬ may r) :
    ∃ a, ends held a ∧ ∀ d, op d = (d, a) := by
  cases h with
  | answer ha => exact ⟨_, ha, fun _ => rfl⟩
  | ask r hr => exact absurd hr (hnone r)

end Asks

/-! ## Directories -/

/-- To make or to look at one of some directories. -/
def Request.OfDirectory (ps : List OsPath) : Request → Prop
  | makeDirectory p => p ∈ ps
  | isDirectory p => p ∈ ps
  | _ => False

variable {held : Held} {ps : List OsPath} {p : OsPath}

theorem asks_unlessThere (hp : p ∈ ps) (cause : OsError) :
    Asks (Request.OfDirectory ps) (fun _ _ => True) held fun d => d.unlessThere p cause := by
  refine Asks.congr (.ask (.isDirectory p) (k := fun (there : Bool) d =>
    if there then (d, .ok ()) else (d, .error cause)) hp trivial fun there => ?_) fun d => rfl
  cases there <;> exact .answer trivial

/-- Makes a directory, unless it is there. -/
def makeMissing (d : Disk) (p : OsPath) : Disk × Except OsError Unit :=
  match d.makeDirectory p with
  | .ok d => (d, .ok ())
  | .error cause => d.unlessThere p cause

theorem asks_makeMissing (hp : p ∈ ps) :
    Asks (Request.OfDirectory ps) (fun _ _ => True) held fun d => d.makeMissing p := by
  refine Asks.congr (.ask (.makeDirectory p) (k := fun (made : Except OsError Unit) d =>
    either (d.unlessThere p) (fun _ => (d, .ok ())) made) hp trivial fun made => ?_) fun d => ?_
  · cases made with
    | ok u => exact .answer trivial
    | error cause => exact asks_unlessThere hp cause
  · simp only [makeMissing, Request.carryOut]
    cases d.makeDirectory p <;> rfl

/-- To make directories one in another is to make and to look at these. -/
theorem asks_makeAll {qs : List OsPath} (hqs : qs ⊆ ps) :
    Asks (Request.OfDirectory ps) (fun _ _ => True) held fun d => d.makeAll qs := by
  induction qs generalizing held with
  | nil => exact .answer trivial
  | cons p rest ih =>
    obtain ⟨hp, hrest⟩ := List.cons_subset.mp hqs
    refine Asks.congr (.ask (.makeDirectory p) (k := fun (made : Except OsError Unit) d =>
      either (fun cause =>
        if cause = .notFound then andThen (d.makeAll rest) fun _ d => d.makeMissing p
        else d.unlessThere p cause) (fun _ => (d, .ok ())) made) hp trivial fun made => ?_) fun d => ?_
    · cases made with
      | ok u => exact .answer trivial
      | error cause =>
        by_cases hmissing : cause = .notFound
        · simp only [either, hmissing, if_true]
          exact (ih hrest).andThen (fun _ _ _ => asks_makeMissing hp) fun _ _ _ => trivial
        · simp only [either, hmissing, if_false]
          exact asks_unlessThere hp cause
    · simp only [makeAll, Request.carryOut]
      rcases d.makeDirectory p with cause | d'
      · by_cases hmissing : cause = .notFound
        · subst hmissing
          simp only [Request.attempt, either, if_true]
          rcases d.makeAll rest with ⟨d', _ | _⟩ <;> rfl
        · cases cause <;> first | exact absurd rfl hmissing | rfl
      · rfl

end Disk

/-- The path leads through `q`. -/
def OsPath.LeadsThrough (p q : OsPath) : Prop := ∃ rest, rest ≠ [] ∧ p.pieces = q.pieces ++ rest

theorem OsPath.leading_prefix (pieces : List String) : leading pieces <+: pieces := by
  rw [← List.reverse_suffix, leading, List.reverse_reverse]
  exact List.dropWhile_suffix _

theorem OsPath.leadsThrough_of_above {p q : OsPath} (h : q ∈ p.above) : p.LeadsThrough q := by
  unfold above at h
  obtain ⟨n, hn, rfl⟩ := List.mem_map.mp h
  have hlt : n < (leading p.pieces).length - 1 :=
    List.mem_range.mp (List.mem_reverse.mp (List.mem_filter.mp hn).1)
  obtain ⟨rest, hrest⟩ := leading_prefix p.pieces
  refine ⟨(leading p.pieces).drop (n + 1) ++ rest, ?_, ?_⟩
  · intro hnil
    have hdrop := (List.append_eq_nil_iff.mp hnil).1
    rw [List.drop_eq_nil_iff] at hdrop
    omega
  · show p.pieces = (leading p.pieces).take (n + 1) ++ _
    rw [← List.append_assoc, List.take_append_drop, hrest]

namespace Storage

open Disk

/-- The question names only the location of a storage path: directories may be made on the way to
it, and all else is asked of the location itself. -/
def Names (s : Storage) (path : String) : Request → Prop
  | .makeDirectory q => ∃ p, s.location path = .ok p ∧ p.LeadsThrough q
  | .isDirectory q => ∃ p, s.location path = .ok p ∧ p.LeadsThrough q
  | .isFile p => s.location path = .ok p
  | .sizeOf p => s.location path = .ok p
  | .openForWriting p => s.location path = .ok p
  | .remove p => s.location path = .ok p
  | .write p _ _ _ => s.location path = .ok p
  | .figure _ => False

/-- The file was opened at the location of the path. -/
def Holds (s : Storage) (path : String) (held : Held) (file : OpenFile) : Prop :=
  ∃ p, s.location path = .ok p ∧ (p, file) ∈ held

variable {s : Storage} {path : String} {held held' : Held}

theorem Holds.mono {file : OpenFile} (h : s.Holds path held file) (hsub : held ⊆ held') :
    s.Holds path held' file := by
  obtain ⟨p, hp, hmem⟩ := h
  exact ⟨p, hp, hsub hmem⟩

theorem not_names_of_refused {e : Error} (h : resolve path = .error e) (r : Request) :
    ¬ s.Names path r := by
  have hnone : ∀ p, s.location path ≠ .ok p := by simp [location, h, Except.map]
  cases r <;> simp [Names, hnone]

theorem asks_makeWay (s : Storage) (path : String) (held : Held) :
    Asks (s.Names path) (fun _ _ => True) held fun d => s.makeWay d path := by
  cases hpath : resolve path with
  | error e =>
    exact Asks.congr (.answer trivial) fun d => by rw [makeWay, hpath]
  | ok names =>
    have hlocation := location_of_resolve (s := s) hpath
    have hway : ∀ r, Request.OfDirectory (s.filePath names).above r → s.Names path r := by
      intro r hr
      cases r <;> first
        | exact ⟨_, hlocation, OsPath.leadsThrough_of_above hr⟩
        | cases hr
    have hmake : Asks (s.Names path) (fun _ _ => True) held fun d =>
        d.makeAll (s.filePath names).above :=
      (asks_makeAll (List.Subset.refl _)).mono hway fun _ _ h => h
    refine (hmake.bind (k := fun made d => (d, made.mapError .io)) fun _ _ _ =>
      .answer trivial).congr fun d => ?_
    simp only [makeWay, hpath, makeParents]
    rcases d.makeAll (s.filePath names).above with ⟨d', _ | _⟩ <;> rfl

theorem asks_openFile (s : Storage) (path : String) (held : Held) :
    Asks (s.Names path) (fun held result => ∀ file, result = .ok file → s.Holds path held file) held
      fun d => s.openFile d path := by
  cases hpath : resolve path with
  | error e =>
    refine Asks.congr (.answer (a := .error e) fun file h => ?_) fun d => by rw [openFile, hpath]
    cases h
  | ok names =>
    have hlocation := location_of_resolve (s := s) hpath
    refine Asks.congr (.ask (.openForWriting (s.filePath names))
      (k := fun (opened : Except OsError OpenFile) d => (d, opened.mapError .io)) hlocation trivial
      fun opened => .answer fun file h => ?_) fun d => ?_
    · cases opened with
      | error cause => cases h
      | ok opened =>
        cases h
        exact ⟨_, hlocation, List.mem_cons_self⟩
    · simp only [openFile, hpath, Request.carryOut]
      rcases d.openForWriting (s.filePath names) with _ | ⟨_, _⟩ <;> rfl

theorem asks_openForWrite (s : Storage) (path : String) (held : Held) :
    Asks (s.Names path) (fun held result => ∀ file, result = .ok file → s.Holds path held file) held
      fun d => s.openForWrite d path := by
  refine ((asks_makeWay s path held).andThen (k := fun _ d => s.openFile d path)
    (fun held _ _ => asks_openFile s path held) fun held e _ file h => ?_).congr fun d => ?_
  · cases h
  · simp only [openForWrite, Disk.andThen]
    rcases s.makeWay d path with ⟨d', _ | _⟩ <;> rfl

theorem asks_delete (s : Storage) (path : String) (held : Held) :
    Asks (s.Names path) (fun _ _ => True) held fun d => s.delete d path := by
  cases hpath : resolve path with
  | error e => exact Asks.congr (.answer trivial) fun d => by rw [delete, hpath]
  | ok names =>
    refine Asks.congr (.ask (.remove (s.filePath names))
      (k := fun (removed : Except OsError Unit) d => (d,
        either (fun cause => if cause = .notFound then .ok false else .error (.io cause))
          (fun _ => .ok true) removed))
      (location_of_resolve hpath) trivial fun removed => .answer trivial) fun d => ?_
    · simp only [delete, hpath, Request.carryOut]
      rcases d.remove (s.filePath names) with cause | d'
      · cases cause <;> rfl
      · rfl

theorem asks_hasFile (s : Storage) (path : String) (held : Held) :
    Asks (s.Names path) (fun _ _ => True) held fun d => (d, s.hasFile d path) := by
  cases hpath : resolve path with
  | error e =>
    exact Asks.congr (.answer (a := false) trivial) fun d => by rw [hasFile, hpath]
  | ok names =>
    refine Asks.congr (.ask (.isFile (s.filePath names)) (k := fun (there : Bool) d => (d, there))
      (location_of_resolve hpath) trivial fun there => .answer trivial) fun d => ?_
    simp only [hasFile, hpath, Request.carryOut]

theorem asks_fileSize (s : Storage) (path : String) (held : Held) :
    Asks (s.Names path) (fun _ _ => True) held fun d => (d, s.fileSize d path) := by
  cases hpath : resolve path with
  | error e =>
    exact Asks.congr (.answer (a := .error e) trivial) fun d => by rw [fileSize, hpath]
  | ok names =>
    refine Asks.congr (.ask (.sizeOf (s.filePath names))
      (k := fun (size : Except OsError Nat) d => (d,
        either (fun cause => .error
          (if cause = .notFound then .notFound ("File: " ++ path) else .io cause)) .ok size))
      (location_of_resolve hpath) trivial fun size => .answer trivial) fun d => ?_
    simp only [fileSize, hpath, Request.carryOut]
    rcases d.sizeOf (s.filePath names) with cause | size
    · cases cause <;> rfl
    · rfl

end Storage

/-! ## Deliveries -/

namespace Delivery

open Disk

variable {s : Storage} {path : String} {held : Held} {f : Fragment} {x : Delivery}

/-- The file that is open after an operation. -/
def Step.writer? : Step → Option FileWriter
  | onward next => next.writer?
  | ended (.ok w) => some w
  | ended (.error _) => none

/-- What is made of where a delivery stands. -/
def Step.either {α : Type} (onward : Delivery → α) (ended : Except OsError FileWriter → α) :
    Step → α
  | .onward next => onward next
  | .ended result => ended result

/-- Each operation of a delivery names only the location of its path, if the file it has open was
opened there. -/
theorem asks_advance (hx : ∀ w, x.writer? = some w → s.Holds path held w.file) :
    Asks (s.Names path)
      (fun held step => ∀ w, step.writer? = some w → s.Holds path held w.file) held
      fun d => x.advance s path f d := by
  cases x with
  | directories =>
    refine ((Storage.asks_makeWay s path held).bind (k := fun made d => (d,
      either (fun err => .ended (.error (asOsError err))) (fun _ => .onward opening) made)) fun held made _ => .answer fun w hw => ?_).congr fun d => ?_
    · cases made <;> cases hw
    · simp only [advance]
      rcases s.makeWay d path with ⟨d', _ | _⟩ <;> rfl
  | opening =>
    refine ((Storage.asks_openFile s path held).bind (k := fun opened d => (d,
      either (fun err => .ended (.error (asOsError err)))
        (fun file => .onward (seeking ⟨file, 0⟩)) opened)) fun held opened hopened =>
        .answer fun w hw => ?_).congr fun d => ?_
    · cases opened with
      | error err => cases hw
      | ok file =>
        cases hw
        exact hopened file rfl
    · simp only [advance]
      rcases s.openFile d path with ⟨d', _ | _⟩ <;> rfl
  | seeking w =>
    have hw := hx w rfl
    simp only [advance]
    split
    · refine .answer fun w' hw' => ?_
      cases hw'
    · split
      · refine .answer fun w' hw' => ?_
        cases hw'
        exact hw
      · refine .answer fun w' hw' => ?_
        cases hw'
        exact hw
  | writing w done =>
    have hw := hx w rfl
    obtain ⟨p, hp, hmem⟩ := hw
    refine Asks.congr (.ask (.write p w.file (f.position + done)
      (f.bytes.extract done (done + FileWriter.burst)))
      (k := fun _ d => (d,
        if f.len ≤ done + FileWriter.burst then .ended (.ok (w.count f.len))
        else .onward (writing w (done + FileWriter.burst)))) hp hmem fun u =>
          .answer fun w' hw' => ?_) fun d => ?_
    · split at hw' <;> cases hw' <;> exact hx w rfl
    · simp only [advance]
      split <;> rfl

theorem asks_writeTo {w : FileWriter} (hw : s.Holds path held w.file) :
    Asks (s.Names path)
      (fun held result => ∀ w, result = .ok w → s.Holds path held w.file) held
      fun d => writeTo f d w := by
  obtain ⟨p, hp, hmem⟩ := hw
  simp only [writeTo, FileWriter.writeAt]
  cases Disk.seek f.position with
  | error cause =>
    refine .answer fun w' hw' => ?_
    cases hw'
  | ok u =>
    refine Asks.congr (.ask (.write p w.file f.position f.bytes)
      (k := fun _ d => (d, .ok (w.count f.bytes.size))) hp hmem fun u =>
        .answer fun w' hw' => ?_) fun d => rfl
    cases hw'
    exact ⟨p, hp, hmem⟩

theorem asks_writeToOpened {op : Disk → Disk × Except Error OpenFile}
    (h : Asks (s.Names path)
      (fun held result => ∀ file, result = .ok file → s.Holds path held file) held op) :
    Asks (s.Names path)
      (fun held result => ∀ w, result = .ok w → s.Holds path held w.file) held
      fun d => writeToOpened f (op d) := by
  refine (h.bind (k := fun opened d => writeToOpened f (d, opened)) fun held opened hopened =>
    ?_).congr fun d => rfl
  cases opened with
  | error err =>
    refine .answer fun w hw => ?_
    cases hw
  | ok file => exact asks_writeTo (hopened file rfl)

/-- A delivery asks for the file of its path only. -/
theorem asks_finish (hx : ∀ w, x.writer? = some w → s.Holds path held w.file) :
    Asks (s.Names path)
      (fun held result => ∀ w, result = .ok w → s.Holds path held w.file) held
      fun d => x.finish s path f d := by
  cases x with
  | directories => exact asks_writeToOpened (Storage.asks_openForWrite s path held)
  | opening => exact asks_writeToOpened (Storage.asks_openFile s path held)
  | seeking w => exact asks_writeTo (hx w rfl)
  | writing w done =>
    obtain ⟨p, hp, hmem⟩ := hx w rfl
    refine Asks.congr (.ask (.write p w.file (f.position + done) (f.bytes.extract done f.len))
      (k := fun _ d => (d, .ok (w.count f.len))) hp hmem fun u => .answer fun w' hw' => ?_) fun d => rfl
    cases hw'
    exact ⟨p, hp, hmem⟩

end Delivery

end ResumableUpload
