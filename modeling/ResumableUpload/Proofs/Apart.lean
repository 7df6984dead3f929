import ResumableUpload.Proofs.Engine.Paired

/-
  Apart — uploads whose files lie apart do not interfere

  Calls are made one after another, each run to its end before the next, and any
  operation of the disk may fail. An upload is told, answered and written the
  same whatever is called for others, if no other path of the run leads to the
  place of its file, to a directory on the way there or to something below it.
  Only the numbers of the registrations tell how many came before.

  What is held:
    1. `Call.path?` — the path that a call works on.
    2. `Call.Apart` — a call for a path, or for one whose file lies apart.
    3. `Session.Abreast` — sessions that one upload cannot tell apart.
    4. `callsFor`, `answersTo` — the calls for a path, and what was answered.

  What is proved:
    1. `Session.tended_performWith` — a call tends its path.
    2. `Abreast.own`, `Abreast.other` — a call for the upload comes to the same
       in both sessions, and one for another leaves them abreast; `Abreast.run`
       — and so do whole runs.
    3. `answers_without_others` — what the calls for an upload come to is what
       they come to alone.
-/

namespace ResumableUpload

/-- The path of a call for one upload that runs to its end. A registration within a quota is none, as
it looks at all uploads. -/
def Call.path? : Call → Option String
  | .init path _ _ _ => some path
  | .submit path _ => some path
  | .pump path => some path
  | .status path => some path
  | .remove path => some path
  | .discard path => some path
  | _ => none

/-- The call works on `path`, or on a path to a file that lies neither at the end of `names` nor on
the way there, nor below it. -/
def Call.Apart (path : String) (names : Location) (call : Call) : Prop :=
  ∃ q, call.path? = some q ∧
    (q = path ∨ ∃ ms, Storage.resolve q = .ok ms ∧ ¬ ms <+: names ∧ ¬ names <+: ms)

/-- The answer without the number of a registration. -/
def Reply.unnumbered : Reply → Reply
  | .ticket t => .ticket t.unnumbered
  | reply => reply

/-- Whether a call works on a path. -/
def callsFor (path : String) (x : Call × Faults) : Bool := x.1.path? = some path

/-- What was answered to the calls for a path. -/
def answersTo (path : String) (calls : List (Call × Faults)) (replies : List Reply) : List Reply :=
  ((calls.zip replies).filter fun x => callsFor path x.1).map Prod.snd

section Answers

variable {path : String} {x : Call × Faults} (calls : List (Call × Faults)) (reply : Reply)
  (replies : List Reply)

theorem answersTo_cons_of_pos (h : callsFor path x = true) :
    answersTo path (x :: calls) (reply :: replies) = reply :: answersTo path calls replies := by
  simp [answersTo, h]

theorem answersTo_cons_of_neg (h : ¬ callsFor path x = true) :
    answersTo path (x :: calls) (reply :: replies) = answersTo path calls replies := by
  simp [answersTo, h]

end Answers

namespace Session

variable {s s' : Session} {path q : String} {base names ms : Location} {call : Call}

theorem registered_mapError (s : Session) (result : Except UploadError (Engine × Ticket)) :
    s.registered (result.mapError .upload) = match result with
      | .ok (engine, ticket) => (s.withEngine engine, .ticket ticket)
      | .error e => (s, .failed (.upload e)) := by
  cases result <;> rfl

/-- A call tends the path that it works on. -/
theorem tended_performWith (hidle : s.engine.Idle)
    (h : s.engine.storage.Grounded s.engine.disk base) (hcall : call.path? = some path)
    (hpath : Storage.resolve path = .ok names) (faults : Faults) :
    Engine.Tended path base names s.engine (s.performWith faults call).1.engine := by
  cases call with
  | init q size owner clientPath =>
    obtain rfl := Option.some.inj hcall
    show Engine.Tended q base names s.engine
      (s.registered ((s.engine.init q size owner clientPath).mapError .upload)).1.engine
    rw [registered_mapError]
    cases hinit : s.engine.init q size owner clientPath with
    | error err => exact hidle.tended h q names
    | ok y => exact Engine.tended_init hinit h names
  | submit q f =>
    obtain rfl := Option.some.inj hcall
    exact Engine.tended_submitWith hidle h hpath f faults
  | pump q =>
    obtain rfl := Option.some.inj hcall
    exact Engine.tended_pumpWith hidle h hpath faults
  | status q =>
    obtain rfl := Option.some.inj hcall
    simp only [performWith, perform]
    split <;> exact hidle.tended h q names
  | remove q =>
    obtain rfl := Option.some.inj hcall
    exact Engine.tended_remove h q names
  | discard q =>
    obtain rfl := Option.some.inj hcall
    have htended := Engine.tended_discardWith h hpath faults
    rcases hdiscard : s.engine.discardWith q faults with ⟨e, result⟩
    rw [hdiscard] at htended
    simp only [performWith, hdiscard]
    cases result <;> exact htended
  | _ => cases hcall

/-- Sessions that one upload cannot tell apart, in which nobody holds a slot. -/
structure Abreast (path : String) (base names : Location) (s s' : Session) : Prop where
  alike : Engine.Alike path base names s.engine s'.engine
  idle : s.engine.Idle
  idle' : s'.engine.Idle

namespace Abreast

theorem grounded (h : Abreast path base names s s') :
    s.engine.storage.Grounded s.engine.disk base := h.alike.disk.left

theorem grounded' (h : Abreast path base names s s') :
    s'.engine.storage.Grounded s'.engine.disk base := by
  rw [← h.alike.storage]
  exact h.alike.disk.right

/-- A call for the upload is answered the same in both sessions but for numbers, and leaves them
abreast. -/
theorem own (h : Abreast path base names s s') (hcall : call.path? = some path)
    (hpath : Storage.resolve path = .ok names) (hshort : Storage.Short names) (faults : Faults) :
    Abreast path base names (s.performWith faults call).1 (s'.performWith faults call).1 ∧
      (s.performWith faults call).2.unnumbered = (s'.performWith faults call).2.unnumbered := by
  have htended := tended_performWith h.idle h.grounded hcall hpath faults
  have htended' := tended_performWith h.idle' h.grounded' hcall hpath faults
  suffices hsame : Engine.Alike path base names (s.performWith faults call).1.engine
      (s'.performWith faults call).1.engine ∧
        (s.performWith faults call).2.unnumbered = (s'.performWith faults call).2.unnumbered from
    ⟨⟨hsame.1, htended.idle h.idle, htended'.idle h.idle'⟩, hsame.2⟩
  have halike := h.alike
  cases call with
  | init q size owner clientPath =>
    obtain rfl := Option.some.inj hcall
    simp only [performWith, perform, registered_mapError]
    obtain ⟨err, hinit, hinit'⟩ | ⟨e, t, e', t', hinit, hinit', hafter, hticket⟩ :=
      halike.init size owner clientPath
    · rw [hinit, hinit']
      exact ⟨halike, rfl⟩
    · rw [hinit, hinit']
      exact ⟨hafter, congrArg Reply.ticket hticket⟩
  | submit q f =>
    obtain rfl := Option.some.inj hcall
    obtain ⟨hafter, hresult⟩ := halike.submitWith h.idle h.idle' hpath hshort f faults
    exact ⟨hafter, congrArg (fun result => (Reply.ofResult result).unnumbered) hresult⟩
  | pump q =>
    obtain rfl := Option.some.inj hcall
    obtain ⟨hafter, hresult⟩ := halike.pumpWith h.idle h.idle' hpath hshort faults
    exact ⟨hafter, congrArg (fun result => (Reply.ofResult result).unnumbered) hresult⟩
  | status q =>
    obtain rfl := Option.some.inj hcall
    simp only [performWith, perform, halike.status]
    split <;> exact ⟨halike, rfl⟩
  | remove q =>
    obtain rfl := Option.some.inj hcall
    exact ⟨halike.remove, rfl⟩
  | discard q =>
    obtain rfl := Option.some.inj hcall
    obtain ⟨hafter, hresult⟩ := halike.discardWith hpath hshort faults
    rcases hdiscard : s.engine.discardWith q faults with ⟨e, result⟩
    rcases hdiscard' : s'.engine.discardWith q faults with ⟨e', result'⟩
    rw [hdiscard, hdiscard'] at hafter hresult
    obtain rfl : result = result' := hresult
    simp only [performWith, hdiscard, hdiscard']
    cases result <;> exact ⟨hafter, rfl⟩
  | _ => cases hcall

theorem other (h : Abreast path base names s s') (hcall : call.path? = some q) (hq : path ≠ q)
    (hpath : Storage.resolve q = .ok ms) (hnot : ¬ ms <+: names) (hnot' : ¬ names <+: ms)
    (faults : Faults) : Abreast path base names (s.performWith faults call).1 s' := by
  have htended := tended_performWith h.idle h.grounded hcall hpath faults
  exact ⟨h.alike.elsewhere htended hq hnot hnot', htended.idle h.idle, h.idle'⟩

/-- All calls in one session, and those for the upload in the other. -/
theorem run (h : Abreast path base names s s') (hpath : Storage.resolve path = .ok names)
    (hshort : Storage.Short names) {calls : List (Call × Faults)}
    (hapart : ∀ x ∈ calls, x.1.Apart path names) :
    Abreast path base names (s.runWith calls).1 (s'.runWith (calls.filter (callsFor path))).1 ∧
      (answersTo path calls (s.runWith calls).2).map Reply.unnumbered =
        (s'.runWith (calls.filter (callsFor path))).2.map Reply.unnumbered := by
  induction calls generalizing s s' with
  | nil => exact ⟨h, rfl⟩
  | cons x rest ih =>
    obtain ⟨call, faults⟩ := x
    obtain ⟨q, hcall, hwhere⟩ := hapart _ List.mem_cons_self
    have hrest : ∀ x ∈ rest, x.1.Apart path names := fun x hx => hapart x (List.mem_cons_of_mem _ hx)
    by_cases hown : callsFor path (call, faults) = true
    · obtain ⟨hafter, hreply⟩ := h.own (of_decide_eq_true hown) hpath hshort faults
      obtain ⟨hend, hanswers⟩ := ih hafter hrest
      rw [List.filter_cons_of_pos hown, runWith, runWith, answersTo_cons_of_pos _ _ _ hown]
      exact ⟨hend, congrArg₂ List.cons hreply hanswers⟩
    · have hq : path ≠ q := by
        rintro rfl
        exact hown (decide_eq_true hcall)
      obtain ⟨ms, hms, hnot, hnot'⟩ := hwhere.resolve_left (Ne.symm hq)
      obtain ⟨hend, hanswers⟩ := ih (h.other hcall hq hms hnot hnot' faults) hrest
      rw [List.filter_cons_of_neg hown, runWith, answersTo_cons_of_neg _ _ _ hown]
      exact ⟨hend, hanswers⟩

end Abreast

theorem abreast_new {e : Engine} (h : e.storage.Grounded e.disk base)
    (hnone : e.registry = .empty) (path : String) (names : Location) :
    Abreast path base names (.new e) (.new e) := by
  have hidle : e.Idle := by
    intro q r hr
    rw [hnone] at hr
    cases hr
  exact ⟨.refl h path names, hidle, hidle⟩

end Session

/-- **What is called for others is of no account to an upload.** Where no other path of a run leads to
its file, to a directory on the way there or below it, its calls are answered as they are without all
the calls for others, but for the numbers of registrations; the same is told of it, and its record and
its file are the same in the end, whatever fails for the others. -/
theorem answers_without_others (disk : Disk) (storage : Storage) (writers maxSize capacity : Nat)
    (base : Location) (h : storage.Grounded disk base) (path : String) (names : Location)
    (hpath : Storage.resolve path = .ok names) (hshort : Storage.Short names)
    (calls : List (Call × Faults)) (hapart : ∀ x ∈ calls, x.1.Apart path names) :
    let fresh := Session.new (.new disk storage writers maxSize capacity)
    let among := fresh.runWith calls
    let alone := fresh.runWith (calls.filter (callsFor path))
    (answersTo path calls among.2).map Reply.unnumbered = alone.2.map Reply.unnumbered ∧
      among.1.engine.told path = alone.1.engine.told path ∧
      (among.1.engine.registry.find? path).map Record.unnumbered =
        (alone.1.engine.registry.find? path).map Record.unnumbered ∧
      among.1.engine.disk.contentOf? (base ++ names) =
        alone.1.engine.disk.contentOf? (base ++ names) := by
  intro fresh among alone
  have hfresh : Session.Abreast path base names fresh fresh := Session.abreast_new h rfl path names
  obtain ⟨⟨halike, -, -⟩, hanswers⟩ := hfresh.run hpath hshort hapart
  exact ⟨hanswers, halike.told, halike.record, halike.disk.contentOf?_eq⟩

/-- Two uploads in one directory. Of the fragment of the first one two bytes reach the disk, as no space
is left on it; then the upload is discarded. -/
def firstFails : List (Call × Faults) :=
  [(.init "a/x" 4 0 "", []), (.init "a/b" 4 0 "", []),
    (.submit "a/x" ⟨0, #[1, 2, 3, 4]⟩, [none, none, none, some ⟨.other "no space left", 2⟩]),
    (.submit "a/b" ⟨0, #[5, 6, 7, 8]⟩, []), (.discard "a/x", []), (.status "a/b", [])]

theorem firstFails_apart : ∀ x ∈ firstFails, x.1.Apart "a/b" ["a", "b"] := by
  have hpaths : ∀ x ∈ firstFails, x.1.path? = some "a/b" ∨ x.1.path? = some "a/x" := by
    decide +kernel
  intro x hx
  obtain hown | hother := hpaths x hx
  · exact ⟨"a/b", hown, .inl rfl⟩
  · exact ⟨"a/x", hother, .inr ⟨["a", "x"], by decide +kernel, by decide, by decide⟩⟩

/-- The first upload fails, and the second is what it is without it. -/
theorem second_beside_failure :
    let fresh := Session.new (.new emptyBase ⟨"up"⟩ 1 100 16)
    let among := fresh.runWith firstFails
    let alone := fresh.runWith (firstFails.filter (callsFor "a/b"))
    among.1.engine.told "a/x" = [.failed "a/x" 0 4 "no space left", .removed "a/x"] ∧
      (answersTo "a/b" firstFails among.2).map Reply.unnumbered = alone.2.map Reply.unnumbered ∧
      among.1.engine.told "a/b" = alone.1.engine.told "a/b" ∧
      (among.1.engine.registry.find? "a/b").map Record.unnumbered =
        (alone.1.engine.registry.find? "a/b").map Record.unnumbered ∧
      among.1.engine.disk.contentOf? ["up", "a", "b"] =
        alone.1.engine.disk.contentOf? ["up", "a", "b"] :=
  ⟨by decide +kernel, answers_without_others emptyBase ⟨"up"⟩ 1 100 16 ["up"] emptyBase_grounded
    "a/b" ["a", "b"] (by decide +kernel) (by decide) firstFails firstFails_apart⟩

end ResumableUpload
