import Mathlib.Data.List.Basic
import ResumableUpload.Launch.OnDisk

/-
  Base — the directory a started program stores files in

  A configuration is had of its sources only if all of them can be read: the
  file, and the writer count where a variable gives one. Where one cannot, the
  program goes on with the default configuration, and then the storage path of
  the file and that of the environment are both passed over.

  What the program takes for the base is watched from its surroundings, which
  may be anything with a state. A watched step does what it does unwatched, so
  each step of the program needs one lemma, of what it takes.

  What is held:
    1. `Config.inUse` — the configuration the program goes on with;
       `Config.namedBase` — the base directory its sources name.
    2. `Host.watched` — surroundings that list what is taken for the base;
       `Host.Takes`.

  What is proved:
    1. `Config.base_of_readable`, `Config.inUse_of_not_readable`.
    2. `Host.watched_start` — what the program takes for the base, and in which
       order.
    3. `base_is_named_where_all_is_readable` — both put together.
-/

namespace ResumableUpload

/-! ## The sources -/

namespace Config

/-- The configuration the program goes on with: that of the sources, or the default one. -/
def inUse (file : FileText) (env : Environment) : Config :=
  match loadWith file env with
  | .ok c => c
  | .error _ => {}

/-- The base directory the sources name: the variable goes before the file, and the file before the
default. -/
def namedBase (file : FileText) (env : Environment) : String :=
  match Environment.text? env.storagePath, load file with
  | some path, _ => path
  | none, .ok c => c.storage.path
  | none, .error _ => ({} : StorageConfig).path

/-- Whether all sources can be read: the file, and the writer count if its variable is set. -/
def Readable (file : FileText) (env : Environment) : Prop :=
  (∃ c, load file = .ok c) ∧
    ∀ text, Environment.text? env.maxConcurrentWriters = some text → ∃ n, readCount text = .ok n

variable {file : FileText} {env : Environment} {c : Config}

theorem path_overridePath (c : Config) (env : Environment) :
    (c.overridePath env).storage.path =
      (Environment.text? env.storagePath).getD c.storage.path := by
  unfold overridePath
  split <;> simp_all

theorem storage_of_overrideWriters {c' : Config} (h : c.overrideWriters env = .ok c') :
    c'.storage = c.storage := by
  unfold overrideWriters at h
  split at h
  · cases h; rfl
  · split at h
    · cases h; rfl
    · cases h

theorem namedBase_of_load (h : load file = .ok c) :
    namedBase file env = (Environment.text? env.storagePath).getD c.storage.path := by
  unfold namedBase
  split <;> simp_all

theorem namedBase_of_variable {path : String}
    (h : Environment.text? env.storagePath = some path) : namedBase file env = path := by
  unfold namedBase
  split <;> simp_all

theorem loadWith_of_readable (h : Readable file env) : ∃ c, loadWith file env = .ok c := by
  obtain ⟨⟨c, hc⟩, hcount⟩ := h
  simp only [loadWith, hc, override, overrideWriters]
  split
  · exact ⟨_, rfl⟩
  · rename_i text htext
    obtain ⟨n, hn⟩ := hcount text htext
    rw [hn]
    exact ⟨_, rfl⟩

theorem readable_of_loadWith (h : loadWith file env = .ok c) : Readable file env := by
  unfold loadWith at h
  split at h
  · cases h
  · rename_i c₀ hc₀
    refine ⟨⟨c₀, hc₀⟩, fun text htext => ?_⟩
    simp only [override, overrideWriters, htext] at h
    split at h
    · exact ⟨_, ‹_›⟩
    · cases h

theorem base_of_loadWith (h : loadWith file env = .ok c) :
    c.storage.path = namedBase file env := by
  unfold loadWith at h
  split at h
  · cases h
  · rename_i c₀ hc₀
    rw [storage_of_overrideWriters h, path_overridePath, namedBase_of_load hc₀]

theorem base_of_readable (h : Readable file env) :
    (inUse file env).storage.path = namedBase file env := by
  obtain ⟨c, hc⟩ := loadWith_of_readable h
  rw [inUse, hc, base_of_loadWith hc]

theorem inUse_of_not_readable (h : ¬Readable file env) : inUse file env = {} := by
  unfold inUse
  split
  · exact absurd (readable_of_loadWith ‹_›) h
  · rfl

end Config

theorem Environment.text?_toUTF8 {text : String} (h : text ≠ "") :
    text? (some text.toUTF8) = some text := by
  have hread : String.fromUTF8? text.toUTF8 = some text := by
    simpa [String.fromUTF8?] using ⟨text.isValidUTF8, rfl⟩
  rw [text?, Option.bind_some, hread]
  simp [h]

/-! ## Watching the program -/

namespace Host

/-- The surroundings, with a list of the directories that are taken for the base. -/
def watched {m : Type → Type} [Monad m] (h : Host m) : Host (StateT (List String) m) where
  readConfig := StateT.lift h.readConfig
  environment := StateT.lift h.environment
  openLog name := StateT.lift (h.openLog name)
  makeBase base := do modify (· ++ [base]); StateT.lift (h.makeBase base)
  usedBytes base := do modify (· ++ [base]); StateT.lift (h.usedBytes base)
  say coloured line := StateT.lift (h.say coloured line)
  complain text := StateT.lift (h.complain text)

variable {σ α β : Type}

theorem run_bind (x : StateM σ α) (f : α → StateM σ β) (s : σ) :
    (x >>= f).run s = (f (x.run s).1).run (x.run s).2 := rfl

/-- Watched, the action does what it does unwatched, and what it takes for the base meets `Q` with
its result. -/
def Takes (x : StateT (List String) (StateM σ) α) (y : StateM σ α) (Q : α → List String → Prop) :
    Prop :=
  ∀ before s, ∃ taken, (x.run before).run s = (((y.run s).1, before ++ taken), (y.run s).2) ∧
    Q (y.run s).1 taken

/-- Nothing is taken for the base. -/
abbrev Nothing (_ : α) (taken : List String) : Prop := taken = []

namespace Takes

variable {x : StateT (List String) (StateM σ) α} {y : StateM σ α}
  {f : α → StateT (List String) (StateM σ) β} {g : α → StateM σ β} {Q : β → List String → Prop}

theorem pure {b : β} (h : Q b []) :
    Takes (Pure.pure b : StateT (List String) (StateM σ) β) (Pure.pure b) Q :=
  fun before _ => ⟨[], by rw [List.append_nil]; rfl, h⟩

theorem lift (y : StateM σ α) : Takes (StateT.lift y) y Nothing :=
  fun before _ => ⟨[], by rw [List.append_nil]; rfl, rfl⟩

theorem noted (base : String) (y : StateM σ α) :
    Takes (do modify (· ++ [base]); StateT.lift y) y fun _ taken => taken = [base] :=
  fun _ _ => ⟨[base], rfl, rfl⟩

theorem bind {P : α → List String → Prop} (hx : Takes x y P)
    (hf : ∀ a first, P a first → Takes (f a) (g a) fun b taken => Q b (first ++ taken)) :
    Takes (x >>= f) (y >>= g) Q := by
  intro before s
  obtain ⟨first, hfirst, hP⟩ := hx before s
  obtain ⟨taken, hrun, hQ⟩ := hf (y.run s).1 first hP (before ++ first) (y.run s).2
  refine ⟨first ++ taken, ?_, hQ⟩
  rw [List.append_assoc] at hrun
  rw [StateT.run_bind, run_bind, run_bind, hfirst]
  exact hrun

theorem after (hx : Takes x y Nothing) (hf : ∀ a, Takes (f a) (g a) Q) :
    Takes (x >>= f) (y >>= g) Q :=
  hx.bind fun a _ hfirst => hfirst ▸ hf a

end Takes

/-! ## The steps of the program -/

variable (h : Host (StateM σ))

theorem takes_configure : Takes h.watched.configure h.configure Nothing := by
  refine (Takes.lift h.readConfig).after fun file => (Takes.lift h.environment).after fun env => ?_
  cases Config.loadWith file env with
  | ok c => exact .pure rfl
  | error e =>
    exact (Takes.lift (h.complain _)).after fun _ => (Takes.lift (h.complain _)).after fun _ =>
      .pure rfl

theorem takes_setUpLog (c : LoggingConfig) :
    Takes (h.watched.setUpLog c) (h.setUpLog c) Nothing := by
  unfold setUpLog
  by_cases hfile : c.file = ""
  · simp only [hfile, if_true]
    exact .pure rfl
  · simp only [hfile, if_false]
    refine (Takes.lift (h.openLog c.file)).after fun opened => ?_
    cases opened with
    | ok _ => exact .pure rfl
    | error cause => exact (Takes.lift (h.complain _)).after fun _ => .pure rfl

theorem takes_log (setup : LogSetup) (level : Level) (text : String) :
    Takes (h.watched.log setup level text) (h.log setup level text) Nothing := by
  unfold log
  split
  · exact .lift (h.say setup.coloured ⟨level, text⟩)
  · exact .pure rfl

theorem takes_prepare (c : Config) : Takes (h.watched.prepare c) (h.prepare c) fun made taken =>
    taken = (if c.validate = .ok () then [c.storage.path] else []) ∧
      (made = .ok () → c.validate = .ok ()) := by
  unfold prepare
  cases c.validate with
  | error e => exact .pure ⟨by simp, by simp⟩
  | ok _ =>
    refine (Takes.noted c.storage.path (h.makeBase c.storage.path)).bind fun made first hfirst => ?_
    exact .pure ⟨by simp [hfirst], by simp⟩

/-- What a program takes for the base under a configuration: its storage path, to make it and, where
that is done, to count its bytes. -/
def basesUnder (c : Config) (code : UInt32) : List String :=
  if code = 0 then [c.storage.path, c.storage.path]
  else if c.validate = .ok () then [c.storage.path]
  else []

theorem takes_startWith (c : Config) : Takes (h.watched.startWith c) (h.startWith c)
    fun code taken => taken = basesUnder c code := by
  refine (takes_setUpLog h c.logging).after fun setup => (takes_log h setup _ _).after fun _ => ?_
  refine (takes_prepare h c).bind fun made first ⟨hfirst, hvalid⟩ => ?_
  cases made with
  | error e =>
    refine (takes_log h setup _ _).after fun _ => .pure ?_
    simp [hfirst, basesUnder]
  | ok _ =>
    refine (takes_log h setup _ _).after fun _ => ?_
    refine (Takes.noted c.storage.path (h.usedBytes c.storage.path)).bind
      fun used second hsecond => ?_
    have hboth : first ++ (second ++ []) = basesUnder c 0 := by
      simp [hfirst, hsecond, hvalid rfl, basesUnder]
    -- the exit code is 0 even if the bytes cannot be counted
    cases used with
    | ok n => exact (takes_log h setup _ _).after fun _ => .pure hboth
    | error cause => exact (takes_log h setup _ _).after fun _ => .pure hboth

theorem fst_run_configure (s : σ) :
    (h.configure.run s).1 =
      Config.inUse (h.readConfig.run s).1 (h.environment.run (h.readConfig.run s).2).1 := by
  simp only [configure, run_bind, Config.inUse]
  cases Config.loadWith (h.readConfig.run s).1 (h.environment.run (h.readConfig.run s).2).1 <;> rfl

theorem watched_start (s : σ) :
    (h.watched.start.run []).run s =
      (((h.start.run s).1, basesUnder (h.configure.run s).1 (h.start.run s).1),
        (h.start.run s).2) := by
  obtain ⟨first, hconfigure, rfl⟩ := takes_configure h [] s
  obtain ⟨taken, hstart, rfl⟩ :=
    takes_startWith h (h.configure.run s).1 ([] ++ []) (h.configure.run s).2
  rw [start, start, StateT.run_bind, run_bind, run_bind, hconfigure]
  exact hstart

end Host

open Config Host

/-- Whatever the surroundings answer, a started program takes one directory for the base of its
storage, and none if the configuration is not valid. Where the file or the writer count cannot be
read, it is the built-in one, even if the variable for it is set; so it is the one the sources name
just if all of them can be read, or if they name the built-in one. -/
theorem base_is_named_where_all_is_readable {σ : Type} (h : Host (StateM σ)) (s : σ) :
    let file := (h.readConfig.run s).1
    let env := (h.environment.run (h.readConfig.run s).2).1
    let c := inUse file env
    (h.watched.start.run []).run s =
      (((h.start.run s).1, basesUnder c (h.start.run s).1), (h.start.run s).2) ∧
    (¬Readable file env → c.storage.path = "data/files") ∧
    (c.storage.path = namedBase file env ↔
      Readable file env ∨ namedBase file env = "data/files") := by
  intro file env c
  have hbuiltIn : ¬Readable file env → c.storage.path = "data/files" := fun hunread => by
    have hdefault : c = {} := inUse_of_not_readable hunread
    rw [hdefault]
  refine ⟨?_, hbuiltIn, ?_⟩
  · rw [watched_start, fst_run_configure]
  · by_cases hread : Readable file env
    · simp only [hread, true_or, iff_true]
      exact base_of_readable hread
    · rw [hbuiltIn hread]
      exact ⟨fun hnamed => .inr hnamed.symm, fun hor => (hor.resolve_left hread).symm⟩

/-- Beside an empty file, the variable names the base. -/
theorem variable_is_taken_beside_an_empty_file :
    let desk := Desk.new ⟨[([Desk.configName], .file 0 .empty)], 1⟩
    let env : Environment := ⟨some "srv".toUTF8, none⟩
    let file := Desk.fileBytes desk.disk (OsPath.ofText Desk.configName)
    Readable file env ∧ (inUse file env).storage.path = "srv" := by
  intro desk env file
  have hnamed : namedBase file env = "srv" :=
    namedBase_of_variable (Environment.text?_toUTF8 (by simp))
  have hread : Readable file env := ⟨⟨{}, by rfl⟩, by simp [env, Environment.text?]⟩
  obtain ⟨-, -, hbase⟩ := base_is_named_where_all_is_readable (Desk.host "" env) desk
  exact ⟨hread, (hbase.mpr (.inl hread)).trans hnamed⟩

/-- Without a file, the variable is passed over: it names `srv`, and files go to `data/files`. -/
theorem variable_is_passed_over_without_a_file :
    let desk := Desk.new .empty
    let env : Environment := ⟨some "srv".toUTF8, none⟩
    let file := Desk.fileBytes desk.disk (OsPath.ofText Desk.configName)
    let bases := (((Desk.host "" env).watched.start.run []).run desk).1.2
    file = .error .notFound ∧ namedBase file env = "srv" ∧
      "data/files" ∈ bases ∧ "srv" ∉ bases := by
  intro desk env file bases
  have hfile : file = .error .notFound := rfl
  have hnamed : namedBase file env = "srv" :=
    namedBase_of_variable (Environment.text?_toUTF8 (by simp))
  have hconfig : ((Desk.host "" env).configure.run desk).1 = {} := by
    rw [fst_run_configure]
    exact (show inUse (.error .notFound) env = {} from rfl)
  have hrun := watched_start (Desk.host "" env) desk
  rw [hconfig] at hrun
  have hbases : bases = basesUnder {} ((Desk.host "" env).start.run desk).1 := by
    simp only [bases, hrun]
  have hmade : "data/files" ∈ bases ∧ "srv" ∉ bases := by
    rw [hbases, basesUnder]
    split <;> simp [validate]
  exact ⟨hfile, hnamed, hmade⟩

end ResumableUpload
