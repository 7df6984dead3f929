import ResumableUpload.Proofs.Engine.Admission
import ResumableUpload.Proofs.Path.Resolution

/-
  Dots — where dots are refused in a path

  A path text is refused for a step up, at whatever place it stands, and for
  what it begins with: a slash, or a lone dot. A piece `.` further on is skipped
  as an empty piece is, and the text leads where it leads without the piece.

  What is held:
    1. `Path.Barred` — the texts that are refused.
    2. `Path.undotted` — a text without its pieces `.`.

  What is proved:
    1. `resolve_eq_ok_iff_not_barred`, `resolve_undotted` — what is refused, and
       what a piece `.` stands for elsewhere.
    2. `init_eq_invalidPath_iff`, `initWithin_eq_invalidPath_iff` — what is
       refused is not registered, and for no other path is a registration
       refused as invalid.
    3. `dots_refused_in_front_only` — the same, said of every text.
    4. `dot_behind_a_name_is_registered` — a piece `.` need not be refused.
-/

namespace ResumableUpload

namespace Path

/-- The texts that are refused: those with a step up, and those that begin with a slash or a lone dot, or
hold nothing. -/
def Barred (path : String) : Prop :=
  ".." ∈ pieces path ∨ (pieces path).head? = some "" ∨ (pieces path).head? = some "."

instance (path : String) : Decidable (Barred path) :=
  inferInstanceAs (Decidable (_ ∨ _ ∨ _))

/-- A text without its pieces `.`. -/
def undotted (path : String) : String := "/".intercalate ((pieces path).filter (· ≠ "."))

variable {path : String}

theorem not_barred_iff : ¬ Barred path ↔
    (∃ first ∈ (pieces path).head?, OsPath.leads first = true) ∧ ".." ∉ pieces path := by
  obtain ⟨first, rest, hpieces⟩ := List.exists_cons_of_ne_nil (pieces_ne_nil path)
  simp only [Barred, hpieces, List.head?_cons, Option.some.injEq, Option.mem_def, exists_eq_left',
    leads_iff, not_or]
  exact ⟨fun h => ⟨h.2, h.1⟩, fun h => ⟨h.2, h.1⟩⟩

theorem pieces_undotted (h : ¬ Barred path) :
    pieces (undotted path) = (pieces path).filter (· ≠ ".") := by
  obtain ⟨⟨first, hfirst, hleads⟩, -⟩ := not_barred_iff.mp h
  apply pieces_intercalate
  · apply List.ne_nil_of_mem (a := first)
    have hdot : first ≠ "." := (leads_iff.mp hleads).2
    exact List.mem_filter.mpr ⟨List.mem_of_mem_head? hfirst, decide_eq_true hdot⟩
  · exact fun x hx => pieces_no_slash (List.mem_filter.mp hx).1

theorem kept_undotted (h : ¬ Barred path) : kept (undotted path) = kept path := by
  rw [kept, pieces_undotted h, List.filter_filter, kept]
  apply List.filter_congr
  intro x _
  by_cases hx : x = "."
  · simp [hx, OsPath.leads]
  · simp [hx]

theorem not_barred_undotted (h : ¬ Barred path) : ¬ Barred (undotted path) := by
  obtain ⟨⟨first, hfirst, hleads⟩, hup⟩ := not_barred_iff.mp h
  rw [not_barred_iff, pieces_undotted h]
  refine ⟨⟨first, ?_, hleads⟩, fun hmem => hup (List.mem_filter.mp hmem).1⟩
  obtain ⟨rest, hpieces⟩ := List.head?_eq_some_iff.mp hfirst
  have hdot : first ≠ "." := (leads_iff.mp hleads).2
  simp [hpieces, hdot]

end Path

namespace Storage

variable {path : String} {names : Location}

theorem resolve_eq_ok_iff_not_barred :
    resolve path = .ok names ↔ ¬ Path.Barred path ∧ names = Path.kept path := by
  rw [resolve_eq_ok_iff, Path.not_barred_iff, and_assoc]
  constructor
  · exact fun h => h.2
  · rintro ⟨⟨first, hfirst, hleads⟩, hrest⟩
    refine ⟨?_, ⟨first, hfirst, hleads⟩, hrest⟩
    rintro rfl
    -- the one piece of the empty text leads nowhere
    cases hfirst
    cases hleads

theorem resolve_barred_iff :
    (∃ why, resolve path = .error (.validation why)) ↔ Path.Barred path := by
  constructor
  · rintro ⟨why, hwhy⟩
    by_contra hnot
    rw [resolve_eq_ok_iff_not_barred.mpr ⟨hnot, rfl⟩] at hwhy
    cases hwhy
  · intro hbarred
    refine (resolve_cases path).resolve_right ?_
    rintro ⟨names, hok⟩
    exact (resolve_eq_ok_iff_not_barred.mp hok).1 hbarred

/-- A piece `.` that is not refused stands for nothing. -/
theorem resolve_undotted (h : ¬ Path.Barred path) :
    resolve path = .ok (Path.kept path) ∧ resolve (Path.undotted path) = .ok (Path.kept path) :=
  ⟨resolve_eq_ok_iff_not_barred.mpr ⟨h, rfl⟩,
    resolve_eq_ok_iff_not_barred.mpr ⟨Path.not_barred_undotted h, (Path.kept_undotted h).symm⟩⟩

end Storage

theorem Registry.register_eq_error {g : Registry} {path clientPath : String} {size : Nat} {owner : Int}
    {err : UploadError} (h : g.register path size owner clientPath = .error err) :
    err = .alreadyActive path := by
  unfold register at h
  split at h <;> cases h
  rfl

theorem QuotaReport.check_eq_error {r : QuotaReport} {size : Nat} {err : UploadError}
    (h : r.check size = .error err) : err = .quotaExceeded size r.available := by
  unfold check at h
  split at h <;> cases h
  rfl

namespace Engine

variable {e : Engine} {path clientPath : String} {size : Nat} {owner : Int}

theorem checkNew_cases (e : Engine) (path : String) (size : Nat) :
    (Path.Barred path ∧ e.checkNew path size = .error (.invalidPath path)) ∨
    (¬ Path.Barred path ∧ e.maxUploadSize < size ∧
      e.checkNew path size = .error (.tooLarge size e.maxUploadSize)) ∨
    (¬ Path.Barred path ∧ size ≤ e.maxUploadSize ∧ e.checkNew path size = .ok ()) := by
  unfold checkNew
  by_cases hbarred : Path.Barred path
  · obtain ⟨why, hwhy⟩ := Storage.resolve_barred_iff.mpr hbarred
    rw [hwhy]
    exact .inl ⟨hbarred, rfl⟩
  · right
    rw [(Storage.resolve_undotted hbarred).1]
    by_cases hsize : e.maxUploadSize < size
    · exact .inl ⟨hbarred, hsize, if_pos hsize⟩
    · exact .inr ⟨hbarred, Nat.not_lt.mp hsize, if_neg hsize⟩

/-- A registration is refused as invalid for its path alone. -/
theorem init_eq_invalidPath_iff :
    e.init path size owner clientPath = .error (.invalidPath path) ↔ Path.Barred path := by
  unfold init
  simp only [bind, Except.bind]
  obtain ⟨hbarred, hcheck⟩ | ⟨hbarred, -, hcheck⟩ | ⟨hbarred, -, hcheck⟩ := e.checkNew_cases path size
  · simp [hcheck, hbarred]
  · simp [hcheck, hbarred]
  · rw [hcheck]
    cases hregister : e.registry.register path size owner clientPath with
    | error err => simp [Registry.register_eq_error hregister, hbarred]
    | ok x => simp [hbarred]

/-- So is one within a quota, unless the quota itself has that to say of its figure. -/
theorem initWithin_eq_invalidPath_iff {quota : Quota} :
    e.initWithin quota path size owner clientPath = .error (.upload (.invalidPath path)) ↔
      Path.Barred path ∨ size ≤ e.maxUploadSize ∧
        quota.usedBytes e.disk = .error (.upload (.invalidPath path)) := by
  unfold initWithin
  simp only [bind, Except.bind]
  obtain ⟨hbarred, hcheck⟩ | ⟨hbarred, hsize, hcheck⟩ | ⟨hbarred, hsize, hcheck⟩ :=
    e.checkNew_cases path size
  · simp [hcheck, hbarred, Except.mapError]
  · simp [hcheck, hbarred, Except.mapError, Nat.not_le.mpr hsize]
  · rw [hcheck]
    cases hused : quota.usedBytes e.disk with
    | error err => simp [hbarred, hsize, Except.mapError]
    | ok used =>
      cases hfits : (QuotaReport.mk used e.registry.reservedBytes quota.dedicatedBytes).check size with
      | error err => simp [hfits, QuotaReport.check_eq_error hfits, hbarred, Except.mapError]
      | ok u =>
        cases hregister : e.registry.register path size owner clientPath with
        | error err =>
          simp [hfits, Registry.register_eq_error hregister, hbarred, Except.mapError]
        | ok x => simp [hfits, hbarred, Except.mapError]

end Engine

/-- Dots are refused as a step up, and in front. Whatever the text: the storage refuses it, and so do both
kinds of registration, whatever the size, just if it has a step up among its pieces or begins with a slash
or a lone dot, or holds nothing; only a quota may give the same reason, for a figure that it cannot tell.
Any other text is accepted, and leads where it leads without its pieces `.`. -/
theorem dots_refused_in_front_only (path : String) :
    ((∃ why, Storage.resolve path = .error (.validation why)) ↔ Path.Barred path) ∧
    (∀ (e : Engine) (size : Nat) (owner : Int) (clientPath : String),
      e.init path size owner clientPath = .error (.invalidPath path) ↔ Path.Barred path) ∧
    (∀ (e : Engine) (quota : Quota) (size : Nat) (owner : Int) (clientPath : String),
      e.initWithin quota path size owner clientPath = .error (.upload (.invalidPath path)) ↔
        Path.Barred path ∨ size ≤ e.maxUploadSize ∧
          quota.usedBytes e.disk = .error (.upload (.invalidPath path))) ∧
    (¬ Path.Barred path → Storage.resolve path = .ok (Path.kept path) ∧
      Storage.resolve (Path.undotted path) = .ok (Path.kept path)) :=
  ⟨Storage.resolve_barred_iff, fun _ _ _ _ => Engine.init_eq_invalidPath_iff,
    fun _ _ _ _ _ => Engine.initWithin_eq_invalidPath_iff, Storage.resolve_undotted⟩

/-- A piece `.` behind a name is no reason to refuse a path. -/
theorem dot_behind_a_name_is_registered :
    ¬ ∀ path : String, ("." ∈ Path.pieces path ∨ ".." ∈ Path.pieces path) →
      (∃ why, Storage.resolve path = .error (.validation why)) ∧
      ∀ (e : Engine) (quota : Quota) (size : Nat) (owner : Int) (clientPath : String),
        e.init path size owner clientPath = .error (.invalidPath path) ∧
          e.initWithin quota path size owner clientPath = .error (.upload (.invalidPath path)) := by
  intro h
  obtain ⟨⟨why, hwhy⟩, -⟩ := h "a/./b" (.inl (by decide))
  have haccepted : Storage.resolve "a/./b" = .ok ["a", "b"] := by rfl
  rw [haccepted] at hwhy
  cases hwhy

end ResumableUpload
