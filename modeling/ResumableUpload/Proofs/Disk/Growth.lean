import ResumableUpload.Disk.Operations

/-
  Growth — where paths lead once the tree has grown

  A tree grows when something is put where nothing was, or when a file gets
  another content. What a path led to is still there, and where it led to
  nothing it may lead to what was put there. So whoever opened a file may open
  it again.

  What is held:
    1. `Entry.Same`, `Grown` — what stays when a tree grows.

  What is proved:
    1. `tread_cons` — what a step can do; the lemmas on `tread` split along it.
    2. `tread_grown`, `walk_grown`, `locateFileFrom_grown` — where paths lead
       then.
    3. `tread_append`, `walk_append_steps` — what comes of more steps;
       `walk_append_dot` — one that stays asks for a directory, and changes
       nothing else.
    4. `isDirectory_iff`, `isDirectory_grown`, `makeDirectory_of_isDirectory`,
       `makeDirectory_eq_ok` — directories stay, and are not made again.
-/

namespace ResumableUpload

/-- The same entry; a file may hold something else. -/
inductive Entry.Same : Entry → Entry → Prop where
  | directory : Same .directory .directory
  | file (serial : Nat) (c c' : Content) : Same (.file serial c) (.file serial c')
  | link (target : String) : Same (.link target) (.link target)

theorem Entry.Same.refl : ∀ e : Entry, e.Same e
  | .directory => .directory
  | .file serial c => .file serial c c
  | .link target => .link target

theorem Entry.Same.trans {a b c : Entry} (hab : a.Same b) (hbc : b.Same c) : a.Same c := by
  cases hab with
  | directory => exact hbc
  | file serial x y =>
    cases hbc with
    | file _ _ z => exact .file serial x z
  | link target => exact hbc

/-- Whether the entry stands for another path. -/
def Entry.isLink : Entry → Bool
  | link _ => true
  | _ => false

namespace Disk

/-- What lies in one tree lies in the other, at the same location; a file may hold something else. -/
def Grown (d d' : Disk) : Prop :=
  ∀ loc e, d.get? loc = some e → ∃ e', d'.get? loc = some e' ∧ e.Same e'

theorem Grown.refl (d : Disk) : Grown d d := fun _ e h => ⟨e, h, .refl e⟩

theorem Grown.trans {a b c : Disk} (hab : Grown a b) (hbc : Grown b c) : Grown a c := by
  intro loc e he
  obtain ⟨x, hx, hex⟩ := hab loc e he
  obtain ⟨y, hy, hxy⟩ := hbc loc x hx
  exact ⟨y, hy, hex.trans hxy⟩

theorem grown_set {d : Disk} {loc : Location} (hfree : d.get? loc = none) (e : Entry) :
    Grown d (d.set loc e) := by
  have hloc : loc ≠ [] := by
    rintro rfl
    simp at hfree
  intro q x hx
  rw [get?_set d hloc]
  have hq : q ≠ loc := by
    rintro rfl
    rw [hfree] at hx
    cases hx
  rw [if_neg hq]
  exact ⟨x, hx, .refl x⟩

theorem grown_place (d : Disk) (file : OpenFile) (position : Nat) (bytes : Bytes) :
    Grown d (d.place file position bytes) := by
  unfold place
  split
  · rename_i serial content hthere
    split
    · intro q x hx
      rw [get?_set d (ne_nil_of_get? hthere)]
      split
      · rename_i hq
        rw [hq, hthere] at hx
        cases hx
        exact ⟨_, rfl, .file _ _ _⟩
      · exact ⟨x, hx, .refl x⟩
    · exact .refl d
  · exact .refl d

/-! ## Where paths lead -/

/-- Where a path stops once the tree has grown. -/
inductive Stop.Kept (d' : Disk) : Stop → Stop → Prop where
  | reached (loc : Location) {e e' : Entry} (h : e.Same e') : Kept d' (.reached loc e) (.reached loc e')
  /-- Something was put where nothing was. -/
  | free {loc : Location} {e : Entry} (h : d'.get? loc = some e) (hlink : e.isLink = false) :
      Kept d' (.free loc) (.reached loc e)
  | detour (dir : Location) (target : String) (rest : List String) :
      Kept d' (.detour dir target rest) (.detour dir target rest)

/-- What the entry of a name in the directory `dir` comes to. -/
def enter (d : Disk) (follow : Bool) (dir loc : Location) (rest : List String) :
    Option Entry → Except OsError Stop
  | none => if rest.isEmpty then .ok (.free loc) else .error .notFound
  | some .directory => d.tread follow loc rest
  | some (.file serial content) =>
    if rest.isEmpty then .ok (.reached loc (.file serial content)) else .error .notDirectory
  | some (.link target) =>
    if rest.isEmpty && !follow then .ok (.reached loc (.link target)) else .ok (.detour dir target rest)

theorem tread_enter {step : String} (hempty : step ≠ "") (hdot : step ≠ ".") (hup : step ≠ "..")
    (hshort : ¬ maxNameBytes < step.utf8ByteSize) (d : Disk) (follow : Bool) (cur : Location)
    (rest : List String) :
    d.tread follow cur (step :: rest) =
      d.enter follow cur (cur ++ [step]) rest (d.get? (cur ++ [step])) := by
  rw [tread, if_neg hempty, if_neg hdot, if_neg hup, if_neg hshort]
  dsimp only
  cases d.get? (cur ++ [step]) with
  | none => rfl
  | some e => cases e <;> rfl

/-- Whatever the tree, a step fails, or goes on from some directory, or enters a name. -/
theorem tread_cons (step : String) :
    (∃ cause, ∀ (d : Disk) follow cur rest, d.tread follow cur (step :: rest) = .error cause) ∨
    (∃ next : Location → Location, ∀ (d : Disk) follow cur rest,
      d.tread follow cur (step :: rest) = d.tread follow (next cur) rest) ∨
    ∀ (d : Disk) follow cur rest, d.tread follow cur (step :: rest) =
      d.enter follow cur (cur ++ [step]) rest (d.get? (cur ++ [step])) := by
  by_cases hempty : step = ""
  · exact .inl ⟨.notFound, fun d follow cur rest => by simp [tread, hempty]⟩
  by_cases hdot : step = "."
  · exact .inr (.inl ⟨id, fun d follow cur rest => by simp [tread, hdot]⟩)
  by_cases hup : step = ".."
  · exact .inr (.inl ⟨List.dropLast, fun d follow cur rest => by simp [tread, hup]⟩)
  by_cases hlong : maxNameBytes < step.utf8ByteSize
  · exact .inl ⟨.nameTooLong, fun d follow cur rest => by simp [tread, hempty, hdot, hup, hlong]⟩
  exact .inr (.inr (tread_enter hempty hdot hup hlong))

theorem tread_grown {d d' : Disk} (h : Grown d d') {follow : Bool} {cur : Location}
    {steps : List String} {x : Stop} (hx : d.tread follow cur steps = .ok x)
    (hfree : ∀ loc, x = .free loc → ∃ e, d'.get? loc = some e ∧ e.isLink = false) :
    ∃ y, d'.tread follow cur steps = .ok y ∧ x.Kept d' y := by
  induction steps generalizing cur with
  | nil =>
    cases hx
    exact ⟨_, rfl, .reached cur .directory⟩
  | cons step rest ih =>
    rcases tread_cons step with ⟨cause, hstep⟩ | ⟨next, hstep⟩ | hstep
    · rw [hstep] at hx
      cases hx
    · rw [hstep] at hx ⊢
      exact ih hx
    rw [hstep] at hx ⊢
    cases hthere : d.get? (cur ++ [step]) with
    | none =>
      rw [hthere] at hx
      cases rest with
      | cons next rest => cases hx
      | nil =>
        cases hx
        obtain ⟨e, he, hlink⟩ := hfree _ rfl
        refine ⟨.reached (cur ++ [step]) e, ?_, .free he hlink⟩
        rw [he]
        cases e with
        | directory => rfl
        | file serial content => rfl
        | link target => cases hlink
    | some e =>
      obtain ⟨e', he', hsame⟩ := h _ _ hthere
      rw [hthere] at hx
      rw [he']
      cases hsame with
      | directory => exact ih hx
      | file serial c c' =>
        cases rest with
        | cons next rest => cases hx
        | nil =>
          cases hx
          exact ⟨_, rfl, .reached _ (.file _ _ _)⟩
      | link target =>
        -- the link is reached or followed in both trees
        by_cases hlast : (rest.isEmpty && !follow) = true
        · simp only [enter, hlast, if_true] at hx ⊢
          cases hx
          exact ⟨_, rfl, .reached _ (.link _)⟩
        · simp only [enter, hlast] at hx ⊢
          cases hx
          exact ⟨_, rfl, .detour _ _ _⟩

/-- More steps are taken from the directory that the first ones lead to, or behind the link that has to be
followed. -/
theorem tread_append (d : Disk) (follow : Bool) (cur : Location) (xs : List String)
    {ys : List String} (hys : ys ≠ []) :
    d.tread follow cur (xs ++ ys) =
      match d.tread true cur xs with
      | .ok (.reached loc .directory) => d.tread follow loc ys
      | .ok (.reached _ _) => .error .notDirectory
      | .ok (.free _) => .error .notFound
      | .ok (.detour dir target rest) => .ok (.detour dir target (rest ++ ys))
      | .error cause => .error cause := by
  induction xs generalizing cur with
  | nil => rfl
  | cons step rest ih =>
    have hmore : (rest ++ ys).isEmpty = false := by
      cases rest with
      | nil =>
        cases ys with
        | nil => exact absurd rfl hys
        | cons y ys => rfl
      | cons x rest => rfl
    rw [List.cons_append]
    rcases tread_cons step with ⟨cause, hstep⟩ | ⟨next, hstep⟩ | hstep
    · rw [hstep, hstep]
    · rw [hstep, hstep]
      exact ih _
    rw [hstep, hstep]
    cases d.get? (cur ++ [step]) with
    | none => cases rest <;> simp [enter, hys]
    | some e =>
      cases e with
      | directory => exact ih _
      | file serial content => cases rest <;> simp [enter, hys]
      | link target => simp [enter, hmore]

theorem tread_false (d : Disk) (cur : Location) (steps : List String) :
    d.tread false cur steps = d.tread true cur steps ∨
      ∃ loc target dir rest, d.tread false cur steps = .ok (.reached loc (.link target)) ∧
        d.tread true cur steps = .ok (.detour dir target rest) := by
  induction steps generalizing cur with
  | nil => exact .inl rfl
  | cons step rest ih =>
    rcases tread_cons step with ⟨cause, hstep⟩ | ⟨next, hstep⟩ | hstep
    · rw [hstep, hstep]
      exact .inl rfl
    · rw [hstep, hstep]
      exact ih _
    rw [hstep, hstep]
    cases d.get? (cur ++ [step]) with
    | none => exact .inl rfl
    | some e =>
      cases e with
      | directory => exact ih _
      | file serial content => exact .inl rfl
      | link target => cases rest <;> simp [enter]

theorem get?_of_tread_free {d : Disk} {follow : Bool} {cur loc : Location} {steps : List String}
    (h : d.tread follow cur steps = .ok (.free loc)) : d.get? loc = none := by
  induction steps generalizing cur with
  | nil => cases h
  | cons step rest ih =>
    rcases tread_cons step with ⟨cause, hstep⟩ | ⟨next, hstep⟩ | hstep
    · rw [hstep] at h
      cases h
    · rw [hstep] at h
      exact ih h
    rw [hstep] at h
    cases hthere : d.get? (cur ++ [step]) with
    | none =>
      rw [hthere] at h
      cases rest with
      | cons next rest => cases h
      | nil =>
        cases h
        exact hthere
    | some e =>
      rw [hthere] at h
      cases e with
      | directory => exact ih h
      | file serial content => cases rest <;> cases h
      | link target => cases rest <;> cases follow <;> cases h

theorem get?_of_tread_file {d : Disk} {follow : Bool} {cur loc : Location} {steps : List String}
    {serial : Nat} {content : Content}
    (h : d.tread follow cur steps = .ok (.reached loc (.file serial content))) :
    d.get? loc = some (.file serial content) := by
  induction steps generalizing cur with
  | nil => cases h
  | cons step rest ih =>
    rcases tread_cons step with ⟨cause, hstep⟩ | ⟨next, hstep⟩ | hstep
    · rw [hstep] at h
      cases h
    · rw [hstep] at h
      exact ih h
    rw [hstep] at h
    cases hthere : d.get? (cur ++ [step]) with
    | none =>
      rw [hthere] at h
      cases rest <;> cases h
    | some e =>
      rw [hthere] at h
      cases e with
      | directory => exact ih h
      | file serial' content' =>
        cases rest with
        | cons next rest => cases h
        | nil =>
          cases h
          exact hthere
      | link target => cases rest <;> cases follow <;> cases h

/-- Where a path leads once the tree has grown. -/
inductive Place.Kept (d' : Disk) : Place → Place → Prop where
  | present (loc : Location) {e e' : Entry} (h : e.Same e') : Kept d' (.present loc e) (.present loc e')
  /-- Something was put where nothing was. -/
  | absent {loc : Location} {e : Entry} (h : d'.get? loc = some e) (hlink : e.isLink = false) :
      Kept d' (.absent loc) (.present loc e)

theorem walk_grown {d d' : Disk} (h : Grown d d') {follow : Bool} {hops : Nat} {cur : Location}
    {steps : List String} {x : Place} (hx : d.walk follow hops cur steps = .ok x)
    (hfree : ∀ loc, x = .absent loc → ∃ e, d'.get? loc = some e ∧ e.isLink = false) :
    ∃ y, d'.walk follow hops cur steps = .ok y ∧ x.Kept d' y := by
  fun_induction walk d follow hops cur steps with
  | case1 hops cur steps cause hstop => cases hx
  | case2 hops cur steps loc e hstop =>
    cases hx
    obtain ⟨y, hy, hkept⟩ := tread_grown h hstop (fun _ heq => by cases heq)
    cases hkept with
    | reached _ hsame => exact ⟨_, by rw [walk, hy], .present loc hsame⟩
  | case3 hops cur steps loc hstop =>
    cases hx
    obtain ⟨y, hy, hkept⟩ := tread_grown h hstop fun q hq => hfree q (by cases hq; rfl)
    cases hkept with
    | free hthere hlink => exact ⟨_, by rw [walk, hy], .absent hthere hlink⟩
  | case4 cur steps dir target rest hstop => cases hx
  | case5 cur steps dir target rest hstop hops ih =>
    obtain ⟨y, hy, hkept⟩ := tread_grown h hstop (fun _ heq => by cases heq)
    cases hkept
    obtain ⟨z, hz, hkept⟩ := ih hx
    exact ⟨z, by rw [walk, hy]; exact hz, hkept⟩

/-- A walk with more steps goes on from the directory that the first ones lead to, or behind the link that
has to be followed. -/
theorem walk_append_steps (d : Disk) (follow : Bool) (hops : Nat) (cur : Location) (xs : List String)
    {ys : List String} (hys : ys ≠ []) :
    d.walk follow hops cur (xs ++ ys) =
      match d.tread true cur xs with
      | .ok (.reached loc .directory) => d.walk follow hops loc ys
      | .ok (.reached _ _) => .error .notDirectory
      | .ok (.free _) => .error .notFound
      | .ok (.detour dir target rest) =>
        match hops with
        | 0 => .error .linkLoop
        | hops + 1 =>
          d.walk follow hops (linkStart dir target)
            (((OsPath.ofText target).lookupSteps ++ rest) ++ ys)
      | .error cause => .error cause := by
  rw [walk, tread_append d follow cur xs hys]
  cases d.tread true cur xs with
  | error cause => rfl
  | ok stop =>
    cases stop with
    | reached loc e =>
      cases e with
      | directory => exact (walk.eq_def d follow hops loc ys).symm
      | file serial content => rfl
      | link target => rfl
    | free loc => rfl
    | detour dir target rest =>
      cases hops with
      | zero => rfl
      | succ hops =>
        exact congrArg (d.walk follow hops (linkStart dir target)) (List.append_assoc _ rest ys).symm

/-- Behind all steps, one that stays asks for a directory. -/
theorem walk_append_dot (d : Disk) (hops : Nat) (cur : Location) (steps : List String) :
    d.walk true hops cur (steps ++ ["."]) =
      match d.walk true hops cur steps with
      | .ok (.present loc .directory) => .ok (.present loc .directory)
      | .ok (.present _ _) => .error .notDirectory
      | .ok (.absent _) => .error .notFound
      | .error cause => .error cause := by
  have hdot : ["."] ≠ [] := List.cons_ne_nil _ _
  fun_induction walk d true hops cur steps with
  | case1 hops cur steps cause hstop => rw [walk_append_steps d true hops cur steps hdot, hstop]
  | case2 hops cur steps loc e hstop =>
    rw [walk_append_steps d true hops cur steps hdot, hstop]
    cases e with
    | directory => exact walk.eq_def d true hops loc ["."]
    | file serial content => rfl
    | link target => rfl
  | case3 hops cur steps loc hstop => rw [walk_append_steps d true hops cur steps hdot, hstop]
  | case4 cur steps dir target rest hstop => rw [walk_append_steps d true 0 cur steps hdot, hstop]
  | case5 cur steps dir target rest hstop hops ih =>
    rw [walk_append_steps d true (hops + 1) cur steps hdot, hstop]
    exact ih

theorem walk_false_of_present {d : Disk} {hops : Nat} {cur loc : Location} {steps : List String}
    {e : Entry} (h : d.walk true hops cur steps = .ok (.present loc e)) :
    ∃ q x, d.walk false hops cur steps = .ok (.present q x) := by
  fun_induction walk d true hops cur steps with
  | case1 hops cur steps cause hstop => cases h
  | case2 hops cur steps q x hstop =>
    rcases tread_false d cur steps with heq | ⟨p, target, dir, rest, hfalse, htrue⟩
    · exact ⟨q, x, by rw [walk, heq, hstop]⟩
    · exact ⟨p, .link target, by rw [walk, hfalse]⟩
  | case3 hops cur steps q hstop => cases h
  | case4 cur steps dir target rest hstop => cases h
  | case5 cur steps dir target rest hstop hops ih =>
    rcases tread_false d cur steps with heq | ⟨p, target, dir, rest, hfalse, htrue⟩
    · obtain ⟨q, x, hq⟩ := ih h
      exact ⟨q, x, by rw [walk, heq, hstop]; exact hq⟩
    · exact ⟨p, .link target, by rw [walk, hfalse]⟩

theorem walk_true_of_absent {d : Disk} {hops : Nat} {cur loc : Location} {steps : List String}
    (h : d.walk false hops cur steps = .ok (.absent loc)) :
    d.walk true hops cur steps = .ok (.absent loc) ∧ d.get? loc = none := by
  fun_induction walk d false hops cur steps with
  | case1 hops cur steps cause hstop => cases h
  | case2 hops cur steps q x hstop => cases h
  | case3 hops cur steps q hstop =>
    cases h
    rcases tread_false d cur steps with heq | ⟨p, target, dir, rest, hfalse, htrue⟩
    · exact ⟨by rw [walk, ← heq, hstop], get?_of_tread_free hstop⟩
    · rw [hfalse] at hstop
      cases hstop
  | case4 cur steps dir target rest hstop => cases h
  | case5 cur steps dir target rest hstop hops ih =>
    rcases tread_false d cur steps with heq | ⟨p, target, dir, rest, hfalse, htrue⟩
    · obtain ⟨hq, hnone⟩ := ih h
      exact ⟨by rw [walk, ← heq, hstop]; exact hq, hnone⟩
    · rw [hfalse] at hstop
      cases hstop

/-- Where a file that may have to be created lies once the tree has grown. -/
theorem locateFileFrom_grown {d d' : Disk} (h : Grown d d') {hops : Nat} {cur : Location}
    {p : OsPath} {x : Place} (hx : d.locateFileFrom hops cur p = .ok x)
    (hfree : ∀ loc, x = .absent loc → ∃ e, d'.get? loc = some e ∧ e.isLink = false) :
    ∃ y, d'.locateFileFrom hops cur p = .ok y ∧ x.Kept d' y := by
  fun_induction locateFileFrom d hops cur p with
  | case1 hops cur p hslash place hplace => cases hx
  | case2 hops cur p hslash cause hplace => cases hx
  | case3 hops cur p hslash cause hstop => cases hx
  | case4 hops cur p hslash loc e hstop =>
    cases hx
    obtain ⟨y, hy, hkept⟩ := tread_grown h hstop (fun _ heq => by cases heq)
    cases hkept with
    | reached _ hsame => exact ⟨_, by rw [locateFileFrom, if_neg hslash, hy], .present loc hsame⟩
  | case5 hops cur p hslash loc hstop =>
    cases hx
    obtain ⟨y, hy, hkept⟩ := tread_grown h hstop fun q hq => hfree q (by cases hq; rfl)
    cases hkept with
    | free hthere hlink =>
      exact ⟨_, by rw [locateFileFrom, if_neg hslash, hy], .absent hthere hlink⟩
  | case6 cur p hslash dir target rest hstop => cases hx
  | case7 cur p hslash dir target rest hstop hops ih =>
    obtain ⟨y, hy, hkept⟩ := tread_grown h hstop (fun _ heq => by cases heq)
    cases hkept
    obtain ⟨z, hz, hkept⟩ := ih hx
    exact ⟨z, by rw [locateFileFrom, if_neg hslash, hy]; exact hz, hkept⟩

theorem get?_of_locateFileFrom_absent {d : Disk} {hops : Nat} {cur loc : Location} {p : OsPath}
    (h : d.locateFileFrom hops cur p = .ok (.absent loc)) : d.get? loc = none := by
  fun_induction locateFileFrom d hops cur p with
  | case1 hops cur p hslash place hplace => cases h
  | case2 hops cur p hslash cause hplace => cases h
  | case3 hops cur p hslash cause hstop => cases h
  | case4 hops cur p hslash q e hstop => cases h
  | case5 hops cur p hslash q hstop =>
    cases h
    exact get?_of_tread_free hstop
  | case6 cur p hslash dir target rest hstop => cases h
  | case7 cur p hslash dir target rest hstop hops ih => exact ih h

theorem get?_of_locateFileFrom_file {d : Disk} {hops : Nat} {cur loc : Location} {p : OsPath}
    {serial : Nat} {content : Content}
    (h : d.locateFileFrom hops cur p = .ok (.present loc (.file serial content))) :
    d.get? loc = some (.file serial content) := by
  fun_induction locateFileFrom d hops cur p with
  | case1 hops cur p hslash place hplace => cases h
  | case2 hops cur p hslash cause hplace => cases h
  | case3 hops cur p hslash cause hstop => cases h
  | case4 hops cur p hslash q e hstop =>
    cases h
    exact get?_of_tread_file hstop
  | case5 hops cur p hslash q hstop => cases h
  | case6 cur p hslash dir target rest hstop => cases h
  | case7 cur p hslash dir target rest hstop hops ih => exact ih h

/-! ## Directories -/

theorem walk_lookupSteps {d : Disk} {hops : Nat} {cur loc : Location} {p : OsPath} :
    d.walk true hops cur p.lookupSteps = .ok (.present loc .directory) ↔
      d.walk true hops cur p.steps = .ok (.present loc .directory) := by
  unfold OsPath.lookupSteps
  split
  · rw [walk_append_dot]
    cases d.walk true hops cur p.steps with
    | error cause => simp
    | ok place =>
      cases place with
      | absent q => simp
      | present q e => cases e <;> simp
  · exact Iff.rfl

theorem isDirectory_iff {d : Disk} {p : OsPath} : d.isDirectory p = true ↔
    p.check = .ok () ∧ ∃ loc, d.walk true maxLinks [] p.steps = .ok (.present loc .directory) := by
  have hfind : d.isDirectory p = true ↔
      p.check = .ok () ∧ ∃ loc, d.walk true maxLinks [] p.lookupSteps = .ok (.present loc .directory) := by
    unfold isDirectory find locate
    cases p.check with
    | error cause => simp
    | ok u =>
      cases d.walk true maxLinks [] p.lookupSteps with
      | error cause => simp
      | ok place =>
        cases place with
        | absent q => simp
        | present q e => cases e <;> simp
  rw [hfind]
  simp only [walk_lookupSteps]

theorem isDirectory_grown {d d' : Disk} (h : Grown d d') {p : OsPath}
    (hp : d.isDirectory p = true) : d'.isDirectory p = true := by
  rw [isDirectory_iff] at hp ⊢
  obtain ⟨hcheck, loc, hwalk⟩ := hp
  obtain ⟨y, hy, hkept⟩ := walk_grown h hwalk (fun _ heq => by cases heq)
  cases hkept with
  | present _ hsame =>
    cases hsame
    exact ⟨hcheck, loc, hy⟩

theorem makeDirectory_of_isDirectory {d : Disk} {p : OsPath} (h : d.isDirectory p = true) :
    d.makeDirectory p = .error .exists := by
  obtain ⟨hcheck, loc, hwalk⟩ := isDirectory_iff.mp h
  obtain ⟨q, x, hq⟩ := walk_false_of_present hwalk
  simp only [makeDirectory, locateName, hcheck, hq]

/-- A directory that is made is there, where nothing was. -/
theorem makeDirectory_eq_ok {d d' : Disk} {p : OsPath} (h : d.makeDirectory p = .ok d') :
    d'.isDirectory p = true ∧ ∃ loc, d.get? loc = none ∧ d' = d.set loc .directory := by
  unfold makeDirectory locateName at h
  cases hcheck : p.check with
  | error cause => simp [hcheck] at h
  | ok u =>
    rw [hcheck] at h
    cases hwalk : d.walk false maxLinks [] p.steps with
    | error cause => simp [hwalk] at h
    | ok place =>
      rw [hwalk] at h
      cases place with
      | present q e => cases h
      | absent loc =>
        cases h
        obtain ⟨htrue, hnone⟩ := walk_true_of_absent hwalk
        have hthere : (d.set loc .directory).get? loc = some .directory := by
          have hloc : loc ≠ [] := by
            rintro rfl
            simp at hnone
          rw [get?_set d hloc, if_pos rfl]
        refine ⟨isDirectory_iff.mpr ⟨hcheck, loc, ?_⟩, loc, hnone, rfl⟩
        obtain ⟨y, hy, hkept⟩ := walk_grown (grown_set hnone .directory) htrue
          fun q hq => ⟨.directory, by cases hq; exact hthere, rfl⟩
        cases hkept with
        | absent hthere' hlink =>
          rw [hthere] at hthere'
          cases hthere'
          exact hy

end Disk

end ResumableUpload
