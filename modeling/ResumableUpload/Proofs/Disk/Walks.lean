import ResumableUpload.Proofs.Disk.Growth

/-
  Walks — a longer path goes on from where the shorter one leads

  A path is taken step by step, and its links are followed as they come up. So
  where the first steps lead to a directory, the steps behind them are taken
  from there, with the links that may still be followed. This holds of look-ups
  and of files that may have to be created, though the two read the target of a
  link in different ways.

  What is proved:
    1. `walk_append`, `walk_prefix` — a walk goes on from a directory, and every
       part of a walk to a directory leads to one.
    2. `walk_insert_dot` — a step that stays makes no difference on the way to a
       directory.
    3. `locateFileFrom_append` — a file is looked for from where its directory
       is.
-/

namespace ResumableUpload

namespace Disk

variable {d : Disk} {follow : Bool} {hops : Nat} {cur base : Location} {xs ys : List String}

/-- What is left behind a link are the last steps. -/
theorem suffix_of_detour {dir : Location} {target : String} {rest : List String}
    (h : d.tread follow cur xs = .ok (.detour dir target rest)) : rest <:+ xs := by
  induction xs generalizing cur with
  | nil => cases h
  | cons step more ih =>
    rcases tread_cons step with ⟨cause, hstep⟩ | ⟨next, hstep⟩ | hstep
    · rw [hstep] at h
      cases h
    · rw [hstep] at h
      exact (ih h).trans (List.suffix_cons step more)
    rw [hstep] at h
    cases hthere : d.get? (cur ++ [step]) with
    | none =>
      rw [hthere] at h
      cases more <;> cases h
    | some e =>
      rw [hthere] at h
      cases e with
      | directory => exact (ih h).trans (List.suffix_cons step more)
      | file serial content => cases more <;> cases h
      | link text =>
        simp only [enter] at h
        split at h
        · cases h
        · cases h
          exact List.suffix_cons step _

/-- A walk goes on from the directory that its first steps lead to. -/
theorem walk_append (h : d.walk true hops cur xs = .ok (.present base .directory)) :
    ∃ n, ∀ follow ys, ys ≠ [] → d.walk follow hops cur (xs ++ ys) = d.walk follow n base ys := by
  fun_induction walk d true hops cur xs with
  | case1 hops cur xs cause hstop => cases h
  | case2 hops cur xs loc e hstop =>
    cases h
    refine ⟨hops, fun follow ys hys => ?_⟩
    rw [walk_append_steps d follow hops cur xs hys, hstop]
  | case3 hops cur xs loc hstop => cases h
  | case4 cur xs dir target rest hstop => cases h
  | case5 cur xs dir target rest hstop hops ih =>
    obtain ⟨n, hn⟩ := ih h
    refine ⟨n, fun follow ys hys => ?_⟩
    rw [walk_append_steps d follow (hops + 1) cur xs hys, hstop]
    exact hn follow ys hys

/-- The way to a directory leads through directories. -/
theorem walk_prefix (h : d.walk true hops cur (xs ++ ys) = .ok (.present base .directory)) :
    ∃ loc, d.walk true hops cur xs = .ok (.present loc .directory) := by
  by_cases hys : ys = []
  · rw [hys, List.append_nil] at h
    exact ⟨base, h⟩
  fun_induction walk d true hops cur xs with
  | case1 hops cur xs cause hstop =>
    rw [walk_append_steps d true hops cur xs hys, hstop] at h
    cases h
  | case2 hops cur xs loc e hstop =>
    rw [walk_append_steps d true hops cur xs hys, hstop] at h
    cases e with
    | directory => exact ⟨loc, rfl⟩
    | file serial content => cases h
    | link target => cases h
  | case3 hops cur xs loc hstop =>
    rw [walk_append_steps d true hops cur xs hys, hstop] at h
    cases h
  | case4 cur xs dir target rest hstop =>
    rw [walk_append_steps d true 0 cur xs hys, hstop] at h
    cases h
  | case5 cur xs dir target rest hstop hops ih =>
    rw [walk_append_steps d true (hops + 1) cur xs hys, hstop] at h
    exact ih h

/-- A step that stays makes no difference on the way to a directory. -/
theorem walk_insert_dot :
    d.walk true hops cur (xs ++ "." :: ys) = .ok (.present base .directory) ↔
      d.walk true hops cur (xs ++ ys) = .ok (.present base .directory) := by
  by_cases hys : ys = []
  · rw [hys, List.append_nil, walk_append_dot]
    cases d.walk true hops cur xs with
    | error cause => simp
    | ok place =>
      cases place with
      | absent loc => simp
      | present loc e => cases e <;> simp
  have hstay : ∀ hops loc, d.walk true hops loc ("." :: ys) = d.walk true hops loc ys := by
    intro hops loc
    have htread : d.tread true loc ("." :: ys) = d.tread true loc ys := by simp [tread]
    rw [walk, walk, htread]
  have hmore : ∀ hops cur xs, d.walk true hops cur (xs ++ "." :: ys) = d.walk true hops cur (xs ++ ys) := by
    intro hops cur xs
    have hdot : "." :: ys ≠ [] := List.cons_ne_nil _ _
    fun_induction walk d true hops cur xs with
    | case1 hops cur xs cause hstop =>
      rw [walk_append_steps d true hops cur xs hys, walk_append_steps d true hops cur xs hdot, hstop]
    | case2 hops cur xs loc e hstop =>
      rw [walk_append_steps d true hops cur xs hys, walk_append_steps d true hops cur xs hdot, hstop]
      cases e with
      | directory => exact hstay hops loc
      | file serial content => rfl
      | link target => rfl
    | case3 hops cur xs loc hstop =>
      rw [walk_append_steps d true hops cur xs hys, walk_append_steps d true hops cur xs hdot, hstop]
    | case4 cur xs dir target rest hstop =>
      rw [walk_append_steps d true 0 cur xs hys, walk_append_steps d true 0 cur xs hdot, hstop]
    | case5 cur xs dir target rest hstop hops ih =>
      rw [walk_append_steps d true (hops + 1) cur xs hys,
        walk_append_steps d true (hops + 1) cur xs hdot, hstop]
      exact ih
  rw [hmore]

/-! ## Files that may have to be created -/

/-- What stands between slashes, where it leads on. -/
def pieceSteps (pieces : List String) : List String := pieces.filter (· ≠ "")

theorem steps_append_names (zs : List String) {names : List String} (hne : names ≠ [])
    (hnames : "" ∉ names) :
    (OsPath.mk (zs ++ names)).slashed = false ∧
      (OsPath.mk (zs ++ names)).steps = pieceSteps zs ++ names := by
  obtain ⟨x, hx⟩ := List.getLast?_isSome.mpr hne |> Option.isSome_iff_exists.mp
  have hlast : (zs ++ names).getLast? = some x := by
    rw [List.getLast?_append, hx]
    rfl
  have hxne : x ≠ "" := by
    rintro rfl
    exact hnames (List.mem_of_getLast? hx)
  have hall : zs ++ names ≠ [""] := by
    intro heq
    rw [heq] at hlast
    exact hxne (Option.some.inj hlast).symm
  have hfilter : names.filter (· ≠ "") = names := by
    rw [List.filter_eq_self]
    intro y hy
    exact decide_eq_true fun h => hnames (h ▸ hy)
  refine ⟨by simp [OsPath.slashed, hlast, hxne], ?_⟩
  rw [OsPath.steps, if_neg hall, List.filter_append, hfilter]
  rfl

theorem walk_target {target : String} {rest : List String} (hrest : "" ∉ rest)
    (h : d.walk true hops cur ((OsPath.ofText target).lookupSteps ++ rest) =
      .ok (.present base .directory)) :
    d.walk true hops cur (pieceSteps (Path.pieces target ++ rest)) = .ok (.present base .directory) := by
  have hfilter : rest.filter (· ≠ "") = rest := by
    rw [List.filter_eq_self]
    intro y hy
    exact decide_eq_true fun h => hrest (h ▸ hy)
  have hsteps : pieceSteps (Path.pieces target ++ rest) = pieceSteps (Path.pieces target) ++ rest := by
    rw [pieceSteps, List.filter_append, hfilter]
    rfl
  rw [hsteps]
  unfold OsPath.lookupSteps OsPath.steps at h
  by_cases hempty : (OsPath.ofText target).pieces = [""]
  · -- the empty step leads nowhere
    have hslash : (OsPath.ofText target).slashed = false := by simp [OsPath.slashed, hempty]
    rw [hslash, if_neg Bool.false_ne_true, if_pos hempty, walk] at h
    simp [tread] at h
  · rw [if_neg hempty] at h
    split at h
    · rw [List.append_assoc] at h
      exact walk_insert_dot.mp h
    · exact h

theorem locateFileFrom_names (d : Disk) (hops : Nat) (cur : Location) (zs : List String)
    {names : List String} (hne : names ≠ []) (hnames : "" ∉ names) :
    d.locateFileFrom hops cur ⟨zs ++ names⟩ =
      match d.tread true cur (pieceSteps zs ++ names) with
      | .error cause => .error cause
      | .ok (.reached loc entry) => .ok (.present loc entry)
      | .ok (.free loc) => .ok (.absent loc)
      | .ok (.detour dir target rest) =>
        match hops with
        | 0 => .error .linkLoop
        | hops + 1 => d.locateFileFrom hops (linkStart dir target) ⟨Path.pieces target ++ rest⟩ := by
  obtain ⟨hslash, hsteps⟩ := steps_append_names zs hne hnames
  have hnot : ¬ (OsPath.mk (zs ++ names)).slashed = true := by simp [hslash]
  rw [← hsteps]
  exact (locateFileFrom.eq_def d hops cur ⟨zs ++ names⟩).trans (if_neg hnot)

theorem reached_of_walk_zero (h : d.walk true 0 cur xs = .ok (.present base .directory)) :
    d.tread true cur xs = .ok (.reached base .directory) := by
  rw [walk] at h
  cases hstop : d.tread true cur xs with
  | error cause => simp [hstop] at h
  | ok stop =>
    rw [hstop] at h
    cases stop <;> cases h
    rfl

/-- A file is looked for from the directory that the steps before its names lead to. -/
theorem locateFileFrom_append {zs names : List String} (hne : names ≠ []) (hnames : "" ∉ names)
    (h : d.walk true hops cur (pieceSteps zs) = .ok (.present base .directory)) :
    ∃ n, d.locateFileFrom hops cur ⟨zs ++ names⟩ = d.locateFileFrom n base ⟨names⟩ := by
  -- by the links that may still be followed: the path behind a link is another one each time
  induction hops generalizing cur zs with
  | zero =>
    refine ⟨0, ?_⟩
    rw [locateFileFrom_names d 0 cur zs hne hnames, tread_append d true cur _ hne,
      reached_of_walk_zero h]
    exact (locateFileFrom_names d 0 base [] hne hnames).symm
  | succ hops ih =>
    rw [locateFileFrom_names d (hops + 1) cur zs hne hnames, tread_append d true cur _ hne]
    rw [walk] at h
    cases hstop : d.tread true cur (pieceSteps zs) with
    | error cause => simp [hstop] at h
    | ok stop =>
      rw [hstop] at h
      cases stop with
      | reached loc e =>
        cases h
        exact ⟨hops + 1, (locateFileFrom_names d (hops + 1) base [] hne hnames).symm⟩
      | free loc => cases h
      | detour dir target rest =>
        have hrest : "" ∉ rest := by
          intro hmem
          have hsome := (suffix_of_detour hstop).subset hmem
          simpa using (List.mem_filter.mp hsome).2
        obtain ⟨n, hn⟩ := ih (walk_target hrest h)
        refine ⟨n, ?_⟩
        rw [← hn, List.append_assoc]

end Disk

end ResumableUpload
