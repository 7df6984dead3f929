import ResumableUpload.Proofs.Course.Change

/-
  Stirs — what a move does to the pumps

  Most moves leave the pumps where they are. The others begin pumps, let one go
  on, drop one, or carry out what a dropped one had asked for. A proof about the
  pumps goes by these cases and not by the moves.

  What is held:
    1. `Course.Stirs` — the ways in which a move touches the pumps, each with
       what the move comes to.

  What is proved:
    1. `stirs` — every move is one of them.
-/

namespace ResumableUpload

namespace Course

/-- What a move does to the pumps. -/
inductive Stirs (c : Course) (m : Move) : Prop where
  /-- They stay where they are. -/
  | rests (hlive : (c.step m).live = c.live) (hadrift : (c.step m).adrift = c.adrift)
  /-- A pump is begun, for which a fragment may just have been accepted. -/
  | begins (c₀ : Course) {path : String} (hlive : c₀.live = c.live)
      (hadrift : c₀.adrift = c.adrift) (hnext : c₀.nextPump = c.nextPump)
      (hknown : c₀.engine.registry.find? path ≠ none → c.engine.registry.find? path ≠ none)
      (hstep : c.step m = c₀.begin path)
  | beginsMany (hm : m = .pumpPending)
      (hstep : c.step m = c.engine.registry.pendingPaths.foldl begin c)
  | turns {u : Underway} (hm : m = .turn u.number) (hu : c.find? u.number = some u)
      (hstep : c.step m = c.turn u)
  | faults {u : Underway} {fault : DiskFault} (hm : m = .fault u.number fault)
      (hu : c.find? u.number = some u) (hstep : c.step m = c.fault u fault)
  | drops {u : Underway} (hm : m = .drop u.number) (hu : c.find? u.number = some u)
      (hstep : c.step m = c.abandon u)
  /-- What a dropped pump had asked for is carried out, or fails. -/
  | catches {u : Underway} {fault : Option DiskFault} (hm : m = .late u.number fault)
      (hu : c.owing? u.number = some u) (hstep : c.step m = c.overdue u fault)

theorem Stirs.of_eq {c : Course} {m : Move} (h : c.step m = c) : c.Stirs m :=
  .rests (congrArg live h) (congrArg adrift h)

theorem number_of_owing? {c : Course} {n : Nat} {u : Underway} (h : c.owing? n = some u) :
    u.number = n := by
  have := List.find?_some h
  exact of_decide_eq_true this

theorem pumps_registered {ε : Type} (c : Course) (x : Except ε (Engine × Ticket)) :
    (c.registered x).live = c.live ∧ (c.registered x).adrift = c.adrift := by
  cases x <;> exact ⟨rfl, rfl⟩

theorem pumps_removed (c : Course) (path : String) (e : Engine) :
    (c.removed path e).live = c.live ∧ (c.removed path e).adrift = c.adrift := by
  unfold removed
  split <;> exact ⟨rfl, rfl⟩

theorem stirs (c : Course) (m : Move) : c.Stirs m := by
  cases m with
  | init path size owner clientPath =>
    obtain ⟨hlive, hadrift⟩ := pumps_registered c (c.engine.init path size owner clientPath)
    exact .rests hlive hadrift
  | initWithin quota path size owner clientPath =>
    obtain ⟨hlive, hadrift⟩ :=
      pumps_registered c (c.engine.initWithin quota path size owner clientPath)
    exact .rests hlive hadrift
  | submit path f =>
    cases haccept : c.accept path f with
    | none =>
      exact .of_eq (by simp only [step, haccept, Option.map_none, Option.getD_none])
    | some c₀ =>
      have hstep : c.step (.submit path f) = c₀.begin path := by
        simp only [step, haccept, Option.map_some, Option.getD_some]
      unfold accept at haccept
      split at haccept
      · rename_i e r _ hr
        cases haccept
        have hknown : c.engine.registry.find? path ≠ none := by
          rw [hr]
          exact Option.some_ne_none r
        exact .begins (c.onward e r.id [.accepted f]) rfl rfl rfl (fun _ => hknown) hstep
      · cases haccept
  | pump path => exact .begins c rfl rfl rfl id rfl
  | pumpPending => exact .beginsMany rfl rfl
  | turn n =>
    cases hn : c.find? n with
    | none =>
      exact .of_eq (by simp only [step, hn, Option.elim_none])
    | some u =>
      obtain rfl := number_of_find? hn
      exact .turns rfl hn (by simp only [step, hn, Option.elim_some])
  | fault n fault =>
    cases hn : c.find? n with
    | none =>
      exact .of_eq (by simp only [step, hn, Option.elim_none])
    | some u =>
      obtain rfl := number_of_find? hn
      exact .faults rfl hn (by simp only [step, hn, Option.elim_some])
  | drop n =>
    cases hn : c.find? n with
    | none =>
      exact .of_eq (by simp only [step, hn, Option.elim_none])
    | some u =>
      obtain rfl := number_of_find? hn
      exact .drops rfl hn (by simp only [step, hn, Option.elim_some])
  | late n fault =>
    cases hn : c.owing? n with
    | none =>
      exact .of_eq (by simp only [step, hn, Option.elim_none])
    | some u =>
      obtain rfl := number_of_owing? hn
      exact .catches rfl hn (by simp only [step, hn, Option.elim_some])
  | remove path =>
    obtain ⟨hlive, hadrift⟩ := pumps_removed c path (c.engine.remove path)
    exact .rests hlive hadrift
  | discard path =>
    obtain ⟨hlive, hadrift⟩ := pumps_removed c path (c.engine.discard path).1
    exact .rests hlive hadrift
  | outside disk => exact .rests rfl rfl
  | listen cursors => exact .rests rfl rfl

end Course

end ResumableUpload
