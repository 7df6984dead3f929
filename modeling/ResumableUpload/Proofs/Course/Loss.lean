import ResumableUpload.Proofs.Course.Ledger

/-
  Loss — what a dropped pump takes with it

  A pump that is dropped has taken a fragment off the queue. The fragment is
  not put back, nothing is written of it that counts, and no event reports it:
  it is lost. It may be the fragment of another caller, one that was told that
  the pump is writing. Every other fragment still waits, is counted in the
  coverage or was reported.

  What is held:
    1. `accounted` — the places of the fragments that wait, are counted or were
       reported; `Log.lost` — those of the fragments that a dropped pump had in
       hand.

  What is proved:
    1. `Ledger.count_accepted` — what was accepted is accounted, in hand or lost.
    2. `dropped_pump_loses_its_hand` — what a drop loses, and nothing more.
    3. `dropped_pump_loses_what_it_promised` — the fragment of a caller that was
       told to rely on the pump is lost.
-/

namespace ResumableUpload

/-- The place of a fragment: its position and its length. -/
def Fragment.place (f : Fragment) : Nat × Nat := (f.position, f.len)

/-- The places of the fragments that dropped pumps had in hand. -/
def Log.lost (l : Log) : List (Nat × Nat) := (l.ended .abandoned).map fun s => s.fragment.place

/-- The places of the fragments that wait, are counted in the coverage, or were reported as failed. -/
def accounted (log : Log) (r : Record) : List (Nat × Nat) :=
  r.queue.toList.map Fragment.place ++ (r.coverage.ranges.map fun x => (x.start, x.length)) ++
    (log.told.filterMap Event.failure?).map Prod.snd

theorem Log.perm_ended (l : Log) :
    l.settled.Perm (l.ended .written ++ (l.ended .failed ++ l.ended .abandoned)) := by
  unfold ended
  induction l.settled with
  | nil => exact .refl _
  | cons s rest ih =>
    rcases s with ⟨n, f, _ | _ | _⟩
    · exact ih.cons _
    · exact (ih.cons _).trans List.perm_middle.symm
    · apply (ih.cons _).trans
      rw [← List.append_assoc, ← List.append_assoc]
      exact List.perm_middle.symm

/-- Every fragment accepted is accounted, in hand or lost, and only one of them. -/
theorem Ledger.count_accepted {log : Log} {held : List Fragment} {r : Record}
    (h : Ledger log held r) (p : Nat × Nat) :
    (log.accepted.map Fragment.place).count p =
      (accounted log r).count p + (held.map Fragment.place).count p + log.lost.count p := by
  have hwritten : (r.coverage.ranges.map fun x => (x.start, x.length)) =
      (log.ended .written).map fun s => s.fragment.place := by
    rw [h.coverage, List.map_map]
    apply List.map_congr_left
    intro s _
    exact Prod.ext rfl s.fragment.length_range
  have hfailed : (log.told.filterMap Event.failure?).map Prod.snd =
      (log.ended .failed).map fun s => s.fragment.place := by
    rw [h.failures, List.map_map]
    rfl
  have hsettled : ((log.settled.map Settlement.fragment).map Fragment.place).count p =
      ((log.ended .written).map fun s => s.fragment.place).count p +
        (((log.ended .failed).map fun s => s.fragment.place).count p + log.lost.count p) := by
    have hperm := log.perm_ended.map fun s => s.fragment.place
    rw [List.map_append, List.map_append] at hperm
    rw [List.map_map, show Fragment.place ∘ Settlement.fragment = fun s => s.fragment.place from rfl,
      hperm.count_eq, List.count_append, List.count_append]
    rfl
  rw [h.accepted, List.map_append, List.map_append, List.count_append, List.count_append, hsettled,
    accounted, hwritten, hfailed, List.count_append, List.count_append]
  omega

namespace Course

theorem writing_abandon {c : Course} {u : Underway} {q : String} {r : Record}
    (hid : Identity c.view) (hu : u ∈ c.live)
    (hr : (c.abandon u).engine.registry.find? q = some r) (hserved : r.id = u.flight.pump.id) :
    r.writing = false := by
  have hpath : ∀ s, c.engine.registry.find? q = some s → s.id = u.flight.pump.id →
      q = u.flight.pump.path := by
    intro s hs hsid
    exact hid.hand_path u.hand (List.mem_map_of_mem hu) q s hs hsid
  have hr : (c.engine.abandon u.flight).registry.find? q = some r := hr
  unfold Engine.abandon at hr
  split at hr
  · rename_i hnone
    have hq := hpath r hr hserved
    rw [hq] at hr
    exact absurd hserved (Registry.owned?_eq_none_iff.mp hnone r hr)
  · have hr : (c.engine.registry.modify u.flight.pump.path fun s => s.withWriting false).find? q =
        some r := hr
    rcases Registry.find?_modify_some hr with ⟨-, s, -, rfl⟩ | ⟨hq, hr⟩
    · rfl
    · exact absurd (hpath r hr hserved) hq

theorem lost_abandon (c : Course) (u : Underway) :
    ((c.abandon u).history.of u.flight.pump.id).lost =
      (c.history.of u.flight.pump.id).lost ++ [u.flight.fragment.place] := by
  have hnews : c.engine.news (c.engine.abandon u.flight) = [] :=
    Engine.news_of_sent (by rw [Engine.feed_abandon, List.append_nil])
  unfold abandon onward
  dsimp only
  rw [hnews, History.of_noting_self, Log.lost, Log.ended_append, List.map_append]
  rfl

end Course

/-- A dropped pump loses the fragment in its hand. Of all the fragments that its upload accepted, those
of every caller, a fragment waits, is counted or was reported exactly if no dropped pump had it in
hand. -/
theorem dropped_pump_loses_its_hand (disk : Disk) (storage : Storage)
    (writers maxSize capacity : Nat) (moves : List Move) (n : Nat) (u : Underway) (q : String)
    (r : Record) :
    let c := (Course.new (.new disk storage writers maxSize capacity)).run moves
    let after := c.step (.drop n)
    c.find? n = some u → after.engine.registry.find? q = some r → r.id = u.flight.pump.id →
    (after.history.of r.id).lost = (c.history.of r.id).lost ++ [u.flight.fragment.place] ∧
    ∀ p, ((after.history.of r.id).accepted.map Fragment.place).count p ≤
      (accounted (after.history.of r.id) r).count p ↔ p ∉ (after.history.of r.id).lost := by
  intro c after hu hr hserved
  have hafter : after = c.abandon u := by
    show (c.find? n).elim c c.abandon = _
    rw [hu]
    rfl
  have hlive : u ∈ c.live := List.mem_of_find?_eq_some hu
  constructor
  · rw [hafter, hserved]
    exact c.lost_abandon u
  · have hfree : r.writing = false := by
      rw [hafter] at hr
      exact Course.writing_abandon (identity_run _ rfl moves) hlive hr hserved
    have hrun : after = (Course.new (.new disk storage writers maxSize capacity)).run
        (moves ++ [.drop n]) := (Course.run_concat _ moves _).symm
    have hslots : Slots (max writers 1) after.view := by
      rw [hrun]
      exact slots_run (.new disk storage writers maxSize capacity) rfl _
    have hnone : inHand after.view.hands r.id = [] := by
      apply inHand_eq_nil
      rw [hslots.served q r hr, hfree]
      rfl
    have hledger : Ledger (after.history.of r.id) (inHand after.view.hands r.id) r := by
      rw [hrun]
      rw [hrun] at hr
      exact ledgers_run _ rfl _ q r hr
    rw [hnone] at hledger
    intro p
    rw [hledger.count_accepted p, ← List.count_eq_zero (l := (after.history.of r.id).lost)]
    simp only [List.map_nil, List.count_nil]
    omega

/-- Two callers send a half each. The pump of the first writes its half, and takes the other. -/
def twoHalves : List Move :=
  [.init "a" 8 0 "a", .submit "a" ⟨0, #[1, 2, 3, 4]⟩, .submit "a" ⟨4, #[5, 6, 7, 8]⟩,
    .turn 0, .turn 0, .turn 0, .turn 0]

/-- The course of the two halves, where one upload writes at a time. -/
def halfway : Course := (Course.new (.new .empty ⟨"up"⟩ 1 100 16)).run twoHalves

theorem halfway_live : (halfway.find? 0).isSome = true := by decide

theorem halfway_there :
    ((halfway.step (.drop 0)).engine.registry.find? "a").isSome = true := by decide

/-- The pump that wrote the first half is dropped with the second in its hand. -/
theorem dropped_pump_loses_second_half :
    let u := (halfway.find? 0).get halfway_live
    let r := ((halfway.step (.drop 0)).engine.registry.find? "a").get halfway_there
    let log := (halfway.step (.drop 0)).history.of r.id
    r.id = u.flight.pump.id ∧ log.lost = (halfway.history.of r.id).lost ++ [u.flight.fragment.place] ∧
      ∀ p, (log.accepted.map Fragment.place).count p ≤ (accounted log r).count p ↔ p ∉ log.lost := by
  intro u r log
  have hid : r.id = u.flight.pump.id := by decide
  exact ⟨hid, dropped_pump_loses_its_hand .empty ⟨"up"⟩ 1 100 16 twoHalves 0 u "a" r
    (Option.some_get halfway_live).symm (Option.some_get halfway_there).symm hid⟩

/-- So it is not true that a dropped pump loses nothing: the second half was accepted, and its caller
was told that the pump would write it. -/
theorem dropped_pump_loses_what_it_promised :
    ¬ ∀ (disk : Disk) (storage : Storage) (writers maxSize capacity : Nat) (moves : List Move)
      (n : Nat) (u : Underway) (q : String) (r : Record),
      let c := (Course.new (.new disk storage writers maxSize capacity)).run moves
      let after := c.step (.drop n)
      c.find? n = some u → after.engine.registry.find? q = some r → r.id = u.flight.pump.id →
      ∀ p, ((after.history.of r.id).accepted.map Fragment.place).count p ≤
        (accounted (after.history.of r.id) r).count p := by
  intro h
  have hsecond := h .empty ⟨"up"⟩ 1 100 16 twoHalves 0 ((halfway.find? 0).get halfway_live) "a"
    (((halfway.step (.drop 0)).engine.registry.find? "a").get halfway_there)
    (Option.some_get halfway_live).symm (Option.some_get halfway_there).symm (by decide) (4, 4)
  revert hsecond
  decide

end ResumableUpload
