import ResumableUpload.Proofs.Course.Endings
import ResumableUpload.Proofs.Course.Lasting

/-
  Handover — a fragment for a queue that another is writing

  A caller whose upload is being written leaves its fragment in the queue and
  returns. It relies on the pump under way, and on nobody else: no later call
  need ever come. So the pump may not end while the fragment waits. It does
  not, since it ends in the step in which it finds the queue empty; a fragment
  that comes after that step finds the slot free.

  What is held:
    1. `Handed` — the fragment in such a place of the order of arrival is left
       to such a pump.

  What is proved:
    1. `handed_change` — every change keeps it: the pump has the fragment still
       before it, or has settled it itself.
    2. `handed_of_busy` — it holds when a caller is told that a pump is writing.
    3. `busy_fragment_is_handed_over` — so the fragment is settled when the pump
       ends, and no queue is left without a pump unnoticed.
-/

namespace ResumableUpload

/-- The fragment that came as number `k` to a registration is left to the pump `n`: unless the pump is
dropped or the upload removed, the pump has settled it, or serves the upload and is not past it. -/
structure Handed (n : Nat) (path : String) (id : UploadId) (k : Nat) (f : Fragment) (v : View) :
    Prop where
  number_lt : n < v.nextPump
  id_lt : id < v.registry.nextId
  key : ∀ x ∈ v.keys, x.1 = n → x = (n, path, id)
  accepted : (v.history.of id).accepted[k]? = some f
  awaited : v.registry.Holds id → n ∉ v.history.all.dropped →
    (∃ verdict, verdict ≠ .abandoned ∧ (v.history.of id).settled[k]? = some ⟨n, f, verdict⟩) ∨
      ((v.history.of id).settled.length ≤ k ∧ (n, path, id) ∈ v.keys)

theorem getElem?_append_of_some {α : Type} {l : List α} {k : Nat} {a : α} (h : l[k]? = some a)
    (m : List α) : (l ++ m)[k]? = some a := by
  obtain ⟨hlt, -⟩ := List.getElem?_eq_some_iff.mp h
  rw [List.getElem?_append_left hlt, h]

namespace Handed

variable {n k : Nat} {path : String} {id : UploadId} {f : Fragment} {ceiling : Nat} {v w : View}

theorem key_lasts (h : Handed n path id k f v) (hc : Change ceiling v w) :
    ∀ x ∈ w.keys, x.1 = n → x = (n, path, id) := by
  intro x hx hn
  rcases key_change hc hx with hold | hnext
  · exact h.key x hold hn
  · rw [hn] at hnext
    exact absurd hnext (Nat.ne_of_lt h.number_lt)

/-- A change that settles none of the upload's fragments keeps it, if the pump stays. -/
theorem mono (h : Handed n path id k f v) (hc : Change ceiling v w) {i : UploadId} {log : Log}
    (hhistory : w.history = v.history.noting i log)
    (hquiet : w.registry.Holds id → i = id → log.settled = [])
    (hserve : w.registry.Holds id → (n, path, id) ∈ v.keys → (n, path, id) ∈ w.keys) :
    Handed n path id k f w where
  number_lt := Nat.lt_of_lt_of_le h.number_lt (nextPump_change hc)
  id_lt := Nat.lt_of_lt_of_le h.id_lt (nextId_change hc)
  key := h.key_lasts hc
  accepted := by
    rw [hhistory]
    by_cases hi : i = id
    · rw [hi, History.of_noting_self, Log.accepted_append]
      exact getElem?_append_of_some h.accepted _
    · rw [History.of_noting_of_ne (Ne.symm hi)]
      exact h.accepted
  awaited := by
    intro hholds hdropped
    have hsettled : (w.history.of id).settled = (v.history.of id).settled := by
      rw [hhistory]
      by_cases hi : i = id
      · rw [hi, History.of_noting_self, Log.settled_append, hquiet hholds hi, List.append_nil]
      · rw [History.of_noting_of_ne (Ne.symm hi)]
    have hold : v.registry.Holds id :=
      (holds_change hc hholds).resolve_right (Nat.not_le.mpr h.id_lt)
    have hnot : n ∉ v.history.all.dropped := by
      intro hmem
      apply hdropped
      rw [hhistory, History.all_noting, Log.dropped_append]
      exact List.mem_append_left _ hmem
    rw [hsettled]
    rcases h.awaited hold hnot with hdone | ⟨hless, hserves⟩
    · exact .inl hdone
    · exact .inr ⟨hless, hserve hholds hserves⟩

theorem quiet (h : Handed n path id k f v) (hc : Change ceiling v w) (hhistory : w.history = v.history)
    (hserve : w.registry.Holds id → (n, path, id) ∈ v.keys → (n, path, id) ∈ w.keys) :
    Handed n path id k f w := by
  rw [← History.noting_nil v.history id] at hhistory
  exact h.mono hc hhistory (fun _ _ => rfl) hserve

theorem eq_front (hslots : Slots ceiling v) {m : Nat} {p : String} {x : Option Fragment}
    {rest : List Hand} {r : Record} (hh : v.hands = ⟨m, p, id, x⟩ :: rest)
    (hr : v.registry.owned? p id = some r) {q : String} (hmem : (n, q, id) ∈ v.keys) :
    n = m ∧ q = p := by
  obtain ⟨-, hnone⟩ := hslots.front hh hr
  rw [View.keys, hh, List.map_cons] at hmem
  rcases List.mem_cons.mp hmem with hfront | hrest
  · simp only [Hand.key, Prod.mk.injEq] at hfront
    exact ⟨hfront.1, hfront.2.1⟩
  · obtain ⟨y, hy, hkey⟩ := List.mem_map.mp hrest
    simp only [Hand.key, Prod.mk.injEq] at hkey
    have hne := List.countP_eq_zero.mp hnone y hy
    simp [hkey.2.2] at hne

/-- A pump settles the fragment in its hand, and keeps its slot unless it is dropped. -/
theorem settle (h : Handed n path id k f v) (hc : Change ceiling v w) (hsound : Sound ceiling v)
    {m : Nat} {p : String} {i : UploadId} {g : Fragment} {rest : List Hand} {r : Record}
    {verdict : Verdict} {log : Log} (hh : v.hands = ⟨m, p, i, some g⟩ :: rest)
    (hr : v.registry.owned? p i = some r) (hhistory : w.history = v.history.noting i log)
    (hsettled : log.settled = [⟨m, g, verdict⟩])
    (hserve : verdict ≠ .abandoned ∨ i ≠ id → ∀ x ∈ v.keys, x.2.2 = id → x ∈ w.keys) :
    Handed n path id k f w := by
  by_cases hi : i = id
  · subst hi
    refine ⟨Nat.lt_of_lt_of_le h.number_lt (nextPump_change hc),
      Nat.lt_of_lt_of_le h.id_lt (nextId_change hc), h.key_lasts hc, ?_, ?_⟩
    · rw [hhistory, History.of_noting_self, Log.accepted_append]
      exact getElem?_append_of_some h.accepted _
    · intro hholds hdropped
      have hold : v.registry.Holds i :=
        (holds_change hc hholds).resolve_right (Nat.not_le.mpr h.id_lt)
      rw [hhistory, History.all_noting, Log.dropped_append, List.mem_append, not_or] at hdropped
      rw [hhistory, History.of_noting_self, Log.settled_append, hsettled]
      rcases h.awaited hold hdropped.1 with ⟨v, hv, hdone⟩ | ⟨hless, hserves⟩
      · exact .inl ⟨v, hv, getElem?_append_of_some hdone _⟩
      · obtain ⟨rfl, rfl⟩ := eq_front hsound.slots hh hr hserves
        have hverdict : verdict ≠ .abandoned := by
          rintro rfl
          apply hdropped.2
          rw [Log.dropped, Log.ended, hsettled]
          exact List.mem_singleton.mpr rfl
        obtain ⟨hfind, hrid⟩ := Registry.owned?_eq_some_iff.mp hr
        -- the fragment in hand is the next one in the order of arrival
        have hledger := (hsound.ledgers path r hfind).accepted
        rw [hrid, hh, inHand_cons_self, inHand_eq_nil (hsound.slots.front hh hr).2] at hledger
        rcases Nat.lt_or_eq_of_le hless with hbefore | hhere
        · right
          refine ⟨by simp; omega, hserve (.inl hverdict) _ hserves rfl⟩
        · left
          have hthis := h.accepted
          rw [hledger, List.getElem?_append_right (by simp [hhere])] at hthis
          simp [hhere] at hthis
          exact ⟨verdict, hverdict, by simp [← hhere, hthis]⟩
  · refine h.mono hc hhistory (fun _ hne => absurd hne hi) ?_
    intro _ hmem
    exact hserve (.inr hi) _ hmem rfl

end Handed

theorem handed_change {n k : Nat} {path : String} {id : UploadId} {f : Fragment} {ceiling : Nat}
    {v w : View} (hc : Change ceiling v w) (hsound : Sound ceiling v)
    (h : Handed n path id k f v) : Handed n path id k f w := by
  have hchange := hc
  have hfront : ∀ {m p i x rest}, v.hands = (⟨m, p, i, x⟩ :: rest : List Hand) →
      v.keys = (m, p, i) :: rest.map Hand.key := by
    intro m p i x rest hh
    rw [View.keys, hh]
    rfl
  -- a pump that leaves serves another upload, or none
  have hleave : ∀ {m p i x rest}, v.hands = (⟨m, p, i, x⟩ :: rest : List Hand) → i ≠ id →
      (n, path, id) ∈ v.keys → (n, path, id) ∈ rest.map Hand.key := by
    intro m p i x rest hh hne hmem
    rw [hfront hh] at hmem
    refine (List.mem_cons.mp hmem).resolve_left ?_
    intro heq
    exact hne (Prod.mk.inj (Prod.mk.inj heq).2).2.symm
  have hgone : ∀ {m p i x rest}, v.hands = (⟨m, p, i, x⟩ :: rest : List Hand) →
      v.registry.owned? p i = none → v.registry.Holds id → i ≠ id := by
    rintro m p i x rest hh hr ⟨q, r, hfind, rfl⟩ rfl
    have hq := hsound.identity.hand_path ⟨m, p, r.id, x⟩ (by rw [hh]; exact List.mem_cons_self) q r
      hfind rfl
    subst hq
    exact Registry.owned?_eq_none_iff.mp hr r hfind rfl
  cases hc with
  | @register _ _ _ _ _ t hreg =>
    exact h.mono hchange rfl (fun _ _ => Log.settled_told t.news) fun _ hx => hx
  | accept hr hfit => exact h.mono hchange rfl (fun _ _ => rfl) fun _ hx => hx
  | grant hr hfree hroom => exact h.quiet hchange rfl fun _ hx => List.mem_cons_of_mem _ hx
  | take hh hr hpop =>
    refine h.quiet hchange rfl ?_
    intro _ hx
    rw [hfront hh] at hx
    exact hx
  | @release m p i r rest hh hr hempty =>
    by_cases hi : i = id
    · subst hi
      refine ⟨h.number_lt, h.id_lt, h.key_lasts hchange, h.accepted, ?_⟩
      intro _ hdropped
      obtain ⟨hfind, hrid⟩ := Registry.owned?_eq_some_iff.mp hr
      have hhold : v.registry.Holds i := ⟨p, r, hfind, hrid⟩
      refine .inl ((h.awaited hhold hdropped).resolve_right ?_)
      -- where nothing waits and nothing is in hand, all that came is settled
      rintro ⟨hless, -⟩
      have hledger := (hsound.ledgers p r hfind).accepted
      rw [hrid, hh, inHand_cons_self, inHand_eq_nil (hsound.slots.front hh hr).2,
        (FragmentQueue.pop?_eq_none_iff _).mp hempty] at hledger
      have hlength := congrArg List.length hledger
      obtain ⟨hlt, -⟩ := List.getElem?_eq_some_iff.mp h.accepted
      simp at hlength
      omega
    · exact h.quiet hchange rfl fun _ => hleave hh hi
  | write hh hr =>
    refine h.settle hchange hsound hh hr rfl (congrArg _ (Log.settled_told _)) ?_
    intro _ x hx _
    rw [hfront hh] at hx
    exact hx
  | fail cause hh hr =>
    refine h.settle hchange hsound hh hr rfl rfl ?_
    intro _ x hx _
    rw [hfront hh] at hx
    exact hx
  | abandon hh hr =>
    refine h.settle hchange hsound hh hr rfl rfl ?_
    intro hkept x hx hid
    rw [hfront hh] at hx
    refine (List.mem_cons.mp hx).resolve_left ?_
    rintro rfl
    exact hkept.elim (fun hne => hne rfl) fun hne => hne hid
  | stray hh hr =>
    exact h.mono hchange rfl (fun hhold hi => absurd hi (hgone hh hr hhold))
      fun hhold => hleave hh (hgone hh hr hhold)
  | leave hh hr => exact h.quiet hchange rfl fun hhold => hleave hh (hgone hh hr hhold)
  | remove hr => exact h.mono hchange rfl (fun _ _ => rfl) fun _ hx => hx
  | arrange hperm hn => exact h.quiet hchange rfl fun _ hx => (hperm.map Hand.key).mem_iff.mp hx

/-! ## A caller that is told that a pump is writing -/

namespace Engine

/-- A caller is told so where the slot of the upload is taken; its fragment is in the queue. -/
theorem beginSubmit_busy {e : Engine} {path : String} {f : Fragment} {r : Record}
    (hr : e.registry.find? path = some r)
    (h : (e.beginSubmit path f).2 = .ended (.ok .busy)) :
    r.writing = true ∧ ∃ e' notice, e' = (e.modify path fun r => r.enqueue f).note notice ∧
      e.accept path f = .ok e' ∧ e'.begin path = (e', .ended (.ok .busy)) := by
  cases haccept : e.accept path f with
  | error err => simp [beginSubmit, haccept] at h
  | ok e' =>
    simp only [beginSubmit, haccept] at h
    obtain ⟨s, notice, hs, -, he'⟩ := accept_eq_ok haccept
    obtain rfl : s = r := Option.some.inj (hs.symm.trans hr)
    have hthere : e'.registry.find? path = some (s.enqueue f) := by
      rw [he']
      show (e.registry.modify path fun r => r.enqueue f).find? path = _
      rw [Registry.find?_modify, if_pos rfl, hs]
      rfl
    obtain ⟨hnone, -⟩ | ⟨t, ht, ⟨hwriting, hbegin⟩ | ⟨-, hbegin⟩ | ⟨-, -, hbegin⟩⟩ :=
      e'.begin_cases path
    · rw [hthere] at hnone
      cases hnone
    · obtain rfl : s.enqueue f = t := Option.some.inj (hthere.symm.trans ht)
      exact ⟨hwriting, e', notice, he', rfl, hbegin⟩
    · rw [hbegin] at h
      cases h
    · -- a pump that took a slot is never told so
      rw [hbegin] at h
      have howned : (e'.registry.modify path fun r => r.withWriting true).owned? path t.id =
          some (t.withWriting true) := by
        apply Registry.owned?_eq_some_iff.mpr
        rw [Registry.find?_modify, if_pos rfl, ht]
        exact ⟨rfl, rfl⟩
      obtain ⟨_, _, _, _, htells⟩ :=
        takeNext_ended_of_owned (p := ⟨path, t.id, none, none⟩) howned h
      exact htells.elim

end Engine

namespace Course

theorem keys_view (c : Course) :
    c.view.keys = c.live.map fun u => (u.number, u.flight.pump.path, u.flight.pump.id) := by
  rw [View.keys, view, List.map_map]
  rfl

theorem serving_of_writing {c : Course} (hsound : c.Sound) {path : String}
    {r : Record} (hr : c.engine.registry.find? path = some r) (hwriting : r.writing = true) :
    ∃ u, c.serving r.id = [u] ∧ u ∈ c.live ∧ u.flight.pump.path = path ∧
      u.flight.pump.id = r.id := by
  have hserved := hsound.slots.served path r hr
  rw [servers_view, hwriting] at hserved
  obtain ⟨u, hu⟩ := List.length_eq_one_iff.mp hserved
  have hmem : u ∈ c.serving r.id := by
    rw [hu]
    exact List.mem_singleton_self u
  have hlive : u ∈ c.live := List.mem_of_mem_filter hmem
  have hid : u.flight.pump.id = r.id := by simpa using List.of_mem_filter hmem
  exact ⟨u, hu, hlive,
    (hsound.identity.hand_path u.hand (List.mem_map_of_mem hlive) path r hr hid.symm).symm, hid⟩

/-- What a caller is told to rely on. -/
theorem handed_of_busy {c : Course} (hsound : c.Sound) {path : String}
    {f : Fragment} {r : Record} (hr : c.engine.registry.find? path = some r)
    (hbusy : (c.engine.beginSubmit path f).2 = .ended (.ok .busy)) :
    ∃ u, c.serving r.id = [u] ∧ Handed u.number path r.id (c.history.of r.id).accepted.length f
      (c.step (.submit path f)).view := by
  obtain ⟨hwriting, e', notice, he', haccept, hbegin⟩ := Engine.beginSubmit_busy hr hbusy
  obtain ⟨u, hserving, hlive, hpath, hid⟩ := serving_of_writing hsound hr hwriting
  refine ⟨u, hserving, ?_⟩
  have hnews : c.engine.news e' = [] := Engine.news_of_sent (by rw [he']; exact (List.append_nil _).symm)
  have hstep : (c.step (.submit path f)).view = ⟨e'.registry, c.live.map Underway.hand,
      c.nextPump + 1, c.history.noting r.id [.accepted f]⟩ := by
    simp only [step, accept, haccept, hr, Option.map_some, Option.getD_some, Course.begin, onward,
      hbegin, standing, hnews, view]
    rfl
  have hmem : u.number ∈ c.view.pumps :=
    List.mem_append_left _ (List.mem_map_of_mem (List.mem_map_of_mem hlive))
  have hkeys : ∀ x ∈ c.view.keys, x.1 = u.number → x = (u.number, path, r.id) := by
    intro x hx hn
    rw [keys_view] at hx
    obtain ⟨y, hy, rfl⟩ := List.mem_map.mp hx
    obtain rfl : y = u := List.inj_on_of_nodup_map (nodup_numbers hsound.numbering) hy hlive hn
    rw [← hpath, ← hid]
  rw [hstep]
  refine ⟨Nat.lt_succ_of_lt (hsound.numbering.lt _ hmem), ?_, hkeys, ?_, ?_⟩
  · rw [he']
    exact hsound.identity.id_lt path r hr
  · show ((c.history.noting r.id [.accepted f]).of r.id).accepted[_]? = some f
    rw [History.of_noting_self, Log.accepted_append]
    exact List.getElem?_concat_length
  · intro _ _
    right
    show ((c.history.noting r.id [.accepted f]).of r.id).settled.length ≤ _ ∧ _
    rw [History.of_noting_self, Log.settled_append]
    constructor
    · have hledger := congrArg List.length (hsound.ledgers path r hr).accepted
      simp only [List.length_append, List.length_map] at hledger ⊢
      show _ + 0 ≤ (c.view.history.of r.id).accepted.length
      rw [hledger]
      exact Nat.le_add_right _ _
    · show (u.number, path, r.id) ∈ c.view.keys
      rw [keys_view, ← hpath, ← hid]
      exact List.mem_map_of_mem hlive

theorem not_mem_keys_land {c : Course} (hsound : c.Sound)
    {u : Underway} (hfind : c.find? u.number = some u) {result : Except OsError FileWriter}
    {outcome : PumpResult} (hend : (c.engine.land u.flight result).2 = .ended outcome) :
    ∀ x ∈ (c.land u result).view.keys, x.1 ≠ u.number := by
  have hlive : (c.land u result).live = without u.number c.live := by
    show standing u.number (c.engine.land u.flight result).2 ++ _ = _
    rw [hend]
    rfl
  intro x hx hn
  rw [keys_view, hlive] at hx
  obtain ⟨y, hy, rfl⟩ := List.mem_map.mp hx
  exact number_ne_of_without hsound.numbering hfind hy hn

theorem not_mem_dropped {c : Course} (hsound : c.Sound) {u : Underway}
    (hu : u ∈ c.live) : u.number ∉ c.history.all.dropped := by
  intro hmem
  have hnumber : u.number ∈ c.view.hands.map Hand.number :=
    List.mem_map_of_mem (List.mem_map_of_mem hu)
  exact (List.nodup_append.mp hsound.numbering.nodup).2.2 _ hnumber _ hmem rfl

/-- A pump that ends while its upload is there has settled what was left to it. -/
theorem settled_of_handed {c : Course} {n k : Nat} {path : String} {id : UploadId} {f : Fragment}
    {m : Move} {x : Ending} {r : Record} (hsound : c.Sound)
    (hhanded : Handed n path id k f c.view) (hafter : (c.step m).Sound)
    (hhanded' : Handed n path id k f (c.step m).view) (hx : x ∈ c.ends m) (hn : x.number = n)
    (hr : (c.step m).engine.registry.find? path = some r) (hid : r.id = id) :
    r.Idle ∧ r.Tells x.result ∧ Ledger ((c.step m).history.of id) [] r ∧
      ∃ verdict, verdict ≠ .abandoned ∧
        ((c.step m).history.of id).settled[k]? = some ⟨n, f, verdict⟩ := by
  subst hn
  rcases ends_cases hx with ⟨u, disk, result, hfind, -, hstep, hend⟩ | ⟨hnew, -⟩
  · have hnumber : u.number = x.number := number_of_find? hfind
    have hlive : u ∈ c.live := List.mem_of_find?_eq_some hfind
    have hkey := hhanded.key (u.number, u.flight.pump.path, u.flight.pump.id)
      (by rw [keys_view]; exact List.mem_map_of_mem hlive) hnumber
    obtain ⟨-, hpath, hserved⟩ := by simpa only [Prod.mk.injEq] using hkey
    -- the pump finds the upload at rest, since it is there
    have hrest : r.Idle ∧ r.Tells x.result := by
      have hconcluded := Engine.land_ended hend
      have hengine : (c.step m).engine = ((c.withDisk disk).engine.land u.flight result).1 := by
        rw [hstep]
        rfl
      rw [← hengine, hpath, hserved] at hconcluded
      rcases hconcluded with ⟨hnone, -⟩ | ⟨s, -, hs, hidle, htells⟩
      · exact absurd hid (Registry.owned?_eq_none_iff.mp hnone r hr)
      · obtain rfl : s = r := Option.some.inj (hs.symm.trans hr)
        exact ⟨hidle, htells⟩
    refine ⟨hrest.1, hrest.2, ?_, ?_⟩
    · have hledger := hafter.ledgers path r hr
      rw [inHand_eq_nil, hid] at hledger
      · exact hledger
      · rw [hafter.slots.served path r hr, hrest.1.free]
        rfl
    · have hnot : x.number ∉ (c.step m).history.all.dropped := by
        rw [hstep, dropped_land]
        rw [← hnumber]
        exact not_mem_dropped hsound hlive
      refine (hhanded'.awaited ⟨path, r, hr, hid⟩ hnot).resolve_right ?_
      rintro ⟨-, hmem⟩
      rw [hstep] at hmem
      rw [← hnumber] at hfind
      exact not_mem_keys_land (c := c.withDisk disk) hsound hfind hend _ hmem hnumber.symm
  · exact absurd hnew (Nat.not_le.mpr hhanded.number_lt)

/-- A pump that wrote its queue out leaves the upload it served at rest. -/
theorem atRest_of_ends {c : Course} (hsound : c.Sound) {m : Move}
    {x : Ending} (hx : x ∈ c.ends m) (hout : x.wroteOut = true) :
    ∃ r, (c.step m).engine.AtRest x.path x.result r ∧
      ∀ u, c.find? x.number = some u → r.id = u.flight.pump.id := by
  rcases ends_cases hx with ⟨u, disk, result, hfind, hpath, hstep, hend⟩ | ⟨hnew, hrest⟩
  · have hengine : (c.step m).engine = ((c.withDisk disk).engine.land u.flight result).1 := by
      rw [hstep]
      rfl
    have hconcluded := Engine.land_ended hend
    rw [← hengine, ← hpath] at hconcluded
    rcases hconcluded with ⟨-, hcancelled⟩ | ⟨r, hid, hrest⟩
    · simp [Ending.wroteOut, hcancelled] at hout
    · refine ⟨r, hrest, ?_⟩
      intro v hv
      rw [hfind] at hv
      cases hv
      exact hid
  · obtain ⟨r, hr⟩ := hrest hout
    refine ⟨r, hr, ?_⟩
    intro u hu
    have hmem : x.number ∈ c.view.pumps := by
      rw [← number_of_find? hu]
      exact List.mem_append_left _
        (List.mem_map_of_mem (List.mem_map_of_mem (List.mem_of_find?_eq_some hu)))
    exact absurd hnew (Nat.not_le.mpr (hsound.numbering.lt _ hmem))

theorem pending_or_served {c : Course} (hsound : c.Sound) {q : String}
    {r : Record} (hr : c.engine.registry.find? q = some r) (hwaits : r.queue.toList ≠ []) :
    q ∈ c.engine.registry.pendingPaths ∨
      ∃ u ∈ c.live, u.flight.pump.path = q ∧ u.flight.pump.id = r.id := by
  cases hwriting : r.writing with
  | true =>
    obtain ⟨u, -, hlive, hpath, hid⟩ := serving_of_writing hsound hr hwriting
    exact .inr ⟨u, hlive, hpath, hid⟩
  | false =>
    left
    obtain ⟨hmem, hpath⟩ := Registry.find?_eq_some_iff.mp hr
    refine List.mem_map.mpr ⟨r, List.mem_filter.mpr ⟨hmem, ?_⟩, hpath⟩
    simp [Record.isPending, hwriting, FragmentQueue.isEmpty_eq, hwaits]

end Course

/-- A fragment whose caller was told that a pump is writing is settled, once and by that pump, when the
pump ends; a pump that wrote its queue out leaves the upload at rest, and tells the figures it has then;
and a queue with fragments is shown as pending or is being written. -/
theorem busy_fragment_is_handed_over (disk : Disk) (storage : Storage)
    (writers maxSize capacity : Nat) (moves : List Move) :
    let c := (Course.new (.new disk storage writers maxSize capacity)).run moves
    (∀ path f r, c.engine.registry.find? path = some r →
      (c.engine.beginSubmit path f).2 = .ended (.ok .busy) →
      ∃ u, c.serving r.id = [u] ∧ ∀ later m x s,
        let before := (c.step (.submit path f)).run later
        let after := before.step m
        x ∈ before.ends m → x.number = u.number →
        after.engine.registry.find? path = some s → s.id = r.id →
        s.Idle ∧ s.Tells x.result ∧ Ledger (after.history.of r.id) [] s ∧
          ∃ verdict, verdict ≠ .abandoned ∧
            (after.history.of r.id).settled[(c.history.of r.id).accepted.length]? =
              some ⟨u.number, f, verdict⟩) ∧
    (∀ m x, x ∈ c.ends m → x.wroteOut = true →
      ∃ r, (c.step m).engine.AtRest x.path x.result r ∧
        ∀ u, c.find? x.number = some u → r.id = u.flight.pump.id) ∧
    ∀ q r, c.engine.registry.find? q = some r → r.queue.toList ≠ [] →
      q ∈ c.engine.registry.pendingPaths ∨
        ∃ u ∈ c.live, u.flight.pump.path = q ∧ u.flight.pump.id = r.id := by
  intro c
  have hsound : c.Sound := Course.sound_run (.new disk storage writers maxSize capacity) rfl moves
  refine ⟨?_, fun _ _ => Course.atRest_of_ends hsound, fun _ _ => Course.pending_or_served hsound⟩
  intro path f r hr hbusy
  obtain ⟨u, hserving, hhanded⟩ := Course.handed_of_busy hsound hr hbusy
  refine ⟨u, hserving, ?_⟩
  intro later m x s before after hx hn hs hid
  -- what the caller was told to rely on lasts, up to the end of the pump and beyond
  have hstart : (c.step (.submit path f)).Sound := Course.Sound.run hsound [.submit path f]
  have hlasts : ∀ more, Handed u.number path r.id (c.history.of r.id).accepted.length f
      ((c.step (.submit path f)).run more).view :=
    Course.keep_onward hstart (fun _ _ => handed_change) hhanded
  have hafter : (c.step (.submit path f)).run (later ++ [m]) = after := Course.run_concat _ later m
  have hsound' : after.Sound := hafter ▸ hstart.run _
  have hnow := hlasts (later ++ [m])
  rw [hafter] at hnow
  exact Course.settled_of_handed (hstart.run later) (hlasts later) hsound' hnow hx hn hs hid

/-- A caller sends the first half of an upload, and its pump begins to write. -/
def firstHalfSent : List Move := [.init "a" 8 0 "a", .submit "a" ⟨0, #[1, 2, 3, 4]⟩]

def secondHalf : Fragment := ⟨4, #[5, 6, 7, 8]⟩

/-- The course of the first half, where one upload writes at a time. -/
def writingFirst : Course := (Course.new (.new .empty ⟨"up"⟩ 1 100 16)).run firstHalfSent

/-- The second half is sent, the pump writes the first and takes the second, and one operation of the
disk is left. -/
def writingSecond : Course :=
  (writingFirst.step (.submit "a" secondHalf)).run (List.replicate 5 (.turn 0))

theorem writingFirst_there : (writingFirst.engine.registry.find? "a").isSome = true := by decide

theorem writingSecond_there :
    ((writingSecond.step (.turn 0)).engine.registry.find? "a").isSome = true := by decide

/-- The pump of the first half writes the second too, and ends with all bytes written. -/
theorem second_half_is_handed_over :
    let r := (writingFirst.engine.registry.find? "a").get writingFirst_there
    let after := writingSecond.step (.turn 0)
    let s := (after.engine.registry.find? "a").get writingSecond_there
    (writingFirst.engine.beginSubmit "a" secondHalf).2 = .ended (.ok .busy) ∧
    s.Idle ∧ s.Tells (.ok (.drained 8 true)) ∧ Ledger (after.history.of r.id) [] s ∧
      ∃ verdict, verdict ≠ .abandoned ∧
        (after.history.of r.id).settled[1]? = some ⟨0, secondHalf, verdict⟩ := by
  intro r after s
  have hbusy : (writingFirst.engine.beginSubmit "a" secondHalf).2 = .ended (.ok .busy) := rfl
  obtain ⟨u, hserving, hhanded⟩ := (busy_fragment_is_handed_over .empty ⟨"up"⟩ 1 100 16
    firstHalfSent).1 "a" secondHalf r (Option.some_get writingFirst_there).symm hbusy
  have hnumber : u.number = 0 := by
    have hnumbers : (writingFirst.serving r.id).map Underway.number = [0] := by decide
    rw [show writingFirst.serving r.id = [u] from hserving] at hnumbers
    simpa using hnumbers
  rw [hnumber] at hhanded
  have hend : (⟨0, "a", .ok (.drained 8 true)⟩ : Ending) ∈ writingSecond.ends (.turn 0) :=
    List.mem_singleton_self _
  exact ⟨hbusy, hhanded (List.replicate 5 (.turn 0)) (.turn 0) _ s hend rfl
    (Option.some_get writingSecond_there).symm (by decide)⟩

end ResumableUpload
