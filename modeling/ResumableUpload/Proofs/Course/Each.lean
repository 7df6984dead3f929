import ResumableUpload.Proofs.Course.Slots

/-
  Each — what holds of each upload, its log and the fragment in hand

  Much of what is true of an upload can be said of its record, its log and the
  fragment that its pump has in hand, whatever the other pumps and uploads do.
  Such a thing holds of each upload if it holds of a new one and each happening
  of its own keeps it.

  What is held:
    1. `inHand` — the fragments in the hands of the pumps that serve an upload.
    2. `Kept` — what a new upload has, and each happening keeps.
    3. `Each` — what each upload has.

  What is proved:
    1. `each_change`, `each_run` — what is kept, each upload of a run has.
-/

namespace ResumableUpload

/-- The fragments in the hands of the pumps that serve a registration. -/
def inHand (hands : List Hand) (id : UploadId) : List Fragment :=
  (hands.filter fun x => x.id = id).filterMap Hand.fragment

theorem inHand_cons_self (n : Nat) (path : String) (id : UploadId) (x : Option Fragment)
    (rest : List Hand) : inHand (⟨n, path, id, x⟩ :: rest) id = x.toList ++ inHand rest id := by
  cases x <;> simp [inHand]

theorem inHand_cons_of_ne {x : Hand} {id : UploadId} (h : x.id ≠ id) (rest : List Hand) :
    inHand (x :: rest) id = inHand rest id := by
  simp [inHand, h]

theorem inHand_eq_nil {hands : List Hand} {id : UploadId} (h : servers hands id = 0) :
    inHand hands id = [] := by
  have hnone : (hands.filter fun x => x.id = id) = [] := by
    rw [List.filter_eq_nil_iff]
    exact List.countP_eq_zero.mp h
  rw [inHand, hnone]
  rfl

theorem inHand_perm {hands hands' : List Hand} {id : UploadId} (hperm : hands.Perm hands')
    (hone : servers hands id ≤ 1) : inHand hands' id = inHand hands id := by
  have hfilter := hperm.filter fun x => decide (x.id = id)
  rw [servers, List.countP_eq_length_filter] at hone
  unfold inHand
  cases hl : hands.filter fun x => decide (x.id = id) with
  | nil =>
    rw [hl] at hfilter
    rw [hfilter.nil_eq]
  | cons x rest =>
    rw [hl] at hfilter hone
    obtain rfl : rest = [] := by simpa using hone
    rw [List.singleton_perm.mp hfilter]

theorem inHand_view (c : Course) (id : UploadId) :
    inHand c.view.hands id = (c.serving id).map fun u => u.flight.fragment := by
  rw [inHand, Course.view, Course.serving, List.filter_map, List.filterMap_map]
  exact congrFun List.filterMap_eq_map _

/-- A new upload has it, and each happening keeps it. -/
structure Kept (P : Log → List Fragment → Record → Prop) : Prop where
  fresh : ∀ id path size owner clientPath, P
    (.registered :: (Record.new id path size owner clientPath).ticket.news.map .told) []
    (.new id path size owner clientPath)
  accept : ∀ l held r f, P l held r → f.stop ≤ r.size → P (l ++ [.accepted f]) held (r.enqueue f)
  mark : ∀ l held r writing, P l held r → P l held (r.withWriting writing)
  take : ∀ l r f queue, P l [] r → r.queue.pop? = some (f, queue) → P l [f] (r.withQueue queue)
  write : ∀ l r n f, P l [f] r →
    P (l ++ .settled ⟨n, f, .written⟩ :: (r.news f.range).map .told) [] (r.recordWrite f.range)
  fail : ∀ l r n f message, P l [f] r →
    P (l ++ [.settled ⟨n, f, .failed⟩, .told (.failed r.path f.position f.len message)]) [] r
  abandon : ∀ l r n f, P l [f] r → P (l ++ [.settled ⟨n, f, .abandoned⟩]) [] r

/-- Each upload has it. -/
def Each (P : Log → List Fragment → Record → Prop) (v : View) : Prop :=
  ∀ q r, v.registry.find? q = some r → P (v.history.of r.id) (inHand v.hands r.id) r

namespace Each

variable {P : Log → List Fragment → Record → Prop} {v : View}

theorem modify {path : String} {r : Record} {change : Record → Record}
    {keeps : ∀ s, (change s).path = s.path} {hands : List Hand} {n : Nat} {log : Log}
    (h : Each P v) (hid : Identity v) (hr : v.registry.find? path = some r)
    (hkeep : (change r).id = r.id)
    (hhere : P (v.history.of r.id ++ log) (inHand hands r.id) (change r))
    (helse : ∀ id, id ≠ r.id → inHand hands id = inHand v.hands id) :
    Each P ⟨v.registry.modify path change keeps, hands, n, v.history.noting r.id log⟩ := by
  intro q s hs
  have hs : (v.registry.modify path change keeps).find? q = some s := hs
  rcases Registry.find?_modify_some hs with ⟨rfl, r', hr', rfl⟩ | ⟨hq, hs⟩
  · rw [hr] at hr'
    cases hr'
    rw [hkeep, History.of_noting_self]
    exact hhere
  · have hne : s.id ≠ r.id := fun hsr => hq (hid.id_inj q path s r hs hr hsr)
    show P _ (inHand hands s.id) s
    rw [History.of_noting_of_ne hne, helse s.id hne]
    exact h q s hs

theorem modify_quiet {path : String} {r : Record} {change : Record → Record}
    {keeps : ∀ s, (change s).path = s.path} {hands : List Hand} {n : Nat} (h : Each P v)
    (hid : Identity v) (hr : v.registry.find? path = some r) (hkeep : (change r).id = r.id)
    (hhere : P (v.history.of r.id) (inHand hands r.id) (change r))
    (helse : ∀ id, id ≠ r.id → inHand hands id = inHand v.hands id) :
    Each P ⟨v.registry.modify path change keeps, hands, n, v.history⟩ := by
  have hnoted : Each P ⟨v.registry.modify path change keeps, hands, n, v.history.noting r.id []⟩ :=
    h.modify hid hr hkeep (by rwa [List.append_nil]) helse
  rwa [History.noting_nil] at hnoted

theorem stray {n k : Nat} {path : String} {id : UploadId} {x : Option Fragment}
    {rest : List Hand} (h : Each P v) (hid : Identity v)
    (hh : v.hands = ⟨n, path, id, x⟩ :: rest) (hr : v.registry.owned? path id = none) (log : Log) :
    Each P ⟨v.registry, rest, k, v.history.noting id log⟩ := by
  intro q s hs
  have hne : s.id ≠ id := by
    intro hsid
    have hpath := hid.hand_path ⟨n, path, id, x⟩ (by rw [hh]; exact List.mem_cons_self) q s hs hsid
    have hs : v.registry.find? path = some s := by rw [← hs, hpath]
    exact Registry.owned?_eq_none_iff.mp hr s hs hsid
  have hold := h q s hs
  rw [hh, inHand_cons_of_ne (Ne.symm hne)] at hold
  show P ((v.history.noting id log).of s.id) (inHand rest s.id) s
  rw [History.of_noting_of_ne hne]
  exact hold

end Each

theorem each_change {P : Log → List Fragment → Record → Prop} (hkept : Kept P) {ceiling : Nat}
    {v w : View} (hc : Change ceiling v w) (hid : Identity v) (hslots : Slots ceiling v)
    (h : Each P v) : Each P w := by
  -- what the upload has that the pump in front serves, and the hands of the others
  have hfront : ∀ {n path id x rest r}, v.hands = (⟨n, path, id, x⟩ :: rest : List Hand) →
      v.registry.owned? path id = some r → r.id = id ∧ v.registry.find? path = some r ∧
        inHand rest id = [] ∧ P (v.history.of id) x.toList r := by
    intro n path id x rest r hh hr
    obtain ⟨-, hzero⟩ := hslots.front hh hr
    have hnone := inHand_eq_nil hzero
    obtain ⟨hfind, hrid⟩ := Registry.owned?_eq_some_iff.mp hr
    have hold := h path r hfind
    rw [hrid, hh, inHand_cons_self, hnone, List.append_nil] at hold
    exact ⟨hrid, hfind, hnone, hold⟩
  have helse : ∀ {n path id x rest}, v.hands = (⟨n, path, id, x⟩ :: rest : List Hand) →
      ∀ q, q ≠ id → inHand rest q = inHand v.hands q := by
    intro n path id x rest hh q hq
    rw [hh, inHand_cons_of_ne (Ne.symm hq)]
  cases hc with
  | @register path clientPath size owner next t hreg =>
    obtain ⟨-, -, rfl⟩ := Registry.register_eq_ok hreg
    intro q r hr
    rcases Registry.find?_register_some hreg hr with ⟨-, rfl⟩ | ⟨-, hr⟩
    · have hlog : v.history.of v.registry.nextId = [] :=
        History.of_eq_nil fun x hx => Nat.ne_of_lt (hid.history_lt x hx)
      have hnone : inHand v.hands v.registry.nextId = [] :=
        inHand_eq_nil (servers_eq_zero fun x hx => Nat.ne_of_lt (hid.hand_lt x hx))
      show P ((v.history.noting v.registry.nextId _).of v.registry.nextId)
        (inHand v.hands v.registry.nextId) _
      rw [History.of_noting_self, hlog, hnone]
      exact hkept.fresh _ _ _ _ _
    · have hne : r.id ≠ v.registry.nextId := Nat.ne_of_lt (hid.id_lt q r hr)
      show P ((v.history.noting v.registry.nextId _).of r.id) (inHand v.hands r.id) r
      rw [History.of_noting_of_ne hne]
      exact h q r hr
  | @accept path r f hr hfit =>
    exact h.modify hid hr rfl (hkept.accept _ _ r f (h path r hr) hfit) (fun _ _ => rfl)
  | @grant path r hr hfree hroom =>
    have hhere : inHand (⟨v.nextPump, path, r.id, none⟩ :: v.hands) r.id = inHand v.hands r.id :=
      inHand_cons_self _ _ _ none _
    refine h.modify_quiet hid hr rfl ?_ ?_
    · rw [hhere]
      exact hkept.mark _ _ r true (h path r hr)
    · intro q hq
      exact inHand_cons_of_ne (Ne.symm hq) _
  | @take n path id r f queue rest hh hr hpop =>
    obtain ⟨rfl, hfind, hnone, hold⟩ := hfront hh hr
    refine h.modify_quiet hid hfind rfl ?_ ?_
    · rw [inHand_cons_self, hnone, List.append_nil]
      exact hkept.take _ r f queue hold hpop
    · intro q hq
      rw [inHand_cons_of_ne (Ne.symm hq)]
      exact helse hh q hq
  | @release n path id r rest hh hr hempty =>
    obtain ⟨rfl, hfind, hnone, hold⟩ := hfront hh hr
    refine h.modify_quiet hid hfind rfl ?_ (helse hh)
    rw [hnone]
    exact hkept.mark _ _ r false hold
  | @write n path id r f rest hh hr =>
    obtain ⟨rfl, hfind, hnone, hold⟩ := hfront hh hr
    refine h.modify hid hfind rfl ?_ ?_
    · rw [inHand_cons_self, hnone, List.append_nil]
      exact hkept.write _ r n f hold
    · intro q hq
      rw [inHand_cons_of_ne (Ne.symm hq)]
      exact helse hh q hq
  | @fail n path id r f rest cause hh hr =>
    obtain ⟨rfl, hfind, hnone, hold⟩ := hfront hh hr
    intro q s hs
    by_cases hq : s.id = r.id
    · obtain rfl : q = path := hid.id_inj q path s r hs hfind hq
      have hsr : s = r := Option.some.inj (hs.symm.trans hfind)
      subst hsr
      show P ((v.history.noting s.id _).of s.id) (inHand (⟨n, q, s.id, none⟩ :: rest) s.id) s
      rw [History.of_noting_self, inHand_cons_self, hnone, ← Registry.path_of_find? hfind]
      exact hkept.fail _ s n f cause.message hold
    · show P ((v.history.noting r.id _).of s.id) (inHand (⟨n, path, r.id, none⟩ :: rest) s.id) s
      rw [History.of_noting_of_ne hq, inHand_cons_of_ne (Ne.symm hq), helse hh s.id hq]
      exact h q s hs
  | @abandon n path id r f rest hh hr =>
    obtain ⟨rfl, hfind, hnone, hold⟩ := hfront hh hr
    refine h.modify hid hfind rfl ?_ (helse hh)
    rw [hnone]
    exact hkept.mark _ _ r false (hkept.abandon _ r n f hold)
  | stray hh hr => exact h.stray hid hh hr _
  | @leave n path id x rest hh hr =>
    have hleave := h.stray (k := v.nextPump) hid hh hr []
    rw [History.noting_nil] at hleave
    exact hleave
  | @remove path r hr =>
    intro q s hs
    obtain ⟨hq, hs⟩ := Registry.find?_remove_some hs
    have hne : s.id ≠ r.id := fun hsr => hq (hid.id_inj q path s r hs hr hsr)
    show P ((v.history.noting r.id _).of s.id) (inHand v.hands s.id) s
    rw [History.of_noting_of_ne hne]
    exact h q s hs
  | @arrange hands n hperm hn =>
    intro q r hr
    -- one pump at most serves the upload, so there is nothing to arrange
    have hone : servers v.hands r.id ≤ 1 := by
      rw [hslots.served q r hr]
      exact Bool.toNat_le _
    show P (v.history.of r.id) (inHand hands r.id) r
    rw [inHand_perm hperm hone]
    exact h q r hr

theorem each_run {P : Log → List Fragment → Record → Prop} (hkept : Kept P) (e : Engine)
    (hempty : e.registry = .empty) (moves : List Move) : Each P ((Course.new e).run moves).view := by
  refine (Course.keep_run (P := fun v => Identity v ∧ Slots e.slots.ceiling v ∧ Each P v)
    ?_ ?_ moves).2.2
  · intro v w hc h
    exact ⟨identity_change hc h.1, slots_change hc h.1 h.2.1, each_change hkept hc h.1 h.2.1 h.2.2⟩
  · refine ⟨identity_run e hempty [], slots_run e hempty [], ?_⟩
    intro q r hr
    simp [Course.new, Course.view, hempty] at hr

end ResumableUpload
