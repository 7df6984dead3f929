import ResumableUpload.Proofs.Course.Change
import Mathlib.Data.List.Nodup
import Mathlib.Data.List.Perm.Subperm

/-
  Identity — a number tells a registration from every other

  Registrations are numbered, and no number is given twice. So a pump that
  remembers a number and a path serves one registration, whatever is registered
  under its path meanwhile, and what the history tells of a number it tells of
  one registration.

  What is proved:
    1. `Registry.find?_modify_some`, `find?_remove_some`, `find?_register_some`
       — where a record that is found after a change comes from.
    2. `hand_change`, `key_change` — where a hand after a change comes from.
    3. `Identity` — what the numbers of registrations obey: `identity_change`,
       `identity_run`.
    4. `Numbering` — what the numbers of pumps obey: `numbering_change`,
       `numbering_run`; `find?_of_mem` and `number_ne_of_without` — a pump under
       way is found by its number, and it alone.
-/

namespace ResumableUpload

namespace Registry

theorem find?_modify_some {g : Registry} {path q : String} {change : Record → Record}
    {keeps : ∀ r, (change r).path = r.path} {r : Record}
    (h : (g.modify path change keeps).find? q = some r) :
    (q = path ∧ ∃ s, g.find? path = some s ∧ r = change s) ∨ (q ≠ path ∧ g.find? q = some r) := by
  rw [find?_modify] at h
  by_cases hq : q = path
  · subst hq
    rw [if_pos rfl] at h
    obtain ⟨s, hs, hr⟩ := Option.map_eq_some_iff.mp h
    exact .inl ⟨rfl, s, hs, hr.symm⟩
  · rw [if_neg hq] at h
    exact .inr ⟨hq, h⟩

theorem find?_remove_some {g : Registry} {path q : String} {r : Record}
    (h : (g.remove path).find? q = some r) : q ≠ path ∧ g.find? q = some r := by
  rw [find?_remove] at h
  by_cases hq : q = path
  · rw [if_pos hq] at h
    cases h
  · rw [if_neg hq] at h
    exact ⟨hq, h⟩

theorem find?_register_some {g next : Registry} {path q clientPath : String} {size : Nat}
    {owner : Int} {t : Ticket} {r : Record}
    (h : g.register path size owner clientPath = .ok (next, t)) (hr : next.find? q = some r) :
    (q = path ∧ r = Record.new g.nextId path size owner clientPath) ∨
      (q ≠ path ∧ g.find? q = some r) := by
  rw [find?_register h] at hr
  by_cases hq : q = path
  · rw [if_pos hq] at hr
    cases hr
    exact .inl ⟨hq, rfl⟩
  · rw [if_neg hq] at hr
    exact .inr ⟨hq, hr⟩

theorem register_eq_ok {g next : Registry} {path clientPath : String} {size : Nat} {owner : Int}
    {t : Ticket} (h : g.register path size owner clientPath = .ok (next, t)) :
    g.find? path = none ∧ next.nextId = g.nextId + 1 ∧ t = ⟨g.nextId, path, size, owner⟩ := by
  unfold register at h
  split at h
  · cases h
  · rename_i hnew
    cases h
    refine ⟨?_, rfl, rfl⟩
    simpa [contains] using hnew

end Registry

/-! ## The hands after a change -/

/-- Which pump a hand is of, and which registration it serves. -/
def Hand.key (x : Hand) : Nat × String × UploadId := (x.number, x.path, x.id)

/-- The hands without their fragments. -/
def View.keys (v : View) : List (Nat × String × UploadId) := v.hands.map Hand.key

/-- A hand that was not there serves an upload that was; it is of the next pump, or it has another
fragment than before. -/
theorem hand_change {ceiling : Nat} {v w : View} (hc : Change ceiling v w) {x : Hand}
    (hx : x ∈ w.hands) :
    x ∈ v.hands ∨ (∃ r, v.registry.owned? x.path x.id = some r) ∧
      (x.number = v.nextPump ∨ x.key ∈ v.keys) := by
  have hrest : ∀ {y : Hand} {rest : List Hand}, v.hands = y :: rest → x ∈ rest → x ∈ v.hands := by
    intro y rest hh hmem
    rw [hh]
    exact List.mem_cons_of_mem _ hmem
  have hfront : ∀ {n path id f g rest r}, v.hands = (⟨n, path, id, f⟩ :: rest : List Hand) →
      v.registry.owned? path id = some r → x ∈ (⟨n, path, id, g⟩ :: rest : List Hand) →
      x ∈ v.hands ∨ (∃ r, v.registry.owned? x.path x.id = some r) ∧
        (x.number = v.nextPump ∨ x.key ∈ v.keys) := by
    intro n path id f g rest r hh hr hmem
    rcases List.mem_cons.mp hmem with rfl | hmem
    · refine .inr ⟨⟨r, hr⟩, .inr ?_⟩
      rw [View.keys, hh]
      exact List.mem_cons_self
    · exact .inl (hrest hh hmem)
  cases hc with
  | @grant path r hr hfree hroom =>
    rcases List.mem_cons.mp hx with rfl | hmem
    · exact .inr ⟨⟨r, Registry.owned?_eq_some_iff.mpr ⟨hr, rfl⟩⟩, .inl rfl⟩
    · exact .inl hmem
  | take hh hr hpop => exact hfront hh hr hx
  | release hh hr hempty => exact .inl (hrest hh hx)
  | write hh hr => exact hfront hh hr hx
  | fail cause hh hr => exact hfront hh hr hx
  | abandon hh hr => exact .inl (hrest hh hx)
  | stray hh hr => exact .inl (hrest hh hx)
  | leave hh hr => exact .inl (hrest hh hx)
  | arrange hperm hn => exact .inl (hperm.mem_iff.mpr hx)
  | _ => exact .inl hx

/-- A pump that was not under way is the next one. -/
theorem key_change {ceiling : Nat} {v w : View} (hc : Change ceiling v w)
    {x : Nat × String × UploadId} (hx : x ∈ w.keys) : x ∈ v.keys ∨ x.1 = v.nextPump := by
  obtain ⟨y, hy, rfl⟩ := List.mem_map.mp hx
  rcases hand_change hc hy with hmem | ⟨-, hnext | hkey⟩
  · exact .inl (List.mem_map_of_mem hmem)
  · exact .inr hnext
  · exact .inl hkey

/-! ## The numbers of registrations -/

/-- What the numbers of a view obey. -/
structure Identity (v : View) : Prop where
  id_lt : ∀ q r, v.registry.find? q = some r → r.id < v.registry.nextId
  /-- A number is at one path only. -/
  id_inj : ∀ p q r s, v.registry.find? p = some r → v.registry.find? q = some s → r.id = s.id → p = q
  hand_lt : ∀ x ∈ v.hands, x.id < v.registry.nextId
  /-- A pump knows the path of its registration. -/
  hand_path : ∀ x ∈ v.hands, ∀ q r, v.registry.find? q = some r → r.id = x.id → q = x.path
  history_lt : ∀ x ∈ v.history, x.1 < v.registry.nextId

namespace Identity

/-- The numbers stay as they are if no registration is added: every record and everything that happened
was there, or is of a registration that was. -/
theorem mono {ceiling : Nat} {v : View} {g : Registry} {hands : List Hand} {n : Nat}
    {history : History} (h : Identity v) (hc : Change ceiling v ⟨g, hands, n, history⟩)
    (hnext : g.nextId = v.registry.nextId)
    (hfind : ∀ q s, g.find? q = some s → ∃ r, v.registry.find? q = some r ∧ r.id = s.id)
    (hhistory : ∀ x ∈ history, x ∈ v.history ∨ x.1 < v.registry.nextId) :
    Identity ⟨g, hands, n, history⟩ where
  id_lt := by
    intro q s hs
    obtain ⟨r, hr, hid⟩ := hfind q s hs
    show s.id < g.nextId
    rw [hnext, ← hid]
    exact h.id_lt q r hr
  id_inj := by
    intro p q s t hs ht hst
    obtain ⟨r, hr, hid⟩ := hfind p s hs
    obtain ⟨r', hr', hid'⟩ := hfind q t ht
    exact h.id_inj p q r r' hr hr' (by rw [hid, hid', hst])
  hand_lt := by
    intro x hx
    show x.id < g.nextId
    rw [hnext]
    rcases hand_change hc hx with hmem | ⟨⟨r, hr⟩, -⟩
    · exact h.hand_lt x hmem
    · obtain ⟨hr, hid⟩ := Registry.owned?_eq_some_iff.mp hr
      rw [← hid]
      exact h.id_lt x.path r hr
  hand_path := by
    intro x hx q s hs hid
    obtain ⟨r, hr, hrs⟩ := hfind q s hs
    rcases hand_change hc hx with hmem | ⟨⟨r', hr'⟩, -⟩
    · exact h.hand_path x hmem q r hr (hrs.trans hid)
    · obtain ⟨hr', hid'⟩ := Registry.owned?_eq_some_iff.mp hr'
      exact h.id_inj q x.path r r' hr hr' (by rw [hrs, hid, hid'])
  history_lt := by
    intro x hx
    show x.1 < g.nextId
    rw [hnext]
    rcases hhistory x hx with hx | hlt
    · exact h.history_lt x hx
    · exact hlt

theorem find?_of_modify {g : Registry} {path : String} {change : Record → Record}
    {keeps : ∀ r, (change r).path = r.path} (hid : ∀ r, (change r).id = r.id) (q : String)
    (s : Record) (hs : (g.modify path change keeps).find? q = some s) :
    ∃ r, g.find? q = some r ∧ r.id = s.id := by
  rcases Registry.find?_modify_some hs with ⟨rfl, r, hr, rfl⟩ | ⟨-, hr⟩
  · exact ⟨r, hr, (hid r).symm⟩
  · exact ⟨s, hr, rfl⟩

theorem old_or_lt {h : History} {id n : UploadId} (hlt : id < n) {l : Log} :
    ∀ x ∈ h.noting id l, x ∈ h ∨ x.1 < n := by
  intro x hx
  rcases History.mem_noting hx with hx | hx
  · exact .inl hx
  · exact .inr (by rw [hx]; exact hlt)

theorem register {v : View} {path clientPath : String} {size : Nat} {owner : Int} {next : Registry}
    {t : Ticket} (h : Identity v) (hreg : v.registry.register path size owner clientPath = .ok (next, t)) :
    Identity { v with
      registry := next
      history := v.history.noting t.id (.registered :: t.news.map .told) } := by
  obtain ⟨-, hnext, rfl⟩ := Registry.register_eq_ok hreg
  have hold : ∀ q r, v.registry.find? q = some r → r.id < v.registry.nextId := h.id_lt
  constructor
  · intro q r hr
    show r.id < next.nextId
    rw [hnext]
    rcases Registry.find?_register_some hreg hr with ⟨-, rfl⟩ | ⟨-, hr⟩
    · exact Nat.lt_succ_self _
    · exact Nat.lt_succ_of_lt (hold q r hr)
  · intro p q r s hr hs hrs
    rcases Registry.find?_register_some hreg hr with ⟨hp, rfl⟩ | ⟨hp, hr⟩
    · rcases Registry.find?_register_some hreg hs with ⟨hq, -⟩ | ⟨-, hs⟩
      · rw [hp, hq]
      · exact absurd hrs (Nat.ne_of_gt (hold q s hs))
    · rcases Registry.find?_register_some hreg hs with ⟨-, rfl⟩ | ⟨-, hs⟩
      · exact absurd hrs (Nat.ne_of_lt (hold p r hr))
      · exact h.id_inj p q r s hr hs hrs
  · intro x hx
    show x.id < next.nextId
    rw [hnext]
    exact Nat.lt_succ_of_lt (h.hand_lt x hx)
  · intro x hx q r hr hid
    rcases Registry.find?_register_some hreg hr with ⟨-, rfl⟩ | ⟨-, hr⟩
    · exact absurd hid (Nat.ne_of_gt (h.hand_lt x hx))
    · exact h.hand_path x hx q r hr hid
  · intro x hx
    show x.1 < next.nextId
    rw [hnext]
    rcases History.mem_noting hx with hx | hx
    · exact Nat.lt_succ_of_lt (h.history_lt x hx)
    · rw [hx]
      exact Nat.lt_succ_self _

end Identity

theorem identity_change {ceiling : Nat} {v w : View} (hc : Change ceiling v w) (h : Identity v) :
    Identity w := by
  have hchange := hc
  have hsame : ∀ q s, v.registry.find? q = some s → ∃ r, v.registry.find? q = some r ∧ r.id = s.id :=
    fun q s hs => ⟨s, hs, rfl⟩
  have hlt : ∀ {n path id x rest}, v.hands = (⟨n, path, id, x⟩ :: rest : List Hand) →
      id < v.registry.nextId := by
    intro n path id x rest hh
    exact h.hand_lt ⟨n, path, id, x⟩ (by rw [hh]; exact List.mem_cons_self)
  cases hc with
  | register hreg => exact h.register hreg
  | @accept path r f hr hfit =>
    exact h.mono hchange rfl (Identity.find?_of_modify fun _ => rfl)
      (Identity.old_or_lt (h.id_lt path r hr))
  | grant hr hfree hroom =>
    exact h.mono hchange rfl (Identity.find?_of_modify fun _ => rfl) fun x hx => .inl hx
  | take hh hr hpop =>
    exact h.mono hchange rfl (Identity.find?_of_modify fun _ => rfl) fun x hx => .inl hx
  | release hh hr hempty =>
    exact h.mono hchange rfl (Identity.find?_of_modify fun _ => rfl) fun x hx => .inl hx
  | write hh hr =>
    exact h.mono hchange rfl (Identity.find?_of_modify fun _ => rfl) (Identity.old_or_lt (hlt hh))
  | fail cause hh hr => exact h.mono hchange rfl hsame (Identity.old_or_lt (hlt hh))
  | abandon hh hr =>
    exact h.mono hchange rfl (Identity.find?_of_modify fun _ => rfl) (Identity.old_or_lt (hlt hh))
  | stray hh hr => exact h.mono hchange rfl hsame (Identity.old_or_lt (hlt hh))
  | leave hh hr => exact h.mono hchange rfl hsame fun x hx => .inl hx
  | remove hr =>
    refine h.mono hchange rfl ?_ (Identity.old_or_lt (h.id_lt _ _ hr))
    intro q s hs
    exact ⟨s, (Registry.find?_remove_some hs).2, rfl⟩
  | arrange hperm hn => exact h.mono hchange rfl hsame fun x hx => .inl hx

theorem identity_run (e : Engine) (hempty : e.registry = .empty) (moves : List Move) :
    Identity ((Course.new e).run moves).view := by
  refine Course.keep_run (fun _ _ => identity_change) ?_ moves
  constructor <;> simp [Course.new, Course.view, hempty]

/-! ## The numbers of pumps -/

/-- The pumps known by number: those that hold a slot, and those that were dropped. -/
def View.pumps (v : View) : List Nat := v.hands.map Hand.number ++ v.history.all.dropped

/-- No pump has the number of another, and none that of a pump to come. -/
structure Numbering (v : View) : Prop where
  nodup : v.pumps.Nodup
  lt : ∀ n ∈ v.pumps, n < v.nextPump

namespace Numbering

theorem mono {v : View} {g : Registry} {hands : List Hand} {n : Nat} {history : History}
    (h : Numbering v) (hpumps : (hands.map Hand.number ++ history.all.dropped).Subperm v.pumps)
    (hnext : v.nextPump ≤ n) : Numbering ⟨g, hands, n, history⟩ := by
  obtain ⟨l, hperm, hsub⟩ := hpumps
  refine ⟨hperm.nodup_iff.mp (h.nodup.sublist hsub), ?_⟩
  intro k hk
  exact Nat.lt_of_lt_of_le (h.lt k (hsub.subset (hperm.mem_iff.mpr hk))) hnext

theorem quiet {v : View} {g : Registry} {hands : List Hand} (h : Numbering v)
    (hhands : (hands.map Hand.number).Sublist (v.hands.map Hand.number)) (id : UploadId) {l : Log}
    (hnone : l.dropped = []) : Numbering ⟨g, hands, v.nextPump, v.history.noting id l⟩ := by
  refine h.mono ?_ (Nat.le_refl _)
  rw [History.all_noting, Log.dropped_append, hnone, List.append_nil]
  exact (hhands.append (.refl _)).subperm

theorem dropping {v : View} {g : Registry} {x : Hand} {rest : List Hand} (h : Numbering v)
    (hh : v.hands = x :: rest) (id : UploadId) (f : Fragment) :
    Numbering ⟨g, rest, v.nextPump,
      v.history.noting id [.settled ⟨x.number, f, .abandoned⟩]⟩ := by
  refine h.mono ?_ (Nat.le_refl _)
  have hlog : Log.dropped [.settled ⟨x.number, f, .abandoned⟩] = [x.number] := rfl
  rw [History.all_noting, Log.dropped_append, hlog, View.pumps, hh, List.map_cons,
    ← List.append_assoc]
  exact (List.perm_append_singleton _ _).subperm

end Numbering

/-- Every change keeps the numbers of the pumps apart. -/
theorem numbering_change {ceiling : Nat} {v w : View} (hc : Change ceiling v w)
    (h : Numbering v) : Numbering w := by
  have hall : (v.hands.map Hand.number).Sublist (v.hands.map Hand.number) := .refl _
  have hrest : ∀ {x : Hand} {rest : List Hand}, v.hands = x :: rest →
      (rest.map Hand.number).Sublist (v.hands.map Hand.number) := by
    intro x rest hh
    rw [hh, List.map_cons]
    exact List.sublist_cons_self _ _
  have hsame : ∀ {n path id x rest}, v.hands = (⟨n, path, id, x⟩ :: rest : List Hand) → ∀ y,
      ((⟨n, path, id, y⟩ :: rest : List Hand).map Hand.number).Sublist
        (v.hands.map Hand.number) := by
    intro n path id x rest hh y
    rw [hh]
    exact .refl _
  cases hc with
  | @register _ _ _ _ _ t hreg =>
    exact h.quiet hall t.id (congrArg (List.map _) (Log.ended_told .abandoned t.news))
  | accept hr hfit => exact h.quiet hall _ rfl
  | grant hr hfree hroom =>
    constructor
    · show (v.nextPump :: v.pumps).Nodup
      refine List.nodup_cons.mpr ⟨?_, h.nodup⟩
      intro hmem
      exact Nat.lt_irrefl _ (h.lt _ hmem)
    · intro n hn
      rcases List.mem_cons.mp hn with rfl | hn
      · exact Nat.lt_succ_self _
      · exact Nat.lt_succ_of_lt (h.lt n hn)
  | take hh hr hpop => exact h.mono ((hsame hh _).append (.refl _)).subperm (Nat.le_refl _)
  | release hh hr hempty => exact h.mono ((hrest hh).append (.refl _)).subperm (Nat.le_refl _)
  | @write n path id r f rest hh hr =>
    exact h.quiet (hsame hh _) id (congrArg (List.map _) (Log.ended_told .abandoned _))
  | fail cause hh hr => exact h.quiet (hsame hh _) _ rfl
  | abandon hh hr => exact h.dropping hh _ _
  | stray hh hr => exact h.dropping hh _ _
  | leave hh hr => exact h.mono ((hrest hh).append (.refl _)).subperm (Nat.le_refl _)
  | remove hr => exact h.quiet hall _ rfl
  | arrange hperm hn => exact h.mono ((hperm.symm.map _).append_right _).subperm hn

theorem numbering_run (e : Engine) (moves : List Move) :
    Numbering ((Course.new e).run moves).view := by
  refine Course.keep_run (fun _ _ => numbering_change) ?_ moves
  constructor
  · exact List.nodup_nil
  · intro n hn
    cases hn

namespace Course

theorem nodup_numbers {c : Course} (h : Numbering c.view) :
    (c.live.map Underway.number).Nodup := by
  have hnodup := (List.nodup_append.mp h.nodup).1
  rwa [view, List.map_map] at hnodup

theorem find?_of_mem {c : Course} (h : Numbering c.view) {u : Underway} (hu : u ∈ c.live) :
    c.find? u.number = some u := by
  cases hfind : c.find? u.number with
  | none =>
    have hne := List.find?_eq_none.mp hfind u hu
    simp at hne
  | some v =>
    have hv : v ∈ c.live := List.mem_of_find?_eq_some hfind
    rw [List.inj_on_of_nodup_map (nodup_numbers h) hv hu (number_of_find? hfind)]

theorem number_ne_of_without {c : Course} (h : Numbering c.view) {n : Nat} {u : Underway}
    (hfind : c.find? n = some u) {x : Underway} (hx : x ∈ without n c.live) : x.number ≠ n := by
  have hnodup := ((perm_of_find? hfind).map Underway.number).nodup_iff.mp (nodup_numbers h)
  rw [List.map_cons, List.nodup_cons, number_of_find? hfind] at hnodup
  intro hn
  exact hnodup.1 (List.mem_map.mpr ⟨x, hx, hn⟩)

end Course

end ResumableUpload
