import ResumableUpload.Fragment.Basic

/-
  Queue — fragments waiting to be written

  First in, first out. New fragments go onto `back`, the newest first; the
  oldest come off `front`, which takes over `back` when it runs out. The number
  of waiting bytes is counted along, by addition on `push` and subtraction on
  `pop?`.

  What is held:
    1. `toList` — the view: the waiting fragments, oldest first.
    2. `toList_push`, `toList_of_pop?` — what the operations do to the view, and
       `queuedBytes_of_pop?` to the count; `pop?_eq_none_iff`, `exists_pop?` —
       when nothing comes off, and when the oldest does.

  Correspondence (queue ↔ library): `push` and `pop` ↔ `push` and `pop?`; in
  `QueueWords` the count is a word.
-/

namespace ResumableUpload

/-- Fragments waiting to be written, and their bytes. -/
structure FragmentQueue where
  front : List Fragment
  back : List Fragment
  queuedBytes : Nat
  deriving DecidableEq, Repr

namespace FragmentQueue

/-- Nothing waits. -/
def empty : FragmentQueue := ⟨[], [], 0⟩

instance : Inhabited FragmentQueue := ⟨empty⟩

/-- The waiting fragments, oldest first. -/
def toList (q : FragmentQueue) : List Fragment := q.front ++ q.back.reverse

/-- How many fragments wait. -/
def size (q : FragmentQueue) : Nat := q.front.length + q.back.length

/-- Whether none waits. -/
def isEmpty (q : FragmentQueue) : Bool := q.front.isEmpty && q.back.isEmpty

/-- The queue with a fragment at its end. -/
def push (q : FragmentQueue) (f : Fragment) : FragmentQueue :=
  { q with back := f :: q.back, queuedBytes := q.queuedBytes + f.len }

/-- The oldest fragment and the queue without it. -/
def pop? (q : FragmentQueue) : Option (Fragment × FragmentQueue) :=
  match q.front with
  | f :: front => some (f, { q with front, queuedBytes := q.queuedBytes - f.len })
  | [] =>
    match q.back.reverse with
    | [] => none
    | f :: front => some (f, ⟨front, [], q.queuedBytes - f.len⟩)

@[simp] theorem toList_empty : empty.toList = [] := rfl

@[simp] theorem toList_push (q : FragmentQueue) (f : Fragment) :
    (q.push f).toList = q.toList ++ [f] := by
  simp [push, toList]

theorem size_eq (q : FragmentQueue) : q.size = q.toList.length := by
  simp [size, toList]

theorem isEmpty_eq (q : FragmentQueue) : q.isEmpty = q.toList.isEmpty := by
  cases hf : q.front <;> cases hb : q.back <;> simp [isEmpty, toList, hf, hb]

/-- Nothing comes off exactly when nothing waits. -/
theorem pop?_eq_none_iff (q : FragmentQueue) : q.pop? = none ↔ q.toList = [] := by
  unfold pop? toList
  cases hf : q.front with
  | cons f front => simp
  | nil => cases hb : q.back.reverse <;> simp

/-- What comes off is the oldest, and the others stay in order. -/
theorem toList_of_pop? {q r : FragmentQueue} {f : Fragment} (h : q.pop? = some (f, r)) :
    q.toList = f :: r.toList := by
  unfold pop? at h
  cases hf : q.front with
  | cons g front =>
    simp only [hf, Option.some.injEq, Prod.mk.injEq] at h
    obtain ⟨rfl, rfl⟩ := h
    simp [toList, hf]
  | nil =>
    cases hb : q.back.reverse with
    | nil => simp [hf, hb] at h
    | cons g front =>
      simp only [hf, hb, Option.some.injEq, Prod.mk.injEq] at h
      obtain ⟨rfl, rfl⟩ := h
      simp [toList, hf, hb]

theorem queuedBytes_of_pop? {q rest : FragmentQueue} {f : Fragment}
    (h : q.pop? = some (f, rest)) : rest.queuedBytes = q.queuedBytes - f.len := by
  unfold pop? at h
  split at h
  · cases h
    rfl
  · split at h
    · cases h
    · cases h
      rfl

/-- Where a fragment waits, the oldest comes off. -/
theorem exists_pop? {q : FragmentQueue} {f : Fragment} {rest : List Fragment}
    (h : q.toList = f :: rest) : ∃ queue, q.pop? = some (f, queue) ∧ queue.toList = rest := by
  cases hpop : q.pop? with
  | none =>
    rw [pop?_eq_none_iff, h] at hpop
    cases hpop
  | some x =>
    obtain ⟨rfl, hrest⟩ := List.cons.inj (h.symm.trans (toList_of_pop? hpop))
    exact ⟨x.2, rfl, hrest.symm⟩

end FragmentQueue

end ResumableUpload
