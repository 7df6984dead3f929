import ResumableUpload.Words
import ResumableUpload.Proofs.Fragment.Tiling
import Mathlib.Data.List.ReduceOption

/-
  Waiting — fragments leave a queue as they came

  A queue may be used without an upload: fragments are pushed and popped in any
  order, and popped where none waits. Whatever the calls, it answers as a plain
  list does. Its bytes are counted apart from its fragments, in a word, by a sum
  for each push and a difference for each pop. A difference never falls below
  zero, since the count is that of the fragments that wait, the popped one among
  them; a sum stays a word where the bytes pushed in all are one.

  What is held:
    1. `FragmentQueue.Counted`, `QueueWords.Holds` — the count is that of the
       bytes that wait; and so is the word beside it.
    2. `QueueCall`, `QueueTrace` — the calls, and a queue with the answers of
       its pops so far.
    3. `QueueCall.onList`, `QueueCall.onWords?` — what a call comes to on a plain
       list, and on a queue with its bytes in a word.
    4. `QueueTrace.Follows` — a queue that stands where a list does.

  What is proved:
    1. `Counted.push`, `Counted.len_le_of_pop?`, `Counted.of_pop?` — the
       operations keep the count.
    2. `Holds.push`, `Holds.pop` — they do to the fragments that wait what they
       do to a list, and the word stays a word.
    3. `popped_append_onList`, `popped_append_runOnList` — on a list, what was
       popped and what waits is what was pushed, in order.
    4. `follows_step`, `follows_run` — the queue follows the list call by call.
    5. `pops_follow_pushes` — the above for every sequence of calls.
-/

namespace ResumableUpload

/-! ## The count of a queue -/

namespace FragmentQueue

/-- The number counted along is that of the bytes that wait. -/
def Counted (q : FragmentQueue) : Prop := q.queuedBytes = totalLen q.toList

variable {q rest : FragmentQueue} {f : Fragment}

theorem counted_empty : empty.Counted := rfl

theorem Counted.push (h : q.Counted) (f : Fragment) : (q.push f).Counted := by
  show q.queuedBytes + f.len = totalLen (q.push f).toList
  rw [toList_push, totalLen_concat, h]

/-- What comes off is counted, so it can be taken from the count. -/
theorem Counted.len_le_of_pop? (h : q.Counted) (hpop : q.pop? = some (f, rest)) :
    f.len ≤ q.queuedBytes := by
  rw [h, toList_of_pop? hpop, totalLen_cons]
  exact Nat.le_add_right _ _

theorem Counted.of_pop? (h : q.Counted) (hpop : q.pop? = some (f, rest)) : rest.Counted := by
  rw [Counted, queuedBytes_of_pop? hpop, h, toList_of_pop? hpop, totalLen_cons,
    Nat.add_sub_cancel_left]

end FragmentQueue

/-! ## The count in a word -/

namespace QueueWords

/-- These fragments wait, and both counts are of their bytes. -/
structure Holds (q : QueueWords) (waiting : List Fragment) : Prop where
  toList : q.queue.toList = waiting
  counted : q.queue.Counted
  exact : q.bytes.toNat = q.queue.queuedBytes

variable {q : QueueWords} {waiting : List Fragment} {f : Fragment}

theorem holds_empty : empty.Holds [] := ⟨rfl, FragmentQueue.counted_empty, rfl⟩

theorem Holds.queuedBytes (h : q.Holds waiting) : q.queue.queuedBytes = totalLen waiting := by
  rw [← h.toList]
  exact h.counted

theorem Holds.bytes (h : q.Holds waiting) : q.bytes.toNat = totalLen waiting :=
  h.exact.trans h.queuedBytes

theorem Holds.push (h : q.Holds waiting) (hfits : totalLen waiting + f.len < UInt64.size) :
    ∃ r, q.push? f = some r ∧ r.Holds (waiting ++ [f]) := by
  rw [← h.bytes] at hfits
  obtain ⟨bytes, hpush, hbytes⟩ := push?_of_fits hfits
  refine ⟨⟨q.queue.push f, bytes⟩, hpush, ?_, h.counted.push f, ?_⟩
  · rw [FragmentQueue.toList_push, h.toList]
  · show bytes.toNat = q.queue.queuedBytes + f.len
    rw [hbytes, h.exact]

/-- A pop fails nowhere, however many bytes wait. -/
theorem Holds.pop (h : q.Holds waiting) :
    ∃ r, q.pop? = some (waiting.head?, r) ∧ r.Holds waiting.tail := by
  cases waiting with
  | nil => exact ⟨q, pop?_of_none ((FragmentQueue.pop?_eq_none_iff _).mpr h.toList), h⟩
  | cons f waiting =>
    obtain ⟨rest, hpop, hrest⟩ := FragmentQueue.exists_pop? h.toList
    have hle : f.len ≤ q.bytes.toNat := by
      rw [h.exact]
      exact h.counted.len_le_of_pop? hpop
    obtain ⟨bytes, hword, hbytes⟩ := pop?_of_some hpop hle
    refine ⟨⟨rest, bytes⟩, hword, hrest, h.counted.of_pop? hpop, ?_⟩
    show bytes.toNat = rest.queuedBytes
    rw [FragmentQueue.queuedBytes_of_pop? hpop, ← h.exact, ← hbytes, Nat.add_sub_cancel]

end QueueWords

/-! ## Calls on a queue -/

/-- A call on a queue. -/
inductive QueueCall where
  | push (fragment : Fragment)
  | pop
  deriving DecidableEq, Repr

/-- A queue, and what its pops answered so far. -/
structure QueueTrace (σ : Type) where
  state : σ
  answers : List (Option Fragment)
  deriving DecidableEq, Repr

namespace QueueTrace

/-- The fragments that came off, in order. -/
def popped {σ : Type} (t : QueueTrace σ) : List Fragment := t.answers.reduceOption

end QueueTrace

namespace QueueCall

/-- The fragment that a call pushes. -/
def pushed? : QueueCall → Option Fragment
  | push f => some f
  | pop => none

/-- The fragments that calls push, in order. -/
def pushed (calls : List QueueCall) : List Fragment := calls.filterMap pushed?

/-- A call on a plain list: fragments go onto its end, and come off its front. -/
def onList (t : QueueTrace (List Fragment)) : QueueCall → QueueTrace (List Fragment)
  | push f => ⟨t.state ++ [f], t.answers⟩
  | pop => ⟨t.state.tail, t.answers ++ [t.state.head?]⟩

/-- A call on a queue; nothing, where its count leaves the words. -/
def onWords? (t : QueueTrace QueueWords) : QueueCall → Option (QueueTrace QueueWords)
  | push f => (t.state.push? f).map fun state => ⟨state, t.answers⟩
  | pop => t.state.pop?.map fun (answer, state) => ⟨state, t.answers ++ [answer]⟩

/-- Calls on an empty list, one after another. -/
def runOnList (calls : List QueueCall) : QueueTrace (List Fragment) :=
  calls.foldl onList ⟨[], []⟩

/-- Calls on an empty queue, one after another. -/
def runOnWords? (calls : List QueueCall) : Option (QueueTrace QueueWords) :=
  calls.foldlM onWords? ⟨.empty, []⟩

theorem pushed_cons (call : QueueCall) (calls : List QueueCall) :
    pushed (call :: calls) = pushed [call] ++ pushed calls := by
  cases call <;> rfl

/-! ## The order of a list -/

/-- What came off and what waits grows by what is pushed, at its end. -/
theorem popped_append_onList (t : QueueTrace (List Fragment)) (call : QueueCall) :
    (call.onList t).popped ++ (call.onList t).state = t.popped ++ t.state ++ pushed [call] := by
  cases call with
  | push f => exact (List.append_assoc _ _ _).symm
  | pop =>
    show (t.answers ++ [t.state.head?]).reduceOption ++ t.state.tail = t.popped ++ t.state ++ []
    rw [List.reduceOption_append, List.reduceOption_singleton, List.append_assoc, List.append_nil]
    cases t.state <;> rfl

theorem popped_append_foldl (t : QueueTrace (List Fragment)) (calls : List QueueCall) :
    (calls.foldl onList t).popped ++ (calls.foldl onList t).state =
      t.popped ++ t.state ++ pushed calls := by
  induction calls generalizing t with
  | nil => exact (List.append_nil _).symm
  | cons call rest ih =>
    rw [List.foldl_cons, ih, popped_append_onList, List.append_assoc, ← pushed_cons]

theorem popped_append_runOnList (calls : List QueueCall) :
    (runOnList calls).popped ++ (runOnList calls).state = pushed calls :=
  popped_append_foldl ⟨[], []⟩ calls

theorem totalLen_onList_le (t : QueueTrace (List Fragment)) (call : QueueCall) :
    totalLen (call.onList t).state ≤ totalLen t.state + totalLen (pushed [call]) := by
  cases call with
  | push f => exact Nat.le_of_eq (totalLen_append t.state [f])
  | pop =>
    show totalLen t.state.tail ≤ _
    cases t.state with
    | nil => exact Nat.zero_le _
    | cons f rest =>
      rw [List.tail_cons, totalLen_cons]
      omega

end QueueCall

/-! ## The queue beside the list -/

namespace QueueTrace

open QueueCall

/-- A queue stands where a list does: it gave the same answers, and the same fragments wait. -/
structure Follows (t : QueueTrace QueueWords) (l : QueueTrace (List Fragment)) : Prop where
  answers : t.answers = l.answers
  holds : t.state.Holds l.state

variable {t : QueueTrace QueueWords} {l : QueueTrace (List Fragment)}

theorem follows_empty : (⟨.empty, []⟩ : QueueTrace QueueWords).Follows ⟨[], []⟩ :=
  ⟨rfl, QueueWords.holds_empty⟩

theorem follows_step (h : t.Follows l) (call : QueueCall)
    (hfits : totalLen l.state + totalLen (pushed [call]) < UInt64.size) :
    ∃ u, call.onWords? t = some u ∧ u.Follows (call.onList l) := by
  cases call with
  | push f =>
    obtain ⟨state, hpush, hholds⟩ := h.holds.push hfits
    exact ⟨⟨state, t.answers⟩, by rw [onWords?, hpush]; rfl, h.answers, hholds⟩
  | pop =>
    obtain ⟨state, hpop, hholds⟩ := h.holds.pop
    refine ⟨⟨state, t.answers ++ [l.state.head?]⟩, by rw [onWords?, hpop]; rfl, ?_, hholds⟩
    exact congrArg (· ++ [l.state.head?]) h.answers

theorem follows_run (h : t.Follows l) (calls : List QueueCall)
    (hfits : totalLen l.state + totalLen (pushed calls) < UInt64.size) :
    ∃ u, calls.foldlM onWords? t = some u ∧ u.Follows (calls.foldl onList l) := by
  induction calls generalizing t l with
  | nil => exact ⟨t, rfl, h⟩
  | cons call rest ih =>
    rw [pushed_cons, totalLen_append] at hfits
    obtain ⟨u, hu, hfollows⟩ := follows_step h call (by omega)
    -- what waits after the call leaves room for what the others push
    have hgrown := totalLen_onList_le l call
    obtain ⟨v, hv, hlast⟩ := ih hfollows (by omega)
    exact ⟨v, by rw [List.foldlM_cons, hu]; exact hv, hlast⟩

end QueueTrace

/-- A queue is a list with its bytes counted. After any calls whose pushes come to a word of bytes, no
count has left the words; the pops answered as those of a plain list, and the same fragments wait. What
came off and then what waits is what was pushed, in that order. So the next pop answers the fragment
behind those that came off already, and none just where all did; its bytes are among those counted, and
the difference does not fall below zero. The figures are those of the fragments that wait, and there are
no bytes where none does. -/
theorem pops_follow_pushes (calls : List QueueCall)
    (hbytes : totalLen (QueueCall.pushed calls) < UInt64.size) :
    let l := QueueCall.runOnList calls
    ∃ t, QueueCall.runOnWords? calls = some t ∧
      t.answers = l.answers ∧ t.state.queue.toList = l.state ∧
      t.popped ++ t.state.queue.toList = QueueCall.pushed calls ∧
      (∃ rest, t.state.pop? = some ((QueueCall.pushed calls)[t.popped.length]?, rest)) ∧
      (t.state.queue.pop? = none ↔ t.popped = QueueCall.pushed calls) ∧
      (∀ f rest, t.state.queue.pop? = some (f, rest) →
        f.len ≤ t.state.queue.queuedBytes ∧ f.len ≤ t.state.bytes.toNat) ∧
      t.state.queue.size = l.state.length ∧ t.state.queue.isEmpty = l.state.isEmpty ∧
      t.state.queue.queuedBytes = totalLen l.state ∧ t.state.bytes.toNat = totalLen l.state ∧
      (t.state.queue.isEmpty = true → t.state.queue.queuedBytes = 0 ∧ t.state.bytes = 0) := by
  intro l
  have hfits : totalLen [] + totalLen (QueueCall.pushed calls) < UInt64.size :=
    (Nat.zero_add _).symm ▸ hbytes
  obtain ⟨t, hrun, hanswers, hholds⟩ := QueueTrace.follows_run QueueTrace.follows_empty calls hfits
  have horder : t.popped ++ t.state.queue.toList = QueueCall.pushed calls := by
    rw [QueueTrace.popped, hanswers, hholds.toList]
    exact QueueCall.popped_append_runOnList calls
  have hnext : (QueueCall.pushed calls)[t.popped.length]? = l.state.head? := by
    rw [← horder, List.getElem?_append_right (Nat.le_refl _), Nat.sub_self, ← List.head?_eq_getElem?,
      hholds.toList]
    rfl
  refine ⟨t, hrun, hanswers, hholds.toList, horder, ?_, ?_, ?_, ?_, ?_, hholds.queuedBytes,
    hholds.bytes, ?_⟩
  · obtain ⟨rest, hpop, -⟩ := hholds.pop
    exact ⟨rest, hnext ▸ hpop⟩
  · rw [FragmentQueue.pop?_eq_none_iff, ← horder, List.self_eq_append_right]
  · intro f rest hpop
    have hle := hholds.counted.len_le_of_pop? hpop
    exact ⟨hle, hholds.exact ▸ hle⟩
  · rw [FragmentQueue.size_eq, hholds.toList]
    rfl
  · rw [FragmentQueue.isEmpty_eq, hholds.toList]
    rfl
  · intro hempty
    rw [FragmentQueue.isEmpty_eq, List.isEmpty_iff] at hempty
    have hzero : t.state.queue.queuedBytes = 0 := by
      rw [hholds.counted, hempty]
      rfl
    exact ⟨hzero, UInt64.toNat_inj.mp (hholds.exact.trans hzero)⟩

/-- A pop before anything came, and a fragment of no bytes among others, which waits for its turn too. -/
theorem empty_fragment_waits_its_turn :
    let calls : List QueueCall := [.pop, .push ⟨50, #[1, 2, 3]⟩, .push ⟨0, #[]⟩, .pop,
      .push ⟨20, #[4]⟩, .pop, .pop, .pop]
    totalLen (QueueCall.pushed calls) < UInt64.size ∧
      ∃ t, QueueCall.runOnWords? calls = some t ∧
        t.answers = [none, some ⟨50, #[1, 2, 3]⟩, some ⟨0, #[]⟩, some ⟨20, #[4]⟩, none] ∧
        t.popped = QueueCall.pushed calls ∧ t.state.queue.pop? = none ∧
        t.state.queue.queuedBytes = 0 ∧ t.state.bytes.toNat = 0 := by
  intro calls
  have hbytes : totalLen (QueueCall.pushed calls) < UInt64.size := by decide
  obtain ⟨t, hrun, hanswers, -, -, -, hnone, -, -, -, hcount, hword, -⟩ :=
    pops_follow_pushes calls hbytes
  have hpopped : t.popped = QueueCall.pushed calls := by
    rw [QueueTrace.popped, hanswers]
    decide
  exact ⟨hbytes, t, hrun, hanswers, hpopped, hnone.mpr hpopped, hcount, hword⟩

end ResumableUpload
