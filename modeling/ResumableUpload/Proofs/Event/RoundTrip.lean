import Mathlib.Data.List.TakeWhile
import ResumableUpload.Event.Json
import ResumableUpload.Proofs.Event.Reader

/-
  Round trip — an event is read back from its text

  Each piece of a text is told of by what it does to a reader: an escaped
  character gives back the character, a string or a number in front of a mark
  gives the scalar, a member one more member of the object it stands in. What
  the strings hold is of no account, so a path that looks like further members
  is still one path. The text of an event is an object of such members; it is
  read as the event's value, and the value tells which event it was.

  What is proved:
    1. `run_escapeChar`, `run_quote` — strings; `scalar?_toDigits` — numbers.
    2. `reads_quote`, `reads_number` — both in front of a mark.
    3. `plain_quote`, `plain_object` — no control character stands in a text.
    4. `Member.run_written`, `Member.run_tail`, `read?_object` — members and
       objects.
    5. `event_text_reads_back` — the same, said of events.
-/

namespace ResumableUpload

namespace Json

open Reader

theorem Reader.run_cons (r : Reader) (c : Char) (cs : List Char) :
    r.run (c :: cs) = (r.next c).bind (·.run cs) := rfl

theorem Reader.run_append (r : Reader) (before cs : List Char) :
    r.run (before ++ cs) = (r.run before).bind (·.run cs) := by
  simp [run, List.foldlM_append]

/-! ## Strings -/

theorem hexValue?_digit : ∀ d < 16, Hex.value? (Hex.digit d) = some d := by decide

theorem character?_toNat (c : Char) : Hex.character? c.toNat = some c := by
  have hvalid : c.toNat.isValidChar := c.valid
  simp [Hex.character?, hvalid, Char.ofNat_toNat]

theorem run_unit {c : Char} (hc : c.toNat < 32) (read : List Char) (s : State) :
    run ⟨.quoted (.unit 4 0) none read, s⟩ (['0', '0'] ++ Hex.pair c.toNat) =
      some ⟨.quoted .plain none (c :: read), s⟩ := by
  have hzero : Hex.value? '0' = some 0 := rfl
  have hfirst := hexValue?_digit (c.toNat / 16) (by omega)
  have hsecond := hexValue?_digit (c.toNat % 16) (by omega)
  have hwhole : c.toNat / 16 * 16 + c.toNat % 16 = c.toNat := by omega
  -- a control character is no half of another
  have hlow : ¬(0xD800 ≤ c.toNat ∧ c.toNat < 0xDC00) := by omega
  simp [run, next, takeQuoted, takeUnit, Hex.pair, hzero, hfirst, hsecond, hwhole, hlow,
    character?_toNat]

/-- What stands for a character of a string is read as that character. -/
theorem run_escapeChar (c : Char) (read : List Char) (s : State) :
    run ⟨.quoted .plain none read, s⟩ (escapeChar c) =
      some ⟨.quoted .plain none (c :: read), s⟩ := by
  have same {d : Char} (h : c.toNat = d.toNat) : c = d := Char.toNat_inj.mp h
  unfold escapeChar
  split_ifs with hquote hslash hback htab hline hform hreturn hcontrol
  · subst hquote; rfl
  · subst hslash; rfl
  · rw [same (d := '\x08') hback]; rfl
  · rw [same (d := '\t') htab]; rfl
  · rw [same (d := '\n') hline]; rfl
  · rw [same (d := '\x0c') hform]; rfl
  · rw [same (d := '\r') hreturn]; rfl
  · exact run_unit hcontrol read s
  · simp [run, next, takeQuoted, hquote, hslash, Nat.le_of_not_lt hcontrol]

theorem run_escape (text read : List Char) (s : State) :
    run ⟨.quoted .plain none read, s⟩ (escape text) =
      some ⟨.quoted .plain none (text.reverse ++ read), s⟩ := by
  induction text generalizing read with
  | nil => rfl
  | cons c text ih =>
    rw [escape, List.flatMap_cons, run_append, run_escapeChar, Option.bind_some, ← escape, ih]
    simp

theorem toList_quote (text : String) :
    (quote text).toList = '"' :: (escape text.toList ++ ['"']) := by
  simp [quote]

/-- A string is read as the text it was made of. -/
theorem run_quote (text : String) (s : State) :
    run ⟨.between, s⟩ (quote text).toList = (s.scalar (.string text)).map (⟨.between, ·⟩) := by
  have hbegin : next ⟨.between, s⟩ '"' = some ⟨.quoted .plain none [], s⟩ := rfl
  rw [toList_quote, run_cons, hbegin, Option.bind_some, run_append, run_escape, Option.bind_some]
  simp [run, next]

/-! ## Numbers -/

theorem toList_number (n : Nat) : (toString n).toList = Nat.toDigits 10 n := by
  rw [Nat.toString_eq_ofList_toDigits, String.toList_ofList]

theorem isDigit_of_mem {n : Nat} : ∀ c ∈ Nat.toDigits 10 n, c.isDigit = true :=
  fun _ hc => Nat.isDigit_of_mem_toDigits (by omega) (by omega) hc

theorem digitChar_ne_zero : ∀ d < 10, d ≠ 0 → Nat.digitChar d ≠ '0' := by decide

theorem head?_toDigits {n : Nat} (hn : n ≠ 0) : (Nat.toDigits 10 n).head? ≠ some '0' := by
  induction n using Nat.strongRecOn with
  | _ n ih =>
    rcases Nat.lt_or_ge n 10 with hlt | hge
    · rw [Nat.toDigits_of_lt_base hlt, List.head?_singleton]
      exact fun h => digitChar_ne_zero n hlt hn (Option.some.inj h)
    · have hfront := ih (n / 10) (by omega) (by omega)
      obtain ⟨d, ds, hds⟩ :=
        List.exists_cons_of_ne_nil (Nat.toDigits_ne_nil (n := n / 10) (b := 10))
      rw [Nat.toDigits_of_base_le (by omega) hge, hds]
      rwa [hds] at hfront

theorem whole?_toDigits (n : Nat) : whole? (Nat.toDigits 10 n) = some (Nat.toDigits 10 n, []) := by
  have htake := List.takeWhile_eq_self_iff.mpr (isDigit_of_mem (n := n))
  have hdrop := List.dropWhile_eq_nil_iff.mpr (isDigit_of_mem (n := n))
  have hfront : Nat.toDigits 10 n = ['0'] ∨ (Nat.toDigits 10 n).head? ≠ some '0' := by
    rcases eq_or_ne n 0 with rfl | hn
    · exact .inl rfl
    · exact .inr (head?_toDigits hn)
  simp [whole?, digits?, htake, hdrop, Nat.toDigits_ne_nil, hfront]

theorem unsigned?_toDigits (n : Nat) :
    unsigned? false (Nat.toDigits 10 n) = some (.ofNat n) := by
  simp [unsigned?, whole?_toDigits, fraction?, exponent?, Decimal.ofNat,
    Nat.ofDigitChars_ten_toDigits]

theorem ne_of_isDigit {c d : Char} (hc : c.isDigit = true) (hd : d.isDigit = false) : c ≠ d := by
  rintro rfl
  simp [hd] at hc

/-- A whole number is read from its digits. -/
theorem scalar?_toDigits (n : Nat) :
    scalar? (Nat.toDigits 10 n) = some (.number (.ofNat n)) := by
  obtain ⟨d, ds, hds⟩ := List.exists_cons_of_ne_nil (Nat.toDigits_ne_nil (n := n) (b := 10))
  have hd : d.isDigit = true := isDigit_of_mem (n := n) d (by simp [hds])
  have hnumber : Decimal.ofChars? (d :: ds) = some (.ofNat n) := by
    rw [← unsigned?_toDigits, hds]
    unfold Decimal.ofChars?
    split
    · rename_i hminus
      exact absurd (List.cons.inj hminus).1 (ne_of_isDigit hd rfl)
    · rfl
  -- the words begin with letters
  have hn : d ≠ 'n' := ne_of_isDigit hd rfl
  have ht : d ≠ 't' := ne_of_isDigit hd rfl
  have hf : d ≠ 'f' := ne_of_isDigit hd rfl
  simp [hds, scalar?, hn, ht, hf, hnumber]

theorem goesOn_of_isDigit {c : Char} (hc : c.isDigit = true) :
    isBlank c = false ∧ isMark c = false ∧ c ≠ '"' := by
  have hne {d : Char} (hd : d.isDigit = false) : c ≠ d := ne_of_isDigit hc hd
  refine ⟨?_, ?_, hne rfl⟩
  · simp [isBlank, hne (d := ' ') rfl, hne (d := '\t') rfl, hne (d := '\n') rfl,
      hne (d := '\r') rfl]
  · simp [isMark, hne (d := '[') rfl, hne (d := ']') rfl, hne (d := '\x7b') rfl,
      hne (d := '\x7d') rfl, hne (d := ':') rfl, hne (d := ',') rfl]

theorem run_digits {cs : List Char} (hcs : ∀ c ∈ cs, c.isDigit = true) (read : List Char)
    (s : State) : run ⟨.bare read, s⟩ cs = some ⟨.bare (cs.reverse ++ read), s⟩ := by
  induction cs generalizing read with
  | nil => rfl
  | cons c cs ih =>
    obtain ⟨hblank, hmark, hquote⟩ := goesOn_of_isDigit (hcs c List.mem_cons_self)
    have hnext : next ⟨.bare read, s⟩ c = some ⟨.bare (c :: read), s⟩ := by
      simp [next, hblank, hmark, hquote]
    rw [run_cons, hnext, Option.bind_some, ih fun d hd => hcs d (List.mem_cons_of_mem _ hd)]
    simp

theorem run_toDigits (n : Nat) (s : State) :
    run ⟨.between, s⟩ (Nat.toDigits 10 n) = some ⟨.bare (Nat.toDigits 10 n).reverse, s⟩ := by
  obtain ⟨d, ds, hds⟩ := List.exists_cons_of_ne_nil (Nat.toDigits_ne_nil (n := n) (b := 10))
  have hall : ∀ c ∈ d :: ds, c.isDigit = true := hds ▸ isDigit_of_mem
  obtain ⟨hblank, hmark, hquote⟩ := goesOn_of_isDigit (hall d List.mem_cons_self)
  have hbegin : next ⟨.between, s⟩ d = some ⟨.bare [d], s⟩ := by
    simp [next, begin, hblank, hmark, hquote]
  rw [hds, run_cons, hbegin, Option.bind_some,
    run_digits fun c hc => hall c (List.mem_cons_of_mem _ hc), List.reverse_cons]

/-! ## Scalars in front of a mark -/

/-- In front of a mark, the text is read as the scalar. -/
def Reads (text : List Char) (v : Value) : Prop :=
  ∀ (s : State) (c : Char) (rest : List Char), isMark c = true →
    run ⟨.between, s⟩ (text ++ c :: rest) =
      (s.scalar v).bind fun s => run ⟨.between, s⟩ (c :: rest)

theorem reads_quote (text : String) : Reads (quote text).toList (.string text) := by
  intro s c rest _
  rw [run_append, run_quote, Option.bind_map]
  rfl

theorem reads_number (n : Nat) : Reads (toString n).toList (.number (.ofNat n)) := by
  intro s c rest hc
  -- the mark ends the number, and is then read as it is between tokens
  have hnext : next ⟨.bare (Nat.toDigits 10 n).reverse, s⟩ c =
      (settled ⟨.bare (Nat.toDigits 10 n).reverse, s⟩).bind (begin c) := by
    simp [next, hc]
  have hsettled : settled ⟨.bare (Nat.toDigits 10 n).reverse, s⟩ =
      s.scalar (.number (.ofNat n)) := by
    simp [settled, scalar?_toDigits]
  rw [toList_number, run_append, run_toDigits, Option.bind_some, run_cons, hnext, hsettled,
    Option.bind_assoc]
  rfl

/-! ## Control characters -/

/-- No control character below U+0020 is among the characters. -/
def Plain (cs : List Char) : Prop := ∀ c ∈ cs, 0x20 ≤ c.toNat

instance (cs : List Char) : Decidable (Plain cs) :=
  List.decidableBAll (fun c : Char => 0x20 ≤ c.toNat) cs

theorem plain_append {cs ds : List Char} : Plain (cs ++ ds) ↔ Plain cs ∧ Plain ds :=
  List.forall_mem_append

theorem plain_cons {c : Char} {cs : List Char} : Plain (c :: cs) ↔ 0x20 ≤ c.toNat ∧ Plain cs :=
  List.forall_mem_cons

theorem le_toNat_digit : ∀ d < 16, 0x20 ≤ (Hex.digit d).toNat := by decide

theorem plain_escapeChar (c : Char) : Plain (escapeChar c) := by
  unfold escapeChar
  split_ifs with _ _ _ _ _ _ _ hcontrol
  iterate 7 · decide
  · have hfirst := le_toNat_digit (c.toNat / 16) (by omega)
    have hsecond := le_toNat_digit (c.toNat % 16) (by omega)
    exact plain_append.mpr ⟨by decide,
      plain_cons.mpr ⟨hfirst, plain_cons.mpr ⟨hsecond, List.forall_mem_nil _⟩⟩⟩
  · exact plain_cons.mpr ⟨Nat.le_of_not_lt hcontrol, List.forall_mem_nil _⟩

theorem plain_quote (text : String) : Plain (quote text).toList := by
  have hescape : Plain (escape text.toList) := by
    intro d hd
    obtain ⟨c, _, hdc⟩ := List.mem_flatMap.mp hd
    exact plain_escapeChar c d hdc
  rw [toList_quote]
  exact plain_cons.mpr ⟨by decide, plain_append.mpr ⟨hescape, by decide⟩⟩

theorem plain_number (n : Nat) : Plain (toString n).toList := by
  intro c hc
  rw [toList_number] at hc
  have hdigit := (Char.isDigit_iff_toNat.mp (isDigit_of_mem c hc)).1
  exact Nat.le_trans (by decide) hdigit

/-! ## Members and objects -/

/-- A member of an object: its name, the text of its value, and the scalar the text is read as. -/
structure Member where
  name : String
  text : String
  value : Value
  reads : Reads text.toList value
  plain : Plain text.toList

namespace Member

/-- A member that is a string. -/
def ofText (name text : String) : Member :=
  ⟨name, quote text, .string text, reads_quote text, plain_quote text⟩

/-- A member that is a whole number. -/
def ofCount (name : String) (n : Nat) : Member :=
  ⟨name, toString n, .number (.ofNat n), reads_number n, plain_number n⟩

/-- The member as it is written. -/
def written (m : Member) : String := member m.name m.text

/-- The member of the value. -/
def entry (m : Member) : String × Value := (m.name, m.value)

theorem toList_written (m : Member) :
    m.written.toList = (quote m.name).toList ++ ':' :: m.text.toList := by
  simp [written, member]

theorem plain_written (m : Member) : Plain m.written.toList := by
  rw [toList_written]
  exact plain_append.mpr ⟨plain_quote m.name, plain_cons.mpr ⟨by decide, m.plain⟩⟩

theorem run_written (m : Member) {s : State} {read : List (String × Value)} {around : List Open}
    (hs : s.scalar (.string m.name) = some (.colon read m.name around)) {c : Char}
    (hc : isMark c = true) (rest : List Char) :
    run ⟨.between, s⟩ (m.written.toList ++ c :: rest) =
      run ⟨.between, .afterMember (m.entry :: read) around⟩ (c :: rest) := by
  have hcolon : next ⟨.between, .colon read m.name around⟩ ':' =
      some ⟨.between, .value (.object read m.name :: around)⟩ := rfl
  have hvalue : State.scalar m.value (.value (.object read m.name :: around)) =
      some (.afterMember (m.entry :: read) around) := rfl
  rw [toList_written, List.append_assoc, List.cons_append, reads_quote m.name s ':' _ rfl, hs,
    Option.bind_some, run_cons, hcolon, Option.bind_some, m.reads _ c rest hc, hvalue,
    Option.bind_some]

/-- The members of an object with commas between them, and its end. -/
def tail (members : List Member) : List Char :=
  [','].intercalate (members.map (·.written.toList)) ++ ['\x7d']

theorem tail_singleton (m : Member) : tail [m] = m.written.toList ++ ['\x7d'] := by
  simp [tail]

theorem tail_cons_cons (m m' : Member) (members : List Member) :
    tail (m :: m' :: members) = m.written.toList ++ ',' :: tail (m' :: members) := by
  simp [tail, List.intercalate_cons_cons]

theorem run_tail (m : Member) (members : List Member) {s : State} {read : List (String × Value)}
    {around : List Open}
    (hs : ∀ name, s.scalar (.string name) = some (.colon read name around)) :
    run ⟨.between, s⟩ (tail (m :: members)) =
      some ⟨.between, .after (.object (read.reverse ++ (m :: members).map entry)) around⟩ := by
  induction members generalizing m s read with
  | nil =>
    have hend : next ⟨.between, .afterMember (m.entry :: read) around⟩ '\x7d' =
        some ⟨.between, .after (.object (m.entry :: read).reverse) around⟩ := rfl
    rw [tail_singleton, m.run_written (hs m.name) rfl, run_cons, hend, Option.bind_some,
      List.reverse_cons, List.map_singleton]
    rfl
  | cons m' members ih =>
    have hcomma : next ⟨.between, .afterMember (m.entry :: read) around⟩ ',' =
        some ⟨.between, .nextName (m.entry :: read) around⟩ := rfl
    rw [tail_cons_cons, m.run_written (hs m.name) rfl, run_cons, hcomma, Option.bind_some,
      ih m' fun _ => rfl, List.reverse_cons, List.append_assoc]
    rfl

theorem plain_tail (m : Member) (members : List Member) : Plain (tail (m :: members)) := by
  induction members generalizing m with
  | nil => exact tail_singleton m ▸ plain_append.mpr ⟨m.plain_written, by decide⟩
  | cons m' members ih =>
    rw [tail_cons_cons]
    exact plain_append.mpr ⟨m.plain_written, plain_cons.mpr ⟨by decide, ih m'⟩⟩

theorem toList_object (members : List Member) :
    (object (members.map written)).toList = '\x7b' :: tail members := by
  simp [object, tail, String.toList_intercalate, Function.comp_def]

end Member

open Member

/-- An object is read as the one with its members' values. -/
theorem read?_object (m : Member) (members : List Member) :
    read? (object ((m :: members).map written)) = some (.object ((m :: members).map entry)) := by
  have hopen : next start '\x7b' = some ⟨.between, .firstName []⟩ := rfl
  rw [read?, toList_object, run_cons, hopen, Option.bind_some, run_tail m members fun _ => rfl]
  rfl

theorem plain_object (m : Member) (members : List Member) :
    Plain (object ((m :: members).map written)).toList := by
  rw [toList_object]
  exact plain_cons.mpr ⟨by decide, plain_tail m members⟩

end Json

/-! ## Events -/

namespace Event

open Json

/-- What an event is called. -/
def kind : Event → String
  | completed _ _ => "completed"
  | failed _ _ _ _ => "failed"
  | removed _ => "removed"

/-- The members of an event behind the first. -/
def members : Event → List Member
  | completed path size => [.ofText "path" path, .ofCount "size" size]
  | failed path position len message =>
    [.ofText "path" path, .ofCount "position" position, .ofCount "len" len,
      .ofText "message" message]
  | removed path => [.ofText "path" path]

theorem toJson_eq (e : Event) :
    e.toJson = object ((.ofText "type" e.kind :: e.members).map Member.written) := by
  cases e <;> rfl

theorem value_eq (e : Event) :
    e.value = .object ((.ofText "type" e.kind :: e.members).map Member.entry) := by
  cases e <;> rfl

theorem plain_toJson (e : Event) : Plain e.toJson.toList := by
  rw [toJson_eq]
  exact plain_object _ _

theorem read?_toJson (e : Event) : read? e.toJson = some e.value := by
  rw [toJson_eq, value_eq, read?_object]

theorem ofValue?_value (e : Event) : ofValue? e.value = some e := by
  cases e <;> rfl

theorem ofJson?_toJson (e : Event) : ofJson? e.toJson = some e := by
  rw [ofJson?, read?_toJson, Option.bind_some, ofValue?_value]

-- blanks, another order, and a path each character of which is escaped
example : ofJson? " \x7b \"size\" : 20, \"path\" : \"\\u00e4\\/\\ud83d\\ude00\",
      \"type\" : \"completed\" \x7d " = some (completed "ä/😀" 20) := by
  decide

theorem toJson_injective {e other : Event} (h : e.toJson = other.toJson) : e = other :=
  Option.some.inj (by rw [← ofJson?_toJson, h, ofJson?_toJson])

end Event

/-- The text of an event is one line, without control characters. Read as JSON, it is an object with
the kind, the strings and the numbers of the event, so the event can be told from it, and no other
event has that text. -/
theorem event_text_reads_back (e : Event) :
    (∀ c ∈ e.toJson.toList, 0x20 ≤ c.toNat) ∧
    Json.read? e.toJson = some e.value ∧
    Event.ofJson? e.toJson = some e ∧
    ∀ other : Event, other.toJson = e.toJson ↔ other = e :=
  ⟨e.plain_toJson, e.read?_toJson, e.ofJson?_toJson,
    fun _ => ⟨Event.toJson_injective, congrArg Event.toJson⟩⟩

end ResumableUpload
