import IncludeMoves.CommandLine
import IncludeMoves.Proofs.Revising

/-!
# The order of options

A command line is read from left to right, by a state with a place for each option, a list of positional
arguments, and an occurrence that has not been looked at yet. Where an option stands makes no difference:
what has been read by then is determined by which options and words have been read, since each option has
a place of its own, and the words alone stand in an order.

* `CommandLine.Choice` — an option with the value chosen for it, and the ways to write it;
* `CommandLine.Options` — what a user may choose, each option at most once;
* `CommandLine.IsLaidOut` — the choices in any order, mixed with words or in front of `--` and words;
* `CommandLine.State.Has` — what a state has read, whatever the order;
* `CommandLine.State.Has.option`, `word`, `escape` — the steps;
* `CommandLine.parse_laid_out` — the invocation that all these command lines ask for.
-/

namespace IncludeMoves

namespace CommandLine

/-! ### Layouts -/

/-- An option and what is chosen for it. The switches for help and the version are among them, though no
writing is one for those. -/
inductive Choice where
  | root (path : Path)
  | format (name : String)
  | switch (s : Switch)
  deriving DecidableEq, Repr

/-- The option that a choice is one for. -/
def Choice.option : Choice → Setting ⊕ Switch
  | root _ => .inl .root
  | format _ => .inl .format
  | switch s => .inr s

/-- **How a choice is written**, in one argument. A setting has its value behind `=`; how a value in an
argument of its own is read is not said here. -/
inductive Choice.IsWritten : Choice → Argument → Prop
  | root (p : Path) : IsWritten (.root p) (Utf8.encode "--root=".toList ++ p.bytes)
  | format (name : String) :
      IsWritten (.format name) (Utf8.encode "--format=".toList ++ Utf8.encode name.toList)
  | noColour : IsWritten (.switch .noColour) (Utf8.encode "--no-color".toList)
  | quiet : IsWritten (.switch .quiet) (Utf8.encode "--quiet".toList)
  | quietLetter : IsWritten (.switch .quiet) (Utf8.encode "-q".toList)
  | verbose : IsWritten (.switch .verbose) (Utf8.encode "--verbose".toList)
  | verboseLetter : IsWritten (.switch .verbose) (Utf8.encode "-v".toList)

/-- What is chosen, option by option. -/
structure Options where
  root? : Option Path
  format? : Option String
  noColour : Bool
  quiet : Bool
  verbose : Bool
  deriving DecidableEq, Repr

/-- The choices, each for another option. -/
def Options.choices (o : Options) : List Choice :=
  (o.root?.map .root).toList ++ (o.format?.map .format).toList ++
    (if o.noColour then [.switch .noColour] else []) ++ (if o.quiet then [.switch .quiet] else []) ++
    (if o.verbose then [.switch .verbose] else [])

/-- **The invocation that options and words ask for.** The environment is asked for a root only if none is
chosen. -/
def Options.invocation (o : Options) (table : Argument) (target? environmentRoot? : Option Argument) :
    Invocation where
  table := ⟨table⟩
  target? := target?.map Path.mk
  root? := o.root?.or (environmentRoot?.map Path.mk)
  format := o.format?.getD "text"
  noColour := o.noColour
  quiet := o.quiet
  verbose := o.verbose

/-- **Choices mixed with words**: the words do not begin with `-`. The two lists say what there is of
each kind in order, and nothing of how they are mixed. -/
inductive IsMixed : List Choice → List Argument → List Argument → Prop
  | nil : IsMixed [] [] []
  | option {c : Choice} {a : Argument} {cs : List Choice} {ws as : List Argument} :
      c.IsWritten a → IsMixed cs ws as → IsMixed (c :: cs) ws (a :: as)
  | word {w : Argument} {cs : List Choice} {ws as : List Argument} :
      w.head? ≠ some hyphen → IsMixed cs ws as → IsMixed cs (w :: ws) (w :: as)

/-- **A command line for options and words**: the options in any order, and the words among them, or any
words behind them and `--`. -/
inductive IsLaidOut (o : Options) (words : List Argument) : List Argument → Prop
  | mixed {cs : List Choice} {as : List Argument} : cs.Perm o.choices → IsMixed cs words as →
      IsLaidOut o words as
  | trailing {cs : List Choice} {as : List Argument} : cs.Perm o.choices → IsMixed cs [] as →
      IsLaidOut o words (as ++ Utf8.encode "--".toList :: words)

/-- No option is chosen twice. -/
theorem Options.nodup_choices (o : Options) : (o.choices.map Choice.option).Nodup := by
  obtain ⟨root?, format?, noColour, quiet, verbose⟩ := o
  cases root? <;> cases format? <;> cases noColour <;> cases quiet <;> cases verbose <;>
    simp [choices, Choice.option]

theorem Options.root_mem_choices {o : Options} {p : Path} :
    .root p ∈ o.choices ↔ o.root? = some p := by
  simp [choices]

theorem Options.format_mem_choices {o : Options} {name : String} :
    .format name ∈ o.choices ↔ o.format? = some name := by
  simp [choices]

theorem Options.switch_mem_choices {o : Options} {sw : Switch} :
    .switch sw ∈ o.choices ↔ o.noColour = true ∧ sw = .noColour ∨ o.quiet = true ∧ sw = .quiet ∨
      o.verbose = true ∧ sw = .verbose := by
  simp [choices]

/-! ### Shapes -/

/-- The name of a setting. -/
def Setting.name : Setting → Argument
  | root => Utf8.encode "root".toList
  | format => Utf8.encode "format".toList

/-- A long option with a value. -/
theorem shape_setting {name value : Argument} (hname : equals ∉ name) :
    shape (hyphen :: hyphen :: (name ++ equals :: value)) = .long name (some value) := by
  have htake : (name ++ equals :: value).takeWhile (· != equals) = name := by
    rw [List.takeWhile_append_of_pos fun b hb => bne_iff_ne.mpr (ne_of_mem_of_not_mem hb hname)]
    simp
  simp [shape, htake]

/-- What does not begin with `-` is a word. -/
theorem shape_word {w : Argument} (hw : w.head? ≠ some hyphen) : shape w = .word := by
  match w with
  | [] => rfl
  | [_] => rfl
  | a :: b :: rest =>
    have ha : a ≠ hyphen := fun h => hw (congrArg some h)
    rw [shape, if_neg ha]

/-- The bytes of a text are taken for it. -/
theorem textValue_encode (text : String) : textValue (Utf8.encode text.toList) = .ok text := by
  have hbytes : ByteArray.mk (Utf8.encode text.toList).toArray = text.toUTF8 := by
    rw [String.toUTF8, ← String.utf8Encode_toList, List.utf8Encode, ByteArray.ext_iff,
      List.data_toByteArray]
    rfl
  rw [textValue, fromUTF8?_eq_some.mpr hbytes]

theorem pathValue_of_ne_nil {value : Argument} (h : value ≠ []) : pathValue value = .ok ⟨value⟩ :=
  if_neg h

/-! ### What has been read -/

namespace State

variable {st s : State} {c : Choice} {a w : Argument} {chosen cs : List Choice} {p : Path}
  {name : String} {sw : Switch} {words ws as : List Argument} {trailing : Bool}

/-- **A state with nothing pending** that has read choices and words. Of choices only the set is
recorded, of words the list, so the order of options is lost here. -/
structure Records (s : State) (chosen : List Choice) (words : List Argument) : Prop where
  pending : s.pending? = none
  positionals : s.positionals = words.map Path.mk
  root : ∀ p, s.root? = some p ↔ .root p ∈ chosen
  format : ∀ name, s.format? = some name ↔ .format name ∈ chosen
  switch : ∀ sw, sw ∈ s.switches ↔ .switch sw ∈ chosen

/-- **What a state has read**: so much is recorded once nothing is pending, and there is nothing wrong with
what is. -/
structure Has (st : State) (trailing : Bool) (chosen : List Choice) (words : List Argument) : Prop where
  settles : ∃ s, st.settle = .ok s ∧ s.Records chosen words
  trailing : st.trailing = trailing

/-- Nothing has been read in the beginning. -/
theorem records_start : start.Records [] [] :=
  ⟨rfl, rfl, by simp [start], by simp [start], by simp [start]⟩

namespace Records

theorem settle (h : s.Records chosen words) : s.settle = .ok s := by
  obtain ⟨positionals, root?, format?, switches, pending?, trailing⟩ := s
  cases h.pending
  rfl

/-! What is recorded with one more choice, for an option that had none. -/

theorem chooseRoot (p : Path) (h : s.Records chosen words)
    (hnew : .inl .root ∉ chosen.map Choice.option) :
    s.root? = none ∧ Records { s with root? := some p } (chosen ++ [.root p]) words := by
  have hnone : ∀ p, .root p ∉ chosen := fun p hp => hnew (List.mem_map_of_mem hp)
  refine ⟨?_, ⟨h.pending, h.positionals, ?_, ?_, ?_⟩⟩
  · exact Option.eq_none_iff_forall_ne_some.mpr fun p hp => hnone p ((h.root p).mp hp)
  · simp [hnone, eq_comm]
  · simp [h.format]
  · simp [h.switch]

theorem chooseFormat (name : String) (h : s.Records chosen words)
    (hnew : .inl .format ∉ chosen.map Choice.option) :
    s.format? = none ∧ Records { s with format? := some name } (chosen ++ [.format name]) words := by
  have hnone : ∀ name, .format name ∉ chosen := fun name hname => hnew (List.mem_map_of_mem hname)
  refine ⟨?_, ⟨h.pending, h.positionals, ?_, ?_, ?_⟩⟩
  · exact Option.eq_none_iff_forall_ne_some.mpr fun name hname => hnone name ((h.format name).mp hname)
  · simp [h.root]
  · simp [hnone, eq_comm]
  · simp [h.switch]

theorem chooseSwitch (h : s.Records chosen words) (hnew : .inr sw ∉ chosen.map Choice.option) :
    sw ∉ s.switches ∧
      Records { s with switches := s.switches ++ [sw] } (chosen ++ [.switch sw]) words := by
  refine ⟨fun hsw => hnew (List.mem_map_of_mem ((h.switch sw).mp hsw)),
    ⟨h.pending, h.positionals, ?_, ?_, ?_⟩⟩
  · simp [h.root]
  · simp [h.format]
  · simp [h.switch]

end Records

/-! ### Steps -/

theorem exists_of_map_eq_ok {α β : Type} {x : Except UsageError α} {f : α → β} {b : β}
    (h : x.map f = .ok b) : ∃ a, f a = b := by
  cases x with
  | error e => cases h
  | ok a => exact ⟨a, Except.ok.inj h⟩

/-- A setting has a place of its own. Taking it leaves the words as they are. -/
theorem set_eq_ok {x : Setting} {value : Argument} (h : st.set x value = .ok s) :
    s.positionals = st.positionals ∧ s.trailing = st.trailing := by
  cases x with
  | root =>
    rw [set] at h
    -- The value may be refused, but else nothing than the root is changed.
    split at h
    · cases h
    · obtain ⟨p, rfl⟩ := exists_of_map_eq_ok h
      exact ⟨rfl, rfl⟩
  | format =>
    rw [set] at h
    split at h
    · cases h
    · obtain ⟨name, rfl⟩ := exists_of_map_eq_ok h
      exact ⟨rfl, rfl⟩

/-- **What settling tells of a state**: the words that were pending have been counted, and no setting has
waited for one. -/
theorem settle_eq_ok (h : st.settle = .ok s) :
    s.trailing = st.trailing ∧ st.positionalCount = s.positionals.length ∧
      ∀ w, st.takeWord w = st.takePositional w := by
  -- What is pending is nothing, an option without or with its value, or a word.
  obtain ⟨positionals, root?, format?, switches, pending?, trailing⟩ := st
  match pending? with
  | none =>
    cases h
    exact ⟨rfl, rfl, fun _ => rfl⟩
  | some (.setting _ none) => cases h
  | some (.setting x (some value)) =>
    obtain ⟨hpositionals, htrailing⟩ := set_eq_ok h
    exact ⟨htrailing, congrArg List.length hpositionals.symm, fun _ => rfl⟩
  | some (.positional value) =>
    obtain ⟨p, rfl⟩ := exists_of_map_eq_ok h
    exact ⟨rfl, by simp [positionalCount], fun _ => rfl⟩

/-- The state behind `--`. -/
def escaped (st : State) : State :=
  { st with trailing := true }

theorem set_escaped (st : State) (x : Setting) (value : Argument) :
    st.escaped.set x value = (st.set x value).map escaped := by
  -- Whether the arguments are escaped plays no part in what becomes of a value.
  obtain ⟨positionals, root?, format?, switches, pending?, trailing⟩ := st
  cases x with
  | root =>
    cases root? with
    | none => cases hvalue : pathValue value <;> simp [set, escaped, hvalue, Except.map]
    | some p => rfl
  | format =>
    cases format? with
    | none => cases hvalue : textValue value <;> simp [set, escaped, hvalue, Except.map]
    | some name => rfl

/-- What is pending is settled in the same way behind `--`. -/
theorem settle_escaped (st : State) : st.escaped.settle = st.settle.map escaped := by
  obtain ⟨positionals, root?, format?, switches, pending?, trailing⟩ := st
  match pending? with
  | none => rfl
  | some (.setting _ none) => rfl
  | some (.setting x (some value)) =>
    exact set_escaped ⟨positionals, root?, format?, switches, none, trailing⟩ x value
  | some (.positional value) =>
    cases hvalue : pathValue value <;> simp [settle, escaped, hvalue, Except.map]

/-- A switch is taken for itself, however it is written. -/
theorem take_switch (hst : st.trailing = false) (hc : (Choice.switch sw).IsWritten a) :
    st.take a = st.turnOn sw ∧ sw ≠ .help ∧ sw ≠ .version := by
  -- An argument with one letter is that letter's switch.
  have hletter : ∀ b, switchLetter? b = some sw → st.turnOnLetters [b] = st.turnOn sw := by
    intro b hb
    simp only [turnOnLetters, hb]
    cases st.turnOn sw <;> rfl
  cases hc with
  | noColour => exact ⟨by rw [take, hst]; rfl, nofun, nofun⟩
  | quiet => exact ⟨by rw [take, hst]; rfl, nofun, nofun⟩
  | quietLetter => exact ⟨by rw [take, hst]; exact hletter 113 rfl, nofun, nofun⟩
  | verbose => exact ⟨by rw [take, hst]; rfl, nofun, nofun⟩
  | verboseLetter => exact ⟨by rw [take, hst]; exact hletter 118 rfl, nofun, nofun⟩

/-- A switch that has not been turned on is. -/
theorem turnOn_of_not_mem (hs : st.settle = .ok s) (hsw : sw ∉ s.switches) (hhelp : sw ≠ .help)
    (hversion : sw ≠ .version) :
    st.turnOn sw = .ok { s with switches := s.switches ++ [sw] } := by
  have hcontains : s.switches.contains sw = false := by simpa using hsw
  cases sw with
  | help => exact absurd rfl hhelp
  | version => exact absurd rfl hversion
  | _ => simp only [turnOn, hs, hcontains, Bool.false_eq_true, if_false]

/-- A setting with its value is set. -/
theorem take_setting (x : Setting) (value : Argument) (hst : st.trailing = false)
    (hs : st.settle = .ok s) :
    st.take (hyphen :: hyphen :: (x.name ++ equals :: value)) = s.set x value := by
  have hname : equals ∉ x.name := by cases x <;> decide
  have hswitch : switchNamed? x.name = none := by cases x <;> rfl
  have hsetting : settingNamed? x.name = some x := by cases x <;> rfl
  rw [take, hst, shape_setting hname]
  simp only [takeLong, hswitch, hsetting, hs, Bool.false_eq_true, if_false]

theorem set_root (hnone : s.root? = none) (hp : p.bytes ≠ []) :
    s.set .root p.bytes = .ok { s with root? := some p } := by
  rw [set, hnone, pathValue_of_ne_nil hp]
  rfl

theorem set_format (hnone : s.format? = none) :
    s.set .format (Utf8.encode name.toList) = .ok { s with format? := some name } := by
  rw [set, hnone, textValue_encode]
  rfl

namespace Has

theorem of_records (h : s.Records chosen words) (hs : s.trailing = trailing) :
    s.Has trailing chosen words :=
  ⟨⟨s, h.settle, h⟩, hs⟩

theorem start : State.start.Has false [] [] :=
  of_records records_start rfl

/-- **An option is recorded**, wherever it stands. What was pending is settled first, and since it was a
word this does not fail. -/
theorem option (h : st.Has false chosen words) (hnew : c.option ∉ chosen.map Choice.option)
    (hroot : ∀ p, c = .root p → p.bytes ≠ []) (hc : c.IsWritten a) :
    ∃ st', st.take a = .ok st' ∧ st'.Has false (chosen ++ [c]) words := by
  obtain ⟨⟨s, hs, hrecords⟩, hst⟩ := h
  have htrailing : s.trailing = false := (settle_eq_ok hs).1.trans hst
  cases c with
  -- An option with a value is pending until the next argument, so it is recorded at once.
  | root p =>
    cases hc
    obtain ⟨hnone, hrecords'⟩ := hrecords.chooseRoot p hnew
    have htaken : st.take _ = s.set .root p.bytes := take_setting .root p.bytes hst hs
    exact ⟨_, htaken.trans (set_root hnone (hroot p rfl)), of_records hrecords' htrailing⟩
  | format name =>
    cases hc
    obtain ⟨hnone, hrecords'⟩ := hrecords.chooseFormat name hnew
    have htaken : st.take _ = s.set .format _ := take_setting .format (Utf8.encode name.toList) hst hs
    exact ⟨_, htaken.trans (set_format hnone), of_records hrecords' htrailing⟩
  | switch sw =>
    -- A switch may be set only once, and is none of the two that end the reading.
    obtain ⟨hnot, hrecords'⟩ := hrecords.chooseSwitch hnew
    obtain ⟨htaken, hhelp, hversion⟩ := take_switch hst hc
    exact ⟨_, htaken.trans (turnOn_of_not_mem hs hnot hhelp hversion), of_records hrecords' htrailing⟩

/-- **A word is recorded** behind the words before it. It is pending until the next argument or the end
of the command line, and counts as read already. -/
theorem word (h : st.Has trailing chosen words) (hw : trailing = true ∨ w.head? ≠ some hyphen)
    (hne : w ≠ []) (hroom : words.length < 2) :
    ∃ st', st.take w = .ok st' ∧ st'.Has trailing chosen (words ++ [w]) := by
  obtain ⟨⟨s, hs, hrecords⟩, hst⟩ := h
  obtain ⟨htrailing, hcount, htakeWord⟩ := settle_eq_ok hs
  -- Behind `--` every argument is a word; in front of it this one does not look like an option.
  have htake : st.take w = st.takePositional w := by
    rw [take, hst]
    rcases hw with rfl | hw
    · rfl
    · cases trailing with
      | true => rfl
      | false => rw [if_neg Bool.false_ne_true, shape_word hw, ← htakeWord w]
  have hcount' : ¬2 ≤ st.positionalCount := by
    rw [hcount, hrecords.positionals, List.length_map]
    omega
  -- The word is pending now, and it is recorded when it is settled.
  refine ⟨{ s with pending? := some (.positional w) }, ?_,
    ⟨{ s with positionals := s.positionals ++ [⟨w⟩] }, ?_, ?_⟩, htrailing.trans hst⟩
  · rw [htake, takePositional, if_neg hcount', hs]
  · simp only [settle, pathValue_of_ne_nil hne, Except.map, ← hrecords.pending]
  · refine ⟨hrecords.pending, ?_, hrecords.root, hrecords.format, hrecords.switch⟩
    rw [List.map_append, hrecords.positionals]
    rfl

/-- Behind `--` all arguments are words. -/
theorem escape (h : st.Has false chosen words) :
    ∃ st', st.take (Utf8.encode "--".toList) = .ok st' ∧ st'.Has true chosen words := by
  obtain ⟨⟨s, hs, hrecords⟩, hst⟩ := h
  refine ⟨st.escaped, ?_, ⟨s.escaped, ?_, ?_⟩, rfl⟩
  · rw [take, hst]
    rfl
  · rw [settle_escaped, hs]
    rfl
  · exact ⟨hrecords.pending, hrecords.positionals, hrecords.root, hrecords.format, hrecords.switch⟩

end Has

/-! ### Runs -/

theorem takeAll_cons {st' : State} (h : st.take a = .ok st') : st.takeAll (a :: as) = st'.takeAll as := by
  rw [takeAll, h]

theorem takeAll_append {st' : State} {rest : List Argument} (h : st.takeAll as = .ok st') :
    st.takeAll (as ++ rest) = st'.takeAll rest := by
  induction as generalizing st with
  | nil =>
    cases h
    rfl
  | cons a as ih =>
    cases htake : st.take a with
    | error e => simp [takeAll, htake] at h
    | ok st₁ =>
      rw [takeAll_cons htake] at h
      exact (takeAll_cons htake).trans (ih h)

namespace Has

/-- **Options mixed with words** are recorded in any order, if no option comes twice and there are not too
many words. -/
theorem takeAll_of_isMixed (hmixed : IsMixed cs ws as) (h : st.Has false chosen words)
    (hnodup : ((chosen ++ cs).map Choice.option).Nodup)
    (hroot : ∀ p, .root p ∈ cs → p.bytes ≠ []) (hws : ∀ w ∈ ws, w ≠ [])
    (hroom : words.length + ws.length ≤ 2) :
    ∃ st', st.takeAll as = .ok st' ∧ st'.Has false (chosen ++ cs) (words ++ ws) := by
  -- On how options and words are mixed, with what has been read in front of them.
  induction hmixed generalizing st chosen words with
  | nil => exact ⟨st, rfl, by simpa using h⟩
  | @option c a cs ws as hc _ ih =>
    -- The option is none of those that have been read.
    have hnew : c.option ∉ chosen.map Choice.option := by
      rw [List.map_append, List.map_cons] at hnodup
      exact fun hmem => (List.nodup_append.mp hnodup).2.2 _ hmem _ List.mem_cons_self rfl
    obtain ⟨st₁, htake, h₁⟩ := h.option hnew (fun p hp => hroot p (hp ▸ List.mem_cons_self)) hc
    obtain ⟨st', hall, h'⟩ := ih h₁ (by rwa [List.append_assoc])
      (fun p hp => hroot p (List.mem_cons_of_mem c hp)) hws hroom
    exact ⟨st', (takeAll_cons htake).trans hall, by rwa [List.append_assoc] at h'⟩
  | @word w cs ws as hw _ ih =>
    -- There is still room for the word, since there are two of them at most.
    have hlength : words.length + (ws.length + 1) ≤ 2 := hroom
    obtain ⟨st₁, htake, h₁⟩ := h.word (.inr hw) (hws w List.mem_cons_self) (by omega)
    obtain ⟨st', hall, h'⟩ := ih h₁ hnodup hroot (fun w' hw' => hws w' (List.mem_cons_of_mem w hw'))
      (by rw [List.length_append, List.length_singleton]; omega)
    exact ⟨st', (takeAll_cons htake).trans hall, by rwa [List.append_assoc] at h'⟩

/-- **Words behind `--`** are recorded, whatever they begin with. -/
theorem takeAll_of_trailing (h : st.Has true chosen words) (hws : ∀ w ∈ ws, w ≠ [])
    (hroom : words.length + ws.length ≤ 2) :
    ∃ st', st.takeAll ws = .ok st' ∧ st'.Has true chosen (words ++ ws) := by
  induction ws generalizing st words with
  | nil => exact ⟨st, rfl, by simpa using h⟩
  | cons w ws ih =>
    have hlength : words.length + (ws.length + 1) ≤ 2 := hroom
    obtain ⟨st₁, htake, h₁⟩ := h.word (.inl rfl) (hws w List.mem_cons_self) (by omega)
    obtain ⟨st', hall, h'⟩ := ih h₁ (fun w' hw' => hws w' (List.mem_cons_of_mem w hw'))
      (by rw [List.length_append, List.length_singleton]; omega)
    exact ⟨st', (takeAll_cons htake).trans hall, by rwa [List.append_assoc] at h'⟩

end Has

end State

/-! ### Command lines -/

/-- The choices are read in whatever order they are written. -/
theorem exists_has_of_isMixed {o : Options} {cs : List Choice} {ws as : List Argument}
    (hperm : cs.Perm o.choices) (hmixed : IsMixed cs ws as)
    (hroot : ∀ p, o.root? = some p → p.bytes ≠ []) (hws : ∀ w ∈ ws, w ≠ [])
    (hroom : ws.length ≤ 2) : ∃ st, State.start.takeAll as = .ok st ∧ st.Has false cs ws := by
  refine State.Has.start.takeAll_of_isMixed hmixed ?_ (fun p hp => ?_) hws (by simpa using hroom)
  · exact (hperm.map Choice.option).nodup_iff.mpr o.nodup_choices
  · exact hroot p (o.root_mem_choices.mp (hperm.mem_iff.mp hp))

/-- **What a laid out command line is read as.** Options and words are mixed in front of a `--`, and
behind one there are words only; either way the state records the same. -/
theorem takeAll_of_isLaidOut {o : Options} {words as : List Argument} (h : IsLaidOut o words as)
    (hroot : ∀ p, o.root? = some p → p.bytes ≠ []) (hwords : ∀ w ∈ words, w ≠ [])
    (hroom : words.length ≤ 2) :
    ∃ st trailing cs, State.start.takeAll as = .ok st ∧ cs.Perm o.choices ∧
      st.Has trailing cs words := by
  cases h with
  | mixed hperm hmixed =>
    obtain ⟨st, hall, hst⟩ := exists_has_of_isMixed hperm hmixed hroot hwords hroom
    exact ⟨st, false, _, hall, hperm, hst⟩
  | @trailing cs as hperm hmixed =>
    -- The options without a word, then `--`, and then the words.
    obtain ⟨st₁, hall, h₁⟩ :=
      exists_has_of_isMixed hperm hmixed hroot (fun w hw => nomatch hw) (Nat.zero_le 2)
    obtain ⟨st₂, htake, h₂⟩ := h₁.escape
    obtain ⟨st₃, hrest, h₃⟩ := h₂.takeAll_of_trailing hwords (by simpa using hroom)
    exact ⟨st₃, true, cs,
      (State.takeAll_append hall).trans ((State.takeAll_cons htake).trans hrest), hperm, h₃⟩

/-- What is recorded in a state is asked for, if there is a table. The order in which the choices were
read does not show any more. -/
theorem finish_of_has {st : State} {trailing : Bool} {cs : List Choice} {o : Options}
    {table : Argument} {target? environmentRoot? : Option Argument}
    (h : st.Has trailing cs (table :: target?.toList)) (hperm : cs.Perm o.choices)
    (henvironment : o.root? = none → environmentRoot? ≠ some []) :
    st.finish environmentRoot? = .ok (o.invocation table target? environmentRoot?) := by
  obtain ⟨⟨s, hs, hrecords⟩, -⟩ := h
  -- The settings are those of the choices, in whatever order they were made.
  have hroot : s.root? = o.root? := by
    refine Option.ext fun p => ?_
    rw [hrecords.root, hperm.mem_iff, o.root_mem_choices]
  have hformat : s.format? = o.format? := by
    refine Option.ext fun name => ?_
    rw [hrecords.format, hperm.mem_iff, o.format_mem_choices]
  have hswitch : ∀ sw, s.switches.contains sw = decide (.switch sw ∈ o.choices) := by
    intro sw
    rw [List.contains_eq_mem, decide_eq_decide, hrecords.switch, hperm.mem_iff]
  -- The root of the environment counts only if no other one was chosen.
  have hrootOr : s.rootOr environmentRoot? = .ok (o.root?.or (environmentRoot?.map Path.mk)) := by
    unfold State.rootOr
    rw [hroot]
    cases hchosen : o.root? with
    | some root => rfl
    | none =>
      cases environmentRoot? with
      | none => rfl
      | some value =>
        have hvalue : value ≠ [] := fun h => henvironment hchosen (congrArg some h)
        simp only [pathValue_of_ne_nil hvalue]
        rfl
  rw [State.finish, hs]
  simp only [hrootOr, hrecords.positionals, List.map_cons, hformat, hswitch, o.switch_mem_choices]
  cases target? <;> simp [Options.invocation]

/-- **Where options stand makes no difference.** Each option is chosen or not, and is written once if it is,
in one of its ways; the table and the target stand in this order, anywhere among the options, or behind
them and `--`. What is read is what was chosen. A root that was chosen is the root whatever the
environment says; else it is that of the environment, if there is one. -/
theorem parse_laid_out {o : Options} {table : Argument} {target? : Option Argument}
    {arguments : List Argument} {environmentRoot? : Option Argument}
    (htable : table ≠ []) (htarget : ∀ target, target? = some target → target ≠ [])
    (hroot : ∀ p, o.root? = some p → p.bytes ≠ [])
    (henvironment : o.root? = none → environmentRoot? ≠ some [])
    (h : IsLaidOut o (table :: target?.toList) arguments) :
    parse arguments environmentRoot? = .ok (o.invocation table target? environmentRoot?) := by
  -- Of the words none is empty,
  have hwords : ∀ w ∈ table :: target?.toList, w ≠ [] := by
    intro w hw
    rcases List.mem_cons.mp hw with rfl | hw
    · exact htable
    · exact htarget w (Option.mem_toList.mp hw)
  -- and there are at most two.
  have hroom : (table :: target?.toList).length ≤ 2 := by
    cases target? <;> simp
  obtain ⟨st, trailing, cs, hall, hperm, hst⟩ := takeAll_of_isLaidOut h hroot hwords hroom
  rw [parse, hall]
  exact finish_of_has hst hperm henvironment

/-- The target stands among the options and the table in front of them; there is an empty root in the
environment. -/
theorem parse_laid_out_targetAmongOptions :
    let o : Options := ⟨some (.ofString "/r=1"), some "jsonl", false, true, false⟩
    let arguments := ["t.json", "-q", "--format=jsonl", "src", "--root=/r=1"].map
      fun a : String => Utf8.encode a.toList
    IsLaidOut o [Utf8.encode "t.json".toList, Utf8.encode "src".toList] arguments ∧
      parse arguments (some []) = .ok ⟨.ofString "t.json", some (.ofString "src"),
        some (.ofString "/r=1"), "jsonl", false, true, false⟩ := by
  intro o arguments
  have hperm : [Choice.switch .quiet, .format "jsonl", .root (.ofString "/r=1")].Perm o.choices := by
    decide
  -- An option stands in front of each word and behind the last one.
  have hmixed : IsMixed [.switch .quiet, .format "jsonl", .root (.ofString "/r=1")]
      [Utf8.encode "t.json".toList, Utf8.encode "src".toList] arguments :=
    .word (by decide) (.option .quietLetter (.option (.format "jsonl")
      (.word (by decide) (.option (.root (.ofString "/r=1")) .nil))))
  have hlaidOut : IsLaidOut o
      (Utf8.encode "t.json".toList :: (some (Utf8.encode "src".toList)).toList) arguments :=
    .mixed hperm hmixed
  refine ⟨hlaidOut, parse_laid_out (by decide) (fun target htarget => ?_) (fun p hp => ?_)
    (fun hnone => absurd hnone (by decide)) hlaidOut⟩
  · cases Option.some.inj htarget
    decide
  · cases Option.some.inj hp
    decide

/-- Behind `--`, words begin with anything. -/
example :
    parse (["--verbose", "--", "-q", "--root=/r"].map fun a : String => Utf8.encode a.toList) none
      = .ok ⟨.ofString "-q", some (.ofString "--root=/r"), none, "text", false, false, true⟩ := by
  rfl

end CommandLine

end IncludeMoves
