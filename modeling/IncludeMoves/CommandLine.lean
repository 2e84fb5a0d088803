import IncludeMoves.Run

/-!
# The command line

Arguments are byte strings, handled from left to right: switches, settings with a value, and up to
two positional arguments, a table and a target directory. An occurrence of a setting whose value is
a word of its own, and a positional argument, are *pending* until the next one comes or the
arguments end; only then is their value looked at.

* `CommandLine.parse` — the invocation that arguments ask for, or what is wrong with them;
* `Invocation.run` — what the invocation does.
-/

namespace IncludeMoves

/-- An argument of a command line. Arguments are bytes, since paths are, and only the name of a format
has to be a text. -/
abbrev Argument := List UInt8

/-- What a command line asks for. -/
structure Invocation where
  table : Path
  target? : Option Path
  root? : Option Path
  format : String
  noColour : Bool
  quiet : Bool
  verbose : Bool
  deriving DecidableEq, Repr, Inhabited

/-- Why a command line asks for no run. The two last ones are wishes and no faults, but they too end the
reading of the command line. -/
inductive UsageError where
  | missingArgument
  | unknownArgument
  | invalidValue
  | repeatedOption
  | tooManyValues
  | invalidText
  | helpWanted
  | versionWanted
  deriving DecidableEq, Repr

/-- The exit code: asking for help or the version is no failure. -/
def UsageError.exitCode : UsageError → Nat
  | helpWanted => 0
  | versionWanted => 0
  | _ => 2

namespace CommandLine

/-- An option without a value. -/
inductive Switch where
  | noColour
  | quiet
  | verbose
  | help
  | version
  deriving DecidableEq, Repr

/-- An option with a value. -/
inductive Setting where
  | root
  | format
  deriving DecidableEq, Repr

/-- The switch with a long name. -/
def switchNamed? (name : Argument) : Option Switch :=
  if name = Utf8.encode "no-color".toList then some .noColour
  else if name = Utf8.encode "quiet".toList then some .quiet
  else if name = Utf8.encode "verbose".toList then some .verbose
  else if name = Utf8.encode "help".toList then some .help
  else if name = Utf8.encode "version".toList then some .version
  else none

/-- The setting with a long name. -/
def settingNamed? (name : Argument) : Option Setting :=
  if name = Utf8.encode "root".toList then some .root
  else if name = Utf8.encode "format".toList then some .format
  else none

/-- The switch with a letter. -/
def switchLetter? (b : UInt8) : Option Switch :=
  if b = 113 then some .quiet
  else if b = 118 then some .verbose
  else if b = 104 then some .help
  else if b = 86 then some .version
  else none

/-- The byte `-`. -/
def hyphen : UInt8 := 45

/-- The byte `=`. -/
def equals : UInt8 := 61

/-- What an argument looks like: `--`, `--name` or `--name=value`, letters behind a `-`, or a word.
A single `-` is a word. -/
inductive Shape where
  | escape
  | long (name : Argument) (value? : Option Argument)
  | letters (letters : List UInt8)
  | word
  deriving DecidableEq, Repr

/-- The shape of an argument. -/
def shape : Argument → Shape
  | [] => .word
  | [_] => .word
  | a :: b :: rest =>
    if a = hyphen then
      if b = hyphen then
        if rest = [] then .escape
        else
          -- Only the first `=` separates. Behind it everything belongs to the value, even nothing.
          let name := rest.takeWhile (· != equals)
          .long name (rest.drop name.length).tail?
      else .letters (b :: rest)
    else .word

/-- An occurrence whose value has not been looked at yet. A setting may still wait for it. What is wrong
with a value therefore shows up late, behind a fault of the next option's name. -/
inductive Pending where
  | setting (s : Setting) (value? : Option Argument)
  | positional (value : Argument)
  deriving DecidableEq, Repr

/-- What has been read of a command line. The pending occurrence is the one that was met last. -/
structure State where
  positionals : List Path
  root? : Option Path
  format? : Option String
  switches : List Switch
  pending? : Option Pending
  trailing : Bool
  deriving DecidableEq, Repr

/-- Nothing has been read yet. -/
def State.start : State := ⟨[], none, none, [], none, false⟩

/-- A path given as a value is not empty. -/
def pathValue (value : Argument) : Except UsageError Path :=
  if value = [] then .error .invalidValue else .ok ⟨value⟩

/-- A text given as a value. -/
def textValue (value : Argument) : Except UsageError String :=
  match String.fromUTF8? ⟨value.toArray⟩ with
  | some text => .ok text
  | none => .error .invalidText

namespace State

/-- Takes the value of a setting, which may be given only once. -/
def set (st : State) (s : Setting) (value : Argument) : Except UsageError State :=
  match s with
  | .root =>
    if st.root?.isSome then .error .repeatedOption
    else (pathValue value).map fun p => { st with root? := some p }
  | .format =>
    if st.format?.isSome then .error .repeatedOption
    else (textValue value).map fun t => { st with format? := some t }

/-- Takes the pending occurrence, if there is one. This is where values are checked, and where an option
is found to have been given before. -/
def settle (st : State) : Except UsageError State :=
  let rest := { st with pending? := none }
  match st.pending? with
  | none => .ok rest
  -- The next option has come where a value should have.
  | some (.setting _ none) => .error .invalidValue
  | some (.setting s (some value)) => rest.set s value
  | some (.positional value) =>
    (pathValue value).map fun p => { rest with positionals := rest.positionals ++ [p] }

/-- Takes a switch. -/
def turnOn (st : State) (s : Switch) : Except UsageError State :=
  match st.settle with
  | .error e => .error e
  | .ok st =>
    match s with
    | .help => .error .helpWanted
    | .version => .error .versionWanted
    | s =>
      if st.switches.contains s then .error .repeatedOption
      else .ok { st with switches := st.switches ++ [s] }

/-- Takes the letters of one argument. -/
def turnOnLetters (st : State) : List UInt8 → Except UsageError State
  | [] => .ok st
  | b :: rest =>
    match switchLetter? b with
    | none => .error .unknownArgument
    | some s =>
      match st.turnOn s with
      | .error e => .error e
      | .ok st => st.turnOnLetters rest

/-- Takes a long option. A value behind `=` is looked at immediately. -/
def takeLong (st : State) (name : Argument) (value? : Option Argument) :
    Except UsageError State :=
  match switchNamed? name, settingNamed? name, value? with
  -- A switch takes no value, not even an empty one.
  | some _, _, some _ => .error .tooManyValues
  | some s, _, none => st.turnOn s
  | none, some s, some value =>
    -- What waits is settled first, so that its fault is the one reported.
    match st.settle with
    | .error e => .error e
    | .ok st => st.set s value
  | none, some s, none =>
    match st.settle with
    | .error e => .error e
    | .ok st => .ok { st with pending? := some (.setting s none) }
  | none, none, _ => .error .unknownArgument

/-- The number of positional arguments so far, a pending one among them. -/
def positionalCount (st : State) : Nat :=
  st.positionals.length +
    match st.pending? with
    | some (.positional _) => 1
    | _ => 0

/-- Takes a positional argument, of which there may be two. -/
def takePositional (st : State) (a : Argument) : Except UsageError State :=
  if 2 ≤ st.positionalCount then .error .unknownArgument
  -- Whether there is room is looked at first, then the positional argument that waits.
  else
    match st.settle with
    | .error e => .error e
    | .ok st => .ok { st with pending? := some (.positional a) }

/-- Takes a word: the value of a setting that waits for one, else a positional argument. -/
def takeWord (st : State) (a : Argument) : Except UsageError State :=
  match st.pending? with
  | some (.setting s none) => .ok { st with pending? := some (.setting s (some a)) }
  | _ => st.takePositional a

/-- Takes one argument. Behind `--` every argument is positional. -/
def take (st : State) (a : Argument) : Except UsageError State :=
  if st.trailing then st.takePositional a
  else
    match shape a with
    | .escape => .ok { st with trailing := true }
    | .long name value? => st.takeLong name value?
    | .letters letters => st.turnOnLetters letters
    | .word => st.takeWord a

/-- Takes the arguments in order. -/
def takeAll (st : State) : List Argument → Except UsageError State
  | [] => .ok st
  | a :: rest =>
    match st.take a with
    | .error e => .error e
    | .ok st => st.takeAll rest

/-- The root: the one given, else the one of the environment. -/
def rootOr (st : State) (environment? : Option Argument) : Except UsageError (Option Path) :=
  match st.root?, environment? with
  | some root, _ => .ok (some root)
  | none, some value => (pathValue value).map some
  | none, none => .ok none

/-- The invocation, once all arguments have been taken. A missing table is the last thing that is
complained about, behind a root that the environment names in vain. -/
def finish (st : State) (environment? : Option Argument) : Except UsageError Invocation :=
  -- The last occurrence has waited until now.
  match st.settle with
  | .error e => .error e
  | .ok st =>
    match st.rootOr environment? with
    | .error e => .error e
    | .ok root? =>
      match st.positionals with
      | [] => .error .missingArgument
      | table :: targets =>
        .ok { table := table
              target? := targets.head?
              root? := root?
              format := st.format?.getD "text"
              noColour := st.switches.contains .noColour
              quiet := st.switches.contains .quiet
              verbose := st.switches.contains .verbose }

end State

/-- **Reads a command line.** The environment may name a root for the case that no argument does.
Arguments are taken from the left, and the first fault that shows ends the reading. -/
def parse (arguments : List Argument) (environmentRoot? : Option Argument) :
    Except UsageError Invocation :=
  match State.start.takeAll arguments with
  | .error e => .error e
  | .ok st => st.finish environmentRoot?

end CommandLine

namespace Invocation

/-- The root of the run: the one asked for, else that of the project in which the executable is
installed. -/
def root (i : Invocation) (executable : Path) : Except RunError Path :=
  match i.root? with
  | some root => .ok root
  | none =>
    match Project.rootOfExecutable? executable with
    | some root => .ok root
    | none => .error (.noRoot executable)

/-- **What an invocation does.** The name of the format is looked at first, then root and target,
then the table; only then are sources searched and revised. -/
def run (i : Invocation) (executable : Path) (colour : Bool) (faults : WriteFaults)
    (fs : FileSystem) (out : Output) : Finished Output Tally :=
  match Format.ofName? i.format with
  | none => ⟨.error (.unknownFormat i.format), fs, out, ""⟩
  | some format =>
    match i.root executable with
    | .error e => ⟨.error e, fs, out, ""⟩
    | .ok root =>
      match Project.ofPaths fs root i.target? with
      | .error e => ⟨.error (.failed e), fs, out, ""⟩
      | .ok project =>
        project.run i.table ⟨format, i.quiet, colour && !i.noColour⟩ i.verbose faults fs out

end Invocation

end IncludeMoves
