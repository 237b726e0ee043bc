import PathLedger.Command.Basic
import PathLedger.Config.Settings

/-!
# Command-line arguments

Arguments are read on two levels: options in front of the command's name, then the command's own
options and words. Some options are understood on both levels, and then the inner one wins.

* `Arguments.Choice` — one option of a level.
* `Arguments.scan` — the options and words of one level.
* `Arguments.parse?` — a whole command line; none when it is refused.
-/

namespace PathLedger.Arguments

/-- What an option takes. -/
inductive Takes where
  | nothing
  | text
  /-- The place of a file, which is not empty. -/
  | place
  /-- A whole number of 64 bits. -/
  | count
deriving DecidableEq, Repr

/-- One option: its long name, its letter and what it takes. -/
structure Choice where
  name : String
  letter : Option Char
  takes : Takes
deriving DecidableEq, Repr

/-- The options that both levels understand. -/
def shared : List Choice :=
  [⟨"verbose", some 'v', .nothing⟩, ⟨"quiet", some 'q', .nothing⟩, ⟨"database", some 'D', .place⟩,
    ⟨"backend", some 'B', .text⟩, ⟨"json-mode", none, .nothing⟩, ⟨"config", none, .place⟩]

/-- The whole number that an argument spells. -/
def count? (s : String) : Option Nat :=
  let digits := match s.toList with
    | '+' :: r => r
    | r => r
  if digits.isEmpty || !digits.all Text.isDigit then none
  else
    let n := Text.digitsValue digits
    if n < Nat.pow 2 64 then some n else none

/-- Whether an option takes a value. -/
def Takes.admits (t : Takes) (value : String) : Bool :=
  match t with
  | .nothing => false
  | .text => true
  | .place => !value.isEmpty
  | .count => (count? value).isSome

/-- What has been read of a level: the options by name, each with its value, and the words. -/
structure Level where
  given : List (String × String)
  words : List String
deriving DecidableEq, Repr

namespace Level

def empty : Level := ⟨[], []⟩

def value? (l : Level) (name : String) : Option String := l.given.lookup name

def has (l : Level) (name : String) : Bool := (l.value? name).isSome

/-- A level with one more option; none is given twice. -/
def add (l : Level) (c : Choice) (value : String) : Option Level :=
  if l.has c.name then none else some { l with given := l.given ++ [(c.name, value)] }

/-- A level with one more option and its value. -/
def addValue (l : Level) (c : Choice) (value : String) : Option Level :=
  if c.takes.admits value then l.add c value else none

def addWord (l : Level) (word : String) : Level := { l with words := l.words ++ [word] }

end Level

/-- What an argument that starts with a hyphen leaves: the level, and the option that still waits for its
value. -/
abbrev Progress := Level × Option Choice

/-- A long option: a name, perhaps with a value behind an equality sign. -/
def long (choices : List Choice) (l : Level) (s : List Char) : Option Progress := do
  let name := String.ofList (s.takeWhile (· != '='))
  let c ← choices.find? fun c => c.name == name
  match s.dropWhile (· != '='), c.takes with
  | [], .nothing => (l.add c "").map fun l => (l, none)
  | [], _ => if l.has c.name then none else some (l, some c)
  | _ :: _, .nothing => none
  | _ :: value, _ => (l.addValue c (String.ofList value)).map fun l => (l, none)

/-- Letters in a row. The first that takes a value takes what is left of the row. -/
def letters (choices : List Choice) (l : Level) : List Char → Option Progress
  | [] => some (l, none)
  | letter :: r => do
    let c ← choices.find? fun c => c.letter == some letter
    match c.takes, r with
    | .nothing, r =>
      let l ← l.add c ""
      letters choices l r
    | _, [] => if l.has c.name then none else some (l, some c)
    | _, '=' :: value => (l.addValue c (String.ofList value)).map fun l => (l, none)
    | _, value => (l.addValue c (String.ofList value)).map fun l => (l, none)

/-- The options and words of one level, and the arguments behind its end. A word for which `ends` holds ends
the level. Behind two hyphens everything is a word. -/
def scan (choices : List Choice) (ends : String → Bool) (l : Level) (waiting : Option Choice) :
    List String → Option (Level × Option (String × List String))
  | [] => if waiting.isSome then none else some (l, none)
  | a :: rest =>
    match waiting, a.toList with
    | some _, '-' :: _ :: _ => none
    | some c, _ =>
      match l.addValue c a with
      | some l => scan choices ends l none rest
      | none => none
    | none, ['-', '-'] => some (rest.foldl Level.addWord l, none)
    | none, '-' :: '-' :: s =>
      match long choices l s with
      | some (l, waiting) => scan choices ends l waiting rest
      | none => none
    | none, '-' :: c :: s =>
      match letters choices l (c :: s) with
      | some (l, waiting) => scan choices ends l waiting rest
      | none => none
    | none, _ => if ends a then some (l, some (a, rest)) else scan choices ends (l.addWord a) none rest

/-- How one kind of command is written: its own options, and the command that a level stands for. -/
structure Form where
  choices : List Choice
  read : Level → Option Command

def oneWord (f : String → Command) : Form :=
  ⟨[], fun l => match l.words with
    | [a] => some (f a)
    | _ => none⟩

def twoWords (f : String → String → Command) : Form :=
  ⟨[], fun l => match l.words with
    | [a, b] => some (f a b)
    | _ => none⟩

/-- A command whose file is named by an option. -/
def ofInput (f : String → Command) : Form :=
  ⟨[⟨"input", some 'i', .place⟩], fun l =>
    if l.words.isEmpty then (l.value? "input").map f else none⟩

def forms : List (String × Form) :=
  [("init", ⟨[⟨"force", some 'f', .nothing⟩], fun l =>
      if l.words.isEmpty then some (.init (l.has "force")) else none⟩),
    ("write", ⟨[⟨"op", none, .text⟩], fun l =>
      match l.words with
      | [path, value] => some (.write path value (l.value? "op"))
      | _ => none⟩),
    ("read", oneWord .read), ("remove", oneWord .remove), ("secret", twoWords .secret),
    ("noise", twoWords .noise), ("pointer", twoWords .pointer), ("identity", twoWords .identity),
    ("operator", twoWords .operator), ("derive", twoWords .derive),
    ("collect", ⟨[⟨"at", none, .text⟩], fun l =>
      if l.words.isEmpty then none else some (.collect l.words (l.value? "at"))⟩),
    ("explain", oneWord .explain),
    ("inspect", ⟨[⟨"last", some 'l', .count⟩], fun l =>
      if l.words.isEmpty then some (.inspect ((l.value? "last").bind count?)) else none⟩),
    ("verify", ⟨[], fun l => if l.words.isEmpty then some .verify else none⟩),
    ("export", ⟨[⟨"output", some 'o', .place⟩, ⟨"format", some 't', .text⟩], fun l =>
      if l.words.isEmpty then
        (l.value? "output").map fun place => .exportTo place ((l.value? "format").getD "binary")
      else none⟩),
    ("import", ofInput .importFrom), ("replay", ofInput .replayFrom)]

/-- A command line: what it says about settings, the settings file that it names, and the command. -/
structure Invocation where
  overrides : Overrides
  settingsFile : Option String
  command : Command
deriving DecidableEq, Repr

/-- An invocation with options of two levels, the first winning. -/
def invocation (inner outer : Level) (command : Command) : Invocation :=
  let value := fun name => (inner.value? name).or (outer.value? name)
  ⟨⟨value "database", value "backend", (value "json-mode").isSome⟩, value "config", command⟩

/-- A whole command line. Without a command's name it asks for an inspection. -/
def parse? (args : List String) : Option Invocation := do
  let (outer, rest) ← scan shared (fun a => (forms.lookup a).isSome) .empty none args
  match rest with
  | none => if outer.words.isEmpty then some (invocation .empty outer (.inspect none)) else none
  | some (name, args) =>
    if !outer.words.isEmpty then none
    else
      let form ← forms.lookup name
      let (inner, _) ← scan (shared ++ form.choices) (fun _ => false) .empty none args
      (form.read inner).map fun command => invocation inner outer command

end PathLedger.Arguments
