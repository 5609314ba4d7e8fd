import SessionStore.Disk.Transaction

/-! The words of a command line: options for every command, a command, and its own options. -/
namespace SessionStore.CommandLine

inductive Command where
  /-- Tells what a restore of the session file would bring. -/
  | load (options : RestoreOptions)
  /-- Writes the session stored in another file. -/
  | save (source : Path) (mode : WriteMode)
  /-- Tells every entry of the session file. -/
  | dump

/-- What a command line asks for. -/
structure Request where
  command : Command
  sessionFile : Option Path := none
  settingsFile : Option Path := none
  verbosity : Nat := 0
  logFile : Option Path := none

/-- Why a command line asks for no command. -/
inductive UsageError where
  | helpAsked
  | versionAsked
  | nothingAsked
  | missingCommand
  | unknownCommand
  | unknownWord
  /-- An option without its value, or with an empty one. -/
  | missingValue
  /-- A switch with a value. -/
  | needlessValue
  | missingOption
  /-- Options that exclude each other, or an option given twice. -/
  | conflict
  deriving DecidableEq, Repr

/-- A command without its options. -/
inductive Verb where
  | load
  | save
  | dump
  deriving DecidableEq, Repr

def Verb.name : Verb → String
  | .load => "load"
  | .save => "save"
  | .dump => "dump"

def Verb.all : List Verb := [.load, .save, .dump]

def Verb.ofWord? (word : Bytes) : Option Verb :=
  all.find? fun verb => Bytes.ofAscii verb.name = word

/-- The word that asks for help in place of a command. -/
def helpWord : Bytes := Bytes.ofAscii "help"

/-- Whether a word can stand in the place of a command. -/
def isCommandWord (word : Bytes) : Bool := (Verb.ofWord? word).isSome || word = helpWord

/-- Options that have a value. -/
inductive Setting where
  | sessionFile
  | settingsFile
  | logFile
  | source
  deriving DecidableEq, Repr

/-- Options that are given or not. -/
inductive Switch where
  | force
  | missingIsError
  | noMarks
  | marksOnly
  | oldFiles
  | overwrite
  deriving DecidableEq, Repr

inductive Flag where
  | setting (setting : Setting)
  | switch (switch : Switch)
  | verbose
  | help
  | version
  deriving DecidableEq, Repr

/-- The flags that are known behind a command, or in front of it for none, by their long names. -/
def longNames : Option Verb → List (String × Flag)
  | none => ("version", .version) :: everywhere
  | some .load =>
    everywhere ++ [("force", .switch .force), ("missing-error", .switch .missingIsError),
      ("no-marks", .switch .noMarks), ("marks-only", .switch .marksOnly),
        ("old-files", .switch .oldFiles)]
  | some .save => everywhere ++ [("from", .setting .source), ("overwrite", .switch .overwrite)]
  | some .dump => everywhere
where
  everywhere : List (String × Flag) :=
    [("shada-file", .setting .sessionFile), ("config", .setting .settingsFile),
      ("log", .setting .logFile), ("help", .help)]

/-- The flags by their letters. -/
def letters : Option Verb → List (Char × Flag)
  | none => ('V', .version) :: everywhere
  | some _ => everywhere
where
  everywhere : List (Char × Flag) :=
    [('i', .setting .sessionFile), ('c', .setting .settingsFile), ('v', .verbose), ('h', .help)]

def named? (verb : Option Verb) (name : Bytes) : Option Flag :=
  ((longNames verb).find? fun entry => Bytes.ofAscii entry.1 = name).map Prod.snd

def lettered? (verb : Option Verb) (letter : UInt8) : Option Flag :=
  ((letters verb).find? fun entry => entry.1.toUInt8 = letter).map Prod.snd

def dash : UInt8 := 0x2D

def equalsSign : UInt8 := 0x3D

/-- The highest verbosity. -/
def verbosityLimit : Nat := 255

/-- What the words in front of a command, or those behind it, have said so far. -/
structure Draft where
  settings : List (Setting × Path) := []
  switches : List Switch := []
  verbosity : Nat := 0
  /-- The option named last, with its value once that has come. It is judged
  when the next option comes, or at the end. -/
  pending : Option (Setting × Option Bytes) := none

namespace Draft

def value? (d : Draft) (setting : Setting) : Option Path :=
  (d.settings.find? fun entry => entry.1 = setting).map Prod.snd

def has (d : Draft) (switch : Switch) : Bool := d.switches.contains switch

/-- Whether the next word is the value of an option, unless it is an option itself. -/
def awaitsValue (d : Draft) : Bool := d.pending.any (·.2.isNone)

/-- Whether nothing has been said. -/
def isEmpty (d : Draft) : Bool := d.settings.isEmpty && d.switches.isEmpty && d.verbosity = 0

def set (d : Draft) (setting : Setting) (value : Bytes) : Except UsageError Draft :=
  if (d.value? setting).isSome then .error .conflict
  else if value.isEmpty then .error .missingValue
  else .ok { d with settings := (setting, ⟨value⟩) :: d.settings }

/-- Judges the option named last. -/
def settle (d : Draft) : Except UsageError Draft :=
  match d.pending with
  | none => .ok d
  | some (_, none) => .error .missingValue
  | some (setting, some value) => { d with pending := none }.set setting value

/-- Takes an option whose value comes in the same word, or is still to come. -/
def takeSetting (d : Draft) (setting : Setting) (attached : Option Bytes) :
    Except UsageError Draft := do
  let d ← d.settle
  match attached with
  | some value => d.set setting value
  | none => return { d with pending := some (setting, none) }

/-- Takes a flag without a value. -/
def takeFlag (d : Draft) : Flag → Except UsageError Draft
  | .setting setting => d.takeSetting setting none
  | .switch switch => do
    let d ← d.settle
    if d.has switch then throw .conflict
    return { d with switches := switch :: d.switches }
  | .verbose => do
    let d ← d.settle
    return { d with verbosity := min (d.verbosity + 1) verbosityLimit }
  | .help => do
    let _ ← d.settle
    throw .helpAsked
  | .version => do
    let _ ← d.settle
    throw .versionAsked

/-- Takes a word that starts with two dashes, as its name and the value behind an equals sign. -/
def takeNamed (verb : Option Verb) (d : Draft) (name : Bytes) (attached : Option Bytes) :
    Except UsageError Draft :=
  match named? verb name, attached with
  | none, _ => .error .unknownWord
  | some (.setting setting), attached => d.takeSetting setting attached
  | some flag, none => d.takeFlag flag
  | some _, some _ => .error .needlessValue

/-- Takes the letters of a word behind its dash. What follows the letter of an
option is its value, with or without an equals sign. -/
def takeLetters (verb : Option Verb) : Draft → Bytes → Except UsageError Draft
  | d, [] => .ok d
  | d, letter :: rest =>
    match lettered? verb letter with
    | none => .error .unknownWord
    | some (.setting setting) =>
      d.takeSetting setting
        (if rest.isEmpty then none else if rest.head? = some equalsSign then some rest.tail
          else some rest)
    | some flag => do (← d.takeFlag flag).takeLetters verb rest

/-- The error of a word that is no option where none has a place. -/
def strayWord (verb : Option Verb) : UsageError :=
  match verb with
  | none => .unknownCommand
  | some _ => .unknownWord

/-- Takes words up to a command, and gives the command with the words behind it.
Two dashes alone end the options, and no command follows them. -/
def take (verb : Option Verb) :
    Draft → List Bytes → Except UsageError (Draft × Option (Bytes × List Bytes))
  | d, [] => .ok (d, none)
  | d, word :: rest =>
    if verb = none ∧ !d.awaitsValue ∧ isCommandWord word then .ok (d, some (word, rest))
    else
      match word with
      | 0x2D :: 0x2D :: name =>
        if name.isEmpty then
          match rest with
          | [] => .ok (d, none)
          | word :: _ => .error (if isCommandWord word then .unknownWord else strayWord verb)
        else do
          let attached := (name.dropWhile (· ≠ equalsSign)).tail?
          (← d.takeNamed verb (name.takeWhile (· ≠ equalsSign)) attached).take verb rest
      | 0x2D :: letter :: more => do
        (← d.takeLetters verb (letter :: more)).take verb rest
      | word =>
        match d.pending with
        | some (setting, none) => { d with pending := some (setting, some word) }.take verb rest
        | _ => .error (strayWord verb)

/-- The command that its own words describe. -/
def command (d : Draft) : Verb → Except UsageError Command
  | .load =>
    if d.has .noMarks && d.has .marksOnly then .error .conflict
    else .ok (.load { info := !d.has .marksOnly, marks := !d.has .noMarks, force := d.has .force,
                      oldFiles := d.has .oldFiles, missingIsError := d.has .missingIsError })
  | .save =>
    match d.value? .source with
    | none => .error .missingOption
    | some source => .ok (.save source (if d.has .overwrite then .overwrite else .merge))
  | .dump => .ok .dump

end Draft

/-- Help is about the program, or about the command that is named. -/
def helpError : List Bytes → UsageError
  | [] => .helpAsked
  | [word] => if isCommandWord word then .helpAsked else .unknownCommand
  | _ => .unknownCommand

/-- What the words behind the program's name ask for. An option for every
command counts as it stands behind the command, if it stands on both sides. -/
def Request.ofWords (words : List Bytes) : Except UsageError Request := do
  let (before, found) ← Draft.take none {} words
  match found with
  | none =>
    let before ← before.settle
    throw (if before.isEmpty then .nothingAsked else .missingCommand)
  | some (word, rest) =>
    match Verb.ofWord? word with
    | none => throw (helpError rest)
    | some verb =>
      let (behind, _) ← Draft.take (some verb) {} rest
      let behind ← behind.settle
      let command ← behind.command verb
      let before ← before.settle
      let value? setting := (behind.value? setting).orElse fun _ => before.value? setting
      return { command
               sessionFile := value? .sessionFile
               settingsFile := value? .settingsFile
               verbosity := if behind.verbosity = 0 then before.verbosity else behind.verbosity
               logFile := value? .logFile }

end SessionStore.CommandLine
