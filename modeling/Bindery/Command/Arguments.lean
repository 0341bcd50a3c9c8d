import Bindery.Duration
import Bindery.Path

/-!
# Arguments

The words of a command line are a command, flags and the path of a root document. Flags may stand
before or after the command. Without a command the book is built, and flags in front of a command are
then read as flags of that command too.
-/

namespace Bindery.Command

open Text (bytes)

/-! ## Flags -/

/-- The commands. -/
inductive Verb where
  | build
  | tree
  | watch
  | init
  deriving DecidableEq, Repr

/-- The flags. -/
inductive Flag where
  | help | config | verbose | version
  | output | sequential | lang | labels | print | debounce | force
  deriving DecidableEq, Repr

namespace Flag

/-- The long name of a flag. -/
def name : Flag → Bytes
  | .help => "help"
  | .config => "config"
  | .verbose => "verbose"
  | .version => "version"
  | .output => "output"
  | .sequential => "sequential"
  | .lang => "lang"
  | .labels => "labels"
  | .print => "print"
  | .debounce => "debounce"
  | .force => "force"

/-- The letter of a flag, if it has one. -/
def letter? : Flag → Option UInt8
  | .help => some 'h'
  | .config => some 'c'
  | .verbose => some 'v'
  | .output => some 'o'
  | .lang => some 'l'
  | .print => some 'p'
  | _ => none

/-- Whether a flag takes no value. -/
def isSwitch : Flag → Bool
  | .config | .output | .lang | .debounce => false
  | _ => true

/-- Whether a flag means the same for all commands. -/
def isShared : Flag → Bool
  | .help | .config | .verbose | .version => true
  | _ => false

end Flag

namespace Verb

/-- The word for a command. -/
def name : Verb → Bytes
  | .build => "build"
  | .tree => "tree"
  | .watch => "watch"
  | .init => "init"

def ofName? (word : Bytes) : Option Verb := [build, tree, watch, init].find? fun v => v.name == word

/-- The flags that a command understands. -/
def flags : Verb → List Flag
  | .build => [.output, .sequential, .help, .config, .verbose, .version]
  | .tree => [.lang, .labels, .print, .help, .config, .verbose, .version]
  | .watch => [.output, .debounce, .help, .config, .verbose, .version]
  | .init => [.force, .output, .help, .config, .verbose, .version]

end Verb

/-! ## Reading -/

/-- What the words read so far say. -/
structure Draft where
  verb : Option Verb := none
  /-- The values of flags, the last one first. -/
  values : List (Flag × Bytes) := []
  /-- The switches, the last one first. -/
  switches : List (Flag × Bool) := []
  input : Option Bytes := none
  deriving DecidableEq, Repr

namespace Draft

/-- Chooses a command. What was said before about building does not concern another command. -/
def choose (d : Draft) (verb : Verb) : Draft :=
  if verb = .build then { d with verb := some verb }
  else
    { d with
      verb := some verb
      values := d.values.filter (·.1.isShared)
      switches := d.switches.filter (·.1.isShared) }

/-- Reads a word that is no flag: a command, or the root document of one that takes it. -/
def word (d : Draft) (w : Bytes) : Option Draft :=
  match d.verb with
  | none =>
    match Verb.ofName? w with
    | some verb => some (d.choose verb)
    | none => some { d with verb := some .build, input := some w }
  | some .init => none
  | some _ => if d.input.isSome then none else some { d with input := some w }

/-- The flag that is meant, among those of the command. -/
def flag? (d : Draft) (p : Flag → Bool) : Option Flag := (d.verb.getD .build).flags.find? p

/-- Sets the value of a flag. A time of quiet must be a duration. -/
def give (d : Draft) (flag : Flag) (value : Bytes) : Option Draft :=
  if flag = .debounce && (Duration.parse? value).isNone then none
  else some { d with values := (flag, value) :: d.values }

def turn (d : Draft) (flag : Flag) (on : Bool) : Draft :=
  { d with switches := (flag, on) :: d.switches }

end Draft

/-- The value of a switch that is written out. -/
def switchValue? (s : Bytes) : Option Bool :=
  let s := s.map Text.lowerByte
  if ["true", "1", "yes"].any fun w => bytes w == s then some true
  else if ["false", "0", "no"].any fun w => bytes w == s then some false
  else none

/-- Reads a long flag, of which the name and perhaps a value are given. The second result is a flag
whose value is still to come. -/
def longFlag (d : Draft) (name : Bytes) (value : Option Bytes) : Option (Draft × Option Flag) := do
  let flag ← d.flag? fun f => f.name == name
  match value with
  | some value =>
    if flag.isSwitch then return (d.turn flag (← switchValue? value), none)
    else return (← d.give flag value, none)
  | none => if flag.isSwitch then return (d.turn flag true, none) else return (d, some flag)

/-- Reads the letters after a single hyphen. What follows the letter of a flag with a value is that
value. -/
def letters (d : Draft) : Bytes → Option (Draft × Option Flag)
  | [] => some (d, none)
  | c :: rest => do
    let flag ← d.flag? fun f => f.letter? == some c
    if flag.isSwitch then letters (d.turn flag true) rest
    else if rest.isEmpty then return (d, some flag)
    else return (← d.give flag rest, none)

/-- Reads a word that starts with a hyphen. -/
def flagWord (d : Draft) (w : Bytes) : Option (Draft × Option Flag) :=
  match w with
  | 45 :: 45 :: long =>
    match Text.cutByte? 61 long with
    | some (name, value) => longFlag d name (some value)
    | none => longFlag d long none
  | 45 :: short => letters d short
  | _ => none

/-- Whether a word is made of flags. A single hyphen is not. -/
def isFlagWord (w : Bytes) : Bool := Text.startsWith "-" w && w != bytes "-"

/-- Reads words. After two hyphens alone there are no more flags. -/
def readWords (d : Draft) : List Bytes → Option Draft
  | [] => some d
  | w :: rest =>
    if w == bytes "--" then rest.foldlM Draft.word d
    else if isFlagWord w then
      match flagWord d w with
      | none => none
      | some (d, none) => readWords d rest
      | some (d, some flag) =>
        match rest with
        | [] => none
        | value :: rest =>
          -- A word made of flags is no value, even where a value has to follow.
          if isFlagWord value then none
          else
            match d.give flag value with
            | none => none
            | some d => readWords d rest
    else
      match d.word w with
      | none => none
      | some d => readWords d rest

/-! ## Command lines -/

/-- What is to be done. -/
inductive Task where
  | version
  | help
  | build (input output : Bytes) (sequential : Bool)
  | tree (input lang : Bytes) (labels print : Bool)
  | watch (input output : Bytes) (debounce : Int)
  | init (output : Bytes) (force : Bool)
  deriving DecidableEq, Repr

end Bindery.Command

namespace Bindery

/-- A command line that was understood. -/
structure CommandLine where
  /-- The configuration file, empty when none is named. -/
  config : Bytes := []
  verbose : Bool := false
  task : Command.Task
  deriving DecidableEq, Repr

namespace CommandLine

open Text (bytes)
open Command

/-- The path that a word names: relative paths start from the working directory, and `~/` is the home
directory. A single hyphen is kept. -/
def expandPath (cwd home path : Bytes) : Bytes :=
  if path == bytes "-" || Path.isAbsolute path then path
  else
    match Text.afterStart? "~/" path with
    | some rest => Path.join [home, rest]
    | none => Path.absolute cwd path

/-- The time of quiet when none is given, in nanoseconds. -/
def standardDebounce : Int := 300000000

/-- The command line that the words say. -/
def ofDraft (cwd home : Bytes) (d : Draft) : CommandLine :=
  let value (f : Flag) : Bytes := (d.values.lookup f).getD []
  let path (w : Option Bytes) : Bytes := (w.map (expandPath cwd home)).getD []
  let isOn (f : Flag) : Bool := (d.switches.lookup f).getD false
  let debounce := ((d.values.lookup .debounce).bind Duration.parse?).map Int64.toInt
  let input := path d.input
  let task : Task :=
    -- Asking for the version or for help comes before any command.
    if (d.switches.lookup .version).isSome then .version
    else if (d.switches.lookup .help).isSome then .help
    else
      match d.verb.getD .build with
      | .build => .build input (value .output) (isOn .sequential)
      | .tree => .tree input (value .lang) (isOn .labels) (isOn .print)
      | .watch => .watch input (value .output) (debounce.getD standardDebounce)
      | .init => .init (value .output) (isOn .force)
  { config := path (d.values.lookup .config), verbose := isOn .verbose, task }

def parse? (cwd home : Bytes) (words : List Bytes) : Option CommandLine :=
  (readWords {} words).map (ofDraft cwd home)

end CommandLine

end Bindery
