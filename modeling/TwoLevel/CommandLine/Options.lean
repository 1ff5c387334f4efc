/-
  The arguments of the command line.

  An option with a value is written `--name value`, `--name=value`, `-n value`, `-nvalue` or
  `-n=value`; short options may be joined, where the first one with a value takes the rest. A
  value in an argument of its own starts with `-` only if it is `-` itself. No option is given
  twice, and there are no other arguments.

  The function comes from `--on` and `--off`, which need each other, or from `--file`.

  Left out are `--help` and `--version` with their letters `-h` and `-V`, which print a text and
  end the program: they are refused here, like every name which is not listed.
-/
import TwoLevel.Expression.Style
import TwoLevel.Minimize

namespace TwoLevel.CommandLine

/-! ## Options and their values -/

/-- The options which take a value. -/
inductive Key where
  | on
  | off
  | file
  | method
  | style
  | save
  deriving DecidableEq

namespace Key

def all : List Key :=
  [on, off, file, method, style, save]

/-- The name after `--`. -/
def long : Key → String
  | on => "on"
  | off => "off"
  | file => "file"
  | method => "method"
  | style => "notation"
  | save => "save"

/-- The letter after `-`; the two lists have none. -/
def short? : Key → Option Char
  | on => none
  | off => none
  | file => some 'f'
  | method => some 'm'
  | style => some 'n'
  | save => some 's'

def ofLong? (name : List Char) : Option Key :=
  all.find? fun k => k.long.toList = name

def ofShort? (c : Char) : Option Key :=
  all.find? fun k => k.short? = some c

end Key

/-- What the next argument has to be. -/
inductive Expected where
  | option
  | value (key : Key)
  | nothing
  deriving DecidableEq

/-- The arguments read so far. -/
structure Arguments where
  values : List (Key × String)
  all : Bool
  next : Expected

namespace Arguments

/-- No argument has been read. -/
def empty : Arguments :=
  ⟨[], false, .option⟩

/-- The value of an option, if it was given. -/
def value? (r : Arguments) (key : Key) : Option String :=
  r.values.lookup key

/-- Gives a value to an option which has none yet. -/
def set (r : Arguments) (key : Key) (value : List Char) : Option Arguments :=
  if (r.value? key).isSome then none
  else some ⟨(key, String.ofList value) :: r.values, r.all, .option⟩

/-- Gives the option without a value, which may be given once. -/
def setAll (r : Arguments) : Option Arguments :=
  if r.all then none else some ⟨r.values, true, .option⟩

/-- Reads joined short options. -/
def readShort (r : Arguments) : List Char → Option Arguments
  | [] => some r
  | c :: rest =>
    if c = 'a' then r.setAll.bind (readShort · rest)
    else
      match Key.ofShort? c, rest with
      | none, _ => none
      | some key, [] => some ⟨r.values, r.all, .value key⟩
      | some key, '=' :: value => r.set key value
      | some key, value => r.set key value

/-- Reads a long option, with its value if an equals sign follows the name. -/
def readLong (r : Arguments) (body : List Char) : Option Arguments :=
  let name := body.takeWhile (· != '=')
  match Key.ofLong? name, body.dropWhile (· != '=') with
  | some key, [] => some ⟨r.values, r.all, .value key⟩
  | some key, _ :: value => r.set key value
  | none, [] => if name = "all".toList then r.setAll else none
  | none, _ :: _ => none

/-- Reads one more argument. After `--` no other argument may follow. -/
def read (r : Arguments) (arg : List Char) : Option Arguments :=
  match r.next, arg with
  | .nothing, _ => none
  | .value key, ['-'] => r.set key ['-']
  | .value _, '-' :: _ => none
  | .value key, value => r.set key value
  | .option, ['-', '-'] => some ⟨r.values, r.all, .nothing⟩
  | .option, '-' :: '-' :: body => r.readLong body
  | .option, ['-'] => none
  | .option, '-' :: letters => r.readShort letters
  | .option, _ => none

/-- Reads all arguments; the last one may not leave an option without its value. -/
def ofList (args : List String) : Option Arguments := do
  let r ← args.foldlM (fun r arg => r.read arg.toList) empty
  match r.next with
  | .value _ => none
  | _ => some r

end Arguments

/-! ## Requests -/

/-- Where the ON-set and the OFF-set come from. -/
inductive Source where
  | lists (on off : String)
  | file (path : String)
  deriving DecidableEq

/-- A request to the program. -/
structure Options where
  source : Source
  method : Method
  style : Style
  /-- Write all sums which the exact search finds, whatever the method. -/
  all : Bool
  /-- Also write the results to the file with this path. -/
  save : Option String
  deriving DecidableEq

/-- A path is a text which is not empty. -/
def path? (text : String) : Option String :=
  if text = "" then none else some text

namespace Options

/-- The two lists or the file, and not both. -/
def source? (r : Arguments) : Option Source :=
  match r.value? .on, r.value? .off, r.value? .file with
  | some on, some off, none => some (.lists on off)
  | none, none, some text => (path? text).map .file
  | _, _, _ => none

def method? (r : Arguments) : Option Method :=
  match r.value? .method with
  | some name => Method.all.find? (·.name = name)
  | none => some .standard

def style? (r : Arguments) : Option Style :=
  match r.value? .style with
  | some name => Style.all.find? (·.name = name)
  | none => some .standard

def save? (r : Arguments) : Option (Option String) :=
  match r.value? .save with
  | some text => (path? text).map some
  | none => some none

/-- The request which the arguments make, if they make one. -/
def parse (args : List String) : Option Options := do
  let r ← Arguments.ofList args
  let source ← source? r
  let method ← method? r
  let style ← style? r
  let save ← save? r
  return ⟨source, method, style, r.all, save⟩

end Options

end TwoLevel.CommandLine
