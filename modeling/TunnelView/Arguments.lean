import TunnelView.Number.Numeral
import TunnelView.Text.Quoted

/-!
# Arguments of the command line

The one command is `replay`, with the path of a script and options. Arguments are classed first:
what begins with a dash is an option, unless it is a number, has a blank in it, or stands behind a
lone `--`. Long options may be cut short as long as it is clear which is meant, and take their value
behind `=` or as the next argument. Then the arguments are used up from left to right.

Key definitions: `Arguments.Fault`, `Arguments.Word`, `Arguments.classify`, `Request`,
`Arguments.read`.
-/

namespace TunnelView.Arguments

/-- The options. -/
inductive Opt where
  | help
  | window
  | patience
  | stopAt
  | debug
deriving DecidableEq, Repr

/-- Whether an option takes a value. -/
def Opt.takesValue : Opt → Bool
  | .help => false
  | .debug => false
  | _ => true

/-- The spellings of an option, as messages have them. -/
def Opt.label : Opt → String
  | .help => "-h/--help"
  | .window => "--debounce-ms"
  | .patience => "--fallback-ms"
  | .stopAt => "--until-ms"
  | .debug => "--debug"

/-- The spellings of the options before the command. -/
def generalSpellings : List (String × Opt) := [("-h", .help), ("--help", .help)]

/-- The spellings of the options of the command. -/
def replaySpellings : List (String × Opt) :=
  generalSpellings
    ++ [("--debounce-ms", .window), ("--fallback-ms", .patience), ("--until-ms", .stopAt),
      ("--debug", .debug)]

/-- What is wrong with the arguments. -/
inductive Fault where
  | ambiguous (argument : String) (spellings : List String)
  | needlessValue (option : Opt) (value : String)
  | noValue (option : Opt)
  | notANumber (option : Opt) (value : String)
  | notPositive (option : Opt) (value : String)
  | unknownCommand (name : String)
  | missing (name : String)
  | unrecognised (arguments : List String)

/-- The kind of value that an option takes. -/
def Opt.valueKind : Opt → String
  | .stopAt => "float"
  | _ => "_positive_ms"

/-- The wording of a fault. -/
def Fault.message : Fault → String
  | .ambiguous argument spellings =>
    "ambiguous option: " ++ argument ++ " could match " ++ ", ".intercalate spellings
  | .needlessValue option value =>
    "argument " ++ option.label ++ ": ignored explicit argument " ++ Text.quoted value
  | .noValue option => "argument " ++ option.label ++ ": expected one argument"
  | .notANumber option value =>
    "argument " ++ option.label ++ ": invalid " ++ option.valueKind ++ " value: "
      ++ Text.quoted value
  | .notPositive option value => "argument " ++ option.label ++ ": must be > 0, got " ++ value
  | .unknownCommand name =>
    "argument command: invalid choice: " ++ Text.quoted name ++ " (choose from 'replay')"
  | .missing name => "the following arguments are required: " ++ name
  | .unrecognised arguments => "unrecognized arguments: " ++ " ".intercalate arguments

/-- The class of an argument. An option comes with its spelling and the value in the same argument,
which stands behind `=` or right behind a short option. -/
inductive Word where
  | plain
  | dashes
  | option (option : Opt) (spelling : String) (value : Option String)
  | unknown

/-- The text before the first `=`, and the text behind it. -/
def splitEquals (s : String) : String × Option String :=
  let cs := s.toList
  let before := cs.takeWhile (· != '=')
  match cs.dropWhile (· != '=') with
  | _ :: behind => (String.ofList before, some (String.ofList behind))
  | [] => (s, none)

/-- Whether characters are decimal digits, and at least one. -/
def isDigits (cs : List Char) : Bool := !cs.isEmpty && cs.all fun c => (Text.digitValue? c).isSome

/-- Whether an argument looks like a negative number: digits, or a point with digits behind it. -/
def isNegativeNumber (s : String) : Bool :=
  let cs := s.toList
  let digits := if cs.getLast? = some '\n' then cs.dropLast else cs
  match digits with
  | '-' :: digits =>
    isDigits digits
      || (let whole := digits.takeWhile (· != '.')
          (whole.isEmpty || isDigits whole)
            && isDigits ((digits.dropWhile (· != '.')).drop 1))
  | _ => false

/-- The options that an argument can be short for: long ones by their beginning; a short one may
have a value right behind it. -/
def candidates (spellings : List (String × Opt)) (argument : String) : List (String × Word) :=
  if argument.startsWith "--" then
    let (name, value) := splitEquals argument
    (spellings.filter fun s => name.toList.isPrefixOf s.1.toList).map fun (spelling, option) =>
      (spelling, .option option spelling value)
  else
    let short := String.ofList (argument.toList.take 2)
    spellings.filterMap fun (spelling, option) =>
      if spelling = short then
        some (spelling, .option option spelling (some (String.ofList (argument.toList.drop 2))))
      else if argument.toList.isPrefixOf spelling.toList then
        some (spelling, .option option spelling none)
      else none

/-- The option of a spelling. -/
def spelled? (spellings : List (String × Opt)) (spelling : String) : Option Opt :=
  (spellings.find? (·.1 == spelling)).map (·.2)

/-- The class of an argument before a lone `--`. -/
def classifyOne (spellings : List (String × Opt)) (argument : String) : Except Fault Word :=
  if !argument.startsWith "-" then .ok .plain
  else match spelled? spellings argument with
    | some option => .ok (.option option argument none)
    | none =>
      if argument.length = 1 then .ok .plain
      else
        let (name, value) := splitEquals argument
        match value, spelled? spellings name with
        | some value, some option => .ok (.option option name (some value))
        | _, _ =>
          match candidates spellings argument with
          | [(_, word)] => .ok word
          | [] =>
            if isNegativeNumber argument || argument.toList.contains ' ' then .ok .plain
            else .ok .unknown
          | several => .error (.ambiguous argument (several.map (·.1)))

/-- Arguments with their classes. -/
def classify (spellings : List (String × Opt)) :
    List String → Except Fault (List (String × Word))
  | [] => .ok []
  | argument :: rest =>
    if argument = "--" then .ok (("--", .dashes) :: rest.map fun a => (a, .plain))
    else do
      let word ← classifyOne spellings argument
      let words ← classify spellings rest
      return (argument, word) :: words

/-- What is asked for by a replay. -/
structure Sheet where
  script : Option String := none
  window : Option Double := none
  patience : Option Double := none
  stopAt : Option Double := none
  debug : Bool := false
  /-- Arguments of which nothing is known. -/
  extras : List String := []

/-- The value of an option. -/
def readValue (option : Opt) (value : String) : Except Fault Double :=
  match Numeral.double? value with
  | none => .error (.notANumber option value)
  | some x =>
    if option != .stopAt && x.exact.le Double.zero.exact then .error (.notPositive option value)
    else .ok x

/-- Enters the value of an option. -/
def enter (option : Opt) (value : String) (sheet : Sheet) : Except Fault Sheet := do
  let x ← readValue option value
  match option with
  | .window => return { sheet with window := some x }
  | .patience => return { sheet with patience := some x }
  | .stopAt => return { sheet with stopAt := some x }
  | _ => return sheet

/-- What is left of the text behind a short option once the letters that ask for help are taken. An
empty text has none to take. -/
def untaken (value : String) : Option String :=
  let rest := value.toList.dropWhile (· = 'h')
  if rest.isEmpty && !value.isEmpty then none else some (String.ofList rest)

/-- Checks an option without a value: a long one has nothing behind it, a short one only further
letters that ask for help. -/
def checkBare (option : Opt) (spelling : String) (value : Option String) : Except Fault Unit :=
  match if spelling.startsWith "--" then value else value.bind untaken with
  | none => .ok ()
  | some rest => .error (.needlessValue option rest)

/-- Uses up the arguments of the command. There is no sheet if help is asked for. -/
def fill (sheet : Sheet) : List (String × Word) → Except Fault (Option Sheet)
  | [] => .ok (some sheet)
  | (argument, .unknown) :: rest => fill { sheet with extras := sheet.extras ++ [argument] } rest
  | (_, .option option spelling value) :: rest =>
    if option.takesValue then
      match value, rest with
      | some value, rest => do fill (← enter option value sheet) rest
      | none, (value, .plain) :: rest => do fill (← enter option value sheet) rest
      | none, _ => .error (.noValue option)
    else do
      checkBare option spelling value
      if option = .help then return none else fill { sheet with debug := true } rest
  | (argument, .plain) :: rest =>
    if sheet.script.isNone then
      match rest with
      | (_, .dashes) :: rest => fill { sheet with script := some argument } rest
      | rest => fill { sheet with script := some argument } rest
    else fill { sheet with extras := sheet.extras ++ [argument] } rest
  | (argument, .dashes) :: rest =>
    match sheet.script, rest with
    | none, (script, .plain) :: rest => fill { sheet with script := some script } rest
    | _, rest => fill { sheet with extras := sheet.extras ++ [argument] } rest

end Arguments

/-- What a command line asks for. -/
inductive Request where
  | help
  | replay (script : String) (delays : Option Double × Option Double) (stopAt : Option Double)
    (debug : Bool)

namespace Arguments

/-- Reads the arguments of the command, where `extras` came before it. -/
def readReplay (extras : List String) (arguments : List String) : Except Fault Request := do
  match ← fill {} (← classify replaySpellings arguments) with
  | none => return .help
  | some sheet =>
    match sheet.script with
    | none => .error (.missing "script")
    | some script =>
      let extras := extras ++ sheet.extras
      if extras.isEmpty then
        return .replay script (sheet.window, sheet.patience) sheet.stopAt sheet.debug
      else .error (.unrecognised extras)

/-- Looks for the command among classed arguments. -/
def findCommand (extras : List String) : List (String × Word) → Except Fault Request
  | [] => .error (.missing "command")
  | (argument, .unknown) :: rest => findCommand (extras ++ [argument]) rest
  | (_, .option option spelling value) :: _ => do
    checkBare option spelling value
    return .help
  | (name, .plain) :: rest =>
    if name = "replay" then readReplay extras (rest.map (·.1)) else .error (.unknownCommand name)
  | (_, .dashes) :: rest =>
    if rest.isEmpty then .error (.missing "command") else .error (.unknownCommand "--")

/-- Reads a command line. -/
def read (arguments : List String) : Except Fault Request := do
  findCommand [] (← classify generalSpellings arguments)

end Arguments
end TunnelView
