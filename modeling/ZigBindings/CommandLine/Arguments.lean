import ZigBindings.Text.Blank
import ZigBindings.Text.Word

/-!
Arguments of the command line: one world file, and options in any order. Options may be shortened
as long as they stay unambiguous, and one-letter options may be written together.
-/

namespace ZigBindings.CommandLine

inductive Flag where
  | help
  | world
  | outDir
  | options
  | verbose
deriving DecidableEq, Inhabited

def Flag.takesValue : Flag → Bool
  | world | outDir | options => true
  | help | verbose => false

def flagNames : List (String × Flag) :=
  [("-h", .help), ("--help", .help), ("--world", .world), ("-o", .outDir),
   ("--out-dir", .outDir), ("--options", .options), ("-v", .verbose), ("--verbose", .verbose)]

structure Request where
  worldFile : Option String := none
  world : Option String := none
  outDir : Option String := none
  options : Option String := none
  verbose : Bool := false
  /-- Something was left that no argument takes. -/
  extras : Bool := false
deriving DecidableEq, Inhabited

/-- The run ends before it begins: help was asked for, or the arguments are wrong. -/
inductive Stop where
  | help
  | usage
deriving DecidableEq, Inhabited

def Stop.code : Stop → Nat
  | help => 0
  | usage => 2

structure Attached where
  equals : Bool
  text : List Char
deriving DecidableEq, Inhabited

/-- What one argument is before it is known which option takes it. -/
inductive Word where
  | value (text : String)
  /-- Two dashes, behind which there are only values. -/
  | fence
  | option (name : String) (flag : Flag) (attached : Option Attached)
  | unknown
deriving DecidableEq, Inhabited

def splitEquals (s : String) : Option (String × Attached) :=
  let chars := s.toList
  match chars.dropWhile (· != '=') with
  | [] => none
  | _ :: rest => some (String.ofList (chars.takeWhile (· != '=')), ⟨true, rest⟩)

def isNegativeNumber (s : String) : Bool :=
  let digits := (Text.dropFinalBreak s.toList).drop 1
  match digits.dropWhile Text.isDigit with
  | [] => !digits.isEmpty
  | '.' :: places => !places.isEmpty && places.all Text.isDigit
  | _ => false

def candidates (arg : String) : List (String × Flag × Option Attached) :=
  if arg.startsWith "--" then
    let (name, attached) := match splitEquals arg with
      | some (name, value) => (name, some value)
      | none => (arg, none)
    (flagNames.filter fun (full, _) => full.startsWith name).map fun (full, flag) =>
      (full, flag, attached)
  else
    let letter := String.ofList (arg.toList.take 2)
    flagNames.filterMap fun (full, flag) =>
      if full == letter then some (full, flag, some ⟨false, arg.toList.drop 2⟩)
      else if full.startsWith arg then some (full, flag, none)
      else none

def classify (arg : String) : Except Stop Word :=
  if !arg.startsWith "-" then pure (.value arg)
  else match flagNames.lookup arg with
    | some flag => pure (.option arg flag none)
    | none =>
      if arg == "-" then pure (.value arg)
      else
        let exact := (splitEquals arg).bind fun (name, value) =>
          (flagNames.lookup name).map fun flag => Word.option name flag (some value)
        match exact, candidates arg with
        | some word, _ => pure word
        | none, [(name, flag, attached)] => pure (.option name flag attached)
        | none, [] =>
          if isNegativeNumber arg || arg.toList.contains ' ' then pure (.value arg)
          else pure .unknown
        | none, _ => throw .usage

def words : List String → Except Stop (List Word)
  | [] => pure []
  | "--" :: rest => pure (.fence :: rest.map .value)
  | arg :: rest => do
    let word ← classify arg
    let others ← words rest
    pure (word :: others)

/-- The options in one argument: those that take no value, and at most one behind them, whose value
may still have to come. `isCut` says that the rest of the argument is no option. -/
structure Cluster where
  switches : List Flag
  last : Option (Flag × Option String)
  isCut : Bool
deriving DecidableEq, Inhabited

def cluster (flag : Flag) (equals : Bool) : List Char → Except Stop Cluster
  | [] => if flag.takesValue then pure ⟨[], some (flag, some ""), false⟩ else throw .usage
  | c :: rest =>
    if flag.takesValue then pure ⟨[], some (flag, some (String.ofList (c :: rest))), false⟩
    else if equals || c == '-' then throw .usage
    else match flagNames.lookup (String.ofList ['-', c]), rest with
      | none, _ => pure ⟨[flag], none, true⟩
      | some next, [] => pure ⟨[flag], some (next, none), false⟩
      | some next, '=' :: rest => do
        let found ← cluster next true rest
        pure { found with switches := flag :: found.switches }
      | some next, d :: rest => do
        let found ← cluster next false (d :: rest)
        pure { found with switches := flag :: found.switches }

def expand (name : String) (flag : Flag) (attached : Option Attached) : Except Stop Cluster :=
  match attached with
  | none => pure ⟨[], some (flag, none), false⟩
  | some value =>
    if name.startsWith "--" && !flag.takesValue then throw .usage
    else cluster flag value.equals value.text

def Request.set (r : Request) (flag : Flag) (value : String) : Except Stop Request :=
  match flag with
  | .help => throw .help
  | .world => pure { r with world := some value }
  | .outDir => pure { r with outDir := some value }
  | .options => pure { r with options := some value }
  | .verbose => pure { r with verbose := true }

def Request.setAll (r : Request) (flags : List Flag) : Except Stop Request :=
  flags.foldlM (fun r flag => r.set flag "") r

/-- Takes the words in order. The world file is the first value that no option takes. -/
def Request.take (r : Request) : List Word → Except Stop Request
  | [] => pure r
  | .unknown :: rest => Request.take { r with extras := true } rest
  | .value text :: .fence :: rest =>
    if r.worldFile.isNone then Request.take { r with worldFile := some text } rest
    else Request.take { r with extras := true } rest
  | .value text :: rest =>
    if r.worldFile.isNone then Request.take { r with worldFile := some text } rest
    else Request.take { r with extras := true } rest
  | .fence :: rest =>
    Request.take { r with extras := r.extras || r.worldFile.isSome } rest
  | .option name flag attached :: rest => do
    let found ← expand name flag attached
    match found.last with
    | none =>
      let r ← r.setAll found.switches
      Request.take { r with extras := r.extras || found.isCut } rest
    | some (last, value) =>
      match last.takesValue, value, rest with
      | true, none, .value text :: rest =>
        let r ← r.setAll found.switches
        let r ← r.set last text
        Request.take r rest
      | true, none, _ => throw .usage
      | _, value, rest =>
        let r ← r.setAll found.switches
        let r ← r.set last (value.getD "")
        Request.take r rest

def parse (args : List String) : Except Stop (Request × String) := do
  let words ← words args
  let request ← Request.take {} words
  match request.worldFile with
  | none => throw .usage
  | some file => if request.extras then throw .usage else pure (request, file)

end ZigBindings.CommandLine
