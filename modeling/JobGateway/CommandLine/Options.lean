import JobGateway.CommandLine.Argument
import JobGateway.CommandLine.Stop

/-! Options that take a value each. An option is given at most once, as two arguments or as one with
an equals sign. A value is looked at when the next option begins or the arguments end, so that an
unknown argument right behind it is found first. An option that is not given may have its value in
the environment. -/
namespace JobGateway.CommandLine

abbrev Environment := String → Option String

/-- An option, for values that are collected in `σ`. -/
structure ValueOption (σ : Type) where
  name : String
  /-- The variable that holds its value where it is not given. -/
  variableName : Option String
  isGiven : σ → Bool
  store (value : String) (given : σ) : Except Stop σ

namespace ValueOption

variable {σ α : Type}

/-- The option of a name, given how its value is read and where it is kept. -/
def keeping (name : String) (variableName : Option String) (read : String → Except Stop α)
    (get : σ → Option α) (put : α → σ → σ) : ValueOption σ where
  name := name
  variableName := variableName
  isGiven given := (get given).isSome
  store value given := return put (← read value) given

def storeOnce (o : ValueOption σ) (value : String) (given : σ) : Except Stop σ :=
  if o.isGiven given then .error .repeatedOption else o.store value given

/-- Store the value that the environment has for an option, if it is not given. -/
def storeVariable (environment : Environment) (given : σ) (o : ValueOption σ) : Except Stop σ :=
  if o.isGiven given then .ok given
  else match o.variableName.bind environment with
    | some value => o.store value given
    | none => .ok given

end ValueOption

/-- How far a list of options is read: the values stored so far, and the last option with its value,
if that is not stored yet. -/
structure Scan (σ : Type) where
  given : σ
  last : Option (ValueOption σ × Option String)

namespace Scan

variable {σ : Type}

/-- The values when that of the last option is stored. -/
def settle (s : Scan σ) : Except Stop σ :=
  match s.last with
  | none => .ok s.given
  | some (_, none) => .error .invalidValue
  | some (o, some value) => o.storeOnce value s.given

def beginOption (s : Scan σ) (o : ValueOption σ) (value : Option (List Char)) :
    Except Stop (Scan σ) := do
  let given ← s.settle
  match value with
  | none => return ⟨given, some (o, none)⟩
  | some value => return ⟨← o.storeOnce (String.ofList value) given, none⟩

/-- Show the help, after a look at the value of the last option. -/
def askHelp (s : Scan σ) : Except Stop (Scan σ) := do
  let _ ← s.settle
  throw .helpAsked

def takeValue (s : Scan σ) (value : String) : Except Stop (Scan σ) :=
  match s.last with
  | some (o, none) => .ok ⟨s.given, some (o, some value)⟩
  | _ => .error .unknownArgument

/-- Read an argument other than the separator. -/
def step (options : List (ValueOption σ)) (s : Scan σ) : Argument → Except Stop (Scan σ)
  | .separator => .ok s
  | .long name value =>
    if name = "help".toList then
      if value.isSome then .error .needlessValue else s.askHelp
    else match options.find? fun o => o.name.toList = name with
      | some o => s.beginOption o value
      | none => .error .unknownArgument
  | .short letter _ => if letter = 'h' then s.askHelp else .error .unknownArgument
  | .plain text => s.takeValue text

/-- Read all arguments. Nothing may follow the separator. -/
def readAll (options : List (ValueOption σ)) : Scan σ → List String → Except Stop σ
  | s, [] => s.settle
  | s, text :: rest =>
    match Argument.ofText text with
    | .separator => if rest.isEmpty then s.settle else .error .unknownArgument
    | argument => do readAll options (← s.step options argument) rest

end Scan

def readOptions {σ : Type} (options : List (ValueOption σ)) (none : σ) (environment : Environment)
    (arguments : List String) : Except Stop σ := do
  let given ← Scan.readAll options ⟨none, .none⟩ arguments
  options.foldlM (ValueOption.storeVariable environment) given

end JobGateway.CommandLine
