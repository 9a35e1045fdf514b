/-! Arguments of a command line: options, which start with hyphens, and other arguments among them.
An option is given once at most. -/

namespace Slipbox.Command

/-- An option that may be given. -/
structure OptionSpec where
  name : String
  letter : Option Char
  takesValue : Bool

/-- What was given: each option with its value, which is empty if it takes none. -/
structure Given where
  options : List (String × String)
  arguments : List String

namespace Given

def empty : Given := ⟨[], []⟩

def has (g : Given) (name : String) : Bool :=
  (g.options.lookup name).isSome

def addOption (g : Given) (name value : String) : Given :=
  { g with options := g.options ++ [(name, value)] }

def addArguments (g : Given) (arguments : List String) : Given :=
  { g with arguments := g.arguments ++ arguments }

end Given

/-- What one argument is by itself. -/
inductive Item where
  | argument
  /-- Two hyphens: all that follow are plain arguments. -/
  | separator
  /-- An option, with the value that is attached to it. -/
  | option (o : OptionSpec) (value : Option String)
  | unknown

/-- The value behind an option's letter; an equals sign may stand before it. -/
private def attached? : List Char → Option String
  | [] => none
  | '=' :: cs => some (String.ofList cs)
  | cs => some (String.ofList cs)

def item (known : List OptionSpec) (argument : String) : Item :=
  let found (o : Option OptionSpec) (value : Option String) : Item :=
    match o with
    | some o => if value.isSome && !o.takesValue then .unknown else .option o value
    | none => .unknown
  match argument.toList with
  | ['-', '-'] => .separator
  | '-' :: '-' :: cs =>
    let name := String.ofList (cs.takeWhile (· != '='))
    let value := match cs.dropWhile (· != '=') with
      | [] => none
      | _ :: value => some (String.ofList value)
    found (known.find? fun o => o.name == name) value
  | '-' :: c :: cs => found (known.find? fun o => o.letter == some c) (attached? cs)
  | _ => .argument

/-- Whether an argument cannot be the value of the option before it. -/
def looksLikeOption (argument : String) : Bool :=
  match argument.toList with
  | '-' :: _ :: _ => true
  | _ => false

/-- Takes in arguments, up to the first plain one if `stop` is set, and gives the ones that are
left. -/
def Given.take? (known : List OptionSpec) (stop : Bool) (g : Given) :
    List String → Option (Given × List String)
  | [] => some (g, [])
  | a :: rest =>
    match item known a with
    | .unknown => none
    | .separator => if stop then none else some (g.addArguments rest, [])
    | .argument => if stop then some (g, a :: rest) else take? known stop (g.addArguments [a]) rest
    | .option o value =>
      if g.has o.name then none
      else
        match value with
        | some v => take? known stop (g.addOption o.name v) rest
        | none =>
          if o.takesValue then
            match rest with
            | v :: rest =>
              if looksLikeOption v then none else take? known stop (g.addOption o.name v) rest
            | [] => none
          else take? known stop (g.addOption o.name "") rest

end Slipbox.Command
