import Stepwise.CommandLine.Flag
/-!
The options that a command line asks for.
-/

namespace Stepwise.CommandLine

/-- What is asked for. -/
structure Options where
  file : Option String := none
  exhibit : Option String := none
  listsGallery : Bool := false
  ceiling : Int := 100
  step : Option Int := none
  json : Bool := false
  verbose : Bool := false
  deriving DecidableEq, Repr

/-- Why there are no options: help is asked for, or the arguments are wrong. -/
inductive Refusal where
  | help
  | error (cause : UsageError)
  deriving DecidableEq, Repr

namespace Options

def integer (f : Flag) (value : String) : Except Refusal Int :=
  match Numeral.integer? (Text.ofString value).trim with
  | some i => .ok i
  | none => .error (.error (.malformedInteger f value))

/-- Takes a flag into account, with its value if it takes one. -/
def set (o : Options) (f : Flag) (value : String) : Except Refusal Options :=
  match f with
  | .help => .error .help
  | .exhibit => .ok { o with exhibit := some value }
  | .gallery => .ok { o with listsGallery := true }
  | .ceiling => do return { o with ceiling := ← integer f value }
  | .step => do return { o with step := some (← integer f value) }
  | .json => .ok { o with json := true }
  | .verbose => .ok { o with verbose := true }

/-- The flags in one argument. -/
structure Cluster where
  /-- those that are complete, with their values -/
  complete : List (Flag × String) := []
  /-- the one that waits for its value -/
  waiting : Option Flag := none
  /-- short flags that do not exist -/
  unknown : Option String := none

/-- Splits an argument into its flags. A switch takes no value, and joined to a short one there may
be further short flags. -/
def cluster (f : Flag) (isShort isAssigned : Bool) : List Char → Except UsageError Cluster
  | [] =>
    if isAssigned then
      if f.takesValue then .ok { complete := [(f, "")] } else .error (.surplusValue f "")
    else if f.takesValue then .ok { waiting := some f }
    else .ok { complete := [(f, "")] }
  | c :: cs =>
    let value := String.ofList (c :: cs)
    if f.takesValue then .ok { complete := [(f, value)] }
    else if !isShort || isAssigned || c = '-' then .error (.surplusValue f value)
    else match Flag.ofSpelling? (String.ofList ['-', c]) with
      | none => .ok { complete := [(f, "")], unknown := some (String.ofList ('-' :: c :: cs)) }
      | some next => do
        let rest ← match cs with
          | '=' :: cs => cluster next true true cs
          | cs => cluster next true false cs
        return { rest with complete := (f, "") :: rest.complete }

/-- The flags of an argument and what is attached to the first. -/
def clusterOf (f : Flag) (isShort : Bool) (attached : Option Attached) : Except UsageError Cluster :=
  match attached with
  | none => cluster f isShort false []
  | some a => cluster f isShort a.isAssigned a.chars

def setAll (o : Options) (settings : List (Flag × String)) : Except Refusal Options :=
  settings.foldlM (fun o s => o.set s.1 s.2) o

/-- Goes through the arguments in order. The first plain one is the file, if it still may be; the
arguments that nothing takes are collected. -/
def takeAll (o : Options) (takesFile : Bool) (surplus : List String) :
    List Argument → Except Refusal (Options × List String)
  | [] => .ok (o, surplus)
  | .plain s :: rest =>
    if takesFile then
      match rest with
      | .separator :: rest => takeAll { o with file := some s } false surplus rest
      | rest => takeAll { o with file := some s } false surplus rest
    else takeAll o false (surplus ++ [s]) rest
  | .separator :: rest =>
    if takesFile then
      match rest with
      | .plain s :: rest => takeAll { o with file := some s } false surplus rest
      | rest => takeAll o false surplus rest
    else takeAll o false (surplus ++ ["--"]) rest
  | .unknown s :: rest => takeAll o takesFile (surplus ++ [s]) rest
  | .flag f isShort attached :: rest =>
    match clusterOf f isShort attached with
    | .error e => .error (.error e)
    | .ok cluster =>
      let surplus := surplus ++ cluster.unknown.toList
      match cluster.waiting with
      | none => do takeAll (← o.setAll cluster.complete) takesFile surplus rest
      | some f =>
        match rest with
        | .plain value :: rest => do
          takeAll (← o.setAll (cluster.complete ++ [(f, value)])) takesFile surplus rest
        | _ => .error (.error (.missingValue f))

/-- The options of a command line. -/
def ofArguments (arguments : List String) : Except Refusal Options :=
  match Argument.ofStrings arguments with
  | .error e => .error (.error e)
  | .ok arguments => do
    match ← takeAll {} true [] arguments with
    | (o, []) => return o
    | (_, surplus) => .error (.error (.unrecognized surplus))

end Options

end Stepwise.CommandLine
