import Presage.Compile
import Presage.Node.Outline
import Presage.Program.Listing

/-!
The command line. `Options.ofArguments?` reads the arguments, and `Options.respond` says what is to
be done for the content of the source file: finish with an exit code and texts for the two output
streams, or first write a file. Reading and writing files is left to the caller.
-/

set_option autoImplicit false
set_option relaxedAutoImplicit false

namespace Presage.CommandLine

/-- What the output is to be. -/
inductive Artifact where
  | script
  | program
  | tokens
  | tree
deriving DecidableEq

def Artifact.ofName? : String → Option Artifact
  | "js" => some script
  | "ir" => some program
  | "tokens" => some tokens
  | "tree" => some tree
  | _ => none

/-- What the arguments ask for. Without an output file the output goes to the standard output. -/
structure Options where
  file : String
  artifact : Artifact
  folded : Bool
  output? : Option String

/-- The arguments met so far. -/
structure Given where
  file? : Option String
  artifact? : Option Artifact
  folded : Bool
  output? : Option String

namespace Given

def none : Given := ⟨.none, .none, false, .none⟩

/-- The source file; there can be only one, and its name is not empty. -/
def withFile? (given : Given) (file : String) : Option Given :=
  if given.file?.isSome ∨ file = "" then .none else some { given with file? := some file }

def withArtifact? (given : Given) (name : String) : Option Given :=
  if given.artifact?.isSome then .none
  else (Artifact.ofName? name).map fun artifact ↦ { given with artifact? := some artifact }

def withFolding? (given : Given) : Option Given :=
  if given.folded then .none else some { given with folded := true }

/-- The output file; it can be given once, and its name is not empty. -/
def withOutput? (given : Given) (file : String) : Option Given :=
  if given.output?.isSome ∨ file = "" then .none else some { given with output? := some file }

def toOptions? (given : Given) : Option Options :=
  given.file?.map fun file ↦
    ⟨file, given.artifact?.getD .script, given.folded, given.output?⟩

end Given

/-- What one argument says. -/
inductive Argument where
  | separator
  | option (name : String) (value? : Option String)
  | letters (letters : List Char)
  | plain (text : String)

/-- A lone dash is plain text, and so is everything that does not start with a dash. -/
def Argument.ofText (text : String) : Argument :=
  match text.toList with
  | ['-', '-'] => separator
  | '-' :: '-' :: rest =>
    let name := String.ofList (rest.takeWhile (· != '='))
    match rest.dropWhile (· != '=') with
    | [] => option name none
    | _ :: value => option name (some (String.ofList value))
  | '-' :: c :: rest => letters (c :: rest)
  | _ => plain text

/-- What a run of option letters says: the options it sets, and whether the last of them takes the
next argument for its value. -/
inductive LetterEffect where
  | done (given : Given)
  | output (given : Given)
  | wrong

/-- `O` asks for folding. `o` takes the rest of the run for its value, after an equals sign if there
is one. -/
def letterEffect : Given → List Char → LetterEffect
  | given, [] => .done given
  | given, 'O' :: rest =>
    match given.withFolding? with
    | some folded => letterEffect folded rest
    | none => .wrong
  | given, ['o'] => .output given
  | given, 'o' :: '=' :: rest => ofOutput (given.withOutput? (String.ofList rest))
  | given, 'o' :: rest => ofOutput (given.withOutput? (String.ofList rest))
  | _, _ => .wrong
where
  ofOutput : Option Given → LetterEffect
    | some given => .done given
    | none => .wrong

/-- The plain text that the next argument has to be. -/
def value? : List String → Option (String × List String)
  | [] => none
  | text :: rest =>
    match Argument.ofText text with
    | .plain value => some (value, rest)
    | _ => none

theorem length_of_value? {arguments rest : List String} {value : String}
    (h : value? arguments = some (value, rest)) : rest.length < arguments.length := by
  cases arguments with
  | nil => simp [value?] at h
  | cons text others =>
    simp only [value?] at h
    split at h
    · cases h; simp
    · simp at h

/-- Reads arguments one after the other. -/
def read? (given : Given) : List String → Option Given
  | [] => some given
  | text :: rest =>
    match Argument.ofText text with
    | .separator => rest.foldlM Given.withFile? given
    | .plain file => do read? (← given.withFile? file) rest
    | .option "optimize" none => do read? (← given.withFolding?) rest
    | .option "emit" (some name) => do read? (← given.withArtifact? name) rest
    | .option "out" (some file) => do read? (← given.withOutput? file) rest
    | .option "emit" none =>
      match h : value? rest with
      | some (name, others) =>
        have := length_of_value? h
        do read? (← given.withArtifact? name) others
      | none => none
    | .option "out" none =>
      match h : value? rest with
      | some (file, others) =>
        have := length_of_value? h
        do read? (← given.withOutput? file) others
      | none => none
    | .option _ _ => none
    | .letters letters =>
      match letterEffect given letters with
      | .done next => read? next rest
      | .output next =>
        match h : value? rest with
        | some (file, others) =>
          have := length_of_value? h
          do read? (← next.withOutput? file) others
        | none => none
      | .wrong => none
termination_by arguments => arguments.length

/-- The options that the arguments ask for, if they are well formed. -/
def Options.ofArguments? (arguments : List String) : Option Options := do
  (← read? .none arguments).toOptions?

/-- Why a file could not be read or written. -/
inductive FileFailure where
  | notFound
  | notDirectory
  | isDirectory
  | notText
deriving DecidableEq

def FileFailure.report : FileFailure → String
  | notFound =>
    "Error: Os \x7b code: 2, kind: NotFound, message: \"No such file or directory\" \x7d\n"
  | notDirectory =>
    "Error: Os \x7b code: 20, kind: NotADirectory, message: \"Not a directory\" \x7d\n"
  | isDirectory =>
    "Error: Os \x7b code: 21, kind: IsADirectory, message: \"Is a directory\" \x7d\n"
  | notText =>
    "Error: Error \x7b kind: InvalidData, message: \"stream did not contain valid UTF-8\" \x7d\n"

/-- What a run leaves: its exit code and what it wrote to the two output streams. -/
structure Outcome where
  exitCode : UInt32
  output : String
  errors : String

namespace Outcome

/-- Arguments that are not well formed. -/
def misused : Outcome :=
  ⟨2, "", "Usage: presage [--emit js|ir|tokens|tree] [-O] [-o FILE] FILE\n"⟩

def failed (errors : String) : Outcome := ⟨1, "", errors⟩

end Outcome

/-- What is left to do: nothing but to finish, or to write a file. -/
inductive Action where
  | finish (outcome : Outcome)
  | write (path text : String)

namespace Options

/-- The artifact that the options ask for. -/
def artifactText (options : Options) (source : Source) : Except Diagnostic String := do
  let stream ← TokenStream.ofSource source
  match options.artifact with
  | .tokens => return String.join (stream.toList.map fun token ↦ token.placedLabel ++ "\n")
  | .tree => return (← Node.ofTokens stream).outline source
  | .program => return (← source.program options.folded).listing.pretty 0 ++ "\n"
  | .script => source.compile options.folded

/-- A diagnostic as it is reported: its name, the file as it was given, and what it says. -/
def report (options : Options) (source : Source) (diagnostic : Diagnostic) : String :=
  "Error: " ++ diagnostic.cause.name ++ "\n-> " ++ options.file ++ "\n"
    ++ diagnostic.render source ++ "\n"

/-- What is to be done for a source file of the given content. -/
def respond (options : Options) (content : Except FileFailure ByteArray) : Action :=
  match content with
  | .error failure => .finish (.failed failure.report)
  | .ok bytes =>
    match String.fromUTF8? bytes with
    | none => .finish (.failed FileFailure.notText.report)
    | some text =>
      let source := Source.ofText options.file text
      match options.artifactText source with
      | .error diagnostic => .finish (.failed (options.report source diagnostic))
      | .ok artifact =>
        match options.output? with
        | none => .finish ⟨0, artifact, ""⟩
        | some path => .write path artifact

end Options

end Presage.CommandLine
