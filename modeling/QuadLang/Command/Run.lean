/-
The command: arguments and files in, output and files out.

`Command.run` compiles and runs the file that the arguments name.  The extension of
the file decides the dialect; the object text is written beside it.
-/
import QuadLang.Command.Arguments
import QuadLang.Session

namespace QuadLang

/-- The name of a file, with its folders, and its extension: the part from the last
dot on, unless only dots come before it. -/
def splitExtension (path : String) : String × String :=
  let cs := path.toList
  let base := (cs.reverse.takeWhile (· != '/')).reverse
  let tail := (base.reverse.takeWhile (· != '.')).reverse
  let stem := base.take (base.length - tail.length - 1)
  if base.contains '.' && stem.any (· != '.') then
    let cut := cs.length - tail.length - 1
    (String.ofList (cs.take cut), String.ofList (cs.drop cut))
  else (path, "")

/-- The extension of sources in the second dialect. -/
def gooseExtension : String := ".honk"

def objectExtension : String := ".o"

/-- A path without the parts that lead nowhere. -/
def plainPath (path : String) : String :=
  let parts := (Text.splitBy '/' path).filter fun p => p != "" && p != "."
  (if path.startsWith "/" then "/" else "") ++ Text.join "/" parts

inductive CommandFault where
  | exit (code : Nat)
  | noFile (path : String)
  | folder (path : String)
  | session (fault : SessionFault)
deriving Repr

def CommandFault.message : CommandFault → String
  | .exit code => toString code
  | .noFile path => path ++ " does not exist!"
  | .folder path => "[Errno 21] Is a directory: " ++ Text.quote path
  | .session f => f.message

def CommandFault.kind : CommandFault → FaultKind
  | .exit _ => .exit
  | .noFile _ => .general
  | .folder _ => .folder
  | .session f => f.kind

structure CommandResult where
  output : String
  complaints : String
  fault : Option CommandFault
  /-- The file that was written, with its text. -/
  object : Option (String × String)

namespace Command

def session (o : Options) (source input : String) : Session :=
  let (name, extension) := splitExtension o.file
  { dialect := if extension == gooseExtension then .goose else .plain
    source := Text.newlines source, input
    listTokens := o.tokens, debugCompiler := o.parser, debugMachine := o.machine
    compileOnly := false, objectName := name }

/-- Run the command.  `read` gives the text of a file. -/
def run (read : String → Option String) (args : List String) (input : String) : CommandResult :=
  match Invocation.ofArguments args with
  | .help => ⟨helpText, "", some (.exit 0), none⟩
  | .wrong f => ⟨"", complaint f, some (.exit 2), none⟩
  | .run o =>
    if o.file == "." || o.file == ".." || o.file == "/" then ⟨"", "", some (.folder o.file), none⟩
    else match read (plainPath o.file) with
      | none => ⟨"", "", some (.noFile o.file), none⟩
      | some source =>
        let s := session o source input
        let outcome := s.run
        { output := printedText outcome.printed, complaints := ""
          fault := outcome.fault.map .session
          object := (outcome.compiler.bind (·.object)).map fun text =>
            (plainPath (s.objectName ++ objectExtension), text) }

end Command

end QuadLang
