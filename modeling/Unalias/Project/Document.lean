import Unalias.Alias
import Unalias.Json.Parse
import Unalias.Text.Quoted

/-! # What a project file declares

A project file is a JSON object; of it the tool reads `extends` (one reference or a list of
them) and, under `compilerOptions`, `baseUrl`, `outDir` and `paths`. Names are matched exactly,
and other members are ignored.

A name may be repeated, and each occurrence is read in turn over what came before: a repeated
`compilerOptions` object adds its members to the earlier one, while `null` clears it; a
repeated string or `extends` replaces the earlier value. Within `paths`, a repeated pattern keeps
its first place and takes its last list. A `null` string reads as the empty string, and a
`null` document as an empty one.

Reading a member's list of candidates into strings is the JSON library's work, so `readPaths`
takes it as a parameter (`StringsDecoder`); the program passes `readStrings`.
-/

namespace Unalias

/-- The compiler options the tool reads. -/
structure CompilerOptions where
  /-- The directory aliases are relative to, as written. -/
  baseUrl : String := ""
  /-- The output directory, as written. -/
  outDir : String := ""
  /-- The declared aliases; none when not declared or `null`. -/
  paths : Option (List PathMapping) := none
  deriving DecidableEq, Repr

/-- What a project file declares. -/
structure ProjectDocument where
  /-- The references to the project files it builds on, in order. -/
  parents : List String := []
  /-- Its compiler options, when declared and not `null`. -/
  options : Option CompilerOptions := none
  deriving DecidableEq, Repr

namespace ProjectDocument

/-- A string member: `null` reads as empty. -/
def readString : JsonValue → Except String String
  | .string s => .ok s
  | .null => .ok ""
  | _ => .error "expected a string"

/-- How the JSON library reads a value into a list of strings: the strings, or none for
    `null`. -/
abbrev StringsDecoder := JsonValue → Except String (Option (List String))

/-- A list of strings; `null` reads as none. -/
def readStrings : StringsDecoder
  | .null => .ok none
  | .array items => (items.mapM readString).map some
  | _ => .error "expected an array of strings"

/-- The mappings with one more taken in: a pattern seen before keeps its place and takes the
    new list. -/
def addMapping (ms : List PathMapping) (m : PathMapping) : List PathMapping :=
  if ms.any (·.pattern == m.pattern) then
    ms.map fun old => if old.pattern == m.pattern then m else old
  else ms ++ [m]

/-- The `paths` member, each pattern's candidates read by `dec`; `null` reads as none. A
    failure to read the candidates is prefixed with the pattern, quoted. -/
def readPaths (dec : StringsDecoder) : JsonValue → Except String (Option (List PathMapping))
  | .null => .ok none
  | .object members =>
    members.foldlM (fun ms (pattern, v) => do
      let cs ← (dec v).mapError fun e =>
        "compilerOptions.paths[" ++ Bytes.decode (Text.quote (Bytes.ofString pattern)) ++ "]: " ++ e
      pure (addMapping ms ⟨pattern, cs⟩)) [] |>.map some
  | v => .error ("compilerOptions.paths must be an object, got " ++ v.kindText)

/-- Compiler options with the members of an object read over them. -/
def readOptions (co : CompilerOptions) (members : List (String × JsonValue)) :
    Except String CompilerOptions :=
  members.foldlM (fun co (name, v) =>
    match name with
    | "baseUrl" => return { co with baseUrl := ← readString v }
    | "outDir" => return { co with outDir := ← readString v }
    | "paths" => return { co with paths := ← readPaths readStrings v }
    | _ => pure co) co

/-- The `extends` member: `null`, one reference, or a list of them. -/
def readParents : JsonValue → Except String (List String)
  | .null => .ok []
  | .string s => .ok [s]
  | .array items => items.mapM readString
  | _ => .error "extends must be a string or an array of strings"

/-- The declarations of a project file's JSON value. -/
def ofJson : JsonValue → Except String ProjectDocument
  | .null => .ok {}
  | .object members =>
    members.foldlM (fun doc (name, v) =>
      match name with
      | "extends" => return { doc with parents := ← readParents v }
      | "compilerOptions" =>
        match v with
        | .null => pure { doc with options := none }
        | .object ms => return { doc with options := some (← readOptions (doc.options.getD {}) ms) }
        | _ => .error "compilerOptions must be an object"
      | _ => pure doc) {}
  | _ => .error "a project file must hold an object"

end ProjectDocument

end Unalias
