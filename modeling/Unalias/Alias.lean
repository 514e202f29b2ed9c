import Unalias.Path

/-! # Alias tables

A project declares aliases as patterns with candidate locations, `"@/*": ["src/*"]`. The alias
table keeps, in declaration order, each pattern without its trailing wildcard as a plain text
stem, with its candidates as cleaned absolute directories. A specifier belongs to the first
entry whose stem it starts with: stems are compared as text, not by path pieces, so `@app`
also takes `@application/x`.
-/

namespace Unalias

/-- One declared alias: a pattern and the locations it may stand for; a declared `null` list of
    locations is kept apart from an empty one. -/
structure PathMapping where
  /-- The alias pattern, such as `@/*`. -/
  pattern : String
  /-- The locations, such as `src/*`, relative to the base directory unless absolute. -/
  candidates : Option (List String)
  deriving DecidableEq, Repr

/-- One entry of an alias table: a stem and the directories it may stand for, in order. -/
structure AliasEntry where
  /-- The text a specifier starts with to use this entry. -/
  stem : Bytes
  /-- The directories tried in turn. -/
  candidates : List Path
  deriving DecidableEq, Repr

/-- Alias entries in priority order. -/
abbrev AliasTable := List AliasEntry

/-- The bytes without one trailing `*`. -/
def dropStar (s : Bytes) : Bytes :=
  if s.getLast? = some 42 then s.dropLast else s

namespace AliasTable

/-- A candidate location as a cleaned directory: without its trailing `*`, and against the base
    directory unless absolute. -/
def candidateDir (baseDir : Path) (c : String) : Path :=
  let c := dropStar (Bytes.ofString c)
  Path.clean (if Path.IsAbs c then c else Path.join baseDir c)

/-- The table of the declared aliases: each pattern without its trailing `*`, dropped when that
    leaves nothing, with its candidate directories. -/
def build (mappings : List PathMapping) (baseDir : Path) : AliasTable :=
  mappings.filterMap fun m =>
    let stem := dropStar (Bytes.ofString m.pattern)
    if stem = [] then none
    else some ⟨stem, (m.candidates.getD []).map (candidateDir baseDir)⟩

/-- The first entry whose stem starts the specifier. -/
def match? (table : AliasTable) (specifier : Bytes) : Option AliasEntry :=
  table.find? fun e => e.stem.isPrefixOf specifier

end AliasTable

end Unalias
