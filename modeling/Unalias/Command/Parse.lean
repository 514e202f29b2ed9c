import Unalias.Command.Flag

/-! # Reading the command line

Arguments are read from the left. `--name=value` and `--name value` set a long flag, and a
switch given as `--name` alone is turned on. `-x` starts a group of shorthands: switches in the
group are turned on one by one, and the first flag that takes a value takes the rest of the
group, the text after `-x=`, or the next argument. `--` ends the flags, and every other argument
is kept in order as a plain argument. The first flag that cannot be read stops the reading with
its error.

After reading, help wins over everything else; then plain arguments are refused, since the
command takes none; then flags that exclude each other are checked, group by group in the order
of their names.
-/

namespace Unalias.Command

namespace Invocation

/-- The flag groups of which at most one flag may be set. -/
def exclusiveGroups : List (List Flag) :=
  [[.verbose, .quiet], [.debug, .quiet], [.revert, .apply], [.revert, .dryRun], [.apply, .dryRun]]

/-- A group's name: its flags' names, space-separated. -/
def groupName (g : List Flag) : String := " ".intercalate (g.map Flag.name)

/-- The reason the flags set break a group, for the first broken group in the order of the
    groups' names; none when no group is broken. -/
def groupConflict (inv : Invocation) : Option String :=
  let groups := exclusiveGroups.mergeSort fun a b => groupName a ≤ groupName b
  groups.findSome? fun g =>
    let set := (g.filter inv.changed.contains).map Flag.name
    if set.length < 2 then none
    else
      let names := " ".intercalate (set.mergeSort fun a b => a ≤ b)
      let group := groupName g
      some s!"if any flags in the group [{group}] are set none of the others can be; [{names}] were all set"

/-- Reads a long flag `arg` (with its leading `--`) among `flags`, with `rest` the arguments
    after it; gives the invocation and the arguments left. -/
def readLong (flags : List Flag) (inv : Invocation) (arg : Bytes) (rest : List Bytes) :
    Except Bytes (Invocation × List Bytes) :=
  let body := arg.drop 2
  match body with
  | [] | 45 :: _ | 61 :: _ => .error (Bytes.ofString "bad flag syntax: " ++ arg)
  | _ =>
    let key := body.takeWhile (· != 61)
    match Flag.ofName? flags key with
    | none => .error (Bytes.ofString "unknown flag: --" ++ key)
    | some f =>
      if key.length < body.length then
        (inv.set f (body.drop (key.length + 1))).map (·, rest)
      else if f.kind == .switch then (inv.set f (Bytes.ofString "true")).map (·, rest)
      else
        match rest with
        | v :: rest' => (inv.set f v).map (·, rest')
        | [] => .error (Bytes.ofString "flag needs an argument: " ++ arg)

/-- Reads a group of shorthands (after its leading `-`) among `flags`, with `rest` the arguments
    after the group; gives the invocation and the arguments left. -/
def readShorts (flags : List Flag) (inv : Invocation) (rest : List Bytes) :
    Bytes → Except Bytes (Invocation × List Bytes)
  | [] => .ok (inv, rest)
  | c :: more =>
    let group := c :: more
    if (Bytes.ofString "test.").isPrefixOf group then .ok (inv, rest)
    else
      match Flag.ofShort? flags c with
      | none =>
        .error (Bytes.ofString "unknown shorthand flag: " ++ Text.quoteChar c.toNat ++
          Bytes.ofString " in -" ++ group)
      | some f =>
        match more with
        | 61 :: v :: vs => (inv.set f (v :: vs)).map (·, rest)
        | _ =>
          if f.kind == .switch then do
            let inv ← inv.set f (Bytes.ofString "true")
            readShorts flags inv rest more
          else if !more.isEmpty then (inv.set f more).map (·, rest)
          else
            match rest with
            | v :: rest' => (inv.set f v).map (·, rest')
            | [] =>
              .error (Bytes.ofString "flag needs an argument: " ++ Text.quoteChar c.toNat ++
                Bytes.ofString " in -" ++ group)

/-- Reads the arguments with the flags `flags`; `fuel` bounds the steps, and one more than the
    number of arguments is enough, since every step takes at least one. -/
def readArgs (flags : List Flag) : Nat → Invocation → List Bytes → Except Bytes Invocation
  | 0, inv, _ => .ok inv
  | _ + 1, inv, [] => .ok inv
  | fuel + 1, inv, arg :: rest =>
    match arg with
    | [45, 45] => .ok { inv with positional := inv.positional ++ rest }
    | 45 :: 45 :: _ => do
      let (inv, rest) ← readLong flags inv arg rest
      readArgs flags fuel inv rest
    | 45 :: c :: more => do
      let (inv, rest) ← readShorts flags inv rest (c :: more)
      readArgs flags fuel inv rest
    | _ => readArgs flags fuel { inv with positional := inv.positional ++ [arg] } rest

/-- The invocation the arguments ask for with the flags `flags`, or the error of the first flag
    that cannot be read. -/
def ofArgsWith (flags : List Flag) (args : List Bytes) : Except Bytes Invocation :=
  readArgs flags (args.length + 1) {} args

/-- The invocation the arguments ask for of the main command, or the error of the first flag
    that cannot be read. -/
def ofArgs (args : List Bytes) : Except Bytes Invocation := ofArgsWith Flag.all args

end Invocation

end Unalias.Command
