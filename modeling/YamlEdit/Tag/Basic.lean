import YamlEdit.Text.Basic

/-!
# Tags

The types that a node can have: the fourteen of the YAML 1.1 repository, which some rule of this
library knows, and every other one by its name.
-/

namespace YamlEdit

/-- The tag of a node. -/
inductive Tag where
  | null
  | bool
  | str
  | int
  | float
  | timestamp
  | map
  | seq
  | merge
  | value
  | binary
  | set
  | omap
  | pairs
  | other (name : Text)
deriving DecidableEq, Repr, Inhabited

namespace Tag

/-- The tags of the repository, each with its word in it. -/
def repository : List (Tag × String) :=
  [(null, "null"), (bool, "bool"), (str, "str"), (int, "int"), (float, "float"),
   (timestamp, "timestamp"), (map, "map"), (seq, "seq"), (merge, "merge"), (value, "value"),
   (binary, "binary"), (set, "set"), (omap, "omap"), (pairs, "pairs")]

/-- What the full names of the repository's tags start with. -/
def repositoryName : Text :=
  "tag:yaml.org,2002:".toList

/-- The full name of a tag. -/
def name : Tag → Text
  | other name => name
  | tag =>
    match repository.find? fun e => e.1 = tag with
    | some e => repositoryName ++ e.2.toList
    | none => []

/-- The tag with a full name. -/
def ofName (name : Text) : Tag :=
  match repository.find? fun e => repositoryName ++ e.2.toList = name with
  | some e => e.1
  | none => other name

/-- The tags of scalar values. -/
def isScalar : Tag → Bool
  | null | bool | str | int | float | timestamp => true
  | _ => false

end Tag

end YamlEdit
