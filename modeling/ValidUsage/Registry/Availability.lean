import ValidUsage.Registry.Config
import ValidUsage.Registry.Depends
import ValidUsage.Text.Blank
import ValidUsage.Text.Search

/-!
# Availability

A symbol is introduced under labels: names of versions and extensions joined by `+`. It exists in a
build when all names of one of its labels are included. The availability of the features, structures
and enumeration values of a registry follows from the blocks that list them.
-/

namespace ValidUsage

/-- Where features, structures and enumeration values are introduced: a set of labels each. -/
structure Availability where
  /-- The labels of the structures that hold each feature. -/
  features : Table (List String)
  /-- The labels of each structure. -/
  structs : Table (List String)
  /-- The labels of each enumeration value. -/
  enumValues : Table (List String)
  deriving DecidableEq, Repr

namespace Availability

/-- The labels under which a block of an interface introduces its symbols. -/
def blockLabels (interface : String) (depends : Option String) : List String :=
  match depends with
  | none => [interface]
  | some d =>
    if (Text.trim d.toList).isEmpty then [interface]
    else (Depends.ofText d.toList).map fun names => "+".intercalate (interface :: names)

/-- The table with labels added to those of a name. -/
def addLabels (t : Table (List String)) (name : String) (labels : List String) :
    Table (List String) :=
  t.insert name (NameSet.insertAll ((t.get? name).getD []) labels)

/-- Every name of a list with the labels under which its block introduces it. -/
def introduced (r : Registry) (names : RequireBlock → List String) : List (String × List String) :=
  r.interfaces.flatMap fun i => i.require.flatMap fun b =>
    (names b).map fun name => (name, blockLabels i.name b.depends)

/-- A table of the labels that names are introduced under. -/
def collect (entries : List (String × List String)) : Table (List String) :=
  entries.foldl (fun t e => addLabels t e.1 e.2) .empty

/-- The availability of the symbols of a registry. -/
def ofRegistry (r : Registry) : Availability :=
  let isStruct (name : String) : Bool := (r.lookup? name).any (·.category == .struct)
  let structs := collect ((introduced r (·.types)).filter fun e => isStruct e.1)
  let features := r.featureStructs.flatMap fun e =>
    match structs.get? e.name with
    | none => []
    | some labels => (e.members.filter Member.isSwitch).map fun m => (m.name, labels)
  { features := collect features
    structs
    enumValues := collect (introduced r (·.enums)) }

/-- Whether all names of a label are included in a build. -/
def labelEnabled (c : BuildConfig) (label : String) : Bool :=
  (Text.splitOn '+' label.toList).all fun name => c.isEnabled (String.ofList name)

/-- Whether one of several labels is included in a build. -/
def defined (c : BuildConfig) (labels : List String) : Bool := labels.any (labelEnabled c)

/-- Whether a feature exists in a build. One that nothing introduces does not. -/
def featureDefined (a : Availability) (c : BuildConfig) (name : String) : Bool :=
  match a.features.get? name with
  | some labels => defined c labels
  | none => false

/-- Whether a structure exists in a build. One that nothing introduces always does. -/
def structDefined (a : Availability) (c : BuildConfig) (name : String) : Bool :=
  match a.structs.get? name with
  | some labels => defined c labels
  | none => true

/-- Whether an enumeration value exists in a build. One that nothing introduces always does. -/
def enumValueDefined (a : Availability) (c : BuildConfig) (name : String) : Bool :=
  match a.enumValues.get? name with
  | some labels => defined c labels
  | none => true

/-- Whether a name is that of an enumeration value that something introduces. -/
def isEnumValue (a : Availability) (name : String) : Bool := a.enumValues.contains name

end Availability
end ValidUsage
