import ValidUsage.Json.Basic
import ValidUsage.Table

/-!
# Records in JSON

A record is an object with the fields of its schema, in any order and with others among them, or an
array of the values of the fields in the order of the schema. A field that is given twice refuses
the record. The values of a record are smaller than the record, so that a schema may be recursive.
-/

namespace ValidUsage.Json

/-- A value inside of another one. -/
abbrev Part (j : Json) := { v : Json // sizeOf v < sizeOf j }

/-- The items of an array as parts of it. -/
def partItems (items : List Json) : List (Part (.arr items)) :=
  items.attach.map fun ⟨v, h⟩ => ⟨v, by
    have := List.sizeOf_lt_of_mem h
    simp
    omega⟩

/-- The fields of an object as parts of it. -/
def partFields (fields : List (String × Json)) : List (String × Part (.obj fields)) :=
  fields.attach.map fun ⟨(k, v), h⟩ => (k, ⟨v, by
    have := List.sizeOf_lt_of_mem h
    simp at this ⊢
    omega⟩)

/-- A field of a schema. -/
structure Field where
  /-- The name of the field. -/
  name : String
  /-- Another name that it goes by. -/
  other : Option String
  /-- Whether the value may be left off the end of an array. -/
  trailing : Bool

/-- A field that an array has to give. -/
def Field.required (name : String) : Field := ⟨name, none, false⟩

/-- A field that an array may leave off. -/
def Field.optional (name : String) : Field := ⟨name, none, true⟩

/-- The value of a field among those of an object: absent, given once, or refused. -/
def Field.find? {α : Type} (f : Field) (entries : List (String × α)) : Option (Option α) :=
  match entries.filter fun e => e.1 == f.name || some e.1 == f.other with
  | [] => some none
  | [e] => some (some e.2)
  | _ => none

/-- The values of the fields of a schema in an array. -/
def positional? {α : Type} : List Field → List α → Option (List (Option α))
  | [], [] => some []
  | [], _ :: _ => none
  | _ :: fs, a :: as => (positional? fs as).map (some a :: ·)
  | f :: fs, [] => if f.trailing then (positional? fs []).map (none :: ·) else none

/-- The values of the fields of a schema, in the order of the schema. -/
def record? (schema : List Field) : (j : Json) → Option (List (Option (Part j)))
  | .obj fields => schema.mapM fun f => f.find? (partFields fields)
  | .arr items => positional? schema (partItems items)
  | _ => none

/-- The items, if the value is an array. -/
def parts? : (j : Json) → Option (List (Part j))
  | .arr items => some (partItems items)
  | _ => none

/-- The value of a field that may be missing, in which case a default stands for it. -/
def orElse {α : Type} {j : Json} (default : α) (value? : Json → Option α) :
    Option (Part j) → Option α
  | none => some default
  | some v => value? v.val

/-- The value of a field that has to be there. -/
def given {α : Type} {j : Json} (value? : Json → Option α) : Option (Part j) → Option α
  | none => none
  | some v => value? v.val

/-- The name of one of several alternatives: a string, or an object that gives it no value. -/
def variant? : Json → Option String
  | .str s => some s
  | .obj [(s, .null)] => some s
  | _ => none

/-- The alternative among `all` that a value names. -/
def oneOf? {α : Type} (all : List α) (word : α → String) (j : Json) : Option α :=
  j.variant?.bind fun w => all.find? fun a => word a == w

/-- The name that a tag gives, and the value that holds the fields: an object in which the tag is
one of the fields, or an array that the tag opens. -/
def tagged? (tag : String) : (j : Json) → Option (String × { v : Json // sizeOf v ≤ sizeOf j })
  | .obj fields =>
    match fields.filter fun e => e.1 == tag with
    | [(_, .str name)] => some (name, ⟨.obj fields, Nat.le_refl _⟩)
    | _ => none
  | .arr (.str name :: items) => some (name, ⟨.arr items, by simp⟩)
  | _ => none

/-- A table: every field of an object is an entry, and of several under one name the last counts. -/
def table? {α : Type} (value? : Json → Option α) : Json → Option (Table α)
  | .obj entries => do
    let es ← entries.mapM fun e => (value? e.2).map fun a => (e.1, a)
    return Table.ofList es
  | _ => none

/-- An object with an entry for every name. -/
def ofTable {α : Type} (f : α → Json) (t : Table α) : Json :=
  .obj (t.entries.map fun e => (e.1, f e.2))

end ValidUsage.Json
