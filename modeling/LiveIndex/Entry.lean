import LiveIndex.Failure

namespace LiveIndex

/-- What stands at a path. Links are kept apart from what they lead to. -/
inductive Kind
  | file
  | directory
  | link
  deriving DecidableEq, Repr

namespace Kind

def word : Kind → String
  | file => "file"
  | directory => "directory"
  | link => "symbolic-link"

def ofWord? : String → Option Kind
  | "file" => some file
  | "directory" => some directory
  | "symbolic-link" => some link
  | _ => none

end Kind

/-- One indexed file, directory or link. -/
structure Entry where
  path : String
  name : String
  relativePath : String
  extension : String
  size : Int
  created : Time.Stamp
  modified : Time.Stamp
  kind : Kind
  deriving DecidableEq, Repr

namespace Entry

def isDirectory (e : Entry) : Bool :=
  e.kind = .directory

/-- Whether two entries say the same; times are compared as times, not by their spelling. -/
def same (a b : Entry) : Bool :=
  a.path = b.path && a.name = b.name && a.relativePath = b.relativePath &&
    a.extension = b.extension && a.size = b.size && a.created.same b.created &&
    a.modified.same b.modified && a.kind = b.kind

def toJson (e : Entry) : Json :=
  .obj
    [ ("path", .str e.path), ("name", .str e.name), ("relativePath", .str e.relativePath),
      ("extension", .str e.extension), ("size", .int e.size),
      ("createdAt", .str e.created.text), ("modifiedAt", .str e.modified.text),
      ("kind", .str e.kind.word) ]

/-- The value of a field that has to be there. -/
def required (name : String) (fields : List (String × Json)) : Except Failure Json :=
  match Json.field? name fields with
  | some v => .ok v
  | none => .error (.missingField name)

/-- Reads an entry. The kind is looked at first; a missing extension is empty, a missing size
zero, a missing kind a file. -/
def ofJson : Json → Except Failure Entry
  | .obj fields => do
    let shown := (Json.field? "kind" fields).getD (.str "file")
    let kind ←
      match shown with
      | .str word =>
        match Kind.ofWord? word with
        | some kind => pure kind
        | none => throw (.unknownKind shown.display)
      | _ => throw (.unknownKind shown.display)
    let path ← required "path" fields
    let name ← required "name" fields
    let relativePath ← required "relativePath" fields
    let extension := (Json.field? "extension" fields).getD (.str "")
    let size ← ((Json.field? "size" fields).getD (.int 0)).toInteger
    let created ← required "createdAt" fields >>= Json.toStamp
    let modified ← required "modifiedAt" fields >>= Json.toStamp
    return {
      path := path.asText
      name := name.asText
      relativePath := relativePath.asText
      extension := extension.asText
      size, created, modified, kind }
  | v => .error (.noFields v.kindWord)

/-- Whether an indexed entry no longer fits what is on disk: its kind, its size or the time of
its last change differ. -/
def isOutdated (indexed current : Entry) : Bool :=
  indexed.kind ≠ current.kind || indexed.size ≠ current.size ||
    !indexed.modified.same current.modified

end Entry

end LiveIndex
