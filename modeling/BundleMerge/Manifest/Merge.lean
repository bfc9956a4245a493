import BundleMerge.Json.Value

/-! Merging two app manifests field by field. Of two lists, the target's items come first; of two
objects, the fields are taken together one level deep and the source's win; of two scalars, the
source's wins unless it is null. Pages are listed once each, and sub-packages once for each root,
under one spelling of their key. The first occurrence always stays. -/
namespace BundleMerge.Manifest

open Json (Fields)

def pagesKey : String := "pages"
def packagesKey : String := "subPackages"
/-- The older spelling of `packagesKey`; it is read but never written. -/
def oldPackagesKey : String := "subpackages"
def rootKey : String := "root"

/-- The items that no earlier kept item is the same as. -/
def firsts (same : Json → Json → Bool) (items : List Json) : List Json :=
  items.foldl (fun kept item => if kept.any (same · item) then kept else kept ++ [item]) []

/-- Puts fields into an object, each where its key stands or else at the end. -/
def overlay (fields more : Fields) : Fields :=
  more.foldl (fun fields field => fields.insert field.1 field.2) fields

def mergeField (value : Json) (incoming : Option Json) : Json :=
  match value with
  | .array items =>
    match incoming with
    | some (.array more) => .array (items ++ more)
    | _ => .array items
  | .object fields =>
    match incoming with
    | some (.object more) => .object (overlay fields more)
    | _ => .object fields
  | scalar =>
    match incoming with
    | none | some .null => scalar
    | some v => v

/-- The target's keys with their merged values, then the keys that only the source has. -/
def mergeFields (target source : Fields) : Fields :=
  target.map (fun field => (field.1, mergeField field.2 (source.get? field.1))) ++
    source.filter (!target.contains ·.1)

def dedupPages (fields : Fields) : Fields :=
  match fields.get? pagesKey with
  | some (.array pages) => fields.insert pagesKey (.array (firsts Json.sameAs pages))
  | _ => fields

/-- The items at a key; a value that is no list has none. -/
def itemsAt (fields : Fields) (key : String) : List Json :=
  match fields.get? key with
  | some (.array items) => items
  | _ => []

/-- Two packages with equal roots, or both without one. -/
def sameRoot (a b : Json) : Bool :=
  match a.get? rootKey, b.get? rootKey with
  | some r, some s => r.sameAs s
  | none, none => true
  | _, _ => false

def gatherPackages (fields : Fields) : Fields :=
  let packages := itemsAt fields packagesKey ++ itemsAt fields oldPackagesKey
  (fields.erase oldPackagesKey).insert packagesKey (.array (firsts sameRoot packages))

def merge (target source : Fields) : Fields :=
  gatherPackages (dedupPages (mergeFields target source))

end BundleMerge.Manifest
