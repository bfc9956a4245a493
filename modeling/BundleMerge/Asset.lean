import BundleMerge.Path

/-! The roles that the assets of a mini program play in it. -/
namespace BundleMerge

inductive AssetRole where
  | script
  | markup
  | manifest
  | style
  | misc
  deriving Repr, DecidableEq

namespace AssetRole

def all : List AssetRole := [script, markup, manifest, style, misc]

def label : AssetRole → String
  | script => "script"
  | markup => "markup"
  | manifest => "manifest"
  | style => "style"
  | misc => "misc"

def ofLabel? (s : String) : Option AssetRole :=
  all.find? (·.label = s)

/-- Reads a label, or the file extension that stands for it. -/
def ofWord? (s : String) : Option AssetRole :=
  match s with
  | "js" => some script
  | "wxml" => some markup
  | "json" => some manifest
  | "wxss" => some style
  | "wxs" => some misc
  | s => ofLabel? s

def unknownMessage (s : String) : String :=
  "unknown file type '" ++ s ++ "' (expected script, markup, manifest, style or misc)"

def ofPath (p : Path) : AssetRole :=
  match p.extension? with
  | some "js" => script
  | some "wxml" => markup
  | some "json" => manifest
  | some "wxss" => style
  | _ => misc

/-- Scripts are reported where they are built, everything else where it is written. -/
def reportedAtSource : AssetRole → Bool
  | script => false
  | _ => true

theorem ofLabel?_label (r : AssetRole) : ofLabel? r.label = some r := by
  cases r <;> rfl

end AssetRole

/-- One change that the build tool reports. -/
structure Notification where
  file : Path
  role : AssetRole
  deriving Repr, DecidableEq

end BundleMerge
