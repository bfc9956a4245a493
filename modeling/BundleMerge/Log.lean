import BundleMerge.Text.Blank

/-! Where a run's log goes, as one setting names it. -/
namespace BundleMerge

inductive LogFormat where
  | pretty
  | json
  | off
  deriving Repr, DecidableEq

/-- Reads the setting; one that is absent or not recognised means `pretty`. -/
def LogFormat.ofSetting (setting : Option String) : LogFormat :=
  match setting.map fun s => String.ofList (Text.trimmed s.toList) with
  | some "json" => .json
  | some "off" | some "0" | some "false" => .off
  | _ => .pretty

end BundleMerge
