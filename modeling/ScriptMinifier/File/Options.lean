import ScriptMinifier.File.Reader
import ScriptMinifier.Options

namespace ScriptMinifier.Options

open Json

def setAll (settings : List (Feature × Json)) : Option Options :=
  settings.foldlM (fun o (f, v) => (bool? v).map (o.set f)) full

/-- An object from feature names to booleans, or the booleans alone in the order of the features.
What is missing is on. -/
def ofJson? : Json → Option Options
  | .array items =>
    let features : List Feature := Named.all
    if items.length ≤ features.length then setAll (features.zip items) else none
  | .object fields => do
    let features : List Feature := Named.all
    let known ← known (features.map Named.name) fields
    setAll (known.filterMap fun (name, v) => (Named.ofName? name).map (·, v))
  | _ => none

end ScriptMinifier.Options
