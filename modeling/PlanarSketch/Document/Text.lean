import PlanarSketch.Document.Decode

/-!
Reading sketches from text. A value that is read as a whole must be sound throughout; in a record
that is read member by member, the members it does not have need only be well formed.
-/

namespace PlanarSketch

open Json

/-- Forgets what a named parameter does not have. -/
def NamedParam.prune (d : Draft) : Draft := d.keep NamedParam.memberNames

/-- Forgets what a document does not have, and what its named parameters do not have. -/
def Document.prune (d : Draft) : Draft :=
  let pruneAll : Draft → Draft
    | .arr xs => .arr (xs.map NamedParam.prune)
    | d => d
  match d.keep memberNames with
  | .obj ms => .obj (ms.map fun (name, x) => (name, if name = some "params" then pruneAll x else x))
  | .arr (x :: xs) => .arr (pruneAll x :: xs)
  | d => d

def Config.prune (d : Draft) : Draft := d.keep Config.memberNames

def PropertyRef.prune (d : Draft) : Draft := d.keep ["o_id", "param", "prop"]

/-- Reads a text through a draft that is pruned first. -/
def ofText? {β : Type} (prune : Draft → Draft) (read : Json Float → Option β) (text : String) :
    Option β :=
  (Draft.ofText? text).bind fun d => ((prune d).value? depthLimit).bind read

end PlanarSketch
