import Avroc.Schema.Basic

/-!
# Reachable types

The named types that a type mentions, directly or through the definitions it mentions.

Every definition that is entered is new, so entering nests at most as deep as the catalog is
large.
-/

namespace Avroc

namespace Schema

mutual

/-- Adds the types met in a type, with named types entered by `enter`. -/
def reachWith (enter : TypeId → List TypeId → List TypeId) :
    Schema → List TypeId → List TypeId
  | primitive .., seen => seen
  | array items _, seen => reachWith enter items seen
  | map values _, seen => reachWith enter values seen
  | union branches, seen => reachBranches enter branches seen
  | named id, seen => enter id seen
termination_by structural s => s

/-- Adds the types met in the branches of a union. -/
def reachBranches (enter : TypeId → List TypeId → List TypeId) :
    List Schema → List TypeId → List TypeId
  | [], seen => seen
  | branch :: rest, seen => reachBranches enter rest (reachWith enter branch seen)
termination_by structural branches => branches

end

end Schema

namespace Catalog

/-- Adds a named type, unless it is there, and then the types met in its fields; definitions are
nested at most `depth` deep. -/
def enter (c : Catalog) : Nat → TypeId → List TypeId → List TypeId
  | depth, id, seen =>
    if seen.contains id then seen
    else match depth with
      | 0 => seen ++ [id]
      | depth + 1 =>
        (c.definition id).body.fields.foldl
          (fun seen field => field.type.reachWith (c.enter depth) seen) (seen ++ [id])

end Catalog

/-- The named types that a type reaches. -/
def Schema.reachable (c : Catalog) (s : Schema) : List TypeId :=
  s.reachWith (c.enter c.size) []

end Avroc
