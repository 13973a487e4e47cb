import Quill.Engine.Operations
import Quill.Record.State

/-!
# Engines as data

## Main definitions

* `Engine.statistics` — what is known of an engine.
-/

namespace Quill

open Record

def Engine.statistics (e : Engine) : List (String × Value) :=
  let s := e.stats
  [("engine", str s.compiler), ("documents", .nat s.documents),
    ("leasedSnapshots", .nat s.leasedSnapshots), ("main", orNull str s.main),
    ("focus", orNull str s.focus), ("cache", e.cache.record),
    ("scheduler", e.scheduler.statistics)]

end Quill
