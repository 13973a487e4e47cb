import Quill.Data.Dict
import Quill.Failure
import Quill.Markup.Reader

/-!
# Worlds

A compile reads nothing by itself: a world holds everything it may read.

## Main definitions

* `Source` — a document with its text and what was read from it.
* `World` — the entry, the sources and the settings of a compile.
* `World.source?` — the source of a document.
-/

namespace Quill

/-- A document with its text and what was read from it. -/
structure Source where
  uri : Uri
  text : Text
  module : Module
  deriving DecidableEq, Repr

/-- The settings that a compile reads: values for uses that no binding explains, and the revision of
the fonts. -/
structure CompileSettings where
  inputs : Dict Text Text
  fontRevision : Text
  deriving DecidableEq, Repr

def CompileSettings.default : CompileSettings := ⟨[], "default"⟩

/-- Everything that a compile may read. -/
structure World where
  entry : Uri
  sources : Dict Uri Source
  settings : CompileSettings
  deriving DecidableEq, Repr

namespace World

/-- The world of a list of sources; of two sources of one document the later one counts. -/
def ofSources (entry : Uri) (sources : List Source) (settings : CompileSettings) : World :=
  ⟨entry, Dict.ofList (sources.map fun s => (s.uri, s)), settings⟩

def source? (w : World) (uri : Uri) : Option Source := Dict.get? w.sources uri

end World

end Quill
