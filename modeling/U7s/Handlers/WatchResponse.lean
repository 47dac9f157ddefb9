import U7s.Handlers.FilteredWatch
import U7s.Store.Bookmarks

/-! The lines of a watch response. The handler drops an event whose conversion fails and still forwards the bookmark
behind it. -/

namespace U7s

open List

def Store.WatchEvent.map (f : β → γ) : Store.WatchEvent β → Store.WatchEvent γ
  | .added key r value => .added key r (f value)
  | .modified key r value => .modified key r (f value)
  | .deleted key r body => .deleted key r (body.map f)
  | .bookmark r => .bookmark r
  | .compacted requested horizon => .compacted requested horizon

namespace Handlers

open Store (WatchEvent InternalEvent Sys Act Marks internalToWatch)
open Runs (run Along)
open Text (startsWith)

namespace WatchConfig

variable (cfg : WatchConfig) (allowWatchBookmarks : Bool)

/-- The conversion succeeds, and the projection passes over no object that the selectors take. -/
def Reads : WatchEvent Json → Prop
  | .added _ _ value | .modified _ _ value => cfg.convertWatchedCrObject value ≠ none ∧
      (cfg.projectionNonMatch value ≠ none → cfg.matchesStored value = false)
  | .deleted _ _ body => ∀ b ∈ body, cfg.convertWatchedCrObject b ≠ none
  | _ => True

end WatchConfig

section Response

variable {cfg : WatchConfig} {bookmarks : Bool} {st : WatchState}

end Response

variable {β : Type}

end Handlers

end U7s
