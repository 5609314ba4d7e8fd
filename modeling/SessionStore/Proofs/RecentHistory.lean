import Mathlib.Data.List.DropRight
import SessionStore.Proofs.Collection.Ties
import SessionStore.Proofs.Merging
import SessionStore.Proofs.Written

/-! Which lines of a history a first save writes where there is not room for all of them. -/
namespace SessionStore

open Merge (entriesOf)
open Recency

namespace Recency

variable {α : Type} {item : Timed α} {items : List (Timed α)}

end Recency

namespace HistoryRing

variable {ring : HistoryRing} {preferIncoming : Bool}

end HistoryRing

namespace Session

variable {settings : Settings} (occasion : Occasion) (session : Session)

end Session

end SessionStore
