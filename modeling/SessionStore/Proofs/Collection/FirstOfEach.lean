import SessionStore.Proofs.Collection.Held

/-! Values that are put under keys which have none yet: the first one of each key stays. -/
namespace SessionStore

variable {κ υ α : Type} [BEq κ]

variable [EquivBEq κ]

namespace Dictionary

end Dictionary

end SessionStore
