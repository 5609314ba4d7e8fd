import SessionStore.Proofs.Written

/-! Files that are not to be kept, and how one of them can still be written. -/
namespace SessionStore.Session

end SessionStore.Session
