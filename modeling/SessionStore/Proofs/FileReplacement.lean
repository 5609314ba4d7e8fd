import SessionStore.Disk.Transaction
import SessionStore.Proofs.Damage
import SessionStore.Proofs.Disks
import SessionStore.Proofs.FailingStreams
import SessionStore.Proofs.LimitedSinks

/-! Replacing a file as a whole: it holds the merge afterwards, or the disk is as it was. -/
namespace SessionStore

namespace Session

variable {settings : Settings} {occasion : Occasion} {session : Session} {file file' : Stream}
  {sink sink' : Sink}

/-- Only what is read of the previous file counts. -/
theorem save_of_read_eq (h : file.read = file'.read) :
    session.save settings occasion (some file) sink =
      session.save settings occasion (some file') sink := by
  unfold save merge Merge.absorbStream
  simp only [h]

theorem isReadable_of_save {report : SaveReport}
    (h : session.save settings occasion (some file) sink = (sink', .ok report)) :
    file.IsReadable := by
  intro attempt herror
  unfold save merge Merge.absorbStream at h
  simp only [herror] at h
  cases h

end Session

namespace Disk

variable {settings : Settings} {occasion : Occasion} {session : Session} {disk after : Disk}
  {faults : Faults} {path : Path} {mode : Nat}

/-- Afterwards the disk is as it was, or a new file that cannot be removed is left on it. -/
def Faults.Leaves (faults : Faults) (disk after : Disk) : Prop :=
  after = disk ∨ ∃ temporary location left, faults.leftover temporary = some left ∧
    disk.node? location = none ∧ after = disk.put location left

theorem leaves_discard {location : Location} (h : disk.node? location = none) (faults : Faults)
    (temporary : Path) (made : Node) :
    faults.Leaves disk ((disk.put location made).discard faults temporary location) := by
  unfold discard
  cases hleft : faults.leftover temporary with
  | none => exact .inl (remove_put h made)
  | some left => exact .inr ⟨temporary, location, left, hleft, h, put_put ..⟩

/-- If no file is made, there is none but one that cannot be removed. -/
theorem createFirst_eq_error {candidates : List Path} {e : Error}
    (h : disk.createFirst faults mode path candidates = (after, .error e)) :
    faults.Leaves disk after := by
  induction candidates with
  | nil => exact .inl (Prod.mk.inj h).1.symm
  | cons candidate rest ih =>
    unfold createFirst at h
    split at h
    · next location made hmade =>
      obtain ⟨hnone, rfl⟩ := createNew_eq_ok hmade
      split at h
      · exact .inl (Prod.mk.inj h).1.symm
      · split at h
        · rw [← (Prod.mk.inj h).1]
          exact leaves_discard hnone faults candidate _
        · cases h
    · exact ih h
    · exact .inl (Prod.mk.inj h).1.symm

theorem createFirst_eq_ok {candidates : List Path} {temporary : Path} {location : Location}
    (h : disk.createFirst faults mode path candidates = (after, .ok (temporary, location))) :
    disk.node? location = none ∧ after = disk.put location (.file mode []) := by
  induction candidates with
  | nil => cases h
  | cons candidate rest ih =>
    unfold createFirst at h
    split at h
    · next location' made hmade =>
      obtain ⟨hnone, rfl⟩ := createNew_eq_ok hmade
      split at h
      · cases h
      · split at h
        · cases h
        · obtain ⟨rfl, hok⟩ := Prod.mk.inj h
          obtain ⟨-, rfl⟩ := Prod.mk.inj (Except.ok.inj hok)
          exact ⟨hnone, rfl⟩
    · exact ih h
    · cases h

theorem createFirst_of_find {candidates : List Path}
    (h : ∀ candidate ∈ candidates, ∃ found, disk.find candidate = .ok found) :
    disk.createFirst faults mode path candidates = (disk, .error (.noFreeName path)) := by
  induction candidates with
  | nil => rfl
  | cons candidate rest ih =>
    obtain ⟨⟨⟨location, node⟩, hfind⟩, hrest⟩ := List.forall_mem_cons.mp h
    unfold createFirst
    rw [createNew_of_find hfind]
    exact ih hrest

theorem Faults.contents_directory (faults : Faults) : faults.contents .directory = ⟨[], true⟩ := by
  unfold contents
  split
  · rfl
  · exact congrArg (Stream.mk · true) List.take_nil

/-- A new file is filled only over a file, and with what a save over all of it
writes, even if a fault came while it was read. -/
theorem Faults.fill_eq_ok {previous : Node} {temporary : Path} {bytes : Bytes} {report : SaveReport}
    (h : faults.fill settings occasion session previous temporary = .ok (bytes, report)) :
    ∃ mode old, previous = .file mode old ∧
      session.save settings occasion (some { bytes := old }) {} = ({ bytes }, .ok report) := by
  unfold fill at h
  split at h
  · cases h
  next sink report' hsave =>
  split at h
  · cases h
  obtain ⟨rfl, rfl⟩ := Prod.mk.inj (Except.ok.inj h)
  have hreadable := Session.isReadable_of_save hsave
  have hsaved : session.save settings occasion (some (faults.contents previous)) {} =
      ({ bytes := sink.bytes }, .ok report') :=
    Session.save_unlimited hsave
  cases previous with
  | directory =>
    rw [contents_directory] at hreadable
    exact absurd (by with_unfolding_all rfl) (hreadable (.readAt 0))
  | file mode old =>
    refine ⟨mode, old, rfl, ?_⟩
    rw [← hsaved]
    refine Session.save_of_read_eq ?_
    unfold contents at hreadable ⊢
    cases hlimit : faults.readable with
    | none => rfl
    | some n =>
      rw [hlimit] at hreadable
      have hall := Cursor.frames_append_of_failing (c := ⟨old.take n, 0, true⟩) rfl hreadable
        (old.drop n) false
      rw [List.take_append_drop] at hall
      exact hall

/-- The disk is left as it was, but for a new file that cannot be removed, or
the new file is complete: it is in the place of the target, or stays beside it
because it could not be moved there. -/
theorem writeBeside_cases (settings : Settings) (occasion : Occasion)
    (session : Session) (path : Path) (target : Location) (previous : Node) (faults : Faults)
    (disk : Disk) :
    (∃ after e, disk.writeBeside settings occasion session path target previous faults =
      (after, .error e) ∧ faults.Leaves disk after) ∨
    ∃ mode old bytes report temporary location, previous = .file mode old ∧
      session.save settings occasion (some { bytes := old }) {} = ({ bytes }, .ok report) ∧
      disk.node? location = none ∧
      disk.writeBeside settings occasion session path target previous faults =
        if faults.refuses (.replace temporary path) then
          (disk.put location (.file (replacementMode mode) bytes),
            .error (.system (.replace temporary path)))
        else (disk.put target (.file (replacementMode mode) bytes), .ok report) := by
  unfold writeBeside
  split
  · exact .inl ⟨disk, _, rfl, .inl rfl⟩
  dsimp only
  cases hfirst : disk.createFirst faults (replacementMode (modeOf previous)) path
    (temporaryPaths path) with
  | mk after made =>
    cases made with
    | error e => exact .inl ⟨after, e, rfl, createFirst_eq_error hfirst⟩
    | ok made =>
      obtain ⟨temporary, location⟩ := made
      obtain ⟨hnone, rfl⟩ := createFirst_eq_ok hfirst
      dsimp only
      cases hfill : faults.fill settings occasion session previous temporary with
      | error e => exact .inl ⟨_, e, rfl, leaves_discard hnone faults temporary _⟩
      | ok filled =>
        obtain ⟨bytes, report⟩ := filled
        obtain ⟨mode, old, rfl, hsave⟩ := Faults.fill_eq_ok hfill
        refine .inr ⟨mode, old, bytes, report, temporary, location, rfl, hsave, hnone, ?_⟩
        dsimp only
        rw [put_put, rename_put hnone]
        rfl

theorem isReadable_replacementMode (mode : Nat) : isReadable (replacementMode mode) = true := by
  have howner : (0o600).testBit 8 = true := by decide
  rw [isReadable, replacementMode, Nat.testBit_or, howner, Bool.or_true]

end Disk

namespace Session

/-- Where a merge over a file that can be opened succeeds, the path of the file opens the bytes
that a save over its contents writes, with its mode without execute and set-id bits and with read
and write rights for the owner; nothing else has changed, and paths lead where they led. Where it
fails, the disk is as it was. Only if the last step is refused, which moves the new file, is this
file left, and nothing else has changed. The same holds of a new file that cannot be removed; a
file system that is a map of paths can always remove it, and has no such leftover. Where all names
for a new file are taken, the merge fails and changes nothing. A directory is never replaced. -/
theorem saveFile_replaces {disk : Disk} {path : Path} {target : Location} {previous : Node}
    (h : disk.openForReading path = .ok (target, previous)) (settings : Settings)
    (occasion : Occasion) (session : Session) (faults : Disk.Faults) :
    (match session.saveFile settings occasion .merge path disk faults with
      | (after, .error e) => after = disk ∨ ∃ temporary location left,
          (faults.refuses (.replace temporary path) ∧ e = .system (.replace temporary path) ∨
            faults.leftover temporary = some left) ∧
          disk.node? location = none ∧ after = disk.put location left
      | (after, .ok report) => ∃ mode old bytes, previous = .file mode old ∧
          session.save settings occasion (some { bytes := old }) {} = ({ bytes }, .ok report) ∧
          after.openForReading path = .ok (target, .file (mode &&& 0o666 ||| 0o600) bytes) ∧
          (∀ location ≠ target, after.node? location = disk.node? location) ∧
          ∀ other, after.locate other = disk.locate other) ∧
    ((∀ candidate ∈ Disk.temporaryPaths path, ∃ found, disk.find candidate = .ok found) →
      session.saveFile settings occasion .merge path disk faults =
        (disk, .error (if faults.refuses (.inspect path) then .system (.inspect path)
          else .noFreeName path))) := by
  obtain ⟨-, hnode⟩ := Disk.find_eq_ok (Disk.openForReading_eq_ok h)
  have hsave : session.saveFile settings occasion .merge path disk faults =
      disk.writeBeside settings occasion session path target previous faults := by
    unfold saveFile Disk.openSession
    rw [h]
  rw [hsave]
  constructor
  · rcases disk.writeBeside_cases settings occasion session path target previous faults with
      ⟨after, e, hcase, hleaves⟩ | ⟨mode, old, bytes, report, temporary, location, rfl,
        hbytes, hnone, hcase⟩
    · rw [hcase]
      rcases hleaves with hsame | ⟨temporary, location, left, hleft, hnone, hafter⟩
      · exact .inl hsame
      · exact .inr ⟨temporary, location, left, .inr hleft, hnone, hafter⟩
    · rw [hcase]
      split_ifs with hrefused
      · exact .inr ⟨temporary, location, _, .inl ⟨hrefused, rfl⟩, hnone, rfl⟩
      · exact ⟨mode, old, bytes, rfl, hbytes,
          Disk.openForReading_put_file h (Disk.isReadable_replacementMode mode) bytes,
          fun location hne => Disk.node?_put_of_ne hne _,
            fun other => Disk.locate_put_file hnode other⟩
  · intro htaken
    unfold Disk.writeBeside
    dsimp only
    rw [Disk.createFirst_of_find htaken]
    split <;> rfl

/-- Over a set-id file that ends within a frame, a merge gives an ordinary file, and leaves
what is at the first name for a new file. On a full disk it fails and changes nothing. -/
theorem saveFile_replaces_damaged :
    let path : Path := ⟨Bytes.ofAscii "f"⟩
    let target : Location := [path.bytes]
    let taken : Location := [path.bytes ++ Bytes.ofAscii ".tmp.a"]
    let disk := (Disk.put { workingDirectory := some [] } target (.file 0o4755 [7, 1, 9])).put taken
      (.file 0o644 [1])
    let merge (faults : Disk.Faults) := saveFile {} ⟨9, 1⟩ {} .merge path disk faults
    (∃ bytes, (merge {}).1.openForReading path = .ok (target, .file 0o644 bytes) ∧
      (merge {}).1.node? taken = some (.file 0o644 [1])) ∧
      (merge { room := some 3 }).1 = disk := by
  intro path target taken disk merge
  have hopen : disk.openForReading path = .ok (target, .file 0o4755 [7, 1, 9]) := by rfl
  have hmerged : (merge {}).2.isOk = true := by decide +kernel
  have hfull : (merge { room := some 3 }).2.isOk = false := by decide +kernel
  constructor
  · have hreplaced := (saveFile_replaces hopen {} ⟨9, 1⟩ {} {}).1
    rcases hsave : merge {} with ⟨after, e | report⟩
    · rw [hsave] at hmerged
      cases hmerged
    · change saveFile {} ⟨9, 1⟩ {} .merge path disk {} = (after, .ok report) at hsave
      rw [hsave] at hreplaced
      obtain ⟨mode, old, bytes, hprevious, -, hopened, hothers, -⟩ := hreplaced
      cases hprevious
      exact ⟨bytes, hopened, (hothers taken (by decide)).trans (by rfl)⟩
  · have hkept := (saveFile_replaces hopen {} ⟨9, 1⟩ {} { room := some 3 }).1
    rcases hsave : merge { room := some 3 } with ⟨after, e | report⟩
    · rw [hsave] at hfull
      change saveFile {} ⟨9, 1⟩ {} .merge path disk { room := some 3 } = (after, .error e) at hsave
      rw [hsave] at hkept
      rcases hkept with rfl | ⟨temporary, location, left, ⟨hrefused, -⟩ | hleft, -⟩
      · rfl
      · cases hrefused
      · cases hleft
    · rw [hsave] at hfull
      cases hfull

end Session

end SessionStore
