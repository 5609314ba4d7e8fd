import SessionStore.Proofs.Frames
import SessionStore.Proofs.Reencoding
import SessionStore.Proofs.WritingSteps
import SessionStore.Save

/-! Saving without a limit of bytes: what is written, and what is read back from it. -/
namespace SessionStore

/-- The entries of a stream up to its end or its damage, without those that cannot be understood. -/
def Stream.entries (s : Stream) : List Entry := s.read.decoded.filterMap Except.toOption

/-- The stream may be broken, but it could be read. -/
def Stream.IsReadable (s : Stream) : Prop := ∀ attempt, s.read.error ≠ some (.system attempt)

/-- Whatever is written for the entry is read back as the entry. -/
structure Entry.Sound (entry : Entry) : Prop where
  kind : entry.kindId ≠ 0
  size : ∀ payload, entry.content.encode = .ok payload → payload.length < 2 ^ 64
  storable : entry.content.HasRoom → entry.content.Storable

namespace Settings

/-- Whether an entry is written when there is no limit of bytes. -/
def writes (settings : Settings) (entry : Entry) : Bool :=
  !settings.exceedsLineLimit entry && entry.frame?.isSome

/-- Whether an entry is written: it has a payload, and it is within the limits. -/
def keeps (settings : Settings) (entry : Entry) : Bool :=
  !settings.exceedsLineLimit entry && entry.frame?.any fun f =>
    entry.kind.isExemptFromLimit || settings.maxPayloadBytes.all (f.payload.length ≤ ·)

theorem isSome_frame?_of_keeps {settings : Settings} {entry : Entry}
    (h : settings.keeps entry = true) : entry.frame?.isSome = true := by
  obtain ⟨-, h⟩ := Bool.and_eq_true_iff.mp h
  cases hf : entry.frame? with
  | none =>
    rw [hf] at h
    cases h
  | some f => rfl

theorem writes_of_keeps {settings : Settings} {entry : Entry} (h : settings.keeps entry = true) :
    settings.writes entry = true := by
  rw [writes, isSome_frame?_of_keeps h, (Bool.and_eq_true_iff.mp h).1]
  rfl

theorem keeps_congr (settings : Settings) {entry other : Entry}
    (h : entry.content = other.content) : settings.keeps entry = settings.keeps other := by
  unfold keeps exceedsLineLimit Entry.frame? Entry.kind
  rw [h]
  cases other.content.encode <;> rfl

theorem keeps_eq_writes {settings : Settings} (h : settings.maxPayloadBytes = none) :
    settings.keeps = settings.writes := by
  funext entry
  rw [keeps, writes, h]
  cases entry.frame? <;> simp

theorem keeps_eq_isSome {settings : Settings} {entry : Entry}
    (hl : settings.exceedsLineLimit entry = false) :
    settings.keeps entry = (entry.frameWithin? settings.maxPayloadBytes).isSome := by
  rw [keeps, hl, Entry.frameWithin?, Option.isSome_filter]
  rfl

def frames (settings : Settings) (entries : List Entry) : List Frame :=
  (entries.filter settings.writes).filterMap Entry.frame?

theorem frames_of_keeps {settings : Settings} {entries : List Entry}
    (h : ∀ entry ∈ entries, settings.keeps entry = true) :
    settings.frames entries = (entries.filter settings.keeps).filterMap Entry.frame? := by
  rw [frames, List.filter_eq_self.mpr h, List.filter_eq_self.mpr fun entry he =>
    writes_of_keeps (h entry he)]

end Settings

namespace EntryWriter

/-- The entries that are kept are written one after the other, and nothing fails. -/
theorem writeAll_unlimited (settings : Settings) {w : EntryWriter} (hw : w.sink.limit = none)
    (hm : w.maxBytes = settings.maxPayloadBytes) (entries : List Entry) :
    ∃ skipped, w.writeAll settings entries =
      ({ w with
        sink := ⟨w.sink.bytes ++ ((entries.filter settings.keeps).filterMap Entry.frame?).flatMap
          Frame.encode, none⟩
        written := w.written + (entries.filter settings.keeps).length
        skipped }, none) := by
  induction entries generalizing w with
  | nil =>
    refine ⟨w.skipped, ?_⟩
    simp only [writeAll, List.filter_nil, List.filterMap_nil, List.flatMap_nil, List.append_nil,
      List.length_nil, Nat.add_zero]
    rw [← hw]
  | cons entry rest ih =>
    unfold writeAll
    by_cases hl : settings.exceedsLineLimit entry = true
    · have hkeeps : settings.keeps entry = false := by rw [Settings.keeps, hl]; rfl
      rw [if_pos hl, List.filter_cons_of_neg (by rw [hkeeps]; decide)]
      exact ih (w := w.skip) hw hm
    · rw [if_neg hl]
      have hkeeps := Settings.keeps_eq_isSome (Bool.eq_false_iff.mpr hl)
      rw [← hm] at hkeeps
      have hstep := w.write_step entry
      generalize w.write entry = result at hstep ⊢
      cases hstep with
      | leftOut hf =>
        rw [hf] at hkeeps
        rw [List.filter_cons_of_neg (by rw [hkeeps]; decide)]
        exact ih (w := w.skip) hw hm
      | @added f hf hr =>
        rw [hf] at hkeeps
        obtain ⟨skipped, hrest⟩ := ih (w := w.add f) hw hm
        refine ⟨skipped, ?_⟩
        rw [List.filter_cons_of_pos hkeeps,
          List.filterMap_cons_some (Entry.frame?_of_frameWithin? hf), List.length_cons]
        dsimp only
        rw [hrest]
        simp [add, Sink.append, Nat.add_assoc, Nat.add_comm 1]
      | refused hf hr =>
        rw [Sink.hasRoom_of_unlimited hw] at hr
        cases hr

theorem count_write {w w' : EntryWriter} {entry : Entry} (h : w.write entry = (w', none)) :
    w'.written + w'.skipped = w.written + w.skipped + 1 := by
  have hstep := w.write_step entry
  rw [h] at hstep
  cases hstep with
  | leftOut => exact (Nat.add_assoc ..).symm
  | added => exact Nat.add_right_comm ..

/-- Every entry is written, or it is counted as one that is left out. -/
theorem count_writeAll {settings : Settings} {w w' : EntryWriter} {entries : List Entry}
    (h : w.writeAll settings entries = (w', none)) :
    w'.written + w'.skipped = w.written + w.skipped + entries.length := by
  induction entries generalizing w with
  | nil =>
    cases h
    rfl
  | cons entry rest ih =>
    unfold writeAll at h
    rw [List.length_cons]
    split at h
    · have hrest := ih h
      have hskip : w.skip.written + w.skip.skipped = w.written + w.skipped + 1 :=
        (Nat.add_assoc ..).symm
      omega
    · split at h
      · next hentry =>
        have hrest := ih h
        have hfirst := count_write hentry
        omega
      · cases h

end EntryWriter

namespace Stream

private theorem decode_placed {fs : List Frame} {entries : List Entry}
    (h : List.Forall₂ (fun f entry => ∀ offset, Frame.decode { f with offset } =
      .ok entry) fs entries)
    (offset : Nat) : (Frame.placed offset fs).map Frame.decode = entries.map .ok := by
  induction h generalizing offset with
  | nil => rfl
  | cons hf _ ih => rw [Frame.placed, List.map_cons, List.map_cons, hf, ih]

private theorem forall₂_frames {p : Entry → Bool}
    (hp : ∀ entry, p entry = true → entry.frame?.isSome = true) {entries : List Entry}
    (h : ∀ entry ∈ entries, entry.Sound) :
    (∀ f ∈ (entries.filter p).filterMap Entry.frame?, f.Readable) ∧
      List.Forall₂ (fun f entry => ∀ offset, Frame.decode { f with offset } = .ok entry)
        ((entries.filter p).filterMap Entry.frame?) ((entries.filter p).map Entry.stored) := by
  induction entries with
  | nil => exact ⟨by simp, .nil⟩
  | cons entry rest ih =>
    obtain ⟨he, hr⟩ := List.forall_mem_cons.mp h
    obtain ⟨hreadable, hdecode⟩ := ih hr
    by_cases hw : p entry = true
    · obtain ⟨f, hf⟩ := Option.isSome_iff_exists.mp (hp entry hw)
      rw [List.filter_cons_of_pos hw, List.filterMap_cons_some hf]
      unfold Entry.frame? at hf
      split at hf
      · next payload hp =>
        cases Option.some.inj hf
        obtain ⟨payload', hp', hd⟩ := Content.decode_encode
          (he.storable (Content.hasRoom_of_encode hp))
        cases Except.ok.inj (hp.symm.trans hp')
        exact ⟨List.forall_mem_cons.mpr ⟨⟨he.kind, he.size payload hp⟩, hreadable⟩,
          .cons (fun offset => hd entry.timestamp offset) hdecode⟩
      · cases hf
    · rw [List.filter_cons_of_neg hw]
      exact ⟨hreadable, hdecode⟩

/-- Entries that are written are read back as they are when stored, whichever of
them are left out. -/
theorem decoded_kept {p : Entry → Bool} (hp : ∀ entry, p entry = true → entry.frame?.isSome = true)
    {entries : List Entry} (h : ∀ entry ∈ entries, entry.Sound) :
    let saved : Stream := ⟨((entries.filter p).filterMap Entry.frame?).flatMap Frame.encode, false⟩
    saved.read.error = none ∧
      saved.read.decoded = ((entries.filter p).map Entry.stored).map .ok := by
  obtain ⟨hreadable, hdecode⟩ := forall₂_frames hp h
  dsimp only
  rw [read_encode hreadable]
  exact ⟨rfl, decode_placed hdecode 0⟩

/-- What was written is read back: all entries that had a payload, as they are when stored. -/
theorem decoded_frames (settings : Settings) {entries : List Entry}
    (h : ∀ entry ∈ entries, entry.Sound) :
    let saved : Stream := ⟨(settings.frames entries).flatMap Frame.encode, false⟩
    saved.read.error = none ∧
      saved.read.decoded = ((entries.filter settings.writes).map Entry.stored).map .ok :=
  decoded_kept (fun _ hw => (Bool.and_eq_true_iff.mp hw).2) h

theorem entries_frames (settings : Settings) {entries : List Entry}
    (h : ∀ entry ∈ entries, entry.Sound) :
    let saved : Stream := ⟨(settings.frames entries).flatMap Frame.encode, false⟩
    saved.read.error = none ∧
      saved.entries = (entries.filter settings.writes).map Entry.stored := by
  obtain ⟨herror, hdecoded⟩ := decoded_frames settings h
  refine ⟨herror, ?_⟩
  rw [Stream.entries, hdecoded, List.filterMap_map]
  exact List.filterMap_some

theorem entries_of_frame {s : Stream} {f : Frame} {offset : Nat} {entry : Entry}
    (hf : s.cursor.frame = .ok (f, ⟨[], offset, false⟩)) (hd : f.decode = .ok entry) :
    s.entries = [entry] := by
  have hend : Cursor.frames ⟨[], offset, false⟩ = ⟨[], none, offset⟩ := by
    rw [Cursor.frames, if_pos ⟨rfl, rfl⟩]
  rw [entries, read, Cursor.frames_of_ok hf, hend, Reading.decoded, List.map_singleton, hd]
  rfl

theorem isReadable_of_error_eq_none {s : Stream} (h : s.read.error = none) : s.IsReadable :=
  fun _ he => Option.some_ne_none _ (he.symm.trans h)

theorem isReadable_of_not_failing {s : Stream} (h : s.failing = false) : s.IsReadable := by
  intro attempt he
  obtain ⟨-, herror⟩ := s.cursor.frames_sound
  have hfailing : s.failing = true := herror (.system attempt) he
  exact Bool.false_ne_true (h.symm.trans hfailing)

end Stream

namespace Session

def merged (settings : Settings) (occasion : Occasion) (session : Session) (file : Stream) :
    Merge :=
  (file.entries.foldl (Merge.absorb settings)
    ((Merge.start settings).seed settings occasion.now session)).seedHistory session

theorem merge_of_isReadable (settings : Settings) (occasion : Occasion) (session : Session)
    {file : Stream} (h : file.IsReadable) :
    ∃ status, session.merge settings occasion (some file) =
      .ok (session.merged settings occasion file, status) := by
  obtain ⟨-, herror⟩ := file.cursor.frames_sound
  unfold merge Merge.absorbStream
  cases he : file.read.error with
  | none => exact ⟨.clean, by simp only [he]; rfl⟩
  | some e =>
    have hends : e.Ends file.failing := herror e (by exact he)
    cases e with
    | format offset fault => exact ⟨.recovered offset fault _, by simp only [he]; rfl⟩
    | system attempt => exact (h attempt he).elim
    | _ => exact hends.elim

def saved (settings : Settings) (occasion : Occasion) (session : Session) (file : Stream) :
    Stream :=
  ⟨(settings.frames ((session.merged settings occasion file).entries settings occasion
    session)).flatMap Frame.encode, false⟩

/-- A save adds to its sink those entries of the merge that have a payload
within the limits, and counts them. -/
theorem save_appends {settings : Settings} {occasion : Occasion} {session : Session}
    {previous : Option Stream} {merged : Merge} {status : MergeStatus}
    (h : session.merge settings occasion previous = .ok (merged, status)) (before : Bytes) :
    let kept := (merged.entries settings occasion session).filter settings.keeps
    ∃ skipped, session.save settings occasion previous { bytes := before } =
      ({ bytes := before ++ (kept.filterMap Entry.frame?).flatMap Frame.encode },
        .ok ⟨status, kept.length, skipped⟩) := by
  obtain ⟨skipped, hw⟩ := EntryWriter.writeAll_unlimited settings
    (w := { sink := { bytes := before }, maxBytes := settings.maxPayloadBytes }) rfl rfl
    (merged.entries settings occasion session)
  refine ⟨skipped + merged.skipped, ?_⟩
  unfold save
  simp [h, hw]

/-- A save writes those entries of the merge that have a payload within the
limits, and counts them. -/
theorem save_of_merge_kept {settings : Settings} {occasion : Occasion} {session : Session}
    {previous : Option Stream} {merged : Merge} {status : MergeStatus}
    (h : session.merge settings occasion previous = .ok (merged, status)) :
    let kept := (merged.entries settings occasion session).filter settings.keeps
    ∃ skipped, session.save settings occasion previous {} =
      ({ bytes := (kept.filterMap Entry.frame?).flatMap Frame.encode },
        .ok ⟨status, kept.length, skipped⟩) :=
  save_appends h []

/-- A save counts each entry of the merge, as one that it writes or one that it leaves out. -/
theorem count_save {settings : Settings} {occasion : Occasion} {session : Session}
    {previous : Option Stream} {merged : Merge} {status : MergeStatus} {before sink : Sink}
    {report : SaveReport} (h : session.merge settings occasion previous = .ok (merged, status))
    (hs : session.save settings occasion previous before = (sink, .ok report)) :
    report.written + report.skipped = (merged.entries settings occasion session).length +
      merged.skipped := by
  unfold save at hs
  rw [h] at hs
  dsimp only at hs
  split at hs
  · cases hs
  · next hw =>
    have hwritten := EntryWriter.count_writeAll hw
    cases hs
    dsimp only at hwritten ⊢
    omega

theorem save_of_skipped_eq_zero {settings : Settings} {occasion : Occasion} {session : Session}
    {previous : Option Stream} {merged : Merge} {status : MergeStatus} {sink : Sink}
    {report : SaveReport} (h : session.merge settings occasion previous = .ok (merged, status))
    (hs : session.save settings occasion previous {} = (sink, .ok report))
    (hz : report.skipped = 0) :
    (∀ entry ∈ merged.entries settings occasion session, settings.keeps entry = true) ∧
      sink = {
        bytes := (settings.frames (merged.entries settings occasion session)).flatMap
          Frame.encode } := by
  have hcount := count_save h hs
  obtain ⟨skipped, hkept⟩ := save_of_merge_kept h
  obtain ⟨hsink, hreport⟩ := Prod.mk.inj (hs.symm.trans hkept)
  rw [Except.ok.inj hreport] at hcount hz
  dsimp only at hcount hz
  have hall : ∀ entry ∈ merged.entries settings occasion session, settings.keeps entry = true := by
    refine List.filter_eq_self.mp (List.filter_sublist.eq_of_length_le ?_)
    omega
  exact ⟨hall, by rw [hsink, Settings.frames_of_keeps hall]⟩

theorem save_of_keeps {settings : Settings} {occasion : Occasion} {session : Session}
    {previous : Option Stream} {merged : Merge} {status : MergeStatus}
    (h : session.merge settings occasion previous = .ok (merged, status))
    (hk : ∀ entry ∈ merged.entries settings occasion session, settings.keeps entry = true) :
    ∃ report, session.save settings occasion previous {} =
      ({ bytes := (settings.frames (merged.entries settings occasion session)).flatMap
          Frame.encode },
        .ok report) ∧ report.skipped = merged.skipped := by
  obtain ⟨skipped, hsave⟩ := save_of_merge_kept h
  have hcount := count_save h hsave
  dsimp only at hcount
  rw [List.filter_eq_self.mpr hk] at hcount
  rw [← Settings.frames_of_keeps hk] at hsave
  refine ⟨_, hsave, ?_⟩
  dsimp only
  omega

/-- Without a limit of bytes, a merge is written whole. -/
theorem save_of_merge {settings : Settings} (hk : settings.maxKbyte = 0) {occasion : Occasion}
    {session : Session} {previous : Option Stream} {merged : Merge} {status : MergeStatus}
    (h : session.merge settings occasion previous = .ok (merged, status)) :
    ∃ report, session.save settings occasion previous {} =
      ({ bytes := (settings.frames (merged.entries settings occasion session)).flatMap
          Frame.encode },
        .ok report) := by
  obtain ⟨skipped, hsave⟩ := save_of_merge_kept h
  rw [Settings.keeps_eq_writes (if_pos hk)] at hsave
  exact ⟨_, hsave⟩

theorem save_eq_saved {settings : Settings} (hk : settings.maxKbyte = 0) (occasion : Occasion)
    (session : Session) {file : Stream} (h : file.IsReadable) :
    ∃ report, session.save settings occasion (some file) {} =
      ({ bytes := (session.saved settings occasion file).bytes }, .ok report) := by
  obtain ⟨status, hm⟩ := session.merge_of_isReadable settings occasion h
  unfold saved
  dsimp only
  exact save_of_merge hk hm

end Session

end SessionStore
