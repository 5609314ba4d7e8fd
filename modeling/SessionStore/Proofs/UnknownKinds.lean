import SessionStore.Proofs.Turns

/-! Entries of unknown kinds pass through every save as they are, behind all others. -/
namespace SessionStore

/-- Kinds above 11 are the unknown ones. -/
theorem Kind.ofId_getD_eq_unknown_iff {id : UInt64} (h : id ≠ 0) :
    (Kind.ofId id).getD .unknown = .unknown ↔ 11 < id := by
  have hz : id.toNat ≠ 0 := fun hid => h (UInt64.toNat_inj.mp hid)
  rw [UInt64.lt_iff_toNat_lt, show (11 : UInt64).toNat = 11 from rfl]
  unfold Kind.ofId
  split
  · next hid => exact absurd hid hz
  all_goals simp_all
  omega

theorem Content.id_le {content : Content} (h : content.kind ≠ .unknown) : content.id ≤ 11 := by
  rw [id_eq h]
  generalize content.kind = kind at h
  cases kind with
  | unknown => exact absurd rfl h
  | _ => decide

namespace Frame

def unplaced (f : Frame) : Frame := { f with offset := 0 }

structure IsKnown (f : Frame) : Prop where
  kind_ne_zero : f.kind ≠ 0
  kind_le : f.kind ≤ 11
  unplaced_eq : f.unplaced = f

theorem unplaced_placed (offset : Nat) (fs : List Frame) :
    (placed offset fs).map unplaced = fs.map unplaced := by
  induction fs generalizing offset with
  | nil => rfl
  | cons f rest ih => exact congrArg (unplaced f :: ·) (ih _)

theorem length_payload_le {fs : List Frame} {f : Frame} (h : f ∈ fs) :
    f.payload.length ≤ (fs.flatMap encode).length := by
  obtain ⟨front, back, rfl⟩ := List.append_of_mem h
  simp only [List.flatMap_append, List.flatMap_cons, encode, List.length_append]
  omega

theorem kind_of_decode {f : Frame} {entry : Entry} (hz : f.kind ≠ 0) (h : f.decode = .ok entry) :
    entry.kind = .unknown ↔ 11 < f.kind := by
  rw [← Kind.ofId_getD_eq_unknown_iff hz]
  unfold decode at h
  split at h
  · next hk =>
    cases Except.ok.inj h
    exact iff_of_true rfl hk
  · next hk =>
    split at h
    · next content hv =>
      cases Except.ok.inj h
      obtain ⟨v, -, hv⟩ := Results.bind_eq_ok_iff.mp hv
      have hkind : content.kind = _ := Content.kind_of_ofValue hv
      exact iff_of_false (fun hu => hk (hkind.symm.trans hu)) hk
    · cases h

end Frame

namespace Stream

def unknownFrames (s : Stream) : List Frame :=
  (s.read.frames.filter fun f => 11 < f.kind).map Frame.unplaced

/-- The frames of unknown kinds are what entries of unknown kinds are written in. -/
theorem filterMap_frame?_unknown (s : Stream) :
    (s.entries.filter (·.kind = .unknown)).filterMap Entry.frame? = s.unknownFrames := by
  have hframes : ∀ f ∈ s.read.frames, f.kind ≠ 0 := fun f hf => (s.cursor.frames_sound.1 f hf).1
  unfold entries Reading.decoded unknownFrames
  generalize s.read.frames = fs at hframes
  induction fs with
  | nil => rfl
  | cons f rest ih =>
    obtain ⟨hf, hrest⟩ := List.forall_mem_cons.mp hframes
    have ih := ih hrest
    by_cases hk : 11 < f.kind
    · have hd : f.decode = .ok ⟨f.timestamp, .unknown f.kind f.payload⟩ := by
        unfold Frame.decode
        rw [(Kind.ofId_getD_eq_unknown_iff hf).mpr hk]
      have hkept : (f :: rest).filter (fun f => 11 < f.kind) = f :: rest.filter fun f =>
          11 < f.kind :=
        List.filter_cons_of_pos (decide_eq_true hk)
      rw [hkept, List.map_cons, List.map_cons, hd, ← ih]
      rfl
    · rw [List.filter_cons_of_neg (by simpa using hk), ← ih, List.map_cons]
      cases hd : f.decode with
      | error e => rfl
      | ok entry =>
        have hkind : entry.kind ≠ .unknown := fun hu => hk ((Frame.kind_of_decode hf hd).mp hu)
        simp [Except.toOption, hkind]

/-- The stream has a clean end. Its frames of unknown kinds are these, and they
stand behind all others. -/
structure EndsIn (unknown : List Frame) (s : Stream) : Prop where
  whole : s.read.error = none
  same : s.unknownFrames = unknown
  behind : ∃ known, s.read.frames.map Frame.unplaced = known ++ unknown ∧ ∀ f ∈ known, f.kind ≤ 11

theorem kind_of_mem_unknownFrames {s : Stream} {f : Frame} (h : f ∈ s.unknownFrames) :
    11 < f.kind := by
  obtain ⟨read, hm, rfl⟩ := List.mem_map.mp h
  exact of_decide_eq_true (List.mem_filter.mp hm).2

theorem unknownFrames_eq (s : Stream) :
    s.unknownFrames = (s.read.frames.map Frame.unplaced).filter fun f => 11 < f.kind := by
  rw [unknownFrames, List.filter_map]
  rfl

/-- Frames without places are read as they were written, but for the places that they have then. -/
theorem read_unplaced {fs : List Frame} (h : ∀ f ∈ fs, f.Readable) (hu : ∀ f ∈ fs, f.unplaced = f) :
    (Stream.mk (fs.flatMap Frame.encode) false).read.error = none ∧
      (Stream.mk (fs.flatMap Frame.encode) false).read.frames.map Frame.unplaced = fs := by
  rw [read_encode h]
  refine ⟨rfl, ?_⟩
  rw [Frame.unplaced_placed]
  exact (List.map_congr_left hu).trans (List.map_id _)

/-- What is written with frames of unknown kinds at the end is read so. -/
theorem endsIn_encode {known unknown : List Frame} (hk : ∀ f ∈ known, f.IsKnown)
    (hu : ∀ f ∈ unknown, 11 < f.kind ∧ f.unplaced = f)
    (hl : ((known ++ unknown).flatMap Frame.encode).length < 2 ^ 64) :
    (Stream.mk ((known ++ unknown).flatMap Frame.encode) false).EndsIn unknown := by
  have hzero : ∀ f ∈ known ++ unknown, f.kind ≠ 0 := by
    refine List.forall_mem_append.mpr ⟨fun f hf => (hk f hf).kind_ne_zero, fun f hf hz => ?_⟩
    have hlt := (hu f hf).1
    rw [hz] at hlt
    exact absurd hlt (by decide)
  have hreadable : ∀ f ∈ known ++ unknown, f.Readable := fun f hf =>
    ⟨hzero f hf, Nat.lt_of_le_of_lt (Frame.length_payload_le hf) hl⟩
  have hunplaced : ∀ f ∈ known ++ unknown, f.unplaced = f :=
    List.forall_mem_append.mpr ⟨fun f hf => (hk f hf).unplaced_eq, fun f hf => (hu f hf).2⟩
  obtain ⟨herror, hframes⟩ := read_unplaced hreadable hunplaced
  have hnone : known.filter (fun f => 11 < f.kind) = [] :=
    List.filter_eq_nil_iff.mpr fun f hf => by simpa using (hk f hf).kind_le
  have hall : unknown.filter (fun f => 11 < f.kind) = unknown :=
    List.filter_eq_self.mpr fun f hf => decide_eq_true (hu f hf).1
  refine ⟨herror, ?_, known, hframes, fun f hf => (hk f hf).kind_le⟩
  rw [unknownFrames_eq, hframes, List.filter_append, hnone, hall, List.nil_append]

end Stream

namespace Merge

theorem entries_eq_append_unknown (settings : Settings) (occasion : Occasion)
    (session : Session) {m : Merge} (hu : ∀ entry ∈ m.unknown, entry.kind = .unknown) :
    ∃ known, m.entries settings occasion session = known ++ m.unknown ∧
      ∀ entry ∈ known, entry.kind ≠ .unknown := by
  refine ⟨_, rfl, fun entry he hk => ?_⟩
  have hfilter : (m.entries settings occasion session).filter (·.kind = .unknown) = m.unknown :=
    filter_kind_entries occasion hu .unknown
  rw [entries, List.filter_append, List.filter_eq_self.mpr fun entry he =>
    decide_eq_true (hu entry he)] at hfilter
  have hnone := List.append_left_eq_self.mp hfilter
  exact List.filter_eq_nil_iff.mp hnone entry he (decide_eq_true hk)

end Merge

theorem Settings.keeps_unknown (settings : Settings) {entry : Entry} (h : entry.kind = .unknown) :
    settings.keeps entry = true := by
  obtain ⟨timestamp, content⟩ := entry
  cases content with
  | unknown => rfl
  | _ => cases h

namespace Entry

/-- The frame of an entry has a kind that is known if the entry's is. -/
theorem isKnown_of_frame? {entry : Entry} {f : Frame} (h : entry.frame? = some f)
    (hk : entry.kind ≠ .unknown) : f.IsKnown := by
  unfold frame? at h
  split at h
  · cases Option.some.inj h
    exact ⟨Content.id_ne_zero hk, Content.id_le hk, rfl⟩
  · cases h

end Entry

namespace Session

variable {settings : Settings} {occasion : Occasion} {session : Session} {file : Stream}

/-- What a save writes is frames of known kinds, and then the frames of unknown
kinds of the file. -/
theorem frames_merged (settings : Settings) (occasion : Occasion) (session : Session)
    (file : Stream) : ∃ known,
      (((session.merged settings occasion file).entries settings occasion session).filter
        settings.keeps).filterMap Entry.frame? = known ++ file.unknownFrames ∧
      ∀ f ∈ known, f.IsKnown := by
  obtain ⟨front, hfront, hknown⟩ :=
    Merge.entries_eq_append_unknown settings occasion session
      (kind_unknown_merged occasion session file)
  rw [hfront, unknown_merged, List.filter_append, List.filterMap_append]
  have hall : (file.entries.filter (·.kind = .unknown)).filter settings.keeps =
      file.entries.filter (·.kind = .unknown) :=
    List.filter_eq_self.mpr fun entry he =>
      settings.keeps_unknown (of_decide_eq_true (List.mem_filter.mp he).2)
  rw [hall, Stream.filterMap_frame?_unknown]
  refine ⟨_, rfl, fun f hf => ?_⟩
  obtain ⟨entry, he, hf⟩ := List.mem_filterMap.mp hf
  exact Entry.isKnown_of_frame? hf (hknown entry (List.mem_of_mem_filter he))

end Session

/-- A session, and when and under which settings it saves. -/
structure Turn where
  settings : Settings
  occasion : Occasion
  session : Session

namespace Turn

def save (turn : Turn) (file : Stream) : Except Error Stream :=
  match turn.session.save turn.settings turn.occasion (some file) {} with
  | (sink, .ok _) => .ok ⟨sink.bytes, false⟩
  | (_, .error e) => .error e

/-- The files that turns leave one after the other, each over what the one before it left. -/
def files (file : Stream) : List Turn → Except Error (List Stream)
  | [] => .ok []
  | turn :: rest => do
    let left ← turn.save file
    return left :: (← files left rest)

theorem save_passes_on (turn : Turn) {file : Stream} (hf : file.IsReadable) :
    ∃ left, turn.save file = .ok left ∧ left.IsReadable ∧
      (left.bytes.length < 2 ^ 64 → left.EndsIn file.unknownFrames) := by
  obtain ⟨status, hmerge⟩ := turn.session.merge_of_isReadable turn.settings turn.occasion hf
  obtain ⟨skipped, hsave⟩ := Session.save_of_merge_kept hmerge
  obtain ⟨known, hframes, hknown⟩ := turn.session.frames_merged turn.settings turn.occasion file
  rw [hframes] at hsave
  refine ⟨_, by rw [save, hsave], Stream.isReadable_of_not_failing rfl, ?_⟩
  refine Stream.endsIn_encode hknown fun f hf => ⟨Stream.kind_of_mem_unknownFrames hf, ?_⟩
  obtain ⟨read, -, rfl⟩ := List.mem_map.mp hf
  rfl

/-- Whatever sessions take turns on a file, under whatever settings, each leaves
a whole file that ends in the frames of unknown kinds that stood in front of any
damage at first: the same ones, in the same order and number. The files are of a
size that 64 bits can count, as the length of a frame must be. -/
theorem files_pass_on {file : Stream} (hf : file.IsReadable) (turns : List Turn) :
    ∃ left, files file turns = .ok left ∧ left.length = turns.length ∧
      ((∀ s ∈ left, s.bytes.length < 2 ^ 64) → ∀ s ∈ left, s.EndsIn file.unknownFrames) := by
  induction turns generalizing file with
  | nil => exact ⟨[], rfl, rfl, fun _ s hs => absurd hs List.not_mem_nil⟩
  | cons turn rest ih =>
    obtain ⟨next, hsave, hreadable, hnext⟩ := turn.save_passes_on hf
    obtain ⟨left, hleft, hlength, hrest⟩ := ih hreadable
    refine ⟨next :: left, ?_, congrArg (· + 1) hlength, fun hl => ?_⟩
    · rw [files, hsave, Results.ok_bind, hleft]
      rfl
    · obtain ⟨hfirst, hl⟩ := List.forall_mem_cons.mp hl
      have hends := hnext hfirst
      exact List.forall_mem_cons.mpr ⟨hends, hends.same ▸ hrest hl⟩

/-- A frame of kind 77 that is no value, and damage behind it. Two sessions
save, one of them without a limit and the other with a mark. -/
theorem files_pass_on_damaged :
    let file : Stream := ⟨[77, 4, 1, 0xC1, 0, 1], false⟩
    let marked : Session := ({} : Session).setGlobalMark ⟨3, { name := 'A', file := .ofAscii "/a" }⟩
    let turns : List Turn := [⟨{ maxKbyte := 0 }, ⟨7, 1⟩, {}⟩, ⟨{}, ⟨9, 2⟩, marked⟩]
    file.IsReadable ∧ ∃ left, files file turns = .ok left ∧ left.length = 2 ∧
      (∀ s ∈ left, s.bytes.length < 2 ^ 64) ∧ ∀ s ∈ left, s.EndsIn [⟨77, 4, [0xC1], 0⟩] := by
  intro file marked turns
  have hf : file.IsReadable := Stream.isReadable_of_not_failing rfl
  have hunknown : file.unknownFrames = [⟨77, 4, [0xC1], 0⟩] := by
    have hframe : file.cursor.frame = .ok (⟨77, 4, [0xC1], 0⟩, ⟨[0, 1], 4, false⟩) := rfl
    have hdamage : Cursor.frame ⟨[0, 1], 4, false⟩ = .error ⟨.format 4 .reservedKind, 5⟩ := rfl
    rw [Stream.unknownFrames, Stream.read, Cursor.frames_of_ok hframe,
      Cursor.frames_of_error (by simp) hdamage]
    rfl
  have hsizes : ((files file turns).map (List.map fun s => s.bytes.length)).toOption =
      some [73, 85] := by
    decide +kernel
  obtain ⟨left, hleft, hlength, hends⟩ := files_pass_on hf turns
  rw [hleft] at hsizes
  have hl : ∀ s ∈ left, s.bytes.length < 2 ^ 64 := by
    have hlengths : ∀ n ∈ left.map fun s => s.bytes.length, n < 2 ^ 64 := by
      rw [Option.some.inj hsizes]
      decide
    exact List.forall_mem_map.mp hlengths
  exact ⟨hf, left, hleft, hlength, hl, hunknown ▸ hends hl⟩

end Turn

end SessionStore
