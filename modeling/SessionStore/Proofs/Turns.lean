import SessionStore.Proofs.Merging
import SessionStore.Proofs.Provenance
import SessionStore.Proofs.Saving

/-! Sessions that take turns on one file: each saves over what the one before it left. -/
namespace SessionStore

open Msgpack (Value)

/-- Content that a writer can store and a reader gets back. -/
structure Content.Survives (content : Content) : Prop where
  storable : content.Storable
  size : ∀ payload, content.encode = .ok payload → payload.length < 2 ^ 64

/-- All that the session has to offer can be stored and read back. -/
def Session.Survives (settings : Settings) (session : Session) : Prop :=
  ∀ now entry, session.Offers settings now entry → entry.content.Survives

namespace Content

theorem id_ne_zero {content : Content} (h : content.kind ≠ .unknown) : content.id ≠ 0 := by
  rw [id_eq h]
  generalize content.kind = kind at h
  cases kind with
  | unknown => exact absurd rfl h
  | _ => decide

end Content

namespace Entry

theorem sound_of_survives {entry : Entry} (hk : entry.kind ≠ .unknown)
    (h : entry.content.Survives) : entry.Sound :=
  ⟨Content.id_ne_zero hk, h.size, fun _ => h.storable⟩

theorem Sound.stored {entry : Entry} (h : entry.Sound) : entry.stored.Sound where
  kind := by
    have hk : entry.stored.kindId = entry.kindId := by
      obtain ⟨timestamp, content⟩ := entry
      cases content <;> rfl
    exact hk ▸ h.kind
  size := fun payload hp => h.size payload (by rwa [← Content.encode_stored])
  storable := fun hr => (h.storable (Content.hasRoom_stored.mp hr)).stored

end Entry

/-- A stream that can be read, and of which whatever is written again is read back. -/
structure Stream.Sound (s : Stream) : Prop where
  isReadable : s.IsReadable
  entries : ∀ entry ∈ s.entries, entry.Sound

namespace Stream

theorem mem_entries {s : Stream} {entry : Entry} :
    entry ∈ s.entries ↔ ∃ f ∈ s.read.frames, f.decode = .ok entry := by
  unfold entries Reading.decoded
  rw [List.filterMap_map, List.mem_filterMap]
  refine exists_congr fun f => and_congr_right fun _ => ?_
  cases hd : f.decode <;> simp [hd, Except.toOption]

/-- Written again, no entry takes more bytes than 64 bits can count. -/
def IsCountable (s : Stream) : Prop :=
  ∀ entry ∈ s.entries, ∀ payload, entry.content.encode = .ok payload → payload.length < 2 ^ 64

/-- Whatever is understood in the stream can be written again. -/
def IsStorable (s : Stream) : Prop :=
  ∀ entry ∈ s.entries, ∃ payload, entry.content.encode = .ok payload ∧ payload.length < 2 ^ 64

def PayloadsBelow (n : Nat) (s : Stream) : Prop := ∀ f ∈ s.read.frames, f.payload.length < n

theorem payloadsBelow {n : Nat} {s : Stream} (h : s.bytes.length < n) : s.PayloadsBelow n := by
  obtain ⟨hframes, -⟩ := s.cursor.frames_sound
  exact fun f hf => Nat.lt_of_le_of_lt (hframes f hf).2 h

/-- Only payloads that no memory could hold outgrow 64 bits when they are written again. -/
theorem PayloadsBelow.isCountable {s : Stream} (h : s.PayloadsBelow (2 ^ 56)) : s.IsCountable := by
  intro entry he payload hp
  obtain ⟨f, hf, hd⟩ := mem_entries.mp he
  have hlength := h f hf
  have hpayload := Frame.atMost_of_decode hd payload hp
  omega

/-- What was understood is read back wherever it can be written at all. -/
theorem sound_of_isCountable {s : Stream} (hr : s.IsReadable) (hs : s.IsCountable) : s.Sound := by
  refine ⟨hr, fun entry he => ?_⟩
  obtain ⟨f, hf, hd⟩ := mem_entries.mp he
  obtain ⟨-, hid, hstorable, -⟩ := Frame.decode_ok hd
  obtain ⟨hframes, -⟩ := s.cursor.frames_sound
  refine ⟨?_, hs entry he, hstorable⟩
  have hz : entry.content.id ≠ 0 := hid ▸ (hframes f hf).1
  exact hz

def empty : Stream := ⟨[], false⟩

theorem read_empty : empty.read = ⟨[], none, 0⟩ := by
  rw [read, Cursor.frames, if_pos ⟨rfl, rfl⟩]
  rfl

theorem entries_empty : empty.entries = [] := by
  rw [entries, read_empty]
  rfl

theorem sound_empty : empty.Sound := by
  refine ⟨isReadable_of_error_eq_none (by rw [read_empty]), ?_⟩
  rw [entries_empty]
  exact fun entry he => by cases he

end Stream

namespace Session

theorem survives_encode {content : Content} (h : content.Survives) :
    ∃ payload, content.encode = .ok payload ∧ payload.length < 2 ^ 64 := by
  obtain ⟨payload, hp, -⟩ := Content.decode_encode h.storable
  exact ⟨payload, hp, h.size payload hp⟩

theorem survives_header (occasion : Occasion) (maxKbyte : UInt64) :
    (Content.header (.new occasion maxKbyte)).Survives := by
  have htext (text : String) (h : (Bytes.ofAscii text).length < 2 ^ 32) :
      (Value.ofAscii text).Fits partDepth := .text h
  have hint (n : UInt64) : (Value.ofUInt64 n).Fits partDepth := .int _
  refine ⟨⟨?_, fun _ _ => by simp [Schema.keyIn], ?_, ?_⟩, fun payload hp => ?_⟩
  · show 5 < 2 ^ 32
    decide
  · intro pair hp
    simp only [Header.new, List.mem_cons, List.not_mem_nil, or_false] at hp
    rcases hp with rfl | rfl | rfl | rfl | rfl <;> exact htext _ (by decide)
  · intro pair hp
    simp only [Header.new, List.mem_cons, List.not_mem_nil, or_false] at hp
    rcases hp with rfl | rfl | rfl | rfl | rfl
    · exact htext _ (by decide)
    · exact htext _ (by decide)
    · exact hint _
    · exact hint _
    · exact htext _ (by decide)
  · obtain ⟨n, -, hp⟩ := Results.bind_eq_ok_iff.mp hp
    obtain ⟨fields, hf, hp⟩ := Results.bind_eq_ok_iff.mp hp
    cases Results.mapM_eq_ok_iff.mp hf
    cases Except.ok.inj hp
    have hheader := Msgpack.length_sizeHeader_le (some (16, 0x80)) none 0xDE 0xDF n
    have hkbyte := Value.length_encode_ofUInt64_le maxKbyte
    have hpid := Value.length_encode_ofUInt64_le occasion.processId.toUInt64
    have htext (text : String) (h : (Bytes.ofAscii text).length < 100) :
        (Value.ofAscii text).encode.length < 105 :=
      Nat.lt_of_le_of_lt (Value.length_encode_ofAscii_le text) (Nat.add_lt_add_right h 5)
    have h₁ := htext "generator" (by decide)
    have h₂ := htext "the-shada" (by decide)
    have h₃ := htext "version" (by decide)
    have h₄ := htext "0.1.0" (by decide)
    have h₅ := htext "max_kbyte" (by decide)
    have h₆ := htext "pid" (by decide)
    have h₇ := htext "encoding" (by decide)
    have h₈ := htext "utf-8" (by decide)
    simp only [List.length_append, Header.new, Value.encodePairs, Msgpack.mapHeader,
      List.flatten_nil, List.length_nil]
    omega

theorem keeps_header (settings : Settings) (occasion : Occasion) :
    settings.keeps ⟨occasion.now, .header (.new occasion settings.maxKbyte)⟩ = true := by
  obtain ⟨payload, hp, -⟩ := survives_encode (survives_header occasion settings.maxKbyte)
  unfold Settings.keeps Settings.exceedsLineLimit Entry.frame?
  rw [hp]
  rfl

theorem unknown_merged {settings : Settings} (occasion : Occasion) (session : Session)
    (file : Stream) :
    (session.merged settings occasion file).unknown = file.entries.filter (·.kind = .unknown) := by
  have hseed : ((Merge.start settings).seed settings occasion.now session).unknown = [] := by
    rw [Merge.seed_eq]
    rfl
  exact (Merge.unknown_foldl_absorb ..).trans (by rw [hseed, List.nil_append])

theorem kind_unknown_merged {settings : Settings} (occasion : Occasion) (session : Session)
    (file : Stream) :
    ∀ entry ∈ (session.merged settings occasion file).unknown, entry.kind = .unknown := by
  rw [unknown_merged]
  exact fun entry he => of_decide_eq_true (List.mem_filter.mp he).2

/-- A merge leaves out only variables that have no value to store. -/
theorem skipped_merged {settings : Settings} (occasion : Occasion) (session : Session)
    (file : Stream) : (session.merged settings occasion file).skipped =
      if settings.globalVariables then session.transient.length else 0 := by
  have hseed : ((Merge.start settings).seed settings occasion.now session).skipped =
      if settings.globalVariables then session.transient.length else 0 := by
    rw [Merge.seed_eq]
    dsimp only
    unfold Merge.seedVariables
    split
    · exact Nat.zero_add _
    · rfl
  exact (Merge.skipped_foldl_absorb ..).trans hseed

/-- What a save writes is the header, what it takes of the session, and what it
takes of the file. -/
theorem forall_merged_of_submits {settings : Settings} {session : Session} {file : Stream}
    {occasion : Occasion} {P : Entry → Prop}
    (hs : ∀ entry, session.Submits settings occasion.now entry → P entry)
    (hf : ∀ entry ∈ file.entries, ¬entry.NamesRemovable settings → P entry)
    (hh : P ⟨occasion.now, .header (.new occasion settings.maxKbyte)⟩) :
    ∀ entry ∈ (session.merged settings occasion file).entries settings occasion session,
      P entry := by
  have hseed := (Merge.within_start settings).seed hs
  have hfile : (file.entries.foldl (Merge.absorb settings)
      ((Merge.start settings).seed settings occasion.now session)).Within P := hseed.foldl_absorb hf
  exact (hfile.seedHistory hs).entries hh fun _ hl => Merge.submits_buffers hs hl

theorem forall_merged {settings : Settings} {session : Session} {file : Stream}
    {occasion : Occasion} {P : Entry → Prop}
    (hs : ∀ entry, session.Offers settings occasion.now entry → P entry)
    (hf : ∀ entry ∈ file.entries, P entry)
    (hh : P ⟨occasion.now, .header (.new occasion settings.maxKbyte)⟩) :
    ∀ entry ∈ (session.merged settings occasion file).entries settings occasion session, P entry :=
  forall_merged_of_submits (fun entry h => hs entry h.1) (fun entry he _ => hf entry he) hh

theorem encode_merged {settings : Settings} {session : Session} (hs : session.Survives settings)
    {file : Stream} (hf : file.IsStorable) (occasion : Occasion) :
    ∀ entry ∈ (session.merged settings occasion file).entries settings occasion session,
      ∃ payload, entry.content.encode = .ok payload ∧ payload.length < 2 ^ 64 :=
  forall_merged (fun entry ho => survives_encode (hs _ entry ho)) hf
    (survives_encode (survives_header ..))

theorem writes_of_encode {settings : Settings} (hl : settings.registerLines = 0) {entry : Entry}
    (h : ∃ payload, entry.content.encode = .ok payload ∧ payload.length < 2 ^ 64) :
    settings.writes entry = true := by
  obtain ⟨payload, hp, -⟩ := h
  have hlimit : settings.exceedsLineLimit entry = false := by
    unfold Settings.exceedsLineLimit Settings.registerLineLimit
    rw [hl]
    cases entry.content <;> rfl
  rw [Settings.writes, hlimit, Entry.frame?, hp]
  rfl

theorem sound_merged {settings : Settings} {session : Session} {file : Stream}
    (hs : session.Survives settings) (hf : file.Sound) (occasion : Occasion) :
    ∀ entry ∈ (session.merged settings occasion file).entries settings occasion session,
      entry.Sound := by
  refine forall_merged (fun entry ho => ?_) hf.entries ?_
  · refine Entry.sound_of_survives ?_ (hs _ _ ho)
    cases ho <;> exact fun hk => Kind.noConfusion hk
  · exact Entry.sound_of_survives (fun hk => Kind.noConfusion hk) (survives_header ..)

theorem entries_saved {settings : Settings} {session : Session} {file : Stream}
    (hs : session.Survives settings) (hf : file.Sound) (occasion : Occasion) :
    (session.saved settings occasion file).Sound ∧
      (session.saved settings occasion file).entries =
        (((session.merged settings occasion file).entries settings occasion session).filter
          settings.writes).map Entry.stored := by
  have hsound := sound_merged hs hf occasion
  obtain ⟨herror, hentries⟩ := Stream.entries_frames settings hsound
  refine ⟨⟨Stream.isReadable_of_error_eq_none herror, fun entry he => ?_⟩, hentries⟩
  rw [show (session.saved settings occasion file).entries = _ from hentries] at he
  obtain ⟨original, ho, rfl⟩ := List.mem_map.mp he
  exact (hsound original (List.mem_of_mem_filter ho)).stored

/-- The file after sessions saved to it one after the other, each over what the
one before it left. -/
def saveInTurn (settings : Settings) (file : Stream) :
    List (Occasion × Session) → Except Error Stream
  | [] => .ok file
  | (occasion, session) :: rest =>
    match session.save settings occasion (some file) {} with
    | (sink, .ok _) => saveInTurn settings ⟨sink.bytes, false⟩ rest
    | (_, .error e) => .error e

theorem saveInTurn_cons {settings : Settings} (hk : settings.maxKbyte = 0) {file : Stream}
    (hf : file.IsReadable) (turn : Occasion × Session) (rest : List (Occasion × Session)) :
    saveInTurn settings file (turn :: rest) =
      saveInTurn settings (turn.2.saved settings turn.1 file) rest := by
  obtain ⟨report, hsave⟩ := save_eq_saved hk turn.1 turn.2 hf
  rw [saveInTurn, hsave]
  rfl

/-- Every turn succeeds, and what each turn carries over holds in the end. -/
theorem saveInTurn_induction {settings : Settings} (hk : settings.maxKbyte = 0)
    {P : List (Occasion × Session) → Stream → Prop} {file : Stream} (hf : file.Sound)
    (before : List (Occasion × Session)) {turns : List (Occasion × Session)}
    (hs : ∀ turn ∈ turns, turn.2.Survives settings) (hP : P before file)
    (hnext : ∀ before turn s, turn ∈ turns → s.Sound → P before s →
      P (before ++ [turn]) (turn.2.saved settings turn.1 s)) :
    ∃ final, saveInTurn settings file turns = .ok final ∧ P (before ++ turns) final := by
  induction turns generalizing before file with
  | nil => exact ⟨file, rfl, by rwa [List.append_nil]⟩
  | cons turn rest ih =>
    obtain ⟨hturn, hrest⟩ := List.forall_mem_cons.mp hs
    rw [saveInTurn_cons hk hf.isReadable, List.append_cons]
    have hturned := hnext before turn file List.mem_cons_self hf hP
    exact ih (entries_saved hturn hf turn.1).1 (before ++ [turn]) hrest hturned
      fun before turn s hm => hnext before turn s (List.mem_cons_of_mem _ hm)

end Session

end SessionStore
