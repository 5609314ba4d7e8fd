import SessionStore.Proofs.FirstSave
import SessionStore.Proofs.RestoreProvenance

/-! Whatever sessions restore, damaged or not, what they save is read back without any error. -/
namespace SessionStore

open Encoding

namespace Content

/-- A session keeps no additional elements of a variable. What it keeps is as easily stored. -/
theorem Survives.kept_variable {v : Variable} (h : (Content.variable v).Survives) :
    (Content.variable { name := v.name, value := v.value }).Survives := by
  obtain ⟨name, value, extra⟩ := h.storable
  obtain ⟨payload, he, -⟩ := decode_encode h.storable
  obtain ⟨shorter, hs, hle⟩ := array_sublist he (.refl _) (List.nil_sublist v.additional)
  refine ⟨⟨name, value, ⟨by simp, by simp⟩⟩, fun payload' hp => ?_⟩
  have hsize := h.size payload he
  cases Except.ok.inj (hs.symm.trans hp)
  omega

theorem Survives.sublist {buffers kept : List Buffer} (h : (bufferList buffers).Survives)
    (hk : kept.Sublist buffers) : (bufferList kept).Survives := by
  obtain ⟨hlength, hbuffers⟩ := h.storable
  obtain ⟨payload, he, -⟩ := decode_encode h.storable
  obtain ⟨shorter, hs, hle⟩ := array_sublist he (hk.map Buffer.encode) (.refl [])
  refine ⟨⟨Nat.lt_of_le_of_lt hk.length_le hlength, fun b hb => hbuffers b (hk.mem hb)⟩,
    fun payload' hp => ?_⟩
  have hsize := h.size payload he
  cases Except.ok.inj (hs.symm.trans hp)
  omega

end Content

theorem Stream.survives_of_mem {stream : Stream} (hl : stream.bytes.length < 2 ^ 32) :
    ∀ entry ∈ stream.entries, entry.content.Survives := by
  intro entry he
  have hbelow := stream.payloadsBelow hl
  obtain ⟨f, hf, hd⟩ := mem_entries.mp he
  obtain ⟨-, -, hstorable, hroom⟩ := Frame.decode_ok hd
  have hlength := hbelow f hf
  refine ⟨hstorable (hroom hlength), fun payload hp => ?_⟩
  have hpayload := Frame.atMost_of_decode hd payload hp
  omega

theorem Stream.sound_of_length_lt {stream : Stream} (hr : stream.IsReadable)
    (hl : stream.bytes.length < 2 ^ 32) : stream.Sound :=
  sound_of_isCountable hr fun entry he => (survives_of_mem hl entry he).size

namespace Session

/-- A session that has come about by restoring streams of less than 4 GiB, one after the
other, each under settings of its own, and each of them damaged, failing or whole. -/
inductive Restored : Session → Prop
  | empty : Restored {}
  | restore {session : Session} (h : Restored session) (settings : Settings)
    (options : RestoreOptions) {stream : Stream} (hl : stream.bytes.length < 2 ^ 32) :
    Restored (session.restore settings options stream).1

variable {session : Session}

theorem Restored.within (h : session.Restored) : session.Within Content.Survives := by
  induction h with
  | empty =>
    refine within_empty ⟨⟨by decide, by simp⟩, fun payload hp => ?_⟩
    cases Except.ok.inj hp
    decide
  | restore _ settings options hl ih =>
    exact ih.restore (fun _ hv => hv.kept_variable) settings options (Stream.survives_of_mem hl)

theorem Within.survives (h : session.Within Content.Survives) (settings : Settings) :
    session.Survives settings := by
  intro now entry ho
  cases ho with
  | @buffers limit hl =>
    refine h.buffers.sublist ?_
    unfold Merge.buffers
    dsimp only
    split
    · exact List.filter_sublist
    · exact (List.take_sublist ..).trans List.filter_sublist
  | globalVariable hv => exact h.globalVariables _ hv
  | pattern hp => exact h.patterns _ _ hp
  | replacement hr => exact h.replacement _ hr
  | jump hj => exact h.jumps _ hj
  | globalMark hm => exact h.globalMarks _ hm
  | register hr => exact h.registers _ hr
  | localMark hf hm => exact h.marks _ hf _ hm
  | change hf hm => exact h.changes _ hf _ hm
  | history hi => exact h.history _ _ hi

theorem merge_getD (settings : Settings) (occasion : Occasion) (session : Session)
    {previous : Option Stream} (hp : ∀ file ∈ previous, file.IsReadable) :
    ∃ status, session.merge settings occasion previous =
      .ok (session.merged settings occasion (previous.getD .empty), status) := by
  cases previous with
  | none =>
    refine ⟨.noPreviousFile, ?_⟩
    rw [Option.getD_none, merged_empty]
    rfl
  | some file => exact merge_of_isReadable settings occasion session (hp file rfl)

/-- A session that has come about by restoring streams saves what can be read. Under any
settings and over any file that can be read, however damaged, the save succeeds, and reading
what it wrote gives as many entries as it counted, no error among them and none at the end. -/
theorem save_reads_back (hs : session.Restored) (settings : Settings) (occasion : Occasion)
    {previous : Option Stream}
    (hp : ∀ file ∈ previous, file.IsReadable ∧ file.bytes.length < 2 ^ 32) :
    ∃ saved report, ∃ entries : List Entry,
      session.save settings occasion previous {} = ({ bytes := saved }, .ok report) ∧
      (Stream.mk saved false).read.error = none ∧
      (Stream.mk saved false).read.results = entries.map .ok ∧ entries.length = report.written := by
  have hfile : (previous.getD .empty).Sound := by
    cases previous with
    | none => exact Stream.sound_empty
    | some file => exact Stream.sound_of_length_lt (hp file rfl).1 (hp file rfl).2
  obtain ⟨status, hmerge⟩ := merge_getD settings occasion session fun file hf => (hp file hf).1
  obtain ⟨skipped, hsave⟩ := save_of_merge_kept hmerge
  have hsound := sound_merged (hs.within.survives settings) hfile occasion
  have hkeeps : ∀ entry, settings.keeps entry = true → entry.frame?.isSome = true := fun _ hk =>
    Settings.isSome_frame?_of_keeps hk
  obtain ⟨herror, hdecoded⟩ := Stream.decoded_kept hkeeps hsound
  refine ⟨_, _, _, hsave, herror, ?_, List.length_map Entry.stored⟩
  rw [Reading.results, herror, hdecoded]
  exact List.append_nil _

/-- The stream ends behind a variable that is not text, within the next frame.
The file begins with a kind that is reserved. -/
theorem save_reads_back_damaged :
    let stream : Stream := ⟨[6, 7, 5, 0x92, 0xA1, 0x67, 0xA1, 0xFF, 8], false⟩
    let session : Session := (Session.restore {} { info := true } {} stream).1
    let file : Stream := ⟨[0, 1, 1, 0xC0], false⟩
    (session.Restored ∧ ∀ previous ∈ some file, previous.IsReadable ∧
      previous.bytes.length < 2 ^ 32) ∧ ∃ saved report, ∃ entries : List Entry,
        session.save {} ⟨9, 1⟩ (some file) {} = ({ bytes := saved }, .ok report) ∧
        (Stream.mk saved false).read.error = none ∧
        (Stream.mk saved false).read.results = entries.map .ok ∧
        entries.length = report.written := by
  intro stream session file
  have hs : session.Restored := .restore .empty {} { info := true } (by decide)
  have hp : ∀ previous ∈ some file, previous.IsReadable ∧ previous.bytes.length < 2 ^ 32 := by
    intro previous hm
    cases Option.some.inj hm
    exact ⟨Stream.isReadable_of_not_failing rfl, by decide⟩
  exact ⟨⟨hs, hp⟩, save_reads_back hs {} ⟨9, 1⟩ hp⟩

end Session

end SessionStore
