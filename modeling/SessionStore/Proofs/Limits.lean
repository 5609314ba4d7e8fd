import SessionStore.Proofs.ReadableOutput

/-! What the limits leave out of a save, and how a save counts what it writes
and what it does not. -/
namespace SessionStore

/-- Why an entry of a merge is not written. A limit of 0 is none, and the length of
the header, of the buffer list and of what is of an unknown kind is not limited. -/
inductive Settings.LeavesOut (settings : Settings) (entry : Entry) : Prop
  | unencodable {cause : EncodingError} (h : entry.content.encode = .error cause)
  | tooLong {payload : Bytes} (h : entry.content.encode = .ok payload)
    (hkind : entry.kind ∉ [.header, .bufferList, .unknown]) (hlimit : settings.maxKbyte ≠ 0)
    (hlength : settings.maxKbyte.toNat * 1024 < payload.length)
  | tooManyLines {register : Register} (h : entry.content = .register register)
    (hlimit : settings.registerLines ≠ 0)
    (hlines : settings.registerLines < register.contents.length)

theorem Kind.isExemptFromLimit_iff {kind : Kind} :
    kind.isExemptFromLimit = true ↔ kind ∈ [.header, .bufferList, .unknown] := by
  cases kind <;> decide

namespace Settings

variable {settings : Settings} {entry : Entry}

theorem exceedsLineLimit_iff : settings.exceedsLineLimit entry = true ↔
    ∃ register, entry.content = .register register ∧ settings.registerLines ≠ 0 ∧
      settings.registerLines < register.contents.length := by
  unfold exceedsLineLimit registerLineLimit
  cases entry.content with
  | register register =>
    by_cases hlimit : settings.registerLines = 0
    · simp [hlimit]
    · simp [hlimit]
  | _ => simp

theorem leavesOut_iff_of_ok {payload : Bytes} (h : entry.content.encode = .ok payload) :
    settings.LeavesOut entry ↔
      (entry.kind ∉ [.header, .bufferList, .unknown] ∧ settings.maxKbyte ≠ 0 ∧
          settings.maxKbyte.toNat * 1024 < payload.length) ∨
        settings.exceedsLineLimit entry = true := by
  rw [exceedsLineLimit_iff]
  constructor
  · rintro (herror | ⟨h', hkind, hlimit, hlength⟩ | ⟨hregister, hlimit, hlines⟩)
    · cases h.symm.trans herror
    · cases Except.ok.inj (h.symm.trans h')
      exact .inl ⟨hkind, hlimit, hlength⟩
    · exact .inr ⟨_, hregister, hlimit, hlines⟩
  · rintro (⟨hkind, hlimit, hlength⟩ | ⟨register, hregister, hlimit, hlines⟩)
    · exact .tooLong h hkind hlimit hlength
    · exact .tooManyLines hregister hlimit hlines

instance (settings : Settings) : DecidablePred settings.LeavesOut := fun entry =>
  match h : entry.content.encode with
  | .error _ => .isTrue (.unencodable h)
  | .ok _ => decidable_of_iff' _ (leavesOut_iff_of_ok h)

/-- A limit beyond 64 bits is one that no payload reaches. -/
theorem all_maxPayloadBytes {length : Nat} (h : length < 2 ^ 64) :
    settings.maxPayloadBytes.all (length ≤ ·) = true ↔
      ¬(settings.maxKbyte ≠ 0 ∧ settings.maxKbyte.toNat * 1024 < length) := by
  unfold maxPayloadBytes
  split
  · next hlimit => simp [hlimit]
  · next hlimit =>
    simp only [Option.all_some, decide_eq_true_eq, ne_eq, hlimit, not_false_eq_true, true_and]
    omega

theorem keeps_iff (h : ∀ payload, entry.content.encode = .ok payload → payload.length < 2 ^ 64) :
    settings.keeps entry = true ↔ ¬settings.LeavesOut entry := by
  cases he : entry.content.encode with
  | error cause =>
    unfold keeps Entry.frame?
    simp [he, LeavesOut.unencodable he]
  | ok payload =>
    unfold keeps Entry.frame?
    rw [leavesOut_iff_of_ok he, he, Bool.and_eq_true_iff, Option.any_some, Bool.or_eq_true,
      all_maxPayloadBytes (h payload he), Kind.isExemptFromLimit_iff, Bool.not_eq_true']
    grind

end Settings

/-- Written, nothing that the session has to offer takes more bytes than 64 bits can count. -/
def Session.IsCountable (settings : Settings) (session : Session) : Prop :=
  ∀ now entry, session.Offers settings now entry →
    ∀ payload, entry.content.encode = .ok payload → payload.length < 2 ^ 64

theorem Entry.readable_of_frame? {entry : Entry} {f : Frame} (h : entry.frame? = some f)
    (hk : entry.content.id ≠ 0)
    (hl : ∀ payload, entry.content.encode = .ok payload → payload.length < 2 ^ 64) :
    f.Readable := by
  unfold frame? at h
  split at h
  · next payload hp =>
    cases Option.some.inj h
    exact ⟨hk, hl payload hp⟩
  · cases h

namespace Session

variable {settings : Settings} {session : Session} {previous : Option Stream}

theorem countable_merged (hs : session.IsCountable settings)
    (hf : ∀ file ∈ previous, file.IsCountable) (occasion : Occasion) :
    ∀ entry ∈
        (session.merged settings occasion (previous.getD .empty)).entries settings occasion session,
      ∀ payload, entry.content.encode = .ok payload → payload.length < 2 ^ 64 := by
  refine forall_merged (fun entry ho => hs _ entry ho) ?_
    (survives_header occasion settings.maxKbyte).size
  cases previous with
  | none =>
    rw [Option.getD_none, Stream.entries_empty]
    exact List.forall_mem_nil _
  | some file => exact hf file rfl

theorem id_merged (occasion : Occasion) (session : Session) (file : Stream) :
    ∀ entry ∈ (session.merged settings occasion file).entries settings occasion session,
      entry.content.id ≠ 0 := by
  refine forall_merged (P := fun entry => entry.content.id ≠ 0) (fun entry ho =>
    Content.id_ne_zero ?_) (fun entry he => ?_) (Content.id_ne_zero fun hk => Kind.noConfusion hk)
  · cases ho <;> exact fun hk => Kind.noConfusion hk
  · obtain ⟨f, hf, hd⟩ := Stream.mem_entries.mp he
    obtain ⟨-, hid, -⟩ := Frame.decode_ok hd
    exact hid ▸ (file.cursor.frames_sound.1 f hf).1

/-- Limits leave out the entries that they should and no others. What is written,
in the order of the merge, is a frame for each entry that has a payload within the
limits, with its time and its encoding as they are; a reader finds these frames and
nothing else. The report counts them, and it counts all entries that are left out
and, where variables are kept, those of the session that have no value to store. -/
theorem save_within_limits (hs : session.IsCountable settings)
    (hp : ∀ file ∈ previous, file.IsReadable ∧ file.IsCountable) (occasion : Occasion)
    (before : Bytes) :
    let entries :=
      (session.merged settings occasion (previous.getD .empty)).entries settings occasion session
    ∃ frames report,
      (entries.filter fun entry => ¬settings.LeavesOut entry).map Entry.frame? = frames.map some ∧
      session.save settings occasion previous { bytes := before } =
        ({ bytes := before ++ frames.flatMap Frame.encode }, .ok report) ∧
      (Stream.mk (frames.flatMap Frame.encode) false).read =
        ⟨Frame.placed 0 frames, none, (frames.flatMap Frame.encode).length⟩ ∧
      report.written = frames.length ∧
      report.skipped = (entries.filter fun entry => settings.LeavesOut entry).length +
        if settings.globalVariables then session.transient.length else 0 := by
  intro entries
  have hsizes := countable_merged hs (fun file hf => (hp file hf).2) occasion
  obtain ⟨status, hmerge⟩ := merge_getD settings occasion session fun file hf => (hp file hf).1
  obtain ⟨skipped, hsave⟩ := save_appends hmerge before
  have hcount : (entries.filter settings.keeps).length + skipped = entries.length + _ :=
    count_save hmerge hsave
  have hkept : entries.filter settings.keeps = entries.filter fun entry =>
      ¬settings.LeavesOut entry :=
    List.filter_congr fun entry he => by
      rw [Bool.eq_iff_iff, decide_eq_true_iff]
      exact Settings.keeps_iff (hsizes entry he)
  have hframes : (entries.filter settings.keeps).map Entry.frame? =
      ((entries.filter settings.keeps).filterMap Entry.frame?).map some := by
    rw [List.map_filterMap_some_eq_filter_map_isSome]
    refine (List.filter_eq_self.mpr (List.forall_mem_map.mpr fun entry he => ?_)).symm
    exact Settings.isSome_frame?_of_keeps (List.mem_filter.mp he).2
  have hlength := congrArg List.length hframes
  rw [List.length_map, List.length_map] at hlength
  have hreadable : ∀ f ∈ (entries.filter settings.keeps).filterMap Entry.frame?, f.Readable :=
    fun f hf => by
    obtain ⟨entry, he, hf⟩ := List.mem_filterMap.mp hf
    have hmem := List.mem_of_mem_filter he
    exact Entry.readable_of_frame? hf (id_merged occasion session _ entry hmem) (hsizes entry hmem)
  have hparts := entries.length_eq_length_filter_add settings.LeavesOut
  refine ⟨_, _, hkept ▸ hframes, hsave, Stream.read_encode hreadable, hlength, ?_⟩
  rw [hkept, skipped_merged] at hcount
  dsimp only
  simp only [← decide_not] at hparts
  omega

/-- A jump to line 0, a register of two lines and a variable without a value are left out.
The header and a frame of an unknown kind, which is followed by damage, are written. -/
theorem save_within_limits_damaged :
    let settings : Settings := { maxKbyte := 1, registerLines := 1 }
    let session : Session := ({
      jumps := [⟨4, { file := .ofAscii "/a", lnum := 0 }⟩]
      transient := [Bytes.ofAscii "F"] } : Session).setRegister
        ⟨5, { name := 'a', contents := [[0x61], [0x62]] }⟩
    let file : Stream := ⟨[77, 4, 1, 0xC1, 0, 1], false⟩
    (session.IsCountable settings ∧ ∀ previous ∈ some file, previous.IsReadable ∧
      previous.IsCountable) ∧ ∃ frames report,
        session.save settings ⟨7, 1⟩ (some file) { bytes := [9] } =
          ({ bytes := 9 :: frames.flatMap Frame.encode }, .ok report) ∧
        (Stream.mk (frames.flatMap Frame.encode) false).read =
          ⟨Frame.placed 0 frames, none, (frames.flatMap Frame.encode).length⟩ ∧
        frames.length = 2 ∧ report.written = 2 ∧ report.skipped = 3 := by
  intro settings session file
  have hs : session.IsCountable settings := by
    have hhistory (type : HistoryType) : session.history.get type = [] := by cases type <;> rfl
    intro now entry ho payload hp
    cases ho with
    | jump hj =>
      cases List.mem_singleton.mp hj
      cases hp
    | register hr =>
      cases List.mem_singleton.mp hr
      cases hp
      decide
    | history h => cases hhistory _ ▸ h
    | @pattern substitute _ h => cases substitute <;> cases h
    | buffers h | globalVariable h | replacement h | globalMark h | localMark h | change h =>
      cases h
  have hf : ∀ previous ∈ some file, previous.IsReadable ∧ previous.IsCountable := by
    intro previous hm
    cases Option.some.inj hm
    exact ⟨Stream.isReadable_of_not_failing rfl, (Stream.payloadsBelow (by decide)).isCountable⟩
  refine ⟨⟨hs, hf⟩, ?_⟩
  obtain ⟨frames, report, -, hsave, hread, hwritten, -⟩ := save_within_limits hs hf ⟨7, 1⟩ [9]
  have hcounts : ((session.save settings ⟨7, 1⟩ (some file) { bytes := [9] }).2.map
      (fun report => (report.written, report.skipped))).toOption = some (2, 3) := by
    decide +kernel
  rw [hsave] at hcounts
  obtain ⟨htwo, hthree⟩ := Prod.mk.inj (Option.some.inj hcounts)
  exact ⟨frames, report, hsave, hread, hwritten.symm.trans htwo, htwo, hthree⟩

end Session

end SessionStore
