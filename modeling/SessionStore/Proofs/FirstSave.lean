import SessionStore.Proofs.Kept

/-! What a session writes where there is no file yet: what is kept of it, and
all that it has if it is well formed. -/
namespace SessionStore

open Msgpack (Value)
open Recency

/-- Nothing of a session is left out, except for lists that are too long. -/
structure Settings.KeepsAll (settings : Settings) : Prop where
  maxKbyte : settings.maxKbyte = 0
  registerLines : settings.registerLines = 0
  removable : settings.removable = []
  globalVariables : settings.globalVariables = true
  globalMarks : settings.globalMarks = true
  bufferList : settings.bufferList = some 0

/-- Everything stands where it belongs, can be stored as it is, and is no more
than there is room for. -/
structure Session.WellFormed (settings : Settings) (session : Session) : Prop where
  survives : session.Survives settings
  clean : ∀ now entry, session.Offers settings now entry → entry.content.Clean
  search : ∀ p ∈ session.searchPattern, p.value.isSubstitute = false
  substitute : ∀ p ∈ session.substitutePattern, p.value.isSubstitute = true
  history : ∀ type, ∀ item ∈ session.history.get type, item.value.type = type
  texts : ∀ type, ((session.history.get type).map fun item => item.value.text).Nodup
  historyAscending : ∀ type, Ascending (session.history.get type)
  historyRoom : ∀ type, (session.history.get type).length ≤ settings.history.get type
  registers : ∀ e ∈ session.registers.entries, e.2.value.name = e.1 ∧ isRegisterName e.1 = true
  globalMarks : ∀ e ∈ session.globalMarks.entries, e.2.value.name = e.1 ∧
    isGlobalMarkName e.1 = true
  files : ∀ file ∈ session.files.entries, file.2.WellFormed settings file.1
  fileRoom : session.files.entries.length ≤ settings.markedFiles
  places : (session.jumps.map fun jump => jump.value.place).Nodup
  jumpsAscending : Ascending session.jumps
  jumpRoom : session.jumps.length ≤ settings.jumps
  transient : session.transient = []

theorem Session.WellFormed.tidy {settings : Settings} {session : Session} (hk : settings.KeepsAll)
    (hw : session.WellFormed settings) : session.Tidy settings :=
  { hw with
    historyOrder := fun type => (hw.historyAscending type).oldestFirst
    jumpsOrder := hw.jumpsAscending.oldestFirst
    globalVariables := .inl hk.globalVariables
    globalMarksKept := .inl hk.globalMarks
    buffers := by
      rw [hk.bufferList]
      exact (Session.buffers_eq hk.removable session 0).trans (if_pos rfl) }

/-- A merge has what a session has and nothing else; values under names and
files come in any order. -/
structure Merge.Carries (settings : Settings) (now : Timestamp) (session : Session) (m : Merge) :
    Prop where
  globalVariables : m.globalVariables.entries =
    session.globalVariables.entries.map fun v => (v.1, ⟨now, { name := v.1, value := v.2 }⟩)
  searchPattern : m.searchPattern = session.searchPattern
  substitutePattern : m.substitutePattern = session.substitutePattern
  replacement : m.replacement = session.replacement
  jumps : m.jumps.items = session.jumps
  globalMarks : m.globalMarks.items.Perm session.globalMarks.values
  registers : m.registers.items.Perm session.registers.values
  history : ∀ type, (m.history.get type).items = session.history.get type
  files : (m.files.states settings.markedFiles).Perm session.files.entries
  marks : ∀ file ∈ m.files.top settings.markedFiles, file.2.marks = file.2.state.marks.values
  unknown : m.unknown = []

/-- A merge has what a session has, and all its files have something in them. -/
structure Merge.Holds (settings : Settings) (now : Timestamp) (session : Session) (m : Merge) :
    Prop where
  carries : m.Carries settings now session
  files : ((m.files.top settings.markedFiles).map fun file => (file.1, file.2.state)).Perm
    session.files.entries

namespace Session

variable {settings : Settings} {session : Session}

theorem merged_empty (occasion : Occasion) : session.merged settings occasion .empty =
    ((Merge.start settings).seed settings occasion.now session).seedHistory session := by
  rw [merged, Stream.entries_empty]
  rfl

section Carries

theorem globalVariables_merged_empty (occasion : Occasion) :
    (session.merged settings occasion .empty).globalVariables.entries =
      (session.kept settings).globalVariables.entries.map fun v =>
        (v.1, ⟨occasion.now, { name := v.1, value := v.2 }⟩) := by
  have hfresh : (Dictionary.empty : Dictionary Bytes (Timed Variable)).Fresh
      (session.globalVariables.entries.map Prod.fst) :=
    Dictionary.fresh_empty (List.pairwise_map.mpr session.globalVariables.distinct)
  have hfold := Dictionary.entries_foldl_alter Prod.fst
    (fun v _ => (⟨occasion.now, { name := v.1, value := v.2 }⟩ : Timed Variable)) hfresh
  rw [merged_empty, Merge.seed_eq]
  show (Merge.seedVariables settings occasion.now session
    (Merge.start settings)).globalVariables.entries = _
  unfold Merge.seedVariables kept
  dsimp only
  split
  · exact hfold
  · rfl

/-- A collection that takes from a table what is under valid names consists of that. -/
theorem perm_extend {α : Type} {same : α → α → Bool} {name : α → Char} {isName : Char → Bool}
    (hsame : ∀ a b, same a b = true ↔ name a = name b)
    (hnames : ∀ {n}, n ∈ asciiNames isName ↔ isName n = true) {capacity : Nat}
    (hroom : (asciiNames isName).length ≤ capacity) {table : Table Char (Timed α)}
    (hkeys : ∀ e ∈ table.entries, name e.2.value = e.1) :
    ((⟨capacity, []⟩ : Bounded α same).extend (table.values.filter fun item =>
      isName (name item.value))).items.Perm (table.filter isName).values := by
  obtain ⟨hone, hfound⟩ := Merge.onePerName_extend hsame hnames hroom hkeys
  generalize (⟨capacity, []⟩ : Bounded α same).extend (table.values.filter fun item =>
    isName (name item.value)) = held at hone hfound ⊢
  have hvalues : (table.filter isName).values = table.values.filter fun item =>
      isName (name item.value) :=
    Table.values_filter hkeys
  have hdistinct : (table.values.map fun item => name item.value).Nodup :=
    Table.nodup_values_map hkeys
  rw [hvalues]
  apply (List.perm_ext_iff_of_nodup (.of_map _ hone.distinct)
    ((List.Nodup.of_map _ hdistinct).filter _)).mpr
  intro item
  rw [List.mem_filter]
  constructor
  · intro hm
    have hname := hnames.mp (hone.within item hm)
    have hthere : table.find? (name item.value) = some item :=
      (hfound _ hname).symm.trans ((find?_name_eq_some_iff hone.distinct).mpr ⟨hm, rfl⟩)
    exact ⟨Table.mem_values_of_find? hthere, hname⟩
  · rintro ⟨hm, hname⟩
    obtain ⟨e, he, rfl⟩ := List.mem_map.mp hm
    rw [hkeys e he] at hname
    have hthere := (hfound _ hname).trans (Table.find?_of_mem he)
    exact ((find?_name_eq_some_iff hone.distinct).mp hthere).1

theorem registers_merged_empty (hf : session.Filed) (occasion : Occasion) :
    (session.merged settings occasion .empty).registers.items.Perm
      (session.kept settings).registers.values := by
  rw [merged_empty, Merge.seed_eq]
  exact perm_extend Register.sameName_iff mem_registerNames registerNames_fit hf.keyed.registers

theorem globalMarks_merged_empty (hr : settings.removable = []) (hf : session.Filed)
    (occasion : Occasion) :
    (session.merged settings occasion .empty).globalMarks.items.Perm
      (session.kept settings).globalMarks.values := by
  rw [merged_empty, Merge.seed_eq]
  show (Merge.seedGlobalMarks settings session (Merge.start settings)).globalMarks.items.Perm _
  unfold kept
  dsimp only
  by_cases hg : settings.globalMarks = true
  · rw [Merge.globalMarks_seed hg hr, if_pos hg]
    exact perm_extend Mark.sameName_iff mem_globalMarkNames globalMarkNames_fit hf.keyed.globalMarks
  · unfold Merge.seedGlobalMarks
    rw [if_neg hg, if_neg hg]
    exact .refl _

theorem carries_merged_empty (hr : settings.removable = []) (hf : session.Filed)
    (occasion : Occasion) :
    (session.merged settings occasion .empty).Carries settings occasion.now
      (session.kept settings) where
  globalVariables := globalVariables_merged_empty occasion
  searchPattern := by rw [merged_empty, Merge.seed_eq]; rfl
  substitutePattern := by rw [merged_empty, Merge.seed_eq]; rfl
  replacement := by rw [merged_empty, Merge.seed_eq]; rfl
  jumps := by rw [merged_empty, Merge.seed_eq]; rfl
  globalMarks := globalMarks_merged_empty hr hf occasion
  registers := registers_merged_empty hf occasion
  history := fun type => by
    rw [merged_empty, Merge.seed_eq, Merge.seedHistory, kept, PerHistory.get_ofFn,
      PerHistory.get_ofFn]
    show (HistoryRing.fill ((Merge.start settings).history.get type) true _).items = _
    rw [Merge.get_history_start]
  files := by
    rw [merged_empty, Merge.seed_eq]
    exact files_kept hr
  marks := by
    rw [merged_empty, Merge.seed_eq]
    intro file hfile
    obtain ⟨state, -, hstate, hmarks, -⟩ := of_mem_top hr hf hfile
    rw [hmarks, hstate]
  unknown := by rw [merged_empty, Merge.seed_eq]; rfl

end Carries

section WellFormed

/-- A well-formed session is kept as it is. -/
theorem WellFormed.kept_eq (hk : settings.KeepsAll) (hw : session.WellFormed settings) :
    session.kept settings = session := by
  have ht := hw.tidy hk
  have hhistory : (session.kept settings).history = session.history := by
    apply PerHistory.ext_get
    intro type
    rw [ht.history_kept, tiesReversed_of_ascending (hw.historyAscending type)]
  have hjumps : (session.kept settings).jumps = session.jumps := by
    rw [ht.jumps_kept hk.removable, tiesReversed_of_ascending hw.jumpsAscending]
  have hkept : session.kept settings =
      { session with
        history := (session.kept settings).history
        registers := (session.kept settings).registers
        globalVariables := (session.kept settings).globalVariables
        transient := []
        globalMarks := (session.kept settings).globalMarks
        files := (session.kept settings).files
        jumps := (session.kept settings).jumps
        buffers := settings.bufferList.elim [] (Merge.buffers settings session) } := rfl
  rw [hkept, hhistory, hjumps, ht.registers_kept, ht.globalMarks_kept, ht.globalVariables_kept,
    ht.files_kept hk.removable, ht.buffers, ← ht.transient]

theorem holds_merged_empty (hk : settings.KeepsAll) (hw : session.WellFormed settings)
    (occasion : Occasion) :
    (session.merged settings occasion .empty).Holds settings occasion.now session := by
  have ht := hw.tidy hk
  have hcarries := carries_merged_empty hk.removable ht.filed occasion
  rw [hw.kept_eq hk] at hcarries
  refine ⟨hcarries, ?_⟩
  have hfiles := ht.states_fileMarks hk.removable
  rw [merged_empty, Merge.seed_eq]
  exact hfiles.1 ▸ hfiles.2

end WellFormed

theorem merge_none (occasion : Occasion) (session : Session) :
    session.merge settings occasion none =
    .ok (session.merged settings occasion .empty, .noPreviousFile) := by
  rw [merged_empty]
  rfl

theorem save_first (hk : settings.KeepsAll) (occasion : Occasion) (session : Session) :
    ∃ report, session.save settings occasion none {} =
      ({ bytes := (session.saved settings occasion .empty).bytes }, .ok report) := by
  unfold saved
  dsimp only
  exact save_of_merge hk.maxKbyte (merge_none occasion session)

def Clean (settings : Settings) (session : Session) : Prop :=
  ∀ now entry, session.Offers settings now entry → entry.content.Clean

theorem clean_header (occasion : Occasion) (maxKbyte : UInt64) :
    (Content.header (.new occasion maxKbyte)).Clean := by
  have htext (text : String) (h : Utf8.isValid (Bytes.ofAscii text) = true) :
      (Value.ofAscii text).Clean := .text h
  have hint (n : UInt64) : (Value.ofUInt64 n).Clean := .int _
  intro pair hp
  simp only [Header.new, List.mem_cons, List.not_mem_nil, or_false] at hp
  rcases hp with rfl | rfl | rfl | rfl | rfl
  · exact ⟨htext _ (by decide), htext _ (by decide)⟩
  · exact ⟨htext _ (by decide), htext _ (by decide)⟩
  · exact ⟨htext _ (by decide), hint _⟩
  · exact ⟨htext _ (by decide), hint _⟩
  · exact ⟨htext _ (by decide), htext _ (by decide)⟩

/-- What a first save leaves is read back as it is, if nothing is left out. -/
theorem read_whole (hs : session.Survives settings) (hc : session.Clean settings)
    (occasion : Occasion)
    (hw : ∀ entry ∈ (session.merged settings occasion .empty).entries settings occasion session,
      settings.writes entry = true) :
    let saved := session.saved settings occasion .empty
    saved.read.error = none ∧ saved.read.decoded =
      ((session.merged settings occasion .empty).entries settings occasion session).map .ok := by
  have hclean :
      ∀ entry ∈ (session.merged settings occasion .empty).entries settings occasion session,
      entry.content.Clean := by
    refine forall_merged (hc occasion.now) ?_ (clean_header occasion settings.maxKbyte)
    rw [Stream.entries_empty]
    exact fun entry he => by cases he
  have hstored : ((session.merged settings occasion .empty).entries settings occasion session).map
      Entry.stored = (session.merged settings occasion .empty).entries settings
        occasion session := by
    refine (List.map_congr_left fun entry he => ?_).trans (List.map_id _)
    rw [Entry.stored, (hclean entry he).stored_eq]
    rfl
  obtain ⟨herror, hdecoded⟩ :=
    Stream.decoded_frames settings (sound_merged hs Stream.sound_empty occasion)
  rw [List.filter_eq_self.mpr hw, hstored] at hdecoded
  exact ⟨herror, hdecoded⟩

theorem read_first (hk : settings.KeepsAll) (hw : session.WellFormed settings)
    (occasion : Occasion) : let saved := session.saved settings occasion .empty
    saved.read.error = none ∧ saved.read.decoded =
      ((session.merged settings occasion .empty).entries settings occasion session).map .ok := by
  have hstorable : Stream.empty.IsStorable := by
    unfold Stream.IsStorable
    rw [Stream.entries_empty]
    exact fun entry he => by cases he
  exact read_whole hw.survives hw.clean occasion fun entry he =>
    writes_of_encode hk.registerLines (encode_merged hw.survives hstorable occasion entry he)

end Session

end SessionStore
