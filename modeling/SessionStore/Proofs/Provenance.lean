import SessionStore.Proofs.Collection.FileMarks
import SessionStore.Proofs.Collection.HistoryRing
import SessionStore.Proofs.Merging

/-! A merge makes nothing up: what it writes is from the session or from the file. -/
namespace SessionStore

open Merge (entriesOf patternEntries)
open Msgpack (Value)

/-- The entries that a session has to offer to a file. -/
inductive Session.Offers (settings : Settings) (now : Timestamp) (session : Session) : Entry → Prop
  | buffers {limit : Nat} (h : limit ∈ settings.bufferList) :
    Offers settings now session ⟨now, .bufferList (Merge.buffers settings session limit)⟩
  | globalVariable {v : Bytes × Value} (h : v ∈ session.globalVariables.entries) :
    Offers settings now session ⟨now, .variable { name := v.1, value := v.2 }⟩
  | pattern {substitute : Bool} {p : Timed SearchPattern} (h : p ∈ session.pattern substitute) :
    Offers settings now session ⟨p.timestamp,
      .searchPattern { p.value with isSubstitute := substitute }⟩
  | replacement {r : Timed Replacement} (h : r ∈ session.replacement) :
    Offers settings now session ⟨r.timestamp, .replacement r.value⟩
  | jump {mark : Timed Mark} (h : mark ∈ session.jumps) :
    Offers settings now session ⟨mark.timestamp, .jump mark.value⟩
  | globalMark {mark : Timed Mark} (h : mark ∈ session.globalMarks.values) :
    Offers settings now session ⟨mark.timestamp, .globalMark mark.value⟩
  | register {r : Timed Register} (h : r ∈ session.registers.values) :
    Offers settings now session ⟨r.timestamp, .register r.value⟩
  | localMark {file : FileState} {mark : Timed Mark} (hf : file ∈ session.files.values)
    (hm : mark ∈ file.marks.values) :
    Offers settings now session ⟨mark.timestamp, .localMark mark.value⟩
  | change {file : FileState} {mark : Timed Mark} (hf : file ∈ session.files.values)
    (hm : mark ∈ file.changes) : Offers settings now session ⟨mark.timestamp, .change mark.value⟩
  | history {type : HistoryType} {item : Timed HistoryItem} (h : item ∈ session.history.get type) :
    Offers settings now session ⟨item.timestamp, .history item.value⟩

def Content.files : Content → List Path
  | .globalMark mark | .jump mark | .localMark mark | .change mark => [mark.file]
  | .bufferList buffers => buffers.map Buffer.file
  | _ => []

def Entry.NamesRemovable (settings : Settings) (entry : Entry) : Prop :=
  ∃ file ∈ entry.content.files, settings.isRemovable file = true

/-- The entry is a local mark or a change that the session has under a file that is not
removable, as it is spelled there. The entry itself may spell its file in another way. -/
def Session.Shelters (settings : Settings) (session : Session) (entry : Entry) : Prop :=
  ∃ file ∈ session.markedFiles, settings.isRemovable file = false ∧
    ((∃ mark ∈ session.localMarks file, entry = ⟨mark.timestamp, .localMark mark.value⟩) ∨
      ∃ change ∈ session.changesOf file, entry = ⟨change.timestamp, .change change.value⟩)

/-- What a save takes of what the session has to offer. -/
def Session.Submits (settings : Settings) (now : Timestamp) (session : Session) (entry : Entry) :
    Prop :=
  session.Offers settings now entry ∧
    (entry.NamesRemovable settings → session.Shelters settings entry)

theorem Session.Offers.submits {settings : Settings} {now : Timestamp} {session : Session}
    {entry : Entry} (h : session.Offers settings now entry)
    (hf : ∀ file ∈ entry.content.files, settings.isRemovable file = false) :
    session.Submits settings now entry := by
  refine ⟨h, fun ⟨file, hm, hr⟩ => ?_⟩
  rw [hf file hm] at hr
  cases hr

namespace Merge

/-- All parts of a merge have a property, as the entries that they are written as. -/
structure Within (P : Entry → Prop) (m : Merge) : Prop where
  globalVariables : ∀ v ∈ m.globalVariables.values, P ⟨v.timestamp, .variable v.value⟩
  search : ∀ p ∈ m.searchPattern,
    P ⟨p.timestamp, .searchPattern { p.value with isSubstitute := false }⟩
  substitute : ∀ p ∈ m.substitutePattern,
    P ⟨p.timestamp, .searchPattern { p.value with isSubstitute := true }⟩
  replacement : ∀ r ∈ m.replacement, P ⟨r.timestamp, .replacement r.value⟩
  jumps : ∀ jump ∈ m.jumps.items, P ⟨jump.timestamp, .jump jump.value⟩
  globalMarks : ∀ mark ∈ m.globalMarks.items, P ⟨mark.timestamp, .globalMark mark.value⟩
  registers : ∀ register ∈ m.registers.items, P ⟨register.timestamp, .register register.value⟩
  files : ∀ file ∈ m.files.files.values,
    file.Within (fun mark => P ⟨mark.timestamp, .localMark mark.value⟩)
    fun change => P ⟨change.timestamp, .change change.value⟩
  history : ∀ type, ∀ item ∈ (m.history.get type).items, P ⟨item.timestamp, .history item.value⟩
  unknown : ∀ entry ∈ m.unknown, P entry

variable {P : Entry → Prop} {settings : Settings} {m : Merge}

theorem forall_entriesOf {α : Type} {content : α → Content} {items : List (Timed α)} :
    (∀ entry ∈ entriesOf content items, P entry) ↔
      ∀ item ∈ items, P ⟨item.timestamp, content item.value⟩ :=
  List.forall_mem_map

theorem within_start (settings : Settings) : (start settings).Within P := by
  constructor <;> simp [start, Dictionary.values, Dictionary.empty]

theorem keepNewer_eq {α : Type} {held : Option (Timed α)} {incoming : Timed α} {Q : Timed α → Prop}
    (hh : ∀ a ∈ held, Q a) (hi : Q incoming) : ∀ a ∈ Timed.keepNewer held incoming, Q a := by
  unfold Timed.keepNewer
  split
  · intro a ha
    exact Option.some.inj ha ▸ hi
  · exact hh

theorem Within.step {timestamp : Timestamp} {content : Content} {m' : Merge} (h : m.Within P)
    (hstep : Step settings m timestamp content m') (he : P ⟨timestamp, content⟩) : m'.Within P := by
  cases hstep with
  | passed => exact h
  | @searchPattern p hs =>
    have hwritten : P ⟨timestamp, .searchPattern { p with isSubstitute := false }⟩ := by
      rw [← hs]
      exact he
    exact { h with search := keepNewer_eq h.search hwritten }
  | @substitutePattern p hs =>
    have hwritten : P ⟨timestamp, .searchPattern { p with isSubstitute := true }⟩ := by
      rw [← hs]
      exact he
    exact { h with substitute := keepNewer_eq h.substitute hwritten }
  | replacement => exact { h with replacement := keepNewer_eq h.replacement he }
  | history item =>
    refine { h with history := fun type line hl => ?_ }
    dsimp only at hl
    by_cases ht : type = item.type
    · subst ht
      rw [PerHistory.get_set_self] at hl
      exact HistoryRing.forall_insert (h.history _) he line hl
    · rw [PerHistory.get_set_of_ne _ _ ht] at hl
      exact h.history type line hl
  | register => exact { h with registers := Bounded.forall_insert h.registers he }
  | globalVariable =>
    refine { h with globalVariables := Dictionary.forall_alter h.globalVariables fun held hh => ?_ }
    cases held with
    | none => exact he
    | some held => exact hh held rfl
  | globalMark => exact { h with globalMarks := Bounded.forall_insert h.globalMarks he }
  | jump => exact { h with jumps := Bounded.forall_insert h.jumps he }
  | localMark =>
    exact { h with
      files :=
        FileMarksMap.forall_modify h.files (FileMarks.within_new _) fun _ hh => hh.insertMark he }
  | change =>
    exact { h with
      files := FileMarksMap.forall_modify h.files (FileMarks.within_new _) fun _ hh =>
        hh.insertChange he }
  | unknown id payload =>
    have hunknown : ∀ entry ∈ m.unknown ++ [⟨timestamp, .unknown id payload⟩], P entry :=
      List.forall_mem_append.mpr ⟨h.unknown, List.forall_mem_singleton.mpr he⟩
    exact { h with unknown := hunknown }

theorem Passes.of_namesRemovable {entry : Entry} (h : entry.NamesRemovable settings) :
    Passes settings entry.content := by
  obtain ⟨timestamp, content⟩ := entry
  obtain ⟨file, hf, hr⟩ := h
  cases content with
  | bufferList => trivial
  | globalMark mark =>
    cases List.mem_singleton.mp hf
    exact .inr (.inr hr)
  | jump mark =>
    cases List.mem_singleton.mp hf
    exact hr
  | localMark mark | change mark =>
    cases List.mem_singleton.mp hf
    exact .inr hr
  | _ => cases hf

theorem Within.foldl_absorb (h : m.Within P) {entries : List Entry}
    (he : ∀ entry ∈ entries, ¬entry.NamesRemovable settings → P entry) :
    (entries.foldl (Merge.absorb settings) m).Within P := by
  induction entries generalizing m with
  | nil => exact h
  | cons entry rest ih =>
    obtain ⟨hfirst, hrest⟩ := List.forall_mem_cons.mp he
    rw [List.foldl_cons]
    by_cases hr : entry.NamesRemovable settings
    · rw [(absorb_step settings m entry).eq_of_passes (.of_namesRemovable hr)]
      exact ih h hrest
    · exact ih (h.step (absorb_step settings m entry) (hfirst hr)) hrest

section Seed

variable {now : Timestamp} {session : Session}
  (hs : ∀ entry, session.Submits settings now entry → P entry)

include hs

theorem Within.seedVariables (h : m.Within P) :
    (m.seedVariables settings now session).Within P := by
  unfold Merge.seedVariables
  split
  · have hsubmitted : ∀ v ∈ session.globalVariables.entries,
        P ⟨now, .variable { name := v.1, value := v.2 }⟩ :=
      fun v hv => hs _ (Session.Offers.submits (.globalVariable hv) (List.forall_mem_nil _))
    exact { h with
      globalVariables := List.foldlRecOn session.globalVariables.entries _
        (motive := fun held : Dictionary Bytes (Timed Variable) =>
          ∀ v ∈ held.values, P ⟨v.timestamp, .variable v.value⟩) h.globalVariables
        fun held hh v hv => Dictionary.forall_alter hh fun _ _ => hsubmitted v hv }
  · exact h

theorem Within.seedRegisters (h : m.Within P) : (m.seedRegisters session).Within P := by
  have hsubmitted : ∀ register ∈ session.registers.values,
      P ⟨register.timestamp, .register register.value⟩ :=
    fun register hm => hs _ (Session.Offers.submits (.register hm) (List.forall_mem_nil _))
  exact { h with
    registers := Bounded.forall_extend h.registers fun register hm =>
      hsubmitted register (List.mem_of_mem_filter hm) }

theorem Within.seedGlobalMarks (h : m.Within P) :
    (m.seedGlobalMarks settings session).Within P := by
  unfold Merge.seedGlobalMarks
  split
  · refine { h with globalMarks := Bounded.forall_extend h.globalMarks fun mark hm => ?_ }
    obtain ⟨hmark, hkept⟩ := List.mem_filter.mp hm
    obtain ⟨-, hfile⟩ := Bool.and_eq_true_iff.mp hkept
    have hfile : settings.isRemovable mark.value.file = false := by simpa using hfile
    exact hs _ (Session.Offers.submits (.globalMark hmark) (List.forall_mem_singleton.mpr hfile))
  · exact h

/-- A file's marks and changes are taken if the file is not removable, however
they spell it themselves. -/
theorem submits_file {file : Path} (hf : file ∈ session.markedFiles)
    (hr : settings.isRemovable file = false) :
    (∀ mark ∈ session.localMarks file, P ⟨mark.timestamp, .localMark mark.value⟩) ∧
      ∀ change ∈ session.changesOf file, P ⟨change.timestamp, .change change.value⟩ := by
  refine ⟨fun mark hm => hs _ ⟨?_, fun _ => ⟨file, hf, hr, .inl ⟨mark, hm, rfl⟩⟩⟩,
    fun change hc => hs _ ⟨?_, fun _ => ⟨file, hf, hr, .inr ⟨change, hc, rfl⟩⟩⟩⟩
  · unfold Session.localMarks Table.find? at hm
    cases hfind : session.files.entries.find? fun e => compare e.1 file == .eq with
    | none => simp [hfind] at hm
    | some e =>
      rw [hfind] at hm
      exact .localMark (List.mem_map_of_mem (List.mem_of_find?_eq_some hfind)) hm
  · unfold Session.changesOf Table.find? at hc
    cases hfind : session.files.entries.find? fun e => compare e.1 file == .eq with
    | none => simp [hfind] at hc
    | some e =>
      rw [hfind] at hc
      exact .change (List.mem_map_of_mem (List.mem_of_find?_eq_some hfind)) hc

theorem Within.seedFiles (h : m.Within P) : (m.seedFiles settings session).Within P := by
  unfold Merge.seedFiles
  split
  · exact h
  · have hpaths : ∀ path ∈ session.markedFiles.filter fun file => !settings.isRemovable file,
        path ∈ session.markedFiles ∧ settings.isRemovable path = false := by
      intro path hm
      obtain ⟨hmarked, hr⟩ := List.mem_filter.mp hm
      exact ⟨hmarked, by simpa using hr⟩
    generalize session.markedFiles.filter (fun file => !settings.isRemovable file) = paths at hpaths
    refine { h with files := ?_ }
    dsimp only
    have hfiles := h.files
    generalize m.files = files at hfiles ⊢
    induction paths generalizing files with
    | nil => exact hfiles
    | cons path rest ih =>
      obtain ⟨⟨hmarked, hr⟩, hrest⟩ := List.forall_mem_cons.mp hpaths
      obtain ⟨hmarks, hchanges⟩ := submits_file hs hmarked hr
      refine ih hrest _
        (FileMarksMap.forall_modify hfiles (FileMarks.within_new _) fun held hh => ?_)
      exact hh.extend hmarks hchanges

theorem Within.seedJumps (h : m.Within P) : (m.seedJumps settings session).Within P := by
  refine { h with jumps := Bounded.forall_fill_wanted h.jumps fun jump hm hwanted => ?_ }
  have hfile : settings.isRemovable jump.value.file = false := by simpa using hwanted
  exact hs _ (Session.Offers.submits (.jump (List.mem_reverse.mp hm))
    (List.forall_mem_singleton.mpr hfile))

theorem Within.seed (h : m.Within P) : (m.seed settings now session).Within P := by
  have hpatterns : Within P { m with
      searchPattern := session.searchPattern
      substitutePattern := session.substitutePattern
      replacement := session.replacement } :=
    { h with
      search := fun p hp =>
        hs _ (Session.Offers.submits (.pattern (show p ∈ session.pattern false from hp))
          (List.forall_mem_nil _))
      substitute := fun p hp =>
        hs _ (Session.Offers.submits (.pattern (show p ∈ session.pattern true from hp))
          (List.forall_mem_nil _))
      replacement :=
        fun _ hr => hs _ (Session.Offers.submits (.replacement hr) (List.forall_mem_nil _)) }
  exact ((((hpatterns.seedVariables hs).seedRegisters hs).seedGlobalMarks hs).seedFiles
    hs).seedJumps hs

theorem Within.seedHistory (h : m.Within P) : (m.seedHistory session).Within P := by
  have hhistory (type : HistoryType) : ∀ item ∈ ((m.seedHistory session).history.get type).items,
      P ⟨item.timestamp, .history item.value⟩ := by
    unfold Merge.seedHistory
    rw [PerHistory.get_ofFn]
    exact HistoryRing.forall_fill (h.history type) fun item hi =>
      hs _ (Session.Offers.submits (.history (List.mem_reverse.mp hi)) (List.forall_mem_nil _))
  exact { h with history := hhistory }

/-- The buffers that are written are in files that are kept. -/
theorem submits_buffers {limit : Nat} (hl : limit ∈ settings.bufferList) :
    P ⟨now, .bufferList (buffers settings session limit)⟩ := by
  refine hs _ (Session.Offers.submits (.buffers hl) (List.forall_mem_map.mpr fun buffer hb => ?_))
  have hkept : buffer ∈ session.buffers.filter fun buffer => !settings.isRemovable buffer.file := by
    unfold buffers at hb
    dsimp only at hb
    split at hb
    · exact hb
    · exact List.mem_of_mem_take hb
  simpa using (List.mem_filter.mp hkept).2

end Seed

theorem Within.entries (h : m.Within P) {occasion : Occasion} {session : Session}
    (hh : P ⟨occasion.now, .header (.new occasion settings.maxKbyte)⟩)
    (hb : ∀ limit ∈ settings.bufferList,
      P ⟨occasion.now, .bufferList (buffers settings session limit)⟩) :
    ∀ entry ∈ m.entries settings occasion session, P entry := by
  unfold Merge.entries patternEntries fileEntries
  simp only [List.forall_mem_append, forall_entriesOf, List.forall_mem_map, Option.mem_toList,
    List.forall_mem_flatMap, List.forall_mem_singleton]
  refine ⟨⟨⟨⟨⟨⟨⟨⟨⟨⟨⟨hh, hb⟩, h.globalVariables⟩, h.search⟩, h.substitute⟩, h.replacement⟩, h.jumps⟩,
    h.globalMarks⟩, h.registers⟩, ?_⟩, fun type _ => h.history type⟩, h.unknown⟩
  intro file hf
  have hfile := h.files _ (FileMarksMap.mem_of_mem_top hf)
  refine ⟨⟨fun mark hm => ?_, hfile.changes⟩,
    fun mark hm => hfile.marks mark (List.mem_of_mem_filter hm)⟩
  obtain ⟨name, -, hn⟩ := List.mem_filterMap.mp hm
  exact hfile.marks mark (List.mem_of_find?_eq_some hn)

end Merge

end SessionStore
