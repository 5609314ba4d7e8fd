import SessionStore.Proofs.FirstSave
import SessionStore.Proofs.RestoreProvenance
import SessionStore.Proofs.RestoringFiles

/-! A session survives being written and restored. -/
namespace SessionStore

open Merge (entriesOf patternEntries)
open Recency

namespace Restore

variable {settings : Settings} {options : RestoreOptions} {r : Restore}

def putRing (settings : Settings) (items : HistoryType → List (Timed HistoryItem))
    (rings : PerHistory (Option HistoryRing)) (type : HistoryType) :
    PerHistory (Option HistoryRing) :=
  if items type = [] then rings else rings.set type (some ⟨settings.history.get type, items type⟩)

theorem get_putRing_of_ne {items : HistoryType → List (Timed HistoryItem)}
    {rings : PerHistory (Option HistoryRing)} {type other : HistoryType} (h : other ≠ type) :
    (putRing settings items rings type).get other = rings.get other := by
  unfold putRing
  by_cases hnone : items type = []
  · rw [if_pos hnone]
  · rw [if_neg hnone, PerHistory.get_set_of_ne _ _ h]

theorem get_foldl_putRing {items : HistoryType → List (Timed HistoryItem)}
    {types : List HistoryType} (hn : types.Nodup) (rings : PerHistory (Option HistoryRing))
    (type : HistoryType) :
    (types.foldl (putRing settings items) rings).get type =
      if type ∈ types ∧ items type ≠ [] then some ⟨settings.history.get type, items type⟩
      else rings.get type := by
  induction types generalizing rings with
  | nil => simp
  | cons first rest ih =>
    obtain ⟨hfirst, hrest⟩ := List.nodup_cons.mp hn
    rw [List.foldl_cons, ih hrest]
    by_cases htype : type = first
    · subst htype
      by_cases hnone : items type = []
      · simp [hfirst, hnone, putRing]
      · simp [hfirst, hnone, putRing]
    · rw [get_putRing_of_ne htype]
      simp [htype]

theorem reaches_histories (hi : options.info = true)
    {items : HistoryType → List (Timed HistoryItem)}
    (ht : ∀ type, ∀ item ∈ items type, item.value.type = type)
    (hl : ∀ type, (items type).length ≤ settings.history.get type)
    (hd : ∀ type, ((items type).map fun item => item.value.text).Nodup)
    (ho : ∀ type, OldestFirst (items type)) {types : List HistoryType} (hn : types.Nodup)
    (hr : ∀ type ∈ types, r.ring settings type = ⟨settings.history.get type, []⟩) :
    Reaches settings options (types.flatMap fun type => entriesOf .history (items type)) r
      { r with rings := types.foldl (putRing settings items) r.rings } := by
  induction types generalizing r with
  | nil => exact reaches_nil r
  | cons type rest ih =>
    obtain ⟨htype, hnodup⟩ := List.nodup_cons.mp hn
    obtain ⟨hring, hrest⟩ := List.forall_mem_cons.mp hr
    have hfirst := reaches_history hi hring (ht type) (hl type) (hd type) (ho type)
    have hput : (if items type = [] then r else
        { r with rings := r.rings.set type (some ⟨settings.history.get type, items type⟩) }) =
          { r with rings := putRing settings items r.rings type } := by
      unfold putRing
      by_cases hnone : items type = []
      · rw [if_pos hnone, if_pos hnone]
      · rw [if_neg hnone, if_neg hnone]
    rw [hput] at hfirst
    have hothers : ∀ other ∈ rest,
        ({ r with rings := putRing settings items r.rings type } : Restore).ring
        settings other = ⟨settings.history.get other, []⟩ := by
      intro other hother
      have hne : other ≠ type := fun heq => htype (heq ▸ hother)
      have hsame := hrest other hother
      unfold ring at hsame ⊢
      dsimp only
      rw [get_putRing_of_ne hne]
      exact hsame
    exact hfirst.append (ih hnodup hothers)

/-- What a restore into an empty session holds before it hands back the lists. -/
def gathered (settings : Settings) (options : RestoreOptions) (session : Session)
    (files : List (Path × FileState)) : Restore :=
  let start : Restore :=
    { session := { session with
        history := .uniform [], transient := [], files := .empty, jumps := [], oldFiles := [] }
      jumps := if session.jumps = [] then none else some ⟨settings.jumps, session.jumps⟩ }
  { files.foldl (putFile settings options) start with
    rings := HistoryType.all.foldl (putRing settings session.history.get) (.uniform none) }

theorem reaches_buffers (hi : options.info = true) (now : Timestamp) (session : Session)
    (hr : r.session.buffers = []) :
    Reaches settings options
      (settings.bufferList.toList.map fun limit =>
        ⟨now, .bufferList (Merge.buffers settings session limit)⟩) r
      { r with
        session.buffers := settings.bufferList.elim [] (Merge.buffers settings session) } := by
  cases hb : settings.bufferList with
  | none =>
    rw [Option.elim_none, ← hr]
    exact reaches_nil r
  | some limit => exact reaches_bufferList hi (by rw [hb]; rfl) now _

/-- What a merge carries is what a restore of it gathers. -/
theorem reaches_carried {session kept : Session} (ht : kept.Tidy settings)
    (hb : settings.bufferList.elim [] (Merge.buffers settings session) = kept.buffers)
    (hi : options.info = true) (hm : options.marks = true) {occasion : Occasion} {m : Merge}
    (h : m.Carries settings occasion.now kept) :
    Reaches settings options (m.entries settings occasion session) { session := {} }
      (gathered settings options kept (m.files.states settings.markedFiles)) := by
  have hvariables : m.globalVariables.values =
      kept.globalVariables.entries.map fun v => ⟨occasion.now, { name := v.1, value := v.2 }⟩ := by
    rw [Dictionary.values, h.globalVariables, List.map_map]
    rfl
  have hjumps (r : Restore) (hr : r.jumps = none) : (if kept.jumps = [] then r else
      { r with jumps := some ⟨settings.jumps, kept.jumps⟩ }) =
        { r with
          jumps := if kept.jumps = [] then none else some ⟨settings.jumps, kept.jumps⟩ } := by
    by_cases hnone : kept.jumps = []
    · rw [if_pos hnone, if_pos hnone, ← hr]
    · rw [if_neg hnone, if_neg hnone]
  unfold Merge.entries
  rw [← Merge.flatMap_inhabited, h.searchPattern, h.substitutePattern, h.replacement,
    h.jumps, h.unknown, List.append_nil]
  simp only [h.history]
  have h₁ : Reaches settings options [⟨occasion.now, .header (.new occasion settings.maxKbyte)⟩]
      { session := {} } { session := {} } := ⟨0, rfl⟩
  have h₂ := h₁.append (reaches_buffers hi occasion.now session rfl)
  rw [hb] at h₂
  have h₃ := h₂.append (reaches_variables hi ht.globalVariables hvariables rfl rfl)
  have h₄ := h₃.append (reaches_pattern hi false ht.search rfl)
  have h₅ := h₄.append (reaches_pattern hi true ht.substitute rfl)
  have h₆ := h₅.append (reaches_replacement hi kept.replacement rfl)
  have h₇ := h₆.append (reaches_jumps hm rfl ht.jumpRoom ht.places ht.jumpsOrder)
  rw [hjumps _ rfl] at h₇
  have h₈ := h₇.append (reaches_globalMarks hm ht.globalMarksKept ht.globalMarks h.globalMarks rfl)
  have h₉ := h₈.append (reaches_registers hi ht.registers h.registers rfl)
  have hfiles : ∀ file ∈ (m.files.top settings.markedFiles).filter fun file => file.2.isInhabited,
      file.2.state.WellFormed settings file.1 ∧ file.2.marks = file.2.state.marks.values := by
    intro file hf
    have hmem : (file.1, file.2.state) ∈ kept.files.entries :=
      h.files.mem_iff.mp (List.mem_map_of_mem (f := fun file => (file.1, file.2.state)) hf)
    exact ⟨ht.files _ hmem, h.marks file (List.mem_of_mem_filter hf)⟩
  have hroom : ((m.files.top settings.markedFiles).filter fun file => file.2.isInhabited).length ≤
      settings.markedFiles := by
    have hlength := h.files.length_eq
    rw [FileMarksMap.states, List.length_map] at hlength
    exact hlength ▸ ht.fileRoom
  have hdistinct : (((m.files.top settings.markedFiles).filter fun file => file.2.isInhabited).map
      Prod.fst).Pairwise fun a b => compare a b ≠ .eq :=
    List.pairwise_map.mpr (List.pairwise_map.mp (Table.distinct_of_perm h.files))
  have h₁₀ := h₉.append (reaches_files hm hroom hfiles (Table.fresh_empty hdistinct)
    (Dictionary.fresh_empty (hdistinct.imp Path.beq_eq_false_of_compare)))
  rw [foldl_putFile] at h₁₀
  have htypes : HistoryType.all.Nodup := by decide
  have h₁₁ := h₁₀.append (reaches_histories hi ht.history ht.historyRoom ht.texts
    ht.historyOrder htypes fun type _ => by cases type <;> rfl)
  unfold gathered
  dsimp only
  rw [foldl_putFile]
  exact h₁₁

theorem reaches_entries (hk : settings.KeepsAll) {session : Session}
    (hw : session.WellFormed settings) (hi : options.info = true) (hm : options.marks = true)
    {occasion : Occasion} {m : Merge} (h : m.Holds settings occasion.now session) :
    Reaches settings options (m.entries settings occasion session) { session := {} }
      (gathered settings options session
        ((m.files.top settings.markedFiles).map fun file => (file.1, file.2.state))) := by
  have ht := hw.tidy hk
  have hlength : ((m.files.top settings.markedFiles).filter fun file => file.2.isInhabited).length =
      (m.files.top settings.markedFiles).length := by
    have hkept := h.carries.files.length_eq
    have hall := h.files.length_eq
    rw [FileMarksMap.states, List.length_map] at hkept
    rw [List.length_map] at hall
    rw [hkept, hall]
  have hreaches := reaches_carried ht ht.buffers hi hm h.carries
  rwa [FileMarksMap.states, List.filter_sublist.eq_of_length hlength] at hreaches

theorem finish_gathered_inhabited {session : Session} (ht : session.transient = [])
    (hinhabited : ∀ file ∈ session.files.entries, file.2.marks.entries ≠ [] ∨ file.2.changes ≠ [])
    {files : List (Path × FileState)} (hf : files.Perm session.files.entries) :
    (gathered settings options session files).finish options =
      { session with
        oldFiles := if options.oldFiles then (marked files).map Prod.fst else [] } := by
  have hhistory : PerHistory.ofFn (fun type =>
      ((HistoryType.all.foldl (putRing settings session.history.get) (.uniform none)).get type).elim
        ((PerHistory.uniform []).get type) HistoryRing.items) = session.history := by
    have htypes : HistoryType.all.Nodup := by decide
    have hall (type : HistoryType) : type ∈ HistoryType.all := by cases type <;> decide
    apply PerHistory.ext_get
    intro type
    rw [PerHistory.get_ofFn, get_foldl_putRing htypes]
    by_cases hnone : session.history.get type = []
    · simp [hnone]
    · simp [hall, hnone]
  have hjumps : (if session.jumps = [] then none else some
      (⟨settings.jumps, session.jumps⟩ : JumpList)).elim [] Bounded.items = session.jumps := by
    by_cases hnone : session.jumps = []
    · rw [if_pos hnone, hnone]
      rfl
    · rw [if_neg hnone]
      rfl
  have hmarked := (Table.distinct_of_perm hf).sublist
    (List.filter_sublist (p := fun file => file.2.marks.entries ≠ []))
  have hold : ((marked files).foldl (fun held file => held.insertNew file.1 ())
      (Dictionary.empty : Dictionary Path Unit)).keys =
      (marked files).map Prod.fst := keys_foldl_insertNew hmarked
  unfold gathered
  dsimp only
  rw [foldl_putFile, finish_eq]
  dsimp only
  rw [hhistory, hjumps, foldl_changed hf fun file hm => hinhabited file (hf.mem_iff.mp hm), ← ht]
  by_cases ho : options.oldFiles = true
  · rw [if_pos ho, if_pos ho, if_pos ho, hold]
  · rw [if_neg ho, if_neg ho]

theorem finish_gathered {session : Session} (hw : session.WellFormed settings)
    {files : List (Path × FileState)} (hf : files.Perm session.files.entries) :
    (gathered settings options session files).finish options =
      { session with oldFiles := if options.oldFiles then (marked files).map Prod.fst else [] } :=
  finish_gathered_inhabited hw.transient (fun file hfile => (hw.files file hfile).inhabited) hf

end Restore

namespace Session

theorem restore_of_reaches {settings : Settings} {options : RestoreOptions} {session : Session}
    {stream : Stream} {entries : List Entry} {r : Restore} (he : stream.read.error = none)
    (hd : stream.read.decoded = entries.map .ok)
    (hr : Restore.Reaches settings options entries { session } r) (hreport : r.report = {}) :
    ∃ applied, session.restore settings options stream = (r.finish options, .ok { applied }) := by
  obtain ⟨applied, hreaches⟩ := hr
  have hfold : stream.read.decoded.foldl (Restore.take settings options) { session } =
      r.gain applied := by
    rw [hd, List.foldl_map]
    exact hreaches
  have hgain : (r.gain applied).report = { applied } := by
    unfold Restore.gain
    rw [hreport, Nat.zero_add]
  refine ⟨applied, ?_⟩
  unfold restore
  dsimp only
  rw [hfold, he, hgain]
  rfl

/-- A session survives being written and restored: nothing is left out, and all
that it has is there again. -/
theorem restore_save {settings : Settings} (hk : settings.KeepsAll) {session : Session}
    (hw : session.WellFormed settings) (occasion : Occasion) {options : RestoreOptions}
    (hi : options.info = true) (hm : options.marks = true) :
    ∃ sink report applied oldFiles,
      session.save settings occasion none {} = (sink, .ok report) ∧
        Session.restore settings options {} ⟨sink.bytes, false⟩ =
        ({ session with oldFiles }, .ok { applied }) ∧
        oldFiles.Perm (if options.oldFiles then (Restore.marked session.files.entries).map Prod.fst
          else []) := by
  obtain ⟨report, hsave⟩ := save_first hk occasion session
  obtain ⟨herror, hdecoded⟩ := read_first hk hw occasion
  have hholds := holds_merged_empty hk hw occasion
  have hreaches := Restore.reaches_entries hk hw hi hm hholds
  have hfiles := hholds.files
  generalize ((session.merged settings occasion .empty).files.top settings.markedFiles).map
    (fun file => (file.1, file.2.state)) = files at hreaches hfiles
  have hreport : (Restore.gathered settings options session files).report = {} := by
    unfold Restore.gathered
    dsimp only
    rw [Restore.foldl_putFile]
  obtain ⟨applied, hrestore⟩ := restore_of_reaches herror hdecoded hreaches hreport
  rw [Restore.finish_gathered hw hfiles] at hrestore
  refine ⟨_, report, applied, _, hsave, hrestore, ?_⟩
  by_cases ho : options.oldFiles = true
  · rw [if_pos ho, if_pos ho]
    exact (hfiles.filter _).map _
  · rw [if_neg ho, if_neg ho]

/-- A register, and a file with a mark and a change. -/
theorem restore_save_file :
    let settings : Settings := { maxKbyte := 0, registerLines := 0, bufferList := some 0 }
    let file : Path := .ofAscii "f"
    let session : Session :=
      (({} : Session).setRegister ⟨3, { name := 'a', contents := [[0x78]] }⟩).setLocalMark
      ⟨4, { file, lnum := 2, name := 'b' }⟩ |>.pushChange ⟨5, { file }⟩
    ∃ sink report applied oldFiles,
      session.save settings ⟨9, 1⟩ none {} = (sink, .ok report) ∧
        Session.restore settings { info := true, marks := true, oldFiles := true } {}
        ⟨sink.bytes, false⟩ = ({ session with oldFiles }, .ok { applied }) ∧
        oldFiles.Perm [file] := by
  intro settings file session
  have hkeeps : settings.KeepsAll := ⟨rfl, rfl, rfl, rfl, rfl, rfl⟩
  have hoffers (now : Timestamp) (entry : Entry) (ho : session.Offers settings now entry) :
      entry.content = .bufferList [] ∨
      entry.content = .register { name := 'a', contents := [[0x78]] } ∨
        entry.content = .localMark { file, lnum := 2, name := 'b' } ∨
        entry.content = .change { file } := by
    cases ho with
    | buffers h =>
      cases h
      exact .inl rfl
    | register h =>
      cases List.mem_singleton.mp h
      exact .inr (.inl rfl)
    | localMark hf hmark =>
      cases List.mem_singleton.mp hf
      cases List.mem_singleton.mp hmark
      exact .inr (.inr (.inl rfl))
    | change hf hchange =>
      cases List.mem_singleton.mp hf
      cases List.mem_singleton.mp hchange
      exact .inr (.inr (.inr rfl))
    | globalVariable h | replacement h | jump h | globalMark h => cases h
    | @pattern substitute p h => cases substitute <;> cases h
    | @history type item h => cases type <;> cases h
  have hsurvives : session.Survives settings := by
    have hbuffers : Content.encode (.bufferList []) = .ok [0x90] := rfl
    have hregister : Content.encode (.register { name := 'a', contents := [[0x78]] }) =
        .ok [0x82, 0xA2, 0x72, 0x63, 0x91, 0xA1, 0x78, 0xA1, 0x6E, 0x61] := rfl
    have hmark : Content.encode (.localMark { file, lnum := 2, name := 'b' }) =
        .ok [0x83, 0xA1, 0x66, 0xA1, 0x66, 0xA1, 0x6C, 0x02, 0xA1, 0x6E, 0x62] := rfl
    have hchange : Content.encode (.change { file }) = .ok [0x81, 0xA1, 0x66, 0xA1, 0x66] := rfl
    have hfits (content : Content) (hs : content.Storable) (payload : Bytes)
        (hp : content.encode = .ok payload) (hl : payload.length < 2 ^ 64) : content.Survives :=
      ⟨hs, fun other ho => Except.ok.inj (hp.symm.trans ho) ▸ hl⟩
    intro now entry ho
    rcases hoffers now entry ho with h | h | h | h <;> rw [h]
    · exact hfits _ ⟨by simp, fun buffer hb => by cases hb⟩ _ hbuffers (by simp)
    · exact hfits _ ⟨by simp, by simp, by simp, ⟨by decide, by simp, by simp, by simp⟩⟩ _
        hregister (by simp)
    · exact hfits _ ⟨by decide, by decide, by simp, ⟨by decide, by simp, by simp, by simp⟩⟩ _
        hmark (by simp)
    · exact hfits _ ⟨by decide, by decide, fun _ => rfl, ⟨by decide, by simp, by simp, by simp⟩⟩ _
        hchange (by simp)
  have hclean (now : Timestamp) (entry : Entry) (ho : session.Offers settings now entry) :
      entry.content.Clean := by
    rcases hoffers now entry ho with h | h | h | h <;> rw [h]
    · exact fun buffer hb => by cases hb
    · exact fun pair hp => by cases hp
    · exact fun pair hp => by cases hp
    · exact fun pair hp => by cases hp
  have hfile : FileState.WellFormed settings file
      ⟨Table.empty.insert 'b' ⟨4, { file, lnum := 2, name := 'b' }⟩, [⟨5, { file }⟩]⟩ :=
    { marks := List.forall_mem_singleton.mpr ⟨rfl, rfl⟩
      changes := List.forall_mem_singleton.mpr rfl
      places := List.nodup_singleton _
      oldestFirst := List.pairwise_singleton ..
      room := by decide
      inhabited := .inr (List.cons_ne_nil _ _) }
  have hhistory (type : HistoryType) : session.history.get type = [] := by cases type <;> rfl
  have hwell : session.WellFormed settings :=
    { survives := hsurvives
      clean := hclean
      search := fun p hp => by cases hp
      substitute := fun p hp => by cases hp
      history := fun type item hm => by cases hhistory type ▸ hm
      texts := fun type => by rw [hhistory]; exact .nil
      historyAscending := fun type => by rw [hhistory]; exact .nil
      historyRoom := fun type => by rw [hhistory]; exact Nat.zero_le _
      registers := List.forall_mem_singleton.mpr ⟨rfl, rfl⟩
      globalMarks := fun e he => by cases he
      files := List.forall_mem_singleton.mpr hfile
      fileRoom := by decide
      places := .nil
      jumpsAscending := .nil
      jumpRoom := Nat.zero_le _
      transient := rfl }
  exact restore_save hkeeps hwell ⟨9, 1⟩ rfl rfl

end Session

end SessionStore
