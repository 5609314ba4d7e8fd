import SessionStore.Proofs.FirstSave
import SessionStore.Proofs.RestoringFiles

/-! What is written of a merge on one occasion and on another. -/
namespace SessionStore

open Merge (entriesOf patternEntries fileEntries)
open Recency (inOrder inOrder_of_oldestFirst inOrder_perm)

namespace Entry

/-- The entry as it is written on another occasion: the description of the writer,
and the times of headers, variables and lists of buffers, are of that occasion. -/
def redated (settings : Settings) (occasion : Occasion) (entry : Entry) : Entry :=
  match entry.content with
  | .header _ => ⟨occasion.now, .header (.new occasion settings.maxKbyte)⟩
  | .variable _ | .bufferList _ => ⟨occasion.now, entry.content⟩
  | _ => entry

section Redated

variable (settings : Settings) (occasion : Occasion)

theorem kind_redated (entry : Entry) : (entry.redated settings occasion).kind = entry.kind := by
  obtain ⟨timestamp, content⟩ := entry
  cases content <;> rfl

theorem content_redated {entry : Entry} (h : entry.kind ≠ .header) :
    (entry.redated settings occasion).content = entry.content := by
  obtain ⟨timestamp, content⟩ := entry
  cases content with
  | header => exact absurd rfl h
  | _ => rfl

theorem jump?_redated (entry : Entry) : (entry.redated settings occasion).jump? = entry.jump? := by
  obtain ⟨timestamp, content⟩ := entry
  cases content <;> rfl

theorem line?_redated (type : HistoryType) (entry : Entry) :
    (entry.redated settings occasion).line? type = entry.line? type := by
  obtain ⟨timestamp, content⟩ := entry
  cases content <;> rfl

theorem change?_redated (file : Path) (entry : Entry) :
    (entry.redated settings occasion).change? file = entry.change? file := by
  obtain ⟨timestamp, content⟩ := entry
  cases content <;> rfl

/-- What is picked from entries of any occasion is picked from them on another one. -/
theorem filterMap_redated {β : Type} {pick : Entry → Option β}
    (hp : ∀ entry, pick (entry.redated settings occasion) = pick entry) (entries : List Entry) :
    (entries.map (redated settings occasion)).filterMap pick = entries.filterMap pick := by
  rw [List.filterMap_map]
  exact List.filterMap_congr fun entry _ => hp entry

end Redated

end Entry

namespace Merge

variable {settings : Settings} {session : Session} {m : Merge}

/-- Of the entries that are written, those of one kind are enough to pick from. -/
theorem filterMap_entries {β : Type} {pick : Entry → Option β} {kind : Kind}
    (hp : ∀ entry, entry.kind ≠ kind → pick entry = none) (hu : m.unknown = [])
    (occasion : Occasion) :
    (m.entries settings occasion session).filterMap pick =
      (m.part settings occasion session kind).filterMap pick := by
  have hkind : ∀ entry ∈ m.unknown, entry.kind = .unknown := by simp [hu]
  rw [← filter_kind_entries occasion hkind kind, List.filterMap_filter]
  refine List.filterMap_congr fun entry _ => ?_
  by_cases hk : entry.kind = kind
  · simp [hk]
  · simp [hk, hp entry hk]

theorem jumps_entries (hu : m.unknown = []) (occasion : Occasion) :
    (m.entries settings occasion session).filterMap Entry.jump? = m.jumps.items := by
  have hkind (entry : Entry) (hk : entry.kind ≠ .jump) : entry.jump? = none := by
    obtain ⟨timestamp, content⟩ := entry
    cases content with
    | jump => exact absurd rfl hk
    | _ => rfl
  rw [filterMap_entries hkind hu, part, entriesOf, List.filterMap_map]
  exact List.filterMap_some

theorem lines_entries (hf : ∀ type, ∀ item ∈ (m.history.get type).items, item.value.type = type)
    (hu : m.unknown = []) (occasion : Occasion) (type : HistoryType) :
    (m.entries settings occasion session).filterMap (Entry.line? type) =
      (m.history.get type).items := by
  have hkind (entry : Entry) (hk : entry.kind ≠ .history) : entry.line? type = none := by
    obtain ⟨timestamp, content⟩ := entry
    cases content with
    | history => exact absurd rfl hk
    | _ => rfl
  have hlist (other : HistoryType) : (entriesOf .history (m.history.get other).items).filterMap
      (Entry.line? type) = if other = type then (m.history.get type).items else [] := by
    rw [entriesOf, List.filterMap_map]
    by_cases ht : other = type
    · subst ht
      rw [if_pos rfl]
      refine (List.filterMap_congr fun item hi => ?_).trans List.filterMap_some
      exact if_pos (hf other item hi)
    · rw [if_neg ht]
      refine List.filterMap_eq_nil_iff.mpr fun item hi => ?_
      exact if_neg fun heq => ht ((hf other item hi).symm.trans heq)
  rw [filterMap_entries hkind hu, part, List.filterMap_flatMap]
  simp only [hlist]
  cases type <;> simp [HistoryType.all]

/-- The changes of a file that are written are those that are known of it. -/
theorem changes_flatMap {files : Dictionary Path FileMarks}
    (hf : ∀ file ∈ files.entries, ∀ change ∈ file.2.changes.items, change.value.file = file.1)
    (path : Path) :
    (files.entries.flatMap fun file => entriesOf .change file.2.changes.items).filterMap
      (Entry.change? path) = (files.find? path).elim [] fun f => f.changes.items := by
  obtain ⟨files, distinct⟩ := files
  unfold Dictionary.find?
  dsimp only at hf ⊢
  induction files with
  | nil => rfl
  | cons file rest ih =>
    obtain ⟨hfile, hrest⟩ := List.pairwise_cons.mp distinct
    obtain ⟨hchanges, hothers⟩ := List.forall_mem_cons.mp hf
    rw [List.flatMap_cons, List.filterMap_append, ih hrest hothers, entriesOf, List.filterMap_map]
    by_cases hpath : (file.1 == path) = true
    · have hnone : rest.find? (fun file => file.1 == path) = none := by
        refine List.find?_eq_none.mpr fun other ho hother =>
          Bool.eq_false_iff.mp (hfile other ho) ?_
        exact Path.beq_iff.mpr ((Path.beq_iff.mp hpath).trans (Path.beq_iff.mp hother).symm)
      have hall : file.2.changes.items.filterMap
          (Entry.change? path ∘ fun change => ⟨change.timestamp, .change change.value⟩) =
            file.2.changes.items := by
        refine (List.filterMap_congr fun change hc => ?_).trans List.filterMap_some
        exact if_pos (hchanges change hc ▸ hpath)
      rw [hall, hnone, List.find?_cons_of_pos (by exact hpath)]
      exact List.append_nil _
    · have hnone : file.2.changes.items.filterMap
          (Entry.change? path ∘ fun change => ⟨change.timestamp, .change change.value⟩) = [] := by
        refine List.filterMap_eq_nil_iff.mpr fun change hc => ?_
        exact if_neg (hchanges change hc ▸ hpath)
      rw [hnone, List.find?_cons_of_neg (by exact hpath)]
      rfl

theorem changes_entries {files : Dictionary Path FileMarks}
    (ht : m.files.top settings.markedFiles = files.entries)
    (hf : ∀ file ∈ files.entries, ∀ change ∈ file.2.changes.items, change.value.file = file.1)
    (hu : m.unknown = []) (occasion : Occasion) (path : Path) :
    (m.entries settings occasion session).filterMap (Entry.change? path) =
      (files.find? path).elim [] fun f => f.changes.items := by
  have hkind (entry : Entry) (hk : entry.kind ≠ .change) : entry.change? path = none := by
    obtain ⟨timestamp, content⟩ := entry
    cases content with
    | change => exact absurd rfl hk
    | _ => rfl
  rw [filterMap_entries hkind hu, part, ht]
  exact changes_flatMap hf path

/-- Files that are put in order, without those that nothing is written of, have
the changes of before in order. -/
theorem changes_ordered {files files' : Dictionary Path FileMarks}
    (h : files'.entries = (files.entries.filter fun file => file.2.isInhabited).map
      fun file => (file.1, file.2.ordered)) (path : Path) :
    (files'.find? path).elim [] (fun f => f.changes.items) =
      inOrder ((files.find? path).elim [] fun f => f.changes.items) := by
  cases hfind : files.find? path with
  | none =>
    have habsent := Dictionary.find?_eq_none_iff.mp hfind
    have hnone : files'.find? path = none := by
      refine Dictionary.find?_eq_none_iff.mpr ?_
      rw [h]
      exact List.forall_mem_map.mpr fun file hf => habsent file (List.mem_of_mem_filter hf)
    rw [hnone]
    rfl
  | some f =>
    obtain ⟨file, hfile, rfl⟩ := Option.map_eq_some_iff.mp hfind
    have hpath : (file.1 == path) = true := (List.find?_some hfile :)
    have hmem : file ∈ files.entries := List.mem_of_find?_eq_some hfile
    rw [← files'.find?_congr hpath]
    by_cases hi : file.2.isInhabited = true
    · have hkept : (file.1, file.2.ordered) ∈ files'.entries := by
        rw [h]
        exact List.mem_map_of_mem (f := fun file : Path × FileMarks => (file.1, file.2.ordered))
          (List.mem_filter.mpr ⟨hmem, hi⟩)
      rw [Dictionary.find?_of_mem hkept]
      rfl
    · have hnothing : file.2.changes.items = [] := by
        have hempty := mt FileMarks.isInhabited_iff.mpr hi
        rw [not_or, not_not, not_not] at hempty
        exact hempty.2
      have hnone : files'.find? file.1 = none := by
        refine Dictionary.find?_eq_none_iff.mpr ?_
        rw [h]
        refine List.forall_mem_map.mpr fun other ho => Bool.eq_false_iff.mpr fun hsame => hi ?_
        obtain ⟨ho, hinhabited⟩ := List.mem_filter.mp ho
        have hother : files.find? other.1 = some other.2 := Dictionary.find?_of_mem ho
        rw [files.find?_congr hsame, Dictionary.find?_of_mem hmem] at hother
        exact Option.some.inj hother ▸ hinhabited
      rw [hnone, Option.elim_none, Option.elim_some, hnothing]
      rfl

/-- The changes of files that are put in order are written in order. -/
theorem flatMap_ordered (files : List (Path × FileMarks)) :
    ((files.filter fun file => file.2.isInhabited).map fun file => (file.1, file.2.ordered)).flatMap
        (fun file => fileEntries file.2) =
      (files.filter fun file => file.2.isInhabited).flatMap fun file =>
        fileEntries file.2.ordered :=
  List.flatMap_map ..

theorem flatMap_ordered_perm (files : List (Path × FileMarks)) :
    (((files.filter fun file => file.2.isInhabited).map fun file =>
      (file.1, file.2.ordered)).flatMap
        fun file => fileEntries file.2).Perm (files.flatMap fun file => fileEntries file.2) := by
  have hfile (f : FileMarks) : (fileEntries f.ordered).Perm (fileEntries f) :=
    (((inOrder_perm f.changes.items).map _).append_left _).append_right _
  rw [flatMap_ordered]
  exact (List.Perm.flatMap_left _ fun file _ => hfile file.2).trans
    (.of_eq (flatMap_inhabited files))

theorem flatMap_ordered_of_oldestFirst {files : List (Path × FileMarks)}
    (h : ∀ file ∈ files, Recency.OldestFirst file.2.changes.items) :
    ((files.filter fun file => file.2.isInhabited).map fun file => (file.1, file.2.ordered)).flatMap
        (fun file => fileEntries file.2) = files.flatMap fun file => fileEntries file.2 := by
  rw [flatMap_ordered, ← flatMap_inhabited files]
  refine List.flatMap_congr fun file hf => ?_
  rw [FileMarks.ordered, inOrder_of_oldestFirst (h file (List.mem_of_mem_filter hf))]

/-- What is written of a merge on some occasion, with these jumps, entries of
files and lines in the place of its own, and variables of that time. -/
def entriesWith (settings : Settings) (occasion : Occasion) (session : Session) (m : Merge)
    (jumps : List (Timed Mark)) (files : List Entry)
    (lines : HistoryType → List (Timed HistoryItem)) : List Entry :=
  [⟨occasion.now, .header (.new occasion settings.maxKbyte)⟩] ++
    settings.bufferList.toList.map
    (fun limit => ⟨occasion.now, .bufferList (buffers settings session limit)⟩) ++
    m.globalVariables.values.map (fun v => ⟨occasion.now, .variable v.value⟩) ++
    patternEntries false m.searchPattern ++ patternEntries true m.substitutePattern ++
    entriesOf .replacement m.replacement.toList ++
    entriesOf .jump jumps ++
    entriesOf .globalMark m.globalMarks.items ++
    entriesOf .register m.registers.items ++
    files ++
    HistoryType.all.flatMap (fun type => entriesOf .history (lines type))

theorem entriesWith_perm {occasion : Occasion} {jumps jumps' : List (Timed Mark)}
    {files files' : List Entry} {lines lines' : HistoryType → List (Timed HistoryItem)}
    (hj : jumps.Perm jumps') (hf : files.Perm files')
    (hl : ∀ type, (lines type).Perm (lines' type)) :
    (m.entriesWith settings occasion session jumps files lines).Perm
      (m.entriesWith settings occasion session jumps' files' lines') := by
  have hhistory : (HistoryType.all.flatMap fun type => entriesOf .history (lines type)).Perm
      (HistoryType.all.flatMap fun type => entriesOf .history (lines' type)) :=
    .flatMap_left _ fun type _ => (hl type).map _
  unfold entriesWith
  exact ((((((hj.map _).append_left _).append_right _).append_right _).append hf).append hhistory)

/-- Redated, the entries of a merge are those of another occasion. -/
theorem redated_entries (hu : m.unknown = []) (first second : Occasion) :
    (m.entries settings first session).map (Entry.redated settings second) =
      m.entriesWith settings second session m.jumps.items
        ((m.files.top settings.markedFiles).flatMap fun file => fileEntries file.2)
        fun type => (m.history.get type).items := by
  have heach {α : Type} (content : α → Content) (hc : ∀ timestamp a,
      Entry.redated settings second ⟨timestamp, content a⟩ = ⟨timestamp, content a⟩)
        (items : List (Timed α)) :
      (entriesOf content items).map (Entry.redated settings second) = entriesOf content items := by
    rw [entriesOf, List.map_map]
    exact List.map_congr_left fun item _ => hc item.timestamp item.value
  have hpattern (substitute : Bool) (p : Option (Timed SearchPattern)) :
      (patternEntries substitute p).map (Entry.redated settings second) =
      patternEntries substitute p :=
    heach _ (fun _ _ => rfl) p.toList
  have hfile (f : FileMarks) : (fileEntries f).map (Entry.redated settings second) =
      fileEntries f := by
    unfold fileEntries
    rw [List.map_append, List.map_append, heach .localMark fun _ _ => rfl,
      heach .change fun _ _ => rfl, heach .localMark fun _ _ => rfl]
  have hvariables : (entriesOf .variable m.globalVariables.values).map
      (Entry.redated settings second) =
      m.globalVariables.values.map fun v => ⟨second.now, .variable v.value⟩ := List.map_map
  unfold entries
  simp only [hu, List.append_nil, List.map_append, List.map_flatMap, hpattern, hfile, hvariables,
    heach .replacement fun _ _ => rfl, heach .jump fun _ _ => rfl, heach .globalMark fun _ _ => rfl,
    heach .register fun _ _ => rfl, heach .history fun _ _ => rfl]
  rw [List.map_map]
  rfl

/-- Each entry that is written is the header, the buffers, or what a session has to offer. -/
theorem Carries.forall_entries {P : Entry → Prop} {kept : Session} {occasion : Occasion}
    (h : m.Carries settings occasion.now kept)
    (hh : P ⟨occasion.now, .header (.new occasion settings.maxKbyte)⟩)
    (hb : ∀ limit ∈ settings.bufferList,
      P ⟨occasion.now, .bufferList (buffers settings session limit)⟩)
    (hs : ∀ entry, kept.Offers settings occasion.now entry → P entry) :
    ∀ entry ∈ m.entries settings occasion session, P entry := by
  have hvariables : ∀ v ∈ m.globalVariables.values, P ⟨v.timestamp, .variable v.value⟩ := by
    rw [Dictionary.values, h.globalVariables, List.map_map]
    exact List.forall_mem_map.mpr fun v hv => hs _ (.globalVariable hv)
  -- Only of files that are read back there is something to write.
  have hstate {file : Path × FileMarks} (hf : file ∈ m.files.top settings.markedFiles)
      (hi : file.2.marks ≠ [] ∨ file.2.changes.items ≠ []) : file.2.state ∈ kept.files.values := by
    have hmem : file ∈ (m.files.top settings.markedFiles).filter fun file => file.2.isInhabited :=
      List.mem_filter.mpr ⟨hf, FileMarks.isInhabited_iff.mpr hi⟩
    have hkept : (file.1, file.2.state) ∈ kept.files.entries :=
      h.files.mem_iff.mp (List.mem_map_of_mem (f := fun file => (file.1, file.2.state)) hmem)
    exact List.mem_map_of_mem (f := Prod.snd) hkept
  have hmark {file : Path × FileMarks} (hf : file ∈ m.files.top settings.markedFiles)
      {mark : Timed Mark} (hm : mark ∈ file.2.marks) : P ⟨mark.timestamp, .localMark mark.value⟩ :=
    hs _ (.localMark (hstate hf (.inl (List.ne_nil_of_mem hm))) (h.marks file hf ▸ hm))
  unfold entries patternEntries fileEntries
  simp only [List.forall_mem_append, forall_entriesOf, List.forall_mem_map, Option.mem_toList,
    List.forall_mem_flatMap, List.forall_mem_singleton]
  refine ⟨⟨⟨⟨⟨⟨⟨⟨⟨⟨⟨hh, hb⟩, hvariables⟩, ?_⟩, ?_⟩, ?_⟩, ?_⟩, ?_⟩, ?_⟩, ?_⟩, ?_⟩, ?_⟩
  · rw [h.searchPattern]
    exact fun p hp => hs _ (.pattern (show p ∈ kept.pattern false from hp))
  · rw [h.substitutePattern]
    exact fun p hp => hs _ (.pattern (show p ∈ kept.pattern true from hp))
  · exact fun r hr => hs _ (.replacement (h.replacement ▸ hr))
  · exact fun jump hj => hs _ (.jump (h.jumps ▸ hj))
  · exact fun mark hm => hs _ (.globalMark (h.globalMarks.mem_iff.mp hm))
  · exact fun register hr => hs _ (.register (h.registers.mem_iff.mp hr))
  · refine fun file hf => ⟨⟨fun mark hm => ?_, fun change hc => ?_⟩, fun mark hm => ?_⟩
    · obtain ⟨name, -, hn⟩ := List.mem_filterMap.mp hm
      exact hmark hf (List.mem_of_find?_eq_some hn)
    · have hchange : change ∈ file.2.state.changes := (inOrder_perm _).mem_iff.mpr hc
      exact hs _ (.change (hstate hf (.inr (List.ne_nil_of_mem hc))) hchange)
    · exact hmark hf (List.mem_of_mem_filter hm)
  · exact fun type _ item hi => hs _ (.history (h.history type ▸ hi))
  · rw [h.unknown]
    simp

end Merge

end SessionStore
