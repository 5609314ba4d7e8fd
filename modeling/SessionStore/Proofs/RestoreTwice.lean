import SessionStore.Proofs.Collection.TieFree
import SessionStore.Proofs.RestoreCounts
import SessionStore.Proofs.RestoredNewest

/-! A stream that is restored once more finds everything as it left it. -/
namespace SessionStore

open Recency

namespace HistoryRing

variable {ring : HistoryRing} {n : Nat} {lines stored : List (Timed HistoryItem)}

theorem OneEach.fill_self (h : ring.OneEach n) (ht : TieFree HistoryItem.text ring.items)
    (preferIncoming : Bool) :
    HistoryRing.fill ⟨n, []⟩ preferIncoming ring.items.reverse = ring := by
  rw [fill_reverse h.room h.distinct,
    tiesReversed_of_ascending (ht.ascending h.oldestFirst h.distinct), ← h.capacity]

theorem OneEach.late (h : ring.OneEach n) (ht : TieFree HistoryItem.text (ring.items ++ stored)) :
    ∀ line ∈ stored, Late n
      (facts HistoryItem.text (stored.foldl (fun ring line =>
        (ring.insert line false).1) ring).items)
      line.value.text line.timestamp := by
  obtain ⟨rfl, hroom, hdistinct, horder⟩ := h
  have hheld : NewestKept ring.capacity (fun k t => (k, t) ∈ facts HistoryItem.text ring.items)
      (facts HistoryItem.text ring.items) := newestKept_self hroom hdistinct
  have hnewest : NewestKept ring.capacity (fun k t => (k, t) ∈
      facts HistoryItem.text (ring.items ++ stored)) _ :=
    (newestKept_foldl_insert hheld horder false stored).congr fun k t => by simp [facts]
  exact fun line hl => ht.late hnewest (mem_facts.mpr ⟨line, List.mem_append_right _ hl, rfl⟩)

/-- What was put together of two lists of lines is filled again from itself, and
the second list comes too late then. -/
theorem settled (ht : TieFree HistoryItem.text (lines ++ stored)) :
    let settled := stored.foldl (fun ring line => (ring.insert line false).1)
      (HistoryRing.fill ⟨n, []⟩ false lines.reverse)
    HistoryRing.fill ⟨n, []⟩ false settled.items.reverse = settled ∧
      settled.items.length ≤ settled.capacity ∧
      ∀ line ∈ stored, Late settled.capacity (facts HistoryItem.text settled.items) line.value.text
      line.timestamp := by
  have hstart := (oneEach_empty n).fill false lines.reverse
  have hlines : ∀ line ∈ (HistoryRing.fill ⟨n, []⟩ false lines.reverse).items,
      line ∈ lines ++ stored :=
    forall_fill (fun _ hl => by cases hl) fun _ hl =>
      List.mem_append_left _ (List.mem_reverse.mp hl)
  have hfree := ht.subset (List.append_subset.mpr ⟨hlines, List.subset_append_right ..⟩)
  have hsettled := hstart.foldl_insert stored false
  have hmem : ∀ line ∈ (stored.foldl (fun ring line => (ring.insert line false).1)
      (HistoryRing.fill ⟨n, []⟩ false lines.reverse)).items, line ∈ lines ++ stored :=
    forall_foldl_insert hlines fun _ hl => List.mem_append_right _ hl
  intro settled
  refine ⟨hsettled.fill_self (ht.subset hmem) false, ?_, fun line hl => ?_⟩
  · exact hsettled.room.trans_eq hsettled.capacity.symm
  · rw [hsettled.capacity]
    exact hstart.late hfree line hl

end HistoryRing

namespace Bounded

variable {α κ : Type} {same : α → α → Bool} {key : α → κ} {c : Bounded α same} {n : Nat}
  {items stored : List (Timed α)} (hsame : ∀ a b, same a b = true ↔ key a = key b)
include hsame

/-- What a collection has taken in comes too late for another one that holds the same afterwards. -/
theorem OneEach.late (h : c.OneEach key n) (hc : ∀ item ∈ c.items, item ∈ items ++ stored)
    (ht : TieFree key (items ++ stored)) {again : Bounded α same} (hroom : again.capacity = n)
    (hperm : again.items.Perm (c.extend stored).items) :
    ∀ item ∈ stored, Late again.capacity (facts key again.items) (key item.value)
      item.timestamp := by
  obtain ⟨rfl, hlength, hdistinct⟩ := h
  have hfree := ht.subset (List.append_subset.mpr ⟨hc, List.subset_append_right ..⟩)
  have hnewest : NewestKept c.capacity (fun k t => (k, t) ∈ facts key (c.items ++ stored))
      (facts key (c.extend stored).items) :=
    (newestKept_extend hsame (newestKept_self hlength hdistinct) stored).congr fun k t => by
      simp [facts]
  intro item hi
  rw [hroom]
  exact (hfree.late hnewest (mem_facts.mpr ⟨item, List.mem_append_right _ hi, rfl⟩)).perm
    (hperm.map _)

/-- What was put together of two lists of items is filled again from itself, but
for the order, and the second list comes too late then. -/
theorem settled_fill (ht : TieFree key (items ++ stored)) :
    let settled := ((⟨n, []⟩ : Bounded α same).fill (fun _ => true) items.reverse).extend stored
    let again : Bounded α same :=
      (⟨n, []⟩ : Bounded α same).fill (fun _ => true) settled.items.reverse
    again.items.Perm settled.items ∧
      ∀ item ∈ stored, Late again.capacity (facts key again.items) (key item.value)
      item.timestamp := by
  have hempty : (⟨n, []⟩ : Bounded α same).OneEach key n := oneEach_empty key n
  have hstart := hempty.fill hsame (fun _ => true) items.reverse
  have hitems : ∀ item ∈ ((⟨n, []⟩ : Bounded α same).fill (fun _ => true) items.reverse).items,
      item ∈ items ++ stored :=
    forall_fill (fun _ hi => by cases hi) fun _ hi =>
      List.mem_append_left _ (List.mem_reverse.mp hi)
  have hsettled := hstart.extend hsame stored
  intro settled again
  have hperm : again.items.Perm settled.items := by
    show ((⟨n, []⟩ : Bounded α same).fill _ settled.items.reverse).items.Perm settled.items
    rw [fill_reverse hsame (fun _ _ => rfl) hsettled.room hsettled.distinct]
    exact tiesReversed_perm settled.items
  exact ⟨hperm, hstart.late hsame hitems ht (capacity_fill ..) hperm⟩

theorem settled_extend (ht : TieFree key (items ++ stored)) :
    let settled := ((⟨n, []⟩ : Bounded α same).extend items).extend stored
    let again : Bounded α same := (⟨n, []⟩ : Bounded α same).extend settled.items
    again.items.Perm settled.items ∧
      ∀ item ∈ stored, Late again.capacity (facts key again.items) (key item.value)
      item.timestamp := by
  have hempty : (⟨n, []⟩ : Bounded α same).OneEach key n := oneEach_empty key n
  have hstart := hempty.extend hsame items
  have hitems : ∀ item ∈ ((⟨n, []⟩ : Bounded α same).extend items).items, item ∈ items ++ stored :=
    forall_extend (fun _ hi => by cases hi) fun _ hi => List.mem_append_left _ hi
  have hsettled := hstart.extend hsame stored
  intro settled again
  have hperm : again.items.Perm settled.items := by
    show ((⟨n, []⟩ : Bounded α same).extend settled.items).items.Perm settled.items
    rw [extend_new hsame (by simpa using hsettled.room) (by simpa using hsettled.distinct)]
    exact inOrder_perm settled.items
  exact ⟨hperm, hstart.late hsame hitems ht (capacity_extend ..) hperm⟩

end Bounded

namespace Restore

variable {settings : Settings} {options : RestoreOptions} {session : Session} {stream : Stream}

theorem ring_start (settings : Settings) (session : Session) (type : HistoryType) :
    ring settings { session } type =
      HistoryRing.fill { capacity := settings.history.get type } false
        (session.history.get type).reverse := by
  unfold ring
  rw [PerHistory.get_uniform, Option.getD_none]

theorem jumpList_start (settings : Settings) (session : Session) : jumpList settings { session } =
    Bounded.fill { capacity := settings.jumps } (fun _ => true) session.jumps.reverse := rfl

theorem changeList_start (settings : Settings) (session : Session) (file : Path) :
    changeList settings { session } file =
      Bounded.extend { capacity := settings.changes } (session.changesOf file) := rfl

/-- The value that a restore left wins over all those of the stream. -/
theorem ChangedBy.not_wins {α : Type} {get : Session → Option (Timed α)}
    {pick : Entry → Option (Timed α)} {on : Bool}
    (h : ChangedBy settings options get pick (replace options on)) (hforce : options.force = false)
    {entry : Entry} (he : entry ∈ stream.entries) {item : Timed α} (hp : pick entry = some item) :
    (on && wins options item.timestamp (get (session.restore settings options stream).1)) =
      false := by
  cases on with
  | false => rfl
  | true =>
    have hchosen := h.chosen session stream
    rw [if_pos rfl] at hchosen
    have hitem : item ∈ stream.entries.filterMap pick := List.mem_filterMap.mpr ⟨entry, he, hp⟩
    obtain ⟨newest, hheld, hle⟩ := (hchosen.newest hforce).exists_le (List.mem_append_right _ hitem)
    rw [hheld, wins, hforce]
    simpa using hle

theorem hasVariable_restore (hon : (options.info && settings.globalVariables) = true)
    {entry : Entry} (he : entry ∈ stream.entries) {v : Variable}
    (hv : entry.content = .variable v) :
    (session.restore settings options stream).1.hasVariable v.name = true := by
  have hstep (held : Option Msgpack.Value × List Bytes) (value : Msgpack.Value) :
      let held' := replaceVariable settings options v.name held value
      (held'.1.isSome || held'.2.contains v.name) = true := by
    unfold replaceVariable
    rw [hon, Bool.true_and]
    split
    · rfl
    · next hkept =>
      rw [Bool.or_eq_true, not_or] at hkept
      simpa only [Bool.not_eq_true', Bool.not_eq_false] using hkept.2
  have hvalue : v.value ∈ stream.valuesOf v.name := by
    refine List.mem_filterMap.mpr ⟨entry, he, ?_⟩
    rw [Entry.valueOf?, hv]
    exact if_pos rfl
  have hrestore := (changedBy_variable settings options v.name).restore session stream
  obtain hnil | ⟨front, last, hvalues⟩ := List.eq_nil_or_concat (stream.valuesOf v.name)
  · rw [hnil] at hvalue
    cases hvalue
  · rw [show stream.entries.filterMap (Entry.valueOf? v.name) = _ from hvalues,
      List.concat_eq_append, List.foldl_concat] at hrestore
    have hlast := hstep (front.foldl (replaceVariable settings options v.name)
      (session.globalVariables.find? v.name, session.transient)) last
    rw [← hrestore] at hlast
    rw [Session.hasVariable_eq]
    exact hlast

section Again

variable (hforce : options.force = false)
  (hh : ∀ type, TieFree HistoryItem.text (session.history.get type ++ stream.history type))
  (hj : TieFree Mark.place (session.jumps ++ stream.jumps))
  (hc : ∀ file, TieFree Mark.place (session.changesOf file ++ stream.changesOf file))
include hforce hh hj hc

/-- No entry of the stream, the lists of buffers apart, would change what a
restore of the stream left. -/
theorem applies_again {entry : Entry} (he : entry ∈ stream.entries) (hb : entry.buffers? = none) :
    applies settings options { session := (session.restore settings options stream).1 } entry =
      false := by
  obtain ⟨timestamp, content⟩ := entry
  unfold applies
  cases content with
  | header | unknown => rfl
  | bufferList => cases hb
  | searchPattern p =>
    have hpick : Entry.pattern? p.isSubstitute ⟨timestamp, .searchPattern p⟩ =
        some ⟨timestamp, p⟩ := if_pos rfl
    exact (changedBy_pattern settings options p.isSubstitute).not_wins hforce he hpick
  | replacement p => exact (changedBy_replacement settings options).not_wins hforce he rfl
  | register register =>
    have hpick : Entry.register? register.name ⟨timestamp, .register register⟩ =
        some ⟨timestamp, register⟩ :=
      if_pos rfl
    exact (changedBy_register settings options register.name).not_wins hforce he hpick
  | globalMark mark =>
    have hpick : Entry.globalMark? mark.name ⟨timestamp, .globalMark mark⟩ =
        some ⟨timestamp, mark⟩ := if_pos rfl
    exact (changedBy_globalMark settings options mark.name).not_wins hforce he hpick
  | localMark mark =>
    have hpick : Entry.localMark? mark.file mark.name ⟨timestamp, .localMark mark⟩ =
        some ⟨timestamp, mark⟩ :=
      if_pos ⟨BEq.rfl, rfl⟩
    exact (changedBy_localMark settings options mark.file mark.name).not_wins hforce he hpick
  | «variable» v =>
    dsimp only
    by_cases hon : (options.info && settings.globalVariables) = true
    · rw [hasVariable_restore hon he rfl, hforce, Bool.not_true, Bool.or_false, Bool.and_false]
    · rw [Bool.eq_false_iff.mpr hon, Bool.false_and]
  | history item =>
    dsimp only
    by_cases hon : (options.info && settings.history.get item.type ≠ 0) = true
    · have hline : ⟨timestamp, item⟩ ∈ stream.history item.type :=
        List.mem_filterMap.mpr ⟨_, he, if_pos rfl⟩
      obtain ⟨hsettled, -, hlate⟩ :=
        HistoryRing.settled (n := settings.history.get item.type) (hh item.type)
      have hlast := HistoryRing.not_stored_of_late (hlate _ hline)
      rw [hon, ring_start, Session.history_restore, if_pos ⟨hon, List.ne_nil_of_mem hline⟩, hforce,
        hsettled, hlast]
      rfl
    · rw [Bool.eq_false_iff.mpr hon, Bool.false_and]
  | jump mark =>
    dsimp only
    by_cases hon : (options.marks && settings.jumps ≠ 0) = true
    · have hjump : ⟨timestamp, mark⟩ ∈ stream.jumps := List.mem_filterMap.mpr ⟨_, he, rfl⟩
      obtain ⟨-, hlate⟩ := Bounded.settled_fill (n := settings.jumps) Mark.sameLocation_iff hj
      have hlast := Bounded.not_isStored_of_late Mark.sameLocation_iff (hlate _ hjump)
      rw [hon, jumpList_start, Session.jumps_restore, if_pos ⟨hon, List.ne_nil_of_mem hjump⟩, hlast]
      rfl
    · rw [Bool.eq_false_iff.mpr hon, Bool.false_and]
  | change mark =>
    dsimp only
    by_cases hon : (options.marks && decide (0 < settings.markedFiles)) = true
    · have hchange : ⟨timestamp, mark⟩ ∈ stream.changesOf mark.file :=
        List.mem_filterMap.mpr ⟨_, he, if_pos BEq.rfl⟩
      obtain ⟨-, hlate⟩ :=
        Bounded.settled_extend (n := settings.changes) Mark.sameLocation_iff (hc mark.file)
      have hlast := Bounded.not_isStored_of_late Mark.sameLocation_iff (hlate _ hchange)
      rw [hon, changeList_start, Session.changesOf_restore,
        if_pos ⟨hon, List.ne_nil_of_mem hchange⟩, hlast]
      rfl
    · rw [Bool.eq_false_iff.mpr hon, Bool.false_and]

end Again

variable (settings options)

/-- The last list of buffers stays, if buffers are restored. -/
theorem changedBy_buffers :
    ChangedBy settings options Session.buffers Entry.buffers? fun held buffers =>
    if options.info && settings.bufferList.isSome then buffers else held := by
  refine ⟨fun r entry => ?_, fun r => by rw [finish_eq]⟩
  rw [session_apply, Entry.buffers?]
  cases entry.content with
  | bufferList buffers =>
    dsimp only
    rw [apply_ite Session.buffers]
    rfl
  | searchPattern p =>
    dsimp only
    cases p.isSubstitute <;> split <;> rfl
  | _ => dsimp only; (try split) <;> rfl

theorem oldFiles_foldl_take (results : List (Except Error Entry)) {r r' : Restore}
    (h : r.oldFiles = r'.oldFiles) :
    (results.foldl (take settings options) r).oldFiles =
      (results.foldl (take settings options) r').oldFiles := by
  refine part_foldl_take Restore.oldFiles (fun _ => rfl) (fun r r' entry h => ?_) results h
  rw [oldFiles_apply, oldFiles_apply, h]

/-- Where all files with changes are there already, no other ones come when the
changes are handed back. -/
theorem keys_files_finish (r : Restore)
    (h : ∀ list ∈ r.changes.entries, (r.session.files.find? list.1).isSome = true) :
    (r.finish options).files.keys = r.session.files.keys := by
  rw [finish_eq]
  dsimp only
  generalize r.changes.entries = lists at h
  generalize r.session.files = files at h
  induction lists generalizing files with
  | nil => rfl
  | cons list rest ih =>
    obtain ⟨hlist, hrest⟩ := List.forall_mem_cons.mp h
    rw [List.foldl_cons, ih, Table.keys_alter hlist]
    intro other ho
    rw [Table.find?_alter]
    split
    · rfl
    · exact hrest other ho

end Restore

structure FileState.Rearranged (f f' : FileState) : Prop where
  marks : f.marks = f'.marks
  changes : f.changes.Perm f'.changes

namespace Session

/-- A session that is another one, but for the order of its jumps and that of
the changes of each file. -/
structure Rearranged (s s' : Session) : Prop where
  rest : { s with jumps := s'.jumps, files := s'.files } = s'
  jumps : s.jumps.Perm s'.jumps
  files : List.Forall₂ (fun file file' => file.1 = file'.1 ∧ file.2.Rearranged file'.2)
    s.files.entries s'.files.entries

variable (settings : Settings) {options : RestoreOptions} {session : Session} {stream : Stream}

theorem buffers_restore_again :
    let once := (session.restore settings options stream).1
    (once.restore settings options stream).1.buffers = once.buffers := by
  have hfold (lists : List (List Buffer)) (held : List Buffer) :
      lists.foldl (fun held buffers => if options.info && settings.bufferList.isSome then buffers
        else held) held =
        if options.info && settings.bufferList.isSome then lists.getLast?.getD held else held := by
    induction lists generalizing held with
    | nil => exact (ite_self _).symm
    | cons buffers rest ih =>
      rw [List.foldl_cons, ih, List.getLast?_cons]
      split <;> rfl
  intro once
  have hbuffers := Restore.changedBy_buffers settings options
  rw [hbuffers.restore once stream, hbuffers.restore session stream, hfold, hfold]
  split
  · cases (stream.entries.filterMap Entry.buffers?).getLast? <;> rfl
  · rfl

theorem history_restore_again (hforce : options.force = false)
    (hh : ∀ type, TieFree HistoryItem.text (session.history.get type ++ stream.history type))
    (type : HistoryType) :
    let once := (session.restore settings options stream).1
    (once.restore settings options stream).1.history.get type = once.history.get type := by
  intro once
  rw [history_restore]
  split
  · next hon =>
    obtain ⟨hsettled, hroom, hlate⟩ :=
      HistoryRing.settled (n := settings.history.get type) (hh type)
    have honce : once.history.get type = _ := (history_restore ..).trans (if_pos hon)
    rw [honce, hforce, hsettled, HistoryRing.foldl_insert_late hroom hlate]
  · rfl

theorem jumps_restore_again (hj : TieFree Mark.place (session.jumps ++ stream.jumps)) :
    let once := (session.restore settings options stream).1
    (once.restore settings options stream).1.jumps.Perm once.jumps := by
  intro once
  rw [jumps_restore]
  split
  · next hon =>
    obtain ⟨hperm, hlate⟩ := Bounded.settled_fill (n := settings.jumps) Mark.sameLocation_iff hj
    have honce : once.jumps = _ := (jumps_restore ..).trans (if_pos hon)
    rw [honce, Bounded.extend_late Mark.sameLocation_iff hlate]
    exact hperm
  · exact .refl _

theorem changesOf_restore_again {file : Path}
    (hc : TieFree Mark.place (session.changesOf file ++ stream.changesOf file)) :
    let once := (session.restore settings options stream).1
    ((once.restore settings options stream).1.changesOf file).Perm (once.changesOf file) := by
  intro once
  rw [changesOf_restore]
  split
  · next hon =>
    obtain ⟨hperm, hlate⟩ := Bounded.settled_extend (n := settings.changes) Mark.sameLocation_iff hc
    have honce : once.changesOf file = _ := (changesOf_restore ..).trans (if_pos hon)
    rw [honce, Bounded.extend_late Mark.sameLocation_iff hlate]
    exact hperm
  · exact .refl _

theorem isSome_files_restore {file : Path}
    (hon : (options.marks && decide (0 < settings.markedFiles)) = true)
    (hs : stream.changesOf file ≠ []) :
    ((session.restore settings options stream).1.files.find? file).isSome = true := by
  unfold restore
  dsimp only
  rw [Restore.find?_files_finish, Restore.changes_foldl_take, if_pos ⟨hon, hs⟩]
  rfl

theorem files_restore_again
    (hc : ∀ file, TieFree Mark.place (session.changesOf file ++ stream.changesOf file))
    {once : Session} (ho : (session.restore settings options stream).1 = once)
    (hf : (stream.read.decoded.foldl (Restore.take settings options)
      { session := once }).session.files = once.files) :
    List.Forall₂ (fun file file' => file.1 = file'.1 ∧ file.2.Rearranged file'.2)
      (once.restore settings options stream).1.files.entries once.files.entries := by
  have hlists := Restore.changes_foldl_take settings options once stream
  have hchanges (file : Path) : ((once.restore settings options stream).1.changesOf file).Perm
      (once.changesOf file) :=
    ho ▸ changesOf_restore_again settings (hc file)
  have htwice : (once.restore settings options stream).1 =
      (stream.read.decoded.foldl (Restore.take settings options) { session := once }).finish
      options := rfl
  rw [htwice] at hchanges ⊢
  generalize stream.read.decoded.foldl (Restore.take settings options) { session := once } =
    r at hf hlists hchanges
  have hkeys : (r.finish options).files.keys = once.files.keys := by
    rw [← hf]
    refine Restore.keys_files_finish options r fun list hl => ?_
    have hfind := hlists list.1
    rw [Dictionary.find?_of_mem hl] at hfind
    split at hfind
    · next hon =>
      rw [hf, ← ho]
      exact isSome_files_restore settings hon.1 hon.2
    · cases hfind
  refine Table.forall₂_of_keys hkeys fun file state state' hs hs' => ?_
  have hfile := hchanges file
  unfold changesOf at hfile
  rw [hs, hs'] at hfile
  refine ⟨?_, hfile⟩
  rw [Restore.find?_files_finish, hf, hs'] at hs
  cases hl : r.changes.find? file with
  | none =>
    rw [hl] at hs
    exact congrArg FileState.marks (Option.some.inj hs).symm
  | some list =>
    rw [hl] at hs
    obtain rfl := Option.some.inj hs
    rfl

theorem oldFiles_restore_again {once : Session}
    (ho : (session.restore settings options stream).1 = once)
    (hold : (stream.read.decoded.foldl (Restore.take settings options)
      { session := once }).session.oldFiles =
      once.oldFiles) : (once.restore settings options stream).1.oldFiles = once.oldFiles := by
  have hsame : (stream.read.decoded.foldl (Restore.take settings options) { session }).oldFiles =
      (stream.read.decoded.foldl (Restore.take settings options) { session := once }).oldFiles :=
    Restore.oldFiles_foldl_take settings options stream.read.decoded rfl
  have honce : (session.restore settings options stream).1.oldFiles = _ := Restore.oldFiles_finish _
  have htwice : (once.restore settings options stream).1.oldFiles = _ := Restore.oldFiles_finish _
  rw [ho] at honce
  rw [htwice, hold]
  split
  · next hon =>
    rw [if_pos hon] at honce
    exact (congrArg Dictionary.keys hsame).symm.trans honce.symm
  · rfl

/-- A stream that is restored without force once more leaves the session as the
first restore left it, but for the order of jumps and changes, and no entry of
it is applied but its lists of buffers. Items of the same time must be of the
same identity, in each history, in the jumps and in the changes of each file. -/
theorem restore_again (hforce : options.force = false) (hend : stream.read.error = none)
    (hh : ∀ type, TieFree HistoryItem.text (session.history.get type ++ stream.history type))
    (hj : TieFree Mark.place (session.jumps ++ stream.jumps))
    (hc : ∀ file, TieFree Mark.place (session.changesOf file ++ stream.changesOf file)) :
    let once := (session.restore settings options stream).1
    ∃ twice report, once.restore settings options stream = (twice, .ok report) ∧
      twice.Rearranged once ∧
      report.applied = if options.info && settings.bufferList.isSome then stream.bufferLists.length
      else 0 := by
  intro once
  have hroom : ∀ type, (Restore.ring settings { session := once } type).items.length ≤
      (Restore.ring settings { session := once } type).capacity := fun type => by
    have hstart := (HistoryRing.oneEach_empty (settings.history.get type)).fill false
      (once.history.get type).reverse
    rw [Restore.ring_start]
    exact hstart.room.trans_eq hstart.capacity.symm
  have hidle : ∀ entry ∈ stream.entries, entry.buffers? = none →
      Restore.applies settings options { session := once } entry = false := fun entry he hb =>
    Restore.applies_again hforce hh hj hc he hb
  obtain ⟨halike, happlied⟩ := Restore.foldl_take_idle options hroom hidle (Restore.alike_refl _)
  obtain ⟨buffers, hsession⟩ := halike.session
  have hkept : (stream.read.decoded.foldl (Restore.take settings options)
      { session := once }).session.files = once.files := by rw [hsession]
  have hfiles := files_restore_again settings hc rfl hkept
  refine ⟨(once.restore settings options stream).1, _, ?_,
    ⟨?_, jumps_restore_again settings hj, hfiles⟩, happlied.trans (Nat.zero_add _)⟩
  · unfold restore
    dsimp only
    rw [hend]
  · have hhistory : (once.restore settings options stream).1.history = once.history :=
      PerHistory.ext_get (history_restore_again settings hforce hh)
    have hbuffers : (once.restore settings options stream).1.buffers = once.buffers :=
      buffers_restore_again settings
    have holdFiles : (once.restore settings options stream).1.oldFiles = once.oldFiles := by
      refine oldFiles_restore_again settings rfl ?_
      rw [hsession]
    have hothers : (once.restore settings options stream).1 = { once with
        history := (once.restore settings options stream).1.history
        files := (once.restore settings options stream).1.files
        jumps := (once.restore settings options stream).1.jumps
        buffers := (once.restore settings options stream).1.buffers
        oldFiles := (once.restore settings options stream).1.oldFiles } := by
      unfold restore
      dsimp only
      rw [Restore.finish_eq, hsession]
    rw [hothers, hhistory, hbuffers, holdFiles]

/-- There is room for two jumps, of which the stream overtakes one, and a third
one of it comes too late. The second restore puts the two in order. -/
theorem restore_again_jumps :
    let a : Path := .ofAscii "a"
    let b : Path := .ofAscii "b"
    let settings : Settings := { jumps := 2, bufferList := some 10 }
    let options : RestoreOptions := { info := true, marks := true }
    let session : Session := { jumps := [⟨2, { file := a }⟩, ⟨3, { file := b }⟩] }
    let stream : Stream :=
      ⟨[8, 5, 5, 0x81, 0xA1, 0x66, 0xA1, 0x61, 8, 1, 5, 0x81, 0xA1, 0x66, 0xA1, 0x63, 9, 6,
        1, 0x90], false⟩
    let once := (session.restore settings options stream).1
    (stream.read.error = none ∧ TieFree Mark.place (session.jumps ++ stream.jumps)) ∧
      (∃ twice report, once.restore settings options stream = (twice, .ok report) ∧
        twice.Rearranged once ∧ report.applied = 1) ∧
      once.jumps = [⟨5, { file := a }⟩, ⟨3, { file := b }⟩] ∧
      (once.restore settings options stream).1.jumps =
      [⟨3, { file := b }⟩, ⟨5, { file := a }⟩] := by
  intro a b settings options session stream once
  have hend : stream.read.error = none := by decide +kernel
  have hentries : stream.entries =
      [⟨5, .jump { file := a }⟩, ⟨1, .jump { file := .ofAscii "c" }⟩, ⟨6, .bufferList []⟩] := by
    decide +kernel
  have hh (type : HistoryType) :
      TieFree HistoryItem.text (session.history.get type ++ stream.history type) := by
    rw [Stream.history, hentries]
    simp [TieFree, Entry.line?, session]
  have hj : TieFree Mark.place (session.jumps ++ stream.jumps) := by
    rw [Stream.jumps, hentries]
    simp [TieFree, Entry.jump?, session]
  have hc (file : Path) : TieFree Mark.place (session.changesOf file ++ stream.changesOf file) := by
    rw [Stream.changesOf, hentries]
    simp [TieFree, Entry.change?, Session.changesOf, session, Table.find?, Table.empty]
  obtain ⟨twice, report, hrestore, hrearranged, happlied⟩ :=
    restore_again settings (show options.force = false from rfl) hend hh hj hc
  refine ⟨⟨hend, hj⟩, ⟨twice, report, hrestore, hrearranged, ?_⟩, ?_, ?_⟩
  · rw [happlied, Stream.bufferLists, hentries]
    rfl
  · show (session.restore settings options stream).1.jumps = _
    decide +kernel
  · show ((session.restore settings options stream).1.restore settings options stream).1.jumps = _
    decide +kernel

end Session

end SessionStore
