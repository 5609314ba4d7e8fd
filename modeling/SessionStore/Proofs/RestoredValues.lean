import SessionStore.Proofs.Collection.FileMarks
import SessionStore.Proofs.Collection.FirstNewest
import SessionStore.Proofs.RestoreProvenance

/-! The single values of a session after a restore: which of the live one and
those of the stream is left. -/
namespace SessionStore

open Msgpack (Value)
open Recency (FirstNewest firstNewest_foldl_keepNewer)

namespace Entry

def pattern? (substitute : Bool) (entry : Entry) : Option (Timed SearchPattern) :=
  match entry.content with
  | .searchPattern p => if p.isSubstitute = substitute then some ⟨entry.timestamp, p⟩ else none
  | _ => none

def replacement? (entry : Entry) : Option (Timed Replacement) :=
  match entry.content with
  | .replacement r => some ⟨entry.timestamp, r⟩
  | _ => none

def register? (name : Char) (entry : Entry) : Option (Timed Register) :=
  match entry.content with
  | .register r => if r.name = name then some ⟨entry.timestamp, r⟩ else none
  | _ => none

def globalMark? (name : Char) (entry : Entry) : Option (Timed Mark) :=
  match entry.content with
  | .globalMark mark => if mark.name = name then some ⟨entry.timestamp, mark⟩ else none
  | _ => none

/-- The mark that an entry is in a file, whose path may be spelled in another way. -/
def localMark? (file : Path) (name : Char) (entry : Entry) : Option (Timed Mark) :=
  match entry.content with
  | .localMark mark =>
    if mark.file == file ∧ mark.name = name then some ⟨entry.timestamp, mark⟩ else none
  | _ => none

def valueOf? (name : Bytes) (entry : Entry) : Option Value :=
  match entry.content with
  | .variable v => if v.name = name then some v.value else none
  | _ => none

end Entry

namespace Stream

/-- The patterns of a stream for a slot, in its order and up to any damage. -/
def patterns (s : Stream) (substitute : Bool) : List (Timed SearchPattern) :=
  s.entries.filterMap (Entry.pattern? substitute)

def replacements (s : Stream) : List (Timed Replacement) := s.entries.filterMap Entry.replacement?

def registers (s : Stream) (name : Char) : List (Timed Register) :=
  s.entries.filterMap (Entry.register? name)

def globalMarks (s : Stream) (name : Char) : List (Timed Mark) :=
  s.entries.filterMap (Entry.globalMark? name)

def localMarks (s : Stream) (file : Path) (name : Char) : List (Timed Mark) :=
  s.entries.filterMap (Entry.localMark? file name)

def valuesOf (s : Stream) (name : Bytes) : List Value := s.entries.filterMap (Entry.valueOf? name)

end Stream

namespace Table

/-- Under a character there is what was put there last. -/
theorem find?_insert {υ : Type} (t : Table Char υ) (key other : Char) (v : υ) :
    (t.insert key v).find? other = if key = other then some v else t.find? other := by
  split
  · next h => rw [← h, find?_insert_self]
  · next h => rw [find?_insert_of_ne t (mt Std.LawfulEqCmp.compare_eq_iff_eq.mp h)]

end Table

namespace Session

variable (session : Session)

theorem hasVariable_eq (name : Bytes) : session.hasVariable name =
    ((session.globalVariables.find? name).isSome || session.transient.contains name) := by
  unfold hasVariable Dictionary.contains Dictionary.find?
  rw [Option.isSome_map, List.isSome_find?]

theorem localMark?_congr {file other : Path} (h : (file == other) = true) (name : Char) :
    session.localMark? file name = session.localMark? other name := by
  unfold localMark?
  rw [Table.find?_congr _ (Path.compare_eq_iff.mpr h)]

theorem localMark?_alterFile (file other : Path) (f : FileState → FileState) (name : Char) :
    (session.alterFile file f).localMark? other name =
      if (file == other) = true then (f ((session.files.find? file).getD {})).marks.find? name
      else session.localMark? other name := by
  unfold localMark? alterFile
  dsimp only
  rw [Table.find?_alter]
  simp only [Path.compare_eq_iff]
  split <;> rfl

theorem localMark?_getD (file : Path) (name : Char) :
    ((session.files.find? file).getD {}).marks.find? name = session.localMark? file name := by
  unfold localMark?
  cases session.files.find? file <;> rfl

theorem localMark?_setLocalMark (mark : Timed Mark) (file : Path) (name : Char) :
    (session.setLocalMark mark).localMark? file name =
      if mark.value.file == file ∧ mark.value.name = name then some mark
      else session.localMark? file name := by
  unfold setLocalMark
  rw [localMark?_alterFile]
  by_cases hf : (mark.value.file == file) = true
  · rw [if_pos hf, Table.find?_insert, localMark?_getD, localMark?_congr session hf]
    simp [hf]
  · simp [hf]

end Session

namespace Restore

variable (settings : Settings) (options : RestoreOptions)

/-- What is left of a live value and the values that a stream has for it:
nothing else where there are none, with force the last of them, and otherwise
the first of the newest, before which the live value counts. -/
structure Chosen {α : Type} (force : Bool) (live : Option (Timed α)) (stored : List (Timed α))
    (held : Option (Timed α)) : Prop where
  untouched : stored = [] → held = live
  forced : force = true → held = stored.getLast?.or live
  newest : force = false → FirstNewest (live.toList ++ stored) held

/-- A value that a session holds is changed only as entries of its own come, and
by no list that is handed back. -/
structure ChangedBy {α β : Type} (settings : Settings) (options : RestoreOptions)
    (get : Session → β) (pick : Entry → Option α) (put : β → α → β) : Prop where
  apply : ∀ (r : Restore) (entry : Entry), get (r.apply settings options entry).session =
    (pick entry).elim (get r.session) (put (get r.session))
  finish : ∀ r : Restore, get (r.finish options) = get r.session

section Held

variable {α β : Type} {settings options}

/-- The entries of a stream change a value one after the other. -/
theorem ChangedBy.restore {get : Session → β} {pick : Entry → Option α} {put : β → α → β}
    (h : ChangedBy settings options get pick put) (session : Session) (stream : Stream) :
    get (session.restore settings options stream).1 =
      (stream.entries.filterMap pick).foldl put (get session) := by
  have hstep (r : Restore) (result : Except Error Entry) :
      get (r.take settings options result).session =
      (result.toOption.bind pick).elim (get r.session) (put (get r.session)) := by
    cases result with
    | error e => rfl
    | ok entry => exact h.apply r entry
  rw [Stream.entries, List.filterMap_filterMap]
  exact (h.finish _).trans
    (foldl_filterMap_of_step (fun r : Restore => get r.session) (fun result _ r =>
      hstep r result) { session })

variable (settings options) in
/-- An entry takes the place of a value that is restored at all if it wins over it. -/
def replace (on : Bool) (held : Option (Timed α)) (item : Timed α) : Option (Timed α) :=
  if on && wins options item.timestamp held then some item else held

theorem replace_eq_keepNewer (hforce : options.force = false) :
    replace options true = Timed.keepNewer (α := α) := by
  funext held item
  rw [replace, wins, hforce, Bool.true_and, Bool.false_or]
  rfl

theorem chosen_foldl_replace (live : Option (Timed α)) (stored : List (Timed α)) :
    Chosen options.force live stored (stored.foldl (replace options true) live) := by
  refine ⟨fun h => by rw [h]; rfl, fun hforce => ?_, fun hforce => ?_⟩
  · induction stored generalizing live with
    | nil => rfl
    | cons item rest ih =>
      have hreplace : replace options true live item = some item := by simp [replace, wins, hforce]
      rw [List.foldl_cons, ih, hreplace, List.getLast?_cons]
      cases rest.getLast? <;> rfl
  · rw [replace_eq_keepNewer hforce]
    exact firstNewest_foldl_keepNewer live stored

/-- The winner is left of a value that is restored; another one is left as it was. -/
theorem ChangedBy.chosen {get : Session → Option (Timed α)}
    {pick : Entry → Option (Timed α)} {on : Bool}
    (h : ChangedBy settings options get pick (replace options on)) (session : Session)
    (stream : Stream) :
    if on then
      Chosen options.force (get session) (stream.entries.filterMap pick)
        (get (session.restore settings options stream).1)
    else get (session.restore settings options stream).1 = get session := by
  rw [h.restore]
  cases on with
  | true => exact chosen_foldl_replace _ _
  | false =>
    have hreplace (held : Option (Timed α))
        (item : Timed α) : replace options false held item = held := rfl
    generalize stream.entries.filterMap pick = items
    show items.foldl (replace options false) _ = _
    induction items with
    | nil => rfl
    | cons item rest ih => rw [List.foldl_cons, hreplace, ih]

end Held

theorem changedBy_pattern (substitute : Bool) :
    ChangedBy settings options (Session.pattern · substitute)
    (Entry.pattern? substitute) (replace options options.info) := by
  refine ⟨fun r entry => ?_, fun r => by rw [finish_eq]; rfl⟩
  rw [session_apply, Entry.pattern?]
  cases entry.content with
  | searchPattern p =>
    dsimp only
    rw [apply_ite (Session.pattern · substitute), Session.pattern_setPattern]
    by_cases hs : p.isSubstitute = substitute
    · rw [if_pos hs, if_pos hs.symm, hs]
      rfl
    · rw [if_neg hs, if_neg (Ne.symm hs), ite_self]
      rfl
  | _ => dsimp only; (try split) <;> rfl

theorem changedBy_replacement : ChangedBy settings options Session.replacement Entry.replacement?
    (replace options options.info) := by
  refine ⟨fun r entry => ?_, fun r => by rw [finish_eq]⟩
  rw [session_apply, Entry.replacement?]
  cases entry.content with
  | replacement replacement =>
    dsimp only
    rw [apply_ite Session.replacement]
    rfl
  | searchPattern p =>
    dsimp only
    cases p.isSubstitute <;> split <;> rfl
  | _ => dsimp only; (try split) <;> rfl

theorem changedBy_register (name : Char) :
    ChangedBy settings options (fun s : Session => s.registers.find? name)
    (Entry.register? name) (replace options (options.info && isRegisterName name)) := by
  refine ⟨fun r entry => ?_, fun r => by rw [finish_eq]⟩
  rw [session_apply, Entry.register?]
  cases entry.content with
  | register register =>
    dsimp only
    rw [apply_ite fun s : Session => s.registers.find? name, Session.setRegister,
      Table.find?_insert]
    by_cases hn : register.name = name
    · rw [if_pos hn, if_pos hn, hn]
      rfl
    · rw [if_neg hn, if_neg hn, ite_self]
      rfl
  | searchPattern p =>
    dsimp only
    cases p.isSubstitute <;> split <;> rfl
  | _ => dsimp only; (try split) <;> rfl

theorem changedBy_globalMark (name : Char) :
    ChangedBy settings options (fun s : Session => s.globalMarks.find? name)
    (Entry.globalMark? name)
    (replace options (options.marks && settings.globalMarks && isGlobalMarkName name)) := by
  refine ⟨fun r entry => ?_, fun r => by rw [finish_eq]⟩
  rw [session_apply, Entry.globalMark?]
  cases entry.content with
  | globalMark mark =>
    dsimp only
    rw [apply_ite fun s : Session => s.globalMarks.find? name, Session.setGlobalMark,
      Table.find?_insert]
    by_cases hn : mark.name = name
    · rw [if_pos hn, if_pos hn, hn]
      rfl
    · rw [if_neg hn, if_neg hn, ite_self]
      rfl
  | searchPattern p =>
    dsimp only
    cases p.isSubstitute <;> split <;> rfl
  | _ => dsimp only; (try split) <;> rfl

/-- The changes that are handed back at the end leave all marks of their files as they are. -/
theorem localMark?_finish (r : Restore) (file : Path) (name : Char) :
    (r.finish options).localMark? file name = r.session.localMark? file name := by
  unfold Session.localMark?
  rw [find?_files_finish]
  cases r.changes.find? file with
  | none => rfl
  | some list => exact Session.localMark?_getD r.session file name

theorem changedBy_localMark (file : Path) (name : Char) :
    ChangedBy settings options (fun s : Session => s.localMark? file name)
    (Entry.localMark? file name) (replace options (options.marks && 0 < settings.markedFiles)) := by
  refine ⟨fun r entry => ?_, fun r => localMark?_finish options r file name⟩
  rw [session_apply, Entry.localMark?]
  cases entry.content with
  | localMark mark =>
    dsimp only
    rw [apply_ite fun s : Session => s.localMark? file name, Session.localMark?_setLocalMark]
    by_cases hn : mark.file == file ∧ mark.name = name
    · rw [if_pos hn, if_pos hn, Session.localMark?_congr _ hn.1, hn.2]
      rfl
    · rw [if_neg hn, if_neg hn, ite_self]
      rfl
  | searchPattern p =>
    dsimp only
    cases p.isSubstitute <;> split <;> rfl
  | _ => dsimp only; (try split) <;> rfl

/-- An entry gives a variable a value unless something stands under its name, be
it a value or a variable without one. -/
def replaceVariable (name : Bytes) (held : Option Value × List Bytes) (value : Value) :
    Option Value × List Bytes :=
  if options.info && settings.globalVariables &&
    (options.force || !(held.1.isSome || held.2.contains name)) then (some value, held.2)
  else held

theorem changedBy_variable (name : Bytes) : ChangedBy settings options
    (fun s : Session => (s.globalVariables.find? name, s.transient)) (Entry.valueOf? name)
    (replaceVariable settings options name) := by
  refine ⟨fun r entry => ?_, fun r => by rw [finish_eq]⟩
  rw [session_apply, Entry.valueOf?]
  cases entry.content with
  | «variable» v =>
    dsimp only
    by_cases hn : v.name = name
    · subst hn
      rw [if_pos rfl, Session.hasVariable_eq]
      show _ = replaceVariable settings options v.name (r.session.globalVariables.find? v.name,
        r.session.transient) _
      unfold replaceVariable
      split
      · rw [Session.setVariable, Dictionary.find?_insert_self]
      · rfl
    · rw [if_neg hn]
      split
      · rw [Session.setVariable, Dictionary.find?_insert_of_ne _ (beq_false_of_ne hn)]
        rfl
      · rfl
  | searchPattern p =>
    dsimp only
    cases p.isSubstitute <;> split <;> rfl
  | _ => dsimp only; (try split) <;> rfl

variable {settings options} in
/-- A variable that is there keeps its value, and another one gets the first
value that comes; with force it gets the last one either way. -/
theorem foldl_replaceVariable (hi : options.info = true) (name : Bytes) (live : Option Value)
    (transient : List Bytes) (values : List Value) :
    (values.foldl (replaceVariable settings options name) (live, transient)).1 =
      if settings.globalVariables then
        if options.force then values.getLast?.or live
        else if live.isSome || transient.contains name then live else values.head?
      else live := by
  induction values generalizing live with
  | nil => cases live <;> simp
  | cons value rest ih =>
    rw [List.foldl_cons]
    by_cases hv : settings.globalVariables = true
    · by_cases hforce : options.force = true
      · have hreplace : replaceVariable settings options name (live, transient) value =
            (some value, transient) := by
          simp [replaceVariable, hi, hv, hforce]
        rw [hreplace, ih]
        cases hlast : rest.getLast? <;> simp [hv, hforce, hlast, List.getLast?_cons]
      · by_cases hlive : (live.isSome || transient.contains name) = true
        · have hreplace : replaceVariable settings options name (live, transient) value =
              (live, transient) := by
            simp only [replaceVariable, hi, hv, hforce, hlive, Bool.not_true, Bool.or_false,
              Bool.and_false,
            Bool.false_eq_true, if_false]
          rw [hreplace, ih]
          simp only [hv, hforce, hlive, Bool.false_eq_true, if_true, if_false]
        · have hreplace : replaceVariable settings options name (live, transient) value =
              (some value, transient) := by
            simp only [replaceVariable, hi, hv, Bool.eq_false_iff.mpr hlive, Bool.not_false,
              Bool.or_true, Bool.and_true, if_true]
          rw [hreplace, ih]
          simp only [hv, hforce, hlive, Option.isSome_some, Bool.true_or, List.head?_cons,
            Bool.false_eq_true, if_true, if_false]
    · have hreplace : replaceVariable settings options name (live, transient) value =
          (live, transient) := by
        simp [replaceVariable, hv]
      rw [hreplace, ih]
      simp only [hv, Bool.false_eq_true, if_false]

end Restore

namespace Session

open Restore (Chosen)

variable {options : RestoreOptions}

/-- After a restore of a whole or damaged stream, every single value is the one that wins.
Of a pattern, the replacement, a register, a global mark and a local mark this is the first
of the newest, the live one in front, or with force the last one of the stream. Variables
have no time: one that the session has keeps its value, and another one gets the first value
of the stream, or with force the last one. Nothing else changes: neither registers and
global marks with names that are not meant for them, nor what the settings switch off. -/
theorem restore_chooses (settings : Settings) (hi : options.info = true) (hm : options.marks = true)
    (session : Session) (stream : Stream) :
    let restored := (session.restore settings options stream).1
    (∀ substitute, Chosen options.force (session.pattern substitute) (stream.patterns substitute)
      (restored.pattern substitute)) ∧
    Chosen options.force session.replacement stream.replacements restored.replacement ∧
    (∀ name,
      if isRegisterName name then
        Chosen options.force (session.registers.find? name) (stream.registers name)
          (restored.registers.find? name)
      else restored.registers.find? name = session.registers.find? name) ∧
    (∀ name,
      if settings.globalMarks && isGlobalMarkName name then
        Chosen options.force (session.globalMarks.find? name) (stream.globalMarks name)
          (restored.globalMarks.find? name)
      else restored.globalMarks.find? name = session.globalMarks.find? name) ∧
    (∀ file name,
      if 0 < settings.markedFiles then
        Chosen options.force (session.localMark? file name) (stream.localMarks file name)
          (restored.localMark? file name)
      else restored.localMark? file name = session.localMark? file name) ∧
    ∀ name, restored.globalVariables.find? name =
      if settings.globalVariables then
        if options.force then
          (stream.valuesOf name).getLast?.or (session.globalVariables.find? name)
        else if session.hasVariable name then session.globalVariables.find? name
        else (stream.valuesOf name).head?
      else session.globalVariables.find? name := by
  intro restored
  refine ⟨fun substitute => ?_, ?_, fun name => ?_, fun name => ?_, fun file name => ?_,
    fun name => ?_⟩
  · have hchosen := (Restore.changedBy_pattern settings options substitute).chosen session stream
    rwa [if_pos hi] at hchosen
  · have hchosen := (Restore.changedBy_replacement settings options).chosen session stream
    rwa [if_pos hi] at hchosen
  · have hchosen := (Restore.changedBy_register settings options name).chosen session stream
    rwa [hi, Bool.true_and] at hchosen
  · have hchosen := (Restore.changedBy_globalMark settings options name).chosen session stream
    rwa [hm, Bool.true_and] at hchosen
  · have hchosen := (Restore.changedBy_localMark settings options file name).chosen session stream
    simp only [hm, Bool.true_and, decide_eq_true_eq] at hchosen
    exact hchosen
  · have hrestore := (Restore.changedBy_variable settings options name).restore session stream
    rw [hasVariable_eq, ← Restore.foldl_replaceVariable hi]
    exact congrArg Prod.fst hrestore

/-- The first of two replacements of the same second is left, which is newer
than the live one. The stream is damaged. -/
theorem restore_chooses_damaged :
    let options : RestoreOptions := { info := true, marks := true }
    let session : Session := { replacement := some ⟨4, { text := [0x77] }⟩ }
    let stream : Stream := ⟨[3, 5, 3, 0x91, 0xA1, 0x78, 3, 5, 3, 0x91, 0xA1, 0x79, 3, 4, 3, 0x91,
      0xA1, 0x7A, 0], false⟩
    let restored := (session.restore {} options stream).1
    (options.info = true ∧ options.marks = true) ∧
      Chosen false session.replacement stream.replacements restored.replacement ∧
      stream.replacements = [⟨5, { text := [0x78] }⟩, ⟨5, { text := [0x79] }⟩,
        ⟨4, { text := [0x7A] }⟩] ∧
      restored.replacement = some ⟨5, { text := [0x78] }⟩ := by
  intro options session stream restored
  have hchosen := (restore_chooses {} (show options.info = true from rfl) rfl session stream).2.1
  refine ⟨⟨rfl, rfl⟩, hchosen, ?_, ?_⟩
  · decide +kernel
  · show (Session.restore {} options session stream).1.replacement = _
    decide +kernel

end Session

end SessionStore
