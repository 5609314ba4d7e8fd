import SessionStore.CommandLine.Commands
import SessionStore.Proofs.Payload.OneLine

/-! The lines of a dump: one for each frame, and one more for each line break
that a name or text in it brings along. -/
namespace SessionStore

open Text
  (lineBreaks lineBreaks_append_left lineBreaks_append_right lineBreaks_intercalate_eq_zero lines)

/-- The line breaks that the line of an entry has from the names and texts that
it shows as they are. -/
def Content.lineBreaks : Content → Nat
  | .header _ | .unknown .. => 0
  | .searchPattern p => p.pattern.count 0x0A
  | .replacement r => r.text.count 0x0A
  | .history item => item.text.count 0x0A
  | .register r => [r.name].count '\n'
  | .variable v => v.name.count 0x0A
  | .globalMark mark | .localMark mark => [mark.name].count '\n' + mark.file.bytes.count 0x0A
  | .jump mark | .change mark => mark.file.bytes.count 0x0A
  | .bufferList buffers => (buffers.map fun buffer => buffer.file.bytes.count 0x0A).sum

theorem lineBreaks_placeText (file : Path) (lnum col : UInt64) :
    lineBreaks (placeText file lnum col) = file.bytes.count 0x0A := by
  unfold placeText
  rw [lineBreaks_append_right (Text.lineBreaks_toString col), lineBreaks_append_right (by decide),
    lineBreaks_append_right (Text.lineBreaks_toString lnum), lineBreaks_append_right (by decide)]
  exact Utf8.lineBreaks_lossy file.bytes

theorem lineBreaks_singleton (c : Char) : lineBreaks c.toString = [c].count '\n' := by
  rw [lineBreaks, Char.toString, String.toList_singleton]

theorem Mark.lineBreaks_namedText (mark : Mark) :
    lineBreaks mark.namedText = [mark.name].count '\n' + mark.file.bytes.count 0x0A := by
  unfold namedText
  rw [Text.lineBreaks_append, lineBreaks_append_right (by decide),
    lineBreaks_append_left (by decide), lineBreaks_singleton]
  exact congrArg _ (lineBreaks_placeText mark.file mark.lnum mark.col)

theorem Header.lineBreaks_text (header : Header) :
    lineBreaks (String.intercalate " " (header.fields.map fun (key, v) => key.display ++ "=" ++
      v.display)) = 0 := by
  refine lineBreaks_intercalate_eq_zero (by decide) (List.forall_mem_map.mpr fun (key, v) _ => ?_)
  rw [lineBreaks_append_right v.lineBreaks_display, lineBreaks_append_right (by decide),
    key.lineBreaks_display]

theorem Content.lineBreaks_text (content : Content) :
    Text.lineBreaks content.text = content.lineBreaks := by
  cases content with
  | header header => exact header.lineBreaks_text
  | searchPattern p =>
    have hkind : Text.lineBreaks (if p.isSubstitute then "substitute " else "search ") = 0 := by
      split <;> decide
    exact (lineBreaks_append_left hkind _).trans (Utf8.lineBreaks_lossy p.pattern)
  | replacement r => exact Utf8.lineBreaks_lossy r.text
  | history item =>
    have htype : Text.lineBreaks item.type.name = 0 := by
      cases item.type <;> decide
    unfold text
    rw [lineBreaks_append_left, Utf8.lineBreaks_lossy, Content.lineBreaks]
    rw [lineBreaks_append_left htype]
    decide
  | register r =>
    have htype : Text.lineBreaks r.type.name = 0 := by
      cases r.type <;> decide
    unfold text
    rw [lineBreaks_append_right (by decide), lineBreaks_append_right,
      lineBreaks_append_right (by decide), lineBreaks_append_right htype,
        lineBreaks_append_right (by decide), lineBreaks_append_left (by decide)]
    · exact lineBreaks_singleton r.name
    · exact Text.lineBreaks_repr r.contents.length
  | «variable» v =>
    unfold text
    rw [lineBreaks_append_right v.value.lineBreaks_display, lineBreaks_append_right (by decide)]
    exact Utf8.lineBreaks_lossy v.name
  | globalMark mark => exact mark.lineBreaks_namedText
  | localMark mark => exact mark.lineBreaks_namedText
  | jump mark => exact lineBreaks_placeText mark.file mark.lnum mark.col
  | change mark => exact lineBreaks_placeText mark.file mark.lnum mark.col
  | bufferList buffers =>
    unfold text
    rw [Text.lineBreaks_intercalate (by decide), List.map_map, Content.lineBreaks]
    exact congrArg List.sum (List.map_congr_left fun buffer _ =>
      lineBreaks_placeText buffer.file buffer.lnum buffer.col)
  | unknown id payload =>
    unfold text
    rw [lineBreaks_append_right (by decide), lineBreaks_append_left, Content.lineBreaks]
    · exact Text.lineBreaks_repr payload.length
    · rw [lineBreaks_append_right (by decide), lineBreaks_append_left (by decide),
        Text.lineBreaks_toString]

theorem Entry.lineBreaks_line (entry : Entry) :
    lineBreaks entry.line = entry.content.lineBreaks := by
  unfold line
  rw [lineBreaks_append_left, entry.content.lineBreaks_text]
  rw [lineBreaks_append_right (by decide), lineBreaks_append_right entry.kind.lineBreaks_name,
    lineBreaks_append_right (by decide), Calendar.lineBreaks_timeText]

namespace CommandLine

def resultLineBreaks : Except Error Entry → Nat
  | .ok entry => entry.content.lineBreaks
  | .error _ => 0

theorem lineBreaks_resultLine (frame : Frame) :
    lineBreaks (resultLine frame.decode) = resultLineBreaks frame.decode := by
  cases h : frame.decode with
  | ok entry => exact entry.lineBreaks_line
  | error e =>
    exact (lineBreaks_append_left (by decide) e.message).trans (Frame.lineBreaks_message h)

theorem unlines_cons (text : String) (rest : List String) :
    unlines (text :: rest) = text ++ "\n" ++ unlines rest := by
  rw [← String.toList_inj]
  simp [unlines, String.toList_join]

theorem lines_unlines (texts : List String) :
    lines (unlines texts) = texts.flatMap lines ++ [[]] := by
  induction texts with
  | nil => rfl
  | cons text rest ih =>
    have hlist : (unlines (text :: rest)).toList = text.toList ++ '\n' ::
        (unlines rest).toList := by
      simp [unlines_cons]
    rw [lines, hlist, List.splitOn_append_cons_self, List.flatMap_cons, List.append_assoc, ← ih]
    rfl

theorem length_flatMap_lines (texts : List String) :
    (texts.flatMap lines).length = texts.length + (texts.map lineBreaks).sum := by
  induction texts with
  | nil => rfl
  | cons text rest ih =>
    rw [List.flatMap_cons, List.length_append, Text.length_lines, ih, List.map_cons, List.sum_cons,
      List.length_cons]
    omega

theorem lineBreaks_unlines (texts : List String) :
    lineBreaks (unlines texts) = texts.length + (texts.map lineBreaks).sum := by
  have hlength := Text.length_lines (unlines texts)
  rw [lines_unlines, List.length_append, length_flatMap_lines] at hlength
  exact (Nat.succ.inj hlength).symm

/-- Texts end up on one line each exactly if none of them has a line break. -/
theorem lines_unlines_eq_iff (texts : List String) :
    lines (unlines texts) = texts.map String.toList ++ [[]] ↔
      ∀ text ∈ texts, lineBreaks text = 0 := by
  rw [lines_unlines, List.append_cancel_right_eq]
  constructor
  · -- More lines than texts are too many.
    intro h
    have hlength := congrArg List.length h
    rw [length_flatMap_lines, List.length_map] at hlength
    have hsum : (texts.map lineBreaks).sum = 0 := by omega
    exact List.forall_mem_map.mp (List.sum_eq_zero_iff_forall_eq_nat.mp hsum)
  · intro h
    rw [List.flatMap_congr fun text ht => Text.lines_of_lineBreaks_eq_zero (h text ht)]
    exact List.map_eq_flatMap.symm

variable {disk : Disk} {path : Path} {location : Location} {node : Node}

/-- A dump of a file without damage shows its frames in their order, the valid
ones and the others, each on a line of its own and on one more for each line
break in the names and texts that its line shows as they are. So the lines are
those of the frames one by one exactly if there is no line break in these. -/
theorem dump_lines (h : disk.openForReading path = .ok (location, node))
    (hclean : (Disk.contents node).read.error = none) :
    let frames := (Disk.contents node).read.frames
    let outcome := dump path disk
    outcome.failure = none ∧
      lines outcome.out = (frames.flatMap fun frame => lines (resultLine frame.decode)) ++ [[]] ∧
      (∀ frame : Frame, (lines (resultLine frame.decode)).length =
        resultLineBreaks frame.decode + 1) ∧
      lineBreaks outcome.out = frames.length +
      (frames.map fun frame => resultLineBreaks frame.decode).sum ∧
      (lines outcome.out = frames.map (fun frame => (resultLine frame.decode).toList) ++ [[]] ↔
        ∀ frame ∈ frames, resultLineBreaks frame.decode = 0) ∧
      ∀ entry : Entry, lineBreaks entry.line = entry.content.lineBreaks := by
  intro frames outcome
  have hdump : outcome = { out := unlines (frames.map fun frame => resultLine frame.decode) } := by
    simp only [outcome, dump, h, hclean, Reading.decoded, List.map_map]
    rfl
  have hout : outcome.out = unlines (frames.map fun frame => resultLine frame.decode) :=
    congrArg Outcome.out hdump
  have hiff := lines_unlines_eq_iff (frames.map fun frame => resultLine frame.decode)
  rw [List.forall_mem_map, List.map_map, ← hout] at hiff
  refine ⟨congrArg Outcome.failure hdump, ?_, fun frame => ?_, ?_, ?_, Entry.lineBreaks_line⟩
  · rw [hout, lines_unlines, List.flatMap_map]
  · rw [Text.length_lines, lineBreaks_resultLine]
  · rw [hout, lineBreaks_unlines, List.length_map, List.map_map]
    exact congrArg (frames.length + List.sum ·) (List.map_congr_left fun frame _ =>
      lineBreaks_resultLine frame)
  · exact hiff.trans (forall₂_congr fun frame _ => by rw [lineBreaks_resultLine])

/-- A jump and a register without contents take a line each. -/
theorem dump_lines_jump :
    let path : Path := ⟨Bytes.ofAscii "f"⟩
    let node : Node := .file 0o600 [8, 5, 6, 0x81, 0xA1, 0x66, 0xA2, 0x2F, 0x61, 5, 5, 1, 0x80]
    let disk := Disk.put { workingDirectory := some [] } [path.bytes] node
    disk.openForReading path = .ok ([path.bytes], node) ∧ (Disk.contents node).read.error = none ∧
      lines (dump path disk).out =
        ["1970-01-01 00:00:05 jump: /a:1:0".toList,
          "invalid entry: invalid register entry at byte 9: missing mandatory field rc".toList,
          []] := by
  intro path node disk
  have hopen : disk.openForReading path = .ok ([path.bytes], node) := by rfl
  have hclean : (Disk.contents node).read.error = none := by decide +kernel
  let jump : Frame := ⟨8, 5, [0x81, 0xA1, 0x66, 0xA2, 0x2F, 0x61], 0⟩
  let register : Frame := ⟨5, 5, [0x80], 9⟩
  have hframes : (Disk.contents node).read.frames = [jump, register] := by with_unfolding_all rfl
  have hjump : resultLine jump.decode = "1970-01-01 00:00:05 jump: /a:1:0" := by decide
  have hregister : resultLine register.decode =
      "invalid entry: invalid register entry at byte 9: missing mandatory field rc" := by
    decide +kernel
  obtain ⟨-, -, -, -, hlines, -⟩ := dump_lines hopen hclean
  rw [hframes, List.forall_mem_cons, List.forall_mem_singleton, List.map_cons,
    List.map_singleton, hjump, hregister] at hlines
  exact ⟨hopen, hclean, hlines.mpr ⟨by rfl, by rfl⟩⟩

/-- A history entry whose text has a line break takes two lines. -/
theorem dump_breaks_lines :
    let path : Path := ⟨Bytes.ofAscii "f"⟩
    let node : Node := .file 0o600 [4, 1, 6, 0x92, 0, 0xA3, 0x61, 0x0A, 0x62]
    let disk := Disk.put { workingDirectory := some [] } [path.bytes] node
    (Disk.contents node).read.error = none ∧ (Disk.contents node).read.frames.length = 1 ∧
      (dump path disk).out = "1970-01-01 00:00:01 history: command a\nb\n" ∧
      lineBreaks (dump path disk).out = 2 := by
  intro path node disk
  have hout : (dump path disk).out = "1970-01-01 00:00:01 history: command a\nb\n" := by
    decide +kernel
  refine ⟨by decide +kernel, by decide +kernel, hout, ?_⟩
  rw [hout]
  decide

end CommandLine

end SessionStore
