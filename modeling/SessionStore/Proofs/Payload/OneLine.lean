import SessionStore.Entry.Schema
import SessionStore.Msgpack.Display
import SessionStore.Proofs.Results
import SessionStore.Proofs.Text.LineBreaks

/-! Values are shown, and the errors of payloads told, on one line. -/
namespace SessionStore

open Msgpack (Value)
open Text (lineBreaks lineBreaks_append_left lineBreaks_append_right lineBreaks_intercalate_eq_zero)

namespace Msgpack

theorem lineBreaks_byteListText (bytes : Bytes) : lineBreaks (byteListText bytes) = 0 := by
  have hbytes : lineBreaks (String.intercalate ", " (bytes.map fun b => toString b.toNat)) = 0 :=
    lineBreaks_intercalate_eq_zero (by decide) (List.forall_mem_map.mpr fun b _ =>
      Text.lineBreaks_repr b.toNat)
  unfold byteListText
  rwa [lineBreaks_append_right (by decide), lineBreaks_append_left (by decide)]

namespace Value

mutual

theorem lineBreaks_display : (v : Value) → lineBreaks v.display = 0
  | .nil => by rw [display]; decide
  | .bool b => by
    rw [display]
    split <;> decide
  | .int n => by
    rw [display]
    exact Text.lineBreaks_toString_int n.toInt
  | .float32 bits => by
    rw [display]
    exact Decimal.BinaryFormat.lineBreaks_toText _ _
  | .float64 bits => by
    rw [display]
    exact Decimal.BinaryFormat.lineBreaks_toText _ _
  | .str bytes => by
    rw [display]
    split
    · exact Text.lineBreaks_quote _
    · exact lineBreaks_byteListText bytes
  | .bin bytes => by
    rw [display]
    exact lineBreaks_byteListText bytes
  | .array items => by
    rw [display, lineBreaks_append_right (by decide), lineBreaks_append_left (by decide)]
    exact lineBreaks_intercalate_eq_zero (by decide) (lineBreaks_displayItems items)
  | .map pairs => by
    rw [display, lineBreaks_append_right (by decide), lineBreaks_append_left (by decide)]
    exact lineBreaks_intercalate_eq_zero (by decide) (lineBreaks_displayPairs pairs)
  | .ext type bytes => by
    rw [display, lineBreaks_append_right (by decide),
      lineBreaks_append_right (lineBreaks_byteListText bytes), lineBreaks_append_right (by decide),
        lineBreaks_append_left (by decide)]
    exact Text.lineBreaks_toString_int type.toInt

theorem lineBreaks_displayItems :
    (items : List Value) → ∀ text ∈ displayItems items, lineBreaks text = 0
  | [] => by simp [displayItems]
  | item :: rest => by
    rw [displayItems, List.forall_mem_cons]
    exact ⟨lineBreaks_display item, lineBreaks_displayItems rest⟩

theorem lineBreaks_displayPairs :
    (pairs : List (Value × Value)) → ∀ text ∈ displayPairs pairs, lineBreaks text = 0
  | [] => by simp [displayPairs]
  | (key, value) :: rest => by
    rw [displayPairs, List.forall_mem_cons, lineBreaks_append_left, lineBreaks_display value]
    · exact ⟨rfl, lineBreaks_displayPairs rest⟩
    · rw [lineBreaks_append_right (by decide), lineBreaks_display key]

end

end Value

theorem ReadError.lineBreaks_message (e : ReadError) : lineBreaks e.message = 0 := by
  unfold message
  split
  · decide
  · decide
  · decide
  · next declared present =>
    rw [lineBreaks_append_right (by decide), lineBreaks_append_left]
    · exact Text.lineBreaks_repr present
    · rw [lineBreaks_append_right (by decide), lineBreaks_append_left (by decide)]
      exact Text.lineBreaks_repr declared

end Msgpack

namespace Schema

variable {α β : Type}

def OneLine (reading : Reading α) : Prop := ∀ e, reading = .error e → lineBreaks e.message = 0

theorem oneLine_ok (a : α) : OneLine (.ok a) := fun _ h => nomatch h

theorem oneLine_error {e : SchemaError} (h : lineBreaks e.message = 0) :
    OneLine (.error e : Reading α) :=
  fun _ he => Except.error.inj he ▸ h

theorem OneLine.bind {reading : Reading α} {next : α → Reading β} (h : OneLine reading)
    (hnext : ∀ a, OneLine (next a)) : OneLine (reading >>= next) := by
  intro e he
  rcases Results.bind_eq_error_iff.mp he with he | ⟨a, -, he⟩
  · exact h e he
  · exact hnext a e he

theorem OneLine.map {reading : Reading α} (h : OneLine reading) (f : α → β) :
    OneLine (f <$> reading) := by
  cases reading with
  | ok a => exact oneLine_ok (f a)
  | error e => exact oneLine_error (h e rfl)

theorem oneLine_mapM {read : α → Reading β} (h : ∀ a, OneLine (read a)) (as : List α) :
    OneLine (as.mapM read) := by
  intro e he
  obtain ⟨a, -, he⟩ := Results.exists_error_of_mapM he
  exact h a e he

theorem oneLine_foldPairs {κ σ : Type} {keys : List (String × κ)} {put : σ → κ → Value → Reading σ}
    (h : ∀ state k value, OneLine (put state k value)) (state : σ) (pairs : List (Value × Value)) :
    OneLine (foldPairs keys put state pairs) := by
  induction pairs generalizing state with
  | nil => exact oneLine_ok state
  | cons pair rest ih =>
    rw [foldPairs]
    split
    · exact ih state
    · next k _ =>
      split
      · exact ih _
      · next e he => exact oneLine_error (h state k pair.2 e he)

section Parts

variable {field : String} (hf : lineBreaks field = 0) (value : Value)
include hf

theorem oneLine_wrongType {expected : String} (he : lineBreaks expected = 0) :
    OneLine (.error (.wrongType field expected) : Reading α) := by
  refine oneLine_error ?_
  change lineBreaks (field ++ " must be " ++ expected) = 0
  rw [lineBreaks_append_right he, lineBreaks_append_left hf]
  decide

theorem oneLine_string : OneLine (string field value) := by
  unfold string
  split
  · exact oneLine_ok _
  · exact oneLine_wrongType hf (by decide)

theorem oneLine_boolean : OneLine (boolean field value) := by
  unfold boolean
  split
  · exact oneLine_ok _
  · exact oneLine_wrongType hf (by decide)

theorem oneLine_unsigned : OneLine (unsigned field value) := by
  unfold unsigned
  split
  · exact oneLine_ok _
  · exact oneLine_wrongType hf (by decide)

theorem oneLine_signed : OneLine (signed field value) := by
  unfold signed
  split
  · exact oneLine_ok _
  · exact oneLine_wrongType hf (by decide)

theorem oneLine_pairs : OneLine (pairs field value) := by
  unfold pairs
  split
  · exact oneLine_ok _
  · exact oneLine_wrongType hf (by decide)

theorem oneLine_items : OneLine (items field value) := by
  unfold items
  split
  · exact oneLine_ok _
  · exact oneLine_wrongType hf (by decide)

theorem oneLine_missing : OneLine (.error (.missing field) : Reading α) :=
  oneLine_error ((lineBreaks_append_left (by decide) field).trans hf)

theorem oneLine_character : OneLine (character field value) := by
  refine (oneLine_unsigned hf value).bind fun code => ?_
  split
  · exact oneLine_ok _
  · refine oneLine_error ?_
    change lineBreaks (field ++ " is not a valid character: " ++ toString code) = 0
    rw [lineBreaks_append_right (Text.lineBreaks_toString code), lineBreaks_append_left hf]
    decide

end Parts

theorem oneLine_lineNumber (value : Value) : OneLine (lineNumber value) := by
  have hpositive (n : Int) : OneLine (.error (.lineNumber n) : Reading UInt64) :=
    oneLine_error ((lineBreaks_append_left (by decide) _).trans (Text.lineBreaks_toString_int n))
  unfold lineNumber
  split
  · split
    · split
      · exact hpositive 0
      · exact oneLine_ok _
    · exact hpositive _
  · exact oneLine_wrongType (by decide) (by decide)

theorem oneLine_column (value : Value) : OneLine (column value) := by
  unfold column
  split
  · split
    · exact oneLine_ok _
    · exact oneLine_error ((lineBreaks_append_left (by decide) _).trans
        (Text.lineBreaks_toString_int _))
  · exact oneLine_wrongType (by decide) (by decide)

end Schema

open Schema

theorem SearchPattern.Draft.oneLine_put (draft : Draft) (field : Field) (value : Value) :
    OneLine (draft.put field value) := by
  have hkey (flag : PatternFlag) : lineBreaks flag.key = 0 := by cases flag <;> decide
  cases field with
  | pattern => exact (oneLine_string (by decide) value).bind fun _ => oneLine_ok _
  | offset => exact (oneLine_signed (by decide) value).bind fun _ => oneLine_ok _
  | flag flag => exact (oneLine_boolean (hkey flag) value).bind fun _ => oneLine_ok _

theorem SearchPattern.oneLine_ofValue (value : Value) : OneLine (ofValue value) := by
  refine (oneLine_pairs (by decide) value).bind fun pairs => ?_
  refine (oneLine_foldPairs Draft.oneLine_put {} pairs).bind fun draft => ?_
  split
  · exact oneLine_ok _
  · exact oneLine_missing (by decide)

theorem Header.oneLine_ofValue (value : Value) : OneLine (ofValue value) :=
  (oneLine_pairs (by decide) value).bind fun _ => oneLine_ok _

theorem Replacement.oneLine_ofValue (value : Value) : OneLine (ofValue value) := by
  refine (oneLine_items (by decide) value).bind fun items => ?_
  split
  · exact oneLine_missing (by decide)
  · exact (oneLine_string (by decide) _).bind fun _ => oneLine_ok _

theorem HistoryItem.oneLine_ofValue (value : Value) : OneLine (ofValue value) := by
  have hseparator (type : HistoryType) (items : List Value) : OneLine (separatorOf type items) := by
    unfold separatorOf
    split
    · exact (oneLine_character (by decide) _).bind fun _ => oneLine_ok _
    · exact oneLine_ok _
  refine (oneLine_items (by decide) value).bind fun items => ?_
  split
  · exact oneLine_missing (by decide)
  · refine (oneLine_unsigned (by decide) _).bind fun id => ?_
    split
    · split
      · exact oneLine_missing (by decide)
      · exact (oneLine_string (by decide) _).bind fun _ =>
          (hseparator _ _).bind fun _ => oneLine_ok _
    · exact oneLine_error ((lineBreaks_append_left (by decide) _).trans
        (Text.lineBreaks_toString id))

theorem Register.Draft.oneLine_put (draft : Draft) (field : Field) (value : Value) :
    OneLine (draft.put field value) := by
  cases field with
  | contents =>
    refine (oneLine_items (by decide) value).bind fun items => ?_
    exact (oneLine_mapM (oneLine_string (by decide)) items).bind fun _ => oneLine_ok _
  | type =>
    refine (oneLine_unsigned (by decide) value).bind fun id => ?_
    split
    · exact oneLine_ok _
    · exact oneLine_error ((lineBreaks_append_left (by decide) _).trans
        (Text.lineBreaks_toString id))
  | width => exact (oneLine_unsigned (by decide) value).bind fun _ => oneLine_ok _
  | isUnnamed => exact (oneLine_boolean (by decide) value).bind fun _ => oneLine_ok _
  | name => exact (oneLine_character (by decide) value).bind fun _ => oneLine_ok _

theorem Register.oneLine_ofValue (value : Value) : OneLine (ofValue value) := by
  refine (oneLine_pairs (by decide) value).bind fun pairs => ?_
  refine (oneLine_foldPairs Draft.oneLine_put {} pairs).bind fun draft => ?_
  split
  · exact oneLine_missing (by decide)
  · exact oneLine_error (by decide)
  · exact oneLine_ok _

theorem Variable.oneLine_ofValue (value : Value) : OneLine (ofValue value) := by
  refine (oneLine_items (by decide) value).bind fun items => ?_
  split
  · exact oneLine_missing (by decide)
  · refine (oneLine_string (by decide) _).bind fun name => ?_
    split
    · exact oneLine_missing (by decide)
    · exact oneLine_ok _

theorem Mark.Draft.oneLine_put (draft : Draft) (field : Field) (value : Value) :
    OneLine (draft.put field value) := by
  cases field with
  | file => exact (oneLine_string (by decide) value).bind fun _ => oneLine_ok _
  | lnum => exact (oneLine_lineNumber value).bind fun _ => oneLine_ok _
  | col => exact (oneLine_column value).bind fun _ => oneLine_ok _
  | name => exact (oneLine_character (by decide) value).bind fun _ => oneLine_ok _

theorem Mark.oneLine_ofPairs (named : Bool) (pairs : List (Value × Value)) :
    OneLine (ofPairs named pairs) := by
  refine (oneLine_foldPairs Draft.oneLine_put {} pairs).bind fun draft => ?_
  split
  · exact oneLine_ok _
  · exact oneLine_missing (by decide)

theorem Mark.oneLine_ofValue (named : Bool) (value : Value) : OneLine (ofValue named value) :=
  (oneLine_pairs (by decide) value).bind fun pairs => oneLine_ofPairs named pairs

theorem Buffer.oneLine_ofValue (value : Value) : OneLine (ofValue value) :=
  (oneLine_pairs (by decide) value).bind fun pairs =>
    (Mark.oneLine_ofPairs false pairs).bind fun _ => oneLine_ok _

theorem Content.oneLine_ofValue (kind : Kind) (value : Value) : OneLine (ofValue kind value) := by
  cases kind with
  | header => exact (Header.oneLine_ofValue value).map _
  | searchPattern => exact (SearchPattern.oneLine_ofValue value).map _
  | replacement => exact (Replacement.oneLine_ofValue value).map _
  | history => exact (HistoryItem.oneLine_ofValue value).map _
  | register => exact (Register.oneLine_ofValue value).map _
  | «variable» => exact (Variable.oneLine_ofValue value).map _
  | globalMark => exact (Mark.oneLine_ofValue true value).map _
  | jump => exact (Mark.oneLine_ofValue false value).map _
  | bufferList =>
    refine (oneLine_items (by decide) value).bind fun items => ?_
    exact (oneLine_mapM Buffer.oneLine_ofValue items).bind fun _ => oneLine_ok _
  | localMark => exact (Mark.oneLine_ofValue true value).map _
  | change => exact (Mark.oneLine_ofValue false value).map _
  | unknown => exact oneLine_wrongType (by decide) (by decide)

theorem Schema.oneLine_payloadValue (payload : Bytes) : OneLine (payloadValue payload) := by
  unfold payloadValue
  split
  · next cause _ =>
      exact oneLine_error ((lineBreaks_append_left (by decide) _).trans cause.lineBreaks_message)
  · exact oneLine_ok _
  · next rest _ _ =>
      exact oneLine_error ((lineBreaks_append_right (by decide) _).trans (Text.lineBreaks_repr _))

theorem Kind.lineBreaks_name (kind : Kind) : lineBreaks kind.name = 0 := by
  cases kind <;> decide

theorem Frame.lineBreaks_message {frame : Frame} {e : Error} (h : frame.decode = .error e) :
    lineBreaks e.message = 0 := by
  unfold decode at h
  generalize (Kind.ofId frame.kind).getD .unknown = kind at h
  split at h
  · cases h
  · split at h
    · cases h
    · next cause hcause =>
      obtain rfl := Except.error.inj h
      have hmessage : lineBreaks cause.message = 0 :=
        ((oneLine_payloadValue frame.payload).bind (Content.oneLine_ofValue kind)) cause hcause
      change lineBreaks ("invalid " ++ kind.name ++ " entry at byte " ++ toString frame.offset ++
        ": " ++ cause.message) = 0
      rw [lineBreaks_append_right hmessage, lineBreaks_append_right (by decide),
        lineBreaks_append_right, lineBreaks_append_right (by decide),
          lineBreaks_append_left (by decide), kind.lineBreaks_name]
      exact Text.lineBreaks_repr frame.offset

end SessionStore
