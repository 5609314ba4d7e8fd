import SessionStore.Toml.DateTime

/-! Values of TOML documents. -/
namespace SessionStore.Toml

abbrev Key := List Char

/-- A value. Of a number with a fraction it only matters that it is one. -/
inductive Value where
  | string (text : List Char)
  | integer (n : Int)
  | boolean (b : Bool)
  | float
  /-- A number beyond 64 bits, which is an error where it is looked at. -/
  | tooLarge
  | dateTime (d : DateTime)
  | array (items : List Value)
  | table (entries : List (Key × Value))

/-- The key under which a table holds the text of a date or time that it stands for. -/
def dateTimeKey : Key := "$__toml_private_datetime".toList

/-- What a table holds under the key of a date or time, if no other key comes
before that one in order. -/
def leadingDateTime? (entries : List (Key × Value)) : Option Value :=
  if entries.any (fun entry => entry.1 < dateTimeKey) then none
  else (entries.find? fun entry => entry.1 = dateTimeKey).map Prod.snd

mutual

/-- A value with tables that stand for a date or time replaced by that; the rest
of such a table is not looked at. -/
def Value.resolve : Value → Option Value
  | .string text => some (.string text)
  | .integer n => some (.integer n)
  | .boolean b => some (.boolean b)
  | .float => some .float
  | .tooLarge => none
  | .dateTime d => some (.dateTime d)
  | .array items => (resolveItems items).map .array
  | .table entries =>
    match leadingDateTime? entries with
    | some (.string text) => (DateTime.read text).map .dateTime
    | some _ => none
    | none => (resolveEntries entries).map .table

def resolveItems : List Value → Option (List Value)
  | [] => some []
  | v :: rest => do return (← v.resolve) :: (← resolveItems rest)

def resolveEntries : List (Key × Value) → Option (List (Key × Value))
  | [] => some []
  | (key, v) :: rest => do return (key, ← v.resolve) :: (← resolveEntries rest)

end

end SessionStore.Toml
