import SessionStore.Proofs.Payload.Parts

/-! Which entries can be stored, and what they are when they come back. -/
namespace SessionStore

open Msgpack (Value)
open Schema (optionalPair)

def ExtraPairs.stored (extra : ExtraPairs) : ExtraPairs := extra.map Value.storedPair

theorem ExtraPairs.Fit.unknown_stored {κ : Type} {keys : List (String × κ)} {depth fields : Nat}
    {extra : ExtraPairs} (h : extra.Fit keys depth fields) :
    ∀ pair ∈ extra.stored, Schema.keyIn keys pair.1 = none :=
  List.forall_mem_map.mpr fun pair hp => (Schema.keyIn_stored pair.1).trans (h.unknown pair hp)

def ExtraItems.stored (extra : ExtraItems) : ExtraItems := extra.map Value.stored

/-- The depth that is left for the parts of a payload. -/
def partDepth : Nat := Value.depthBudget - 2

namespace Header

def stored (header : Header) : Header := { fields := ExtraPairs.stored header.fields }

def Storable (header : Header) : Prop :=
  ExtraPairs.Fit ([] : List (String × Empty)) partDepth 0 header.fields

end Header

namespace SearchPattern

def stored (p : SearchPattern) : SearchPattern := { p with additional := p.additional.stored }

def fields (p : SearchPattern) : List (Value × Value) :=
  (.ofAscii "sp", .str p.pattern) ::
    p.writtenFlags.map (fun flag => (.ofAscii flag.key, .bool (p.flag flag))) ++
    optionalPair (p.offset ≠ 0) "so" (.int (.ofInt64 p.offset))

structure Storable (p : SearchPattern) : Prop where
  text : p.pattern.length < 2 ^ 32
  extra : p.additional.Fit keys partDepth p.fields.length

end SearchPattern

namespace Replacement

def stored (r : Replacement) : Replacement := { r with additional := r.additional.stored }

structure Storable (r : Replacement) : Prop where
  text : r.text.length < 2 ^ 32
  extra : r.additional.Fit partDepth 1

end Replacement

namespace HistoryItem

def stored (item : HistoryItem) : HistoryItem := { item with additional := item.additional.stored }

/-- Only a search has a separator, and one without separator has nothing that
could be taken for it. -/
structure Storable (item : HistoryItem) : Prop where
  text : item.text.length < 2 ^ 32
  separator : item.type ≠ .search → item.separator = none
  extra : item.additional.Fit partDepth (2 + item.separator.toList.length)
  unambiguous : item.type = .search → item.separator = none → item.additional = []

end HistoryItem

namespace Register

def stored (r : Register) : Register := { r with additional := r.additional.stored }

def fields (r : Register) : List (Value × Value) :=
  (.ofAscii "rc", .array (r.contents.map .str)) ::
    optionalPair (r.type ≠ .charWise) "rt" (.ofUInt64 r.type.id) ++
    optionalPair (r.width ≠ 0) "rw" (.ofUInt64 r.width) ++
    optionalPair r.isUnnamed "ru" (.bool true) ++
    [(.ofAscii "n", .ofUInt64 (UInt64.ofNat r.name.toNat))]

structure Storable (r : Register) : Prop where
  contents : r.contents ≠ []
  size : r.contents.length < 2 ^ 32
  lines : ∀ line ∈ r.contents, line.length < 2 ^ 32
  extra : r.additional.Fit keys partDepth r.fields.length

end Register

namespace Variable

def stored (v : Variable) : Variable :=
  { v with value := v.value.stored, additional := v.additional.stored }

structure Storable (v : Variable) : Prop where
  name : v.name.length < 2 ^ 32
  value : v.value.Fits partDepth
  extra : v.additional.Fit partDepth 2

end Variable

namespace Mark

def stored (mark : Mark) : Mark := { mark with additional := mark.additional.stored }

def fields (named : Bool) (mark : Mark) : List (Value × Value) :=
  (.ofAscii "f", .str mark.file.bytes) ::
    optionalPair (mark.lnum ≠ 1) "l" (.ofUInt64 mark.lnum) ++
    optionalPair (mark.col ≠ 0) "c" (.ofUInt64 mark.col) ++
    optionalPair (named && mark.name ≠ defaultName) "n" (.ofUInt64 (UInt64.ofNat mark.name.toNat))

structure Storable (named : Bool) (depth : Nat) (mark : Mark) : Prop where
  lnum : mark.lnum ≠ 0
  file : mark.file.bytes.length < 2 ^ 32
  name : named = false → mark.name = defaultName
  extra : mark.additional.Fit (keys named) depth (mark.fields named).length

end Mark

namespace Buffer

def mark (b : Buffer) : Mark :=
  { file := b.file, lnum := b.lnum, col := b.col, additional := b.additional }

def stored (b : Buffer) : Buffer := { b with additional := b.additional.stored }

/-- Buffers stand in a list and so have less depth left than other places. -/
def Storable (b : Buffer) : Prop := b.mark.Storable false (partDepth - 2)

end Buffer

namespace Content

/-- What comes back when the content is stored: strings that are not text,
within values that are only carried along, are binary data then. -/
def stored : Content → Content
  | .header h => .header h.stored
  | .searchPattern p => .searchPattern p.stored
  | .replacement r => .replacement r.stored
  | .history item => .history item.stored
  | .register r => .register r.stored
  | .variable v => .variable v.stored
  | .globalMark mark => .globalMark mark.stored
  | .jump mark => .jump mark.stored
  | .bufferList buffers => .bufferList (buffers.map Buffer.stored)
  | .localMark mark => .localMark mark.stored
  | .change mark => .change mark.stored
  | .unknown id payload => .unknown id payload

/-- Whether what is stored can be understood again. -/
def Storable : Content → Prop
  | .header h => h.Storable
  | .searchPattern p => p.Storable
  | .replacement r => r.Storable
  | .history item => item.Storable
  | .register r => r.Storable
  | .variable v => v.Storable
  | .globalMark mark | .localMark mark => mark.Storable true partDepth
  | .jump mark | .change mark => mark.Storable false partDepth
  | .bufferList buffers => buffers.length < 2 ^ 32 ∧ ∀ b ∈ buffers, b.Storable
  | .unknown id _ => (Kind.ofId id).getD .unknown = .unknown

end Content

def Entry.stored (entry : Entry) : Entry := { entry with content := entry.content.stored }

end SessionStore
