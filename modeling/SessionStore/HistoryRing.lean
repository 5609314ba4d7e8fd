import SessionStore.Recency

/-! A history of bounded length in which every text stands once. -/
namespace SessionStore

/-- The lines of one history, from oldest to newest. -/
structure HistoryRing where
  capacity : Nat
  items : List (Timed HistoryItem) := []

namespace HistoryRing

def size (ring : HistoryRing) : Nat := ring.items.length

def isEmpty (ring : HistoryRing) : Bool := ring.items.isEmpty

def isFull (ring : HistoryRing) : Bool := ring.capacity ≤ ring.size

def oldest? (ring : HistoryRing) : Option Timestamp := ring.items.head?.map Timed.timestamp

/-- The line with this text. -/
def get? (ring : HistoryRing) (text : Bytes) : Option (Timed HistoryItem) :=
  ring.items.find? (·.value.text = text)

/-- Whether an incoming line takes the place of the one held with its text. -/
def replaces (item held : Timed HistoryItem) (preferIncoming : Bool) : Bool :=
  held.timestamp < item.timestamp || (item.timestamp = held.timestamp && preferIncoming)

/-- Puts a line behind all that are not newer. A text that is held stays as it is
unless the incoming line is newer, or as old and preferred; a ring that overflows
loses its first line. Answers whether the line was put in and stayed. -/
def insert (ring : HistoryRing) (item : Timed HistoryItem) (preferIncoming : Bool) :
    HistoryRing × Bool :=
  if ring.capacity = 0 then (ring, false)
  else if (ring.get? item.value.text).any (!replaces item · preferIncoming) then (ring, false)
  else
    let others := ring.items.filter (·.value.text ≠ item.value.text)
    let placed := Recency.place item others
    if ring.capacity < placed.length then
      ({ ring with items := placed.tail }, !(Recency.notNewer item.timestamp others).isEmpty)
    else ({ ring with items := placed }, true)

/-- Inserts lines that come newest first, up to the first one that is older than
everything in the full ring. -/
def fill (ring : HistoryRing) (preferIncoming : Bool) : List (Timed HistoryItem) → HistoryRing
  | [] => ring
  | item :: rest =>
    if ring.isFull && ring.oldest?.all (item.timestamp < ·) then ring
    else (ring.insert item preferIncoming).1.fill preferIncoming rest

end HistoryRing

end SessionStore
