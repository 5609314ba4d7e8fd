import SessionStore.Frame

/-! Writing entries one after the other, with an account of what was written and
what was left out. -/
namespace SessionStore

/-- Where bytes are written to. A limited sink refuses a write that would make
it longer than its limit, as a whole. -/
structure Sink where
  bytes : Bytes := []
  limit : Option Nat := none

/-- The sink with more bytes, unless it refuses them. -/
def Sink.write? (sink : Sink) (bytes : Bytes) : Option Sink :=
  if sink.limit.any (· < sink.bytes.length + bytes.length) then none
  else some { sink with bytes := sink.bytes ++ bytes }

/-- A sink, the longest payload it is to get, and the entries counted so far. -/
structure EntryWriter where
  sink : Sink := {}
  maxBytes : Option Nat := none
  written : Nat := 0
  skipped : Nat := 0

/-- Whether entries of a kind are written however long they are. -/
def Kind.isExemptFromLimit : Kind → Bool
  | .header | .bufferList | .unknown => true
  | _ => false

namespace EntryWriter

def skip (w : EntryWriter) : EntryWriter := { w with skipped := w.skipped + 1 }

/-- Writes the envelope and then the payload, unless it is empty; the sink may
take the first and refuse the second. -/
def writeFrame (w : EntryWriter) (kind : UInt64) (timestamp : Timestamp) (payload : Bytes) :
    EntryWriter × Option Error :=
  match w.sink.write? (Frame.envelope kind timestamp payload.length) with
  | none => (w, some (.system .writeEntry))
  | some enveloped =>
    if payload = [] then ({ w with sink := enveloped, written := w.written + 1 }, none)
    else
      match enveloped.write? payload with
      | none => ({ w with sink := enveloped }, some (.system .writeEntry))
      | some full => ({ w with sink := full, written := w.written + 1 }, none)

/-- Writes an entry, or leaves it out when it has no payload or one that is too long. -/
def write (w : EntryWriter) (entry : Entry) : EntryWriter × Option Error :=
  match entry.encode with
  | .error _ => (w.skip, none)
  | .ok payload =>
    if !entry.kind.isExemptFromLimit && w.maxBytes.any (· < payload.length) then (w.skip, none)
    else w.writeFrame entry.kindId entry.timestamp payload

end EntryWriter

end SessionStore
