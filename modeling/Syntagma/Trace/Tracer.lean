import Syntagma.Trace.Json
import Syntagma.Trace.Listing

/-! The recorder that a session writes to. A disabled tracer records nothing but counts runs. -/

namespace Syntagma

structure Tracer where
  enabled : Bool := false
  /-- The channels recorded; all of them if none is given. -/
  channels : List Channel := []
  /-- Whether records are written as JSON or as lines for a reader. -/
  asJson : Bool := false
  /-- Whether each record is handed out as a line as soon as it is made. -/
  echoing : Bool := false
  /-- The number of the current run. -/
  run : Nat := 0
  /-- The time that new records get; the clock is the caller's. -/
  time : Nat := 0
  ring : TraceRing := .ofCapacity TraceRing.usualCapacity
  /-- The lines handed out and not yet taken, in order. -/
  echoed : List String := []
deriving Inhabited

namespace Tracer

def disabled : Tracer := {}

/-- An enabled tracer that hands out each record as a line. -/
def toReader : Tracer := { enabled := true, echoing := true }

def beginRun (t : Tracer) : Tracer := { t with run := t.run + 1 }

def records (t : Tracer) : List TraceRecord := t.ring.records

def recordText (t : Tracer) (r : TraceRecord) : String :=
  if t.asJson then TraceJson.recordText r else TraceListing.line {} r

def text (t : Tracer) (records : List TraceRecord) : String :=
  if t.asJson then TraceJson.text false records else TraceListing.text {} records

/-- Whether events of a channel are recorded. -/
def wants (t : Tracer) (channel : Channel) : Bool :=
  t.enabled && (t.channels.isEmpty || t.channels.contains channel)

/-- The lines to hand out for events that are recorded; a ring without room makes none. -/
def echoOf (t : Tracer) (events : List TraceEvent) : List String :=
  if t.echoing && t.ring.capacity != 0 then
    (TraceRing.numbered t.ring.nextId t.run t.time events).map t.recordText
  else []

/-- Records events that happen one after the other. -/
def recordAll (t : Tracer) (events : List TraceEvent) : Tracer :=
  let wanted := events.filter (fun e => t.wants e.channel)
  { t with ring := t.ring.pushAll t.run t.time wanted, echoed := t.echoed ++ t.echoOf wanted }

def record (t : Tracer) (event : TraceEvent) : Tracer := t.recordAll [event]

/-- Takes the lines handed out so far. -/
def takeEchoed (t : Tracer) : List String × Tracer := (t.echoed, { t with echoed := [] })

def clear (t : Tracer) : Tracer := { t with ring := t.ring.clear }

def clearChannel (t : Tracer) (channel : Channel) : Tracer :=
  { t with ring := t.ring.clearChannel channel }

end Tracer

end Syntagma
