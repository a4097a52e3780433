import Syntagma.Dictionary
import Syntagma.Trace.Event

/-! Storage for trace records. A ring keeps the latest records, the oldest first, and numbers
them without a gap, also across clearing. -/

namespace Syntagma

structure TraceRecord where
  id : Nat
  /-- The run of the pipeline in which the event happened. -/
  run : Nat
  /-- Nanoseconds since the trace began. -/
  timestamp : Nat
  event : TraceEvent
deriving DecidableEq, Inhabited, Repr

namespace TraceRecord

def channel (r : TraceRecord) : Channel := r.event.channel

end TraceRecord

/-- The last `n` elements, or all if there are fewer. -/
def keepLast {α : Type} (n : Nat) (l : List α) : List α := l.drop (l.length - n)

theorem length_keepLast {α : Type} (n : Nat) (l : List α) : (keepLast n l).length ≤ n := by
  simp [keepLast]
  omega

theorem keepLast_of_length_le {α : Type} {n : Nat} {l : List α} (h : l.length ≤ n) :
    keepLast n l = l := by
  simp [keepLast, Nat.sub_eq_zero_of_le h]

/-- Elements dropped once are not missed later. -/
theorem keepLast_append_keepLast {α : Type} (n : Nat) (l m : List α) :
    keepLast n (keepLast n l ++ m) = keepLast n (l ++ m) := by
  rcases Nat.le_total l.length n with h | h
  · rw [keepLast_of_length_le h]
  · have hd : (l.drop (l.length - n)).length = n := by simp; omega
    simp only [keepLast, List.length_append, hd]
    rw [← List.drop_append_of_le_length (Nat.sub_le _ _), List.drop_drop]
    congr 1
    omega

structure TraceRing where
  capacity : Nat
  /-- The number of the next record. -/
  nextId : Nat
  records : List TraceRecord
  length_le : records.length ≤ capacity

namespace TraceRing

/-- What a ring holds unless told otherwise. -/
def usualCapacity : Nat := 10000

def ofCapacity (capacity : Nat) : TraceRing := ⟨capacity, 0, [], Nat.zero_le _⟩

instance : Inhabited TraceRing := ⟨ofCapacity usualCapacity⟩

def size (r : TraceRing) : Nat := r.records.length

def isEmpty (r : TraceRing) : Bool := r.records.isEmpty

/-- Records for events that happen one after the other. -/
def numbered (nextId run timestamp : Nat) : List TraceEvent → List TraceRecord
  | [] => []
  | event :: rest => ⟨nextId, run, timestamp, event⟩ :: numbered (nextId + 1) run timestamp rest

/-- Adds a record for each event and forgets the oldest ones beyond the capacity. -/
def pushAll (r : TraceRing) (run timestamp : Nat) (events : List TraceEvent) : TraceRing where
  capacity := r.capacity
  nextId := r.nextId + events.length
  records := keepLast r.capacity (r.records ++ numbered r.nextId run timestamp events)
  length_le := length_keepLast _ _

/-- Adds one record; its number is the ring's next one. -/
def push (r : TraceRing) (run timestamp : Nat) (event : TraceEvent) : TraceRing :=
  r.pushAll run timestamp [event]

theorem pushAll_cons (r : TraceRing) (run timestamp : Nat) (event : TraceEvent)
    (rest : List TraceEvent) :
    r.pushAll run timestamp (event :: rest) =
      (r.push run timestamp event).pushAll run timestamp rest := by
  simp only [push, pushAll, numbered, List.length_cons, List.length_nil, TraceRing.mk.injEq,
    true_and]
  refine ⟨by omega, ?_⟩
  rw [keepLast_append_keepLast, List.append_assoc, List.singleton_append]

/-- Forgets all records. -/
def clear (r : TraceRing) : TraceRing := ⟨r.capacity, r.nextId, [], Nat.zero_le _⟩

/-- Forgets the records of one channel. -/
def clearChannel (r : TraceRing) (channel : Channel) : TraceRing where
  capacity := r.capacity
  nextId := r.nextId
  records := r.records.filter (fun e => e.channel ≠ channel)
  length_le := Nat.le_trans (List.length_filter_le _ _) r.length_le

def last? (r : TraceRing) : Option TraceRecord := r.records.getLast?

def ofRun (r : TraceRing) (run : Nat) : List TraceRecord := r.records.filter (fun e => e.run == run)

def ofChannel (r : TraceRing) (channel : Channel) : List TraceRecord :=
  r.records.filter (fun e => e.channel = channel)

def ofType (r : TraceRing) (typeName : String) : List TraceRecord :=
  r.records.filter (fun e => e.event.typeName == typeName)

/-- The records that end an analysis. -/
def verdicts (r : TraceRing) : List TraceRecord := r.records.filter (fun e => e.event.isVerdict)

def recent (r : TraceRing) (count : Nat) : List TraceRecord := keepLast count r.records

def oldestRun? (r : TraceRing) : Option Nat := r.records.head?.map (·.run)

def newestRun? (r : TraceRing) : Option Nat := r.last?.map (·.run)

/-- How often each name occurs. -/
def tally (names : List String) : Dictionary String Nat :=
  names.foldl (fun counts name => counts.insert name ((counts.get? name).getD 0 + 1)) .empty

def typeCounts (r : TraceRing) : Dictionary String Nat := tally (r.records.map (·.event.typeName))

def channelCounts (r : TraceRing) : Dictionary String Nat := tally (r.records.map (·.channel.text))

end TraceRing

end Syntagma
