import Mathlib.Data.List.Induction
import Syntagma.Trace.Ring

/-! What a ring keeps. A ring forgets its oldest records when it is full, and records are cleared in
between, so which records are forgotten hangs on what was cleared before. Whatever the order of the
steps, a record is still there as long as fewer records than fit have been pushed behind it and
nothing has cleared it. -/

namespace Syntagma

/-- What is done to a ring. -/
inductive RingStep where
  | push (run timestamp : Nat) (event : TraceEvent)
  | clear
  | clearChannel (channel : Channel)
deriving DecidableEq, Repr

namespace RingStep

def isPush : RingStep → Bool
  | .push _ _ _ => true
  | _ => false

/-- Whether the step clears the records of a channel. -/
def clears (channel : Channel) : RingStep → Bool
  | .push _ _ _ => false
  | .clear => true
  | .clearChannel c => c = channel

/-- How many records were pushed. -/
def pushes (steps : List RingStep) : Nat := steps.countP isPush

/-- The record was pushed in the course of the steps, with the number of those pushed before it, and
this is what was done later. -/
def Pushed (steps : List RingStep) (e : TraceRecord) (later : List RingStep) : Prop :=
  ∃ before, steps = before ++ .push e.run e.timestamp e.event :: later ∧ e.id = pushes before

/-- None of the steps clears the record. -/
def Spares (steps : List RingStep) (e : TraceRecord) : Prop :=
  ∀ step ∈ steps, step.clears e.channel = false

variable {steps later : List RingStep} {step : RingStep} {e : TraceRecord}

theorem pushes_append (l m : List RingStep) : pushes (l ++ m) = pushes l + pushes m :=
  List.countP_append

theorem pushes_singleton (step : RingStep) : pushes [step] = if step.isPush then 1 else 0 := by
  cases step <;> rfl

theorem Pushed.append_one (h : Pushed steps e later) (step : RingStep) :
    Pushed (steps ++ [step]) e (later ++ [step]) := by
  obtain ⟨before, rfl, hid⟩ := h
  exact ⟨before, by simp, hid⟩

theorem pushed_last (steps : List RingStep) (run timestamp : Nat) (event : TraceEvent) :
    Pushed (steps ++ [.push run timestamp event]) ⟨pushes steps, run, timestamp, event⟩ [] :=
  ⟨steps, rfl, rfl⟩

/-- A record pushed was pushed by the last step or before it. -/
theorem pushed_append_one (h : Pushed (steps ++ [step]) e later) :
    (later = [] ∧ step = .push e.run e.timestamp e.event ∧ e.id = pushes steps) ∨
      ∃ later', later = later' ++ [step] ∧ Pushed steps e later' := by
  obtain ⟨before, heq, hid⟩ := h
  rcases List.eq_nil_or_concat later with rfl | ⟨later', last, rfl⟩
  · obtain ⟨rfl, hlast⟩ := List.append_inj' heq rfl
    exact .inl ⟨rfl, List.singleton_inj.1 hlast, hid⟩
  · rw [List.concat_eq_append, ← List.cons_append, ← List.append_assoc] at heq
    obtain ⟨rfl, hlast⟩ := List.append_inj' heq rfl
    rw [List.singleton_inj.1 hlast, List.concat_eq_append]
    exact .inr ⟨later', rfl, before, rfl, hid⟩

theorem Spares.append_one (h : Spares steps e) (hs : step.clears e.channel = false) :
    Spares (steps ++ [step]) e := by
  intro s hmem
  rcases List.mem_append.1 hmem with hmem | hmem
  · exact h s hmem
  · rwa [List.mem_singleton.1 hmem]

theorem Spares.of_append_one (h : Spares (steps ++ [step]) e) :
    Spares steps e ∧ step.clears e.channel = false :=
  ⟨fun s hmem => h s (List.mem_append_left _ hmem), h step (by simp)⟩

end RingStep

namespace TraceRing

open RingStep

/-- Carries out a step. -/
def perform (r : TraceRing) : RingStep → TraceRing
  | .push run timestamp event => r.push run timestamp event
  | .clear => r.clear
  | .clearChannel channel => r.clearChannel channel

def performAll (r : TraceRing) (steps : List RingStep) : TraceRing := steps.foldl perform r

/-- The numbers that the pushes get, in order: each time the ring's next one. -/
def answers (r : TraceRing) : List RingStep → List Nat
  | [] => []
  | step :: rest =>
    if step.isPush then r.nextId :: (r.perform step).answers rest
    else (r.perform step).answers rest

variable {r : TraceRing} {steps later : List RingStep} {e : TraceRecord}

@[simp] theorem performAll_append_one (r : TraceRing) (steps : List RingStep) (step : RingStep) :
    r.performAll (steps ++ [step]) = (r.performAll steps).perform step := by
  simp [performAll]

@[simp] theorem capacity_perform (r : TraceRing) (step : RingStep) :
    (r.perform step).capacity = r.capacity := by
  cases step <;> rfl

theorem nextId_perform (r : TraceRing) (step : RingStep) :
    (r.perform step).nextId = r.nextId + pushes [step] := by
  cases step <;> rfl

/-- Whatever a ring is asked to do, the next numbers are handed out in order. -/
theorem answers_eq (r : TraceRing) (steps : List RingStep) :
    r.answers steps = List.range' r.nextId (pushes steps) := by
  induction steps generalizing r with
  | nil => rfl
  | cons step rest ih =>
    have hcount : pushes (step :: rest) = pushes [step] + pushes rest := pushes_append [step] rest
    rw [answers, ih, nextId_perform, hcount, pushes_singleton]
    cases step.isPush with
    | true => simp [Nat.add_comm 1, List.range'_succ]
    | false => simp

/-! ### Records forgotten -/

/-- Numbers in ascending order take up at least their count. -/
theorem add_length_lt_of_ascending {l : List TraceRecord} (hl : l.Pairwise (·.id < ·.id))
    {a n : Nat} (ha : a < n) (hbetween : ∀ e ∈ l, a < e.id ∧ e.id < n) : a + l.length < n := by
  induction l generalizing a with
  | nil => exact ha
  | cons first rest ih =>
    obtain ⟨hfirst, hrest⟩ := List.pairwise_cons.1 hl
    have hle := hbetween first List.mem_cons_self
    have := ih hrest hle.2 (fun e he => ⟨hfirst e he, (hbetween e (List.mem_cons_of_mem _ he)).2⟩)
    simp only [List.length_cons]
    omega

/-- A record is forgotten only if as many numbers as fit have been given behind its own. -/
theorem mem_keepLast_of_lt {l : List TraceRecord} (hl : l.Pairwise (·.id < ·.id)) {n next : Nat}
    (hlt : ∀ e ∈ l, e.id < next) (he : e ∈ l) (hn : next ≤ e.id + n) : e ∈ keepLast n l := by
  rw [← List.take_append_drop (l.length - n) l] at he hl
  rcases List.mem_append.1 he with he | he
  · obtain ⟨-, hdrop, hbefore⟩ := List.pairwise_append.1 hl
    have hcount := add_length_lt_of_ascending hdrop (hlt e (List.mem_of_mem_take he))
      (fun x hx => ⟨hbefore e he x hx, hlt x (List.mem_of_mem_drop hx)⟩)
    have hlength : l.length - n ≠ 0 := by
      intro h0
      simp [h0] at he
    simp only [List.length_drop] at hcount
    omega
  · exact he

/-! ### Histories -/

/-- The ring has come from a new one by the steps: what it holds was pushed and not cleared, and it
holds all of this that was pushed not too long ago. -/
structure Follows (r : TraceRing) (steps : List RingStep) : Prop where
  nextId_eq : r.nextId = pushes steps
  ascending : r.records.Pairwise (·.id < ·.id)
  below : ∀ e ∈ r.records, e.id < r.nextId
  pushed : ∀ e ∈ r.records, ∃ later, Pushed steps e later ∧ Spares later e
  kept (e : TraceRecord) (later : List RingStep) : Pushed steps e later → Spares later e →
    pushes later < r.capacity → e ∈ r.records

theorem follows_ofCapacity (capacity : Nat) : (ofCapacity capacity).Follows [] where
  nextId_eq := rfl
  ascending := .nil
  below _ he := absurd he List.not_mem_nil
  pushed _ he := absurd he List.not_mem_nil
  kept _ _ := by
    rintro ⟨before, heq, -⟩
    simp at heq

theorem Follows.push (h : r.Follows steps) (run timestamp : Nat) (event : TraceEvent) :
    (r.push run timestamp event).Follows (steps ++ [.push run timestamp event]) := by
  have hascending :
      (r.records ++ [(⟨r.nextId, run, timestamp, event⟩ : TraceRecord)]).Pairwise (·.id < ·.id) := by
    refine List.pairwise_append.2 ⟨h.ascending, List.pairwise_singleton _ _, fun e he x hx => ?_⟩
    rw [List.mem_singleton.1 hx]
    exact h.below e he
  have hbelow : ∀ e ∈ r.records ++ [⟨r.nextId, run, timestamp, event⟩], e.id < r.nextId + 1 := by
    intro e he
    rcases List.mem_append.1 he with he | he
    · exact Nat.lt_succ_of_lt (h.below e he)
    · rw [List.mem_singleton.1 he]
      exact Nat.lt_succ_self _
  refine ⟨?_, ?_, ?_, ?_, ?_⟩
  · rw [pushes_append, ← h.nextId_eq]
    rfl
  · exact hascending.sublist (List.drop_sublist _ _)
  · exact fun e he => hbelow e (List.mem_of_mem_drop he)
  · intro e he
    rcases List.mem_append.1 (List.mem_of_mem_drop he) with he | he
    · obtain ⟨later, hpushed, hspares⟩ := h.pushed e he
      exact ⟨later ++ [.push run timestamp event], hpushed.append_one _, hspares.append_one rfl⟩
    · rw [List.mem_singleton.1 he, h.nextId_eq]
      exact ⟨[], pushed_last _ _ _ _, fun _ hs => absurd hs List.not_mem_nil⟩
  · intro e later hpushed hspares hlater
    change pushes later < r.capacity at hlater
    rcases pushed_append_one hpushed with ⟨rfl, hstep, hid⟩ | ⟨later', rfl, hbefore⟩
    · cases hstep
      refine mem_keepLast_of_lt hascending hbelow (List.mem_append_right _ ?_) ?_
      · rw [List.mem_singleton, h.nextId_eq, ← hid]
      · rw [h.nextId_eq, ← hid]
        change 0 < r.capacity at hlater
        omega
    · have hcount : pushes (later' ++ [.push run timestamp event]) = pushes later' + 1 :=
        pushes_append _ _
      have hold := h.kept e later' hbefore hspares.of_append_one.1 (by omega)
      refine mem_keepLast_of_lt hascending hbelow (List.mem_append_left _ hold) ?_
      obtain ⟨before, hsteps, hid⟩ := hbefore
      have hall : pushes steps = pushes before + (1 + pushes later') := by
        rw [hsteps, pushes_append, ← List.singleton_append, pushes_append]
        rfl
      rw [h.nextId_eq]
      omega

/-- Clearing takes away the records of some channels and nothing else. -/
theorem Follows.clearing (h : r.Follows steps) {r' : TraceRing} {step : RingStep}
    (hstep : step.isPush = false) (hcapacity : r'.capacity = r.capacity)
    (hnext : r'.nextId = r.nextId)
    (hrecords : r'.records = r.records.filter (fun e => !step.clears e.channel)) :
    r'.Follows (steps ++ [step]) := by
  have hcount (l : List RingStep) : pushes (l ++ [step]) = pushes l := by
    rw [pushes_append, pushes_singleton, hstep, if_neg Bool.false_ne_true, Nat.add_zero]
  have hmem {e : TraceRecord} :
      e ∈ r'.records ↔ e ∈ r.records ∧ step.clears e.channel = false := by
    rw [hrecords, List.mem_filter, Bool.not_eq_true']
  refine ⟨?_, ?_, ?_, ?_, ?_⟩
  · rw [hcount, hnext, h.nextId_eq]
  · rw [hrecords]
    exact h.ascending.sublist List.filter_sublist
  · intro e he
    rw [hnext]
    exact h.below e (hmem.1 he).1
  · intro e he
    obtain ⟨later, hpushed, hspares⟩ := h.pushed e (hmem.1 he).1
    exact ⟨later ++ [step], hpushed.append_one step, hspares.append_one (hmem.1 he).2⟩
  · intro e later hpushed hspares hlater
    rcases pushed_append_one hpushed with ⟨-, rfl, -⟩ | ⟨later', rfl, hbefore⟩
    · exact absurd hstep.symm Bool.false_ne_true
    · rw [hcount, hcapacity] at hlater
      exact hmem.2 ⟨h.kept e later' hbefore hspares.of_append_one.1 hlater, hspares.of_append_one.2⟩

theorem Follows.perform (h : r.Follows steps) (step : RingStep) :
    (r.perform step).Follows (steps ++ [step]) := by
  cases step with
  | push run timestamp event => exact h.push run timestamp event
  | clear => exact h.clearing rfl rfl rfl (by simp [TraceRing.perform, clear, clears])
  | clearChannel channel =>
    refine h.clearing rfl rfl rfl (List.filter_congr fun e _ => ?_)
    rw [clears, ← decide_not, decide_eq_decide]
    exact ne_comm

theorem follows_performAll (capacity : Nat) (steps : List RingStep) :
    ((ofCapacity capacity).performAll steps).Follows steps ∧
      ((ofCapacity capacity).performAll steps).capacity = capacity := by
  induction steps using List.reverseRecOn with
  | nil => exact ⟨follows_ofCapacity capacity, rfl⟩
  | append_singleton steps step ih =>
    rw [performAll_append_one, capacity_perform]
    exact ⟨ih.1.perform step, ih.2⟩

/-- Whatever is done to a new ring, its pushes get the numbers from 0 on. It never holds more than
fits. What it holds stands in the order of pushing, as it was pushed, and was not cleared later; and
each record with fewer pushes behind it than fit is held unless it was cleared later. -/
theorem keeps_what_was_pushed (capacity : Nat) (steps : List RingStep) :
    (ofCapacity capacity).answers steps = List.range (pushes steps) ∧
      ((ofCapacity capacity).performAll steps).size ≤ capacity ∧
      ((ofCapacity capacity).performAll steps).records.Pairwise (·.id < ·.id) ∧
      (∀ e ∈ ((ofCapacity capacity).performAll steps).records,
        ∃ later, Pushed steps e later ∧ Spares later e) ∧
      ∀ e later, Pushed steps e later → Spares later e → pushes later < capacity →
        e ∈ ((ofCapacity capacity).performAll steps).records := by
  obtain ⟨h, hcapacity⟩ := follows_performAll capacity steps
  refine ⟨?_, ?_, h.ascending, h.pushed, fun e later hpushed hspares hlater => ?_⟩
  · rw [answers_eq, List.range_eq_range']
    rfl
  · exact Nat.le_trans (TraceRing.length_le _) (Nat.le_of_eq hcapacity)
  · exact h.kept e later hpushed hspares (hcapacity.symm ▸ hlater)

/-- A channel is cleared in a full ring of two: the next push forgets nothing, the one behind it
forgets the oldest record. -/
example (a b c d : Nat) :
    ((ofCapacity 2).performAll [.push 1 a (.backtrack 0), .push 1 b (.finiteBuilt 3),
      .clearChannel .automata, .push 2 c (.backtrack 4)]).records =
        [⟨0, 1, a, .backtrack 0⟩, ⟨2, 2, c, .backtrack 4⟩] ∧
      ((ofCapacity 2).performAll [.push 1 a (.backtrack 0), .push 1 b (.finiteBuilt 3),
        .clearChannel .automata, .push 2 c (.backtrack 4), .push 2 d (.backtrack 5)]).records =
          [⟨2, 2, c, .backtrack 4⟩, ⟨3, 2, d, .backtrack 5⟩] :=
  ⟨rfl, rfl⟩

end TraceRing

end Syntagma
