import Mathlib.Data.List.Basic
import Syntagma.Console

/-! The inputs of a console. What a run reads is told as a grammar over the attempts to read: groups
of lines, each complete, or cut by an interrupt, a failure or the end of input. A run reads one such
sentence to its end and no further, and its history and its runs are those of the inputs that the
complete groups make. -/

namespace Syntagma

namespace Console

/-- Whether a line goes on with the next one. -/
def GoesOn (line : String) : Prop := ∃ front, line = front ++ "\\"

/-- Lines that go on with the next one, by what stands before their last backslash. -/
def opening (fronts : List String) : List ConsoleEvent :=
  fronts.map (fun front => .line (front ++ "\\"))

/-- The input that a group of lines makes. -/
def joined (fronts : List String) (last : String) : String := "\n".intercalate (fronts ++ [last])

/-- What cuts a group that has begun with these lines; the end of input does so only if there are
any. -/
def Cuts (fronts : List String) : ConsoleEvent → Prop
  | .line _ => False
  | .interrupt => True
  | .failure _ => True
  | .endOfInput => fronts ≠ []

/-- Whether the input tells the console to finish. -/
def quits (input : String) : Bool := isQuit (Text.trimText input)

/-- Attempts to read up to the last one of a run, and the inputs that they complete, in order. -/
inductive Reads : List ConsoleEvent → List String → Prop where
  /-- The end of input where a group would begin. -/
  | stop : Reads [.endOfInput] []
  | quit {fronts : List String} {last : String} (hl : ¬ GoesOn last)
    (hq : quits (joined fronts last)) :
    Reads (opening fronts ++ [.line last]) [joined fronts last]
  | complete {fronts : List String} {last : String} {rest : List ConsoleEvent}
    {inputs : List String} (hl : ¬ GoesOn last) (hq : quits (joined fronts last) = false)
    (h : Reads rest inputs) :
    Reads (opening fronts ++ .line last :: rest) (joined fronts last :: inputs)
  | cut {fronts : List String} {event : ConsoleEvent} {rest : List ConsoleEvent}
    {inputs : List String} (hc : Cuts fronts event) (h : Reads rest inputs) :
    Reads (opening fronts ++ event :: rest) inputs

/-- Whether the input is checked as a script: it is neither blank nor a command. -/
def isScript (input : String) : Bool :=
  !Text.isBlankText input && !isCommand (Text.trimText input).toList

/-! ### Lines -/

variable {c : Console} {line front last : String} {fronts : List String}

/-- The unfinished input with one more line. -/
def started (pending : Option String) (line : String) : String :=
  match pending with
  | some lines => lines ++ "\n" ++ line
  | none => line

theorem goesOn_iff : GoesOn line ↔ line.toList.reverse.head? = some '\\' := by
  constructor
  · rintro ⟨front, rfl⟩
    simp
  · intro h
    obtain ⟨rest, hrest⟩ := List.head?_eq_some_iff.1 h
    refine ⟨String.ofList rest.reverse, String.toList_inj.1 ?_⟩
    rw [← List.reverse_inj, hrest]
    simp

/-- A line feed is no backslash, so only the line added tells whether the input goes on. -/
theorem goesOn_started (pending : Option String) (line : String) :
    GoesOn (started pending line) ↔ GoesOn line := by
  rw [goesOn_iff, goesOn_iff]
  cases pending with
  | none => rfl
  | some lines =>
    simp only [started, String.toList_append, List.reverse_append]
    cases hr : line.toList.reverse with
    | nil => simp
    | cons ch rest => simp

theorem intercalate_started (pending : Option String) (rest : List String) (hr : rest ≠ []) :
    "\n".intercalate (started pending line :: rest) =
      "\n".intercalate (pending.toList ++ line :: rest) := by
  cases pending with
  | none => rfl
  | some lines =>
    rw [Option.toList_some, List.singleton_append, String.intercalate_cons_cons,
      String.intercalate_cons_of_ne_nil hr, String.intercalate_cons_of_ne_nil hr, started]
    simp only [String.append_assoc]

/-- What is pending behind lines that go on. -/
def pendingBehind (pending : Option String) (fronts : List String) : Option String :=
  fronts.foldl (fun p front => some (started p front)) pending

theorem started_pendingBehind (pending : Option String) (fronts : List String) (last : String) :
    started (pendingBehind pending fronts) last =
      "\n".intercalate (pending.toList ++ fronts ++ [last]) := by
  induction fronts generalizing pending with
  | nil =>
    cases pending with
    | none => simp [pendingBehind, started]
    | some lines => simp [pendingBehind, started, String.intercalate_cons_cons]
  | cons front rest ih =>
    rw [pendingBehind, List.foldl_cons]
    refine (ih (some (started pending front))).trans ?_
    rw [Option.toList_some, List.append_assoc, List.singleton_append,
      intercalate_started pending (rest ++ [last]) (by simp)]
    simp

theorem isSome_pendingBehind (pending : Option String) (h : fronts ≠ []) :
    (pendingBehind pending fronts).isSome := by
  obtain ⟨front, rest, rfl⟩ := List.exists_cons_of_ne_nil h
  rw [pendingBehind, List.foldl_cons, ← pendingBehind]
  clear h
  induction rest generalizing pending front with
  | nil => rfl
  | cons second rest ih => exact ih _ second

/-! ### Groups -/

theorem feed_line (hf : c.finished = false) (line : String) :
    c.feed (.line line) = match (started c.pending line).toList.reverse with
      | '\\' :: rest => { c with pending := some (String.ofList rest.reverse) }
      | _ => ({ c with pending := none }).accept (started c.pending line) := by
  have hline : c.feed (.line line) = c.acceptLine line := by simp [feed, hf]
  rw [hline]
  rfl

theorem feed_goesOn (hf : c.finished = false) (front : String) :
    c.feed (.line (front ++ "\\")) = { c with pending := some (started c.pending front) } := by
  have hinput : (started c.pending (front ++ "\\")).toList.reverse =
      '\\' :: (started c.pending front).toList.reverse := by
    cases c.pending <;> simp [started]
  rw [feed_line hf, hinput]
  simp only [List.reverse_reverse, String.ofList_toList]

theorem feed_last (hf : c.finished = false) (hl : ¬ GoesOn last) :
    c.feed (.line last) = ({ c with pending := none }).accept (started c.pending last) := by
  have hhead := mt goesOn_iff.2 (mt (goesOn_started c.pending last).1 hl)
  rw [feed_line hf]
  split
  next rest hr => exact absurd (by rw [hr]; rfl) hhead
  next => rfl

theorem feed_opening (hf : c.finished = false) (fronts : List String) :
    (opening fronts).foldl feed c = { c with pending := pendingBehind c.pending fronts } := by
  induction fronts generalizing c with
  | nil => rfl
  | cons front rest ih =>
    rw [opening, List.map_cons, List.foldl_cons, feed_goesOn hf]
    exact ih hf

/-- A group that is complete is accepted as one input. -/
theorem feed_group (hp : c.pending = none) (hf : c.finished = false) (hl : ¬ GoesOn last) :
    (opening fronts ++ [ConsoleEvent.line last]).foldl feed c = c.accept (joined fronts last) := by
  have hsame : ({ c with pending := none } : Console) = c := by rw [← hp]
  rw [List.foldl_append, feed_opening hf, List.foldl_cons, List.foldl_nil,
    feed_last (by exact hf) hl]
  simp only [hsame, started_pendingBehind, hp, Option.toList_none, List.nil_append, joined]

/-- A group that is cut leaves nothing behind but a message. -/
theorem feed_cut (hp : c.pending = none) (hf : c.finished = false) {event : ConsoleEvent}
    (hc : Cuts fronts event) : ∃ out err,
      (opening fronts ++ [event]).foldl feed c = { c with out := out, err := err } := by
  rw [List.foldl_append, feed_opening hf, List.foldl_cons, List.foldl_nil, hp]
  cases event with
  | line text => exact hc.elim
  | interrupt =>
    cases hb : pendingBehind none fronts with
    | none => exact ⟨c.out, c.err, by simp [feed, hf]⟩
    | some lines =>
      refine ⟨c.out ++ "Input cancelled.\n", c.err, ?_⟩
      simp [feed, hf, write]
  | failure problem =>
    refine ⟨c.out, c.err ++ "Error: " ++ (Fault.of (.internal problem)).message ++ "\n", ?_⟩
    simp [feed, hf, writeFault]
  | endOfInput =>
    obtain ⟨lines, hlines⟩ := Option.isSome_iff_exists.1 (isSome_pendingBehind none hc)
    refine ⟨c.out, c.err ++ "Error: " ++ unexpectedEnd.message ++ "\n", ?_⟩
    simp [feed, hf, hlines, writeFault]

/-! ### Inputs -/

variable {input : String}

theorem isEmpty_trimText (input : String) :
    (Text.trimText input).isEmpty = Text.isBlankText input := by
  rw [Bool.eq_iff_iff, String.isEmpty_iff, ← String.toList_eq_nil_iff, Text.trimText,
    String.toList_ofList, Text.trim_eq_nil_iff, Text.isBlankText]

/-- The command to finish is a command and not blank. -/
theorem isScript_of_quits (h : quits input) :
    Text.isBlankText input = false ∧ isScript input = false := by
  have hq : Text.trimText input = ":quit" ∨ Text.trimText input = ":q" := by
    simpa [quits, isQuit] using h
  have hletter : Text.isAlphabetic 'q' := Text.isAlphabetic_of_isAlpha rfl
  have hcommand : isCommand (Text.trimText input).toList := by
    rcases hq with hq | hq <;> rw [hq] <;> exact hletter
  refine ⟨?_, by rw [isScript, hcommand, Bool.not_true, Bool.and_false]⟩
  rw [← isEmpty_trimText]
  rcases hq with hq | hq <;> rw [hq] <;> rfl

/-- Each run of a session is counted, however it ends. -/
theorem run_run (s : Session) (script : String) :
    (s.run script).2.tracer.run = s.tracer.run + 1 := by
  unfold Session.run
  dsimp only
  split <;> rfl

/-- Nothing but the session, the output and the switches has changed. -/
structure Kept (c c' : Console) : Prop where
  pending : c'.pending = c.pending
  finished : c'.finished = c.finished
  history : c'.history = c.history

theorem command_spec (c : Console) (text : String) :
    Kept c (c.command text).2 ∧ (c.command text).2.session.tracer.run = c.session.tracer.run := by
  unfold command
  dsimp only
  split_ifs <;> exact ⟨⟨rfl, rfl, rfl⟩, rfl⟩

theorem eval_spec (c : Console) (input : String) :
    Kept c (c.eval input).2 ∧ (c.eval input).2.session.tracer.run =
      c.session.tracer.run + if isCommand (Text.trimText input).toList then 0 else 1 := by
  unfold eval
  dsimp only
  split
  · exact command_spec c _
  · exact ⟨⟨rfl, rfl, rfl⟩, run_run c.session input⟩

theorem perform_spec (c : Console) (input : String) :
    Kept c (c.perform input) ∧ (c.perform input).session.tracer.run =
      c.session.tracer.run + if isCommand (Text.trimText input).toList then 0 else 1 := by
  have hspec := eval_spec c input
  rcases he : c.eval input with ⟨result, c'⟩
  rw [he] at hspec
  obtain ⟨⟨hpending, hfinished, hhistory⟩, hrun⟩ := hspec
  rw [perform, he]
  cases result with
  | ok text => exact ⟨⟨hpending, hfinished, hhistory⟩, hrun⟩
  | error fault => exact ⟨⟨hpending, hfinished, hhistory⟩, hrun⟩

/-- What becomes of a console that accepts an input. -/
theorem accept_spec (c : Console) (input : String) :
    (c.accept input).pending = c.pending ∧
      (c.accept input).finished = (c.finished || quits input) ∧
      (c.accept input).history = c.history ++ [input].filter (fun i => !Text.isBlankText i) ∧
      (c.accept input).session.tracer.run =
        c.session.tracer.run + ([input].filter isScript).length := by
  unfold accept
  dsimp only
  rw [isEmpty_trimText]
  split
  next hblank =>
    have hq : quits input = false := by
      by_contra hq
      rw [(isScript_of_quits (by simpa using hq)).1] at hblank
      exact Bool.false_ne_true hblank
    simp [hblank, hq, isScript]
  next hblank =>
    split
    next hq =>
      have hq : quits input := hq
      simp [hblank, hq, (isScript_of_quits hq).2]
    next hq =>
      have hq : quits input = false := Bool.eq_false_iff.2 hq
      obtain ⟨⟨hpending, hfinished, hhistory⟩, hrun⟩ :=
        perform_spec { c with history := c.history ++ [input] } input
      refine ⟨hpending, by rw [hfinished, hq, Bool.or_false], ?_, ?_⟩
      · rw [hhistory]
        simp [hblank]
      · rw [hrun]
        by_cases hcommand : isCommand (Text.trimText input).toList <;>
          simp [isScript, hblank, hcommand]

/-! ### Runs -/

variable {consumed : List ConsoleEvent} {inputs : List String}

theorem foldl_feed_finished (hf : c.finished) (events : List ConsoleEvent) :
    events.foldl feed c = c := by
  induction events with
  | nil => rfl
  | cons event rest ih => rw [List.foldl_cons, feed_finished hf, ih]

theorem prompts_finished (hf : c.finished) (events : List ConsoleEvent) :
    c.prompts events = [] := by
  cases events with
  | nil => rfl
  | cons event rest => rw [prompts, if_pos hf]

theorem length_prompts_cons (hf : c.finished = false) (event : ConsoleEvent)
    (rest : List ConsoleEvent) :
    (c.prompts (event :: rest)).length = ((c.feed event).prompts rest).length + 1 := by
  rw [prompts, if_neg (Bool.eq_false_iff.1 hf), List.length_cons]

/-- Every line of a group is read with a prompt, and so is what ends it. -/
theorem length_prompts_group (hf : c.finished = false) (fronts : List String) (event : ConsoleEvent)
    (rest : List ConsoleEvent) :
    (c.prompts (opening fronts ++ event :: rest)).length =
      (((opening fronts ++ [event]).foldl feed c).prompts rest).length + fronts.length + 1 := by
  induction fronts generalizing c with
  | nil => exact length_prompts_cons hf event rest
  | cons front others ih =>
    rw [opening, List.map_cons, List.cons_append, length_prompts_cons hf, ← opening,
      ih (by rw [feed_goesOn hf]; exact hf), List.length_cons]
    rfl

/-- A run reads its sentence and no further. Its history is that of the inputs that are not blank,
and it has checked as many scripts as there are among them. -/
theorem Reads.feed (h : Reads consumed inputs) (hp : c.pending = none) (hf : c.finished = false)
    (unread : List ConsoleEvent) :
    ((consumed ++ unread).foldl Console.feed c).finished ∧
      (c.prompts (consumed ++ unread)).length = consumed.length ∧
      ((consumed ++ unread).foldl Console.feed c).history =
        c.history ++ inputs.filter (fun i => !Text.isBlankText i) ∧
      ((consumed ++ unread).foldl Console.feed c).session.tracer.run =
        c.session.tracer.run + (inputs.filter isScript).length := by
  induction h generalizing c with
  | stop =>
    have hfeed : c.feed .endOfInput = { c with finished := true } := by simp [Console.feed, hf, hp]
    rw [List.singleton_append, List.foldl_cons, hfeed, foldl_feed_finished rfl,
      length_prompts_cons hf, hfeed, prompts_finished rfl]
    exact ⟨rfl, rfl, (List.append_nil _).symm, rfl⟩
  | @quit fronts last hl hq =>
    obtain ⟨-, hfinished, hhistory, hrun⟩ := accept_spec c (joined fronts last)
    rw [hq, Bool.or_true] at hfinished
    rw [List.foldl_append, feed_group hp hf hl, foldl_feed_finished hfinished, List.append_assoc,
      List.singleton_append, length_prompts_group hf, feed_group hp hf hl,
      prompts_finished hfinished]
    exact ⟨hfinished, by simp [opening], hhistory, hrun⟩
  | @complete fronts last rest inputs hl hq hrest ih =>
    obtain ⟨hpending, hfinished, hhistory, hrun⟩ := accept_spec c (joined fronts last)
    rw [hf, hq, Bool.or_false] at hfinished
    have hsplit : opening fronts ++ ConsoleEvent.line last :: rest ++ unread =
        (opening fronts ++ [ConsoleEvent.line last]) ++ (rest ++ unread) := by simp
    obtain ⟨hend, hlength, hhistory', hrun'⟩ := ih (hpending.trans hp) hfinished
    rw [hsplit, List.foldl_append, feed_group hp hf hl, List.append_assoc, List.singleton_append,
      length_prompts_group hf, feed_group hp hf hl, hlength, hhistory', hrun', hhistory, hrun,
      List.append_assoc, ← List.filter_append, Nat.add_assoc c.session.tracer.run,
      ← List.length_append, ← List.filter_append]
    refine ⟨hend, ?_, rfl, rfl⟩
    simp [opening]
    omega
  | @cut fronts event rest inputs hc hrest ih =>
    obtain ⟨out, err, hcut⟩ := feed_cut hp hf hc
    have hsplit : opening fronts ++ event :: rest ++ unread =
        (opening fronts ++ [event]) ++ (rest ++ unread) := by simp
    obtain ⟨hend, hlength, hhistory, hrun⟩ := ih (c := { c with out := out, err := err }) hp hf
    rw [hsplit, List.foldl_append, hcut, List.append_assoc, List.singleton_append,
      length_prompts_group hf, hcut, hlength]
    refine ⟨hend, ?_, hhistory, hrun⟩
    simp [opening]
    omega

/-- Whatever is read, with the end of input behind it, begins with one sentence. -/
theorem exists_reads (fronts : List String) (events : List ConsoleEvent) :
    ∃ consumed unread inputs, opening fronts ++ withEnd events = consumed ++ unread ∧
      Reads consumed inputs := by
  have hcut {fronts : List String} {event : ConsoleEvent} {rest : List ConsoleEvent}
      (hc : Cuts fronts event) (h : ∃ consumed unread inputs,
        rest = consumed ++ unread ∧ Reads consumed inputs) :
      ∃ consumed unread inputs, opening fronts ++ event :: rest = consumed ++ unread ∧
        Reads consumed inputs := by
    obtain ⟨consumed, unread, inputs, rfl, hreads⟩ := h
    exact ⟨opening fronts ++ event :: consumed, unread, inputs, by simp, .cut hc hreads⟩
  have hend (rest : List ConsoleEvent) : ∃ consumed unread inputs,
      ConsoleEvent.endOfInput :: rest = consumed ++ unread ∧ Reads consumed inputs :=
    ⟨[.endOfInput], rest, [], rfl, .stop⟩
  induction events generalizing fronts with
  | nil =>
    cases fronts with
    | nil => exact hend _
    | cons front others => exact hcut (List.cons_ne_nil _ _) (hend _)
  | cons event rest ih =>
    cases event with
    | line line =>
      by_cases hl : GoesOn line
      · obtain ⟨front, rfl⟩ := hl
        have := ih (fronts ++ [front])
        simpa [opening, withEnd] using this
      · by_cases hq : quits (joined fronts line)
        · exact ⟨opening fronts ++ [.line line], withEnd rest, _, by simp [withEnd], .quit hl hq⟩
        · obtain ⟨consumed, unread, inputs, heq, hreads⟩ := ih []
          refine ⟨opening fronts ++ .line line :: consumed, unread, _, ?_,
            .complete hl (Bool.eq_false_iff.2 hq) hreads⟩
          rw [List.append_assoc, List.cons_append, ← heq]
          rfl
    | interrupt => exact hcut trivial (ih [])
    | failure problem => exact hcut trivial (ih [])
    | endOfInput =>
      cases fronts with
      | nil => exact hend _
      | cons front others => exact hcut (List.cons_ne_nil _ _) (ih [])

/-- Every run of a console comes to an end, whatever it reads: its attempts to read are one sentence
of groups, and with the end of input behind them there always is one. The history is that of the
complete inputs that are not blank, in order. The run counter has grown by the number of those that
are no commands. -/
theorem run_accounts_for_inputs (session : Session) (showTokens : Bool)
    (prompt continuationPrompt out err : String) (events : List ConsoleEvent) :
    (∃ consumed unread inputs, withEnd events = consumed ++ unread ∧ Reads consumed inputs) ∧
      ∀ consumed unread inputs, withEnd events = consumed ++ unread → Reads consumed inputs →
        let c : Console := { session, showTokens, prompt, continuationPrompt, out, err }
        (c.run events).finished ∧
          (∀ more, (c.prompts (withEnd events ++ more)).length = consumed.length) ∧
          (c.run events).history = inputs.filter (fun i => !Text.isBlankText i) ∧
          (c.run events).session.tracer.run =
            session.tracer.run + (inputs.filter isScript).length := by
  refine ⟨exists_reads [] events, fun consumed unread inputs heq hreads => ?_⟩
  dsimp only
  have hfeed := hreads.feed (c := { session, showTokens, prompt, continuationPrompt, out, err })
    rfl rfl
  obtain ⟨hfinished, -, hhistory, hrun⟩ := hfeed unread
  rw [← heq] at hfinished hhistory hrun
  refine ⟨hfinished, fun more => ?_, hhistory, hrun⟩
  rw [heq, List.append_assoc]
  exact (hfeed (unread ++ more)).2.1

end Console

end Syntagma
