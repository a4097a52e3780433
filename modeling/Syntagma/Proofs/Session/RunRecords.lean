import Syntagma.Proofs.Analysis.Run
import Syntagma.Proofs.Analysis.Termination
import Syntagma.Proofs.Lexing.Events
import Syntagma.Proofs.Session.Verdicts

/-! What the trace tells of a run. The records of a run are those of its reading and then those of
its analysis. The search tells nothing of its verdict, which is told last and once if the analysis
comes to one. A ring with room for the run holds all of this and nothing else under its number, as
earlier records have lower ones. What the run finds does not hang on the tracer. -/

namespace Syntagma

/-! ### Records of one run -/

namespace TraceRing

variable {r : TraceRing} {run timestamp : Nat} {events : List TraceEvent} {e : TraceRecord}

@[simp] theorem length_numbered (nextId run timestamp : Nat) (events : List TraceEvent) :
    (numbered nextId run timestamp events).length = events.length := by
  induction events generalizing nextId with
  | nil => rfl
  | cons event rest ih => simp [numbered, ih]

@[simp] theorem map_event_numbered (nextId run timestamp : Nat) (events : List TraceEvent) :
    (numbered nextId run timestamp events).map (·.event) = events := by
  induction events generalizing nextId with
  | nil => rfl
  | cons event rest ih => simp [numbered, ih]

theorem run_of_mem_numbered {nextId : Nat} (h : e ∈ numbered nextId run timestamp events) :
    e.run = run := by
  induction events generalizing nextId with
  | nil => exact absurd h List.not_mem_nil
  | cons event rest ih =>
    rcases List.mem_cons.1 h with rfl | h
    · rfl
    · exact ih h

theorem pushAll_append (r : TraceRing) (run timestamp : Nat) (events more : List TraceEvent) :
    r.pushAll run timestamp (events ++ more) =
      (r.pushAll run timestamp events).pushAll run timestamp more := by
  induction events generalizing r with
  | nil =>
    have hnone : r.pushAll run timestamp [] = r := by
      simp [pushAll, numbered, keepLast_of_length_le r.length_le]
    rw [hnone, List.nil_append]
  | cons event rest ih => rw [List.cons_append, pushAll_cons, ih, ← pushAll_cons]

/-- If the records pushed fit, those that are forgotten for them are older ones. -/
theorem exists_keepLast_append {α : Type} {n : Nat} {m : List α} (l : List α) (h : m.length ≤ n) :
    ∃ k, keepLast n (l ++ m) = l.drop k ++ m := by
  refine ⟨(l ++ m).length - n, List.drop_append_of_le_length ?_⟩
  rw [List.length_append]
  omega

/-- The records of a new run are those that were pushed for it, if they fit. -/
theorem ofRun_pushAll (hold : ∀ e ∈ r.records, e.run < run) (hroom : events.length ≤ r.capacity) :
    ((r.pushAll run timestamp events).ofRun run).map (·.event) = events := by
  have hfit : (numbered r.nextId run timestamp events).length ≤ r.capacity := by
    rwa [length_numbered]
  obtain ⟨k, hkept⟩ := exists_keepLast_append r.records hfit
  have hothers : (r.records.drop k).filter (fun e => e.run == run) = [] := by
    refine List.filter_eq_nil_iff.2 (fun e he hrun => ?_)
    exact absurd (beq_iff_eq.1 hrun) (Nat.ne_of_lt (hold e (List.mem_of_mem_drop he)))
  have hall : (numbered r.nextId run timestamp events).filter (fun e => e.run == run) =
      numbered r.nextId run timestamp events :=
    List.filter_eq_self.2 (fun e he => beq_iff_eq.2 (run_of_mem_numbered he))
  show ((keepLast r.capacity (r.records ++ _)).filter _).map _ = events
  rw [hkept, List.filter_append, hothers, hall, List.nil_append, map_event_numbered]

end TraceRing

namespace Tracer

/-- The tracers that there are: new ones with any settings, and what these become as runs begin,
events are recorded, records are cleared and settings are changed. -/
inductive Made : Tracer → Prop where
  | new {t : Tracer} (hrun : t.run = 0) (hring : t.ring = .ofCapacity t.ring.capacity) : Made t
  | beginRun {t : Tracer} (h : Made t) : Made t.beginRun
  | recordAll {t : Tracer} (h : Made t) (events : List TraceEvent) : Made (t.recordAll events)
  | clear {t : Tracer} (h : Made t) : Made t.clear
  | clearChannel {t : Tracer} (h : Made t) (channel : Channel) : Made (t.clearChannel channel)
  | set {t t' : Tracer} (h : Made t) (hrun : t'.run = t.run) (hring : t'.ring = t.ring) : Made t'

variable {t : Tracer} {events : List TraceEvent}

/-- No record is of a later run than the current one. -/
theorem Made.run_le (h : t.Made) : ∀ e ∈ t.ring.records, e.run ≤ t.run := by
  induction h with
  | new hrun hring =>
    rw [hring]
    exact fun e he => absurd he List.not_mem_nil
  | beginRun _ ih => exact fun e he => Nat.le_succ_of_le (ih e he)
  | recordAll _ _ ih =>
    intro e he
    rcases List.mem_append.1 (List.mem_of_mem_drop he) with he | he
    · exact ih e he
    · exact Nat.le_of_eq (TraceRing.run_of_mem_numbered he)
  | clear _ _ => exact fun e he => absurd he List.not_mem_nil
  | clearChannel _ _ ih => exact fun e he => ih e (List.mem_filter.1 he).1
  | set _ hrun hring ih =>
    rw [hrun, hring]
    exact ih

theorem ring_recordAll (h : ∀ channel, t.wants channel) (events : List TraceEvent) :
    (t.recordAll events).ring = t.ring.pushAll t.run t.time events := by
  have hall : events.filter (fun e => t.wants e.channel) = events :=
    List.filter_eq_self.2 (fun e _ => h e.channel)
  simp only [recordAll, hall]

theorem ring_recordAll_recordAll (h : ∀ channel, t.wants channel) (events more : List TraceEvent) :
    ((t.recordAll events).recordAll more).ring = t.ring.pushAll t.run t.time (events ++ more) := by
  have hmore : ∀ channel, (t.recordAll events).wants channel := h
  rw [ring_recordAll hmore, ring_recordAll h, TraceRing.pushAll_append]
  rfl

end Tracer

/-! ### What the search tells -/

/-- A move of the search. -/
def TraceEvent.IsMove (e : TraceEvent) : Prop := e.channel = .parsing ∧ e.isVerdict = false

namespace Search

variable {P : Type} {s : Search P} {f : Frame P} {e : TraceEvent}

theorem isMove_of_diveAll {dives : List (Dive P)} (h : e ∈ (s.diveAll f dives).1) : e.IsMove := by
  induction dives with
  | nil => exact absurd h List.not_mem_nil
  | cons d rest ih =>
    unfold diveAll at h
    split at h
    · rw [List.mem_singleton.1 h]
      exact ⟨rfl, rfl⟩
    · rcases List.mem_cons.1 h with rfl | h
      · exact ⟨rfl, rfl⟩
      · exact ih h

theorem isMove_of_visit (h : e ∈ (s.visit f).events) : e.IsMove := by
  unfold visit at h
  split at h
  · exact absurd h List.not_mem_nil
  · exact absurd h List.not_mem_nil
  · have hdived : e ∈ (s.diveAll f (s.cursor.dives f.place)).1 → e.IsMove := isMove_of_diveAll
    split at h
    next hd => exact hdived (by rwa [hd])
    next hd =>
      rw [hd] at hdived
      simp only at h
      split at h
      · rcases List.mem_append.1 h with h | h
        · exact hdived h
        · rw [List.mem_singleton.1 h]
          exact ⟨rfl, rfl⟩
      · exact hdived h

theorem isMove_of_add {log : Log P} (hlog : ∀ e ∈ log.events, e.IsMove) (f : Frame P) :
    ∀ e ∈ (log.add (s.visit f)).events, e.IsMove := by
  intro e he
  rcases List.mem_append.1 he with he | he
  · exact isMove_of_visit (List.mem_reverse.1 he)
  · exact hlog e he

theorem isMove_of_run (frames : List (Frame P)) (log : Log P)
    (hlog : ∀ e ∈ log.events, e.IsMove) : ∀ e ∈ (s.run frames log).2.events, e.IsMove := by
  induction frames, log using Search.run.induct s with
  | case1 log =>
    rw [run_nil]
    exact hlog
  | case2 log f rest v hv =>
    rw [run_of_accepted hv]
    exact isMove_of_add hlog f
  | case3 log f rest v token hv =>
    rw [run_of_undefined hv]
    exact isMove_of_add hlog f
  | case4 log f rest v hv =>
    rw [run_of_tooDeep hv]
    exact isMove_of_add hlog f
  | case5 log f rest v new hv ih =>
    rw [run_of_frames hv]
    exact ih (isMove_of_add hlog f)

/-- A search tells of its moves only. It fails only at its depth limit. -/
theorem isMove_of_search (s : Search P) :
    (∀ e ∈ s.search.2, e.IsMove) ∧
      ∀ fault, s.search.1 = .error fault → fault = .of (.depthExceeded s.maxDepth) := by
  unfold search
  split
  · exact ⟨fun e he => absurd he List.not_mem_nil, fun fault h => nomatch h⟩
  split
  · exact ⟨fun e he => absurd he List.not_mem_nil, fun fault h => (Except.error.inj h).symm⟩
  next first _ =>
    refine ⟨fun e he => ?_, fun fault h => ?_⟩
    · exact isMove_of_run [first] .empty (fun e he => absurd he List.not_mem_nil) e
        (List.mem_reverse.1 he)
    · rcases outcome_cases s (s.run [first] .empty).2 (s.run [first] .empty).1 with ⟨o, ho⟩ | ho
      · exact nomatch ho.symm.trans h
      · exact Except.error.inj (h.symm.trans ho)

end Search

/-- What is told of an analysis: moves, and behind them its verdict, unless the search went too
deep for one. -/
inductive Concluded (maxDepth : Nat) : Except Fault Outcome → List TraceEvent → Prop where
  | verdict {moves : List TraceEvent} (hmoves : ∀ e ∈ moves, e.IsMove) (outcome : Outcome) :
    Concluded maxDepth (.ok outcome) (moves ++ [outcome.event])
  | tooDeep {moves : List TraceEvent} (hmoves : ∀ e ∈ moves, e.IsMove) :
    Concluded maxDepth (.error (.of (.depthExceeded maxDepth))) moves

theorem Cursor.concluded_analyze {P : Type} (cursor : Cursor P) (options : AnalysisOptions)
    (tokens : List Token) :
    Concluded options.maxDepth (cursor.analyze options tokens).1
      (cursor.analyze options tokens).2 := by
  unfold analyze
  dsimp only
  generalize (if options.ignoreUndefined then tokens.filter (fun t => !t.isUndefined) else tokens) =
    tokens
  have h := Search.isMove_of_search ⟨cursor, tokens.toArray, options.maxDepth⟩
  split
  next outcome events hs =>
    rw [hs] at h
    exact .verdict h.1 outcome
  next fault events hs =>
    rw [hs] at h
    rw [h.2 fault rfl]
    exact .tooDeep h.1

theorem concluded_analyze (g : Grammar) (p : PushdownAutomaton) (options : AnalysisOptions)
    (tokens : List Token) :
    Concluded options.maxDepth (analyze g p options tokens).1 (analyze g p options tokens).2 := by
  unfold analyze
  split
  · exact Cursor.concluded_analyze _ _ _
  · exact Cursor.concluded_analyze _ _ _

namespace Concluded

variable {maxDepth : Nat} {result : Except Fault Outcome} {events : List TraceEvent}

theorem channel_eq (h : Concluded maxDepth result events) : ∀ e ∈ events, e.channel = .parsing := by
  cases h with
  | tooDeep hmoves => exact fun e he => (hmoves e he).1
  | verdict hmoves outcome =>
    intro e he
    rcases List.mem_append.1 he with he | he
    · exact (hmoves e he).1
    · rw [List.mem_singleton.1 he]
      cases outcome <;> rfl

end Concluded

/-! ### A run -/

namespace Session

/-- What cuts the scripts of a session into tokens. -/
def lexer (s : Session) : Lexer := s.artifacts.lexer s.options.lexer

/-- The analysis of the tokens of a script, and what is told of it. -/
def analysis (s : Session) (script : String) : Except Fault Outcome × List TraceEvent :=
  Syntagma.analyze s.artifacts.grammar s.artifacts.pushdown s.options.analysis
    (s.lexer.run script).1.tokens

/-- All that is told while a script is checked. -/
def told (s : Session) (script : String) : List TraceEvent :=
  if Text.isBlankText script then [] else (s.lexer.run script).2 ++ (s.analysis script).2

variable {s : Session} {script : String}

theorem run_of_blank (s : Session) (h : Text.isBlankText script) :
    s.run script =
      (.ok ⟨[], [.emptyScript], none⟩, s.setTracer (s.tracer.beginRun.recordAll [])) := by
  simp only [run, lex, Lexer.run, if_pos h]
  rfl

theorem run_of_not_blank (s : Session) (h : ¬Text.isBlankText script) :
    s.run script = ((s.analysis script).1.map (fun outcome =>
        ⟨(s.lexer.run script).1.tokens, (s.lexer.run script).1.diagnostics, some outcome⟩),
      s.setTracer ((s.tracer.beginRun.recordAll (s.lexer.run script).2).recordAll
        (s.analysis script).2)) := by
  have hany : (s.lexer.run script).1.diagnostics.any (fun d => d.kind = .emptyScript) = false := by
    simp only [Lexer.run, if_neg h, List.any_map]
    exact List.any_eq_false.2 (fun t _ => Bool.false_ne_true)
  have hlex (t : Tracer) : (s.setTracer t).lex script =
      ((s.lexer.run script).1, s.setTracer (t.recordAll (s.lexer.run script).2)) := rfl
  simp only [run, hlex, hany, Bool.false_eq_true, if_false]
  rfl

/-- The tracer only listens. -/
theorem run_setTracer (s : Session) (tracer : Tracer) (script : String) :
    ((s.setTracer tracer).run script).1 = (s.run script).1 := by
  by_cases h : Text.isBlankText script
  · rw [run_of_blank _ h, run_of_blank _ h]
  · rw [run_of_not_blank _ h, run_of_not_blank _ h]
    rfl

/-- A tracer that listens to everything has pushed all that was told. -/
theorem ring_run (hwants : ∀ channel, s.tracer.wants channel) (script : String) :
    (s.run script).2.tracer.ring =
      s.tracer.ring.pushAll (s.tracer.run + 1) s.tracer.time (s.told script) := by
  have hlistens : ∀ channel, s.tracer.beginRun.wants channel := hwants
  by_cases h : Text.isBlankText script
  · rw [run_of_blank _ h, told, if_pos h]
    exact Tracer.ring_recordAll hlistens []
  · rw [run_of_not_blank _ h, told, if_neg h]
    exact Tracer.ring_recordAll_recordAll hlistens _ _

theorem run_tracer_run (s : Session) (script : String) :
    (s.run script).2.tracer.run = s.tracer.run + 1 := by
  by_cases h : Text.isBlankText script
  · rw [run_of_blank _ h]
    rfl
  · rw [run_of_not_blank _ h]
    rfl

/-- The records of the run are all that was told, if they fit. -/
theorem map_event_runRecords (hmade : s.tracer.Made) (hwants : ∀ channel, s.tracer.wants channel)
    (hroom : (s.run script).2.tracer.ring.nextId ≤ s.tracer.ring.nextId + s.tracer.ring.capacity) :
    (s.run script).2.runRecords.map (·.event) = s.told script := by
  rw [ring_run hwants] at hroom
  rw [runRecords, ring_run hwants, run_tracer_run]
  refine TraceRing.ofRun_pushAll (fun e he => Nat.lt_succ_of_le (hmade.run_le e he)) ?_
  exact Nat.le_of_add_le_add_left hroom

/-- The trace tells the truth. The tracer changes nothing of what a run finds. If it listens to all
channels and has room for the records made, those of the run are those of reading and then those of
analysis. The former tell of the tokens that are cut from the script, which are those of the report,
and of nothing that did not happen. The last of the latter is the verdict, and no other, if there
is an outcome; there is none for a blank script and for one that the search goes too deep for. -/
theorem trace_tells_the_run (hmade : s.tracer.Made) (hwants : ∀ channel, s.tracer.wants channel)
    (hroom : (s.run script).2.tracer.ring.nextId ≤ s.tracer.ring.nextId + s.tracer.ring.capacity) :
    (∀ tracer, ((s.setTracer tracer).run script).1 = (s.run script).1) ∧
      ∃ reading analysis, (s.run script).2.runRecords.map (·.event) = reading ++ analysis ∧
        (∀ e ∈ reading, e.channel = .lexing) ∧ (∀ e ∈ analysis, e.channel = .parsing) ∧
        s.lexer.Tells (s.lex script).1.tokens reading ∧
        (∀ report, (s.run script).1 = .ok report → report.tokens = (s.lex script).1.tokens ∧
          ∀ outcome, report.outcome = some outcome → ∃ moves,
            analysis = moves ++ [outcome.event] ∧ ∀ e ∈ moves, e.isVerdict = false) ∧
        (Text.isBlankText script → reading ++ analysis = []) ∧
        ∀ fault, (s.run script).1 = .error fault →
          fault = .of (.depthExceeded s.options.analysis.maxDepth) ∧
            ∀ e ∈ analysis, e.isVerdict = false := by
  refine ⟨fun tracer => s.run_setTracer tracer script, ?_⟩
  rw [map_event_runRecords hmade hwants hroom, told]
  have htells : s.lexer.Tells (s.lex script).1.tokens (s.lexer.run script).2 :=
    s.lexer.tells_run script
  by_cases hblank : Text.isBlankText script
  · have hnone : (s.lexer.run script).2 = [] := by simp [Lexer.run, hblank]
    rw [hnone] at htells
    refine ⟨[], [], by simp [hblank], by simp, by simp, htells, ?_, by simp, ?_⟩
    · rw [run_of_blank _ hblank]
      rintro report ⟨rfl⟩
      refine ⟨?_, by rintro outcome ⟨⟩⟩
      rw [← htells.emitted]
      rfl
    · rw [run_of_blank _ hblank]
      rintro fault ⟨⟩
  · have hconcluded := concluded_analyze s.artifacts.grammar s.artifacts.pushdown
      s.options.analysis (s.lexer.run script).1.tokens
    change Concluded _ (s.analysis script).1 (s.analysis script).2 at hconcluded
    refine ⟨_, _, if_neg hblank, htells.channel_eq, hconcluded.channel_eq, htells, ?_,
      fun h => absurd h hblank, ?_⟩
    · rw [run_of_not_blank _ hblank]
      intro report hreport
      obtain ⟨outcome, houtcome, rfl⟩ := Fault.map_eq_ok_iff.1 hreport
      refine ⟨rfl, ?_⟩
      rintro outcome' ⟨rfl⟩
      rw [houtcome] at hconcluded
      generalize (s.analysis script).2 = events at hconcluded ⊢
      cases hconcluded with
      | verdict hmoves => exact ⟨_, rfl, fun e he => (hmoves e he).2⟩
    · rw [run_of_not_blank _ hblank]
      intro fault hfault
      generalize s.analysis script = found at hconcluded hfault ⊢
      obtain ⟨result, events⟩ := found
      cases hconcluded with
      | verdict => cases hfault
      | tooDeep hmoves =>
        exact ⟨(Except.error.inj hfault).symm, fun e he => (hmoves e he).2⟩

/-- A tag is checked by a session with a new tracer: the trace tells of the tag, and then that it
was accepted. -/
theorem trace_of_a_tag : ∃ (s : Session) (reading moves : List TraceEvent), s.tracer.Made ∧
    (s.run "#a").2.runRecords.map (·.event) = reading ++ (moves ++ [.accepted 1]) ∧
      s.lexer.Tells (s.lex "#a").1.tokens reading ∧ ∀ e ∈ moves, e.isVerdict = false := by
  have hrun : ((Grammar.compile tags {}).bind (fun g => (ofGrammar g {} .disabled).1)).map (fun s =>
      (((s.setTracer { enabled := true }).run "#a").1.map (·.outcome),
        ((s.setTracer { enabled := true }).run "#a").2.tracer.ring.nextId)) =
          .ok (.ok (some (.accepted 1)), 4) := by
    cbv
  obtain ⟨s, -, hrun⟩ := Fault.map_eq_ok_iff.1 hrun
  obtain ⟨hrun, hcount⟩ := Prod.mk.inj hrun
  obtain ⟨report, hreport, houtcome⟩ := Fault.map_eq_ok_iff.1 hrun
  have hmade : (s.setTracer { enabled := true }).tracer.Made := .new rfl rfl
  have hroom : ((s.setTracer { enabled := true }).run "#a").2.tracer.ring.nextId ≤
      0 + TraceRing.usualCapacity := by
    rw [hcount]
    decide
  obtain ⟨-, reading, analysis, hrecords, -, -, htells, hok, -, -⟩ :=
    trace_tells_the_run hmade (fun _ => rfl) hroom
  obtain ⟨moves, rfl, hmoves⟩ := (hok report hreport).2 _ houtcome
  exact ⟨_, reading, moves, hmade, hrecords, htells, hmoves⟩

end Session

end Syntagma
