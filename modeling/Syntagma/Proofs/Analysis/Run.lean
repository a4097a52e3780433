import Syntagma.Analysis.Search

/-! How a run of the search goes on after the visit of its first frame, one statement for each way
the visit can end. -/

namespace Syntagma.Search

variable {P : Type} {s : Search P} {f : Frame P}

@[simp] theorem run_nil (s : Search P) (log : Log P) : s.run [] log = (.exhausted, log) := by
  rw [run]

theorem run_of_accepted (h : (s.visit f).next = .accepted) (rest : List (Frame P)) (log : Log P) :
    s.run (f :: rest) log = (.accepted, log.add (s.visit f)) := by
  rw [run]
  split <;> simp_all

theorem run_of_undefined {token : Token} (h : (s.visit f).next = .undefined token)
    (rest : List (Frame P)) (log : Log P) :
    s.run (f :: rest) log = (.undefined token f.place, log.add (s.visit f)) := by
  rw [run]
  split <;> simp_all

theorem run_of_tooDeep (h : (s.visit f).next = .tooDeep) (rest : List (Frame P)) (log : Log P) :
    s.run (f :: rest) log = (.tooDeep, log.add (s.visit f)) := by
  rw [run]
  split <;> simp_all

theorem run_of_frames {new : List (Frame P)} (h : (s.visit f).next = .frames new)
    (rest : List (Frame P)) (log : Log P) :
    s.run (f :: rest) log = s.run (new ++ rest) (log.add (s.visit f)) := by
  rw [run]
  split <;> simp_all

end Syntagma.Search
