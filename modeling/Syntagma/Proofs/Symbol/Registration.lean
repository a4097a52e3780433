import Syntagma.Proofs.Symbol.Narrowing
import Syntagma.Symbol.Coverage

/-! The classes that a grammar registers. Their names are distinct, and the single delimiters have a
class to themselves. -/

namespace Syntagma

open SymbolClass

/-- Registering a class keeps the names distinct. -/
theorem ClassTable.nodup_setClass {t : ClassTable} (h : (t.symbolClasses.map (·.name)).Nodup)
    (name : String) (symbols : List Char) :
    ((t.setClass name symbols).symbolClasses.map (·.name)).Nodup := nodup_names_replace h

namespace Coverage

variable {coverage : Coverage} {declared : List SymbolClass} {base t : ClassTable} {c : Char}

theorem mem_singleDelimiters : c ∈ coverage.singleDelimiters ↔
    ∃ text ∈ coverage.unclassified, text ∉ coverage.intersected ∧ text.toList = [c] := by
  unfold singleDelimiters
  rw [List.mem_flatMap]
  refine exists_congr (fun text => and_congr_right (fun _ => ?_))
  by_cases hi : text ∈ coverage.intersected
  · simp [hi]
  · by_cases hl : text.length = 1
    · obtain ⟨d, hd⟩ := List.length_eq_one_iff.1 (String.length_toList.trans hl)
      simp [hi, hl, hd, eq_comm]
    · have hne : text.toList ≠ [c] := by
        intro he
        rw [← String.length_toList, he] at hl
        exact hl rfl
      simp [hi, hl, hne]

/-- A table in the course of registration, in which a single delimiter is in the class of the single
delimiters and in no other. -/
structure Gathers (coverage : Coverage) (c : Char) (t : ClassTable) : Prop where
  nodup : (t.symbolClasses.map (·.name)).Nodup
  gathered : symbolsOf t.symbolClasses singleDelimiterName = some coverage.singleDelimiters
  only (k : SymbolClass) : k ∈ t.symbolClasses → c ∈ k.symbols → k.name = singleDelimiterName

theorem Gathers.classOf (h : coverage.Gathers c t) (hc : c ∈ coverage.singleDelimiters) :
    classOf t.symbolClasses c = some singleDelimiterName :=
  classOf_eq_of_forall ⟨_, (symbolsOf_eq_some_iff h.nodup).1 h.gathered, hc⟩ h.only

theorem nodup_foldl_setClass (h : (t.symbolClasses.map (·.name)).Nodup) :
    ((declared.foldl (fun t k => t.setClass k.name k.symbols) t).symbolClasses.map
      (·.name)).Nodup := by
  induction declared generalizing t with
  | nil => exact h
  | cons k declared ih => exact ih (t.nodup_setClass h _ _)

theorem nodup_foldl_setSingleton {l : List Char} (h : (t.symbolClasses.map (·.name)).Nodup) :
    ((l.foldl (fun t ch => if coverage.singleDelimiters.contains ch then t else t.setSingleton ch)
      t).symbolClasses.map (·.name)).Nodup := by
  induction l generalizing t with
  | nil => exact h
  | cons ch l ih =>
    refine ih ?_
    dsimp only
    split
    · exact h
    · exact t.nodup_setClass h _ _

/-- The registered classes have distinct names. -/
theorem nodup_register (hb : base.symbolClasses = []) :
    ((coverage.register declared base).symbolClasses.map (·.name)).Nodup := by
  have hnil : (base.symbolClasses.map (·.name)).Nodup := by
    rw [hb]
    exact .nil
  exact nodup_foldl_setSingleton (ClassTable.nodup_setClass (nodup_foldl_setClass hnil) _ _)

/-- No declared class has the character, so none of the registered ones does. -/
theorem not_mem_foldl_setClass (hn : (t.symbolClasses.map (·.name)).Nodup)
    (hd : ∀ k ∈ declared, c ∉ k.symbols) (h : ∀ k ∈ t.symbolClasses, c ∉ k.symbols) :
    ∀ k ∈ (declared.foldl (fun t k => t.setClass k.name k.symbols) t).symbolClasses,
      c ∉ k.symbols := by
  induction declared generalizing t with
  | nil => exact h
  | cons k declared ih =>
    refine ih (t.nodup_setClass hn _ _) (fun k hk => hd k (List.mem_cons_of_mem _ hk)) ?_
    intro other ho
    rcases mem_replace_of_nodup hn ho with rfl | ⟨ho, -⟩
    · exact hd k List.mem_cons_self
    · exact h other ho

/-- A class for another character leaves a single delimiter where it is. -/
theorem Gathers.setSingleton (h : coverage.Gathers c t) {d : Char} (hne : d ≠ c) :
    coverage.Gathers c (t.setSingleton d) := by
  have hname : singleDelimiterName ≠ String.singleton d := by
    intro he
    have hlength := congrArg String.length he
    rw [String.length_singleton] at hlength
    exact absurd hlength (by decide)
  refine ⟨t.nodup_setClass h.nodup _ _, ?_, fun k hk hck => ?_⟩
  · unfold ClassTable.setSingleton ClassTable.setClass
    rw [symbolsOf_replace, if_neg hname]
    exact h.gathered
  · rcases mem_replace_of_nodup h.nodup hk with rfl | ⟨hk, -⟩
    · exact absurd (List.mem_singleton.1 hck).symm hne
    · exact h.only k hk hck

/-- A single delimiter of no declared class is registered in the class of the single delimiters. -/
theorem classOf_register (hb : base.symbolClasses = []) (hc : c ∈ coverage.singleDelimiters)
    (hd : ∀ k ∈ declared, c ∉ k.symbols) :
    classOf (coverage.register declared base).symbolClasses c = some singleDelimiterName := by
  have hnil : (base.symbolClasses.map (·.name)).Nodup := by
    rw [hb]
    exact .nil
  have hnone := not_mem_foldl_setClass hnil hd (fun k hk => by simp [hb] at hk)
  have hfirst : coverage.Gathers c ((declared.foldl (fun t k => t.setClass k.name k.symbols)
      base).setClass singleDelimiterName coverage.singleDelimiters) := by
    refine ⟨ClassTable.nodup_setClass (nodup_foldl_setClass hnil) _ _, ?_, fun k hk hck => ?_⟩
    · unfold ClassTable.setClass
      rw [symbolsOf_replace, if_pos rfl]
    · rcases mem_replace_of_nodup (nodup_foldl_setClass hnil) hk with rfl | ⟨hk, -⟩
      · rfl
      · exact absurd hck (hnone k hk)
  have hrest (l : List Char) {t : ClassTable} (h : coverage.Gathers c t) : coverage.Gathers c
      (l.foldl (fun t ch => if coverage.singleDelimiters.contains ch then t else t.setSingleton ch)
        t) := by
    induction l generalizing t with
    | nil => exact h
    | cons ch l ih =>
      refine ih ?_
      dsimp only
      split
      · exact h
      next hch =>
        refine h.setSingleton ?_
        rintro rfl
        exact hch (List.contains_iff_mem.2 hc)
  exact (hrest _ hfirst).classOf hc

end Coverage

end Syntagma
