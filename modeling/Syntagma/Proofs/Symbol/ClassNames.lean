import Syntagma.Proofs.Symbol.Narrowing
import Syntagma.Symbol.Coverage

/-! The names of the symbol classes. Registering puts in the names of the declared classes and that
of the single delimiters. Narrowing takes characters out of classes, but no name is lost by it, and a
character that is taken out gets a class of its own. -/

namespace Syntagma

namespace ClassTable

/-- The names of the symbol classes. -/
def classNames (t : ClassTable) : List String := t.symbolClasses.map (·.name)

theorem mem_classNames_setClass {t : ClassTable} {name other : String} {symbols : List Char} :
    other ∈ (t.setClass name symbols).classNames ↔ other = name ∨ other ∈ t.classNames :=
  SymbolClass.mem_names_replace

theorem mem_classNames_of_classOf {t : ClassTable} {c : Char} {name : String}
    (h : SymbolClass.classOf t.symbolClasses c = some name) : name ∈ t.classNames := by
  obtain ⟨k, hk, rfl, -⟩ := SymbolClass.exists_of_classOf h
  exact List.mem_map_of_mem hk

/-! ### Registered names -/

/-- What loses no name in one step loses none in many. -/
theorem classNames_subset_foldl {β : Type} {step : ClassTable → β → ClassTable}
    (hstep : ∀ t b, t.classNames ⊆ (step t b).classNames) (l : List β) (t : ClassTable) :
    t.classNames ⊆ (l.foldl step t).classNames := by
  induction l generalizing t with
  | nil => exact List.Subset.refl _
  | cons b l ih => exact List.Subset.trans (hstep t b) (ih _)

theorem classNames_subset_setClass (t : ClassTable) (name : String) (symbols : List Char) :
    t.classNames ⊆ (t.setClass name symbols).classNames :=
  fun _ h => mem_classNames_setClass.2 (.inr h)

theorem mem_classNames_foldl_setClass {declared : List SymbolClass} {k : SymbolClass}
    (hk : k ∈ declared) (t : ClassTable) :
    k.name ∈ (declared.foldl (fun t k => t.setClass k.name k.symbols) t).classNames := by
  induction declared generalizing t with
  | nil => cases hk
  | cons first declared ih =>
    rcases List.mem_cons.1 hk with rfl | hk
    · rw [List.foldl_cons]
      exact classNames_subset_foldl
        (fun t (k : SymbolClass) => t.classNames_subset_setClass k.name k.symbols) declared _
        (mem_classNames_setClass.2 (.inl rfl))
    · exact ih hk _

end ClassTable

/-- The declared classes and that of the single delimiters are registered. -/
theorem Coverage.mem_classNames_register {coverage : Coverage} {declared : List SymbolClass}
    {base : ClassTable} {name : String}
    (h : name = singleDelimiterName ∨ ∃ k ∈ declared, k.name = name) :
    name ∈ (coverage.register declared base).classNames := by
  unfold register
  refine ClassTable.classNames_subset_foldl (fun t ch => ?_) _ _ ?_
  · split
    · exact List.Subset.refl _
    · exact t.classNames_subset_setClass _ _
  · rw [ClassTable.mem_classNames_setClass]
    refine h.imp_right (fun ⟨k, hk, he⟩ => ?_)
    exact he ▸ ClassTable.mem_classNames_foldl_setClass hk base

/-! ### Names in the course of narrowing -/

namespace Narrowing

variable {start : ClassTable} {n n' : Narrowing} {c : Char}

/-- A table in the course of narrowing beside the one at the start. Every class is still there, and
every lost character has got one. -/
structure Keyed (start : ClassTable) (n : Narrowing) : Prop where
  unclassified : n.table.unclassifiedName = start.unclassifiedName
  declared : start.classNames ⊆ n.table.classNames
  lost {name : String} {c : Char} : n.Lost name c → String.singleton c ∈ n.table.classNames

theorem keyed_ofTable (start : ClassTable) : Keyed start (.ofTable start) :=
  ⟨rfl, List.Subset.refl _, fun hl => absurd hl List.not_mem_nil⟩

theorem Keyed.setSingleton (h : Keyed start n) (c : Char) :
    Keyed start { n with table := n.table.setSingleton c } where
  unclassified := h.unclassified
  declared _ hname := ClassTable.mem_classNames_setClass.2 (.inr (h.declared hname))
  lost hl := ClassTable.mem_classNames_setClass.2 (.inr (h.lost hl))

theorem mem_classNames_promote {name other : String} {symbols : List Char} :
    other ∈ (n.promote name symbols c).table.classNames ↔
      other = String.singleton c ∨ other = name ∨ other ∈ n.table.classNames := by
  unfold promote ClassTable.setSingleton
  rw [ClassTable.mem_classNames_setClass, ClassTable.mem_classNames_setClass]

theorem Keyed.promote (h : Keyed start n) (name : String) (symbols : List Char) (c : Char) :
    Keyed start (n.promote name symbols c) where
  unclassified := h.unclassified
  declared _ hname := mem_classNames_promote.2 (.inr (.inr (h.declared hname)))
  lost {other d} hl := by
    rw [mem_classNames_promote]
    rcases lost_promote.1 hl with hl | ⟨-, rfl⟩
    · exact .inr (.inr (h.lost hl))
    · exact .inl rfl

/-- The key of a character is a class of the table that comes of it, which loses no name. -/
theorem Keyed.key (h : Keyed start n) {key : Option String} (hk : n.key c = (key, n')) :
    Keyed start n' ∧ n.table.classNames ⊆ n'.table.classNames ∧
      ∀ name ∈ key, name ∈ n'.table.classNames := by
  obtain ⟨name, hclass, -, he⟩ | ⟨name, symbols, -, -, -, he⟩ | ⟨-, -, he⟩ | ⟨-, -, he⟩ :=
    key_cases n c
  all_goals
    rw [hk] at he
    cases he
  · refine ⟨h, List.Subset.refl _, fun other ho => ?_⟩
    obtain rfl := Option.some.inj ho
    exact ClassTable.mem_classNames_of_classOf hclass
  · refine ⟨h.promote name symbols c, fun _ ho => ?_, fun other ho => ?_⟩
    · exact mem_classNames_promote.2 (.inr (.inr ho))
    · exact mem_classNames_promote.2 (.inl (Option.some.inj ho).symm)
  · refine ⟨h.setSingleton c, fun _ ho => ?_, fun other ho => ?_⟩
    · exact ClassTable.mem_classNames_setClass.2 (.inr ho)
    · exact ClassTable.mem_classNames_setClass.2 (.inl (Option.some.inj ho).symm)
  · exact ⟨h, List.Subset.refl _, nofun⟩

theorem Keyed.keys (h : Keyed start n) {text : List Char} {keys : List String}
    (hk : n.keys text = (keys, n')) :
    Keyed start n' ∧ n.table.classNames ⊆ n'.table.classNames ∧
      ∀ name ∈ keys, name ∈ n'.table.classNames := by
  induction text generalizing n keys with
  | nil =>
    cases hk
    exact ⟨h, List.Subset.refl _, nofun⟩
  | cons c text ih =>
    rcases hfirst : n.key c with ⟨key, n₁⟩
    rcases hrest : n₁.keys text with ⟨rest, n₂⟩
    simp only [Narrowing.keys, hfirst, hrest, Prod.mk.injEq] at hk
    obtain ⟨rfl, rfl⟩ := hk
    obtain ⟨h₁, hsub₁, hkey⟩ := h.key hfirst
    obtain ⟨h₂, hsub₂, hkeys⟩ := ih h₁ hrest
    refine ⟨h₂, List.Subset.trans hsub₁ hsub₂, fun name hname => ?_⟩
    rcases List.mem_append.1 hname with hname | hname
    · exact hsub₂ (hkey name (Option.mem_toList.1 hname))
    · exact hkeys name hname

theorem Keyed.takePromoted (h : Keyed start n) : Keyed start n.takePromoted.2 :=
  ⟨h.unclassified, h.declared, h.lost⟩

end Narrowing

end Syntagma
