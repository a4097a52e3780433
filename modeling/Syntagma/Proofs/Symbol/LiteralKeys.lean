import Syntagma.Proofs.Symbol.Narrowing

/-! What keys stand for, and nothing else. The key of a declared class stands for the characters
that the table found in it at the start. The keys of a literal stand for its text, white delimiters
left out, unless a class has lost characters until one was left: then a key of that one character
alone stands for the lost ones too. -/

namespace Syntagma.Narrowing

open SymbolClass (symbolsOf exists_of_classOf symbolsOf_eq_some_iff)

variable {spelled : Char → Prop} {start : ClassTable} {n n' : Narrowing} {c d : Char} {key : String}
  {text out : List Char}

/-- No class that is left with one character has lost others. -/
def Spared (n : Narrowing) : Prop :=
  ∀ name c d, n.table.classSymbols? name = some [c] → n.Lost name d → d = c

/-- A character that the class named by one of a literal stands for is that one. -/
theorem Narrowed.eq_of_takes_singleton (h : Narrowed spelled start n) (hstart : start.Clear spelled)
    (hc : spelled c) (ht : n.Takes (String.singleton c) d) : d = c := by
  rcases ht with hclass | hlost
  · obtain ⟨k, hk, hname, hmem⟩ := exists_of_classOf hclass
    exact h.clear.named k hk d c hc hname hmem
  · rcases h.lost _ d hlost with hclass | hname
    · obtain ⟨k, hk, hname, hmem⟩ := exists_of_classOf hclass
      exact hstart.named k hk d c hc hname hmem
    · exact (String.singleton_inj.1 hname).symm

/-- The key of a settled character stands for this character alone. -/
theorem Narrowed.takes_iff_of_settled (h : Narrowed spelled start n) (hstart : start.Clear spelled)
    (hspared : n.Spared) (hc : spelled c) (hs : n.Settled c) (hkey : n.classOf c = some key) :
    n.Takes key d ↔ d = c := by
  refine ⟨fun ht => ?_, fun he => .inl (he ▸ hkey)⟩
  rcases hs with ⟨hnone, -⟩ | ⟨name, hname, hown⟩
  · exact nomatch hnone.symm.trans hkey
  obtain rfl := Option.some.inj (hname.symm.trans hkey)
  rcases hown with rfl | hone
  · exact h.eq_of_takes_singleton hstart hc ht
  rcases ht with hclass | hlost
  · obtain ⟨k, hk, hk', hmem⟩ := exists_of_classOf hclass
    have hsymbols := (symbolsOf_eq_some_iff h.clear.nodup).2 hk
    rw [hk', hone] at hsymbols
    rw [← Option.some.inj hsymbols] at hmem
    exact List.mem_singleton.1 hmem
  · exact hspared name c d hone hlost

/-- The key of a declared class stands for the characters found in it at the start. -/
theorem Narrowed.takes_iff_of_class (h : Narrowed spelled start n) (hstart : start.Clear spelled)
    {symbols : List Char} (hne : symbols ≠ [])
    (hfound : ∀ c, start.symbolInfo c = .classified key ↔ c ∈ symbols) :
    n.Takes key c ↔ c ∈ symbols := by
  have hclassOf (c : Char) :
      SymbolClass.classOf start.symbolClasses c = some key ↔ c ∈ symbols := by
    rw [← hfound c, ← className?_symbolInfo]
    cases start.symbolInfo c <;> simp [SymbolInfo.className?]
  -- a class named by a character of a literal has it, as it has some character
  have hself (hc : spelled c) (hkey : key = String.singleton c) : c ∈ symbols := by
    obtain ⟨d, hd⟩ := List.exists_mem_of_ne_nil _ hne
    obtain ⟨k, hk, hname, hmem⟩ := exists_of_classOf ((hclassOf d).2 hd)
    obtain rfl := hstart.named k hk d c hc (hname.trans hkey) hmem
    exact hd
  refine ⟨fun ht => ?_, fun hc => h.takes_of_classOf ((hclassOf c).2 hc)⟩
  rcases ht with hclass | hlost
  · rcases h.classOf c with hsame | ⟨hc, hown, -⟩
    · exact (hclassOf c).1 (hsame.symm.trans hclass)
    · exact hself hc (Option.some.inj (hclass.symm.trans hown))
  · exact (h.lost key c hlost).elim (hclassOf c).1 (hself (h.own key c hlost).1)

/-- A settled character has no key exactly if it is a white delimiter. -/
theorem Narrowed.classOf_eq_none_iff (h : Narrowed spelled start n) (hs : n.Settled c) :
    n.classOf c = none ↔ start.symbolInfo c = .whiteDelimiter := by
  refine ⟨fun hnone => ?_, fun hwhite => ?_⟩
  · refine Classical.byContradiction (fun hne => ?_)
    obtain ⟨key, hkey⟩ := h.exists_classOf hs hne
    exact nomatch hnone.symm.trans hkey
  · rw [symbolInfo_eq] at hwhite
    cases hstart : SymbolClass.classOf start.symbolClasses c with
    | some name =>
      rw [hstart] at hwhite
      cases hwhite
    | none =>
      rw [hstart] at hwhite
      rcases h.classOf c with hsame | ⟨-, -, ⟨-, hno⟩ | ⟨name, hname, -⟩⟩
      · exact hsame.trans hstart
      · rw [hno] at hwhite
        cases hwhite
      · exact nomatch hstart.symm.trans hname

/-- The keys of a literal stand for its text, white delimiters left out. -/
theorem Narrowed.forall₂_takes_literal_iff (h : Narrowed spelled start n)
    (hstart : start.Clear spelled) (hspared : n.Spared) (ht : ∀ c ∈ text, spelled c)
    (hs : ∀ c ∈ text, n.Settled c) :
    List.Forall₂ n.Takes (text.filterMap n.classOf) out ↔
      out = text.filter (fun c => start.symbolInfo c != .whiteDelimiter) := by
  induction text generalizing out with
  | nil => simp
  | cons c text ih =>
    have hrest (out : List Char) : List.Forall₂ n.Takes (text.filterMap n.classOf) out ↔
        out = text.filter (fun c => start.symbolInfo c != .whiteDelimiter) :=
      ih (fun d hd => ht d (List.mem_cons_of_mem c hd))
        (fun d hd => hs d (List.mem_cons_of_mem c hd))
    have hc := hs c List.mem_cons_self
    cases hkey : n.classOf c with
    | none =>
      have hwhite := (h.classOf_eq_none_iff hc).1 hkey
      rw [List.filterMap_cons_none hkey, List.filter_cons_of_neg (by simp [hwhite])]
      exact hrest out
    | some key =>
      have hwhite : start.symbolInfo c ≠ .whiteDelimiter := fun hw =>
        nomatch hkey.symm.trans ((h.classOf_eq_none_iff hc).2 hw)
      rw [List.filterMap_cons_some hkey, List.filter_cons_of_pos (by simpa using hwhite),
        List.forall₂_cons_left_iff]
      constructor
      · rintro ⟨d, more, htakes, hmore, rfl⟩
        rw [(h.takes_iff_of_settled hstart hspared (ht c List.mem_cons_self) hc hkey).1 htakes,
          (hrest more).1 hmore]
      · rintro rfl
        exact ⟨c, _, .inl hkey, (hrest _).2 rfl, rfl⟩

/-- The keys of a settled literal stay the same. -/
theorem Later.filterMap_classOf (h : n.Later n') (hs : ∀ c ∈ text, n.Settled c) :
    text.filterMap n'.classOf = text.filterMap n.classOf :=
  List.filterMap_congr (fun c hc => (h.settled c (hs c hc)).2)

end Syntagma.Narrowing
