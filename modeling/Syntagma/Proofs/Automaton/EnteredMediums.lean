import Syntagma.Proofs.Automaton.Formation
import Syntagma.Proofs.Dictionary
import Syntagma.Proofs.Grammar.TrieTexts

/-! The mediums that the walk over a token enters. The walk is told once more with a list of these,
which is there also if the walk fails. Each was not visited before and is from then on, so none is
entered twice. As less is ahead at each level than at the one above, the walk never comes to the
bottom of its depth if that is the number of nodes. -/

namespace Syntagma

/-- What comes of a walk, and the mediums entered on it, also if it fails. -/
structure Entering (α : Type) where
  entered : List NodeId
  result : Except Fault α

namespace Entering

variable {α β : Type}

instance : Monad Entering where
  pure a := ⟨[], .ok a⟩
  bind x f := match x.result with
    | .ok a => ⟨x.entered ++ (f a).entered, (f a).result⟩
    | .error fault => ⟨x.entered, .error fault⟩

/-- Enters nothing. -/
def lift (x : Except Fault α) : Entering α := ⟨[], x⟩

def enter (m : NodeId) : Entering Unit := ⟨[m], .ok ()⟩

@[simp] theorem result_lift (x : Except Fault α) : (lift x).result = x := rfl

theorem bind_of_ok {x : Entering α} {a : α} (h : x.result = .ok a) (f : α → Entering β) :
    x >>= f = ⟨x.entered ++ (f a).entered, (f a).result⟩ := by
  obtain ⟨entered, result⟩ := x
  cases h
  rfl

theorem bind_of_error {x : Entering α} {fault : Fault} (h : x.result = .error fault)
    (f : α → Entering β) : x >>= f = ⟨x.entered, .error fault⟩ := by
  obtain ⟨entered, result⟩ := x
  cases h
  rfl

@[simp] theorem result_bind (x : Entering α) (f : α → Entering β) :
    (x >>= f).result = x.result >>= fun a => (f a).result := by
  cases h : x.result with
  | ok a => rw [bind_of_ok h]; rfl
  | error fault => rw [bind_of_error h]; rfl

theorem result_foldlM (f : β → α → Entering β) (l : List α) (b : β) :
    (l.foldlM f b).result = l.foldlM (fun b a => (f b a).result) b := by
  induction l generalizing b with
  | nil => rfl
  | cons a l ih =>
    rw [List.foldlM_cons, List.foldlM_cons, result_bind]
    exact congrArg _ (funext ih)

end Entering

namespace TokenWalk

/-! ### The walk with the mediums entered -/

section Passes

variable (g : Grammar) (accept : AcceptToken)
  (walk : Trie → StateId → TokenWalk → Entering (Links × TokenWalk))

def enterBehind (continuation : Option NodeId) (state : StateId) (w : TokenWalk) :
    Entering TokenWalk :=
  match continuation.bind g.trie? with
  | some trie => do
    let r ← walk trie state w
    return r.2
  | none => .lift (w.accept state accept)

def enterTerminal (state : StateId) (acc : Links × TokenWalk) (e : NodeId × Option NodeId) :
    Entering (Links × TokenWalk) :=
  match g.node? e.1 with
  | some n =>
    if n.isTerminal then do
      let r := spellTerminal acc.2 state n.name acc.1
      let w ← enterBehind g accept walk e.2 r.1 r.2.2
      return (r.2.1, w)
    else return acc
  | none => return acc

def enterMedium (state : StateId) (acc : Links × TokenWalk) (e : NodeId × Option NodeId) :
    Entering (Links × TokenWalk) :=
  match (g.node? e.1).filter (·.isMedium) with
  | some n =>
    if e.2.isSome then .lift (.error (.of (.selfInclusion n.name)))
    else if acc.2.visited.contains e.1 then do
      let w ← .lift (meetAgain g accept acc.2 state e.1)
      return (acc.1, w)
    else do
      .enter e.1
      let r ← walk ((g.trie? e.1).getD .empty) state
        { acc.2 with visited := acc.2.visited.insert e.1 none }
      return (acc.1.insertAll r.1.entries,
        { r.2 with visited := r.2.visited.insert e.1 (some r.1) })
  | none => return acc

def enterClass (state : StateId) (acc : Links × TokenWalk) (e : NodeId × Option NodeId) :
    Entering (Links × TokenWalk) :=
  match (g.node? e.1).map Node.kind with
  | some (.symbolClass data) => do
    let r := takeClass acc.2 state data.key acc.1
    let w ← enterBehind g accept walk e.2 r.1 r.2.2
    return (r.2.1, w)
  | some (.factor _) => .lift (.error (.of (.leftRecursionInToken accept.name)))
  | _ => return acc

theorem result_enterBehind (continuation : Option NodeId) (state : StateId) (w : TokenWalk) :
    (enterBehind g accept walk continuation state w).result =
      walkBehind g accept (fun trie state w => (walk trie state w).result) continuation state
        w := by
  unfold enterBehind walkBehind
  cases continuation.bind g.trie? with
  | none => rfl
  | some trie =>
    dsimp only
    rw [Entering.result_bind]
    cases (walk trie state w).result <;> rfl

theorem result_enterTerminal (state : StateId) :
    (fun acc e => (enterTerminal g accept walk state acc e).result) =
      terminalStep g accept (fun trie state w => (walk trie state w).result) state := by
  funext acc e
  unfold enterTerminal terminalStep
  cases g.node? e.1 with
  | none => rfl
  | some n =>
    dsimp only
    split
    · rw [Entering.result_bind, result_enterBehind]
      rfl
    · rfl

theorem result_enterMedium (state : StateId) :
    (fun acc e => (enterMedium g accept walk state acc e).result) =
      mediumStep g accept (fun trie state w => (walk trie state w).result) state := by
  funext acc e
  unfold enterMedium mediumStep
  cases (g.node? e.1).filter (·.isMedium) with
  | none => rfl
  | some n =>
    dsimp only
    split
    · rfl
    split
    · rw [Entering.result_bind]
      rfl
    · rw [Entering.result_bind, Entering.result_bind]
      rfl

theorem result_enterClass (state : StateId) :
    (fun acc e => (enterClass g accept walk state acc e).result) =
      classStep g accept (fun trie state w => (walk trie state w).result) state := by
  funext acc e
  unfold enterClass classStep
  cases (g.node? e.1).map Node.kind with
  | none => rfl
  | some kind =>
    cases kind with
    | symbolClass data =>
      dsimp only
      rw [Entering.result_bind, result_enterBehind]
      rfl
    | _ => rfl

/-- One level of the walk: the terminals, then the mediums, then the classes. -/
def enterLevel (trie : Trie) (state : StateId) (w : TokenWalk) : Entering (Links × TokenWalk) :=
  if trie.recursion.isSome then .lift (.error (.of (.leftRecursionInToken accept.name)))
  else do
    let w ← .lift (if trie.interruptable then w.accept state accept else .ok w)
    let acc ← trie.cases.foldlM (enterTerminal g accept walk state) ((.empty : Links), w)
    let acc ← trie.cases.foldlM (enterMedium g accept walk state) acc
    trie.cases.foldlM (enterClass g accept walk state) acc

end Passes

/-- A walk that is not deep enough. -/
def endless : Fault := .of (.internal "the walk over a token does not end")

/-- The walk over a trie, with the mediums that it enters. -/
def entering (g : Grammar) (accept : AcceptToken) :
    Nat → Trie → StateId → TokenWalk → Entering (Links × TokenWalk)
  | 0, _, _, _ => .lift (.error endless)
  | depth + 1, trie, state, w => enterLevel g accept (entering g accept depth) trie state w

/-- It is the walk. -/
theorem result_entering (g : Grammar) (accept : AcceptToken) (depth : Nat) (trie : Trie)
    (state : StateId) (w : TokenWalk) :
    (entering g accept depth trie state w).result = walkTrie g accept depth trie state w := by
  induction depth generalizing trie state w with
  | zero => rfl
  | succ depth ih =>
    have hwalk : (fun trie state w => (entering g accept depth trie state w).result) =
        walkTrie g accept depth := by
      funext trie state w
      exact ih trie state w
    rw [walkTrie_succ, entering, enterLevel]
    split
    · rfl
    · simp only [Entering.result_bind, Entering.result_foldlM, Entering.result_lift,
        result_enterTerminal, result_enterMedium, result_enterClass, hwalk]

/-! ### No medium is entered twice -/

section Settling

variable {α β : Type}

/-- The two walks are the same, and come to no bottom. They enter mediums not visited before, each
once, and have visited them afterwards. -/
structure Settles (visited : Dictionary NodeId (Option Links)) (after : β → TokenWalk)
    (x y : Entering β) : Prop where
  eq : y = x
  ends : x.result ≠ .error endless
  nodup : x.entered.Nodup
  fresh : ∀ m ∈ x.entered, visited.contains m = false
  marks (b : β) : x.result = .ok b →
    ∀ m, visited.contains m ∨ m ∈ x.entered → (after b).visited.contains m

variable {visited : Dictionary NodeId (Option Links)} {after : β → TokenWalk}
  {after' : α → TokenWalk} {x y : Entering β}

theorem settles_lift {x : Except Fault β} (h : x ≠ .error endless)
    (hv : ∀ b, x = .ok b → ∀ m, visited.contains m → (after b).visited.contains m) :
    Settles visited after (.lift x) (.lift x) where
  eq := rfl
  ends := h
  nodup := .nil
  fresh _ hm := absurd hm List.not_mem_nil
  marks b hb m hm := hv b hb m (hm.resolve_right List.not_mem_nil)

theorem settles_error {fault : Fault} (h : fault ≠ endless) :
    Settles visited after (.lift (.error fault)) (.lift (.error fault)) :=
  settles_lift (fun he => h (Except.error.inj he)) (fun _ hb => nomatch hb)

theorem settles_pure {b : β} (hv : ∀ m, visited.contains m → (after b).visited.contains m) :
    Settles visited after (pure b) (pure b) :=
  settles_lift (fun h => nomatch h) (fun _ hb => Except.ok.inj hb ▸ hv)

theorem Settles.bind (h : Settles visited after x y) {f f' : β → Entering α}
    (hf : ∀ b, x.result = .ok b → Settles (after b).visited after' (f b) (f' b)) :
    Settles visited after' (x >>= f) (y >>= f') := by
  rw [h.eq]
  cases hr : x.result with
  | error fault =>
    rw [Entering.bind_of_error hr, Entering.bind_of_error hr]
    refine ⟨rfl, fun hends => h.ends (hr.trans ?_), h.nodup, h.fresh, fun _ hb => nomatch hb⟩
    exact congrArg _ (Except.error.inj hends)
  | ok b =>
    have hb := hf b hr
    rw [Entering.bind_of_ok hr, Entering.bind_of_ok hr, hb.eq]
    refine ⟨rfl, hb.ends, h.nodup.append hb.nodup (fun m hm hm' => ?_), fun m hm => ?_,
      fun a ha m hm => hb.marks a ha m ?_⟩
    · exact absurd (h.marks b hr m (.inr hm)) (Bool.eq_false_iff.1 (hb.fresh m hm'))
    · rcases List.mem_append.1 hm with hm | hm
      · exact h.fresh m hm
      · refine Bool.eq_false_iff.2 (fun hv => ?_)
        exact Bool.eq_false_iff.1 (hb.fresh m hm) (h.marks b hr m (.inl hv))
    · rcases hm with hm | hm
      · exact .inl (h.marks b hr m (.inl hm))
      · rcases List.mem_append.1 hm with hm | hm
        · exact .inl (h.marks b hr m (.inr hm))
        · exact .inr hm

/-- A step that settles after any others settles in a fold. -/
theorem settles_foldlM {f f' : Links × TokenWalk → α → Entering (Links × TokenWalk)} (l : List α)
    (acc : Links × TokenWalk) (hacc : ∀ m, visited.contains m → acc.2.visited.contains m)
    (hf : ∀ e ∈ l, ∀ acc : Links × TokenWalk,
      (∀ m, visited.contains m → acc.2.visited.contains m) →
        Settles acc.2.visited Prod.snd (f acc e) (f' acc e)) :
    Settles acc.2.visited Prod.snd (l.foldlM f acc) (l.foldlM f' acc) := by
  induction l generalizing acc with
  | nil => exact settles_pure (fun _ hm => hm)
  | cons e l ih =>
    rw [List.foldlM_cons, List.foldlM_cons]
    have hfirst := hf e List.mem_cons_self acc hacc
    refine hfirst.bind (fun acc' h => ih acc' (fun m hm => ?_) (fun e he => ?_))
    · exact hfirst.marks acc' h m (.inl (hacc m hm))
    · exact hf e (List.mem_cons_of_mem _ he)

end Settling

section Levels

variable {g : Grammar} {accept : AcceptToken} {w w' : TokenWalk} {state : StateId}
  {walk walk' : Trie → StateId → TokenWalk → Entering (Links × TokenWalk)}
  {acc : Links × TokenWalk} {e : NodeId × Option NodeId} {continuation : Option NodeId} {m : NodeId}

theorem accept_ne_endless : w.accept state accept ≠ .error endless := by
  unfold TokenWalk.accept Synthesis.accept
  cases w.synthesis.arena.tokenOf state with
  | none => exact fun h => nomatch h
  | some existing =>
    dsimp only
    split
    · exact fun h => nomatch h
    · exact fun h => nomatch h

theorem meetAgain_ne_endless : meetAgain g accept w state m ≠ .error endless := by
  unfold meetAgain
  dsimp only
  split
  · have hends : w.accept state accept ≠ .error endless := accept_ne_endless
    cases ha : w.accept state accept with
    | ok w₁ => exact fun h => nomatch h
    | error fault => exact fun h => hends (ha.trans (congrArg _ (Except.error.inj h)))
  · exact fun h => nomatch h

theorem settles_accept :
    Settles w.visited (fun w => w) (.lift (w.accept state accept))
      (.lift (w.accept state accept)) := by
  refine settles_lift accept_ne_endless (fun w' h m hm => ?_)
  obtain ⟨s, -, rfl⟩ := accept_cases h
  exact hm

theorem settles_meetAgain : Settles w.visited (fun w => w) (.lift (meetAgain g accept w state m))
    (.lift (meetAgain g accept w state m)) := by
  refine settles_lift meetAgain_ne_endless (fun w' h k hk => ?_)
  obtain ⟨s, -, rfl⟩ := meetAgain_cases h
  exact hk

theorem settles_enter (h : w.visited.contains m = false) (state : Option Links) :
    Settles w.visited (fun _ => { w with visited := w.visited.insert m state }) (.enter m)
      (.enter m) where
  eq := rfl
  ends h := nomatch h
  nodup := List.nodup_singleton m
  fresh _ hk := List.mem_singleton.1 hk ▸ h
  marks _ _ _ hk := Dictionary.contains_insert.2 (hk.symm.imp List.mem_singleton.1 id)

/-- What stands behind a head settles if it is walked through. -/
theorem settles_enterBehind (accept : AcceptToken)
    (hwalk : ∀ next ∈ continuation, ∀ trie, g.trie? next = some trie →
      Settles w.visited Prod.snd (walk trie state w) (walk' trie state w)) :
    Settles w.visited (fun w => w) (enterBehind g accept walk continuation state w)
      (enterBehind g accept walk' continuation state w) := by
  unfold enterBehind
  cases ht : continuation.bind g.trie? with
  | none => exact settles_accept
  | some trie =>
    obtain ⟨next, hn, ht⟩ := Option.bind_eq_some_iff.1 ht
    exact (hwalk next hn trie ht).bind (fun _ _ => settles_pure (fun _ hm => hm))

section Behind

variable (accept : AcceptToken) (state : StateId)
  (hwalk : ∀ (state : StateId) (w : TokenWalk), w.visited = acc.2.visited → ∀ next ∈ e.2, ∀ trie,
    g.trie? next = some trie →
      Settles w.visited Prod.snd (walk trie state w) (walk' trie state w))

include hwalk

theorem settles_enterTerminal :
    Settles acc.2.visited Prod.snd (enterTerminal g accept walk state acc e)
      (enterTerminal g accept walk' state acc e) := by
  unfold enterTerminal
  cases g.node? e.1 with
  | none => exact settles_pure (fun _ hm => hm)
  | some n =>
    dsimp only
    split
    · have hbehind := settles_enterBehind accept (hwalk (acc.2.spellTerminal state n.name acc.1).1
        (acc.2.spellTerminal state n.name acc.1).2.2 rfl)
      refine hbehind.bind (fun w _ => ?_)
      exact settles_pure (fun _ hm => hm)
    · exact settles_pure (fun _ hm => hm)

theorem settles_enterClass : Settles acc.2.visited Prod.snd (enterClass g accept walk state acc e)
    (enterClass g accept walk' state acc e) := by
  unfold enterClass
  cases (g.node? e.1).map Node.kind with
  | none => exact settles_pure (fun _ hm => hm)
  | some kind =>
    cases kind with
    | symbolClass data =>
      dsimp only
      have hbehind := settles_enterBehind accept (hwalk (acc.2.takeClass state data.key acc.1).1
        (acc.2.takeClass state data.key acc.1).2.2 rfl)
      refine hbehind.bind (fun w _ => ?_)
      exact settles_pure (fun _ hm => hm)
    | factor trie => exact settles_error (by simp [endless, Fault.of])
    | _ => exact settles_pure (fun _ hm => hm)

end Behind

theorem settles_enterMedium (accept : AcceptToken) (state : StateId)
    (hwalk : isMedium g e.1 → acc.2.visited.contains e.1 = false →
      Settles (acc.2.visited.insert e.1 none) Prod.snd
        (walk ((g.trie? e.1).getD .empty) state
          { acc.2 with visited := acc.2.visited.insert e.1 none })
        (walk' ((g.trie? e.1).getD .empty) state
          { acc.2 with visited := acc.2.visited.insert e.1 none })) :
    Settles acc.2.visited Prod.snd (enterMedium g accept walk state acc e)
      (enterMedium g accept walk' state acc e) := by
  unfold enterMedium
  cases hn : (g.node? e.1).filter (·.isMedium) with
  | none => exact settles_pure (fun _ hm => hm)
  | some n =>
    dsimp only
    split
    · exact settles_error (by simp [endless, Fault.of])
    split
    · exact settles_meetAgain.bind (fun _ _ => settles_pure (fun _ hm => hm))
    next hv =>
      have hv : acc.2.visited.contains e.1 = false := by simpa using hv
      have hm : isMedium g e.1 := by
        obtain ⟨hnode, hmedium⟩ := Option.filter_eq_some_iff.1 hn
        simp [isMedium, hnode, hmedium]
      refine (settles_enter hv none).bind (fun _ _ => (hwalk hm hv).bind (fun r _ => ?_))
      exact settles_pure (fun _ hk => Dictionary.contains_insert.2 (.inr hk))

/-- A level settles if what it goes on with does. -/
theorem settles_enterLevel {trie : Trie}
    (hbehind : ∀ e ∈ trie.cases, ∀ next ∈ e.2, ∀ inner, g.trie? next = some inner →
      ∀ (state : StateId) (w' : TokenWalk), (∀ m, w.visited.contains m → w'.visited.contains m) →
        Settles w'.visited Prod.snd (walk inner state w') (walk' inner state w'))
    (hmedium : ∀ e ∈ trie.cases, isMedium g e.1 → ∀ w' : TokenWalk,
      (∀ m, w.visited.contains m → w'.visited.contains m) → w'.visited.contains e.1 = false →
        Settles (w'.visited.insert e.1 none) Prod.snd
          (walk ((g.trie? e.1).getD .empty) state
            { w' with visited := w'.visited.insert e.1 none })
          (walk' ((g.trie? e.1).getD .empty) state
            { w' with visited := w'.visited.insert e.1 none })) :
    Settles w.visited Prod.snd (enterLevel g accept walk trie state w)
      (enterLevel g accept walk' trie state w) := by
  unfold enterLevel
  split
  · exact settles_error (by simp [endless, Fault.of])
  have haccept : Settles w.visited (fun w => w)
      (.lift (if trie.interruptable then w.accept state accept else .ok w))
      (.lift (if trie.interruptable then w.accept state accept else .ok w)) := by
    split
    · exact settles_accept
    · exact settles_pure (fun _ hm => hm)
  refine haccept.bind (fun w₁ h₁ => ?_)
  have hv₁ (m : NodeId) (hm : w.visited.contains m) : w₁.visited.contains m :=
    haccept.marks w₁ h₁ m (.inl hm)
  have hterminals := settles_foldlM trie.cases (.empty, w₁) hv₁ (fun e he acc hacc =>
    settles_enterTerminal accept state (fun state w' hw' next hn inner hi =>
      hbehind e he next hn inner hi state w' (hw' ▸ hacc)))
  refine hterminals.bind (fun acc₂ h₂ => ?_)
  have hv₂ (m : NodeId) (hm : w.visited.contains m) : acc₂.2.visited.contains m :=
    hterminals.marks acc₂ h₂ m (.inl (hv₁ m hm))
  have hmediums := settles_foldlM trie.cases acc₂ hv₂ (fun e he acc hacc =>
    settles_enterMedium accept state (fun hm hv => hmedium e he hm acc.2 hacc hv))
  refine hmediums.bind (fun acc₃ h₃ => ?_)
  have hv₃ (m : NodeId) (hm : w.visited.contains m) : acc₃.2.visited.contains m :=
    hmediums.marks acc₃ h₃ m (.inl (hv₂ m hm))
  exact settles_foldlM trie.cases acc₃ hv₃ (fun e he acc hacc =>
    settles_enterClass accept state (fun state w' hw' next hn inner hi =>
      hbehind e he next hn inner hi state w' (hw' ▸ hacc)))

end Levels

section Depths

variable {g : Grammar} {owner : NodeId → NodeId} {rank : NodeId → Nat} (h : g.Owned owner rank)
  {accept : AcceptToken} {depth : Nat} {i : NodeId} {trie : Trie} {state : StateId} {w : TokenWalk}
  (ht : g.trie? i = some trie) (hnot : ¬IsLoop g.trie? i) (hv : w.visited.contains (owner i))

include h ht hnot hv

/-- A walk that is deeper than what is ahead settles. -/
theorem settles_entering (hd : (g.ahead owner rank w.visited.contains i).card < depth) :
    Settles w.visited Prod.snd (entering g accept depth trie state w)
      (entering g accept (depth + 1) trie state w) := by
  induction depth generalizing i trie state w with
  | zero => exact absurd hd (Nat.not_lt_zero _)
  | succ depth ih =>
    refine settles_enterLevel (fun e he next hn inner hi state w' hw' => ?_)
      (fun e he hm w' hw' hnew => ?_)
    · obtain ⟨hf, hplain⟩ := h.descends.behind i trie ht hnot e he next hn
      have hlt := Grammar.card_ahead_lt hf (Grammar.lt_size_of_trie? hi) hv hw'
      exact ih hi hplain (hw' _ (hf.1 ▸ hv)) (Nat.lt_of_lt_of_le hlt (Nat.le_of_lt_succ hd))
    · obtain ⟨-, inner, -, -, hi⟩ := exists_trie_of_isMedium hm
      have howner := h.owner_eq e.1 hm
      have hself : (w'.visited.insert e.1 none).contains e.1 :=
        Dictionary.contains_insert.2 (.inl rfl)
      have hmore (m : NodeId) (hm : w.visited.contains m) :
          (w'.visited.insert e.1 none).contains m :=
        Dictionary.contains_insert.2 (.inr (hw' m hm))
      have hunseen : w.visited.contains e.1 = false :=
        Bool.eq_false_iff.2 (fun hseen => Bool.eq_false_iff.1 hnew (hw' e.1 hseen))
      have hlt : (g.ahead owner rank (w'.visited.insert e.1 none).contains e.1).card <
          (g.ahead owner rank w.visited.contains i).card :=
        Grammar.card_ahead_lt_of_enter (Grammar.lt_size_of_trie? hi) howner hunseen hmore hself
      rw [hi]
      exact ih (w := { w' with visited := w'.visited.insert e.1 none }) hi (h.not_isLoop e.1 hm)
        (by rwa [howner]) (Nat.lt_of_lt_of_le hlt (Nat.le_of_lt_succ hd))

variable (accept state) in
/-- The number of nodes is enough of a depth: any deeper walk is the same, and settles. -/
theorem exists_entering : ∃ walk, Settles w.visited Prod.snd walk walk ∧
    ∀ depth, g.nodes.size ≤ depth → entering g accept depth trie state w = walk := by
  have hlt : (g.ahead owner rank w.visited.contains i).card < g.nodes.size :=
    Grammar.card_ahead_lt_size (Grammar.lt_size_of_trie? ht) hv
  have heq (depth : Nat) (hd : g.nodes.size ≤ depth) :
      entering g accept depth trie state w = entering g accept g.nodes.size trie state w := by
    induction depth, hd using Nat.le_induction with
    | base => rfl
    | succ depth hd ih =>
      rw [(settles_entering h ht hnot hv (Nat.lt_of_lt_of_le hlt hd)).eq, ih]
  have hsettles : Settles w.visited Prod.snd (entering g accept g.nodes.size trie state w)
      (entering g accept (g.nodes.size + 1) trie state w) := settles_entering h ht hnot hv hlt
  rw [heq _ (Nat.le_succ _)] at hsettles
  exact ⟨_, hsettles, heq⟩

end Depths

end TokenWalk

open TokenWalk

/-- The recursions over a compiled grammar end. However one goes on from node to node, one comes to
none twice, but for a loop that comes back to itself. The written form of a medium asks for no end
of others, and the number of nodes is enough of a depth for it. So it is for the walk over a token:
any more makes the same walk, the bottom is never met, and each medium is entered once at most, the
token itself not again. -/
theorem recursions_end_of_compile {description : GrammarDescription} {options : GrammarOptions}
    {g : Grammar} (h : Grammar.compile description options = .ok g) :
    (∀ path : List NodeId, path.IsChain (fun i j => Leads g.trie? i j ∧ i ≠ j) → path.Nodup) ∧
      (∀ i, Leads g.trie? i i → g.isFactor i ∧ IsLoop g.trie? i) ∧
      (∀ id n data, g.node? id = some n → n.medium? = some data → Acc g.AsksText data.trie ∧
        ∀ depth, g.nodes.size < depth →
          g.trieText depth data.trie = g.trieText (g.nodes.size + 1) data.trie) ∧
      ∀ n ∈ g.tokens, ∀ (accept : AcceptToken) (state : StateId) (synthesis : Synthesis),
        ∃ walk : Entering (Links × TokenWalk), walk.result ≠ .error endless ∧
          (n.id :: walk.entered).Nodup ∧ ∀ depth, g.nodes.size < depth →
            entering g accept depth ((g.trie? n.id).getD .empty) state
                ⟨synthesis, Dictionary.empty.insert n.id none, []⟩ = walk ∧
              walkTrie g accept depth ((g.trie? n.id).getD .empty) state
                ⟨synthesis, Dictionary.empty.insert n.id none, []⟩ = walk.result := by
  have hwell := wellFormed_of_compile h
  obtain ⟨_, _, _, -, hclassified⟩ := classified_of_compile h
  obtain ⟨owner, rank, hg⟩ := exists_owned_of_compile h
  refine ⟨fun path => hg.descends.nodup_of_isChain, fun i hl => ?_, fun id n data hn hd => ?_,
    fun n hn accept state synthesis => ?_⟩
  · rcases hg.descends.leads hl with hf | ⟨-, hloop⟩
    · exact absurd hf.2 (Nat.lt_irrefl _)
    · exact ⟨hwell.isFactor_of_isLoop hloop, hloop⟩
  · have hm : (g.node? id).any (·.isMedium) := by
      rw [hn, Option.any_some, Node.isMedium, hd, Option.isSome_some]
    have ht := Grammar.trie?_of_medium? hn hd
    refine ⟨hg.acc_asksText ht (hg.not_isLoop id hm), fun depth hdepth => ?_⟩
    rw [hg.trieText_eq ht (hg.not_isLoop id hm) (Nat.le_of_lt hdepth),
      hg.trieText_eq ht (hg.not_isLoop id hm) (Nat.le_succ _)]
  · have hm : isMedium g n.id := hclassified.isMedium_of_mem_tokens hn
    obtain ⟨-, trie, -, -, ht⟩ := exists_trie_of_isMedium hm
    generalize hw : (⟨synthesis, Dictionary.empty.insert n.id none, []⟩ : TokenWalk) = w
    have hstart : w.visited.contains n.id := hw ▸ Dictionary.contains_insert.2 (.inl rfl)
    obtain ⟨walk, hsettles, hdeep⟩ := exists_entering hg accept state ht (hg.not_isLoop n.id hm)
      (by rwa [hg.owner_eq n.id hm])
    refine ⟨walk, hsettles.ends, List.nodup_cons.2 ⟨fun hself => ?_, hsettles.nodup⟩,
      fun depth hdepth => ?_⟩
    · exact Bool.eq_false_iff.1 (hsettles.fresh n.id hself) hstart
    · rw [← result_entering, ht, Option.getD_some, hdeep depth (Nat.le_of_lt hdepth)]
      exact ⟨rfl, rfl⟩

/-- Lists of words, left-recursive. In a word two mediums stand for the tails of each other. -/
def nestedTails : GrammarDescription :=
  descriptionOf (.mk "List" .medium
    [[.reference "List", literal ",", .definition (.mk "Word" (.token "word" none)
        [[literal "a", .definition (.mk "Tail" .medium
          [[literal "b", .definition (.mk "More" .medium
            [[literal "c", .reference "Tail"], [literal "d"]])],
          [literal "e"]])]])],
      [.reference "Word"]])

/-- With its left recursion kept, the lists have a loop that comes back to itself, and the two tails
lead to each other. At any depth that is enough, the walk over a word enters each of them once. -/
theorem recursions_end_nestedTails : ∃ g,
    Grammar.compile nestedTails { removeLeftRecursion := false } = .ok g ∧
      (∀ path : List NodeId, path.IsChain (fun i j => Leads g.trie? i j ∧ i ≠ j) → path.Nodup) ∧
      g.trie? 7 = some (.loop 6 7) ∧ g.trie? 3 = some ⟨[(12, some 9), (15, none)], false, none⟩ ∧
      g.trie? 9 = some ⟨[(4, none)], false, none⟩ ∧ g.trie? 10 = some ⟨[(3, none)], false, none⟩ ∧
      ∃ walk : Entering (Links × TokenWalk), walk.entered = [3, 4] ∧ ∀ depth, 16 < depth →
        entering g ⟨"Word", "word"⟩ depth ((g.trie? 1).getD .empty) Arena.root
          ⟨.ofTable g.classTable, Dictionary.empty.insert 1 none, []⟩ = walk := by
  have hcompiled : (Grammar.compile nestedTails { removeLeftRecursion := false }).map (fun g =>
      (g.nodes.size, g.trie? 7, g.trie? 3, g.trie? 9, g.trie? 10, g.tokens.map (·.id),
        (entering g ⟨"Word", "word"⟩ 17 ((g.trie? 1).getD .empty) Arena.root
          ⟨.ofTable g.classTable, Dictionary.empty.insert 1 none, []⟩).entered)) =
      .ok (16, some (.loop 6 7), some ⟨[(12, some 9), (15, none)], false, none⟩,
        some ⟨[(4, none)], false, none⟩, some ⟨[(3, none)], false, none⟩, [1], [3, 4]) := by cbv
  obtain ⟨g, hg, hparts⟩ := Fault.map_eq_ok_iff.1 hcompiled
  simp only [Prod.mk.injEq] at hparts
  obtain ⟨hsize, hloop, htail, hbehind, hmore, htokens, hentered⟩ := hparts
  obtain ⟨word, hword, hid⟩ := List.mem_map.1 (htokens ▸ List.mem_singleton_self 1)
  obtain ⟨hpaths, -, -, hwalks⟩ := recursions_end_of_compile hg
  obtain ⟨walk, -, -, hwalk⟩ :=
    hwalks word hword ⟨"Word", "word"⟩ Arena.root (.ofTable g.classTable)
  rw [hid, hsize] at hwalk
  refine ⟨g, hg, hpaths, hloop, htail, hbehind, hmore, walk, ?_, fun depth hd => (hwalk depth hd).1⟩
  rw [← hentered, (hwalk 17 (by decide)).1]

end Syntagma
