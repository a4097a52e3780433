import Mathlib.Data.List.Forall2
import Syntagma.Proofs.Grammar.Reading
import Syntagma.Proofs.Grammar.Shape

/-! Planting a tree of merged alternatives. The nodes that are made are factors whose tries fit the
draft, and the trie at the root spells what the tree spells, however the draft goes on as long as
its factors stay. -/

namespace Syntagma

/-- The sequences that a trie spells, going on from factor to factor. -/
def Trie.Spells (trie? : NodeId → Option Trie) : Trie → List NodeId → Prop
  | t, [] => t.interruptable
  | t, head :: rest => ∃ next, (head, next) ∈ t.cases ∧
      match next with
      | none => rest = []
      | some factor => ∃ inner, trie? factor = some inner ∧ Spells trie? inner rest

/-- The factor that a trie leads to behind the symbols of a path. -/
inductive Trie.Behind (trie? : NodeId → Option Trie) : Trie → List NodeId → NodeId → Prop where
  | head {t : Trie} {head factor : NodeId} (h : (head, some factor) ∈ t.cases) :
    Behind trie? t [head] factor
  | step {t inner : Trie} {head next factor : NodeId} {path : List NodeId}
    (h : (head, some next) ∈ t.cases) (hi : trie? next = some inner)
    (hb : Behind trie? inner path factor) : Behind trie? t (head :: path) factor

/-- The trie of a loop: it may end at once, or enters the tails and comes back to itself. -/
def Trie.loop (tails loop : NodeId) : Trie := ⟨[(tails, some loop)], true, none⟩

theorem Trie.Behind.mono {trie? trie?' : NodeId → Option Trie} {t : Trie} {path : List NodeId}
    {factor : NodeId} (h : t.Behind trie? path factor)
    (hs : ∀ id inner, trie? id = some inner → trie?' id = some inner) :
    t.Behind trie?' path factor := by
  induction h with
  | head hmem => exact .head hmem
  | step hmem hi _ ih => exact .step hmem (hs _ _ hi) ih

/-- More cases have the same factors behind them. -/
theorem Trie.Behind.of_subset {trie? : NodeId → Option Trie} {t t' : Trie} {path : List NodeId}
    {factor : NodeId} (h : t.Behind trie? path factor) (hs : ∀ e ∈ t.cases, e ∈ t'.cases) :
    t'.Behind trie? path factor := by
  cases h with
  | head hmem => exact .head (hs _ hmem)
  | step hmem hi hb => exact .step (hs _ hmem) hi hb

namespace Draft

variable {d d' d'' : Draft}

/-- The factors of the earlier draft are factors of the later one, with the same tries. -/
def KeepsFactors (d d' : Draft) : Prop :=
  ∀ id n, d.shape? id = some n → n.isFactor → d'.shape? id = some n

/-- A trie over the nodes of the draft, with each head once. -/
structure Fits (d : Draft) (trie : Trie) : Prop where
  nodup : (trie.cases.map (·.1)).Nodup
  heads_lt : ∀ e ∈ trie.cases, e.1 < d.nodes.size
  continuation : ∀ e ∈ trie.cases, ∀ next ∈ e.2, (d.trie? next).isSome
  recursion : ∀ next ∈ trie.recursion, (d.trie? next).isSome

/-- Between the two drafts nothing but factors was added. -/
structure Planted (d d' : Draft) : Prop where
  grows : d.Grows d'
  id_eq (id : NodeId) (n : Node) : d.nodes.size ≤ id → d'.shape? id = some n → n.id = id
  new (id : NodeId) (n : Node) : d.nodes.size ≤ id → d'.shape? id = some n →
    ∃ trie, n.kind = .factor trie ∧ trie.recursion = none ∧ d'.Fits trie

/-- The trie spells what the tree does, here and in every draft with the same factors. -/
def Represents (d : Draft) (trie : Trie) (b : Branching) : Prop :=
  ∀ d', d.KeepsFactors d' → ∀ w, trie.Spells d'.trie? w ↔ b.Spells w

/-- The factor behind a head is one from `base` on, and stands for what the tree has behind it. -/
def Stands (base : Nat) (d : Draft) : Option NodeId → Option Branching → Prop
  | none, none => True
  | some factor, some b => base ≤ factor ∧
      ∃ trie, (∀ d', d.KeepsFactors d' → d'.trie? factor = some trie) ∧ d.Represents trie b
  | _, _ => False

/-- The trie has the branches of the tree, and factors from `base` on behind them. -/
structure Mirrors (base : Nat) (d : Draft) (trie : Trie) (b : Branching) : Prop where
  branches : List.Forall₂ (fun e b => e.1 = b.1 ∧ d.Stands base e.2 b.2) trie.cases b.branches
  ends : trie.interruptable = b.ends
  recursion : trie.recursion = none

/-- Between the two drafts the tree was planted: the trie mirrors its root, and each node that was
made is a factor whose trie mirrors an inner tree, behind the same symbols. -/
structure Made (d d' : Draft) (trie : Trie) (b : Branching) : Prop where
  grows : d.Grows d'
  mirrors : d'.Mirrors d.nodes.size trie b
  new (id : NodeId) (n : Node) : d.nodes.size ≤ id → d'.shape? id = some n → n.id = id ∧
    ∃ path t inner, n.kind = .factor t ∧ trie.Behind d'.trie? path id ∧ b.Behind path inner ∧
      d'.Mirrors d.nodes.size t inner

namespace KeepsFactors

theorem refl (d : Draft) : d.KeepsFactors d := fun _ _ h _ => h

theorem trans (h : d.KeepsFactors d') (h' : d'.KeepsFactors d'') : d.KeepsFactors d'' :=
  fun id n hn hf => h' id n (h id n hn hf) hf

end KeepsFactors

theorem Grows.keepsFactors (h : d.Grows d') : d.KeepsFactors d' := fun id n hn _ => h id n hn

theorem Represents.of_keeps {trie : Trie} {b : Branching} (h : d.Represents trie b)
    (hk : d.KeepsFactors d') : d'.Represents trie b :=
  fun d'' hk' => h d'' (hk.trans hk')

theorem Fits.of_grows {trie : Trie} (h : d.Fits trie) (hg : d.Grows d') : d'.Fits trie := by
  have hs {id : NodeId} (ht : (d.trie? id).isSome) : (d'.trie? id).isSome := by
    obtain ⟨t, ht⟩ := Option.isSome_iff_exists.1 ht
    rw [hg.trie? ht]
    rfl
  refine ⟨h.nodup, fun e he => ?_, fun e he next hn => ?_, fun next hn => ?_⟩
  · exact Nat.lt_of_lt_of_le (h.heads_lt e he) hg.size_le
  · exact hs (h.continuation e he next hn)
  · exact hs (h.recursion next hn)

theorem fits_empty (d : Draft) : d.Fits .empty where
  nodup := .nil
  heads_lt _ h := absurd h List.not_mem_nil
  continuation _ h := absurd h List.not_mem_nil
  recursion _ h := nomatch h

namespace Planted

theorem refl (d : Draft) : Planted d d where
  grows := .refl d
  id_eq _ _ hle hn := absurd (lt_size_of_shape? hn) (Nat.not_lt.2 hle)
  new _ _ hle hn := absurd (lt_size_of_shape? hn) (Nat.not_lt.2 hle)

theorem trans (h : Planted d d') (h' : Planted d' d'') : Planted d d'' := by
  have hback {id : NodeId} {n : Node} (hid : id < d'.nodes.size) (hn : d''.shape? id = some n) :
      d'.shape? id = some n := by
    obtain ⟨m, hm⟩ := exists_shape? hid
    rw [h'.grows id m hm] at hn
    rw [hm, hn]
  refine ⟨h.grows.trans h'.grows, fun id n hle hn => ?_, fun id n hle hn => ?_⟩
  · rcases Nat.lt_or_ge id d'.nodes.size with hid | hid
    · exact h.id_eq id n hle (hback hid hn)
    · exact h'.id_eq id n hid hn
  · rcases Nat.lt_or_ge id d'.nodes.size with hid | hid
    · obtain ⟨trie, hk, hr, hf⟩ := h.new id n hle (hback hid hn)
      exact ⟨trie, hk, hr, hf.of_grows h'.grows⟩
    · exact h'.new id n hid hn

theorem pushFactor (owner : String) {trie : Trie} (hr : trie.recursion = none)
    (hf : (d.pushFactor owner trie).Fits trie) : Planted d (d.pushFactor owner trie) := by
  have hself {id : NodeId} {n : Node} (hle : d.nodes.size ≤ id)
      (hn : (d.pushFactor owner trie).shape? id = some n) : n.id = id ∧ n.kind = .factor trie := by
    have hlt := lt_size_of_shape? hn
    rw [Draft.pushFactor, size_push] at hlt
    have hid : id = d.nodes.size := Nat.le_antisymm (Nat.le_of_lt_succ hlt) hle
    rw [Draft.pushFactor, shape?_push, if_pos hid] at hn
    cases hn
    exact ⟨hid.symm, rfl⟩
  refine ⟨grows_push _ _ _ _, fun id n hle hn => (hself hle hn).1, fun id n hle hn => ?_⟩
  exact ⟨trie, (hself hle hn).2, hr, hf⟩

end Planted

theorem shape?_pushFactor_self (d : Draft) (owner : String) (trie : Trie) :
    ∃ name, (d.pushFactor owner trie).shape? d.nextId =
      some ⟨d.nodes.size, name, none, .factor trie⟩ := by
  refine ⟨owner ++ "'" ++ toString (d.factorCount + 1), ?_⟩
  rw [pushFactor, shape?_push, nextId, if_pos rfl]
  rfl

/-- A factor that was pushed stays, with its trie, in every draft that keeps the factors. -/
theorem trie?_of_keepsFactors {owner : String} {trie : Trie}
    (hk : (d.pushFactor owner trie).KeepsFactors d') : d'.trie? d.nextId = some trie := by
  obtain ⟨name, hs⟩ := shape?_pushFactor_self d owner trie
  rw [trie?, hk _ _ hs rfl]
  rfl

namespace Stands

variable {base base' : Nat} {next : Option NodeId} {inner : Option Branching}

theorem mono (h : d.Stands base next inner) (hle : base' ≤ base) : d.Stands base' next inner := by
  match next, inner, h with
  | none, none, _ => trivial
  | some _, some _, ⟨hbase, hrest⟩ => exact ⟨Nat.le_trans hle hbase, hrest⟩

theorem of_keeps (h : d.Stands base next inner) (hk : d.KeepsFactors d') :
    d'.Stands base next inner := by
  match next, inner, h with
  | none, none, _ => trivial
  | some _, some _, ⟨hbase, trie, ht, hr⟩ =>
    exact ⟨hbase, trie, fun d'' hk' => ht d'' (hk.trans hk'), hr.of_keeps hk⟩

theorem isSome_trie? {factor : NodeId} (h : d.Stands base (some factor) inner) :
    base ≤ factor ∧ (d.trie? factor).isSome := by
  cases inner with
  | none => exact h.elim
  | some b =>
    obtain ⟨hle, trie, ht, -⟩ := h
    rw [ht d (.refl d)]
    exact ⟨hle, rfl⟩

end Stands

namespace Mirrors

variable {base base' : Nat} {trie : Trie} {b : Branching}

theorem mono (h : d.Mirrors base trie b) (hle : base' ≤ base) : d.Mirrors base' trie b where
  branches := h.branches.imp (fun _ _ hs => ⟨hs.1, hs.2.mono hle⟩)
  ends := h.ends
  recursion := h.recursion

theorem of_keeps (h : d.Mirrors base trie b) (hk : d.KeepsFactors d') :
    d'.Mirrors base trie b where
  branches := h.branches.imp (fun _ _ hs => ⟨hs.1, hs.2.of_keeps hk⟩)
  ends := h.ends
  recursion := h.recursion

theorem heads (h : d.Mirrors base trie b) : trie.cases.map (·.1) = b.branches.map (·.1) := by
  have hbranches := h.branches
  generalize trie.cases = cases, b.branches = branches at hbranches ⊢
  induction hbranches with
  | nil => rfl
  | cons hfirst _ ih => rw [List.map_cons, List.map_cons, hfirst.1, ih]

theorem continuation (h : d.Mirrors base trie b) :
    ∀ e ∈ trie.cases, ∀ next ∈ e.2, base ≤ next ∧ (d.trie? next).isSome := by
  have hbranches := h.branches
  generalize trie.cases = cases, b.branches = branches at hbranches ⊢
  intro e he next hn
  induction hbranches with
  | nil => exact absurd he List.not_mem_nil
  | cons hfirst _ ih =>
    rcases List.mem_cons.1 he with rfl | he
    · obtain ⟨head, _⟩ := e
      cases hn
      exact hfirst.2.isSome_trie?
    · exact ih he

/-- A trie that mirrors a tree spells what the tree does. -/
theorem represents (h : d.Mirrors base trie b) : d.Represents trie b := by
  intro d' hk w
  obtain ⟨cases, interruptable, recursion⟩ := trie
  obtain ⟨branches, ends⟩ := b
  obtain ⟨hbranches, hends, -⟩ := h
  cases w with
  | nil => exact Bool.eq_iff_iff.1 hends
  | cons head rest =>
    unfold Trie.Spells Branching.Spells
    simp only [Branching.branches] at hbranches ⊢
    clear hends
    induction hbranches with
    | nil => simp
    | @cons e b cases branches hfirst _ ih =>
      obtain ⟨e₁, e₂⟩ := e
      obtain ⟨b₁, b₂⟩ := b
      obtain ⟨hhead, hs⟩ : e₁ = b₁ ∧ d.Stands base e₂ b₂ := hfirst
      simp only [List.mem_cons, Prod.mk.injEq, or_and_right, exists_or, and_assoc,
        exists_and_left, exists_eq_left] at ih ⊢
      rw [hhead]
      refine or_congr (and_congr_right (fun _ => ?_)) ih
      cases e₂ with
      | none =>
        cases b₂ with
        | none => rfl
        | some inner => exact hs.elim
      | some factor =>
        cases b₂ with
        | none => exact hs.elim
        | some inner =>
          obtain ⟨-, trie, ht, hr⟩ := hs
          simp only [ht d' hk, Option.some.injEq, exists_eq_left']
          exact hr d' hk rest

theorem fits {n : Nat} (h : d.Mirrors base trie b) (hb : b.Below n) (hn : n ≤ d.nodes.size) :
    d.Fits trie := by
  obtain ⟨hnodup, hheads, -⟩ := hb
  refine ⟨?_, fun e he => ?_, fun e he next hn => (h.continuation e he next hn).2, fun next hn => ?_⟩
  · rwa [h.heads]
  · obtain ⟨e', he', heq⟩ := List.mem_map.1 (h.heads ▸ List.mem_map_of_mem he)
    exact heq ▸ Nat.lt_of_lt_of_le (hheads e' he') hn
  · rw [h.recursion] at hn
    exact nomatch hn

end Mirrors

namespace Made

variable {owner : String} {head : NodeId} {ends : Bool} {b : Branching} {trie : Trie}
  {branches : List (NodeId × Option Branching)} {cases : List (NodeId × Option NodeId)}

theorem nil : Made d d ⟨[], ends, none⟩ (.mk [] ends) where
  grows := .refl d
  mirrors := ⟨.nil, rfl, rfl⟩
  new _ _ hle hn := absurd (lt_size_of_shape? hn) (Nat.not_lt.2 hle)

theorem cons_none (h : Made d d' ⟨cases, ends, none⟩ (.mk branches ends)) :
    Made d d' ⟨(head, none) :: cases, ends, none⟩ (.mk ((head, none) :: branches) ends) where
  grows := h.grows
  mirrors := ⟨.cons ⟨rfl, trivial⟩ h.mirrors.branches, rfl, rfl⟩
  new id n hle hn := by
    obtain ⟨hid, path, t, inner, hk, hp, hb, hm⟩ := h.new id n hle hn
    exact ⟨hid, path, t, inner, hk, hp.of_subset (fun _ => List.mem_cons_of_mem _),
      hb.of_subset (fun _ => List.mem_cons_of_mem _), hm⟩

theorem cons_some (h : Made d d' trie b)
    (h' : Made (d'.pushFactor owner trie) d'' ⟨cases, ends, none⟩ (.mk branches ends)) :
    Made d d'' ⟨(head, some d'.nextId) :: cases, ends, none⟩
      (.mk ((head, some b) :: branches) ends) := by
  have hpush : d'.Grows (d'.pushFactor owner trie) := grows_push _ _ _ _
  have hrest : d'.Grows d'' := hpush.trans h'.grows
  have hsize : (d'.pushFactor owner trie).nodes.size = d'.nodes.size + 1 := size_push _ _ _ _
  have hle : d.nodes.size ≤ d'.nodes.size := h.grows.size_le
  have htrie {d₀ : Draft} (hk : d''.KeepsFactors d₀) : d₀.trie? d'.nextId = some trie :=
    trie?_of_keepsFactors (h'.grows.keepsFactors.trans hk)
  have hroot : d''.Mirrors d.nodes.size trie b := h.mirrors.of_keeps hrest.keepsFactors
  refine ⟨h.grows.trans hrest, ⟨.cons ⟨rfl, hle, trie, fun _ => htrie, hroot.represents⟩ ?_, rfl,
    rfl⟩, fun id n hid hn => ?_⟩
  · exact (h'.mirrors.mono (by omega)).branches
  -- a node inside the tree of this branch, its root, or one of the branches behind it
  rcases Nat.lt_trichotomy id d'.nodes.size with hlt | rfl | hlt
  · obtain ⟨m, hs⟩ := exists_shape? hlt
    obtain rfl := Option.some.inj ((hrest id m hs).symm.trans hn)
    obtain ⟨heq, path, t, inner, hk, hp, hb, hm⟩ := h.new id m hid hs
    exact ⟨heq, head :: path, t, inner, hk,
      .step List.mem_cons_self (htrie (.refl _)) (hp.mono (fun _ _ => hrest.trie?)),
      .step List.mem_cons_self hb, hm.of_keeps hrest.keepsFactors⟩
  · obtain ⟨name, hs⟩ := shape?_pushFactor_self d' owner trie
    obtain rfl := Option.some.inj ((h'.grows _ _ hs).symm.trans hn)
    exact ⟨rfl, [head], trie, b, rfl, .head List.mem_cons_self, .head List.mem_cons_self, hroot⟩
  · obtain ⟨heq, path, t, inner, hk, hp, hb, hm⟩ := h'.new id n (by omega) hn
    exact ⟨heq, path, t, inner, hk, hp.of_subset (fun _ => List.mem_cons_of_mem _),
      hb.of_subset (fun _ => List.mem_cons_of_mem _), hm.mono (by omega)⟩

theorem planted {n : Nat} (h : Made d d' trie b) (hb : b.Below n) (hn : n ≤ d.nodes.size) :
    Planted d d' where
  grows := h.grows
  id_eq id m hle hm := (h.new id m hle hm).1
  new id m hle hm := by
    obtain ⟨-, path, t, inner, hk, -, hbehind, hmirrors⟩ := h.new id m hle hm
    exact ⟨t, hk, hmirrors.recursion,
      hmirrors.fits (hb.of_behind hbehind) (Nat.le_trans hn h.grows.size_le)⟩

end Made

mutual

theorem made_plant {owner : String} {b : Branching} {d d' : Draft} {trie : Trie}
    (h : plant owner b d = (trie, d')) : Made d d' trie b := by
  obtain ⟨branches, ends⟩ := b
  unfold plant at h
  rcases hp : plantBranches owner branches d with ⟨cases, d₁⟩
  rw [hp] at h
  cases h
  exact made_plantBranches ends hp

theorem made_plantBranches {owner : String} {branches : List (NodeId × Option Branching)}
    (ends : Bool) {d d' : Draft} {cases : List (NodeId × Option NodeId)}
    (h : plantBranches owner branches d = (cases, d')) :
    Made d d' ⟨cases, ends, none⟩ (.mk branches ends) := by
  match branches with
  | [] =>
    cases h
    exact .nil
  | (head, none) :: rest =>
    unfold plantBranches at h
    rcases hp : plantBranches owner rest d with ⟨more, d₁⟩
    rw [hp] at h
    cases h
    exact (made_plantBranches ends hp).cons_none
  | (head, some b) :: rest =>
    unfold plantBranches at h
    rcases hp : plant owner b d with ⟨trie, d₁⟩
    rcases hq : plantBranches owner rest (d₁.pushFactor owner trie) with ⟨more, d₂⟩
    simp only [hp, hq] at h
    cases h
    exact (made_plant hp).cons_some (made_plantBranches ends hq)

end

theorem plant_spec {owner : String} {b : Branching} {n : Nat} (hb : b.Below n) {d d' : Draft}
    {trie : Trie} (hn : n ≤ d.nodes.size) (h : plant owner b d = (trie, d')) :
    Planted d d' ∧ d'.Fits trie ∧ trie.recursion = none ∧ d'.Represents trie b := by
  have hmade := made_plant h
  exact ⟨hmade.planted hb hn, hmade.mirrors.fits hb (Nat.le_trans hn hmade.grows.size_le),
    hmade.mirrors.recursion, hmade.mirrors.represents⟩

/-! ### Whole case lists -/

/-- Factorization adds factors only, and its trie reads the cases once they are merged. -/
theorem factorize_spec {owner : String} {cases : List (List NodeId)} {d d' : Draft} {trie : Trie}
    (hc : ∀ case ∈ cases, ∀ x ∈ case, x < d.nodes.size)
    (h : d.factorize owner cases = (trie, d')) :
    Planted d d' ∧ d'.Fits trie ∧ trie.recursion = none ∧
      ∀ d'', d'.KeepsFactors d'' → ∀ w, trie.Spells d''.trie? w ↔ Reads cases w := by
  unfold factorize at h
  split at h
  next b hb =>
    obtain ⟨hg, hf, hr, hrep⟩ := plant_spec (Branching.below_ofCases hc hb) (Nat.le_refl _) h
    exact ⟨hg, hf, hr, fun d'' hk w => (hrep d'' hk w).trans (Branching.spells_ofCases hb w)⟩
  next hb =>
    cases h
    refine ⟨.refl d, fits_empty d, rfl, fun d'' _ w => ?_⟩
    refine iff_of_false (fun hw => ?_) (Branching.not_reads_of_ofCases_eq_none hb w)
    cases w with
    | nil => exact Bool.false_ne_true hw
    | cons head rest =>
      obtain ⟨_, hm, -⟩ := hw
      exact absurd hm List.not_mem_nil

/-- The loop goes through what is read for the tails, here and in every draft with the same factors.
There is none if nothing is read for them. -/
def Repeating (d : Draft) (tails : List (List NodeId)) : Option NodeId → Prop
  | none => ∀ tail, ¬Reads tails tail
  | some loop => ∃ place trie, trie.recursion = none ∧ ∀ d', d.KeepsFactors d' →
      d'.trie? loop = some (.loop place loop) ∧ d'.trie? place = some trie ∧
        d'.isTokenKey place = false ∧ ∀ tail, trie.Spells d'.trie? tail ↔ Reads tails tail

theorem Repeating.of_keeps {tails : List (List NodeId)} {loop : Option NodeId}
    (h : d.Repeating tails loop) (hk : d.KeepsFactors d') : d'.Repeating tails loop := by
  cases loop with
  | none => exact h
  | some loop =>
    obtain ⟨place, trie, hr, hall⟩ := h
    exact ⟨place, trie, hr, fun d'' hk' => hall d'' (hk.trans hk')⟩

theorem isTokenKey_of_keepsFactors {owner : String} {trie : Trie}
    (hk : (d.pushFactor owner trie).KeepsFactors d') : d'.isTokenKey d.nextId = false := by
  obtain ⟨name, hs⟩ := shape?_pushFactor_self d owner trie
  rw [isTokenKey, hk _ _ hs rfl]
  rfl

theorem plantLoop_spec {owner : String} {tails : List (List NodeId)} {d d' : Draft}
    {loop : Option NodeId} (hc : ∀ tail ∈ tails, ∀ x ∈ tail, x < d.nodes.size)
    (h : d.plantLoop owner tails = (loop, d')) :
    Planted d d' ∧ (∀ next ∈ loop, (d'.trie? next).isSome) ∧ d'.Repeating tails loop := by
  unfold plantLoop at h
  split at h
  next b hb =>
    rcases hp : plant owner b d with ⟨trie, d₁⟩
    simp only [hp] at h
    cases h
    obtain ⟨hg, hf, hr, hrep⟩ := plant_spec (Branching.below_ofCases hc hb) (Nat.le_refl _) hp
    have htail : Planted d₁ (d₁.pushFactor owner trie) :=
      .pushFactor owner hr (hf.of_grows (grows_push _ _ _ _))
    have hlt : d₁.nextId < (d₁.pushFactor owner trie).nodes.size := by
      rw [pushFactor, size_push]
      exact Nat.lt_succ_self _
    have hgrows := grows_push (d₁.pushFactor owner trie)
    have hself : (((d₁.pushFactor owner trie).pushFactor owner
        (.loop d₁.nextId (d₁.pushFactor owner trie).nextId)).trie?
          (d₁.pushFactor owner trie).nextId).isSome := by
      rw [trie?_of_keepsFactors (.refl _)]
      rfl
    refine ⟨(hg.trans htail).trans (.pushFactor owner rfl ⟨?_, ?_, ?_, ?_⟩), ?_,
      d₁.nextId, trie, hr, fun d' hk => ?_⟩
    · simp
    · intro e he
      cases List.mem_singleton.1 he
      exact Nat.lt_of_lt_of_le hlt (hgrows _ _ _).size_le
    · intro e he next hn
      cases List.mem_singleton.1 he
      cases hn
      exact hself
    · exact fun _ hn => nomatch hn
    · intro next hn
      cases hn
      exact hself
    · have hkept : (d₁.pushFactor owner trie).KeepsFactors d' :=
        (hgrows _ _ _).keepsFactors.trans hk
      refine ⟨trie?_of_keepsFactors hk, trie?_of_keepsFactors hkept,
        isTokenKey_of_keepsFactors hkept, fun tail => ?_⟩
      exact (hrep d' (htail.grows.keepsFactors.trans hkept) tail).trans
        (Branching.spells_ofCases hb tail)
  next hb =>
    cases h
    exact ⟨.refl d, fun _ hn => (nomatch hn), Branching.not_reads_of_ofCases_eq_none hb⟩

end Draft

end Syntagma
