import Mathlib.Tactic
import RoadMatching.Graph.Basic

/-!
Groups of a list, and sets that are united.

The items of a list are put in groups by a key. With the items of the first key taken out, the
others are a shorter list in its groups, so what holds of all groups is shown by taking out one
after another. Which items are together depends on nothing but which keys are equal; the keys can be
the names that a structure of disjoint sets gives.

* `grouped`, `grouped_cons`: the groups, and the first of them.
* `perm_flatten_grouped`, `sublist_of_mem_grouped`, `heads_grouped`, `together_iff`: the groups have
  all items, in order, come in the order of their first ones, and keep equal keys together.
* `DisjointSets`: sets that start with one index each and are united. `IsLawful`: two indices have
  one name exactly if the unions make them equivalent.
* `quickFind`: the sets as a list of names, one of which is replaced by the other when two sets are
  united. `Reflects` is the invariant, `Reflects.join` the step, `isLawful_quickFind` the whole run.
-/

namespace RoadMatching

/-! ### Groups -/

section Groups

variable {β : Type} {key : β → Nat}

/-- The items of a list in groups of one key, a group at the place of its first item. -/
def grouped (key : β → Nat) (l : List β) : List (List β) :=
  (l.map key).eraseDups.map fun name => l.filter fun b => key b == name

/-- The first group has the items of the first key. The other groups are those of the other
items. -/
lemma grouped_cons (key : β → Nat) (a : β) (l : List β) :
    grouped key (a :: l) =
      (a :: l.filter fun b => key b == key a) ::
        grouped key (l.filter fun b => !key b == key a) := by
  have hfirst : ((a :: l).filter fun b => key b == key a) = a :: l.filter fun b => key b == key a :=
    List.filter_cons_of_pos (beq_self_eq_true (key a))
  rw [grouped, List.map_cons, List.eraseDups_cons, List.map_cons, hfirst, List.filter_map]
  refine congrArg (List.cons _) (List.map_congr_left fun name hname => ?_)
  obtain ⟨b, hb, rfl⟩ := List.mem_map.1 (List.mem_eraseDups.1 hname)
  obtain ⟨-, hne⟩ := List.mem_filter.1 hb
  have hne : key b ≠ key a := by simpa using hne
  rw [List.filter_cons_of_neg (by simpa using hne.symm), List.filter_filter]
  refine List.filter_congr fun c _ => Bool.eq_iff_iff.2 ?_
  simp +contextual [hne]

/-- What holds of no groups, and of one group before others of which it holds, holds of all. -/
lemma grouped_induction {motive : List β → List (List β) → Prop} (key : β → Nat)
    (nil : motive [] [])
    (cons : ∀ a l, motive (l.filter fun b => !key b == key a)
        (grouped key (l.filter fun b => !key b == key a)) →
      motive (a :: l) ((a :: l.filter fun b => key b == key a) ::
        grouped key (l.filter fun b => !key b == key a))) :
    ∀ l, motive l (grouped key l)
  | [] => nil
  | a :: l => by
    rw [grouped_cons]
    exact cons a l (grouped_induction key nil cons _)
termination_by l => l.length
decreasing_by exact Nat.lt_succ_of_le (List.length_filter_le _ _)

lemma mem_grouped {l c : List β} :
    c ∈ grouped key l ↔ ∃ b ∈ l, (l.filter fun d => key d == key b) = c := by
  simp only [grouped, List.mem_map, List.mem_eraseDups, exists_exists_and_eq_and]

/-- Each item is in one group. -/
lemma perm_flatten_grouped (key : β → Nat) (l : List β) : (grouped key l).flatten.Perm l := by
  induction l using grouped_induction key with
  | nil => exact .refl []
  | cons a l ih =>
    rw [List.flatten_cons, List.cons_append]
    exact ((ih.append_left _).trans (List.filter_append_perm _ l)).cons a

/-- A group has an item. -/
lemma nil_notMem_grouped (l : List β) : [] ∉ grouped key l := by
  intro h
  obtain ⟨b, hb, hnil⟩ := mem_grouped.1 h
  exact List.filter_eq_nil_iff.1 hnil b hb (beq_self_eq_true (key b))

/-- The items of a group are in order. -/
lemma sublist_of_mem_grouped {l c : List β} (h : c ∈ grouped key l) : c.Sublist l := by
  obtain ⟨b, -, rfl⟩ := mem_grouped.1 h
  exact List.filter_sublist

/-- The groups are in the order of their first items. -/
lemma heads_grouped (key : β → Nat) (l : List β) :
    ((grouped key l).filterMap List.head?).Sublist l := by
  induction l using grouped_induction key with
  | nil => exact .refl []
  | cons a l ih =>
    rw [List.filterMap_cons_some (List.head?_cons)]
    exact (ih.trans List.filter_sublist).cons_cons a

/-- Two items are together if their keys are equal. -/
lemma together_iff {l : List β} {a b : β} (ha : a ∈ l) (hb : b ∈ l) :
    (∃ c ∈ grouped key l, a ∈ c ∧ b ∈ c) ↔ key a = key b := by
  constructor
  · rintro ⟨c, hc, hac, hbc⟩
    obtain ⟨d, -, rfl⟩ := mem_grouped.1 hc
    have hkey : key a = key d := beq_iff_eq.1 (List.mem_filter.1 hac).2
    rw [hkey, beq_iff_eq.1 (List.mem_filter.1 hbc).2]
  · intro hkey
    refine ⟨_, mem_grouped.2 ⟨b, hb, rfl⟩, ?_, ?_⟩ <;> simp [ha, hb, hkey]

/-- The groups depend on which keys are equal only. -/
lemma grouped_congr {other : β → Nat} {l : List β}
    (h : ∀ a ∈ l, ∀ b ∈ l, key a = key b ↔ other a = other b) :
    grouped key l = grouped other l := by
  induction l using grouped_induction key with
  | nil => rfl
  | cons a l ih =>
    have hkeys : ∀ b ∈ l, (key b == key a) = (other b == other a) := fun b hb =>
      Bool.eq_iff_iff.2 (by simpa using h b (List.mem_cons_of_mem a hb) a List.mem_cons_self)
    have hrest : (l.filter fun b => !key b == key a) = l.filter fun b => !other b == other a :=
      List.filter_congr fun b hb => by rw [hkeys b hb]
    rw [grouped_cons other, ← hrest, List.filter_congr hkeys, ih fun b hb c hc => ?_]
    exact h b (List.mem_cons_of_mem a (List.mem_of_mem_filter hb)) c
      (List.mem_cons_of_mem a (List.mem_of_mem_filter hc))

/-- If no two keys are equal, every item is alone. -/
lemma grouped_eq_map_singleton {l : List β} (h : l.Pairwise (key · ≠ key ·)) :
    grouped key l = l.map fun b => [b] := by
  induction l using grouped_induction key with
  | nil => rfl
  | cons a l ih =>
    obtain ⟨hne, hl⟩ := List.pairwise_cons.1 h
    have halone : (l.filter fun b => key b == key a) = [] :=
      List.filter_eq_nil_iff.2 fun b hb => by simpa using (hne b hb).symm
    have hothers : (l.filter fun b => !key b == key a) = l :=
      List.filter_eq_self.2 fun b hb => by simpa using (hne b hb).symm
    rw [hothers] at ih ⊢
    rw [halone, ih hl, List.map_cons]

end Groups

/-! ### Chains -/

/-- A chain is carried over link by link, if the ends of each link have counterparts that are joined
by a chain. -/
lemma eqvGen_transport {β γ : Type} {r : β → β → Prop} {s : γ → γ → Prop} {R : β → γ → Prop}
    (hunique : ∀ {b c c'}, R b c → R b c' → c = c')
    (hlink : ∀ {b b'}, r b b' → ∃ c c', R b c ∧ R b' c' ∧ Relation.EqvGen s c c')
    {b b' : β} {c c' : γ} (hb : R b c) (hb' : R b' c') (h : Relation.EqvGen r b b') :
    Relation.EqvGen s c c' := by
  have hcounterpart : ∃ d, R b' d ∧ Relation.EqvGen s c d := by
    clear hb'
    rw [← Relation.EqvGen.reflTransGen_symmGen] at h
    induction h with
    | refl => exact ⟨c, hb, .refl c⟩
    | tail _ hstep ih =>
      obtain ⟨d, hd, hchain⟩ := ih
      rcases hstep with hstep | hstep
      · obtain ⟨x, y, hx, hy, hxy⟩ := hlink hstep
        exact ⟨y, hy, hchain.trans _ _ _ (hunique hd hx ▸ hxy)⟩
      · obtain ⟨x, y, hx, hy, hxy⟩ := hlink hstep
        exact ⟨x, hx, hchain.trans _ _ _ (hunique hd hy ▸ hxy.symm _ _)⟩
  obtain ⟨d, hd, hchain⟩ := hcounterpart
  rwa [hunique hb' hd]

/-! ### Disjoint sets -/

/-- Disjoint sets of indices: those of one index each, the union of the sets of two indices, and the
name of the set of an index. -/
structure DisjointSets (σ : Type) where
  singletons : Nat → σ
  union : σ → Nat → Nat → σ
  find : σ → Nat → Nat

namespace DisjointSets

/-- The sets after the unions for some pairs, one after another. -/
def after {σ : Type} (sets : DisjointSets σ) (n : Nat) (pairs : List (Nat × Nat)) : σ :=
  pairs.foldl (fun state pair => sets.union state pair.1 pair.2) (sets.singletons n)

/-- Two indices are in one set exactly if the unions make them equivalent. -/
def IsLawful {σ : Type} (sets : DisjointSets σ) : Prop :=
  ∀ n pairs, (∀ pair ∈ pairs, pair.1 < n ∧ pair.2 < n) → ∀ i < n, ∀ j < n,
    (sets.find (sets.after n pairs) i = sets.find (sets.after n pairs) j ↔
      Relation.EqvGen (fun a b => (a, b) ∈ pairs) i j)

/-- The name of the set of an index is looked up in a list, and every set has the name of the index
that has taken in the others. -/
def quickFind : DisjointSets (List Nat) where
  singletons := List.range
  union := Graph.join
  find names i := names[i]?.getD i

@[simp]
lemma find_quickFind (names : List Nat) (i : Nat) : quickFind.find names i = names[i]?.getD i := rfl

lemma after_concat {σ : Type} (sets : DisjointSets σ) (n : Nat) (pairs : List (Nat × Nat))
    (pair : Nat × Nat) :
    sets.after n (pairs ++ [pair]) = sets.union (sets.after n pairs) pair.1 pair.2 := by
  rw [after, List.foldl_concat]
  rfl

lemma length_join (names : List Nat) (i j : Nat) :
    (Graph.join names i j).length = names.length := by
  rw [Graph.join]
  split
  · split <;> simp
  · rfl

lemma length_after_quickFind (n : Nat) (pairs : List (Nat × Nat)) :
    (quickFind.after n pairs).length = n :=
  List.foldlRecOn pairs _ (motive := fun names => names.length = n) List.length_range
    fun names h pair _ => (length_join names pair.1 pair.2).trans h

/-- A union replaces the name of the one set by the name of the other. -/
lemma named_join {names : List Nat} {i j k : Nat} (hi : i < names.length) (hj : j < names.length)
    (hk : k < names.length) :
    quickFind.find (Graph.join names i j) k =
      if quickFind.find names k = quickFind.find names j then quickFind.find names i
      else quickFind.find names k := by
  simp only [find_quickFind, Graph.join, List.getElem?_eq_getElem hi, List.getElem?_eq_getElem hj,
    List.getElem?_eq_getElem hk, Option.getD_some]
  split
  · next heq =>
    rw [List.getElem?_eq_getElem hk, Option.getD_some]
    split
    · next hname => rw [hname, heq]
    · rfl
  · rw [List.getElem?_map, List.getElem?_eq_getElem hk, Option.map_some, Option.getD_some]

/-- Equal names are kept by a union, and the names of its two indices become equal. -/
lemma joined_iff {names : List Nat} {i j k l : Nat} (hi : i < names.length) (hj : j < names.length)
    (hk : k < names.length) (hl : l < names.length) :
    quickFind.find (Graph.join names i j) k = quickFind.find (Graph.join names i j) l ↔
      quickFind.find names k = quickFind.find names l ∨
        (quickFind.find names k = quickFind.find names i ∨
          quickFind.find names k = quickFind.find names j) ∧
        (quickFind.find names l = quickFind.find names i ∨
          quickFind.find names l = quickFind.find names j) := by
  rw [named_join hi hj hk, named_join hi hj hl]
  split <;> split <;> grind

/-- Names in a list are equal exactly for the indices that some pairs make equivalent. -/
def Reflects (names : List Nat) (pairs : List (Nat × Nat)) : Prop :=
  ∀ i < names.length, ∀ j < names.length,
    (quickFind.find names i = quickFind.find names j ↔
      Relation.EqvGen (fun a b => (a, b) ∈ pairs) i j)

lemma reflects_range (n : Nat) : Reflects (List.range n) [] := by
  intro i hi j hj
  simp only [find_quickFind, List.getElem?_eq_getElem hi, List.getElem?_eq_getElem hj,
    Option.getD_some, List.getElem_range]
  refine ⟨fun h => h ▸ .refl i, fun h => ?_⟩
  exact eq_equivalence.eqvGen_iff.1 (h.mono fun _ _ hpair => absurd hpair List.not_mem_nil)

/-- A union makes its two indices equivalent, and no others but those that it has to. -/
lemma Reflects.join {names : List Nat} {pairs : List (Nat × Nat)} {a b : Nat}
    (h : Reflects names pairs)
    (hpairs : ∀ pair ∈ pairs ++ [(a, b)], pair.1 < names.length ∧ pair.2 < names.length) :
    Reflects (Graph.join names a b) (pairs ++ [(a, b)]) := by
  obtain ⟨ha, hb⟩ : a < names.length ∧ b < names.length := hpairs (a, b) List.mem_concat_self
  intro i hi j hj
  rw [length_join] at hi hj
  constructor
  · have hkept : ∀ k < names.length, ∀ l < names.length,
        quickFind.find names k = quickFind.find names l →
          Relation.EqvGen (fun c d => (c, d) ∈ pairs ++ [(a, b)]) k l := fun k hk l hl heq =>
      ((h k hk l hl).1 heq).mono fun _ _ => List.mem_append_left _
    have hunited : ∀ k < names.length,
        quickFind.find names k = quickFind.find names a ∨
          quickFind.find names k = quickFind.find names b →
        Relation.EqvGen (fun c d => (c, d) ∈ pairs ++ [(a, b)]) k a := by
      rintro k hk (heq | heq)
      · exact hkept k hk a ha heq
      · exact (hkept k hk b hb heq).trans _ _ _ (.symm _ _ (.rel _ _ List.mem_concat_self))
    intro heq
    rcases (joined_iff ha hb hi hj).1 heq with heq | ⟨hia, hja⟩
    · exact hkept i hi j hj heq
    · exact (hunited i hi hia).trans _ _ _ ((hunited j hj hja).symm _ _)
  · intro heqv
    -- equality of names is an equivalence, so the pairs alone have to be checked
    refine (eq_equivalence.comap _).eqvGen_iff.1 (heqv.mono fun k l hpair => ?_)
    obtain ⟨hk, hl⟩ := hpairs (k, l) hpair
    refine (joined_iff ha hb hk hl).2 ?_
    rcases List.mem_append.1 hpair with hpair | hpair
    · exact .inl ((h k hk l hl).2 (.rel k l hpair))
    · obtain ⟨rfl, rfl⟩ := Prod.mk.inj (List.mem_singleton.1 hpair)
      exact .inr ⟨.inl rfl, .inr rfl⟩

/-- The names in a list tell exactly the sets apart that the unions leave apart. -/
lemma isLawful_quickFind : quickFind.IsLawful := by
  intro n pairs hpairs
  have hreflects : Reflects (quickFind.after n pairs) pairs := by
    induction pairs using List.reverseRecOn with
    | nil => exact reflects_range n
    | append_singleton pairs pair ih =>
      rw [after_concat]
      refine (ih fun pair hpair => hpairs pair (List.mem_append_left _ hpair)).join fun pair => ?_
      rw [length_after_quickFind]
      exact hpairs pair
  rw [Reflects, length_after_quickFind] at hreflects
  exact hreflects

end DisjointSets

end RoadMatching
