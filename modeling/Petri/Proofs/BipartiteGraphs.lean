import Petri.Proofs.RoundTrip
import Petri.Proofs.SoundGraphs

/-!
# Which graphs are nets

A graph is read as a net by one pass over its nodes, one over its edges and one over its places, and what the
passes find is looked at by the stages that build a net. `Bipartite.WellFormed` says of the graph itself what
they let through: classes for all nodes, edges between the two classes, one word as the weight of every edge, no
two edges between the same ends, and words as capacities if every place has one. The passes are looked at one
after another:

> `kind?_eq_some_iff`: a node has the class that its attributes declare;
> `exists_arc_iff`: an edge is read as an arc between declared identifiers exactly if it joins the two classes
> and has a weight;
> `capacities_accepted_iff`: the capacities are accepted exactly if they are well formed.

Together they decide which sound graphs are nets (`toNet_accepts_iff`).
-/

namespace Petri

theorem Arc.make_eq_ok {a : Arc} {d : Direction} {p t label : Datum} : Arc.make d p t label = .ok a ↔
    a.direction = d ∧ a.place = p ∧ a.transition = t ∧ label = .int a.label := by
  constructor
  · intro h
    unfold Arc.make at h
    split at h
    next => obtain rfl := Except.ok.inj h; exact ⟨rfl, rfl, rfl, rfl⟩
    next => exact absurd h (Fault.raise_ne_ok _ _)
  · rintro ⟨rfl, rfl, rfl, rfl⟩
    exact a.make_label

/-- A value equals a whole number if it is the same: no whole number is not-a-number. -/
theorem Datum.equals_int (x : Datum) (n : Int) : x.equals (.int n) = (x == .int n) := by
  unfold equals
  split
  next b hnan =>
    refine (Bool.eq_false_iff.mpr fun hsame => ?_).symm
    rw [beq_eq_same, same_iff, hnan] at hsame
    cases hsame
  next => rfl

namespace Bipartite

open Petri.Graph (Edge Node)

/-! ## Classes of nodes -/

/-- The node declares no kind. -/
def Unkinded (attributes : Attributes) : Prop :=
  attributes.get? (.str "kind") = none ∨ attributes.get? (.str "kind") = some .null

/-- The class that the attributes of a node declare: by its kind, or without one by the side it is on. -/
inductive Declares (attributes : Attributes) : Kind → Prop
  | place : attributes.get? (.str "kind") = some (.str "place") → Declares attributes .place
  | transition : attributes.get? (.str "kind") = some (.str "transition") → Declares attributes .transition
  | placeSide {side : Datum} : Unkinded attributes → attributes.get? (.str "bipartite") = some side →
      (side == .int 0) = true → Declares attributes .place
  | transitionSide {side : Datum} : Unkinded attributes → attributes.get? (.str "bipartite") = some side →
      (side == .int 1) = true → Declares attributes .transition

variable {g : Graph} {attributes : Attributes} {k k' : Kind} {id : Datum} {places : List Datum} {e f : Edge}
  {a b : Arc}

theorem kind?_of_unkinded (h : Unkinded attributes) : kind? (.int 0) (.int 1) attributes =
    let side := (attributes.get? (.str "bipartite")).getD .null
    if side == .int 0 then some .place else if side == .int 1 then some .transition else none := by
  simp only [← Datum.equals_int]
  rcases h with h | h <;> rw [kind?, h]

theorem Unkinded.declares (hnone : Unkinded attributes) (h : kind? (.int 0) (.int 1) attributes = some k) :
    Declares attributes k := by
  rw [kind?_of_unkinded hnone] at h
  cases hget : attributes.get? (.str "bipartite") with
  | none =>
    rw [hget] at h
    cases h
  | some side =>
    rw [hget] at h
    dsimp only [Option.getD_some] at h
    split at h
    next hplace =>
      obtain rfl := Option.some.inj h
      exact .placeSide hnone hget hplace
    next =>
      split at h
      next htransition =>
        obtain rfl := Option.some.inj h
        exact .transitionSide hnone hget htransition
      next => cases h

theorem kind?_eq_some_iff : kind? (.int 0) (.int 1) attributes = some k ↔ Declares attributes k := by
  constructor
  · intro h
    have hclass := h
    rw [kind?] at h
    split at h
    next hkind =>
      obtain rfl := Option.some.inj h
      exact .place hkind
    next hkind =>
      obtain rfl := Option.some.inj h
      exact .transition hkind
    next hkind => exact Unkinded.declares (.inl hkind) hclass
    next hkind => exact Unkinded.declares (.inr hkind) hclass
    next => cases h
  · intro h
    cases h with
    | place h =>
      rw [kind?, h]
      rfl
    | transition h =>
      rw [kind?, h]
      rfl
    | placeSide hnone hget hplace =>
      rw [kind?_of_unkinded hnone, hget, Option.getD_some, if_pos hplace]
    | transitionSide hnone hget htransition =>
      -- no mark is that of both sides
      have hother : ¬ (_ == Datum.int 0) = true := fun hplace =>
        Bool.false_ne_true (show (Datum.int 0 == Datum.int 1) = true from BEq.trans (BEq.symm hplace) htransition)
      rw [kind?_of_unkinded hnone, hget, Option.getD_some, if_neg hother, if_pos htransition]

theorem Declares.unique (h : Declares attributes k) (h' : Declares attributes k') : k = k' := by
  have hkind := kind?_eq_some_iff.mpr h
  rw [kind?_eq_some_iff.mpr h'] at hkind
  exact (Option.some.inj hkind).symm

/-- A node of the graph goes by the name and declares the class. -/
def HasClass (g : Graph) (id : Datum) (k : Kind) : Prop :=
  ∃ e ∈ g.nodes.entries, (e.1 == id) = true ∧ Declares e.2.attributes k

/-- The nodes that declare a class, with what the graph holds of them. -/
def ofClass (g : Graph) (k : Kind) : List (Datum × Node) :=
  g.nodes.entries.filter fun e => kind? (.int 0) (.int 1) e.2.attributes == some k

/-- The names of the nodes that declare a class. -/
def members (g : Graph) (k : Kind) : List Datum :=
  (ofClass g k).map (·.1)

theorem mem_ofClass {e : Datum × Node} :
    e ∈ ofClass g k ↔ e ∈ g.nodes.entries ∧ Declares e.2.attributes k := by
  rw [ofClass, List.mem_filter, beq_iff_eq, kind?_eq_some_iff]

theorem any_members : (members g k).any (· == id) = true ↔ HasClass g id k := by
  rw [members, List.any_map, List.any_eq_true]
  constructor
  · intro h
    obtain ⟨e, he, hsame⟩ := h
    obtain ⟨he, hclass⟩ := mem_ofClass.mp he
    exact ⟨e, he, hsame, hclass⟩
  · intro h
    obtain ⟨e, he, hsame, hclass⟩ := h
    exact ⟨e, mem_ofClass.mpr ⟨he, hclass⟩, hsame⟩

theorem sublist_members (g : Graph) (k : Kind) : (members g k).Sublist g.nodes.keys :=
  List.filter_sublist.map _

theorem distinct_members (hg : g.Sound) (k : Kind) : Distinct (members g k) :=
  List.Pairwise.sublist (sublist_members g k) hg.distinct

theorem names_of_mem_members (hg : g.Sound) (h : id ∈ members g k) : Graph.Names id :=
  hg.names id ((sublist_members g k).subset h)

/-- No name is that of two nodes, and no node has two classes. -/
theorem HasClass.unique (hg : g.Sound) (h : HasClass g id k) (h' : HasClass g id k') : k = k' := by
  obtain ⟨e, he, hsame, hclass⟩ := h
  obtain ⟨f, hf, hsame', hclass'⟩ := h'
  have hnode := Table.get?_of_mem hg.distinct he hsame
  rw [Table.get?_of_mem hg.distinct hf hsame'] at hnode
  rw [← Option.some.inj hnode] at hclass
  exact hclass.unique hclass'

theorem exists_classified : (∃ classified, classify (.int 0) (.int 1) g = .ok classified) ↔
    ∀ e ∈ g.nodes.entries, ∃ k, Declares e.2.attributes k := by
  rw [classify, exists_mapM_eq_ok]
  refine forall₂_congr fun e _ => ?_
  simp only [← kind?_eq_some_iff]
  cases kind? (.int 0) (.int 1) e.2.attributes <;> simp [Fault.raise_ne_ok]

theorem ofKind_classified {classified : List (Datum × Kind)}
    (h : classify (.int 0) (.int 1) g = .ok classified) (k : Kind) : ofKind classified k = members g k := by
  rw [classify, mapM_eq_ok] at h
  rw [members, ofClass]
  generalize g.nodes.entries = es at h
  induction es generalizing classified with
  | nil =>
    obtain rfl := List.map_eq_nil_iff.mp h.symm
    rfl
  | cons e es ih =>
    cases classified with
    | nil => cases h
    | cons c classified =>
      obtain ⟨hfirst, hrest⟩ := List.cons.inj h
      have hclass : c.1 = e.1 ∧ kind? (.int 0) (.int 1) e.2.attributes = some c.2 := by
        dsimp only at hfirst
        split at hfirst
        next hkind =>
          obtain rfl := Except.ok.inj hfirst
          exact ⟨rfl, hkind⟩
        next => exact absurd hfirst (Fault.raise_ne_ok _ _)
      have ih := ih hrest
      rw [ofKind] at ih ⊢
      by_cases hk : c.2 = k
      · rw [List.filter_cons_of_pos (by simpa using hk),
          List.filter_cons_of_pos (by simpa [hclass.2] using hk), List.map_cons, List.map_cons, ih, hclass.1]
      · rw [List.filter_cons_of_neg (by simpa using hk),
          List.filter_cons_of_neg (by simpa [hclass.2] using hk), ih]

/-- If every node has a class, the two classes are all nodes. -/
theorem perm_members (h : ∀ e ∈ g.nodes.entries, ∃ k, Declares e.2.attributes k) :
    (members g .place ++ members g .transition).Perm g.nodes.keys := by
  have hother : ofClass g .transition
      = g.nodes.entries.filter fun e => !(kind? (.int 0) (.int 1) e.2.attributes == some .place) := by
    refine List.filter_congr fun e he => ?_
    obtain ⟨k, hk⟩ := h e he
    rw [kind?_eq_some_iff.mpr hk]
    cases k <;> rfl
  rw [members, members, ← List.map_append, hother]
  exact (List.filter_append_perm _ _).map _

/-! ## Edges -/

/-- The weight of an edge, which is one if it is not given. -/
def weightOf (e : Edge) : Datum :=
  (e.attributes.get? (.str "weight")).getD (.int 1)

/-- The edge leads from one class to the other. -/
def Joins (g : Graph) (e : Edge) : Prop :=
  HasClass g e.source .place ∧ HasClass g e.target .transition ∨
    HasClass g e.source .transition ∧ HasClass g e.target .place

/-- The weight of the edge is a positive word. -/
def Weighted (e : Edge) : Prop :=
  ∃ n, weightOf e = .int n ∧ 1 ≤ n ∧ n ≤ mostTokens

/-- The edges have the same ends. -/
def SameEnds (e f : Edge) : Prop :=
  (e.source == f.source) = true ∧ (e.target == f.target) = true

/-- The arc has the ends and the weight of the edge, and its place is one of the places. -/
structure Reads (places : List Datum) (e : Edge) (a : Arc) : Prop where
  source : a.source = e.source
  target : a.target = e.target
  weight : weightOf e = .int a.label
  place : places.any (· == a.place) = true
  transition : places.any (· == a.transition) = false

theorem arcOfEdge_eq_ok : arcOfEdge (.str "weight") places e = .ok a ↔ Reads places e a := by
  have hweight : attribute? (.str "weight") e.attributes = .ok (e.attributes.get? (.str "weight")) := rfl
  rw [arcOfEdge, hweight, liftM_ok, ok_bind]
  dsimp only
  rw [← weightOf]
  constructor
  · intro h
    split at h
    next hsource htarget =>
      obtain ⟨hd, hp, ht, hweight⟩ := Arc.make_eq_ok.mp h
      exact ⟨by rw [Arc.source, hd, ← hp], by rw [Arc.target, hd, ← ht], hweight, hp ▸ hsource, ht ▸ htarget⟩
    next hsource htarget =>
      obtain ⟨hd, hp, ht, hweight⟩ := Arc.make_eq_ok.mp h
      exact ⟨by rw [Arc.source, hd, ← ht], by rw [Arc.target, hd, ← hp], hweight, hp ▸ htarget, ht ▸ hsource⟩
    next => exact absurd h (Fault.raise_ne_ok _ _)
  · intro h
    rw [h.weight, ← h.source, ← h.target, Arc.source, Arc.target]
    cases hd : a.direction with
    | pre =>
      dsimp only
      rw [h.place, h.transition]
      exact Arc.make_eq_ok.mpr ⟨hd, rfl, rfl, rfl⟩
    | post =>
      dsimp only
      rw [h.place, h.transition]
      exact Arc.make_eq_ok.mpr ⟨hd, rfl, rfl, rfl⟩

/-- Arcs are parallel exactly if their edges have the same ends: no place is at the other end of an arc. -/
theorem parallel_iff_sameEnds (ha : Reads places e a) (hb : Reads places f b) :
    a.parallel b = true ↔ SameEnds e f := by
  have hne : ∀ {a b : Arc}, places.any (· == a.place) = true → places.any (· == b.transition) = false →
      ¬ (a.place == b.transition) = true := by
    intro a b hplace htransition hsame
    rw [any_beq_congr hsame, htransition] at hplace
    cases hplace
  rw [SameEnds, ← ha.source, ← ha.target, ← hb.source, ← hb.target, Arc.parallel_iff, Arc.source, Arc.source,
    Arc.target, Arc.target]
  cases hda : a.direction <;> cases hdb : b.direction
  case pre.pre => exact ⟨fun h => ⟨h.2.2, h.2.1⟩, fun h => ⟨rfl, h.2, h.1⟩⟩
  case pre.post => exact ⟨fun h => Direction.noConfusion h.1, fun h => absurd h.1 (hne ha.place hb.transition)⟩
  case post.pre => exact ⟨fun h => Direction.noConfusion h.1, fun h => absurd h.2 (hne ha.place hb.transition)⟩
  case post.post => exact ⟨fun h => ⟨h.2.1, h.2.2⟩, fun h => ⟨rfl, h.1, h.2⟩⟩

/-- Both ends of an edge can be identifiers. -/
theorem hashable_of_reads (hg : g.Sound) (he : e ∈ g.edges) (h : Reads places e a) : a.hashable = true := by
  obtain ⟨entry, hentry, he⟩ := List.mem_flatMap.mp he
  obtain ⟨target, htarget, he⟩ := List.mem_flatMap.mp he
  obtain ⟨link, _, rfl⟩ := List.mem_map.mp he
  have hsource : entry.1.hashable = true := (hg.names _ (List.mem_map_of_mem hentry)).hashable
  have htarget : target.1.hashable = true := (hg.targets _ hentry _ (List.mem_map_of_mem htarget)).1
  show (a.place.hashable && a.transition.hashable) = true
  have hends := And.intro h.source h.target
  rw [Arc.source, Arc.target] at hends
  cases hd : a.direction <;> rw [hd] at hends <;> dsimp only at hends <;>
    rw [hends.1, hends.2, hsource, htarget] <;> rfl

/-- An edge is read as an arc between declared identifiers exactly if it joins the classes with a weight. -/
theorem exists_arc_iff (hg : g.Sound) : (∃ a, arcOfEdge (.str "weight") (members g .place) e = .ok a ∧
    a.Declared (members g .place) (members g .transition) ∧ (a.label : Int) ≤ mostTokens) ↔
      Joins g e ∧ Weighted e := by
  constructor
  · intro h
    obtain ⟨a, hread, ⟨hplace, htransition⟩, hmost⟩ := h
    have hread := arcOfEdge_eq_ok.mp hread
    rw [any_members] at hplace htransition
    have hpos := a.label_pos
    refine ⟨?_, _, hread.weight, by omega, hmost⟩
    rw [Joins, ← hread.source, ← hread.target, Arc.source, Arc.target]
    cases a.direction with
    | pre => exact .inl ⟨hplace, htransition⟩
    | post => exact .inr ⟨htransition, hplace⟩
  · intro h
    obtain ⟨hjoins, n, hweight, hpos, hmost⟩ := h
    have hnone : ∀ {id}, HasClass g id .transition → (members g .place).any (· == id) = false := by
      intro id htransition
      exact Bool.eq_false_iff.mpr fun hplace =>
        Kind.noConfusion (HasClass.unique hg (any_members.mp hplace) htransition)
    have hlabel : weightOf e = .int n.toNat := by rw [hweight, Int.toNat_of_nonneg (by omega)]
    rcases hjoins with ⟨hplace, htransition⟩ | ⟨htransition, hplace⟩
    · refine ⟨⟨e.source, e.target, n.toNat, .pre, by omega⟩, arcOfEdge_eq_ok.mpr ?_,
        ⟨any_members.mpr hplace, any_members.mpr htransition⟩, by dsimp only; omega⟩
      exact ⟨rfl, rfl, hlabel, any_members.mpr hplace, hnone htransition⟩
    · refine ⟨⟨e.target, e.source, n.toNat, .post, by omega⟩, arcOfEdge_eq_ok.mpr ?_,
        ⟨any_members.mpr hplace, any_members.mpr htransition⟩, by dsimp only; omega⟩
      exact ⟨rfl, rfl, hlabel, any_members.mpr hplace, hnone htransition⟩

/-! ## Capacities -/

/-- The capacity that a node gives. -/
def capacity? (node : Node) : Option Datum :=
  node.attributes.get? (.str "capacity")

/-- If every place gives a capacity, each of them is a word from zero. -/
def CapacitiesFit (g : Graph) : Prop :=
  (∀ e ∈ g.nodes.entries, Declares e.2.attributes .place → (capacity? e.2).isSome = true) →
    ∀ e ∈ g.nodes.entries, Declares e.2.attributes .place →
      ∃ n, capacity? e.2 = some (.int n) ∧ 0 ≤ n ∧ n ≤ mostTokens

/-- The capacities that places give. -/
def known (g : Graph) : List (Datum × Datum) :=
  (ofClass g .place).filterMap fun e => (capacity? e.2).map (e.1, ·)

/-- The entries that describe capacities: what the places give, if all of them give one. -/
def entriesOf (g : Graph) : List (Datum × Datum) :=
  if (known g).length = (members g .place).length then known g else []

/-- The entries as a value. -/
def capacityOf (g : Graph) : Datum :=
  if (known g).length = (members g .place).length then .dict (known g) else .null

theorem capacityOfNodes_eq_capacityOf (hg : g.Sound) :
    capacityOfNodes (.str "capacity") (members g .place) g = .ok (capacityOf g) := by
  have hfound : ((members g .place).mapM fun p => do
        let attributes := ((g.nodes.get? p).map (·.attributes)).getD {}
        return (p, ← attribute? (.str "capacity") attributes) : Except Fault _)
      = .ok ((ofClass g .place).map fun e => (e.1, capacity? e.2)) := by
    rw [mapM_eq_ok, members, List.map_map, List.map_map]
    refine List.map_congr_left fun e he => ?_
    have hnode : g.nodes.get? e.1 = some e.2 :=
      Table.get?_of_mem hg.distinct (mem_ofClass.mp he).1 BEq.rfl
    rw [Function.comp_apply, hnode]
    rfl
  have hknown : ((ofClass g .place).map fun e => (e.1, capacity? e.2)).filterMap
      (fun e => e.2.map (e.1, ·)) = known g := by
    rw [List.filterMap_map]
    rfl
  rw [capacityOfNodes, hfound, ok_bind]
  show Except.ok (if (((ofClass g .place).map fun e => (e.1, capacity? e.2)).filterMap
    fun e => e.2.map (e.1, ·)).length = _ then Datum.dict (List.filterMap _ _) else .null) = _
  rw [hknown]
  rfl

theorem mem_known {e : Datum × Datum} :
    e ∈ known g ↔ ∃ f ∈ ofClass g .place, f.1 = e.1 ∧ capacity? f.2 = some e.2 := by
  rw [known, List.mem_filterMap]
  refine exists_congr fun f => and_congr_right fun _ => ?_
  rw [Option.map_eq_some_iff]
  constructor
  · intro h
    obtain ⟨c, hc, rfl⟩ := h
    exact ⟨rfl, hc⟩
  · intro h
    obtain ⟨hkey, hc⟩ := h
    exact ⟨_, hc, Prod.ext hkey rfl⟩

theorem distinct_known (hg : g.Sound) : Distinct ((known g).map (·.1)) := by
  refine List.pairwise_map.mpr (List.pairwise_filterMap.mpr ?_)
  refine (List.pairwise_map.mp (distinct_members hg .place)).imp fun {e f} hne c hc d hd => ?_
  obtain ⟨_, _, rfl⟩ := Option.map_eq_some_iff.mp hc
  obtain ⟨_, _, rfl⟩ := Option.map_eq_some_iff.mp hd
  exact hne

theorem describes_entriesOf (hg : g.Sound) : Capacity.Describes (capacityOf g) (entriesOf g) := by
  rw [capacityOf, entriesOf]
  split
  next =>
    refine .dict fun e he => ?_
    obtain ⟨f, hf, hkey, _⟩ := mem_known.mp he
    rw [← hkey]
    exact (names_of_mem_members hg (List.mem_map_of_mem hf)).hashable
  next => exact .absent

/-- Under the name of a place stands the number that it gives. -/
theorem numberUnder_known (hg : g.Sound) {e : Datum × Node} (he : e ∈ ofClass g .place) {c : Datum}
    (hc : capacity? e.2 = some c) : Capacity.numberUnder? (known g) e.1 = c.asInt? := by
  have hmem : (e.1, c) ∈ known g := mem_known.mpr ⟨e, he, rfl, hc⟩
  have hlast := Net.lastValue?_of_mem (distinct_known hg) hmem
  rw [Capacity.numberUnder?, hlast, Option.bind_some]

theorem keysMatch_known (hall : ∀ e ∈ ofClass g .place, (capacity? e.2).isSome = true) :
    Capacity.KeysMatch (members g .place) (known g) := by
  constructor
  · intro p hp
    obtain ⟨e, he, rfl⟩ := List.mem_map.mp hp
    obtain ⟨c, hc⟩ := Option.isSome_iff_exists.mp (hall e he)
    exact List.any_eq_true.mpr ⟨(e.1, c), mem_known.mpr ⟨e, he, rfl, hc⟩, BEq.rfl⟩
  · intro e he
    obtain ⟨f, hf, hkey, _⟩ := mem_known.mp he
    have hp := List.mem_map_of_mem (f := (·.1)) hf
    rw [← hkey]
    exact any_of_mem hp

theorem length_known_iff : (known g).length = (members g .place).length ↔
    ∀ e ∈ ofClass g .place, (capacity? e.2).isSome = true := by
  rw [known, members, List.length_map, List.filterMap_length_eq_length]
  simp only [Option.isSome_map]

theorem capacitiesFit_iff : CapacitiesFit g ↔ ((∀ e ∈ ofClass g .place, (capacity? e.2).isSome = true) →
    ∀ e ∈ ofClass g .place, ∃ n, capacity? e.2 = some (.int n) ∧ 0 ≤ n ∧ n ≤ mostTokens) := by
  simp only [CapacitiesFit, mem_ofClass, and_imp]

/-- Where all places give a capacity, these are words exactly if the numbers under the places are. -/
theorem words_known_iff (hg : g.Sound) (hall : ∀ e ∈ ofClass g .place, (capacity? e.2).isSome = true) :
    (∀ p ∈ members g .place, ∃ n, Capacity.numberUnder? (known g) p = some n ∧ 0 ≤ n ∧ n ≤ mostTokens) ↔
      ∀ e ∈ ofClass g .place, ∃ n, capacity? e.2 = some (.int n) ∧ 0 ≤ n ∧ n ≤ mostTokens := by
  rw [members, List.forall_mem_map]
  refine forall₂_congr fun e he => exists_congr fun n => and_congr_left fun _ => ?_
  obtain ⟨c, hc⟩ := Option.isSome_iff_exists.mp (hall e he)
  rw [numberUnder_known hg he hc, hc]
  cases c <;> simp [Datum.asInt?]

/-- The capacities are accepted exactly if they fit. -/
theorem capacities_accepted_iff (hg : g.Sound) : (entriesOf g ≠ [] →
    ¬ Capacity.Mismatches (members g .place) (entriesOf g) ∧
      ¬ Capacity.Exceeds (members g .place) (entriesOf g)) ↔ CapacitiesFit g := by
  rw [capacitiesFit_iff]
  by_cases hall : ∀ e ∈ ofClass g .place, (capacity? e.2).isSome = true
  · have hkeys := keysMatch_known hall
    rw [entriesOf, if_pos (length_known_iff.mpr hall), Capacity.accepts_iff hkeys, words_known_iff hg hall]
    constructor
    · intro hok _ e he
      obtain ⟨c, hc⟩ := Option.isSome_iff_exists.mp (hall e he)
      have hmem : (e.1, c) ∈ known g := mem_known.mpr ⟨e, he, rfl, hc⟩
      exact hok (List.ne_nil_of_mem hmem) e he
    · intro hfit _
      exact hfit hall
  · rw [entriesOf, if_neg fun h => hall (length_known_iff.mp h)]
    exact ⟨fun _ h => absurd h hall, fun _ h => absurd rfl h⟩

/-! ## What is accepted -/

/-- A graph that is a net in all its parts. -/
structure WellFormed (g : Graph) : Prop where
  classified : ∀ e ∈ g.nodes.entries, ∃ k, Declares e.2.attributes k
  joins : ∀ e ∈ g.edges, Joins g e
  weighted : ∀ e ∈ g.edges, Weighted e
  simple : g.edges.Pairwise fun e f => ¬ SameEnds e f
  capacities : CapacitiesFit g

variable {net : Net} {default : Datum} {d : Int} {arcs : List Arc}

/-- The edges are read as the arcs. -/
def ReadAs (g : Graph) (arcs : List Arc) : Prop :=
  g.edges.mapM (arcOfEdge (.str "weight") (members g .place)) = .ok arcs

/-- What the graph describes, with the arcs that its edges are read as. -/
def description (g : Graph) (arcs : List Arc) (d : Int) : Description :=
  ⟨members g .place, members g .transition, arcs, entriesOf g, d⟩

theorem describe_eq_ok (hg : g.Sound) {x : Datum × Datum × List Arc × Datum} : describe g {} = .ok x ↔
    (∀ e ∈ g.nodes.entries, ∃ k, Declares e.2.attributes k) ∧
      ∃ arcs, ReadAs g arcs ∧ x = (.list (members g .place), .list (members g .transition), arcs, capacityOf g) := by
  have hdescribe : describe g {} = classify (.int 0) (.int 1) g >>= fun classified =>
      g.edges.mapM (arcOfEdge (.str "weight") (ofKind classified .place)) >>= fun arcs =>
        capacityOfNodes (.str "capacity") (ofKind classified .place) g >>= fun capacity =>
          .ok (.list (ofKind classified .place), .list (ofKind classified .transition), arcs, capacity) := rfl
  rw [hdescribe, ← exists_classified]
  constructor
  · intro h
    obtain ⟨classified, hclassify, h⟩ := bind_eq_ok.mp h
    rw [ofKind_classified hclassify, ofKind_classified hclassify] at h
    obtain ⟨arcs, harcs, h⟩ := bind_eq_ok.mp h
    rw [capacityOfNodes_eq_capacityOf hg, ok_bind] at h
    exact ⟨⟨classified, hclassify⟩, arcs, harcs, (Except.ok.inj h).symm⟩
  · intro h
    obtain ⟨⟨classified, hclassify⟩, arcs, harcs, rfl⟩ := h
    rw [hclassify, ok_bind, ofKind_classified hclassify, ofKind_classified hclassify, harcs, ok_bind,
      capacityOfNodes_eq_capacityOf hg, ok_bind]

theorem description_separate (hg : g.Sound) (arcs : List Arc) (d : Int) : (description g arcs d).Separate := by
  refine ⟨distinct_members hg _, distinct_members hg _, fun p hp t ht => Bool.eq_false_iff.mpr fun hsame => ?_⟩
  exact Kind.noConfusion (HasClass.unique hg (any_members.mp (List.any_eq_true.mpr ⟨p, hp, hsame⟩))
    (any_members.mp (any_of_mem ht)))

theorem description_givenBy (hg : g.Sound) (harcs : ReadAs g arcs) (hdefault : default.toInt = .ok d)
    (hfits : Datum.fitsWord d = true) : (description g arcs d).GivenBy (.list (members g .place))
      (.list (members g .transition)) (capacityOf g) default where
  places := rfl
  transitions := rfl
  places_hashable _ hp := (names_of_mem_members hg hp).hashable
  transitions_hashable _ ht := (names_of_mem_members hg ht).hashable
  arcs_hashable a ha := by
    obtain ⟨e, he, hread⟩ := (mem_of_mapM_eq_ok harcs).mp ha
    exact hashable_of_reads hg he (arcOfEdge_eq_ok.mp hread)
  capacity := describes_entriesOf hg
  default := hdefault
  default_fits := hfits

/-- What a sound graph describes passes the domains. -/
theorem build_eq_assemble (hg : g.Sound) (harcs : ReadAs g arcs) (hdefault : default.toInt = .ok d)
    (hfits : Datum.fitsWord d = true) :
    (Net.build (.list (members g .place)) (.list (members g .transition)) arcs (capacityOf g) default).result
      = Net.assemble (members g .place) (members g .transition) arcs (capacityOf g) default :=
  Net.build_of_separate (description_givenBy hg harcs hdefault hfits) (description_separate hg arcs d) arcs

/-- A graph is a net if its nodes have classes, its edges are read as arcs, and these are assembled. -/
theorem toNet_eq_ok (hg : g.Sound) (hdefault : default.toInt = .ok d) (hfits : Datum.fitsWord d = true) :
    (toNet g {} default).result = .ok net ↔ (∀ e ∈ g.nodes.entries, ∃ k, Declares e.2.attributes k) ∧
      ∃ arcs, ReadAs g arcs ∧
        Net.assemble (members g .place) (members g .transition) arcs (capacityOf g) default = .ok net := by
  constructor
  · intro h
    rw [toNet] at h
    split at h
    next places transitions arcs capacity hdescribe =>
      obtain ⟨hclasses, arcs', harcs, hx⟩ := (describe_eq_ok hg).mp hdescribe
      obtain ⟨rfl, rfl, rfl, rfl⟩ := by simpa only [Prod.mk.injEq] using hx
      exact ⟨hclasses, arcs, harcs, (build_eq_assemble hg harcs hdefault hfits).symm.trans h⟩
    next => cases h
  · intro h
    obtain ⟨hclasses, arcs, harcs, hnet⟩ := h
    rw [toNet, (describe_eq_ok hg).mpr ⟨hclasses, arcs, harcs, rfl⟩]
    exact (build_eq_assemble hg harcs hdefault hfits).trans hnet

/-- No arcs are parallel exactly if no edges have the same ends. -/
theorem noneParallel_iff (harcs : ReadAs g arcs) :
    Net.NoneParallel arcs ↔ g.edges.Pairwise fun e f => ¬ SameEnds e f := by
  rw [Net.NoneParallel, pairwise_of_mapM_eq_ok harcs]
  have hread : ∀ e ∈ g.edges, ∃ a, arcOfEdge (.str "weight") (members g .place) e = .ok a :=
    exists_mapM_eq_ok.mp ⟨arcs, harcs⟩
  refine List.Pairwise.iff_of_mem fun {e f} he hf => ?_
  obtain ⟨a, ha⟩ := hread e he
  obtain ⟨b, hb⟩ := hread f hf
  rw [← parallel_iff_sameEnds (arcOfEdge_eq_ok.mp ha) (arcOfEdge_eq_ok.mp hb), Bool.not_eq_true]
  constructor
  · intro h
    exact h a b ha hb
  · intro h a' b' ha' hb'
    obtain rfl := Except.ok.inj (ha'.symm.trans ha)
    obtain rfl := Except.ok.inj (hb'.symm.trans hb)
    exact h

/-- Nothing is wrong with the arcs exactly if nothing is wrong with the edges. -/
theorem exists_arcs_iff (hg : g.Sound) (d : Int) :
    (∃ arcs, ReadAs g arcs ∧ Net.ArcsAccepted (description g arcs d)) ↔
      (∀ e ∈ g.edges, Joins g e ∧ Weighted e) ∧ g.edges.Pairwise fun e f => ¬ SameEnds e f := by
  constructor
  · intro h
    obtain ⟨arcs, harcs, haccepted⟩ := h
    refine ⟨fun e he => (exists_arc_iff hg).mp ?_, (noneParallel_iff harcs).mp haccepted.distinct⟩
    obtain ⟨a, hread⟩ := exists_mapM_eq_ok.mp ⟨arcs, harcs⟩ e he
    have ha : a ∈ arcs := (mem_of_mapM_eq_ok harcs).mpr ⟨e, he, hread⟩
    exact ⟨a, hread, haccepted.declared a ha, haccepted.words a ha⟩
  · intro h
    obtain ⟨hall, hpairs⟩ := h
    have hread := fun e he => (exists_arc_iff hg).mpr (hall e he)
    obtain ⟨arcs, harcs⟩ := exists_mapM_eq_ok.mpr fun e he => (hread e he).imp fun _ h => h.1
    have hchecked : ∀ a ∈ arcs, a.Declared (members g .place) (members g .transition) ∧
        (a.label : Int) ≤ mostTokens := by
      intro a ha
      obtain ⟨e, he, hok⟩ := (mem_of_mapM_eq_ok harcs).mp ha
      obtain ⟨a', hok', hchecked⟩ := hread e he
      obtain rfl := Except.ok.inj (hok.symm.trans hok')
      exact hchecked
    exact ⟨arcs, harcs, (noneParallel_iff harcs).mpr hpairs, fun a ha => (hchecked a ha).1,
      fun a ha => (hchecked a ha).2⟩

/-- With the arcs at hand, they and the capacities decide. -/
theorem assemble_accepts_iff (hg : g.Sound) (harcs : ReadAs g arcs) (hdefault : default.toInt = .ok d)
    (hfits : Datum.fitsWord d = true) :
    (∃ net, Net.assemble (members g .place) (members g .transition) arcs (capacityOf g) default = .ok net) ↔
      Net.ArcsAccepted (description g arcs d) ∧ CapacitiesFit g := by
  have hsep := description_separate hg arcs d
  have hends := Net.assemble_endsWith (description_givenBy hg harcs hdefault hfits) hsep
  rw [← capacities_accepted_iff hg]
  exact (Net.exists_ok_iff hends).trans (Net.verdict_eq_accepted.trans (and_iff_right hsep))

/-- **The sound graphs that are nets are the well-formed ones.** -/
theorem toNet_accepts_iff (hg : g.Sound) (hdefault : default.toInt = .ok d)
    (hfits : Datum.fitsWord d = true) : (∃ net, (toNet g {} default).result = .ok net) ↔ WellFormed g := by
  simp only [toNet_eq_ok hg hdefault hfits]
  constructor
  · intro h
    obtain ⟨net, hclasses, arcs, harcs, hnet⟩ := h
    obtain ⟨haccepted, hcapacities⟩ := (assemble_accepts_iff hg harcs hdefault hfits).mp ⟨net, hnet⟩
    obtain ⟨hall, hpairs⟩ := (exists_arcs_iff hg d).mp ⟨arcs, harcs, haccepted⟩
    exact ⟨hclasses, fun e he => (hall e he).1, fun e he => (hall e he).2, hpairs, hcapacities⟩
  · intro h
    obtain ⟨arcs, harcs, haccepted⟩ :=
      (exists_arcs_iff hg d).mpr ⟨fun e he => ⟨h.joins e he, h.weighted e he⟩, h.simple⟩
    obtain ⟨net, hnet⟩ := (assemble_accepts_iff hg harcs hdefault hfits).mpr ⟨haccepted, h.capacities⟩
    exact ⟨net, h.classified, arcs, harcs, hnet⟩

end Bipartite

end Petri
