import Petri.Bipartite.Export
import Petri.Proofs.Arcs
import Petri.Proofs.Graphs
import Petri.Proofs.Wording

/-!
# The graph of a net

The graph of a net is built by adding places, transitions and arcs one after another. If the identifiers can
name nodes (`Net.Nameable`) and the names of the attributes are free (`Names.Usable`), nothing that is added
is there already, so the graph is known by its lists: the identifiers with their attributes, and an edge for
every arc (`ofNet_eq`). This takes a label for every identifier (`Net.Labelled`). The first identifier without
one ends the export (`ofNet_eq_error`).
-/

namespace Petri

namespace Arc

/-- Where an arc starts. -/
def source (a : Arc) : Datum :=
  match a.direction with
  | .pre => a.place
  | .post => a.transition

/-- Where an arc ends. -/
def target (a : Arc) : Datum :=
  match a.direction with
  | .pre => a.transition
  | .post => a.place

end Arc

namespace Net

variable {net : Net} {a b : Arc}

/-- The identifiers can name nodes, as null cannot. -/
def Nameable (net : Net) : Prop :=
  ∀ x ∈ net.places ++ net.transitions, x ≠ .null

/-- Every identifier has a label. -/
def Labelled (net : Net) : Prop :=
  ∀ x ∈ net.places ++ net.transitions, x.Writable

instance : Decidable net.Labelled :=
  inferInstanceAs (Decidable (∀ x ∈ net.places ++ net.transitions, x.Writable))

theorem Built.hashable_identifiers (hb : net.Built) :
    ∀ x ∈ net.places ++ net.transitions, x.hashable = true := by
  obtain ⟨_, _, _, _, hp, ht⟩ := hb.assembled
  exact List.forall_mem_append.mpr ⟨hp.1, ht.1⟩

theorem Built.disjoint (hb : net.Built) : ∀ p ∈ net.places, ∀ t ∈ net.transitions, (p == t) = false := by
  obtain ⟨_, _, _, h, _⟩ := hb.assembled
  exact checkDisjoint_eq_ok.mp (assemble_eq_ok.mp h).1

theorem Built.distinct_identifiers (hb : net.Built) : Distinct (net.places ++ net.transitions) :=
  List.pairwise_append.mpr ⟨hb.distinct, hb.distinct_transitions, hb.disjoint⟩

theorem ends_mem (ha : a ∈ net.arcs) : a.place ∈ net.places ∧ a.transition ∈ net.transitions := by
  obtain ⟨d, t, p, harc⟩ := mem_arcs.mp ha
  obtain ⟨hp, ht, _⟩ := arcAt_eq_some.mp harc
  rw [hp, ht]
  exact ⟨List.get_mem _ _, List.get_mem _ _⟩

theorem source_mem (ha : a ∈ net.arcs) : a.source ∈ net.places ++ net.transitions := by
  unfold Arc.source
  split
  · exact List.mem_append_left _ (ends_mem ha).1
  · exact List.mem_append_right _ (ends_mem ha).2

theorem target_mem (ha : a ∈ net.arcs) : a.target ∈ net.places ++ net.transitions := by
  unfold Arc.target
  split
  · exact List.mem_append_right _ (ends_mem ha).2
  · exact List.mem_append_left _ (ends_mem ha).1

/-- Arcs between the same nodes are parallel: no place is a transition. -/
theorem Built.parallel_of_ends (hb : net.Built) (ha : a ∈ net.arcs) (hb' : b ∈ net.arcs)
    (hsource : (a.source == b.source) = true) (htarget : (a.target == b.target) = true) :
    a.parallel b = true := by
  have hends := ends_mem ha
  have hends' := ends_mem hb'
  unfold Arc.source at hsource
  unfold Arc.target at htarget
  cases hd : a.direction <;> cases hd' : b.direction <;> simp only [hd, hd'] at hsource htarget
  · exact Arc.parallel_iff.mpr ⟨hd.trans hd'.symm, htarget, hsource⟩
  · rw [hb.disjoint _ hends.1 _ hends'.2] at hsource
    cases hsource
  · rw [hb.disjoint _ hends.1 _ hends'.2] at htarget
    cases htarget
  · exact Arc.parallel_iff.mpr ⟨hd.trans hd'.symm, hsource, htarget⟩

theorem capacities_eq : net.capacities
    = (List.finRange net.places.length).map fun p => (net.places.get p, net.capacityAt p) :=
  zip_toList_map net.places net.capacity Int64.toInt

theorem keys_capacities : net.capacities.map (·.1) = net.places := by
  rw [capacities_eq, List.map_map]
  exact (eq_map_finRange net.places).symm

theorem fst_mem_of_capacities {e : Datum × Int} (h : e ∈ net.capacities) : e.1 ∈ net.places := by
  rw [← keys_capacities]
  exact List.mem_map_of_mem h

end Net

namespace Bipartite

/-- Names that are no parameters of the operations on graphs and hide neither the kind of a node nor the
role of an edge, and marks for the two sides. -/
structure Names.Usable (names : Names) : Prop where
  weight : ∃ s, names.weight = .str s ∧ s ≠ "role" ∧ s ∉ ({} : Graph).edgeNames
  capacity : ∃ s, names.capacity = .str s ∧ s ≠ "kind" ∧ s ∉ Graph.nodeNames
  sides : ∃ sides, pair names.sides = .ok sides

/-- The attributes of the node of an identifier that has a label, before a capacity. -/
def attributesOf (side id : Datum) (kind : String) : Attributes :=
  labelledAttributes side (id.label?.getD "") kind

/-- The node of a place with its capacity. -/
def placeNode (names : Names) (side : Datum) (place : Datum × Int) : Datum × Attributes :=
  (place.1, (attributesOf side place.1 "place").put names.capacity (.int place.2))

def transitionNode (side id : Datum) : Datum × Attributes :=
  (id, attributesOf side id "transition")

/-- The nodes of a net, the places first. -/
def nodesOf (net : Net) (names : Names) (sides : Datum × Datum) : List (Datum × Attributes) :=
  net.capacities.map (placeNode names sides.1) ++ net.transitions.map (transitionNode sides.2)

/-- The edge of an arc. -/
def edgeOf (names : Names) (a : Arc) : Graph.Edge :=
  ⟨a.source, a.target, .ofList [(.str "role", .str a.direction.name), (names.weight, .int a.label)]⟩

/-- The graph that has a node for every identifier of the net, and edges for some arcs. -/
def graphWith (net : Net) (names : Names) (sides : Datum × Datum) (arcs : List Arc) : Graph :=
  .ofLists (nodesOf net names sides) (arcs.map (edgeOf names))

variable {net : Net} {names : Names} {sides : Datum × Datum} {a : Arc} {d : Direction}

theorem ids_nodesOf (net : Net) (names : Names) (sides : Datum × Datum) :
    (nodesOf net names sides).map (·.1) = net.places ++ net.transitions := by
  rw [nodesOf, List.map_append, List.map_map, List.map_map, ← Net.keys_capacities]
  congr 1
  exact List.map_id _

theorem distinct_nodesOf (hb : net.Built) (names : Names) (sides : Datum × Datum) :
    Distinct ((nodesOf net names sides).map (·.1)) := by
  rw [ids_nodesOf]
  exact hb.distinct_identifiers

/-! ## Names of attributes -/

theorem checkName_free {taken : List String} {s : String} (h : s ∉ taken) :
    Graph.checkName taken (.str s) = .ok () := by
  rw [Graph.checkName, if_neg (by simpa using h)]

theorem checkName_attributesOf {side id : Datum} {kind : String} :
    ∀ name ∈ (attributesOf side id kind).keys, Graph.checkName Graph.nodeNames name = .ok () := by
  intro name hname
  rcases Table.mem_keys_put hname with rfl | hname
  · exact checkName_free (by decide)
  rcases Table.mem_keys_put hname with rfl | hname
  · exact checkName_free (by decide)
  rcases Table.mem_keys_put hname with rfl | hname
  · exact checkName_free (by decide)
  · cases hname

theorem checkName_placeNode (h : names.Usable) {side : Datum} {place : Datum × Int} :
    ∀ name ∈ (placeNode names side place).2.keys, Graph.checkName Graph.nodeNames name = .ok () := by
  obtain ⟨s, hs, _, hfree⟩ := h.capacity
  intro name hname
  rcases Table.mem_keys_put hname with rfl | hname
  · rw [hs]
    exact checkName_free hfree
  · exact checkName_attributesOf name hname

theorem checkName_edgeOf (h : names.Usable) :
    ∀ name ∈ (edgeOf names a).attributes.keys, Graph.checkName ({} : Graph).edgeNames name = .ok () := by
  obtain ⟨s, hs, _, hfree⟩ := h.weight
  intro name hname
  rcases Table.mem_keys_put hname with rfl | hname
  · show Graph.checkName _ names.weight = .ok ()
    rw [hs]
    exact checkName_free hfree
  rcases Table.mem_keys_put hname with rfl | hname
  · exact checkName_free (by decide)
  · cases hname

/-! ## Node by node, edge by edge -/

/-- A step that adds a node, unless its name has no label. -/
structure AddsNode {α : Type} (step : Graph → α → Except Graph.Fault Graph) (node : α → Datum × Attributes) :
    Prop where
  labelled : ∀ g x, (node x).1.Writable → step g x = g.addNode (node x).1 (node x).2
  unlabelled : ∀ g x, ¬ (node x).1.Writable → step g x = .error (.value .noNumeral)

theorem nodeAttributes_eq {side id : Datum} {kind : String} (h : id.Writable) :
    nodeAttributes side id kind = .ok (attributesOf side id kind) := by
  obtain ⟨label, hlabel⟩ := Option.isSome_iff_exists.mp (Datum.isSome_label?_iff.mpr h)
  rw [nodeAttributes, Datum.label_eq_ok.mpr hlabel, attributesOf, hlabel]
  rfl

theorem nodeAttributes_eq_error {side id : Datum} {kind : String} (h : ¬ id.Writable) :
    nodeAttributes side id kind = .error .noNumeral := by
  rw [nodeAttributes, Datum.label_of_not_writable h]
  rfl

theorem addsNode_addPlace (names : Names) (side : Datum) :
    AddsNode (addPlace names side true) (placeNode names side) where
  labelled g place h := by
    rw [addPlace, nodeAttributes_eq (show place.1.Writable from h)]
    rfl
  unlabelled g place h := by
    rw [addPlace, nodeAttributes_eq_error (show ¬ place.1.Writable from h)]
    rfl

theorem addsNode_addTransition (side : Datum) : AddsNode (addTransition side) (transitionNode side) where
  labelled g t h := by
    rw [addTransition, nodeAttributes_eq (show t.Writable from h)]
    rfl
  unlabelled g t h := by
    rw [addTransition, nodeAttributes_eq_error (show ¬ t.Writable from h)]
    rfl

section Nodes

variable {α : Type} {xs : List α} {step : Graph → α → Except Graph.Fault Graph}
  {node : α → Datum × Attributes} {done : List (Datum × Attributes)}

/-- A node under an identifier of the net that was not there comes last. -/
theorem addNode_identifier (hb : net.Built) (hnet : net.Nameable) {n : Datum × Attributes}
    (hid : n.1 ∈ net.places ++ net.transitions)
    (hnames : ∀ name ∈ n.2.keys, Graph.checkName Graph.nodeNames name = .ok ())
    (hnew : Distinct ((done ++ [n]).map (·.1))) :
    Graph.addNode (.ofLists done []) n.1 n.2 = .ok (.ofLists (done ++ [n]) []) :=
  Graph.addNode_new
    (fun m hm => (List.pairwise_append.mp (List.pairwise_map.mp hnew)).2.2 m hm n List.mem_cons_self)
    (hb.hashable_identifiers _ hid) (hnet _ hid) hnames

/-- Steps that add nodes under identifiers of the net, none of them twice. -/
theorem addNodes_eq (hb : net.Built) (hnet : net.Nameable) (hadds : AddsNode step node)
    (hids : ∀ x ∈ xs, (node x).1 ∈ net.places ++ net.transitions)
    (hnames : ∀ x ∈ xs, ∀ name ∈ (node x).2.keys, Graph.checkName Graph.nodeNames name = .ok ())
    (hdistinct : Distinct ((done ++ xs.map node).map (·.1))) (hlabels : ∀ x ∈ xs, (node x).1.Writable) :
    xs.foldlM step (.ofLists done []) = .ok (.ofLists (done ++ xs.map node) []) := by
  refine foldlM_maps (Graph.ofLists · []) (fun done x hx hnew => ?_) (List.pairwise_map.mp hdistinct)
  rw [hadds.labelled _ _ (hlabels x hx)]
  exact addNode_identifier hb hnet (hids x hx) (hnames x hx) (List.pairwise_map.mpr hnew)

/-- Nodes are added up to the first whose name has no label. -/
theorem addNodes_eq_error (hb : net.Built) (hnet : net.Nameable) (hadds : AddsNode step node)
    (hids : ∀ x ∈ xs, (node x).1 ∈ net.places ++ net.transitions)
    (hnames : ∀ x ∈ xs, ∀ name ∈ (node x).2.keys, Graph.checkName Graph.nodeNames name = .ok ())
    (hdistinct : Distinct ((done ++ xs.map node).map (·.1))) (hlabels : ∃ x ∈ xs, ¬ (node x).1.Writable) :
    xs.foldlM step (.ofLists done []) = .error (.value .noNumeral) := by
  induction xs generalizing done with
  | nil =>
    obtain ⟨x, hx, _⟩ := hlabels
    cases hx
  | cons x xs ih =>
    rw [List.foldlM_cons]
    by_cases hx : (node x).1.Writable
    · have hrest : ∃ y ∈ xs, ¬ (node y).1.Writable := by
        obtain ⟨y, hy, hno⟩ := hlabels
        rcases List.mem_cons.mp hy with rfl | hy
        · exact absurd hx hno
        · exact ⟨y, hy, hno⟩
      rw [List.map_cons, List.append_cons] at hdistinct
      have hfirst : Distinct ((done ++ [node x]).map (·.1)) := by
        rw [List.map_append] at hdistinct
        exact (List.pairwise_append.mp hdistinct).1
      rw [hadds.labelled _ _ hx, addNode_identifier hb hnet (hids x List.mem_cons_self)
        (hnames x List.mem_cons_self) hfirst, ok_bind]
      exact ih (fun y hy => hids y (List.mem_cons_of_mem _ hy))
        (fun y hy => hnames y (List.mem_cons_of_mem _ hy)) hdistinct hrest
    · rw [hadds.unlabelled _ _ hx, error_bind]

end Nodes

/-- The nodes of a net are added, the places first. -/
def addIdentifiers (net : Net) (names : Names) (sides : Datum × Datum) : Except Graph.Fault Graph :=
  net.capacities.foldlM (addPlace names sides.1 true) (.ofLists [] [])
    >>= net.transitions.foldlM (addTransition sides.2)

theorem ofNet_eq_bind (hsides : pair names.sides = .ok sides) : ofNet net names true
    = addIdentifiers net names sides >>= fun g => addArcs names net .pre g >>= addArcs names net .post := by
  rw [ofNet, hsides, addIdentifiers, bind_assoc]
  rfl

theorem addPlaces_eq (sides : Datum × Datum) (hb : net.Built) (hnet : net.Nameable) (h : names.Usable)
    (hlabels : ∀ p ∈ net.places, p.Writable) :
    net.capacities.foldlM (addPlace names sides.1 true) (.ofLists [] [])
      = .ok (.ofLists (net.capacities.map (placeNode names sides.1)) []) := by
  have hdistinct := distinct_nodesOf hb names sides
  rw [nodesOf, List.map_append] at hdistinct
  exact addNodes_eq hb hnet (addsNode_addPlace names sides.1)
    (fun _ he => List.mem_append_left _ (Net.fst_mem_of_capacities he)) (fun _ _ => checkName_placeNode h)
    (List.pairwise_append.mp hdistinct).1 fun _ he => hlabels _ (Net.fst_mem_of_capacities he)

theorem addIdentifiers_eq (sides : Datum × Datum) (hb : net.Built) (hnet : net.Nameable) (h : names.Usable)
    (hlabels : net.Labelled) :
    addIdentifiers net names sides = .ok (.ofLists (nodesOf net names sides) []) := by
  obtain ⟨hplaces, htransitions⟩ := List.forall_mem_append.mp hlabels
  rw [addIdentifiers, addPlaces_eq sides hb hnet h hplaces, ok_bind]
  exact addNodes_eq hb hnet (addsNode_addTransition sides.2) (fun t ht => List.mem_append_right _ ht)
    (fun _ _ => checkName_attributesOf) (distinct_nodesOf hb names sides) htransitions

theorem addIdentifiers_eq_error (sides : Datum × Datum) (hb : net.Built) (hnet : net.Nameable)
    (h : names.Usable) (hlabels : ¬ net.Labelled) :
    addIdentifiers net names sides = .error (.value .noNumeral) := by
  have hdistinct := distinct_nodesOf hb names sides
  by_cases hplaces : ∀ p ∈ net.places, p.Writable
  · have htransitions := Datum.exists_not_writable fun htransitions =>
      hlabels (List.forall_mem_append.mpr ⟨hplaces, htransitions⟩)
    rw [addIdentifiers, addPlaces_eq sides hb hnet h hplaces, ok_bind]
    exact addNodes_eq_error hb hnet (addsNode_addTransition sides.2)
      (fun t ht => List.mem_append_right _ ht) (fun _ _ => checkName_attributesOf) hdistinct htransitions
  · obtain ⟨p, hp, hno⟩ := Datum.exists_not_writable hplaces
    rw [← Net.keys_capacities] at hp
    obtain ⟨e, he, rfl⟩ := List.mem_map.mp hp
    rw [nodesOf, List.map_append] at hdistinct
    have hfails : net.capacities.foldlM (addPlace names sides.1 true) (.ofLists [] [])
        = .error (.value .noNumeral) :=
      addNodes_eq_error hb hnet (addsNode_addPlace names sides.1)
        (fun _ he => List.mem_append_left _ (Net.fst_mem_of_capacities he))
        (fun _ _ => checkName_placeNode h) (List.pairwise_append.mp hdistinct).1 ⟨e, he, hno⟩
    rw [addIdentifiers, hfails, error_bind]

theorem addArc_eq (sides : Datum × Datum) (hb : net.Built) (hnet : net.Nameable) (h : names.Usable)
    {done : List Arc} (ha : a ∈ net.arcs)
    (hnew : ∀ b ∈ done, (b.source == a.source && b.target == a.target) = false) :
    addArc names a.direction (graphWith net names sides done) a.source a.target a.label
      = .ok (graphWith net names sides (done ++ [a])) := by
  obtain ⟨s, hs, hrole, _⟩ := h.weight
  have hsource := Net.source_mem ha
  have htarget := Net.target_mem ha
  have hnode : ∀ x ∈ net.places ++ net.transitions, ∃ n ∈ nodesOf net names sides, (n.1 == x) = true := by
    intro x hx
    have hmem := hx
    rw [← ids_nodesOf net names sides] at hmem
    obtain ⟨n, hn, rfl⟩ := List.mem_map.mp hmem
    exact ⟨n, hn, BEq.rfl⟩
  have hfree : Graph.checkName ["role"] names.weight = .ok () := by
    rw [hs]
    exact checkName_free (by simpa using hrole)
  have hother : ∀ e ∈ done.map (edgeOf names), (e.source == a.source && e.target == a.target) = false := by
    intro e he
    obtain ⟨b, hb, rfl⟩ := List.mem_map.mp he
    exact hnew b hb
  rw [addArc, hfree, graphWith, graphWith, List.map_append]
  exact Graph.addEdge_new (distinct_nodesOf hb names sides) (hnode _ hsource) (hnode _ htarget)
    ⟨hb.hashable_identifiers _ hsource, hb.hashable_identifiers _ htarget⟩
    ⟨hnet _ hsource, hnet _ htarget⟩ hother (checkName_edgeOf (a := a) h)

theorem addArcs_eq (sides : Datum × Datum) (hb : net.Built) (hnet : net.Nameable) (h : names.Usable)
    (done : List Arc) (hdistinct : (done ++ net.arcsIn d).Pairwise
      fun a b => (a.source == b.source && a.target == b.target) = false) :
    addArcs names net d (graphWith net names sides done)
      = .ok (graphWith net names sides (done ++ net.arcsIn d)) := by
  rw [addArcs, Net.arcTable_eq, List.foldlM_map]
  refine foldlM_appends (graphWith net names sides) (fun done t _ hcolumn => ?_) hdistinct
  show ((net.column d t).map fun a => (a.place, (a.label : Int))).foldlM _ _ = _
  rw [List.foldlM_map]
  -- each arc of the column is added as it is
  have hids : net.column d t = (net.column d t).map id := (List.map_id _).symm
  conv => rhs; rw [hids]
  refine foldlM_maps (graphWith net names sides) (fun done a ha hnew => ?_) (by rwa [← hids])
  obtain ⟨p, hp⟩ := Net.mem_column.mp ha
  obtain ⟨_, ht, _, hd⟩ := Net.arcAt_eq_some.mp hp
  have hadd := addArc_eq sides hb hnet h (Net.mem_arcs.mpr ⟨d, t, p, hp⟩)
    fun b hb => (List.pairwise_append.mp hnew).2.2 b hb a List.mem_cons_self
  subst hd
  rw [← ht]
  unfold Arc.source Arc.target at hadd
  cases hdir : a.direction <;> simpa [hdir] using hadd

/-- **The graph of a net has the identifiers as its nodes and the arcs as its edges.** -/
theorem ofNet_eq (hb : net.Built) (hnet : net.Nameable) (h : names.Usable) (hlabels : net.Labelled)
    (hsides : pair names.sides = .ok sides) :
    ofNet net names true = .ok (graphWith net names sides net.arcs) := by
  have hdistinct : net.arcs.Pairwise fun a b => (a.source == b.source && a.target == b.target) = false := by
    refine hb.noneParallel_arcs.imp_of_mem fun {a b} ha hb' hother => Bool.eq_false_iff.mpr fun hends => ?_
    obtain ⟨hsource, htarget⟩ := Bool.and_eq_true_iff.mp hends
    rw [hb.parallel_of_ends ha hb' hsource htarget] at hother
    cases hother
  have hpre : addArcs names net .pre (.ofLists (nodesOf net names sides) [])
      = .ok (graphWith net names sides (net.arcsIn .pre)) :=
    addArcs_eq sides hb hnet h [] (List.pairwise_append.mp hdistinct).1
  have hpost := addArcs_eq sides hb hnet h (net.arcsIn .pre) hdistinct
  rw [ofNet_eq_bind hsides, addIdentifiers_eq sides hb hnet h hlabels, ok_bind, hpre, ok_bind]
  exact hpost

/-- A net has no graph if one of its identifiers has no label. -/
theorem ofNet_eq_error (hb : net.Built) (hnet : net.Nameable) (h : names.Usable) (hlabels : ¬ net.Labelled) :
    ofNet net names true = .error (.value .noNumeral) := by
  obtain ⟨sides, hsides⟩ := h.sides
  rw [ofNet_eq_bind hsides, addIdentifiers_eq_error sides hb hnet h hlabels, error_bind]

end Bipartite

end Petri
