import Petri.Bipartite.Import
import Petri.Proofs.Acceptance
import Petri.Proofs.Export

/-!
# There and back

The graph of a net is read as a net again. The kinds of the nodes give the places and the transitions in
their order (`classify_eq`), the edges give the arcs, although in another order (`edges_graphWith`,
`arcOfEdge_eq`), and the nodes of the places give the capacities (`capacityOfNodes_eq`). A net is known by
its arcs in any order, so it comes back as it was (`toNet_ofNet`). There are two exceptions. Capacities below
zero can be given as a default, but not by place, and an identifier that cannot be written has no label, so that
its net has no graph in the first place (`ofNet_tooLong`).
-/

namespace Petri

namespace Bipartite

variable {net : Net} {names : Names} {sides : Datum × Datum} {a : Arc}

/-! ## Nodes -/

theorem kind_attributesOf {side id : Datum} {kind : String} :
    (attributesOf side id kind).get? (.str "kind") = some (.str kind) :=
  Table.get?_put_of_beq (Datum.str_self "kind")

theorem kind_placeNode (h : names.Usable) {side : Datum} {e : Datum × Int} :
    (placeNode names side e).2.get? (.str "kind") = some (.str "place") := by
  obtain ⟨s, hs, hkind, _⟩ := h.capacity
  have hne : (names.capacity == Datum.str "kind") = false := by
    rw [hs, Datum.str_beq]
    exact beq_false_of_ne hkind
  rw [placeNode, Table.get?_put_of_ne _ _ hne]
  exact kind_attributesOf

theorem capacity_placeNode (h : names.Usable) {side : Datum} {e : Datum × Int} :
    (placeNode names side e).2.get? names.capacity = some (.int e.2) := by
  obtain ⟨s, hs, _⟩ := h.capacity
  rw [placeNode, hs]
  exact Table.get?_put_of_beq (Datum.str_self s)

/-- The nodes are told apart by their kinds, whatever the marks of the sides are. -/
theorem classify_eq (h : names.Usable) (placeSide transitionSide : Datum) (arcs : List Arc) :
    classify placeSide transitionSide (graphWith net names sides arcs)
      = .ok (net.places.map (·, .place) ++ net.transitions.map (·, .transition)) := by
  have hplace : ∀ e, kind? placeSide transitionSide (placeNode names sides.1 e).2 = some .place := by
    intro e
    rw [kind?, kind_placeNode h]
    rfl
  have htransition : ∀ t, kind? placeSide transitionSide (transitionNode sides.2 t).2
      = some .transition := by
    intro t
    rw [kind?, transitionNode, kind_attributesOf]
    rfl
  rw [classify, mapM_eq_ok, graphWith, Graph.ofLists, nodesOf, ← Net.keys_capacities]
  simp only [List.map_append, List.map_map]
  refine congr (congrArg _ (List.map_congr_left fun e _ => ?_)) (List.map_congr_left fun t _ => ?_)
  · simp only [Function.comp_apply, hplace]
    rfl
  · simp only [Function.comp_apply, htransition]
    rfl

theorem ofKind_place (ps ts : List Datum) :
    ofKind (ps.map (·, .place) ++ ts.map (·, .transition)) .place = ps := by
  rw [ofKind, List.filter_append, List.filter_map, List.filter_map]
  have hplaces : ps.filter ((fun e : Datum × Kind => e.2 == .place) ∘ (·, .place)) = ps :=
    List.filter_eq_self.mpr fun _ _ => rfl
  have htransitions : ts.filter ((fun e : Datum × Kind => e.2 == .place) ∘ (·, .transition)) = [] :=
    List.filter_eq_nil_iff.mpr fun _ _ => Bool.false_ne_true
  rw [hplaces, htransitions, List.map_nil, List.append_nil, List.map_map]
  exact List.map_id _

theorem ofKind_transition (ps ts : List Datum) :
    ofKind (ps.map (·, .place) ++ ts.map (·, .transition)) .transition = ts := by
  rw [ofKind, List.filter_append, List.filter_map, List.filter_map]
  have hplaces : ps.filter ((fun e : Datum × Kind => e.2 == .transition) ∘ (·, .place)) = [] :=
    List.filter_eq_nil_iff.mpr fun _ _ => Bool.false_ne_true
  have htransitions : ts.filter ((fun e : Datum × Kind => e.2 == .transition) ∘ (·, .transition)) = ts :=
    List.filter_eq_self.mpr fun _ _ => rfl
  rw [hplaces, htransitions, List.map_nil, List.nil_append, List.map_map]
  exact List.map_id _

/-! ## Edges -/

/-- The arcs of a net by the node that they start at. -/
def arcsBySource (net : Net) : List Arc :=
  (net.places ++ net.transitions).flatMap fun id => net.arcs.filter (·.source == id)

theorem perm_arcsBySource (hb : net.Built) : (arcsBySource net).Perm net.arcs :=
  perm_flatMap_filter hb.distinct_identifiers fun _ ha => ⟨_, Net.source_mem ha, BEq.rfl⟩

theorem edges_graphWith (hb : net.Built) :
    (graphWith net names sides net.arcs).edges = (arcsBySource net).map (edgeOf names) := by
  have hspelled : ∀ e ∈ net.arcs.map (edgeOf names), ∀ n ∈ nodesOf net names sides,
      (e.source == n.1) = true → e.source = n.1 := by
    intro e he n hn hsame
    obtain ⟨a, ha, rfl⟩ := List.mem_map.mp he
    have hid : n.1 ∈ net.places ++ net.transitions := by
      rw [← ids_nodesOf net names sides]
      exact List.mem_map_of_mem hn
    exact hb.distinct_identifiers.eq_of_beq (Net.source_mem ha) hid hsame
  rw [graphWith, Graph.edges_ofLists hspelled, ids_nodesOf, arcsBySource, List.map_flatMap]
  simp only [List.filter_map]
  rfl

theorem any_of_mem {xs : List Datum} {x : Datum} (h : x ∈ xs) : xs.any (· == x) = true :=
  List.any_eq_true.mpr ⟨x, h, BEq.rfl⟩

/-- The edge of an arc is read as the arc. -/
theorem arcOfEdge_eq (hb : net.Built) (h : names.Usable) (ha : a ∈ net.arcs) :
    arcOfEdge names.weight net.places (edgeOf names a) = .ok a := by
  obtain ⟨s, hs, _⟩ := h.weight
  have hends := Net.ends_mem ha
  have hplace : net.places.any (· == a.place) = true := any_of_mem hends.1
  have htransition : net.places.any (· == a.transition) = false :=
    List.any_eq_false.mpr fun p hp => by
      rw [hb.disjoint p hp _ hends.2]
      exact Bool.false_ne_true
  have hweight : attribute? names.weight (edgeOf names a).attributes = .ok (some (.int a.label)) := by
    rw [hs, attribute?, edgeOf, hs]
    exact congrArg Except.ok (Table.get?_put_of_beq (Datum.str_self s))
  rw [arcOfEdge, hweight, liftM_ok, ok_bind]
  cases hd : a.direction with
  | pre =>
    have hsource : (edgeOf names a).source = a.place := by simp [edgeOf, Arc.source, hd]
    have htarget : (edgeOf names a).target = a.transition := by simp [edgeOf, Arc.target, hd]
    simp only [hsource, htarget, hplace, htransition]
    rw [← hd]
    exact a.make_label
  | post =>
    have hsource : (edgeOf names a).source = a.transition := by simp [edgeOf, Arc.source, hd]
    have htarget : (edgeOf names a).target = a.place := by simp [edgeOf, Arc.target, hd]
    simp only [hsource, htarget, hplace, htransition]
    rw [← hd]
    exact a.make_label

/-! ## Capacities -/

/-- The capacities of a net as entries of a mapping. -/
def capacityEntries (net : Net) : List (Datum × Datum) :=
  net.capacities.map fun e => (e.1, .int e.2)

theorem capacityOfNodes_eq (hb : net.Built) (h : names.Usable) (arcs : List Arc) :
    capacityOfNodes names.capacity net.places (graphWith net names sides arcs)
      = .ok (.dict (capacityEntries net)) := by
  obtain ⟨s, hs, _⟩ := h.capacity
  have hdistinct := distinct_nodesOf hb names sides
  have hnode : ∀ e ∈ net.capacities, ((graphWith net names sides arcs).nodes.get? e.1).map (·.attributes)
      = some (placeNode names sides.1 e).2 := by
    intro e he
    have hmem : (e.1, (placeNode names sides.1 e).2) ∈ nodesOf net names sides :=
      List.mem_append_left _ (List.mem_map_of_mem he)
    rw [graphWith, Graph.node?_ofLists hdistinct hmem]
    rfl
  have hattribute : ∀ e : Datum × Int, attribute? names.capacity (placeNode names sides.1 e).2
      = .ok (some (.int e.2)) := by
    intro e
    rw [attribute?, capacity_placeNode h, hs]
    rfl
  have hfound : ((net.capacities.map (·.1)).mapM fun p => do
        let attributes := (((graphWith net names sides arcs).nodes.get? p).map (·.attributes)).getD {}
        return (p, ← attribute? names.capacity attributes) : Except Fault _)
      = .ok (net.capacities.map fun e => (e.1, some (.int e.2))) := by
    rw [mapM_eq_ok, List.map_map, List.map_map]
    refine List.map_congr_left fun e he => ?_
    show liftM (attribute? names.capacity _) >>= _ = _
    rw [hnode e he, Option.getD_some, hattribute]
    rfl
  have hknown : (net.capacities.map fun e => (e.1, some (Datum.int e.2))).filterMap
      (fun e => e.2.map (e.1, ·)) = capacityEntries net := by
    rw [List.filterMap_map, capacityEntries, ← List.filterMap_eq_map]
    rfl
  -- every place has a capacity, so all of them are known
  have hall : ∀ known, known = capacityEntries net →
      (if known.length = (net.capacities.map (·.1)).length then Datum.dict known else .null)
        = .dict (capacityEntries net) := by
    intro known hknown
    rw [hknown, capacityEntries, List.length_map, List.length_map, if_pos rfl]
  rw [capacityOfNodes, ← Net.keys_capacities, hfound, ok_bind]
  exact congrArg Except.ok (hall _ hknown)

/-- What a net is described by when it comes back from its graph. -/
theorem describe_eq (hb : net.Built) (h : names.Usable) {names' : Names}
    (hweight : names'.weight = names.weight) (hcapacity : names'.capacity = names.capacity)
    (hsides : ∃ sides, pair names'.sides = .ok sides) :
    describe (graphWith net names sides net.arcs) names'
      = .ok (.list net.places, .list net.transitions, arcsBySource net, .dict (capacityEntries net)) := by
  obtain ⟨sides', hsides⟩ := hsides
  have harcs : ((arcsBySource net).map (edgeOf names)).mapM (arcOfEdge names.weight net.places)
      = .ok (arcsBySource net) := by
    rw [mapM_eq_ok, List.map_map]
    refine List.map_congr_left fun a ha => ?_
    exact arcOfEdge_eq hb h ((perm_arcsBySource hb).mem_iff.mp ha)
  rw [describe, hsides, liftM_ok, ok_bind]
  show (classify _ _ _ >>= fun classified => _) = _
  rw [classify_eq h, ok_bind, ofKind_place, ofKind_transition, edges_graphWith hb, hweight, hcapacity]
  dsimp only
  rw [harcs, ok_bind, capacityOfNodes_eq hb h]
  rfl

/-! ## The net again -/

theorem keys_capacityEntries : (capacityEntries net).map (·.1) = net.places := by
  rw [capacityEntries, List.map_map, ← Net.keys_capacities]
  rfl

theorem fst_mem_of_capacityEntries {e : Datum × Datum} (h : e ∈ capacityEntries net) : e.1 ∈ net.places := by
  rw [← keys_capacityEntries]
  exact List.mem_map_of_mem h

theorem no_places (h : capacityEntries net = []) : net.places.length = 0 := by
  rw [← keys_capacityEntries, h]
  rfl

theorem numberUnder_capacityEntries (hb : net.Built) (p : Fin net.places.length) :
    Capacity.numberUnder? (capacityEntries net) (net.places.get p) = some (net.capacityAt p) := by
  have hmem : (net.places.get p, Datum.int (net.capacityAt p)) ∈ capacityEntries net := by
    rw [capacityEntries, Net.capacities_eq, List.map_map]
    exact List.mem_map.mpr ⟨p, List.mem_finRange p, rfl⟩
  have hdistinct : Distinct ((capacityEntries net).map (·.1)) := by
    rw [keys_capacityEntries]
    exact hb.distinct
  have hlast := Net.lastValue?_of_mem hdistinct hmem
  rw [Capacity.numberUnder?, hlast]
  rfl

theorem describes_capacityEntries (hb : net.Built) :
    Capacity.Describes (.dict (capacityEntries net)) (capacityEntries net) :=
  .dict fun _ he => hb.hashable _ (fst_mem_of_capacityEntries he)

theorem keysMatch_capacityEntries (net : Net) : Capacity.KeysMatch net.places (capacityEntries net) := by
  refine ⟨fun p hp => ?_, fun e he => any_of_mem (fst_mem_of_capacityEntries he)⟩
  rw [← keys_capacityEntries] at hp
  obtain ⟨e, he, rfl⟩ := List.mem_map.mp hp
  exact List.any_eq_true.mpr ⟨e, he, BEq.rfl⟩

variable {default : Datum} {k : Int}

theorem resolve_capacityEntries (hb : net.Built) (hdefault : default.toInt = .ok k)
    (hfits : Datum.fitsWord k = true) (hnonneg : ∀ p, 0 ≤ net.capacityAt p) :
    Capacity.resolve net.places (.dict (capacityEntries net)) default = .ok net.capacity :=
  Capacity.resolve_of_numbers (describes_capacityEntries hb) hdefault hfits hb.hashable
    (keysMatch_capacityEntries net) hnonneg (numberUnder_capacityEntries hb)

/-- Capacities are words, and words can be written. -/
theorem writable_capacityEntries (hlabels : net.Labelled) :
    ∀ e ∈ capacityEntries net, e.1.Writable ∧ e.2.Writable := by
  intro e he
  refine ⟨hlabels _ (List.mem_append_left _ (fst_mem_of_capacityEntries he)), ?_⟩
  rw [capacityEntries, Net.capacities_eq, List.map_map] at he
  obtain ⟨p, _, rfl⟩ := List.mem_map.mp he
  exact Datum.writable_int_of_word (Int64.le_toInt _) (Int.le_of_lt_add_one (Int64.toInt_lt _))

/-- A negative capacity cannot be described by place. -/
theorem resolve_negative (hb : net.Built) (hlabels : net.Labelled) (hneg : ∃ p, net.capacityAt p < 0) :
    FailsWith (Capacity.resolve net.places (.dict (capacityEntries net)) default) .capacityMismatch := by
  obtain ⟨p, hp⟩ := hneg
  have hsome : capacityEntries net ≠ [] := by
    intro hnone
    have hlt := p.isLt
    have hempty := no_places hnone
    omega
  have hmismatch : Capacity.Mismatches net.places (capacityEntries net) := by
    refine .inr ⟨_, List.get_mem net.places p, fun n hn => ?_⟩
    rw [numberUnder_capacityEntries hb p] at hn
    obtain rfl := Option.some.inj hn
    exact hp
  refine (Capacity.resolve_refused (describes_capacityEntries hb) hsome hb.hashable hmismatch).failsWith
    fun x hx => ?_
  exact hx.writable (fun p hp => hlabels p (List.mem_append_left _ hp)) (writable_capacityEntries hlabels)

/-- What comes back is the net, but for its capacities, which are those that the graph describes. -/
theorem toNet_graphWith (sides : Datum × Datum) (hb : net.Built) (h : names.Usable) {names' : Names}
    (hweight : names'.weight = names.weight) (hcapacity : names'.capacity = names.capacity)
    (hsides : ∃ sides, pair names'.sides = .ok sides) (hdefault : default.toInt = .ok k)
    (hfits : Datum.fitsWord k = true) :
    (toNet (graphWith net names sides net.arcs) names' default).result
      = (Capacity.resolve net.places (.dict (capacityEntries net)) default).map fun words =>
          { net with capacity := words } := by
  have hperm := perm_arcsBySource hb
  have hgiven : Description.GivenBy ⟨net.places, net.transitions, arcsBySource net, capacityEntries net, k⟩
      (.list net.places) (.list net.transitions) (.dict (capacityEntries net)) default :=
    { places := rfl
      transitions := rfl
      places_hashable := hb.hashable
      transitions_hashable := fun t ht => hb.hashable_identifiers t (List.mem_append_right _ ht)
      arcs_hashable := fun a ha => (hb.arcs_checked (hperm.mem_iff.mp ha)).1
      capacity := describes_capacityEntries hb
      default := hdefault
      default_fits := hfits }
  have hbuild := Net.build_of_separate hgiven ⟨hb.distinct, hb.distinct_transitions, hb.disjoint⟩
    (arcsBySource net)
  rw [toNet, describe_eq hb h hweight hcapacity hsides]
  exact hbuild.trans (hb.assemble_arcs hperm _ _)

/-- **A net whose identifiers have labels comes back from its graph exactly if no capacity is negative**, and
otherwise the capacities are refused. The marks of the sides may differ on the way back, for the nodes carry
their kinds. A net with an identifier that has no label has no graph. -/
theorem toNet_ofNet (hb : net.Built) (hnet : net.Nameable) (h : names.Usable) {names' : Names}
    (hweight : names'.weight = names.weight) (hcapacity : names'.capacity = names.capacity)
    (hsides : ∃ sides, pair names'.sides = .ok sides) (hdefault : default.toInt = .ok k)
    (hfits : Datum.fitsWord k = true) :
    (net.Labelled → ∃ g, ofNet net names true = .ok g ∧
      ((toNet g names' default).result = .ok net ↔ ∀ p, 0 ≤ net.capacityAt p) ∧
      ((∃ p, net.capacityAt p < 0) → FailsWith (toNet g names' default).result .capacityMismatch)) ∧
    (¬ net.Labelled → ofNet net names true = .error (.value .noNumeral)) := by
  refine ⟨fun hlabels => ?_, ofNet_eq_error hb hnet h⟩
  obtain ⟨sides, hpair⟩ := h.sides
  have hback := toNet_graphWith sides hb h hweight hcapacity hsides hdefault hfits
  have hfails : (∃ p, net.capacityAt p < 0) →
      FailsWith (toNet (graphWith net names sides net.arcs) names' default).result .capacityMismatch := by
    intro hneg
    rw [hback]
    exact (resolve_negative hb hlabels hneg).map _
  refine ⟨_, ofNet_eq hb hnet h hlabels hpair, ⟨fun hok p => ?_, fun hnonneg => ?_⟩, hfails⟩
  · refine Int.not_lt.mp fun hneg => ?_
    exact (hfails ⟨p, hneg⟩).ne_ok net hok
  · rw [hback, resolve_capacityEntries hb hdefault hfits hnonneg]
    rfl

theorem usable_defaults : ({} : Names).Usable :=
  ⟨⟨"weight", rfl, by decide, by decide⟩, ⟨"capacity", rfl, by decide, by decide⟩, _, rfl⟩

/-- A net of one place without a label. -/
def unlabelled : Net where
  places := [.int Text.tooLong]
  transitions := []
  capacity := .replicate 1 20
  weights := #v[]

theorem unlabelled_built : unlabelled.Built :=
  ⟨.list [.int Text.tooLong], .list [], [], .null, .int 20, by with_unfolding_all rfl⟩

theorem unlabelled_nameable : unlabelled.Nameable := by
  intro x hx hnull
  rw [List.mem_singleton.mp hx] at hnull
  cases hnull

theorem unlabelled_not_labelled : ¬ unlabelled.Labelled := fun h =>
  Datum.not_writable_tooLong (h _ (List.mem_singleton_self _))

/-- The net is built and no capacity is negative, but it has no graph. -/
theorem ofNet_tooLong : unlabelled.Built ∧ unlabelled.Nameable ∧ ({} : Names).Usable ∧
    (∀ p, 0 ≤ unlabelled.capacityAt p) ∧ ofNet unlabelled {} true = .error (.value .noNumeral) :=
  ⟨unlabelled_built, unlabelled_nameable, usable_defaults, by decide,
    ofNet_eq_error unlabelled_built unlabelled_nameable usable_defaults unlabelled_not_labelled⟩

/-- A place that owes a token, as a negative default capacity makes it. -/
def debt : Net where
  places := [.str "debt"]
  transitions := []
  capacity := #v[-1]
  weights := #v[]

theorem debt_built : debt.Built :=
  ⟨.list [.str "debt"], .list [], [], .null, .int (-1), by with_unfolding_all rfl⟩

theorem nameable_of_texts (texts : List String)
    (h : net.places ++ net.transitions = texts.map .str) : net.Nameable := by
  intro x hx hnull
  rw [h] at hx
  obtain ⟨s, _, rfl⟩ := List.mem_map.mp hx
  cases hnull

/-- The lamp comes back although other marks are expected. The debt does not, and what has no label is not
written at all. -/
theorem toNet_ofNet_lamp :
    (∃ g, ofNet Net.lamp {} true = .ok g ∧
      (toNet g { sides := .str "pt" } (.int 20)).result = .ok Net.lamp) ∧
    (∃ g, ofNet debt {} true = .ok g ∧ FailsWith (toNet g {} (.int 20)).result .capacityMismatch) ∧
    ofNet unlabelled {} true = .error (.value .noNumeral) := by
  have hlamp : Net.lamp.Nameable := nameable_of_texts ["on", "off", "switchOn", "switchOff"] rfl
  refine ⟨?_, ?_, ?_⟩
  · have hall : (_ → ∃ g, ofNet Net.lamp {} true = .ok g ∧
        ((toNet g { sides := .str "pt" } (.int 20)).result = .ok Net.lamp ↔ _) ∧ _) ∧ _ :=
      toNet_ofNet Net.lamp_built hlamp usable_defaults rfl rfl ⟨_, rfl⟩ rfl (by decide)
    obtain ⟨g, hg, hback, _⟩ := hall.1 (by decide)
    exact ⟨g, hg, hback.mpr (by decide)⟩
  · have hall : (_ → ∃ g, ofNet debt {} true = .ok g ∧ _ ∧
        (_ → FailsWith (toNet g {} (.int 20)).result .capacityMismatch)) ∧ _ :=
      toNet_ofNet debt_built (nameable_of_texts ["debt"] rfl) usable_defaults rfl rfl ⟨_, rfl⟩ rfl (by decide)
    obtain ⟨g, hg, _, hfails⟩ := hall.1 (by decide)
    exact ⟨g, hg, hfails (by decide)⟩
  · have hall : (_ → ∃ g, ofNet unlabelled {} true = .ok g ∧
        ((toNet g {} (.int 20)).result = .ok unlabelled ↔ _) ∧ _) ∧ _ :=
      toNet_ofNet unlabelled_built unlabelled_nameable usable_defaults rfl rfl ⟨_, rfl⟩ rfl (by decide)
    exact hall.2 unlabelled_not_labelled

end Bipartite

end Petri
