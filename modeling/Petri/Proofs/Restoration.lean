import Petri.Proofs.BipartiteGraphs

/-!
# Graphs that are restored

A net that was read from a graph is written as a graph again, provided that the nodes have labels
(`Graph.Labelled`), which reading does not ask for. The new graph need not be the old one: its nodes come by
class, its edges by source, each with attributes of the net alone. But it has the same nodes with the same
classes, and the same edges with the same weights (`Bipartite.Restores`), and it is read as the same net.

`ReadFrom` is all that the way back uses of the way there:

> `ReadFrom.leads_iff`, `ReadFrom.leads_graphWith_iff`: both graphs lead where the arcs do;
> `ReadFrom.restores`, `ReadFrom.toNet_eq`: so the new graph restores the old one and gives the net again.
-/

namespace Petri

/-- Arcs that are the same have the same ends and labels. -/
theorem Arc.ends_of_beq {a b : Arc} (h : (a == b) = true) :
    (a.source == b.source) = true ∧ (a.target == b.target) = true ∧ a.label = b.label := by
  obtain ⟨hparallel, hlabel⟩ := Arc.beq_iff.mp h
  obtain ⟨hd, ht, hp⟩ := Arc.parallel_iff.mp hparallel
  rw [Arc.source, Arc.source, Arc.target, Arc.target, ← hd]
  cases a.direction with
  | pre => exact ⟨hp, ht, hlabel⟩
  | post => exact ⟨ht, hp, hlabel⟩

/-- Every node has a label. -/
def Graph.Labelled (g : Graph) : Prop :=
  ∀ id ∈ g.nodes.keys, id.Writable

namespace Bipartite

variable {g : Graph} {net : Net} {arcs : List Arc} {default : Datum} {d : Int}

/-- An edge leads from one node to the other and has the weight. -/
def Leads (g : Graph) (source target weight : Datum) : Prop :=
  ∃ e ∈ g.edges, (e.source == source) = true ∧ (e.target == target) = true ∧ weightOf e = weight

/-- The graph `h` has the nodes and classes of `g`, and its edges with their weights. -/
structure Restores (h g : Graph) : Prop where
  nodes : h.nodes.keys.Perm g.nodes.keys
  classes : ∀ id k, HasClass h id k ↔ HasClass g id k
  edges : ∀ source target weight, Leads h source target weight ↔ Leads g source target weight

/-- A net that is read from a graph, with the arcs that the edges are read as. -/
structure ReadFrom (net : Net) (g : Graph) (arcs : List Arc) : Prop where
  built : net.Built
  places : net.places = members g .place
  transitions : net.transitions = members g .transition
  classified : ∀ e ∈ g.nodes.entries, ∃ k, Declares e.2.attributes k
  edges : ReadAs g arcs
  assembled : ∃ capacity default, Net.assemble net.places net.transitions arcs capacity default = .ok net
  distinct : Net.NoneParallel arcs
  declared : ∀ b ∈ arcs, b.Declared net.places net.transitions
  nonneg : ∀ p, 0 ≤ net.capacityAt p

/-- A net that is read from a sound graph is what the graph describes, and no capacity is negative. -/
theorem readFrom_of_toNet (hg : g.Sound) (hdefault : default.toInt = .ok d) (hfits : Datum.fitsWord d = true)
    (hnonneg : 0 ≤ d) (h : (toNet g {} default).result = .ok net) : ∃ arcs, ReadFrom net g arcs := by
  obtain ⟨hclasses, arcs, harcs, hnet⟩ := (toNet_eq_ok hg hdefault hfits).mp h
  have hends := Net.assemble_endsWith (description_givenBy hg harcs hdefault hfits)
    (description_separate hg arcs d)
  have hverdict := (Net.exists_ok_iff hends).mp ⟨net, hnet⟩
  rw [hverdict] at hends
  obtain ⟨net', hok, hreal⟩ := hends
  obtain rfl := Except.ok.inj (hnet.symm.trans hok)
  obtain ⟨_, haccepted, hcapacities⟩ := Net.verdict_eq_accepted.mp hverdict
  have hplaces : net.places = members g .place := hreal.places
  have htransitions : net.transitions = members g .transition := hreal.transitions
  refine ⟨arcs, ⟨_, _, _, _, _, (build_eq_assemble hg harcs hdefault hfits).trans hnet⟩, hplaces,
    htransitions, hclasses, harcs, ⟨capacityOf g, default, ?_⟩, haccepted.distinct, ?_, fun p => ?_⟩
  · rw [hplaces, htransitions]
    exact hnet
  · rw [hplaces, htransitions]
    exact haccepted.declared
  · by_cases hsome : (description g arcs d).capacities = []
    · rw [hreal.default hsome p]
      exact hnonneg
    · refine Int.not_lt.mp fun hneg => (hcapacities hsome).1 (.inr ⟨net.places.get p, ?_, fun n hn => ?_⟩)
      · rw [← hreal.places]
        exact List.get_mem _ _
      · obtain rfl := Option.some.inj ((hreal.capacities hsome p).symm.trans hn)
        exact hneg

namespace ReadFrom

theorem perm_identifiers (h : ReadFrom net g arcs) : (net.places ++ net.transitions).Perm g.nodes.keys := by
  rw [h.places, h.transitions]
  exact perm_members h.classified

theorem nameable (h : ReadFrom net g arcs) (hg : g.Sound) : net.Nameable := fun x hx =>
  (hg.names x (h.perm_identifiers.mem_iff.mp hx)).not_null

theorem labelled_iff (h : ReadFrom net g arcs) : net.Labelled ↔ g.Labelled :=
  forall_congr' fun _ => imp_congr_left h.perm_identifiers.mem_iff

theorem leads_iff (h : ReadFrom net g arcs) {source target weight : Datum} : Leads g source target weight ↔
    ∃ b ∈ arcs, (b.source == source) = true ∧ (b.target == target) = true ∧ Datum.int b.label = weight := by
  constructor
  · intro hleads
    obtain ⟨e, he, hsource, htarget, hweight⟩ := hleads
    obtain ⟨b, hread⟩ := exists_mapM_eq_ok.mp ⟨arcs, h.edges⟩ e he
    have hb : b ∈ arcs := (mem_of_mapM_eq_ok h.edges).mpr ⟨e, he, hread⟩
    have hread := arcOfEdge_eq_ok.mp hread
    rw [← hread.source] at hsource
    rw [← hread.target] at htarget
    exact ⟨b, hb, hsource, htarget, hread.weight.symm.trans hweight⟩
  · intro hleads
    obtain ⟨b, hb, hsource, htarget, hweight⟩ := hleads
    obtain ⟨e, he, hread⟩ := (mem_of_mapM_eq_ok h.edges).mp hb
    have hread := arcOfEdge_eq_ok.mp hread
    rw [hread.source] at hsource
    rw [hread.target] at htarget
    exact ⟨e, he, hsource, htarget, hread.weight.trans hweight⟩

/-- The edges of the graph that a net is written as are its arcs. -/
theorem leads_graphWith_iff (h : ReadFrom net g arcs) {sides : Datum × Datum}
    {source target weight : Datum} : Leads (graphWith net {} sides net.arcs) source target weight ↔
      ∃ a ∈ net.arcs, (a.source == source) = true ∧ (a.target == target) = true ∧
        Datum.int a.label = weight := by
  have hweight : ∀ a : Arc, weightOf (edgeOf {} a) = .int a.label := by
    intro a
    exact congrArg (Option.getD · _) (Table.get?_put_of_beq (Datum.str_self "weight"))
  have hmem : ∀ {a}, a ∈ arcsBySource net ↔ a ∈ net.arcs :=
    (perm_arcsBySource h.built).mem_iff
  rw [Leads, edges_graphWith h.built]
  constructor
  · intro hleads
    obtain ⟨e, he, hsource, htarget, hlabel⟩ := hleads
    obtain ⟨a, ha, rfl⟩ := List.mem_map.mp he
    exact ⟨a, hmem.mp ha, hsource, htarget, (hweight a).symm.trans hlabel⟩
  · intro hleads
    obtain ⟨a, ha, hsource, htarget, hlabel⟩ := hleads
    exact ⟨_, List.mem_map_of_mem (hmem.mpr ha), hsource, htarget, (hweight a).trans hlabel⟩

theorem members_graphWith (h : ReadFrom net g arcs) (sides : Datum × Datum) (others : List Arc) (k : Kind) :
    members (graphWith net {} sides others) k = members g k := by
  rw [← ofKind_classified (classify_eq usable_defaults (.int 0) (.int 1) others)]
  cases k with
  | place => rw [ofKind_place, h.places]
  | transition => rw [ofKind_transition, h.transitions]

/-- **The graph of the net restores the graph that it was read from.** -/
theorem restores (h : ReadFrom net g arcs) (sides : Datum × Datum) :
    Restores (graphWith net {} sides net.arcs) g := by
  obtain ⟨capacity, default, hassembled⟩ := h.assembled
  refine ⟨?_, fun id k => ?_, fun source target weight => ?_⟩
  · rw [graphWith, Graph.keys_ofLists, ids_nodesOf]
    exact h.perm_identifiers
  · rw [← any_members, ← any_members, h.members_graphWith]
  · rw [h.leads_iff, h.leads_graphWith_iff]
    constructor
    · intro hleads
      obtain ⟨a, ha, hsource, htarget, hlabel⟩ := hleads
      obtain ⟨b, hb, hsame⟩ := Net.exists_given hassembled ha
      obtain ⟨hs, ht, hl⟩ := Arc.ends_of_beq hsame
      exact ⟨b, hb, BEq.trans (BEq.symm hs) hsource, BEq.trans (BEq.symm ht) htarget, hl ▸ hlabel⟩
    · intro hleads
      obtain ⟨b, hb, hsource, htarget, hlabel⟩ := hleads
      obtain ⟨a, ha, hsame⟩ := Net.exists_arcAt hassembled h.distinct hb (h.declared b hb)
      obtain ⟨hs, ht, hl⟩ := Arc.ends_of_beq hsame
      exact ⟨a, ha, BEq.trans hs hsource, BEq.trans ht htarget, hl ▸ hlabel⟩

/-- The graph of the net is read as the net. -/
theorem toNet_eq (h : ReadFrom net g arcs) (sides : Datum × Datum) (hdefault : default.toInt = .ok d)
    (hfits : Datum.fitsWord d = true) :
    (toNet (graphWith net {} sides net.arcs) {} default).result = .ok net := by
  rw [toNet_graphWith sides h.built usable_defaults rfl rfl ⟨_, rfl⟩ hdefault hfits,
    resolve_capacityEntries h.built hdefault hfits h.nonneg]
  rfl

end ReadFrom

/-- **A sound graph is a net exactly if it is well formed. If its nodes have labels, the graph of the net
restores it** and gives, with whatever default it is read again, the same net. If some node has none, the net has
no graph. -/
theorem toNet_wellFormed (hg : g.Sound) (hdefault : default.toInt = .ok d) (hnonneg : 0 ≤ d)
    (hmost : d ≤ mostTokens) :
    ((∃ net, (toNet g {} default).result = .ok net) ↔ WellFormed g) ∧
      ∀ net, (toNet g {} default).result = .ok net →
        (g.Labelled → ∃ h, ofNet net {} true = .ok h ∧ Restores h g ∧
          ∀ again n, again.toInt = .ok n → Datum.fitsWord n = true → (toNet h {} again).result = .ok net) ∧
        (¬ g.Labelled → ofNet net {} true = .error (.value .noNumeral)) := by
  have hfits : Datum.fitsWord d = true := fitsWord_iff.mpr ⟨by omega, hmost⟩
  refine ⟨toNet_accepts_iff hg hdefault hfits, fun net hnet => ?_⟩
  obtain ⟨arcs, hread⟩ := readFrom_of_toNet hg hdefault hfits hnonneg hnet
  have hnameable := hread.nameable hg
  rw [← hread.labelled_iff]
  refine ⟨fun hlabels => ?_, ofNet_eq_error hread.built hnameable usable_defaults⟩
  exact ⟨_, ofNet_eq hread.built hnameable usable_defaults hlabels rfl, hread.restores _,
    fun again n => hread.toNet_eq _⟩

/-- A graph of one place without a label. -/
def unlabelledGraph : Graph where
  nodes := ⟨[(.int Text.tooLong, { attributes := ⟨[(.str "bipartite", .int 0)]⟩ })]⟩

/-- The graph is well formed and read as a net, but the net has no graph. -/
theorem toNet_tooLong : unlabelledGraph.Sound ∧ WellFormed unlabelledGraph ∧
    (toNet unlabelledGraph {} (.int 20)).result = .ok unlabelled ∧
    ofNet unlabelled {} true = .error (.value .noNumeral) := by
  have hedits : ({} : Graph).editAll [.addNode (.int Text.tooLong) ⟨[(.str "bipartite", .int 0)]⟩]
      = .ok unlabelledGraph := by with_unfolding_all rfl
  have hsound := Graph.editAll_sound (Graph.empty_sound false) hedits
  have hclass : ∀ e ∈ unlabelledGraph.nodes.entries, ∃ k, Declares e.2.attributes k := by
    intro e he
    rw [List.mem_singleton.mp he]
    exact ⟨.place, kind?_eq_some_iff.mp (by with_unfolding_all rfl)⟩
  have hassemble : Net.assemble (members unlabelledGraph .place) (members unlabelledGraph .transition) []
      (capacityOf unlabelledGraph) (.int 20) = .ok unlabelled := by with_unfolding_all rfl
  have hnet : (toNet unlabelledGraph {} (.int 20)).result = .ok unlabelled :=
    (toNet_eq_ok hsound rfl (by decide)).mpr ⟨hclass, [], by with_unfolding_all rfl, hassemble⟩
  have hwell := (toNet_accepts_iff hsound rfl (by decide)).mp ⟨_, hnet⟩
  exact ⟨hsound, hwell, hnet,
    ofNet_eq_error unlabelled_built unlabelled_nameable usable_defaults unlabelled_not_labelled⟩

/-- A tub that holds five tokens, marked by its side only, and a tap with edges to it. -/
def tub (links : Graph.Links) : Graph where
  multi := true
  nodes := ⟨[
    (.str "tub", { attributes := ⟨[(.str "bipartite", .int 0), (.str "capacity", .int 5)]⟩ }),
    (.str "tap", { attributes := ⟨[(.str "kind", .str "transition")]⟩, targets := ⟨[(.str "tub", links)]⟩ })]⟩

/-- How the tub comes about. The edges from the tap are added one by one. -/
def tubEdits (edges : Nat) : List Graph.Edit :=
  .addNode (.str "tub") ⟨[(.str "bipartite", .int 0), (.str "capacity", .int 5)]⟩ ::
    .addNode (.str "tap") ⟨[(.str "kind", .str "transition")]⟩ ::
    .replicate edges (.addEdge (.str "tap") (.str "tub") {})

def tubNet : Net where
  places := [.str "tub"]
  transitions := [.str "tap"]
  capacity := .replicate 1 5
  weights := #v[⟨.replicate 1 0, .replicate 1 1⟩]

theorem tub_sound (edges : Nat) {links : Graph.Links}
    (h : ({ multi := true } : Graph).editAll (tubEdits edges) = .ok (tub links)) : (tub links).Sound :=
  Graph.editAll_sound (Graph.empty_sound true) h

theorem tub_labelled (links : Graph.Links) : (tub links).Labelled := by
  intro id hid
  have hid : id ∈ [Datum.str "tub", Datum.str "tap"] := hid
  rcases List.mem_cons.mp hid with rfl | hid
  · exact Datum.writable_str "tub"
  · rw [List.mem_singleton.mp hid]
    exact Datum.writable_str "tap"

/-- With one edge the tub is a net and comes back. With two edges, as there may be in a graph with parallel
ones, it is none. -/
theorem toNet_wellFormed_tub :
    (WellFormed (tub ⟨[(.int 0, {})]⟩) ∧ ∃ h, ofNet tubNet {} true = .ok h ∧ Restores h (tub ⟨[(.int 0, {})]⟩) ∧
      (toNet h {} (.int 7)).result = .ok tubNet) ∧
    ¬ WellFormed (tub ⟨[(.int 0, {}), (.int 1, {})]⟩) := by
  constructor
  · have hsound : (tub ⟨[(.int 0, {})]⟩).Sound := tub_sound 1 rfl
    have hnet : (toNet (tub ⟨[(.int 0, {})]⟩) {} (.int 20)).result = .ok tubNet := by with_unfolding_all rfl
    have hall : ((∃ net, (toNet (tub ⟨[(.int 0, {})]⟩) {} (.int 20)).result = .ok net) ↔ _) ∧ _ :=
      toNet_wellFormed hsound rfl (by decide) (by decide)
    obtain ⟨h, hh, hrestores, hagain⟩ := (hall.2 tubNet hnet).1 (tub_labelled _)
    exact ⟨hall.1.mp ⟨_, hnet⟩, h, hh, hrestores, hagain (.int 7) 7 rfl (by decide)⟩
  · have hsound : (tub ⟨[(.int 0, {}), (.int 1, {})]⟩).Sound := tub_sound 2 rfl
    have hfault : (toNet (tub ⟨[(.int 0, {}), (.int 1, {})]⟩) {} (.int 20)).result
        = .error (.duplicateArc .post (.str "tub") (.str "tap")) := by with_unfolding_all rfl
    have hall : ((∃ net, (toNet (tub ⟨[(.int 0, {}), (.int 1, {})]⟩) {} (.int 20)).result = .ok net) ↔ _) ∧ _ :=
      toNet_wellFormed hsound rfl (by decide) (by decide)
    intro hwell
    obtain ⟨net, hnet⟩ := hall.1.mpr hwell
    rw [hfault] at hnet
    cases hnet

end Bipartite

end Petri
