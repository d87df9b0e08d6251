import Petri.Graph.Basic
import Petri.Proofs.Construction
import Petri.Proofs.Sameness

/-!
# Graphs as lists of nodes and edges

A graph is a table of tables of tables. As long as nodes and edges are only added, each of them once, it is
known by the list of its nodes and the list of its edges (`Graph.ofLists`): adding a node or an edge is to
append it (`addNode_new`, `addEdge_new`). The edges are listed by source, so they come back in another order
(`edges_ofLists`, `perm_flatMap_filter`).
-/

namespace Petri

/-! ## Tables -/

namespace Table

variable {κ β : Type} [BEq κ] {key : κ} {fresh : β} {change : β → β} {es : List (κ × β)}

theorem upsertEntries_new (h : ∀ e ∈ es, (e.1 == key) = false) :
    upsertEntries key fresh change es = es ++ [(key, fresh)] := by
  induction es with
  | nil => rfl
  | cons e es ih =>
    have hne : ¬ (e.1 == key) = true := by simp [h e List.mem_cons_self]
    rw [upsertEntries, if_neg hne, ih fun e he => h e (List.mem_cons_of_mem _ he), List.cons_append]

/-- A key that is there has its value changed, and no other one does. -/
theorem upsertEntries_present [PartialEquivBEq κ] (hdistinct : Distinct (es.map (·.1)))
    (h : ∃ e ∈ es, (e.1 == key) = true) :
    upsertEntries key fresh change es = es.map fun e => if e.1 == key then (e.1, change e.2) else e := by
  induction es with
  | nil => simp at h
  | cons e es ih =>
    obtain ⟨hfirst, hrest⟩ := List.pairwise_cons.mp hdistinct
    rw [upsertEntries, List.map_cons]
    by_cases hsame : (e.1 == key) = true
    · -- later keys differ from this one, hence from `key`
      have hlater : ∀ f ∈ es, ¬ (f.1 == key) = true := by
        intro f hf hkey
        have hne := hfirst f.1 (List.mem_map_of_mem hf)
        rw [BEq.trans hsame (BEq.symm hkey)] at hne
        cases hne
      rw [if_pos hsame, if_pos hsame]
      congr 1
      exact (List.map_id es).symm.trans (List.map_congr_left fun f hf => (if_neg (hlater f hf)).symm)
    · obtain ⟨f, hf, hkey⟩ := h
      rcases List.mem_cons.mp hf with rfl | hf
      · exact absurd hkey hsame
      · rw [if_neg hsame, if_neg hsame, ih hrest ⟨f, hf, hkey⟩]

theorem mem_keys_put {t : Table κ β} {k : κ} {value : β} (h : k ∈ (t.put key value).keys) :
    k = key ∨ k ∈ t.keys := by
  obtain ⟨es⟩ := t
  change k ∈ (upsertEntries key value (fun _ => value) es).map (·.1) at h
  induction es with
  | nil => exact .inl (List.mem_singleton.mp h)
  | cons e es ih =>
    rw [upsertEntries] at h
    by_cases hsame : (e.1 == key) = true
    · rw [if_pos hsame] at h
      exact .inr h
    · rw [if_neg hsame] at h
      rcases List.mem_cons.mp h with rfl | h
      · exact .inr List.mem_cons_self
      · exact (ih h).imp_right (List.mem_cons_of_mem _)

theorem get?_of_mem [PartialEquivBEq κ] {t : Table κ β} {k : κ} {value : β} (hdistinct : Distinct t.keys)
    (h : (k, value) ∈ t.entries) (hkey : (k == key) = true) : t.get? key = some value := by
  obtain ⟨es⟩ := t
  show (es.find? fun e => e.1 == key).map (·.2) = some value
  induction es with
  | nil => cases h
  | cons e es ih =>
    obtain ⟨hfirst, hrest⟩ := List.pairwise_cons.mp hdistinct
    rcases List.mem_cons.mp h with rfl | h
    · rw [List.find?_cons, show ((k, value).1 == key) = true from hkey]
      rfl
    · have hne : (e.1 == key) = false := Bool.eq_false_iff.mpr fun hsame => by
        have hother := hfirst k (List.mem_map.mpr ⟨_, h, rfl⟩)
        rw [BEq.trans hsame (BEq.symm hkey)] at hother
        cases hother
      rw [List.find?_cons, hne]
      exact ih hrest h

end Table

/-! ## Lists by class -/

/-- Grouped by the one key that each of them has, the items are the same ones. -/
theorem perm_flatMap_filter {α β : Type} [BEq α] [PartialEquivBEq α] {key : β → α} {xs : List α} {ys : List β}
    (h : Distinct xs) (hys : ∀ y ∈ ys, ∃ x ∈ xs, (key y == x) = true) :
    (xs.flatMap fun x => ys.filter fun y => key y == x).Perm ys := by
  induction xs generalizing ys with
  | nil =>
    cases ys with
    | nil => exact .nil
    | cons y ys => simpa using hys y List.mem_cons_self
  | cons x xs ih =>
    obtain ⟨hfirst, hrest⟩ := List.pairwise_cons.mp h
    -- what has the key `x` is in no later group
    have hlater : (xs.flatMap fun z => ys.filter fun y => key y == z)
        = xs.flatMap fun z => (ys.filter fun y => !(key y == x)).filter fun y => key y == z := by
      rw [List.flatMap_def, List.flatMap_def]
      congr 1
      refine List.map_congr_left fun z hz => ?_
      rw [List.filter_filter]
      refine List.filter_congr fun y _ => ?_
      cases hyz : key y == z with
      | false => rfl
      | true =>
        cases hyx : key y == x with
        | false => rfl
        | true =>
          have hne := hfirst z hz
          rw [BEq.trans (BEq.symm hyx) hyz] at hne
          cases hne
    rw [List.flatMap_cons, hlater]
    refine (List.Perm.append_left _ (ih hrest fun y hy => ?_)).trans (List.filter_append_perm _ ys)
    obtain ⟨hmem, hne⟩ := List.mem_filter.mp hy
    obtain ⟨z, hz, hkey⟩ := hys y hmem
    rcases List.mem_cons.mp hz with rfl | hz
    · simp [hkey] at hne
    · exact ⟨z, hz, hkey⟩

/-! ## Nodes -/

namespace Graph

/-- What the edges with this source lead to, in their order. -/
def targetsOf (es : List Edge) (source : Datum) : Table Datum Links :=
  ⟨(es.filter (·.source == source)).map fun e => (e.target, ⟨[(.null, e.attributes)]⟩)⟩

/-- The graph without parallel edges that has the given nodes and edges. -/
def ofLists (ns : List (Datum × Attributes)) (es : List Edge) : Graph where
  nodes := ⟨ns.map fun n => (n.1, ⟨n.2, targetsOf es n.1⟩)⟩

variable {ns : List (Datum × Attributes)} {es : List Edge} {id source target : Datum}
  {attributes : Attributes}

theorem checkNode_eq_ok (hhash : id.hashable = true) (hnull : id ≠ .null) : checkNode id = .ok () := by
  unfold checkNode
  rw [Datum.requireHashable_eq_ok.mpr hhash]
  cases id <;> first | rfl | exact absurd rfl hnull

theorem checkNames_eq_ok {taken : List String} {names : List Datum}
    (h : ∀ name ∈ names, checkName taken name = .ok ()) : names.forM (checkName taken) = .ok () := by
  induction names with
  | nil => rfl
  | cons name names ih =>
    show (checkName taken name >>= fun _ => names.forM (checkName taken)) = .ok ()
    rw [h name List.mem_cons_self]
    exact ih fun n hn => h n (List.mem_cons_of_mem _ hn)

/-- A new node comes last. -/
theorem addNode_new (hnew : ∀ n ∈ ns, (n.1 == id) = false) (hhash : id.hashable = true) (hnull : id ≠ .null)
    (hnames : ∀ name ∈ attributes.keys, checkName nodeNames name = .ok ()) :
    (ofLists ns []).addNode id attributes = .ok (ofLists (ns ++ [(id, attributes)]) []) := by
  have hentries : ∀ e ∈ (ofLists ns []).nodes.entries, (e.1 == id) = false := by
    intro e he
    obtain ⟨n, hn, rfl⟩ := List.mem_map.mp he
    exact hnew n hn
  rw [addNode, checkNames_eq_ok hnames, checkNode_eq_ok hhash hnull, Table.upsert,
    Table.upsertEntries_new hentries]
  show Except.ok _ = _
  rw [ofLists, ofLists, List.map_append]
  rfl

theorem keys_ofLists (ns : List (Datum × Attributes)) (es : List Edge) :
    (ofLists ns es).nodes.keys = ns.map (·.1) := by
  rw [Table.keys, ofLists, List.map_map]
  rfl

theorem exists_entry (h : ∃ n ∈ ns, (n.1 == id) = true) :
    ∃ e ∈ (ofLists ns es).nodes.entries, (e.1 == id) = true := by
  obtain ⟨n, hn, hsame⟩ := h
  exact ⟨_, List.mem_map_of_mem hn, hsame⟩

/-- A node that is there and gets no attributes stays as it is. -/
theorem addNode_present (hdistinct : Distinct (ns.map (·.1))) (hhash : id.hashable = true) (hnull : id ≠ .null)
    (h : ∃ n ∈ ns, (n.1 == id) = true) : (ofLists ns es).addNode id {} = .ok (ofLists ns es) := by
  rw [← keys_ofLists ns es] at hdistinct
  have hnode : ∀ node : Node, { node with attributes := node.attributes.update {} } = node := fun _ => rfl
  rw [addNode, checkNode_eq_ok hhash hnull, Table.upsert,
    Table.upsertEntries_present hdistinct (exists_entry h)]
  simp only [hnode, ite_self, List.map_id']
  rfl

theorem node?_ofLists (hdistinct : Distinct (ns.map (·.1))) (h : (id, attributes) ∈ ns) :
    (ofLists ns es).nodes.get? id = some ⟨attributes, targetsOf es id⟩ :=
  Table.get?_of_mem (by rwa [keys_ofLists]) (List.mem_map.mpr ⟨_, h, rfl⟩) BEq.rfl

/-! ## Edges -/

/-- The node with one more edge, or with further attributes of the edge that it has. -/
def Node.join (target : Datum) (attributes : Attributes) (node : Node) : Node :=
  { node with
    targets := node.targets.upsert target ⟨[(.null, attributes)]⟩ fun links =>
      links.upsert .null attributes (·.update attributes) }

/-- One more edge is one more target of its source, unless there is an edge between its ends. -/
theorem targetsOf_append (hnew : ∀ e ∈ es, (e.source == source && e.target == target) = false)
    (hsame : (id == source) = true) :
    targetsOf (es ++ [⟨source, target, attributes⟩]) id
      = (targetsOf es id).upsert target ⟨[(.null, attributes)]⟩
          fun links => links.upsert .null attributes (·.update attributes) := by
  have hother : ∀ e ∈ (targetsOf es id).entries, (e.1 == target) = false := by
    intro e he
    obtain ⟨f, hf, rfl⟩ := List.mem_map.mp he
    obtain ⟨hmem, hsource⟩ := List.mem_filter.mp hf
    have hne := hnew f hmem
    rw [BEq.trans hsource hsame, Bool.true_and] at hne
    exact hne
  have hlast : ([⟨source, target, attributes⟩] : List Edge).filter (·.source == id)
      = [⟨source, target, attributes⟩] :=
    List.filter_cons_of_pos (BEq.symm hsame)
  rw [Table.upsert, Table.upsertEntries_new hother, targetsOf, targetsOf, List.filter_append, hlast,
    List.map_append]
  rfl

theorem targetsOf_append_of_ne (hne : (id == source) = false) :
    targetsOf (es ++ [⟨source, target, attributes⟩]) id = targetsOf es id := by
  have hlast : ([⟨source, target, attributes⟩] : List Edge).filter (·.source == id) = [] :=
    List.filter_eq_nil_iff.mpr fun e he => by
      rw [List.mem_singleton.mp he, BEq.comm, hne]
      exact Bool.false_ne_true
  rw [targetsOf, targetsOf, List.filter_append, hlast, List.append_nil]

/-- An edge between nodes that had none comes last. -/
theorem addEdge_new (hdistinct : Distinct (ns.map (·.1)))
    (hsource : ∃ n ∈ ns, (n.1 == source) = true) (htarget : ∃ n ∈ ns, (n.1 == target) = true)
    (hhash : source.hashable = true ∧ target.hashable = true) (hnull : source ≠ .null ∧ target ≠ .null)
    (hnew : ∀ e ∈ es, (e.source == source && e.target == target) = false)
    (hnames : ∀ name ∈ attributes.keys, checkName ({} : Graph).edgeNames name = .ok ()) :
    (ofLists ns es).addEdge source target .null attributes
      = .ok (ofLists ns (es ++ [⟨source, target, attributes⟩])) := by
  have hkeys := hdistinct
  rw [← keys_ofLists ns es] at hkeys
  have hentries : ((ofLists ns es).nodes.entries.map fun e =>
      if e.1 == source then (e.1, e.2.join target attributes) else e)
        = (ofLists ns (es ++ [⟨source, target, attributes⟩])).nodes.entries := by
    rw [ofLists, ofLists, List.map_map]
    refine List.map_congr_left fun n _ => ?_
    rw [Function.comp_apply]
    cases hsame : n.1 == source with
    | true =>
      rw [if_pos rfl, targetsOf_append hnew hsame]
      rfl
    | false => rw [if_neg Bool.false_ne_true, targetsOf_append_of_ne hsame]
  have hupsert : ∀ fresh, (ofLists ns es).nodes.upsert source fresh (·.join target attributes)
      = (ofLists ns (es ++ [⟨source, target, attributes⟩])).nodes := by
    intro fresh
    rw [Table.upsert, Table.upsertEntries_present hkeys (exists_entry hsource), hentries]
  have hchecked : attributes.keys.forM (checkName (ofLists ns es).edgeNames) = .ok () :=
    checkNames_eq_ok hnames
  rw [addEdge, hchecked, checkNode_eq_ok hhash.1 hnull.1, checkNode_eq_ok hhash.2 hnull.2]
  show Graph.addNode ⟨false, (ofLists ns es).nodes.upsert source _ (·.join target attributes)⟩ target {} = _
  rw [hupsert]
  exact addNode_present hdistinct hhash.2 hnull.2 htarget

/-- The edges are listed by source. -/
theorem edges_ofLists (hspelled : ∀ e ∈ es, ∀ n ∈ ns, (e.source == n.1) = true → e.source = n.1) :
    (ofLists ns es).edges = (ns.map (·.1)).flatMap fun id => es.filter (·.source == id) := by
  have hgroup : ∀ n ∈ ns, ((targetsOf es n.1).entries.flatMap fun target =>
      target.2.entries.map fun e => (⟨n.1, target.1, e.2⟩ : Edge)) = es.filter (·.source == n.1) := by
    intro n hn
    rw [targetsOf, List.flatMap_map]
    have hedge : ∀ e ∈ es.filter (·.source == n.1), [(⟨n.1, e.target, e.attributes⟩ : Edge)] = [e] := by
      intro e he
      obtain ⟨hmem, hsame⟩ := List.mem_filter.mp he
      rw [← hspelled e hmem n hn hsame]
    rw [List.flatMap_def]
    refine (congrArg List.flatten (List.map_congr_left hedge)).trans ?_
    rw [← List.flatMap_def, List.flatMap_singleton']
  rw [edges, ofLists, List.flatMap_map, List.flatMap_map, List.flatMap_def, List.flatMap_def]
  exact congrArg List.flatten (List.map_congr_left hgroup)

end Graph

end Petri
