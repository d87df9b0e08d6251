import Petri.Graph.Edit
import Petri.Proofs.Graphs

/-!
# Sound graphs

A graph is a table of nodes, each with a table of targets, and nothing in this form says that a target is a node
or that a name can be one. A graph that comes about by edits has both (`Graph.Sound`): every edit keeps it
(`edit_sound`), so all graphs that can be made from nothing have it (`editAll_sound`).
-/

namespace Petri

namespace Table

variable {κ β : Type} [BEq κ] {key : κ} {fresh : β} {change : β → β} {es : List (κ × β)}

/-- A key that is not there comes last. -/
theorem keys_upsert (t : Table κ β) : (t.upsert key fresh change).keys
    = if t.contains key then t.keys else t.keys ++ [key] := by
  obtain ⟨es⟩ := t
  show (upsertEntries key fresh change es).map (·.1)
    = if es.any (·.1 == key) then es.map (·.1) else es.map (·.1) ++ [key]
  induction es with
  | nil => rfl
  | cons e es ih =>
    rw [upsertEntries, List.any_cons]
    by_cases hsame : (e.1 == key) = true
    · rw [if_pos hsame, hsame]
      rfl
    · rw [if_neg hsame, List.map_cons, ih, Bool.eq_false_iff.mpr hsame, Bool.false_or]
      split <;> rfl

theorem contains_eq_any_keys (t : Table κ β) (key : κ) : t.contains key = t.keys.any (· == key) := by
  rw [contains, keys, List.any_map]
  rfl

theorem contains_upsert [PartialEquivBEq κ] (t : Table κ β) {other : κ} :
    (t.upsert key fresh change).contains other = (t.contains other || key == other) := by
  rw [contains_eq_any_keys, keys_upsert, contains_eq_any_keys t other]
  split
  next h =>
    cases hother : key == other with
    | false => rw [Bool.or_false]
    | true =>
      rw [← any_beq_congr hother, ← contains_eq_any_keys, h]
      rfl
  next => rw [List.any_append, List.any_cons, List.any_nil, Bool.or_false]

theorem distinct_upsert [PartialEquivBEq κ] {t : Table κ β} (h : Distinct t.keys) :
    Distinct (t.upsert key fresh change).keys := by
  rw [keys_upsert]
  split
  next => exact h
  next hnew =>
    rw [contains_eq_any_keys, List.any_eq_true, not_exists] at hnew
    refine List.pairwise_append.mpr ⟨h, List.pairwise_singleton _ _, fun x hx y hy => ?_⟩
    rw [List.mem_singleton.mp hy]
    exact Bool.eq_false_iff.mpr fun hsame => hnew x ⟨hx, hsame⟩

theorem mem_keys_upsert {t : Table κ β} {k : κ} (h : k ∈ (t.upsert key fresh change).keys) :
    k = key ∨ k ∈ t.keys := by
  rw [keys_upsert] at h
  split at h
  next => exact .inr h
  next =>
    rcases List.mem_append.mp h with h | h
    · exact .inr h
    · exact .inl (List.mem_singleton.mp h)

end Table

namespace Graph

/-- What can name a node: a value that can be a key and is not null. -/
structure Names (id : Datum) : Prop where
  hashable : id.hashable = true
  not_null : id ≠ .null

/-- The nodes have different names, and all edges lead to nodes. -/
structure Sound (g : Graph) : Prop where
  distinct : Distinct g.nodes.keys
  names : ∀ id ∈ g.nodes.keys, Names id
  targets : ∀ e ∈ g.nodes.entries, ∀ t ∈ e.2.targets.keys, t.hashable = true ∧ g.nodes.contains t = true

/-- A graph that is sound once `target` is a node. -/
structure SoundBut (g : Graph) (target : Datum) : Prop where
  distinct : Distinct g.nodes.keys
  names : ∀ id ∈ g.nodes.keys, Names id
  targets : ∀ e ∈ g.nodes.entries, ∀ t ∈ e.2.targets.keys,
    t.hashable = true ∧ (g.nodes.contains t = true ∨ t = target)

variable {g g' : Graph} {id source target key name value : Datum} {attributes : Attributes}

theorem Sound.but (h : g.Sound) (target : Datum) : g.SoundBut target :=
  ⟨h.distinct, h.names, fun e he t ht => ⟨(h.targets e he t ht).1, .inl (h.targets e he t ht).2⟩⟩

theorem names_of_checkNode (h : checkNode id = .ok ()) : Names id := by
  obtain ⟨_, hhash, h⟩ := bind_eq_ok.mp h
  refine ⟨Datum.requireHashable_eq_ok.mp (mapError_eq_ok.mp hhash), ?_⟩
  rintro rfl
  cases h

/-! ## Nodes -/

/-- A node that is added, or changed otherwise than in its targets. -/
theorem SoundBut.upsert (h : g.SoundBut id) (hid : Names id) {node : Node} {change : Node → Node}
    (hnode : node.targets = {}) (hchange : ∀ node, (change node).targets = node.targets) :
    Sound { g with nodes := g.nodes.upsert id node change } := by
  refine ⟨Table.distinct_upsert h.distinct, fun k hk => ?_, fun e he t ht => ?_⟩
  · rcases Table.mem_keys_upsert hk with rfl | hk
    · exact hid
    · exact h.names k hk
  · have hold : ∀ f ∈ g.nodes.entries, t ∈ f.2.targets.keys → t.hashable = true ∧
        (g.nodes.upsert id node change).contains t = true := by
      intro f hf ht
      obtain ⟨hhash, ht⟩ := h.targets f hf t ht
      rw [Table.contains_upsert, Bool.or_eq_true]
      refine ⟨hhash, ht.imp_right ?_⟩
      rintro rfl
      exact BEq.rfl
    rcases Table.mem_upsertEntries he with rfl | he | ⟨f, hf, _, rfl⟩
    · rw [hnode] at ht
      cases ht
    · exact hold e he ht
    · rw [hchange] at ht
      exact hold f hf ht

theorem addNode_sound (h : g.SoundBut id) (hg : g.addNode id attributes = .ok g') : g'.Sound := by
  obtain ⟨_, _, hg⟩ := bind_eq_ok.mp hg
  obtain ⟨_, hid, hg⟩ := bind_eq_ok.mp hg
  obtain rfl := pure_eq_ok.mp hg
  exact h.upsert (names_of_checkNode hid) rfl fun _ => rfl

/-- A change of a node that is there and gets no further targets. -/
theorem Sound.change (h : g.Sound) {fresh : Node} {change : Node → Node} (hid : g.nodes.contains id = true)
    (hchange : ∀ e ∈ g.nodes.entries, (e.1 == id) = true →
      ∀ t ∈ (change e.2).targets.keys, t ∈ e.2.targets.keys) :
    Sound { g with nodes := g.nodes.upsert id fresh change } := by
  have hkeys : (g.nodes.upsert id fresh change).keys = g.nodes.keys := by
    rw [Table.keys_upsert, if_pos hid]
  have hcontains : ∀ t, (g.nodes.upsert id fresh change).contains t = g.nodes.contains t := by
    intro t
    rw [Table.contains_eq_any_keys, hkeys, ← Table.contains_eq_any_keys]
  refine ⟨by rw [hkeys]; exact h.distinct, by rw [hkeys]; exact h.names, fun e he t ht => ?_⟩
  rw [hcontains]
  -- the node is there, so that none is added
  obtain ⟨f, hf, hsame⟩ := List.any_eq_true.mp hid
  have hentries : (g.nodes.upsert id fresh change).entries
      = g.nodes.entries.map fun e => if e.1 == id then (e.1, change e.2) else e :=
    Table.upsertEntries_present h.distinct ⟨f, hf, hsame⟩
  rw [hentries] at he
  obtain ⟨f, hf, rfl⟩ := List.mem_map.mp he
  split at ht
  next hsame => exact h.targets f hf t (hchange f hf hsame t ht)
  next => exact h.targets f hf t ht

theorem setNodeAttribute_sound (h : g.Sound) (hg : g.setNodeAttribute id name value = .ok g') : g'.Sound := by
  obtain ⟨_, _, hg⟩ := bind_eq_ok.mp hg
  split at hg
  next hid =>
    obtain ⟨_, _, hg⟩ := bind_eq_ok.mp hg
    obtain rfl := pure_eq_ok.mp hg
    exact h.change hid fun _ _ _ _ ht => ht
  next => cases hg

theorem eraseNodeAttribute_sound (h : g.Sound) (hg : g.eraseNodeAttribute id name = .ok g') : g'.Sound := by
  obtain ⟨_, _, hg⟩ := bind_eq_ok.mp hg
  split at hg
  next node hnode =>
    have hid : g.nodes.contains id = true := by
      rw [Table.contains_eq_isSome, hnode]
      rfl
    obtain ⟨_, _, hg⟩ := bind_eq_ok.mp hg
    split at hg
    next =>
      obtain rfl := pure_eq_ok.mp hg
      exact h.change hid fun _ _ _ _ ht => ht
    next => cases hg
  next => cases hg

theorem removeNode_sound (h : g.Sound) (hg : g.removeNode id = .ok g') : g'.Sound := by
  obtain ⟨_, _, hg⟩ := bind_eq_ok.mp hg
  split at hg
  next =>
    have hg := pure_eq_ok.mp hg
    -- the nodes that stay are those with other names
    have hkeys : g'.nodes.keys = g.nodes.keys.filter fun k => !(k == id) := by
      rw [← hg, Table.keys, Table.keys, List.map_map, List.filter_map]
      rfl
    refine ⟨?_, fun k hk => ?_, fun e he t ht => ?_⟩
    · rw [hkeys]
      exact h.distinct.sublist List.filter_sublist
    · rw [hkeys] at hk
      exact h.names k (List.mem_filter.mp hk).1
    · rw [← hg] at he
      obtain ⟨f, hf, rfl⟩ := List.mem_map.mp he
      obtain ⟨entry, hentry, rfl⟩ := List.mem_map.mp ht
      obtain ⟨hentry, hother⟩ := List.mem_filter.mp hentry
      obtain ⟨hhash, hnode⟩ := h.targets f (List.mem_filter.mp hf).1 _ (List.mem_map_of_mem hentry)
      refine ⟨hhash, ?_⟩
      rw [Table.contains_eq_any_keys, List.any_eq_true] at hnode ⊢
      obtain ⟨k, hk, hsame⟩ := hnode
      refine ⟨k, ?_, hsame⟩
      rw [hkeys, List.mem_filter]
      refine ⟨hk, ?_⟩
      -- the node that is removed is no target any more
      cases hid : k == id with
      | false => rfl
      | true =>
        rw [BEq.trans (BEq.symm hsame) hid] at hother
        exact hother
  next => cases hg

/-! ## Edges -/

theorem addEdge_sound (h : g.Sound) (hg : g.addEdge source target key attributes = .ok g') : g'.Sound := by
  obtain ⟨_, _, hg⟩ := bind_eq_ok.mp hg
  obtain ⟨_, hsource, hg⟩ := bind_eq_ok.mp hg
  obtain ⟨_, htarget, hg⟩ := bind_eq_ok.mp hg
  obtain ⟨_, _, hg⟩ := bind_eq_ok.mp hg
  have hsource := names_of_checkNode hsource
  have htarget := names_of_checkNode htarget
  -- before the target is added it is the only target that may be no node
  refine addNode_sound ⟨Table.distinct_upsert h.distinct, fun k hk => ?_, fun e he t ht => ?_⟩ hg
  · rcases Table.mem_keys_upsert hk with rfl | hk
    · exact hsource
    · exact h.names k hk
  · have hold : ∀ f ∈ g.nodes.entries, t ∈ f.2.targets.keys → ∀ {node : Node} {change : Node → Node},
        t.hashable = true ∧ ((g.nodes.upsert source node change).contains t = true ∨ t = target) := by
      intro f hf ht node change
      obtain ⟨hhash, ht⟩ := h.targets f hf t ht
      rw [Table.contains_upsert, ht]
      exact ⟨hhash, .inl rfl⟩
    rcases Table.mem_upsertEntries he with rfl | he | ⟨f, hf, _, rfl⟩
    · rcases Table.mem_keys_upsert ht with rfl | ht
      · exact ⟨htarget.hashable, .inr rfl⟩
      · cases ht
    · exact hold e he ht
    · rcases Table.mem_keys_upsert ht with rfl | ht
      · exact ⟨htarget.hashable, .inr rfl⟩
      · exact hold f hf ht

theorem removeEdge_sound (h : g.Sound) (hg : g.removeEdge source target = .ok g') : g'.Sound := by
  obtain ⟨_, _, hg⟩ := bind_eq_ok.mp hg
  split at hg
  next node hnode =>
    obtain ⟨_, _, hg⟩ := bind_eq_ok.mp hg
    split at hg
    next links hlinks =>
      obtain rfl := pure_eq_ok.mp hg
      have hid : g.nodes.contains source = true := by
        rw [Table.contains_eq_isSome, hnode]
        rfl
      refine h.change hid fun e he hsame t ht => ?_
      -- the node that is changed is the one whose links were looked up
      have hfound : g.nodes.get? source = some e.2 := Table.get?_of_mem h.distinct he hsame
      obtain rfl := Option.some.inj (hfound.symm.trans hnode)
      have hpresent : e.2.targets.contains target = true := by
        rw [Table.contains_eq_isSome, hlinks]
        rfl
      dsimp only at ht
      split at ht
      next =>
        obtain ⟨entry, hentry, rfl⟩ := List.mem_map.mp ht
        exact List.mem_map_of_mem (List.mem_filter.mp hentry).1
      next =>
        rw [Table.put, Table.keys_upsert, if_pos hpresent] at ht
        exact ht
    next => cases hg
  next => cases hg

/-! ## Edits -/

/-- **Every edit keeps a graph sound.** -/
theorem edit_sound {change : Edit} (h : g.Sound) (hg : g.edit change = .ok g') : g'.Sound := by
  cases change with
  | addNode id attributes => exact addNode_sound (h.but id) hg
  | addEdge source target attributes =>
    rw [edit] at hg
    split at hg
    next => exact addEdge_sound h hg
    next => exact addEdge_sound h hg
  | setNodeAttribute id name value => exact setNodeAttribute_sound h hg
  | eraseNodeAttribute id name => exact eraseNodeAttribute_sound h hg
  | removeNode id => exact removeNode_sound h hg
  | removeEdge source target => exact removeEdge_sound h hg

/-- A graph that is made by edits is sound, with parallel edges or without. -/
theorem editAll_sound {edits : List Edit} (h : g.Sound) (hg : g.editAll edits = .ok g') : g'.Sound := by
  induction edits generalizing g with
  | nil =>
    obtain rfl := pure_eq_ok.mp hg
    exact h
  | cons change edits ih =>
    rw [editAll, List.foldlM_cons] at hg
    obtain ⟨g₁, hfirst, hg⟩ := bind_eq_ok.mp hg
    exact ih (edit_sound h hfirst) hg

theorem empty_sound (multi : Bool) : Sound { multi } :=
  ⟨List.Pairwise.nil, fun _ h => (nomatch h), fun _ h => (nomatch h)⟩

end Graph

end Petri
