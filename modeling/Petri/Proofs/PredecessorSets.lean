import Petri.Net.MarkingSet
import Petri.Proofs.Correspondence
import Petri.Proofs.Listings
import Petri.Proofs.Predecessors

/-!
# Reverting several markings

A collection of markings and mappings is reverted item by item, and the predecessors are put together as the loop goes
on. What comes out does not show how: a fault discards all that was found before it, and a set does not tell which item
a member is from.

> `coerce_refused`, `revertAll_eq_error_iff`: an item fails because it is no marking of the net or because a count is
> no word;
> `predecessorVectors_congr`: what an item adds depends on the marking that it stands for;
> `revertSet_union`: **the first item that fails decides, and otherwise the result is the union**, whatever the order,
> the repetitions and the spelling of the items.

The record of a success counts the items with their repetitions, and the predecessors without. An item that is no
marking of the net is not refused as such if it cannot be written (`revertSet_tooLong`).
-/

namespace Petri

/-- A marking, of any net, with whole numbers as counts, or a mapping. -/
inductive MarkingLike : Datum → Prop
  | marking {m : Marking} : (∀ c ∈ m.counts, ∃ k : Int, c = .int k) → MarkingLike m.toDatum
  | mapping {es : List (Datum × Datum)} : (∀ e ∈ es, e.1.hashable = true) → MarkingLike (.dict es)

namespace Net

variable {net : Net} {x y y' : Datum} {m m' q : Marking} {fault : Fault} {items items' : List Datum}
  {vss vss' : List (List (Vector Int64 net.places.length))}

/-! ## What an item stands for -/

theorem coerce_toDatum (m : Marking) :
    net.coerce m.toDatum
      = if m.places == net.places then .ok m else (Fault.foreignMarking m.toDatum net.places).raise :=
  rfl

/-- A mapping stands for a valid marking, whose counts are words; a marking stands for itself. -/
theorem owns_of_coerce (hy : MarkingLike y) (h : net.coerce y = .ok m) :
    net.Owns m ∧ (y = m.toDatum ∨ net.FitsWords m) := by
  cases hy with
  | @marking m₀ hwhole =>
    rw [coerce_toDatum] at h
    split at h
    case isTrue hplaces =>
      obtain rfl := Except.ok.inj h
      exact ⟨⟨hplaces, hwhole⟩, .inl rfl⟩
    case isFalse => exact absurd h (Fault.raise_ne_ok _ _)
  | mapping hkeys =>
    rw [coerce_mapping rfl] at h
    have hvalid := valid_of_marking h
    exact ⟨hvalid.owns, .inr hvalid.inRange.fitsWords⟩

/-- The refusal of the item `y` can show this value: the item, all places, or something of a mapping. -/
def Shows (net : Net) (y x : Datum) : Prop :=
  x = y ∨ x = .tuple net.places ∨ ∃ es, y = .dict es ∧ net.Involves es x

theorem Shows.writable (h : net.Shows y x) (hy : y.Writable) (hplaces : ∀ p ∈ net.places, p.Writable) :
    x.Writable := by
  rcases h with rfl | rfl | ⟨es, rfl, hx⟩
  · exact hy
  · exact Datum.writable_tuple_iff.mpr hplaces
  · exact hx.writable hplaces (Datum.writable_dict_iff.mp hy)

/-- What is no marking of the net is refused as such. -/
theorem coerce_refused (hb : net.Built) (hy : MarkingLike y) (h : ∀ m, net.coerce y ≠ .ok m) :
    Refused (net.coerce y) .marking (net.Shows y) := by
  cases hy with
  | marking =>
    rw [coerce_toDatum] at h ⊢
    split
    case isTrue hplaces => exact absurd (if_pos hplaces) (h _)
    case isFalse =>
      refine Fault.refused rfl fun x hx => ?_
      rcases List.mem_cons.mp hx with rfl | hx
      · exact .inl rfl
      · exact .inr (.inl (List.mem_singleton.mp hx))
  | @mapping es hkeys =>
    rw [coerce_mapping rfl] at h ⊢
    exact (marking_refused hb rfl hkeys h).mono fun x hx => .inr (.inr ⟨es, rfl, hx⟩)

/-! ## What an item adds -/

/-- The value is a marking of a net with transitions, and some count of it is no word. -/
def TooLarge (net : Net) (y : Datum) : Prop :=
  net.transitions ≠ [] ∧ ∃ m : Marking, y = m.toDatum ∧ net.Owns m ∧ ¬ net.FitsWords m

theorem revertAll_too_large (hm : net.Owns m) (hfit : ¬ net.FitsWords m) :
    net.revertAll m.toDatum = if net.transitions.isEmpty then .ok [] else .error (.value .tooLarge) := by
  rw [revertAll, predecessorVectors, hm.coerce_eq, ok_bind, words_too_large hm hfit]
  split <;> rfl

/-- **Why an item fails.** -/
theorem revertAll_eq_error_iff (hy : MarkingLike y) :
    net.revertAll y = .error fault ↔ net.coerce y = .error fault ∨ fault = .value .tooLarge ∧ net.TooLarge y := by
  constructor
  · intro h
    cases hcoerce : net.coerce y with
    | error e =>
      rw [revertAll_of_refused hcoerce] at h
      exact .inl (congrArg Except.error (Except.error.inj h))
    | ok m =>
      obtain ⟨hm, hstands⟩ := owns_of_coerce hy hcoerce
      rw [revertAll_of_coerce hcoerce hm] at h
      by_cases hfit : net.FitsWords m
      · rw [revertAll_eq hm hfit] at h
        cases h
      · rw [revertAll_too_large hm hfit] at h
        split at h
        case isTrue => cases h
        case isFalse hsome =>
          refine .inr ⟨(Except.error.inj h).symm, fun hnone => hsome (List.isEmpty_iff.mpr hnone), m, ?_, hm, hfit⟩
          exact hstands.resolve_right hfit
  · intro h
    rcases h with hcoerce | ⟨rfl, hsome, m, rfl, hm, hfit⟩
    · exact revertAll_of_refused hcoerce
    · rw [revertAll_too_large hm hfit, if_neg]
      exact fun hnone => hsome (List.isEmpty_iff.mp hnone)

theorem words_congr (hm : net.Owns m) (hm' : net.Owns m') (h : (m == m') = true) : net.words m = net.words m' := by
  have htokens := (hm.beq_iff hm').mp h
  by_cases hfit : net.FitsWords m
  · have hfit' : net.FitsWords m' := by
      intro p
      rw [← htokens p]
      exact hfit p
    have hwords : net.wordsOf m = net.wordsOf m' := by
      unfold wordsOf
      simp only [htokens]
    rw [hm.words_eq hfit, hm'.words_eq hfit', hwords]
  · have hfit' : ¬ net.FitsWords m' := by
      intro hall
      refine hfit fun p => ?_
      rw [htokens p]
      exact hall p
    rw [words_too_large hm hfit, words_too_large hm' hfit']

/-- Items that stand for the same marking add the same. -/
theorem predecessorVectors_congr (hy : net.coerce y = .ok m) (hy' : net.coerce y' = .ok m') (hm : net.Owns m)
    (hm' : net.Owns m') (h : (m == m') = true) : net.predecessorVectors y = net.predecessorVectors y' := by
  rw [predecessorVectors, predecessorVectors, hy, hy', ok_bind, ok_bind, words_congr hm hm' h]

theorem revertAll_eq_ok_iff {ms : List Marking} :
    net.revertAll y = .ok ms ↔ ∃ vs, net.predecessorVectors y = .ok vs ∧ vs.map net.markingOfWords = ms := by
  rw [revertAll, bind_eq_ok]
  simp only [pure_eq_ok]

theorem predecessorVectors_of_error (h : net.revertAll y = .error fault) :
    net.predecessorVectors y = .error fault := by
  cases hvs : net.predecessorVectors y with
  | ok vs =>
    rw [revertAll_eq_ok_iff.mpr ⟨vs, hvs, rfl⟩] at h
    cases h
  | error e =>
    rw [revertAll, hvs, error_bind] at h
    rw [Except.error.inj h]

/-! ## The loop -/

/-- Reverting the items of the collection `x` returns `found`: every predecessor of an item, each once. As a set they
are listed in some order. There is one record, and it tells the number of the items and the number of the
predecessors. -/
structure Collects (net : Net) (x : Datum) (items : List Datum) (found : List Marking) : Prop where
  result : (net.revertSet x).result = .ok found
  listed : ∃ members, net.predecessorSet items = .ok (.set members) ∧ members.Perm (found.map Marking.toDatum)
  log : (net.revertSet x).log = [⟨.reversal, some ("revert_set: " ++ toString items.length ++ " markings -> "
    ++ toString found.length ++ " predecessors")⟩]
  distinct : Distinct found
  mem_iff : ∀ q, q ∈ found ↔ ∃ y ∈ items, ∃ ms, net.revertAll y = .ok ms ∧ q ∈ ms

theorem revertSet_of_error (hx : x.items = .ok items) (h : items.mapM net.predecessorVectors = .error fault) :
    net.revertSet x = ⟨.error fault, []⟩ := by
  rw [revertSet, hx]
  show Logged.ofResult (net.predecessors items) _ = _
  rw [predecessors, h, error_bind]
  rfl

/-- The sets of all items are merged into one, which lists each predecessor once. -/
theorem exists_predecessorSet_perm (h : items.mapM net.predecessorVectors = .ok vss) :
    ∃ members, net.predecessorSet items = .ok (.set members) ∧
      members.Perm ((vss.flatten.eraseDups.map net.markingOfWords).map Marking.toDatum) := by
  have hall : items.mapM net.revertAll = .ok (vss.map (·.map net.markingOfWords)) := by
    have hrevert : net.revertAll = fun y => (net.predecessorVectors y).map (·.map net.markingOfWords) := by
      funext y
      rw [revertAll]
      cases net.predecessorVectors y <;> rfl
    have hmap : items.map net.revertAll
        = (items.map net.predecessorVectors).map (Except.map (·.map net.markingOfWords)) := by
      rw [List.map_map, hrevert]
      rfl
    rw [mapM_eq_ok, hmap, (mapM_eq_ok _ _ _).mp h, List.map_map, List.map_map]
    rfl
  have hsame : ∀ v w : Vector Int64 net.places.length,
      ((net.markingOfWords v).toDatum == (net.markingOfWords w).toDatum) = (v == w) := by
    intro v w
    refine Bool.eq_iff_iff.mpr ⟨fun h => beq_iff_eq.mpr (markingOfWords_inj_of_beq h), fun h => ?_⟩
    rw [beq_iff_eq.mp h]
    exact BEq.rfl
  refine ⟨_, by rw [predecessorSet, hall]; rfl, (Datum.perm_mergedListing _).trans (List.Perm.of_eq ?_)⟩
  have hflatten : ((vss.map (·.map net.markingOfWords)).map (·.map Marking.toDatum)).flatten
      = vss.flatten.map fun v => (net.markingOfWords v).toDatum := by
    simp [List.map_flatten, Function.comp_def]
  rw [hflatten, eraseDups_map hsame, List.map_map]
  rfl

theorem collects_of_all (hx : x.items = .ok items) (h : items.mapM net.predecessorVectors = .ok vss) :
    net.Collects x items (vss.flatten.eraseDups.map net.markingOfWords) := by
  have hset := revertSet_of_all hx h
  refine ⟨by rw [hset], exists_predecessorSet_perm h, by rw [hset]; rfl,
    distinct_map_markingOfWords (distinct_eraseDups _), fun q => ?_⟩
  simp only [List.mem_map, List.mem_eraseDups, List.mem_flatten, mem_of_mapM_eq_ok h, revertAll_eq_ok_iff]
  constructor
  · intro hq
    obtain ⟨v, ⟨vs, ⟨y, hy, hvs⟩, hv⟩, rfl⟩ := hq
    exact ⟨y, hy, _, ⟨vs, hvs, rfl⟩, List.mem_map_of_mem hv⟩
  · intro hq
    obtain ⟨y, hy, _, ⟨vs, hvs, rfl⟩, hq⟩ := hq
    obtain ⟨v, hv, rfl⟩ := List.mem_map.mp hq
    exact ⟨v, ⟨vs, ⟨y, hy, hvs⟩, hv⟩, rfl⟩

/-- Where the items of one collection stand for markings of the other, they add what is added there. -/
theorem included_vectors {ms ms' : List Marking} (hlike : ∀ y ∈ items, MarkingLike y)
    (hlike' : ∀ y ∈ items', MarkingLike y) (hms : items.mapM net.coerce = .ok ms)
    (hms' : items'.mapM net.coerce = .ok ms') (h : Included (· == ·) ms ms') :
    Included (fun y y' => net.predecessorVectors y = net.predecessorVectors y') items items' := by
  intro y hy
  obtain ⟨m, hm⟩ := exists_mapM_eq_ok.mp ⟨ms, hms⟩ y hy
  obtain ⟨m', hmem, hsame⟩ := h m ((mem_of_mapM_eq_ok hms).mpr ⟨y, hy, hm⟩)
  obtain ⟨y', hy', hm'⟩ := (mem_of_mapM_eq_ok hms').mp hmem
  exact ⟨y', hy', predecessorVectors_congr hm hm' (owns_of_coerce (hlike y hy) hm).1
    (owns_of_coerce (hlike' y' hy') hm').1 hsame⟩

theorem mem_flatten_of_included (h : items.mapM net.predecessorVectors = .ok vss)
    (h' : items'.mapM net.predecessorVectors = .ok vss')
    (hincluded : Included (fun y y' => net.predecessorVectors y = net.predecessorVectors y') items items')
    {v : Vector Int64 net.places.length} (hv : v ∈ vss.flatten) : v ∈ vss'.flatten := by
  obtain ⟨vs, hvs, hv⟩ := List.mem_flatten.mp hv
  obtain ⟨y, hy, hfound⟩ := (mem_of_mapM_eq_ok h).mp hvs
  obtain ⟨y', hy', hsame⟩ := hincluded y hy
  exact List.mem_flatten.mpr ⟨vs, (mem_of_mapM_eq_ok h').mpr ⟨y', hy', hsame ▸ hfound⟩, hv⟩

/-- Collections that add the same are reverted to the same set. -/
theorem exists_collects_perm (h : items.mapM net.predecessorVectors = .ok vss) (hx : x.items = .ok items')
    (hleft : Included (fun y y' => net.predecessorVectors y = net.predecessorVectors y') items items')
    (hright : Included (fun y y' => net.predecessorVectors y = net.predecessorVectors y') items' items) :
    ∃ found, net.Collects x items' found ∧ found.Perm (vss.flatten.eraseDups.map net.markingOfWords) := by
  obtain ⟨vss', h'⟩ : ∃ vss', items'.mapM net.predecessorVectors = .ok vss' := by
    refine exists_mapM_eq_ok.mpr fun y hy => ?_
    obtain ⟨y', hy', hsame⟩ := hright y hy
    rw [hsame]
    exact exists_mapM_eq_ok.mp ⟨vss, h⟩ y' hy'
  refine ⟨_, collects_of_all hx h', List.Perm.map _ ?_⟩
  refine (List.perm_ext_iff_of_nodup (nodup_eraseDups _) (nodup_eraseDups _)).mpr fun v => ?_
  rw [List.mem_eraseDups, List.mem_eraseDups]
  constructor
  · exact mem_flatten_of_included h' h hright
  · exact mem_flatten_of_included h h' hleft

/-- **Reverting several markings is a union.** An item fails if it is no marking of the net, as which it is refused if
it can be written, or if it is one and a count is no word and there are transitions. The fault of the first item that
fails is the outcome, and it leaves no record. If none fails, the outcome is the union of what the items are reverted
to, with one record. Any other collection whose items stand for the same markings, in another order, repeated or
spelled otherwise, comes to the same set. -/
theorem revertSet_union (hb : net.Built) (hx : x.items = .ok items) (hlike : ∀ y ∈ items, MarkingLike y) :
    (∀ y ∈ items,
        (∀ fault, net.revertAll y = .error fault ↔
          net.coerce y = .error fault ∨ fault = .value .tooLarge ∧ net.TooLarge y) ∧
        ((∀ m, net.coerce y ≠ .ok m) → Refused (net.coerce y) .marking (net.Shows y) ∧
          (y.Writable → (∀ p ∈ net.places, p.Writable) → FailsWith (net.coerce y) .marking))) ∧
      (∀ before y after fault, items = before ++ y :: after → (∀ z ∈ before, ∃ ms, net.revertAll z = .ok ms) →
        net.revertAll y = .error fault → net.revertSet x = ⟨.error fault, []⟩) ∧
      ((∀ y ∈ items, ∃ ms, net.revertAll y = .ok ms) →
        ∃ found, net.Collects x items found ∧
          ∀ x' items' ms ms', x'.items = .ok items' → (∀ y ∈ items', MarkingLike y) →
            items.mapM net.coerce = .ok ms → items'.mapM net.coerce = .ok ms' → SameMembers ms ms' →
            ∃ found', net.Collects x' items' found' ∧ found'.Perm found) := by
  have hpasses : ∀ y, (∃ ms, net.revertAll y = .ok ms) → ∃ vs, net.predecessorVectors y = .ok vs := by
    intro y h
    obtain ⟨ms, hms⟩ := h
    obtain ⟨vs, hvs, _⟩ := revertAll_eq_ok_iff.mp hms
    exact ⟨vs, hvs⟩
  refine ⟨fun y hy => ⟨fun fault => revertAll_eq_error_iff (hlike y hy), fun hno => ?_⟩, ?_, ?_⟩
  · have hrefused := coerce_refused hb (hlike y hy) hno
    exact ⟨hrefused, fun hwritable hplaces => hrefused.failsWith fun _ hx => hx.writable hwritable hplaces⟩
  · intro before y after fault hitems hbefore hy
    refine revertSet_of_error hx ?_
    rw [hitems]
    exact mapM_eq_error_of_first (fun z hz => hpasses z (hbefore z hz)) (predecessorVectors_of_error hy)
  · intro hall
    obtain ⟨vss, hvss⟩ := exists_mapM_eq_ok.mpr fun y hy => hpasses y (hall y hy)
    refine ⟨_, collects_of_all hx hvss, fun x' items' ms ms' hx' hlike' hms hms' hsame => ?_⟩
    exact exists_collects_perm hvss hx' (included_vectors hlike hlike' hms hms' hsame.1)
      (included_vectors hlike' hlike hms' hms hsame.2)

/-- A mapping with a count that is too long to be written: reverting it ends neither with the refusal of a marking nor
with a count that is no word, nor with a set. -/
theorem revertSet_tooLong :
    MarkingLike (.dict [(.str "on", .int Text.tooLong), (.str "off", .int 0)]) ∧
      ¬ FailsWith (lamp.revertSet (.list [.dict [(.str "on", .int Text.tooLong), (.str "off", .int 0)]])).result
        .marking ∧
      (lamp.revertSet (.list [.dict [(.str "on", .int Text.tooLong), (.str "off", .int 0)]])).result
        ≠ .error (.value .tooLarge) ∧
      ∀ found, (lamp.revertSet (.list [.dict [(.str "on", .int Text.tooLong), (.str "off", .int 0)]])).result
        ≠ .ok found := by
  have hmarking : lamp.marking (.dict [(.str "on", .int Text.tooLong), (.str "off", .int 0)])
      = .error (.value .noNumeral) :=
    marking_eq_noNumeral lamp_built rfl rfl (by decide) (p := ⟨0, by decide⟩) (n := Text.tooLong) rfl
      Datum.not_writable_tooLong fun q hq => nomatch hq
  have hitem : lamp.predecessorVectors (.dict [(.str "on", .int Text.tooLong), (.str "off", .int 0)])
      = .error (.value .noNumeral) :=
    predecessorVectors_of_error (revertAll_of_refused ((coerce_mapping rfl).trans hmarking))
  have hset : lamp.revertSet (.list [.dict [(.str "on", .int Text.tooLong), (.str "off", .int 0)]])
      = ⟨.error (.value .noNumeral), []⟩ := revertSet_of_error rfl (by rw [List.mapM_cons, hitem]; rfl)
  rw [hset]
  exact ⟨.mapping (by simp [Datum.hashable]), not_failsWith_value, by simp, by simp⟩

/-- The lamp being on, given as a marking and once more as a mapping in another order, is reverted as if it were given
once. Of a mapping without a place and a count that is no word, the mapping comes first and decides. -/
theorem revertSet_union_lamp :
    lamp.revertSet (.list [(lampAt 1 0).toDatum, .dict [(.str "on", .int 1)],
        (lampAt 9223372036854775808 0).toDatum]) = ⟨.error (.markingKeys [.str "off"] []), []⟩ ∧
      ∃ found found', lamp.Collects
          (.list [(lampAt 1 0).toDatum, .dict [(.str "off", .int 0), (.str "on", .int 1)]])
          [(lampAt 1 0).toDatum, .dict [(.str "off", .int 0), (.str "on", .int 1)]] found ∧
        lamp.Collects (.set [(lampAt 1 0).toDatum]) [(lampAt 1 0).toDatum] found' ∧ found'.Perm found := by
  have hlike : ∀ on off : Int, MarkingLike (lampAt on off).toDatum := fun on off => .marking (lampAt_owns on off).whole
  have hreverts : ∀ y, lamp.coerce y = .ok (lampAt 1 0) → ∃ ms, lamp.revertAll y = .ok ms := fun y hy =>
    ⟨_, (revertAll_of_coerce hy (lampAt_owns 1 0)).trans (revertAll_eq (lampAt_owns 1 0) (by decide))⟩
  have hmapping : lamp.coerce (.dict [(.str "off", .int 0), (.str "on", .int 1)]) = .ok (lampAt 1 0) := rfl
  constructor
  · obtain ⟨_, hfirst, _⟩ := revertSet_union lamp_built
      (x := .list [(lampAt 1 0).toDatum, .dict [(.str "on", .int 1)], (lampAt 9223372036854775808 0).toDatum]) rfl (by
        simp only [List.forall_mem_cons, List.not_mem_nil, false_imp_iff, implies_true, and_true]
        exact ⟨hlike _ _, .mapping (by decide), hlike _ _⟩)
    refine hfirst [(lampAt 1 0).toDatum] (.dict [(.str "on", .int 1)]) _ _ rfl (fun z hz => ?_) rfl
    rw [List.mem_singleton.mp hz]
    exact hreverts _ (lampAt_owns 1 0).coerce_eq
  · obtain ⟨_, _, hunion⟩ := revertSet_union lamp_built
      (x := .list [(lampAt 1 0).toDatum, .dict [(.str "off", .int 0), (.str "on", .int 1)]]) rfl (by
        simp only [List.forall_mem_cons, List.not_mem_nil, false_imp_iff, implies_true, and_true]
        exact ⟨hlike _ _, .mapping (by decide)⟩)
    obtain ⟨found, hfound, hother⟩ := hunion (by
      simp only [List.forall_mem_cons, List.not_mem_nil, false_imp_iff, implies_true, and_true]
      exact ⟨hreverts _ (lampAt_owns 1 0).coerce_eq, hreverts _ hmapping⟩)
    have hsame : SameMembers [lampAt 1 0, lampAt 1 0] [lampAt 1 0] := by
      constructor
      · intro m hm
        refine ⟨lampAt 1 0, List.mem_singleton_self _, ?_⟩
        rcases List.mem_cons.mp hm with rfl | hm
        · rfl
        · rw [List.mem_singleton.mp hm]
          rfl
      · intro m hm
        rw [List.mem_singleton.mp hm]
        exact ⟨lampAt 1 0, List.mem_cons_self, rfl⟩
    have honce : ∀ y ∈ [(lampAt 1 0).toDatum], MarkingLike y := by
      intro y hy
      rw [List.mem_singleton.mp hy]
      exact hlike 1 0
    obtain ⟨found', hfound', hperm⟩ := hother (.set [(lampAt 1 0).toDatum]) _ _ _ rfl honce rfl rfl hsame
    exact ⟨found, found', hfound, hfound', hperm⟩

end Net

end Petri
