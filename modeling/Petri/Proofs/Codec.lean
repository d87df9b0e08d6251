import Petri.Proofs.Graphs
import Petri.Proofs.MarkingOrder
import Petri.Proofs.Mappings
import Petri.Proofs.StateEquation

/-!
# Markings written as mappings

A net reads a marking off a mapping from places to counts, and a marking is such a mapping itself. What is read depends
on the answers of the mapping alone, on what it has under each key, and not on its order or on what kind of mapping it
is (`marking_of_agree`). So reading and writing are inverse to each other:

> `admits_iff_filled`: a dictionary is accepted if its keys are the places and its values fit the capacities;
> `agree_of_marking`: what is read has the answers of what it was read off;
> `Owns.readsAs`: a marking of the net is read as itself if its counts fit, whoever made it;
> `Owns.exists_transfer`: another net with the same places reads the same answers in its own order;
> `marking_codec`: **validation is an exact codec.**
-/

namespace Petri

/-- Pairs under keys that differ are written one after another. -/
theorem Table.entries_ofList {κ β : Type} [BEq κ] {pairs : List (κ × β)} (h : Distinct (pairs.map (·.1))) :
    (Table.ofList pairs).entries = pairs := by
  have hfold : ∀ (pairs done : List (κ × β)), Distinct ((done ++ pairs).map (·.1)) →
      (pairs.foldl (fun (t : Table κ β) e => t.put e.1 e.2) ⟨done⟩).entries = done ++ pairs := by
    intro pairs
    induction pairs with
    | nil => intro done _; exact (List.append_nil done).symm
    | cons e pairs ih =>
      intro done hdistinct
      have hnew : ∀ f ∈ done, (f.1 == e.1) = false := by
        intro f hf
        rw [List.map_append] at hdistinct
        exact (List.pairwise_append.mp hdistinct).2.2 f.1 (List.mem_map_of_mem hf) e.1 List.mem_cons_self
      rw [List.append_cons] at hdistinct ⊢
      rw [← ih _ hdistinct, List.foldl_cons, put, upsert, upsertEntries_new hnew]
  exact hfold pairs [] h

namespace Datum

variable {x y key : Datum} {es es' fs : List (Datum × Datum)}

/-- The entries of a dictionary: what stands in front can be a key and stands there once. -/
structure Keyed (es : List (Datum × Datum)) : Prop where
  hashable : ∀ e ∈ es, e.1.hashable = true
  distinct : Distinct (es.map (·.1))

/-- The same stands under every key. -/
def Agree (es fs : List (Datum × Datum)) : Prop :=
  ∀ key, lastValue? es key = lastValue? fs key

theorem Agree.symm (h : Agree es fs) : Agree fs es :=
  fun key => (h key).symm

theorem Agree.trans (h : Agree es es') (h' : Agree es' fs) : Agree es fs :=
  fun key => (h key).trans (h' key)

/-- Mappings that agree answer alike, also where they have no answer. -/
theorem Agree.valueAt_eq (h : Agree es fs) (hx : x.entries = .ok es) (hy : y.entries = .ok fs) (key : Datum) :
    x.valueAt key = y.valueAt key := by
  rcases entries_eq_ok.mp hx with rfl | rfl <;> rcases entries_eq_ok.mp hy with rfl | rfl <;>
    rw [valueAt, valueAt, h key]

theorem any_key_iff : es.any (·.1 == key) = true ↔ lastValue? es key ≠ none := by
  rw [Ne, lastValue?_eq_none_iff, List.any_eq_true]
  simp

namespace Keyed

theorem allHashable (h : Keyed es) : Datum.allHashable (es.map (·.1)) = true := by
  rw [allHashable_iff, List.forall_mem_map]
  exact h.hashable

theorem perm (h : Keyed es) (hperm : es.Perm es') : Keyed es' :=
  ⟨fun e he => h.hashable e (hperm.mem_iff.mpr he), h.distinct.perm (hperm.map _)⟩

/-- Under a key stands what it is paired with. -/
theorem lastValue?_eq (h : Keyed es) {e : Datum × Datum} (he : e ∈ es) (hkey : (e.1 == key) = true) :
    lastValue? es key = some e.2 := by
  rw [← lastValue?_congr hkey]
  exact Net.lastValue?_of_mem h.distinct he

/-- The order of the entries does not matter. -/
theorem agree_perm (h : Keyed es) (hperm : es.Perm es') : Agree es es' := by
  intro key
  by_cases hfound : ∃ e ∈ es, (e.1 == key) = true
  · obtain ⟨e, he, hkey⟩ := hfound
    rw [h.lastValue?_eq he hkey, (h.perm hperm).lastValue?_eq (hperm.mem_iff.mp he) hkey]
  · have hnone : ∀ e ∈ es, (e.1 == key) = false := fun e he =>
      Bool.eq_false_iff.mpr fun hkey => hfound ⟨e, he, hkey⟩
    rw [lastValue?_eq_none_iff.mpr hnone,
      lastValue?_eq_none_iff.mpr fun e he => hnone e (hperm.mem_iff.mpr he)]

end Keyed

end Datum

theorem Marking.entries_toDatum (m : Marking) : m.toDatum.entries = .ok m.entries :=
  rfl

namespace Capacity

/-- Entries that agree have the same keys, in whatever spelling. -/
theorem KeysMatch.of_agree {places : List Datum} {es fs : List (Datum × Datum)} (h : KeysMatch places es)
    (hagree : Datum.Agree es fs) : KeysMatch places fs := by
  refine ⟨fun p hp => ?_, fun f hf => ?_⟩
  · rw [Datum.any_key_iff, ← hagree, ← Datum.any_key_iff]
    exact h.covered p hp
  · have hkey : es.any (·.1 == f.1) = true := by
      rw [Datum.any_key_iff, hagree, ← Datum.any_key_iff]
      exact List.any_eq_true.mpr ⟨f, hf, BEq.rfl⟩
    obtain ⟨e, he, hsame⟩ := List.any_eq_true.mp hkey
    rw [← any_beq_congr hsame]
    exact h.declared e he

end Capacity

namespace Net

open Capacity (KeysMatch numberUnder? numberUnder?_eq_some)
open Datum (Agree Keyed)

variable {net net' : Net} {m q : Marking} {x y : Datum} {es fs : List (Datum × Datum)}

/-! ## Reading -/

/-- Mappings that agree are read as the same marking. -/
theorem marking_of_agree (hb : net.Built) (hx : x.entries = .ok es) (hy : y.entries = .ok fs) (hfs : Keyed fs)
    (hagree : Agree es fs) (h : net.marking x = .ok m) : net.marking y = .ok m := by
  obtain ⟨_, hkeys, hvalid, hnumbers⟩ := (marking_eq_ok_iff hb hx).mp h
  refine (marking_eq_ok_iff hb hy).mpr ⟨hfs.allHashable, hkeys.of_agree hagree, hvalid, fun p => ?_⟩
  rw [numberUnder?, ← hagree]
  exact hnumbers p

/-- The keys are the places, and the value under each of them is a whole number within the capacity of its place. -/
structure Filled (net : Net) (es : List (Datum × Datum)) : Prop where
  keys : KeysMatch net.places es
  within : ∀ e ∈ es, ∀ p, (net.places.get p == e.1) = true → ∃ k : Int, e.2 = .int k ∧ 0 ≤ k ∧ k ≤ net.capacityAt p

/-- In a dictionary, what stands under a place is the value of the only entry that has the place as its key. -/
theorem admits_iff_filled (hes : Keyed es) : net.Admits es ↔ net.Filled es := by
  constructor
  · intro h
    refine ⟨h.keys, fun e he p hp => ?_⟩
    obtain ⟨k, hk, hrange⟩ := h.within p
    rw [numberUnder?_eq_some, hes.lastValue?_eq he (BEq.symm hp)] at hk
    exact ⟨k, Option.some.inj hk, hrange⟩
  · intro h
    refine ⟨hes.allHashable, h.keys, fun p => ?_⟩
    obtain ⟨e, he, hp⟩ := List.any_eq_true.mp (h.keys.covered _ (List.get_mem net.places p))
    obtain ⟨k, hk, hrange⟩ := h.within e he p (BEq.symm hp)
    have hvalue := hes.lastValue?_eq he hp
    rw [hk] at hvalue
    exact ⟨k, numberUnder?_eq_some.mpr hvalue, hrange⟩

/-- The net refuses the mapping `x` of the entries `es` as no marking. It says so if everything can be written that it
may have to show. -/
structure Refuses (net : Net) (x : Datum) (es : List (Datum × Datum)) : Prop where
  refused : Refused (net.marking x) .marking (net.Involves es)
  worded : (∀ p ∈ net.places, p.Writable) → (∀ e ∈ es, e.1.Writable ∧ e.2.Writable) →
    FailsWith (net.marking x) .marking

theorem refuses_of_not_admits (hb : net.Built) (hx : x.entries = .ok es) (hes : Keyed es) (h : ¬ net.Admits es) :
    net.Refuses x es := by
  rw [← accepted_iff hb hx, not_exists] at h
  have hrefused := marking_refused hb hx hes.hashable h
  exact ⟨hrefused, fun hplaces hentries => hrefused.failsWith fun _ hy => hy.writable hplaces hentries⟩

/-! ## Writing -/

/-- A marking of the net whose places can be keys is a dictionary. -/
theorem Owns.keyed (hb : net.Built) (hm : net.Owns m) (hhash : ∀ p ∈ m.places, p.hashable = true) :
    Keyed m.entries :=
  ⟨fun e he => hhash e.1 (List.mem_map_of_mem he), Distinct.of_list_beq hb.distinct hm.places⟩

theorem Valid.keyed (hb : net.Built) (h : net.Valid m) : Keyed m.entries :=
  h.owns.keyed hb (by rw [h.places]; exact hb.hashable)

/-- Under a place, in any spelling, stands its count. -/
theorem Owns.under_place (hb : net.Built) (hm : net.Owns m) {p : Fin net.places.length} {key : Datum}
    (hp : (net.places.get p == key) = true) : Datum.lastValue? m.entries key = some (.int (m.tokens p)) :=
  hm.lookup?_eq hb hp

theorem Owns.number_at (hb : net.Built) (hm : net.Owns m) (p : Fin net.places.length) :
    numberUnder? m.entries (net.places.get p) = some (m.tokens p) :=
  numberUnder?_eq_some.mpr (hm.under_place hb BEq.rfl)

/-- Entries agree with a marking that has the number under every place and the places as keys. -/
theorem Owns.agree_of_numbers (hb : net.Built) (hm : net.Owns m) (hkeys : KeysMatch net.places es)
    (h : ∀ p, numberUnder? es (net.places.get p) = some (m.tokens p)) : Agree es m.entries := by
  intro key
  by_cases hplace : ∃ p, (net.places.get p == key) = true
  · obtain ⟨p, hp⟩ := hplace
    rw [hm.under_place hb hp, ← Datum.lastValue?_congr hp]
    exact numberUnder?_eq_some.mp (h p)
  · have hlookup : Datum.lastValue? m.entries key = none :=
      hm.lookup?_eq_none fun p hp => hplace ⟨p, hp⟩
    rw [hlookup, Datum.lastValue?_eq_none_iff]
    intro e he
    refine Bool.eq_false_iff.mpr fun hsame => hplace ?_
    obtain ⟨p, hp, hpe⟩ := List.any_eq_true.mp (hkeys.declared e he)
    obtain ⟨i, rfl⟩ := List.mem_iff_get.mp hp
    exact ⟨i, BEq.trans hpe hsame⟩

/-- What is read has the answers of what it was read off. -/
theorem agree_of_marking (hb : net.Built) (hx : x.entries = .ok es) (h : net.marking x = .ok m) :
    Agree es m.entries := by
  obtain ⟨_, hkeys, hvalid, hnumbers⟩ := (marking_eq_ok_iff hb hx).mp h
  exact hvalid.owns.agree_of_numbers hb hkeys hnumbers

/-- Every key of a marking of the net is a place. -/
theorem Owns.place_of_entry (hm : net.Owns m) {e : Datum × Datum} (he : e ∈ m.entries) :
    ∃ p, (net.places.get p == e.1) = true := by
  by_contra hnone
  have hlookup : m.lookup? e.1 = none := hm.lookup?_eq_none fun p hp => hnone ⟨p, hp⟩
  have hself := Datum.lastValue?_eq_none_iff.mp hlookup e he
  rw [BEq.rfl] at hself
  cases hself

/-- The nets have the same places, in any order and any spelling. -/
structure SharesPlaces (net net' : Net) : Prop where
  forth : ∀ p, ∃ p', (net.places.get p == net'.places.get p') = true
  back : ∀ p', ∃ p, (net.places.get p == net'.places.get p') = true

theorem SharesPlaces.refl (net : Net) : net.SharesPlaces net :=
  ⟨fun p => ⟨p, BEq.rfl⟩, fun p => ⟨p, BEq.rfl⟩⟩

theorem Owns.keysMatch (hb : net.Built) (hm : net.Owns m) (hshare : net.SharesPlaces net') :
    KeysMatch net'.places m.entries := by
  refine ⟨fun place hplace => ?_, fun e he => ?_⟩
  · obtain ⟨p', rfl⟩ := List.mem_iff_get.mp hplace
    obtain ⟨p, hp⟩ := hshare.back p'
    rw [Datum.any_key_iff, hm.under_place hb hp]
    exact Option.some_ne_none _
  · obtain ⟨p, hp⟩ := hm.place_of_entry he
    obtain ⟨p', hp'⟩ := hshare.forth p
    exact List.any_eq_true.mpr ⟨_, List.get_mem _ p', BEq.trans (BEq.symm hp') hp⟩

/-- The counts of `m` are within the capacities of `net'`. -/
def FitsIn (net net' : Net) (m : Marking) : Prop :=
  ∀ p p', (net.places.get p == net'.places.get p') = true → 0 ≤ m.tokens p ∧ m.tokens p ≤ net'.capacityAt p'

/-- A net accepts the markings of another one with the same places that fit. -/
theorem Owns.exists_transfer (hb : net.Built) (hb' : net'.Built) (hshare : net.SharesPlaces net') (hm : net.Owns m)
    (hfit : net.FitsIn net' m) (hx : x.entries = .ok es) (hes : Keyed es) (hagree : Agree m.entries es) :
    ∃ q, net'.marking x = .ok q ∧ Agree m.entries q.entries := by
  have hadmits : net'.Admits es := by
    refine ⟨hes.allHashable, (hm.keysMatch hb hshare).of_agree hagree, fun p' => ?_⟩
    obtain ⟨p, hp⟩ := hshare.back p'
    refine ⟨m.tokens p, numberUnder?_eq_some.mpr ?_, hfit p p' hp⟩
    rw [← hagree, hm.under_place hb hp]
  obtain ⟨q, hq⟩ := (accepted_iff hb' hx).mpr hadmits
  exact ⟨q, hq, hagree.trans (agree_of_marking hb' hx hq)⟩

/-- Markings of a net that agree have the same counts. -/
theorem Owns.tokens_of_agree (hb : net.Built) (hm : net.Owns m) (hq : net.Owns q) (hagree : Agree m.entries q.entries)
    (p : Fin net.places.length) : q.tokens p = m.tokens p := by
  have hnumber := hq.number_at hb p
  rw [numberUnder?, ← hagree, ← numberUnder?, hm.number_at hb p] at hnumber
  exact (Option.some.inj hnumber).symm

theorem Within.fitsIn (hb : net.Built) (h : net.Within m) : net.FitsIn net m := by
  intro p p' hsame
  rw [← Distinct.index_eq hb.distinct hsame]
  exact h p

/-- The net reads `x` as a marking that is the same as `m`, and as `m` itself if this has the very places of the net. -/
def ReadsAs (net : Net) (x : Datum) (m : Marking) : Prop :=
  ∃ q, net.marking x = .ok q ∧ (q == m) = true ∧ (m.places = net.places → q = m)

/-- What agrees with a marking of the net is read as this marking if its counts fit. -/
theorem Owns.readsAs (hb : net.Built) (hm : net.Owns m) (hwithin : net.Within m) (hx : x.entries = .ok es)
    (hes : Keyed es) (hagree : Agree m.entries es) : net.ReadsAs x m := by
  obtain ⟨q, hq, hsame⟩ := hm.exists_transfer hb hb (.refl net) (hwithin.fitsIn hb) hx hes hagree
  have hvalid := valid_of_marking hq
  have htokens := hm.tokens_of_agree hb hvalid.owns hsame
  refine ⟨q, hq, (hvalid.owns.beq_iff hm).mpr htokens, fun hplaces => ?_⟩
  exact hvalid.owns.eq_of_tokens hm (hvalid.places.trans hplaces.symm) htokens

/-- A marking of the net some count of which does not fit is refused. -/
theorem Owns.refuses (hb : net.Built) (hm : net.Owns m) (hkeyed : Keyed m.entries) (hwithin : ¬ net.Within m) :
    net.Refuses m.toDatum m.entries := by
  refine refuses_of_not_admits hb rfl hkeyed fun hadmits => hwithin fun p => ?_
  obtain ⟨k, hk, hrange⟩ := hadmits.within p
  rw [hm.number_at hb p, Option.some.injEq] at hk
  rw [hk]
  exact hrange

/-! ## The codec -/

/-- The marking `m` says what the dictionary `es` says: it has the same answers, whole numbers at the places, and it is
read off `es` in any order, off the dictionary that it is written as, and off itself. -/
structure Decodes (net : Net) (es : List (Datum × Datum)) (m : Marking) : Prop where
  answers : ∀ key, m.countAt key = (Datum.dict es).valueAt key
  counts : ∀ p, m.countAt (net.places.get p) = .ok (.int (m.tokens p))
  reordered : ∀ es', es.Perm es' → net.marking (.dict es') = .ok m
  written : net.marking (.dict m.toTable.entries) = .ok m
  again : net.marking m.toDatum = .ok m

theorem Owns.countAt_eq (hb : net.Built) (hm : net.Owns m) (p : Fin net.places.length) :
    m.countAt (net.places.get p) = .ok (.int (m.tokens p)) := by
  have hhash := hb.hashable _ (List.get_mem net.places p)
  exact (Datum.valueAt_of_entries m.entries_toDatum hhash).mpr (numberUnder?_eq_some.mp (hm.number_at hb p))

theorem decodes_of_marking (hb : net.Built) (hes : Keyed es) (h : net.marking (.dict es) = .ok m) :
    net.Decodes es m := by
  have hvalid := valid_of_marking h
  have hkeyed := hvalid.keyed hb
  have hagree := agree_of_marking hb rfl h
  refine ⟨hagree.symm.valueAt_eq rfl rfl, hvalid.owns.countAt_eq hb, fun es' hperm => ?_, ?_,
    marking_of_valid hb hvalid⟩
  · exact marking_of_agree hb rfl rfl (hes.perm hperm) (hes.agree_perm hperm) h
  · rw [Marking.toTable, Table.entries_ofList hkeyed.distinct]
    exact marking_of_agree hb rfl rfl hkeyed hagree h

/-- **Validation is an exact codec.** A dictionary is accepted exactly if its keys are the places and its values are
whole numbers from zero to the capacities, and is refused as no marking otherwise, which is also said if what is refused
can be written; what is read off it says what it says, in any order of its entries, and can be written and read again. A
marking of the net, whoever made it, is read as itself exactly if its counts fit. A net with the same places in another
order, whose capacities admit the counts, reads the same count under every name, and what it read is read back as the
marking that it came from. -/
theorem marking_codec (hb : net.Built) :
    (∀ es, Keyed es → ((∃ m, net.marking (.dict es) = .ok m) ↔ net.Filled es) ∧
      (¬ net.Filled es → net.Refuses (.dict es) es) ∧
      ∀ m, net.marking (.dict es) = .ok m → net.Decodes es m) ∧
    (∀ m, net.Owns m → (∀ p ∈ m.places, p.hashable = true) →
      (net.Within m → net.ReadsAs m.toDatum m) ∧
      (¬ net.Within m → net.Refuses m.toDatum m.entries)) ∧
    ∀ net' m, net'.Built → net.SharesPlaces net' → net.Owns m → (∀ p ∈ m.places, p.hashable = true) →
      net.Within m → net.FitsIn net' m → ∃ m', net'.marking m.toDatum = .ok m' ∧
        (∀ key, m'.countAt key = m.countAt key) ∧ net.ReadsAs m'.toDatum m := by
  refine ⟨fun es hes => ⟨?_, fun hfilled => ?_, fun m h => decodes_of_marking hb hes h⟩,
    fun m hm hhash => ⟨fun hwithin => ?_, hm.refuses hb (hm.keyed hb hhash)⟩,
    fun net' m hb' hshare hm hhash hwithin hfit => ?_⟩
  · rw [accepted_iff hb rfl, admits_iff_filled hes]
  · exact refuses_of_not_admits hb rfl hes fun hadmits => hfilled ((admits_iff_filled hes).mp hadmits)
  · exact hm.readsAs hb hwithin rfl (hm.keyed hb hhash) fun _ => rfl
  · obtain ⟨m', hm', hagree⟩ := hm.exists_transfer hb hb' hshare hfit m.entries_toDatum (hm.keyed hb hhash) fun _ => rfl
    have hkeyed' := (valid_of_marking hm').keyed hb'
    exact ⟨m', hm', hagree.symm.valueAt_eq rfl rfl, hm.readsAs hb hwithin rfl hkeyed' hagree⟩

/-- A count that is too long to be written cannot be refused as no marking: the tank is asked to hold it, by a
dictionary or by a marking made by hand, and what fails is the message. -/
theorem reservoir_refuses_tooLong :
    reservoir.Built ∧ Keyed [(.str "tank", .int Text.tooLong)] ∧
      ¬ reservoir.Filled [(.str "tank", .int Text.tooLong)] ∧
      ¬ FailsWith (reservoir.marking (.dict [(.str "tank", .int Text.tooLong)])) .marking ∧
      reservoir.Owns (tankAt Text.tooLong) ∧ ¬ reservoir.Within (tankAt Text.tooLong) ∧
      ¬ FailsWith (reservoir.marking (tankAt Text.tooLong).toDatum) .marking := by
  have hfails : ∀ x : Datum, x.entries = .ok [(.str "tank", .int Text.tooLong)] →
      ¬ FailsWith (reservoir.marking x) .marking := by
    intro x hx
    rw [marking_eq_noNumeral reservoir_built hx rfl (by decide) (p := ⟨0, by decide⟩) (n := Text.tooLong) rfl
      Datum.not_writable_tooLong (fun q hq => nomatch hq)]
    exact not_failsWith_value
  have hrange : ¬ (0 ≤ Text.tooLong ∧ Text.tooLong ≤ 20) := fun hrange =>
    Datum.not_writable_tooLong (Datum.writable_int_of_word (by omega) (by omega))
  refine ⟨reservoir_built, ⟨by decide, List.pairwise_singleton ..⟩, fun hfilled => ?_, hfails _ rfl,
    ⟨rfl, by simp [tankAt, Marking.counts]⟩, fun hwithin => hrange (hwithin ⟨0, by decide⟩), hfails _ rfl⟩
  obtain ⟨k, hk, hwithin⟩ := hfilled.within _ List.mem_cons_self ⟨0, by decide⟩ rfl
  obtain rfl := Datum.int.inj hk
  exact hrange hwithin

/-- The shelf with its compartments in another order, the number 1 spelled as a truth value, and less room. -/
def turnedShelf : Net where
  places := [.str "one", .null, .bool true]
  transitions := [.str "unpack"]
  capacity := #v[3, 3, 3]
  weights := #v[⟨#v[0, 0, 1], #v[4, 0, 0]⟩]

theorem turnedShelf_built : turnedShelf.Built :=
  ⟨.list [.str "one", .null, .bool true], .list [.str "unpack"],
    [⟨.bool true, .str "unpack", 1, .pre, by decide⟩, ⟨.str "one", .str "unpack", 4, .post, by decide⟩],
    .null, .int 3, by with_unfolding_all rfl⟩

theorem shelf_writable : ∀ p ∈ shelf.places, p.Writable := by
  decide

/-- A dictionary in an order of its own, one with a truth value for a count, and markings made by hand. -/
theorem marking_codec_shelf :
    shelf.Decodes [(.str "one", .int 2), (.null, .int 3), (.bool true, .int 1)] (shelfAt 1 2 3) ∧
      FailsWith (shelf.marking (.dict [(.int 1, .bool true), (.str "one", .int 2), (.null, .int 3)])) .marking ∧
      shelf.ReadsAs (shelfAt 1 2 3).toDatum (shelfAt 1 2 3) ∧
      FailsWith (shelf.marking (shelfAt 1 2 10).toDatum) .marking ∧
      ∃ m', turnedShelf.marking (shelfAt 1 2 3).toDatum = .ok m' ∧
        (∀ key, m'.countAt key = (shelfAt 1 2 3).countAt key) ∧ shelf.ReadsAs m'.toDatum (shelfAt 1 2 3) := by
  obtain ⟨hdict, hmarking, htransfer⟩ := marking_codec shelf_built
  have hhash : ∀ counts : Marking, counts.places = shelf.places → ∀ p ∈ counts.places, p.hashable = true := by
    intro counts h
    rw [h]
    exact shelf_built.hashable
  have hread : Keyed [(.str "one", .int 2), (.null, .int 3), (.bool true, .int 1)] :=
    ⟨by decide, by decide⟩
  have htrue : Keyed [(.int 1, .bool true), (.str "one", .int 2), (.null, .int 3)] :=
    ⟨by decide, by decide⟩
  refine ⟨(hdict _ hread).2.2 _ (by with_unfolding_all rfl),
    ((hdict _ htrue).2.1 fun hfilled => ?_).worded shelf_writable (by decide),
    (hmarking _ (shelfAt_owns 1 2 3) (hhash _ rfl)).1 (by decide),
    ((hmarking _ (shelfAt_owns 1 2 10) (hhash _ rfl)).2 (by decide)).worded shelf_writable (by decide),
    htransfer turnedShelf _ turnedShelf_built ⟨by decide, by decide⟩ (shelfAt_owns 1 2 3) (hhash _ rfl) (by decide)
      (by unfold FitsIn; decide)⟩
  obtain ⟨k, hk, _⟩ := hfilled.within (.int 1, .bool true) List.mem_cons_self ⟨0, by decide⟩ rfl
  cases hk

end Net

end Petri
