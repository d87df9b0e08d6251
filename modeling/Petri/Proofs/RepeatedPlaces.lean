import Mathlib.Data.List.Basic
import Mathlib.Data.List.Induction
import Petri.Domain
import Petri.Proofs.Codec
import Petri.Proofs.SoundGraphs

/-!
# Markings that repeat places

A marking made by hand may name a place repeatedly, in one spelling or in several. It keeps all the entries, and of a
place that is repeated the last one counts. Two tables are made of it: that of the positions of its places, and the
dictionary that it is written as. Neither is made of the other, but both are written pair by pair, with positions or
with counts, so that what one write does settles what both of them say:

> `Table.get?_ofList`: in a table that is written pair by pair stands what the last pair with the key says;
> `Table.keys_ofList`: its keys are the keys of the pairs without repetitions, in the order in which they first came;
> `LastAt.findRev?_zip`: the last pair with a key is the one at the last position of the key, whatever is paired;
> `mapping_coherent`: **a marking is one mapping**, whichever of the tables it is read by.
-/

namespace Petri

/-! ## Tables written pair by pair -/

namespace Table

variable {κ β : Type} [BEq κ]

theorem ofList_concat (pairs : List (κ × β)) (e : κ × β) : ofList (pairs ++ [e]) = (ofList pairs).put e.1 e.2 := by
  rw [ofList, ofList, List.foldl_append]
  rfl

/-- What stands under a key is what the last pair with the key says. -/
theorem get?_ofList [PartialEquivBEq κ] (pairs : List (κ × β)) (key : κ) :
    (ofList pairs).get? key = (pairs.findRev? fun e => e.1 == key).map (·.2) := by
  induction pairs using List.reverseRecOn with
  | nil => rfl
  | append_singleton pairs e ih =>
    rw [ofList_concat, List.findRev?_eq_find?_reverse, List.reverse_concat, List.find?_cons]
    cases hkey : e.1 == key with
    | true => exact get?_put_of_beq hkey
    | false => rw [get?_put_of_ne _ _ hkey, ih, List.findRev?_eq_find?_reverse]

/-- A repeated key keeps the spelling and the place of its first pair. -/
theorem keys_ofList [PartialEquivBEq κ] (pairs : List (κ × β)) :
    (ofList pairs).keys = (pairs.map (·.1)).eraseDups := by
  induction pairs using List.reverseRecOn with
  | nil => rfl
  | append_singleton pairs e ih =>
    rw [ofList_concat, put, keys_upsert, contains_eq_any_keys, ih, any_eraseDups, List.map_append, List.map_singleton,
      eraseDups_concat]

theorem contains_ofList [PartialEquivBEq κ] (pairs : List (κ × β)) (key : κ) :
    (ofList pairs).contains key = (pairs.map (·.1)).any (· == key) := by
  rw [contains_eq_any_keys, keys_ofList, any_eraseDups]

theorem get?_eq_none_iff {t : Table κ β} {key : κ} : t.get? key = none ↔ t.contains key = false := by
  rw [contains_eq_isSome, Option.isSome_eq_false_iff, Option.isNone_iff_eq_none]

end Table

/-! ## Last positions -/

/-- The key stands at position `i`, in whatever spelling, and at no later one. -/
structure LastAt {α : Type} [BEq α] (xs : List α) (key : α) (i : Fin xs.length) : Prop where
  here : (xs.get i == key) = true
  later : ∀ j, i < j → (xs.get j == key) = false

section

variable {α β : Type} [BEq α] {xs : List α} {key : α}

/-- What has a position has a last one. -/
theorem exists_lastAt (h : ∃ i, (xs.get i == key) = true) : ∃ i, LastAt xs key i := by
  induction xs with
  | nil => exact h.elim fun i _ => i.elim0
  | cons x xs ih =>
    by_cases hrest : ∃ i, (xs.get i == key) = true
    · obtain ⟨i, hi⟩ := ih hrest
      refine ⟨i.succ, hi.here, fun j hj => ?_⟩
      cases j using Fin.cases with
      | zero => exact absurd hj (Fin.not_lt_zero _)
      | succ j => exact hi.later j (Fin.succ_lt_succ_iff.mp hj)
    · -- the key stands at the front and nowhere else
      obtain ⟨i, hi⟩ := h
      cases i using Fin.cases with
      | succ i => exact absurd ⟨i, hi⟩ hrest
      | zero =>
        refine ⟨0, hi, fun j hj => ?_⟩
        cases j using Fin.cases with
        | zero => exact absurd hj (Nat.lt_irrefl _)
        | succ j => exact Bool.eq_false_iff.mpr fun hsame => hrest ⟨j, hsame⟩

theorem LastAt.unique {i j : Fin xs.length} (hi : LastAt xs key i) (hj : LastAt xs key j) : i = j := by
  rcases lt_trichotomy i j with hlt | heq | hlt
  · have hnot := hi.later j hlt
    rw [hj.here] at hnot
    cases hnot
  · exact heq
  · have hnot := hj.later i hlt
    rw [hi.here] at hnot
    cases hnot

/-- The last pair with the key is the one at the last position of the key. -/
theorem LastAt.findRev?_zip {i : Fin xs.length} (h : LastAt xs key i) {values : List β} {value : β}
    (hvalue : values[(i : Nat)]? = some value) :
    (xs.zip values).findRev? (fun e => e.1 == key) = some (xs.get i, value) := by
  induction xs generalizing values with
  | nil => exact i.elim0
  | cons x xs ih =>
    cases values with
    | nil => cases hvalue
    | cons first values =>
      rw [List.zip_cons_cons, List.findRev?]
      cases i using Fin.cases with
      | zero =>
        obtain rfl : first = value := Option.some.inj hvalue
        -- no later pair has the key, so that the search comes back to the first one
        have hnone : (xs.zip values).findRev? (fun e => e.1 == key) = none := by
          rw [List.findRev?_eq_find?_reverse, List.find?_eq_none]
          intro e he
          obtain ⟨j, hj⟩ := List.mem_iff_get.mp (List.of_mem_zip (List.mem_reverse.mp he)).1
          rw [← hj, Bool.not_eq_true]
          exact h.later j.succ (Fin.succ_pos j)
        have hhere : (x == key) = true := h.here
        rw [hnone, hhere]
        rfl
      | succ i =>
        have hrest : LastAt xs key i := ⟨h.here, fun j hj => h.later j.succ (Fin.succ_lt_succ_iff.mpr hj)⟩
        rw [ih hrest hvalue]
        rfl

/-- Of the positions that a key has, the table of positions keeps the last one. -/
theorem LastAt.get?_positions [PartialEquivBEq α] {i : Fin xs.length} (h : LastAt xs key i) :
    (Table.ofList xs.zipIdx).get? key = some (i : Nat) := by
  have hposition : (List.range' 0 xs.length)[(i : Nat)]? = some (i : Nat) := by
    rw [List.getElem?_range' i.isLt, Nat.zero_add, Nat.one_mul]
  rw [Table.get?_ofList, List.zipIdx_eq_zip_range', h.findRev?_zip hposition]
  rfl

theorem contains_positions [PartialEquivBEq α] (xs : List α) (key : α) :
    (Table.ofList xs.zipIdx).contains key = xs.any (· == key) := by
  rw [Table.contains_ofList, List.zipIdx_map_fst]

end

namespace Marking

/-! ## The two tables of a marking -/

variable {m : Marking} {key count : Datum}

/-- Places that can be keys make a marking with as many counts. -/
theorem exists_make {places counts : List Datum} (hlen : counts.length = places.length)
    (hhash : ∀ p ∈ places, p.hashable = true) :
    ∃ m, make places counts = .ok m ∧ m.places = places ∧ m.counts = counts := by
  refine ⟨⟨places.zip counts⟩, ?_, List.map_fst_zip hlen.ge, List.map_snd_zip hlen.le⟩
  rw [make, ofCounts, if_pos hlen, ok_bind, if_pos (Datum.allHashable_iff.mpr hhash)]
  rfl

theorem entries_eq_zip (m : Marking) : m.entries = m.places.zip m.counts :=
  List.zip_of_prod rfl rfl

/-- The dictionary that a marking is written as has the counts of the marking. -/
theorem get?_toTable (m : Marking) (key : Datum) : m.toTable.get? key = m.lookup? key :=
  Table.get?_ofList m.entries key

theorem keys_toTable (m : Marking) : m.toTable.keys = m.places.eraseDups :=
  Table.keys_ofList m.entries

theorem contains_toTable (m : Marking) (key : Datum) : m.toTable.contains key = m.places.any (· == key) :=
  Table.contains_ofList m.entries key

theorem lookup?_of_lastAt {i : Fin m.places.length} (h : LastAt m.places key i)
    (hcount : m.counts[(i : Nat)]? = some count) : m.lookup? key = some count := by
  rw [lookup?, Datum.lastValue?, entries_eq_zip, h.findRev?_zip hcount]
  rfl

theorem lookup?_eq_none_iff : m.lookup? key = none ↔ m.places.any (· == key) = false := by
  rw [← get?_toTable, Table.get?_eq_none_iff, contains_toTable]

theorem contains_eq (m : Marking) (hkey : key.hashable = true) :
    m.contains key = .ok (m.places.any (· == key)) := by
  rw [contains, Datum.contains_of_entries m.entries_toDatum hkey, places, List.any_map]
  rfl

theorem countAt_eq_ok_iff (hkey : key.hashable = true) : m.countAt key = .ok count ↔ m.lookup? key = some count :=
  Datum.valueAt_of_entries m.entries_toDatum hkey

theorem countAt_of_lookup?_none (hkey : key.hashable = true) (h : m.lookup? key = none) :
    m.countAt key = .error (.absentKey key) := by
  rw [lookup?] at h
  rw [countAt, toDatum, Datum.valueAt, Datum.requireHashable_eq_ok.mpr hkey, ok_bind, h]
  rfl

theorem getD_eq (hkey : key.hashable = true) (default : Datum) :
    m.getD key default = .ok ((m.lookup? key).getD default) := by
  rw [getD, toDatum, Datum.valueOr, Datum.requireHashable_eq_ok.mpr hkey]
  rfl

/-! ## One mapping -/

/-- Whatever `key` is asked of is answered by the count at position `i`: the marking, with a default or without, the
table `index` of positions, and the dictionary. -/
structure Tells (m : Marking) (index : Table Datum Nat) (key count : Datum) (i : Nat) : Prop where
  counts : m.counts[i]? = some count
  index : index.get? key = some i
  countAt : m.countAt key = .ok count
  getD : ∀ default, m.getD key default = .ok count
  table : m.toTable.get? key = some count

/-- Nothing stands under `key`: it is absent from the marking, which has nothing but the default, and from both
tables. -/
structure Lacks (m : Marking) (index : Table Datum Nat) (key : Datum) : Prop where
  contains : m.contains key = .ok false
  index : index.get? key = none
  countAt : m.countAt key = .error (.absentKey key)
  getD : ∀ default, m.getD key default = .ok default
  table : m.toTable.get? key = none

/-- For `key` the marking is one mapping: it has the key exactly if the key has a position, and so have both tables. The
last position decides what all of them tell. -/
structure CoherentAt (m : Marking) (index : Table Datum Nat) (key : Datum) : Prop where
  contains_iff : m.contains key = .ok true ↔ ∃ i, (m.places.get i == key) = true
  index_iff : index.contains key = true ↔ ∃ i, (m.places.get i == key) = true
  table_iff : m.toTable.contains key = true ↔ ∃ i, (m.places.get i == key) = true
  tells : (∃ i, (m.places.get i == key) = true) → ∃ i count, LastAt m.places key i ∧ m.Tells index key count i
  lacks : (¬ ∃ i, (m.places.get i == key) = true) → m.Lacks index key

theorem tells_of_lastAt {i : Fin m.places.length} (hkey : key.hashable = true) (h : LastAt m.places key i)
    (hcount : m.counts[(i : Nat)]? = some count) : m.Tells (.ofList m.places.zipIdx) key count i := by
  have hlookup := lookup?_of_lastAt h hcount
  refine ⟨hcount, h.get?_positions, (countAt_eq_ok_iff hkey).mpr hlookup, fun default => ?_, ?_⟩
  · rw [getD_eq hkey, hlookup, Option.getD_some]
  · rw [get?_toTable, hlookup]

theorem lacks_of_missing (hkey : key.hashable = true) (h : m.places.any (· == key) = false) :
    m.Lacks (.ofList m.places.zipIdx) key := by
  have hlookup := lookup?_eq_none_iff.mpr h
  refine ⟨?_, ?_, countAt_of_lookup?_none hkey hlookup, fun default => ?_, ?_⟩
  · rw [contains_eq m hkey, h]
  · rw [Table.get?_eq_none_iff, contains_positions, h]
  · rw [getD_eq hkey, hlookup, Option.getD_none]
  · rw [get?_toTable, hlookup]

theorem coherentAt (m : Marking) (hkey : key.hashable = true) : m.CoherentAt (.ofList m.places.zipIdx) key := by
  have hany : m.places.any (· == key) = true ↔ ∃ i, (m.places.get i == key) = true := by
    rw [List.any_eq_true]
    exact List.exists_mem_iff_get
  refine ⟨?_, ?_, ?_, fun h => ?_, fun h => ?_⟩
  · rw [contains_eq m hkey, Except.ok.injEq, hany]
  · rw [contains_positions, hany]
  · rw [contains_toTable, hany]
  · obtain ⟨i, hi⟩ := exists_lastAt h
    have hlt : (i : Nat) < m.counts.length := by
      rw [length_counts]
      exact i.isLt
    exact ⟨i, _, hi, tells_of_lastAt hkey hi (List.getElem?_eq_getElem hlt)⟩
  · rw [← hany, Bool.not_eq_true] at h
    exact lacks_of_missing hkey h

/-- **A marking is one mapping.** Places that can be keys, with as many counts, make a marking, also if they repeat each
other. It has what stands among its places, in any spelling, and nothing else; the count at the last position is what it
tells, by the table of positions as by the dictionary that it is written as. The dictionary has an entry for every
place that repeats no earlier one, hence as many as there are places exactly if none of them does. -/
theorem mapping_coherent {places counts : List Datum} (hlen : counts.length = places.length)
    (hhash : ∀ p ∈ places, p.hashable = true) :
    ∃ m index, make places counts = .ok m ∧ Domain.indexTable places = .ok index ∧
      m.places = places ∧ m.counts = counts ∧ (∀ key, key.hashable = true → m.CoherentAt index key) ∧
      m.toTable.keys = places.eraseDups ∧ m.toTable.entries.length = places.eraseDups.length ∧
      (m.toTable.entries.length = m.places.length ↔ Distinct places) := by
  obtain ⟨m, hmake, rfl, rfl⟩ := exists_make hlen hhash
  have hindex : Domain.indexTable m.places = .ok (.ofList m.places.zipIdx) :=
    if_pos (Datum.allHashable_iff.mpr hhash)
  have hlength : m.toTable.entries.length = m.places.eraseDups.length := by
    rw [← keys_toTable, Table.keys, List.length_map]
  refine ⟨m, _, hmake, hindex, rfl, rfl, fun key => m.coherentAt, m.keys_toTable, hlength, ?_⟩
  rw [hlength, length_eraseDups_eq_iff]

/-- A ledger of four entries: a text comes twice, and so does a number, the second time as a truth value. -/
def ledger : Marking :=
  ⟨[(.str "a", .int 10), (.int 1, .int 20), (.str "a", .int 30), (.bool true, .int 40)]⟩

/-- The later entries count, the number is found in both spellings, and two entries are left in the dictionary. -/
theorem mapping_coherent_ledger :
    (∃ index, Domain.indexTable ledger.places = .ok index ∧ ledger.Tells index (.str "a") (.int 30) 2 ∧
      ledger.Tells index (.int 1) (.int 40) 3 ∧ ledger.Lacks index (.str "b")) ∧
      ledger.toTable.keys = [.str "a", .int 1] ∧ ledger.toTable.entries.length ≠ ledger.places.length := by
  obtain ⟨m, index, hmake, hindex, _, _, hcoherent, hkeys, _, hlength⟩ :=
    @mapping_coherent ledger.places ledger.counts rfl (by decide)
  obtain rfl : ledger = m := Except.ok.inj hmake
  have hrepeats : ¬ Distinct ledger.places := by decide
  have htext : LastAt ledger.places (.str "a") ⟨2, by decide⟩ := ⟨by decide, by decide⟩
  have hnumber : LastAt ledger.places (.int 1) ⟨3, by decide⟩ := ⟨by decide, by decide⟩
  have htells : ∀ {key count i}, key.hashable = true → LastAt ledger.places key i →
      ledger.counts[(i : Nat)]? = some count → ledger.Tells index key count i := by
    intro key count i hkey hi hcount
    obtain ⟨j, count', hj, htells⟩ := (hcoherent key hkey).tells ⟨i, hi.here⟩
    obtain rfl := hj.unique hi
    obtain rfl : count' = count := Option.some.inj (htells.counts.symm.trans hcount)
    exact htells
  refine ⟨⟨index, hindex, htells rfl htext rfl, htells rfl hnumber rfl, (hcoherent _ rfl).lacks (by decide)⟩, hkeys, ?_⟩
  exact fun h => hrepeats (hlength.mp h)

end Marking

end Petri
