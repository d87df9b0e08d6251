import Petri.Proofs.Stages

/-!
# The order of declared identifiers

Identifiers get their positions from a domain. A list is taken as it stands, and what it repeats is refused. A set has
no order, so its members are put in the order of their labels; that gives every label its position, but members with
equal labels stay as they were enumerated:

> `Datum.sortByLabel_eq_of_perm`: if the labels tell the members apart, the order of enumeration is forgotten;
> `Datum.exists_perm_sortByLabel_ne`: two members with one label keep their order, so that it is not;
> `Domain.checkDistinct_eq_error`: in a list, the first identifier that repeats an earlier one is named;
> `normalize_order`: **what a declared domain becomes**, for sets and for lists.

Members of a set that cannot be written have no label, and an identifier that cannot be written cannot be named
(`normalize_tooLong`).
-/

namespace Petri

namespace Domain

variable {declared : Datum} {xs : List Datum} {kind : String}

/-! ## Domains -/

/-- The value is a set, of either kind, whose members are enumerated as `xs`. -/
inductive Enumerates : (declared : Datum) → (xs : List Datum) → Prop
  | set (xs : List Datum) : Enumerates (.set xs) xs
  | frozenset (xs : List Datum) : Enumerates (.frozenset xs) xs

/-- The value is a list or a tuple of the items `xs`. -/
inductive Lists : (declared : Datum) → (xs : List Datum) → Prop
  | list (xs : List Datum) : Lists (.list xs) xs
  | tuple (xs : List Datum) : Lists (.tuple xs) xs

theorem Enumerates.sequence_eq (h : Enumerates declared xs) : sequence declared = Datum.sortByLabel xs := by
  cases h <;> rfl

theorem Lists.sequence_eq (h : Lists declared xs) : sequence declared = .ok xs := by
  cases h <;> rfl

/-- A set becomes the list of its members in order of their labels. -/
theorem Enumerates.normalize_eq (h : Enumerates declared xs) (hhash : ∀ x ∈ xs, x.hashable = true)
    (hdistinct : Distinct xs) : normalize declared kind = liftM (Datum.sortByLabel xs) := by
  cases hsort : Datum.sortByLabel xs with
  | ok ys =>
    have hperm := Datum.sortByLabel_perm hsort
    exact normalize_distinct (h.sequence_eq.trans hsort) (fun x hx => hhash x (hperm.mem_iff.mp hx))
      (hdistinct.perm hperm.symm)
  | error e =>
    rw [normalize, h.sequence_eq, hsort]
    rfl

/-- Members that have one label only if they are the same are told apart by their labels. -/
theorem eq_of_label_eq (hdistinct : Distinct xs)
    (hlabels : ∀ x ∈ xs, ∀ y ∈ xs, (x == y) = false → x.label? ≠ y.label?) :
    ∀ x ∈ xs, ∀ y ∈ xs, x.label? = y.label? → x = y := by
  intro x hx y hy hlabel
  cases hxy : x == y with
  | true => exact hdistinct.eq_of_beq hx hy hxy
  | false => exact absurd hlabel (hlabels x hx y hy hxy)

/-- The order in which a set is enumerated is forgotten exactly if no two of its members have one label. -/
theorem reproducible_iff (hhash : ∀ x ∈ xs, x.hashable = true) (hwritable : ∀ x ∈ xs, x.Writable)
    (hdistinct : Distinct xs) :
    (∀ xs' declared declared', xs'.Perm xs → Enumerates declared xs → Enumerates declared' xs' →
        normalize declared' kind = normalize declared kind) ↔
      ∀ x ∈ xs, ∀ y ∈ xs, (x == y) = false → x.label? ≠ y.label? := by
  have hnormalize : ∀ {declared xs'}, xs'.Perm xs → Enumerates declared xs' →
      normalize declared kind = liftM (Datum.sortByLabel xs') := fun hperm henum =>
    henum.normalize_eq (fun x hx => hhash x (hperm.mem_iff.mp hx)) (hdistinct.perm hperm.symm)
  constructor
  · intro hsame x hx y hy hne hlabel
    have hdiffer : x ≠ y := by
      rintro rfl
      rw [BEq.rfl] at hne
      cases hne
    obtain ⟨ys, zs, hys, hzs, hno⟩ :=
      Datum.exists_perm_sortByLabel_ne hwritable hdistinct.nodup hx hy hdiffer hlabel
    have hys' := hsame ys _ _ hys (.set xs) (.set ys)
    have hzs' := hsame zs _ _ hzs (.set xs) (.set zs)
    rw [← hzs', hnormalize hys (.set ys), hnormalize hzs (.set zs)] at hys'
    exact hno (liftM_inj hys')
  · intro hlabels xs' declared declared' hperm henum henum'
    rw [hnormalize hperm henum', hnormalize (List.Perm.refl xs) henum,
      Datum.sortByLabel_eq_of_perm hperm.symm hwritable (eq_of_label_eq hdistinct hlabels)]

/-- Of a list with repetitions the first one is named. -/
theorem Lists.exists_repeated (h : Lists declared xs) (hhash : ∀ x ∈ xs, x.hashable = true) (hrepeats : ¬ Distinct xs) :
    ∃ before x after, xs = before ++ x :: after ∧ Distinct before ∧ before.any (· == x) = true ∧
      normalize declared kind = (Fault.repeatedIdentifier kind x).raise := by
  have hrefused : checkDistinct kind [] xs ≠ .ok () := fun hok => hrepeats ((checkDistinct_eq_ok kind xs []).mp hok).2
  obtain ⟨before, x, after, hxs, hbefore, hx, herror⟩ := checkDistinct_eq_error hhash hrefused
  refine ⟨before, x, after, hxs, ((checkDistinct_eq_ok kind before []).mp hbefore).2, ?_, ?_⟩
  · rw [List.append_nil, List.any_reverse] at hx
    exact hx
  · rw [Domain.normalize_eq h.sequence_eq, herror, Fault.raise_bind]

/-- **What a declared domain becomes.** A set of identifiers that can be written is never refused; its members come out
in order of their labels, and in the same order for every order of enumeration exactly if no two different members have
one label. A list of identifiers is kept if no two of them are the same. Otherwise it is refused as a faulty domain,
and the first identifier that is the same as an earlier one is named. What cannot be written has no label and no name,
and a domain fails for that as soon as one is needed. -/
theorem normalize_order (kind : String) (hhash : ∀ x ∈ xs, x.hashable = true) :
    (Distinct xs →
        ((∀ x ∈ xs, x.Writable) →
          (∀ declared, Enumerates declared xs → ∃ ys, normalize declared kind = .ok ys ∧ ys.Perm xs ∧
            Datum.Ascending ys) ∧
          ((∀ xs' declared declared', xs'.Perm xs → Enumerates declared xs → Enumerates declared' xs' →
              normalize declared' kind = normalize declared kind) ↔
            ∀ x ∈ xs, ∀ y ∈ xs, (x == y) = false → x.label? ≠ y.label?)) ∧
        ((¬ ∀ x ∈ xs, x.Writable) → ∀ declared, Enumerates declared xs →
          normalize declared kind = .error (.value .noNumeral))) ∧
      ∀ declared, Lists declared xs →
        (Distinct xs → normalize declared kind = .ok xs) ∧
        (¬ Distinct xs → ∃ before x after fault, xs = before ++ x :: after ∧ Distinct before ∧
          before.any (· == x) = true ∧ fault = .repeatedIdentifier kind x ∧ fault.class? = some .domain ∧
          (x.Writable → normalize declared kind = .error fault) ∧
          (¬ x.Writable → normalize declared kind = .error (.value .noNumeral))) := by
  refine ⟨fun hdistinct => ⟨fun hwritable => ⟨fun declared henum => ?_, reproducible_iff hhash hwritable hdistinct⟩,
    fun hlong declared henum => ?_⟩,
    fun declared hlist => ⟨normalize_distinct hlist.sequence_eq hhash, fun hrepeats => ?_⟩⟩
  · obtain ⟨ys, hsort, _⟩ := Datum.sortByLabel_eq hwritable
    refine ⟨ys, ?_, Datum.sortByLabel_perm hsort, Datum.ascending_sortByLabel hsort⟩
    rw [henum.normalize_eq hhash hdistinct, hsort, liftM_ok]
  · rw [henum.normalize_eq hhash hdistinct, Datum.sortByLabel_eq_error hlong]
    rfl
  · obtain ⟨before, x, after, hxs, hbefore, hx, hraise⟩ := hlist.exists_repeated hhash hrepeats
    have hworded : (Fault.repeatedIdentifier kind x).Worded ↔ x.Writable := by simp [Fault.Worded, Fault.shown]
    refine ⟨before, x, after, _, hxs, hbefore, hx, rfl, rfl, fun hwritable => ?_, fun hlong => ?_⟩
    · rw [hraise, Fault.raise_of_worded rfl (hworded.mpr hwritable)]
    · rw [hraise, Fault.raise_of_not_worded rfl (hlong ∘ hworded.mp)]

/-- A number that is too long to be written: a list that repeats it is not refused as a faulty domain, and a set of it
becomes no domain at all. -/
theorem normalize_tooLong :
    ¬ Distinct [Datum.int Text.tooLong, .int Text.tooLong] ∧
      ¬ FailsWith (normalize (.list [.int Text.tooLong, .int Text.tooLong]) "place") .domain ∧
      ∀ ys, normalize (.set [.int Text.tooLong]) "place" ≠ .ok ys := by
  have hrepeats : ∀ x : Datum, ¬ Distinct [x, x] := fun x h => by simp [Distinct] at h
  have hhash : ∀ n : Int, ∀ x ∈ [Datum.int n, Datum.int n], x.hashable = true := by simp [Datum.hashable]
  refine ⟨hrepeats _, ?_, fun ys => ?_⟩
  · obtain ⟨before, x, after, hxs, _, _, hraise⟩ :=
      (Lists.list [.int Text.tooLong, .int Text.tooLong]).exists_repeated (hhash _) (hrepeats _)
    obtain rfl : x = .int Text.tooLong := by
      have hx : x ∈ [Datum.int Text.tooLong, .int Text.tooLong] := hxs ▸ List.mem_append_right _ List.mem_cons_self
      simpa using hx
    rw [hraise, Fault.raise_of_not_worded rfl fun hworded =>
      Datum.not_writable_tooLong (hworded _ (by simp [Fault.shown]))]
    exact not_failsWith_value
  · rw [(Enumerates.set [.int Text.tooLong]).normalize_eq (by simp [Datum.hashable]) (List.pairwise_singleton ..),
      Datum.sortByLabel_eq_error fun hwritable => Datum.not_writable_tooLong (hwritable _ List.mem_cons_self)]
    show (Except.error (.value .noNumeral) : Except Fault (List Datum)) ≠ .ok ys
    simp

/-- Identifiers of three lengths and two kinds. -/
def assorted : List Datum :=
  [.int 2, .tuple [.str "a", .str "b"], .int 10]

/-- Labels are compared as texts: the pair of two texts comes before the numbers, and ten before two. The number one and
its text have one label, so a set of the two becomes a domain, and its order of enumeration shows. In a list the truth
value is the same identifier as the number, and it is named before the repeated text is reached. -/
theorem normalize_order_one :
    normalize (.set assorted) "place" = .ok [.tuple [.str "a", .str "b"], .int 10, .int 2] ∧
      (∃ ys, normalize (.set [.int 1, .str "1"]) "place" = .ok ys ∧ ys.Perm [.int 1, .str "1"]) ∧
      (¬ ∀ xs' declared declared', xs'.Perm [.int 1, .str "1"] → Enumerates declared [.int 1, .str "1"] →
        Enumerates declared' xs' → normalize declared' "place" = normalize declared "place") ∧
      normalize (.tuple [.int 1, .str "1"]) "place" = .ok [.int 1, .str "1"] ∧
      ∃ before after, [.int 1, .str "a", .bool true, .str "a"] = before ++ Datum.bool true :: after ∧
        before.any (· == .bool true) = true ∧
        normalize (.list [.int 1, .str "a", .bool true, .str "a"]) "place"
          = .error (.repeatedIdentifier "place" (.bool true)) := by
  have hdistinct : Distinct [Datum.int 1, .str "1"] := by decide
  have hhash : ∀ x ∈ [Datum.int 1, .str "1"], x.hashable = true := by decide
  have hrepeats : ¬ Distinct [Datum.int 1, .str "a", .bool true, .str "a"] := by decide
  have hhash' : ∀ x ∈ [Datum.int 1, .str "a", .bool true, .str "a"], x.hashable = true := by decide
  have hrefused : normalize (.list [.int 1, .str "a", .bool true, .str "a"]) "place"
      = .error (.repeatedIdentifier "place" (.bool true)) := by with_unfolding_all rfl
  obtain ⟨hset, hlist⟩ := normalize_order "place" hhash
  obtain ⟨_, hlist'⟩ := normalize_order "place" hhash'
  obtain ⟨hnormalize, hreproducible⟩ := (hset hdistinct).1 (by decide)
  obtain ⟨ys, hys, hperm, _⟩ := hnormalize _ (.set _)
  obtain ⟨before, x, after, _, hsplit, _, hx, rfl, _, herror, hlong⟩ := (hlist' _ (.list _)).2 hrepeats
  obtain rfl : .bool true = x := by
    by_cases hwritable : x.Writable
    · rw [hrefused] at herror
      injection herror hwritable with hfault
      injection hfault
    · rw [hrefused] at hlong
      cases hlong hwritable
  refine ⟨?_, ⟨ys, hys, hperm⟩, fun hsame => ?_, (hlist _ (.tuple _)).1 hdistinct, before, after, hsplit, hx, hrefused⟩
  · obtain ⟨hset', _⟩ := normalize_order "place" (by decide : ∀ x ∈ assorted, x.hashable = true)
    have hlisted : Datum.Ascending [.tuple [.str "a", .str "b"], .int 10, .int 2] :=
      ⟨["('a', 'b')", "10", "2"], by decide +kernel, by decide +kernel⟩
    have hturned : List.Perm [.tuple [.str "a", .str "b"], .int 10, .int 2] assorted :=
      List.perm_append_singleton (Datum.int 2) [.tuple [.str "a", .str "b"], .int 10]
    have hdistinct' : Distinct [Datum.tuple [.str "a", .str "b"], .int 10, .int 2] := by decide
    obtain ⟨zs, hzs, hperm', hascending⟩ := ((hset' (hdistinct'.perm hturned)).1 (by decide)).1 _ (.set _)
    rw [hzs, hlisted.eq_of_perm hascending (hturned.trans hperm'.symm) (eq_of_label_eq hdistinct' (by decide +kernel))]
  · exact hreproducible.mp hsame (.int 1) (by simp) (.str "1") (by simp) (by decide) (by decide)

end Domain

end Petri
