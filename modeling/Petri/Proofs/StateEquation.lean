import Petri.Proofs.Arcs
import Petri.Proofs.Boundedness

/-!
# The state equation

Firing a transition changes a place by what the incidence matrix holds for the two, whatever the place held
before. Sums are words, so along a run the changes add up modulo `2 ^ 64`, and they add up as they are where no
sum has wrapped:

> `incidence_eq`, `toInt_effect`: what the matrix holds is what is given less what is taken, which is a word;
> `run_tokens_bmod`, `run_tokens_exactly`: the counts at the end of a run, from the counts at its beginning and
> the transitions that it fires.

The order of the transitions has no part in the sum, so runs of the same transitions end in one marking
(`state_equation`).
-/

namespace Petri

namespace Weights

variable {n : Nat} {w : Weights n}

/-- What is given less what is taken lies between two words that are not negative, and does not wrap. -/
theorem toInt_effect (hw : w.Sound) (p : Fin n) :
    (w.effect.get p).toInt = (w.post.get p).toInt - (w.pre.get p).toInt := by
  have hpre := zero_le_iff.mp (hw.pre p)
  have hpost := zero_le_iff.mp (hw.post p)
  have h1 := toInt_le_most (w.pre.get p)
  have h2 := toInt_le_most (w.post.get p)
  rw [mostTokens_eq] at h1 h2
  rw [get_effect, Int64.toInt_sub, Int.bmod_def]
  split <;> omega

/-- Taking and giving adds the effect. -/
theorem get_apply_eq_add (m : Vector Int64 n) (p : Fin n) : (w.apply m).get p = m.get p + w.effect.get p := by
  rw [get_apply, get_effect, Int64.sub_eq_add_neg, Int64.sub_eq_add_neg, Int64.add_assoc,
    Int64.add_comm (-w.pre.get p)]

theorem toInt_apply_bmod (m : Vector Int64 n) (p : Fin n) :
    ((w.apply m).get p).toInt
      = ((m.get p).toInt + (w.effect.get p).toInt).bmod 18446744073709551616 := by
  rw [get_apply_eq_add, Int64.toInt_add]

end Weights

namespace Net

variable {net : Net} {t : Datum} {j : Fin net.transitions.length} {m m' : Marking} {ts : List Datum}

/-! ## The incidence matrix -/

/-- What the incidence matrix holds for a place and a transition; zero for a transition that is not declared. -/
def incidence (net : Net) (t : Datum) (p : Fin net.places.length) : Int :=
  match net.transitionIndex t with
  | .ok j => ((net.incidenceMatrix[(p : Nat)]?).bind (·[(j : Nat)]?)).getD 0
  | .error _ => 0

theorem incidence_eq (hj : net.transitionIndex t = .ok j) (p : Fin net.places.length) :
    net.incidence t p = ((net.weights.get j).effect.get p).toInt := by
  rw [incidence, hj]
  show (Option.getD _ 0) = _
  rw [incidenceMatrix, matrix_entry]
  rfl

/-- What a run of the transitions `ts` changes at a place. -/
def totalIncidence (net : Net) (ts : List Datum) (p : Fin net.places.length) : Int :=
  ts.foldr (fun t sum => net.incidence t p + sum) 0

theorem totalIncidence_cons (t : Datum) (ts : List Datum) (p : Fin net.places.length) :
    net.totalIncidence (t :: ts) p = net.incidence t p + net.totalIncidence ts p := rfl

/-- The order of the transitions has no part in the sum. -/
theorem totalIncidence_perm {us : List Datum} (hperm : ts.Perm us) (p : Fin net.places.length) :
    net.totalIncidence ts p = net.totalIncidence us p :=
  hperm.foldr_eq' (fun t _ u _ sum => Int.add_left_comm (net.incidence u p) (net.incidence t p) sum) 0

/-! ## One step -/

theorem Fires.tokens_bmod (hm : net.Owns m) (hfit : net.FitsWords m) (h : net.Fires t m m')
    (p : Fin net.places.length) :
    m'.tokens p = (m.tokens p + net.incidence t p).bmod 18446744073709551616 := by
  obtain ⟨j, hj, _, _, rfl⟩ := (fires_iff hm hfit).mp h
  rw [tokens_markingOfWords, Weights.toInt_apply_bmod, toInt_wordsOf hfit, incidence_eq hj]

theorem FiresExactly.tokens_incidence (hb : net.Built) (hm : net.Countable m) (h : net.FiresExactly t m m')
    (p : Fin net.places.length) : m'.tokens p = m.tokens p + net.incidence t p := by
  obtain ⟨j, hj, _⟩ := (fires_iff hm.1 hm.2.fitsWords).mp h.1
  have hsum := h.tokens_eq hb hm hj p
  rw [incidence_eq hj, Weights.toInt_effect (hb.sound j), hsum, sumAt, takes, gives]
  omega

/-! ## Runs -/

/-- A number that is a word is what a word holds of it. -/
theorem bmod_of_fitsWord {k : Int} (h : Datum.fitsWord k = true) : k.bmod 18446744073709551616 = k := by
  obtain ⟨hleast, hmost⟩ := fitsWord_iff.mp h
  rw [mostTokens_eq] at hmost
  rw [Int.bmod_def]
  split <;> omega

theorem run_tokens_bmod (hm : net.Owns m) (hfit : net.FitsWords m) (h : Run net.Fires ts m m')
    (p : Fin net.places.length) :
    m'.tokens p = (m.tokens p + net.totalIncidence ts p).bmod 18446744073709551616 := by
  induction h with
  | nil m =>
    show m.tokens p = (m.tokens p + 0).bmod _
    rw [Int.add_zero, bmod_of_fitsWord (hfit p)]
  | cons hstep _ ih =>
    obtain ⟨hm', hfit', _⟩ := hstep.owns hm hfit
    -- a sum that has wrapped before the rest is added wraps as it does with the rest
    rw [ih hm' hfit', hstep.tokens_bmod hm hfit, Int.bmod_add_bmod, totalIncidence_cons, Int.add_assoc]

theorem run_tokens_exactly (hb : net.Built) (hm : net.Countable m) (h : Run net.FiresExactly ts m m')
    (p : Fin net.places.length) : m'.tokens p = m.tokens p + net.totalIncidence ts p := by
  induction h with
  | nil m => exact (Int.add_zero _).symm
  | cons hstep _ ih =>
    rw [ih (hstep.countable hm), hstep.tokens_incidence hb hm, totalIncidence_cons, Int.add_assoc]

/-- The places are spelled as the net spells them after a step, and as they were before the first one. -/
theorem run_fires_owns (hm : net.Owns m) (hfit : net.FitsWords m) (h : Run net.Fires ts m m') :
    net.Owns m' ∧ net.FitsWords m' ∧ m'.places = if ts = [] then m.places else net.places := by
  induction h with
  | nil m => exact ⟨hm, hfit, rfl⟩
  | @cons t ts _ _ _ hstep _ ih =>
    obtain ⟨hm', hfit', hplaces⟩ := hstep.owns hm hfit
    obtain ⟨howns, hfits, hspelled⟩ := ih hm' hfit'
    refine ⟨howns, hfits, ?_⟩
    rw [hspelled, hplaces, ite_self, if_neg (List.cons_ne_nil _ _)]

/-- Markings of a net that are spelled alike are told apart by their counts. -/
theorem Owns.eq_of_tokens (hm : net.Owns m) (hm' : net.Owns m') (hplaces : m.places = m'.places)
    (h : ∀ p : Fin net.places.length, m.tokens p = m'.tokens p) : m = m' := by
  refine Marking.ext_parts hplaces ?_
  rw [hm.counts_eq, hm'.counts_eq]
  congr 1
  funext p
  rw [h p]

/-- **The state equation.** The incidence matrix holds what every transition gives less what it takes. At the end
of a run, every place holds the word for its count in the beginning and the sum of what the matrix holds for the
transitions of the run; that is the sum itself if no count is negative in the beginning or on the way. Runs of the
same transitions in different orders end in the same marking. -/
theorem state_equation (hb : net.Built) (hm : net.Owns m) (hfit : net.FitsWords m) :
    (∀ (j : Fin net.transitions.length) (p : Fin net.places.length),
        (net.incidenceMatrix[(p : Nat)]?).bind (·[(j : Nat)]?) = some (net.gives j p - net.takes j p)) ∧
      (∀ ts m', Run net.Fires ts m m' → ∀ p : Fin net.places.length,
        m'.tokens p = (m.tokens p + net.totalIncidence ts p).bmod 18446744073709551616) ∧
      (net.Nonnegative m → ∀ ts m', Run net.FiresExactly ts m m' → ∀ p : Fin net.places.length,
        m'.tokens p = m.tokens p + net.totalIncidence ts p) ∧
      ∀ ts us a b, ts.Perm us → Run net.Fires ts m a → Run net.Fires us m b → a = b := by
  refine ⟨fun j p => ?_, fun ts m' h => run_tokens_bmod hm hfit h, fun hnonneg ts m' h => ?_,
    fun ts us a b hperm ha hb' => ?_⟩
  · rw [incidenceMatrix, matrix_entry, Weights.toInt_effect (hb.sound j)]
    rfl
  · exact run_tokens_exactly hb ⟨hm, hfit.inRange hnonneg⟩ h
  · obtain ⟨howns, _, hplaces⟩ := run_fires_owns hm hfit ha
    obtain ⟨howns', _, hplaces'⟩ := run_fires_owns hm hfit hb'
    have hnil : ts = [] ↔ us = [] := by
      rw [← List.length_eq_zero_iff, ← List.length_eq_zero_iff, hperm.length_eq]
    refine howns.eq_of_tokens howns' ?_ fun p => ?_
    · rw [hplaces, hplaces']
      simp only [hnil]
    · rw [run_tokens_bmod hm hfit ha, run_tokens_bmod hm hfit hb', totalIncidence_perm hperm]

/-- One place with room for twenty tokens, which are brought by threes and fetched by twos. -/
def cistern : Net where
  places := [.str "tank"]
  transitions := [.str "fill", .str "drain"]
  capacity := .replicate 1 20
  weights := #v[⟨.replicate 1 0, .replicate 1 3⟩, ⟨.replicate 1 2, .replicate 1 0⟩]

theorem cistern_built : cistern.Built :=
  ⟨.list [.str "tank"], .list [.str "fill", .str "drain"],
    [⟨.str "tank", .str "fill", 3, .post, by decide⟩, ⟨.str "tank", .str "drain", 2, .pre, by decide⟩],
    .null, .int 20, by with_unfolding_all rfl⟩

/-- Filled and drained in either order, the cistern ends with one token more. In the reservoir the sum wraps. -/
theorem state_equation_tank :
    (∃ a b, Run cistern.Fires [.str "fill", .str "drain"] (tankAt 5) a ∧
        Run cistern.Fires [.str "drain", .str "fill"] (tankAt 5) b ∧ a = b ∧ a.tokens 0 = 6) ∧
      ∃ m, Run reservoir.Fires [.str "fill"] (tankAt 1) m ∧ m.tokens 0 = -9223372036854775808 := by
  have howns : ∀ k : Int, ∀ c ∈ (tankAt k).counts, ∃ l : Int, c = .int l := by
    intro k c hc
    exact ⟨k, List.mem_singleton.mp hc⟩
  constructor
  · have hfilled : cistern.FiresExactly (.str "fill") (tankAt 5) (tankAt 8) := ⟨rfl, by decide⟩
    have hdrained : cistern.FiresExactly (.str "drain") (tankAt 8) (tankAt 6) := ⟨rfl, by decide⟩
    have hearly : cistern.Fires (.str "drain") (tankAt 5) (tankAt 3) := rfl
    have hlate : cistern.Fires (.str "fill") (tankAt 3) (tankAt 6) := rfl
    have hrun : Run cistern.FiresExactly [.str "fill", .str "drain"] (tankAt 5) (tankAt 6) :=
      .cons hfilled (.cons hdrained (.nil _))
    have hfirst : Run cistern.Fires [.str "fill", .str "drain"] (tankAt 5) (tankAt 6) :=
      .cons hfilled.1 (.cons hdrained.1 (.nil _))
    have hsecond : Run cistern.Fires [.str "drain", .str "fill"] (tankAt 5) (tankAt 6) :=
      .cons hearly (.cons hlate (.nil _))
    obtain ⟨_, _, hexact, hperm⟩ := state_equation cistern_built (m := tankAt 5) ⟨rfl, howns 5⟩ (by decide)
    exact ⟨_, _, hfirst, hsecond, hperm _ _ _ _ (List.Perm.swap _ _ _) hfirst hsecond,
      hexact (by decide) _ _ hrun ⟨0, by decide⟩⟩
  · have hwraps : reservoir.Fires (.str "fill") (tankAt 1) (tankAt (-9223372036854775808)) := rfl
    have hrun := Run.singleton_iff.mpr hwraps
    obtain ⟨_, hbmod, _⟩ := state_equation reservoir_built (m := tankAt 1) ⟨rfl, howns 1⟩ (by decide)
    exact ⟨_, hrun, hbmod _ _ hrun ⟨0, by decide⟩⟩

end Net

end Petri
