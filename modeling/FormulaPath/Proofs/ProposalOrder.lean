import FormulaPath.Proposal

/-!
# The order of the proposals

The order compares all that a proposal consists of, so two proposals that stand level are equal.
Hence there is only one sorted list of the same proposals (`sort_unique`): the list that is shown
depends neither on the order in which the proposals were found, nor on whether they are sorted
before or after some of them are left out. In particular candidates can be offered one at a time and
in any order (`foldl_offer`), and texts that differ in case only still have a fixed place each.
-/
namespace FormulaPath.Proposal

instance : Std.TransCmp cmp := by
  unfold cmp
  infer_instance

instance : Std.LawfulEqCmp cmp where
  compare_self := Std.ReflCmp.compare_self
  eq_of_compare {p q} h := by
    simp only [cmp, compareLex, Ordering.then_eq_eq, compareOn,
      Std.LawfulEqCmp.compare_eq_iff_eq] at h
    obtain ⟨hrank,-,htext,hlabel,hdescription,htyped⟩ := h
    have hcategory := Category.rank_injective hrank
    obtain ⟨⟨text,label,description,category⟩,typed⟩ := p
    obtain ⟨⟨text',label',description',category'⟩,typed'⟩ := q
    simp_all

variable {p q r : Proposal} {ps qs : List Proposal}

theorem le_trans (hpq : le p q = true) (hqr : le q r = true) : le p r = true :=
  Std.TransCmp.isLE_trans hpq hqr

theorem le_total (p q : Proposal) : (le p q || le q p) = true := by
  have hswap : cmp q p = (cmp p q).swap := Std.OrientedCmp.eq_swap
  unfold le
  rw [hswap]
  cases cmp p q <;> rfl

theorem le_antisymm (hpq : le p q = true) (hqp : le q p = true) : p = q :=
  Std.LawfulEqCmp.eq_of_compare (Std.OrientedCmp.isLE_antisymm hpq hqp)

theorem sort_perm (ps : List Proposal) : (sort ps).Perm ps := List.mergeSort_perm ps le

theorem sort_pairwise (ps : List Proposal) : (sort ps).Pairwise (le · · = true) := by
  apply List.pairwise_mergeSort
  · exact fun p q r => le_trans
  · exact le_total

/-- A sorted list of the same proposals is the list that sorting gives. -/
theorem sort_unique (hperm : qs.Perm ps) (hsorted : qs.Pairwise (le · · = true)) :
    sort ps = qs :=
  ((sort_perm ps).trans hperm.symm).eq_of_pairwise (fun _ _ _ _ => le_antisymm)
    (sort_pairwise ps) hsorted

/-- The order in which proposals were found does not show. -/
theorem sort_eq_of_perm (h : ps.Perm qs) : sort ps = sort qs :=
  sort_unique ((sort_perm qs).trans h.symm) (sort_pairwise qs)

/-- Proposals may be left out, and changed in a way that keeps their order, behind sorting as well
as in front of it. -/
theorem sort_map_filter {keep : Proposal → Bool} {change : Proposal → Proposal}
    (h : ∀ p ∈ ps, ∀ q ∈ ps, le p q = true → le (change p) (change q) = true) :
    sort ((ps.filter keep).map change) = ((sort ps).filter keep).map change := by
  apply sort_unique
  · exact ((sort_perm ps).filter keep).map change
  · rw [List.pairwise_map]
    refine ((sort_pairwise ps).filter keep).imp_of_mem fun {p q} hp hq hle => ?_
    have hmem : ∀ r ∈ (sort ps).filter keep, r ∈ ps := fun r hr =>
      (sort_perm ps).mem_iff.mp (List.mem_filter.mp hr).1
    exact h p (hmem p hp) q (hmem q hq) hle

/-! ## Candidates offered one at a time -/

/-- The proposals found so far, and that for one more candidate if it fits. -/
def offer (typed : String) (found : List Proposal) (c : Candidate) : List Proposal :=
  if c.fits typed then found ++ [⟨c, typed⟩] else found

/-- Candidates that are offered one after another are collected in that order. -/
theorem foldl_offer (typed : String) (found : List Proposal) (cs : List Candidate) :
    cs.foldl (offer typed) found = found ++ collect typed cs := by
  induction cs generalizing found with
  | nil => simp [collect]
  | cons c cs ih =>
      rw [List.foldl_cons,ih,offer]
      by_cases h : c.fits typed = true
      · simp [collect, h]
      · simp [collect, h]

theorem collect_perm {typed : String} {cs ds : List Candidate} (h : cs.Perm ds) :
    (collect typed cs).Perm (collect typed ds) :=
  (h.filter _).map _

/-- Two proposals stand level only if they agree in all that they consist of. -/
theorem cmp_eq_iff : cmp p q = .eq ↔ p.text = q.text ∧ p.label = q.label ∧
    p.description = q.description ∧ p.category = q.category ∧ p.typed = q.typed := by
  rw [Std.LawfulEqCmp.compare_eq_iff_eq]
  obtain ⟨⟨text,label,description,category⟩,typed⟩ := p
  obtain ⟨⟨text',label',description',category'⟩,typed'⟩ := q
  simp only [mk.injEq, Candidate.mk.injEq, and_assoc]

theorem cmp_trans {o : Ordering} (hpq : cmp p q = o) (hqr : cmp q r = o) : cmp p r = o := by
  cases o with
  | lt => exact Std.TransCmp.lt_trans hpq hqr
  | eq => exact Std.TransCmp.eq_trans hpq hqr
  | gt => exact Std.TransCmp.gt_trans hpq hqr

/-- The order of proposals is total, and only equal proposals stand level, whatever their texts
become in lower case. Sorting what was offered gives, in ascending order, the proposals of exactly
those candidates whose text starts with what was typed, up to case, and the same list if the
candidates are offered in another order. -/
theorem order_total_and_listing_unique :
    (∀ p q, cmp q p = (cmp p q).swap) ∧
      (∀ p q r o, cmp p q = o → cmp q r = o → cmp p r = o) ∧
      (∀ p q, cmp p q = .eq ↔ p.text = q.text ∧ p.label = q.label ∧
        p.description = q.description ∧ p.category = q.category ∧ p.typed = q.typed) ∧
      ∀ typed offered,
        let listed := sort (offered.foldl (offer typed) [])
        listed.Perm ((offered.filter fun c =>
            decide (Text.lower typed <+: Text.lower c.text)).map fun c => ⟨c, typed⟩) ∧
          listed.Pairwise (cmp · · ≠ .gt) ∧
          ∀ others : List Candidate, others.Perm offered →
            sort (others.foldl (offer typed) []) = listed := by
  refine ⟨fun p q => Std.OrientedCmp.eq_swap,fun p q r o => cmp_trans,fun p q => cmp_eq_iff,?_⟩
  intro typed offered listed
  have hlisted : listed = sort (collect typed offered) := by
    rw [← List.nil_append (collect typed offered),← foldl_offer]
  have hfits : ∀ c : Candidate, c.fits typed = decide (Text.lower typed <+: Text.lower c.text) := by
    intro c
    rw [Bool.eq_iff_iff,decide_eq_true_iff]
    exact Text.startsUpToCase_iff
  refine ⟨?_,?_,?_⟩
  · rw [hlisted]
    simp only [← hfits]
    exact sort_perm _
  · refine (sort_pairwise _).imp fun {p q} hle => ?_
    exact Ordering.isLE_iff_ne_gt.mp hle
  · intro others hperm
    rw [hlisted,foldl_offer,List.nil_append]
    exact sort_eq_of_perm (collect_perm hperm)

/-- The dotted capital has a lower case of two letters, and so has the text that spells them out. -/
theorem order_total_and_listing_unique_dotted :
    let capital : Candidate := ⟨"\u0130", "", "", .attr⟩
    let spelled : Candidate := ⟨"i\u0307", "", "", .attr⟩
    let other : Candidate := ⟨"rate", "", "", .attr⟩
    Text.lower capital.text = Text.lower spelled.text ∧ cmp ⟨capital, "I"⟩ ⟨spelled, "I"⟩ ≠ .eq ∧
      sort ([spelled, other, capital].foldl (offer "I") []) =
        sort ([capital, spelled, other].foldl (offer "I") []) := by
  intro capital spelled other
  obtain ⟨-,-,heq,hlist⟩ := order_total_and_listing_unique
  refine ⟨by decide +kernel,?_,(hlist "I" _).2.2 _ (by decide)⟩
  rw [Ne,heq]
  decide +kernel

end FormulaPath.Proposal
