import Mathlib.Algebra.BigOperators.Group.Finset.Basic
import Mathlib.Algebra.Order.BigOperators.Group.Finset

/-!
Quorums of weighted voters. A quorum is a set of members that holds strictly more than two
thirds of the weight of all members. Two quorums share members of more than a third of the
weight. With unit weights a quorum is a set of at least a fixed size.
-/
namespace PayyRollup.WeightedQuorums

variable {α : Type*}

structure IsQuorum (weight : α → ℕ) (members voters : Finset α) : Prop where
  subset : voters ⊆ members
  two_thirds : 2 * ∑ a ∈ members, weight a < 3 * ∑ a ∈ voters, weight a

theorem floor_lt_iff (total part : ℕ) : total * 2 / 3 < part ↔ 2 * total < 3 * part := by omega

variable {weight : α → ℕ} {members voters voters' : Finset α}

/-- Two quorums share more than a third of the weight. -/
theorem IsQuorum.weight_inter [DecidableEq α] (h : IsQuorum weight members voters)
    (h' : IsQuorum weight members voters') :
    ∑ a ∈ members, weight a < 3 * ∑ a ∈ voters ∩ voters', weight a := by
  have hsplit := @Finset.sum_union_inter _ _ voters voters' _ weight _
  have hunion : ∑ a ∈ voters ∪ voters', weight a ≤ ∑ a ∈ members, weight a :=
    Finset.sum_le_sum_of_subset (Finset.union_subset h.subset h'.subset)
  have hleft := h.two_thirds
  have hright := h'.two_thirds
  omega

theorem IsQuorum.not_disjoint [DecidableEq α] (h : IsQuorum weight members voters)
    (h' : IsQuorum weight members voters') : ∃ a, a ∈ voters ∧ a ∈ voters' := by
  by_contra hnone
  have hempty : voters ∩ voters' = ∅ := by
    rw [Finset.eq_empty_iff_forall_notMem]
    intro a ha
    exact hnone ⟨a, (Finset.mem_inter.mp ha).1, (Finset.mem_inter.mp ha).2⟩
  have hshared := h.weight_inter h'
  rw [hempty, Finset.sum_empty] at hshared
  omega

/-- With unit weights a quorum is one more than two thirds of the members, rounded down. -/
theorem isQuorum_one_iff :
    IsQuorum (fun _ => 1) members voters ↔
      voters ⊆ members ∧ members.card * 2 / 3 + 1 ≤ voters.card := by
  constructor
  · intro h
    have hweight := h.two_thirds
    rw [← Finset.card_eq_sum_ones, ← Finset.card_eq_sum_ones] at hweight
    exact ⟨h.subset, by omega⟩
  · rintro ⟨hsubset, hcard⟩
    refine ⟨hsubset, ?_⟩
    rw [← Finset.card_eq_sum_ones, ← Finset.card_eq_sum_ones]
    omega

end PayyRollup.WeightedQuorums
