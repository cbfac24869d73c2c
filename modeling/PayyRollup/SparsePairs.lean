import PayyRollup.SparseTree

/-!
The pairs that are hashed in a sparse tree, and how they change when elements are added. Where
the node hash is injective on the hashed pairs and no two leaves side by side are both hashes
of such pairs, a pair of an occupied subtree tells the subtree and its place. So an insertion
changes the pairs of the subtrees it changes and of no others, and the old pairs of these
subtrees are gone.
-/
namespace PayyRollup.SparseMerkle

variable {F : Type} (N : NodeHash F)

/-- The assignment seen from the end of a path. -/
def below (σ : List Bool → F) (q : List Bool) : List Bool → F := fun p => σ (q ++ p)

@[simp] theorem below_apply (σ : List Bool → F) (q p : List Bool) : below σ q p = σ (q ++ p) := rfl

@[simp] theorem below_nil (σ : List Bool → F) : below σ [] = σ := rfl

theorem below_cons (σ : List Bool → F) (b : Bool) (q : List Bool) :
    below σ (b :: q) = below (child σ b) q := rfl

/-- The two hashes below the root of a subtree. -/
def pairAt (height : ℕ) (σ : List Bool → F) : F × F :=
  (root N.node height (child σ false), root N.node height (child σ true))

theorem root_congr (height : ℕ) (σ τ : List Bool → F)
    (h : ∀ p, p.length = height → σ p = τ p) : root N.node height σ = root N.node height τ := by
  induction height generalizing σ τ with
  | zero => exact h [] rfl
  | succ height ih =>
    have hchild : ∀ b, root N.node height (child σ b) = root N.node height (child τ b) := by
      intro b
      apply ih
      intro p hp
      exact h (b :: p) (by simp [hp])
    rw [root, root, hchild, hchild]

theorem pairAt_congr (height : ℕ) (σ τ : List Bool → F)
    (h : ∀ p, p.length = height + 1 → σ p = τ p) : pairAt N height σ = pairAt N height τ := by
  have hchild : ∀ b, root N.node height (child σ b) = root N.node height (child τ b) := by
    intro b
    apply root_congr
    intro p hp
    exact h (b :: p) (by simp [hp])
  rw [pairAt, pairAt, hchild, hchild]

theorem rootHashed_below (height : ℕ) (σ : List Bool → F) (q : List Bool)
    (h : RootHashed N (q.length + height) σ) : RootHashed N height (below σ q) := by
  induction q generalizing σ with
  | nil => simpa using h
  | cons b q ih =>
    have hlen : (b :: q).length + height = (q.length + height) + 1 := by
      rw [List.length_cons]
      omega
    rw [hlen] at h
    obtain ⟨-, hleft, hright⟩ := h
    rw [below_cons]
    cases b with
    | false => exact ih (child σ false) hleft
    | true => exact ih (child σ true) hright

variable {N}

/-- Equal roots of one height have equal leaves. -/
theorem root_inj (hN : N.Injective) (height : ℕ) (σ τ : List Bool → F)
    (hσ : RootHashed N height σ) (hτ : RootHashed N height τ)
    (h : root N.node height σ = root N.node height τ) : ∀ p, p.length = height → σ p = τ p := by
  induction height generalizing σ τ with
  | zero =>
    intro p hp
    obtain rfl := List.length_eq_zero_iff.mp hp
    exact h
  | succ height ih =>
    obtain ⟨hσPair, hσLeft, hσRight⟩ := hσ
    obtain ⟨hτPair, hτLeft, hτRight⟩ := hτ
    obtain ⟨hleft, hright⟩ := hN _ _ _ _ hσPair hτPair h
    intro p hp
    cases p with
    | nil => simp at hp
    | cons b p =>
      have hlen : p.length = height := by simpa using hp
      cases b with
      | false => exact ih _ _ hσLeft hτLeft hleft p hlen
      | true => exact ih _ _ hσRight hτRight hright p hlen

/-- Where two roots of different heights agree, the leaves of the lower tree are hashes. -/
theorem leaf_hashed_of_root_eq (hN : N.Injective) (height extra : ℕ) (σ τ : List Bool → F)
    (hσ : RootHashed N height σ) (hτ : RootHashed N (height + extra + 1) τ)
    (h : root N.node height σ = root N.node (height + extra + 1) τ) :
    ∀ p, p.length = height → ∃ a b, N.hashed a b ∧ σ p = N.node a b := by
  induction height generalizing σ τ with
  | zero =>
    intro p hp
    obtain rfl := List.length_eq_zero_iff.mp hp
    exact ⟨_, _, hτ.1, h⟩
  | succ height ih =>
    have hlen : height + 1 + extra = height + extra + 1 := by omega
    rw [hlen] at hτ h
    obtain ⟨hσPair, hσLeft, hσRight⟩ := hσ
    obtain ⟨hτPair, hτLeft, hτRight⟩ := hτ
    obtain ⟨hleft, hright⟩ := hN _ _ _ _ hσPair hτPair h
    intro p hp
    cases p with
    | nil => simp at hp
    | cons b p =>
      have hlen : p.length = height := by simpa using hp
      cases b with
      | false => exact ih _ _ hσLeft hτLeft hleft p hlen
      | true => exact ih _ _ hσRight hτRight hright p hlen

/-- Every pair below the root is hashed, and of two leaves that lie side by side one is not
the hash of a hashed pair. -/
structure Distinguished (N : NodeHash F) (height : ℕ) (σ : List Bool → F) : Prop where
  root_hashed : RootHashed N height σ
  leaf_fresh : ∀ q, ∃ c, ∀ a b, N.hashed a b → σ (q ++ [c]) ≠ N.node a b

theorem Distinguished.below {height : ℕ} {σ : List Bool → F} (q : List Bool)
    (h : Distinguished N (q.length + height) σ) : Distinguished N height (below σ q) :=
  ⟨rootHashed_below N height σ q h.root_hashed, fun p => by
    simpa only [below_apply, List.append_assoc] using h.leaf_fresh (q ++ p)⟩

/-- Two subtrees with one pair: the higher is not strictly higher. -/
theorem pairAt_height_le (hN : N.Injective) (height height' : ℕ) (σ τ : List Bool → F)
    (hσ : Distinguished N (height + 1) σ) (hτ : RootHashed N (height' + 1) τ)
    (h : pairAt N height σ = pairAt N height' τ) : height' ≤ height := by
  by_contra hlt
  obtain ⟨extra, rfl⟩ := Nat.exists_eq_add_of_lt (Nat.lt_of_not_le hlt)
  obtain ⟨hleft, hright⟩ := Prod.mk.inj h
  obtain ⟨-, hσLeft, hσRight⟩ := hσ.root_hashed
  obtain ⟨-, hτLeft, hτRight⟩ := hτ
  have hhashed : ∀ p, p.length = height + 1 → ∃ a b, N.hashed a b ∧ σ p = N.node a b := by
    intro p hp
    cases p with
    | nil => simp at hp
    | cons b p =>
      have hlen : p.length = height := by simpa using hp
      cases b with
      | false => exact leaf_hashed_of_root_eq hN height extra _ _ hσLeft hτLeft hleft p hlen
      | true => exact leaf_hashed_of_root_eq hN height extra _ _ hσRight hτRight hright p hlen
  obtain ⟨c, hc⟩ := hσ.leaf_fresh (List.replicate height false)
  obtain ⟨a, b, hab, heq⟩ := hhashed (List.replicate height false ++ [c]) (by simp)
  exact hc a b hab heq

/-- A pair tells the height and the leaves of its subtree. -/
theorem pairAt_inj (hN : N.Injective) (height height' : ℕ) (σ τ : List Bool → F)
    (hσ : Distinguished N (height + 1) σ) (hτ : Distinguished N (height' + 1) τ)
    (h : pairAt N height σ = pairAt N height' τ) :
    height = height' ∧ ∀ p, p.length = height + 1 → σ p = τ p := by
  have hle := pairAt_height_le hN _ _ _ _ hσ hτ.root_hashed h
  have hge := pairAt_height_le hN _ _ _ _ hτ hσ.root_hashed h.symm
  obtain rfl : height = height' := by omega
  refine ⟨rfl, ?_⟩
  obtain ⟨hleft, hright⟩ := Prod.mk.inj h
  obtain ⟨-, hσLeft, hσRight⟩ := hσ.root_hashed
  obtain ⟨-, hτLeft, hτRight⟩ := hτ.root_hashed
  intro p hp
  cases p with
  | nil => simp at hp
  | cons b p =>
    have hlen : p.length = height := by simpa using hp
    cases b with
    | false => exact root_inj hN height _ _ hσLeft hτLeft hleft p hlen
    | true => exact root_inj hN height _ _ hσRight hτRight hright p hlen

section Trees

variable [Zero F] {slot : F → List Bool} {H : ℕ}

/-- The pairs of the occupied subtrees. -/
def Pairs (N : NodeHash F) (H : ℕ) (T : SparseTree F slot) : Set (F × F) :=
  { pair | ∃ q height, q.length + (height + 1) = H ∧
      (∃ p, p.length = height + 1 ∧ T.leaf (q ++ p) ≠ 0) ∧
        pair = pairAt N height (below T.leaf q) }

/-- One pair in two trees: the same subtree, and at the same place if it is occupied. -/
theorem same_subtree (hN : N.Injective) (S T : SparseTree F slot)
    (hS : Distinguished N H S.leaf) (hT : Distinguished N H T.leaf) (q q' : List Bool)
    (height height' : ℕ) (hq : q.length + (height + 1) = H) (hq' : q'.length + (height' + 1) = H)
    (h : pairAt N height (below S.leaf q) = pairAt N height' (below T.leaf q')) :
    height = height' ∧ (∀ p, p.length = height + 1 → S.leaf (q ++ p) = T.leaf (q' ++ p)) ∧
      ((∃ p, p.length = height + 1 ∧ S.leaf (q ++ p) ≠ 0) → q = q') := by
  rw [← hq] at hS
  rw [← hq'] at hT
  obtain ⟨hheight, hsame⟩ := pairAt_inj hN height height' _ _ hS.below hT.below h
  refine ⟨hheight, hsame, ?_⟩
  rintro ⟨p, hp, hne⟩
  have heq := hsame p hp
  rw [below_apply, below_apply] at heq
  have hslot := S.placed (q ++ p) hne
  have hslot' := T.placed (q' ++ p) (heq ▸ hne)
  rw [heq, hslot'] at hslot
  exact (List.append_cancel_right hslot).symm

end Trees

section Change

variable (σ τ : List Bool → F)

/-- The two assignments differ in a subtree. -/
def Changed (q : List Bool) (height : ℕ) : Prop :=
  ∃ p, p.length = height + 1 ∧ σ (q ++ p) ≠ τ (q ++ p)

/-- The pair to be dropped for a changed subtree; just above the leaves it is the new one. -/
def dropped (N : NodeHash F) (q : List Bool) : ℕ → F × F
  | 0 => pairAt N 0 (below τ q)
  | height + 1 => pairAt N (height + 1) (below σ q)

/-- Elements are added and none is moved. -/
def Extends [Zero F] : Prop := ∀ p, σ p ≠ 0 → τ p = σ p

/-- Nothing is added beside an element. -/
def Alone [Zero F] (H : ℕ) : Prop :=
  ∀ q b, q.length + 1 = H → σ (q ++ [b]) ≠ 0 → τ (q ++ [!b]) = σ (q ++ [!b])

variable {σ τ}

theorem pairAt_of_not_changed (q : List Bool) (height : ℕ) (h : ¬Changed σ τ q height) :
    pairAt N height (below σ q) = pairAt N height (below τ q) := by
  apply pairAt_congr
  intro p hp
  by_contra hne
  exact h ⟨p, hp, hne⟩

theorem Changed.occupied [Zero F] (hle : Extends σ τ) (q : List Bool) (height : ℕ)
    (h : Changed σ τ q height) :
    ∃ p, p.length = height + 1 ∧ σ (q ++ p) = 0 ∧ τ (q ++ p) ≠ 0 := by
  obtain ⟨p, hp, hne⟩ := h
  have hzero : σ (q ++ p) = 0 := by
    by_contra hold
    exact hne (hle _ hold).symm
  exact ⟨p, hp, hzero, fun hnew => hne (hzero.trans hnew.symm)⟩

end Change

section Insertion

variable [Zero F] {slot : F → List Bool} {H : ℕ} {S T : SparseTree F slot} (hN : N.Injective)
  (hS : Distinguished N H S.leaf) (hT : Distinguished N H T.leaf) (hle : Extends S.leaf T.leaf)

include hle in
theorem set_mem_pairs (q : List Bool) (height : ℕ) (hq : q.length + (height + 1) = H)
    (h : Changed S.leaf T.leaf q height) :
    pairAt N height (below T.leaf q) ∈ Pairs N H T := by
  obtain ⟨p, hp, -, hne⟩ := Changed.occupied hle q height h
  exact ⟨q, height, hq, ⟨p, hp, hne⟩, rfl⟩

include hN hS hT hle in
/-- A pair that is set is dropped only at the subtree that sets it. -/
theorem set_of_dropped (q : List Bool) (height : ℕ) (hq : q.length + (height + 1) = H)
    (h : Changed S.leaf T.leaf q height) (q' : List Bool) (height' : ℕ)
    (hq' : q'.length + (height' + 1) = H)
    (hdrop : dropped S.leaf T.leaf N q' height' = pairAt N height (below T.leaf q)) :
    pairAt N height' (below T.leaf q') = pairAt N height (below T.leaf q) := by
  cases height' with
  | zero => exact hdrop
  | succ height' =>
    exfalso
    obtain ⟨p, hp, hzero, hne⟩ := Changed.occupied hle q height h
    obtain ⟨rfl, hsame, hplace⟩ := same_subtree hN S T hS hT q' q _ _ hq' hq hdrop
    have heq := hsame p hp
    obtain rfl := hplace ⟨p, hp, by rw [heq]; exact hne⟩
    rw [hzero] at heq
    exact hne heq.symm

include hN hS hT in
/-- A pair that is dropped and not set is gone. -/
theorem dropped_not_mem (q' : List Bool) (height' : ℕ)
    (hq' : q'.length + (height' + 1) = H) (h' : Changed S.leaf T.leaf q' height') (pair : F × F)
    (hdrop : pair = dropped S.leaf T.leaf N q' height')
    (hset : ∀ q height, q.length + (height + 1) = H → Changed S.leaf T.leaf q height →
      pair ≠ pairAt N height (below T.leaf q)) : pair ∉ Pairs N H T := by
  rintro ⟨q, height, hq, ⟨p, hp, hne⟩, hpair⟩
  have hsame : ¬Changed S.leaf T.leaf q height := fun h => hset q height hq h hpair
  cases height' with
  | zero => exact hset q' 0 hq' h' hdrop
  | succ height' =>
    have hkeys : pairAt N height (below T.leaf q) = pairAt N (height' + 1) (below S.leaf q') :=
      hpair.symm.trans hdrop
    obtain ⟨rfl, -, hplace⟩ := same_subtree hN T S hT hS q q' _ _ hq hq' hkeys
    obtain rfl := hplace ⟨p, hp, hne⟩
    exact hsame h'

include hle in
/-- A pair that is neither dropped nor set stays as it was. -/
theorem mem_pairs_iff_of_untouched (halone : Alone S.leaf T.leaf H) (pair : F × F)
    (hdrop : ∀ q height, q.length + (height + 1) = H → Changed S.leaf T.leaf q height →
      pair ≠ dropped S.leaf T.leaf N q height)
    (hset : ∀ q height, q.length + (height + 1) = H → Changed S.leaf T.leaf q height →
      pair ≠ pairAt N height (below T.leaf q)) : pair ∈ Pairs N H S ↔ pair ∈ Pairs N H T := by
  constructor
  · rintro ⟨q, height, hq, ⟨p, hp, hne⟩, rfl⟩
    have hsame : ¬Changed S.leaf T.leaf q height := by
      intro h
      cases height with
      | succ height => exact hdrop q (height + 1) hq h rfl
      | zero =>
        obtain ⟨p', hp', hdiff⟩ := h
        obtain ⟨b, rfl⟩ := List.length_eq_one_iff.mp hp
        obtain ⟨b', rfl⟩ := List.length_eq_one_iff.mp hp'
        by_cases hb : b' = b
        · subst hb
          exact hdiff (hle _ hne).symm
        · obtain rfl : b' = !b := by cases b <;> cases b' <;> simp_all
          exact hdiff (halone q b hq hne).symm
    exact ⟨q, height, hq, ⟨p, hp, by rw [hle _ hne]; exact hne⟩,
      pairAt_of_not_changed q height hsame⟩
  · rintro ⟨q, height, hq, ⟨p, hp, hne⟩, rfl⟩
    have hsame : ¬Changed S.leaf T.leaf q height := fun h => hset q height hq h rfl
    have hleaf : S.leaf (q ++ p) = T.leaf (q ++ p) := by
      by_contra hdiff
      exact hsame ⟨p, hp, hdiff⟩
    exact ⟨q, height, hq, ⟨p, hp, by rw [hleaf]; exact hne⟩,
      (pairAt_of_not_changed q height hsame).symm⟩

include hN hS hT in
/-- Beside an addition, the pair of the old leaves is neither dropped nor set, and it is gone. -/
theorem stale_of_beside (q : List Bool) (b : Bool) (hq : q.length + 1 = H)
    (hold : S.leaf (q ++ [b]) ≠ 0) (hbeside : T.leaf (q ++ [!b]) ≠ S.leaf (q ++ [!b])) :
    pairAt N 0 (below S.leaf q) ∉ Pairs N H T ∧
      ∀ q' height, q'.length + (height + 1) = H → Changed S.leaf T.leaf q' height →
        pairAt N 0 (below S.leaf q) ≠ dropped S.leaf T.leaf N q' height ∧
        pairAt N 0 (below S.leaf q) ≠ pairAt N height (below T.leaf q') := by
  have hlast : ∃ p, p.length = 0 + 1 ∧ S.leaf (q ++ p) ≠ 0 := ⟨[b], rfl, hold⟩
  have hother : ∀ q' height, q'.length + (height + 1) = H →
      pairAt N 0 (below S.leaf q) ≠ pairAt N height (below T.leaf q') := by
    intro q' height hq' heq
    obtain ⟨-, hsame, hplace⟩ := same_subtree hN S T hS hT q q' 0 height hq hq' heq
    obtain rfl := hplace hlast
    exact hbeside (hsame [!b] rfl).symm
  refine ⟨?_, ?_⟩
  · rintro ⟨q', height, hq', -, hpair⟩
    exact hother q' height hq' hpair
  · intro q' height hq' _
    refine ⟨?_, hother q' height hq'⟩
    cases height with
    | zero => exact hother q' 0 hq'
    | succ height =>
      intro heq
      obtain ⟨hheight, -⟩ := same_subtree hN S S hS hS q q' 0 (height + 1) hq hq' heq
      omega

end Insertion
end PayyRollup.SparseMerkle
