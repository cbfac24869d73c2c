import Mathlib.Data.List.Lex
import PayyRollup.ElementHash
import PayyRollup.SparseOverlay

/-!
The tree representation of the notes tree. A node of height `h` is a tree of depth `h + 1`
in the terms of the source. Elements are passed down sorted by their low bits, so the ones
that belong to the right child are a suffix. A node denotes the assignment of its leaves,
and every operation is described on that assignment.
-/
namespace PayyRollup.SmirkNode

open BitLists ScalarField SparseMerkle ElementHash

inductive Node : ℕ → Type
  | leaf (element : Element) : Node 0
  | empty (height : ℕ) : Node height
  | parent {height : ℕ} (left right : Node height) (hash : Element) (hashDirty : Bool) :
      Node (height + 1)

/-- The slot of an element in a tree of depth `D`. -/
def bits (D : ℕ) (e : Element) : List Bool := e.lsb (D - 1)

@[simp] theorem bits_length (D : ℕ) (e : Element) : (bits D e).length = D - 1 := by
  simp [bits]

/-- The side of an element at a parent. -/
def bit (D pathDepth : ℕ) (e : Element) : Bool := (bits D e).getD pathDepth false

def sortByBits (D : ℕ) (elements : List Element) : List Element :=
  elements.mergeSort fun a b => decide (bits D a ≤ bits D b)

def lefts (D pathDepth : ℕ) (elements : List Element) : List Element :=
  elements.takeWhile fun e => !bit D pathDepth e

def rights (D pathDepth : ℕ) (elements : List Element) : List Element :=
  elements.dropWhile fun e => !bit D pathDepth e

namespace Node

variable (hash : List Fr → Fr) (D : ℕ)

def rootHash : {height : ℕ} → Node height → Element
  | _, leaf element => element
  | _, empty height => emptyTreeHash hash (height + 1)
  | _, parent _ _ hash _ => hash

/-- An empty tree splits into two empty trees. -/
def side {height : ℕ} (right : Bool) : Node (height + 1) → Node height
  | empty _ => empty height
  | parent l r _ _ => if right then r else l

/-- The hash with extra elements; an assertion fails where two of them meet an empty leaf. -/
def hashWithInner : {height : ℕ} → Node height → List Element → ℕ → Option Element
  | 0, leaf element, _, _ => some element
  | 0, empty _, extra, _ =>
      if extra.length ≤ 1 then some (extra.headD (emptyTreeHash hash 1)) else none
  | _ + 1, node, extra, pathDepth =>
      let ls := lefts D pathDepth extra
      let rs := rights D pathDepth extra
      let leftHash := if ls.isEmpty then some ((node.side false).rootHash hash)
        else hashWithInner (node.side false) ls (pathDepth + 1)
      let rightHash := if rs.isEmpty then some ((node.side true).rootHash hash)
        else hashWithInner (node.side true) rs (pathDepth + 1)
      leftHash.bind fun l => rightHash.map fun r => elementNode hash l r

def hashWith {height : ℕ} (node : Node height) (extra : List Element) : Option Element :=
  node.hashWithInner hash D (sortByBits D extra) 0

/-- Insert without hashing; `none` stands for a collision, which the only caller unwraps. -/
def insertWithoutHashing : {height : ℕ} → Node height → List Element → ℕ →
    Option (Node height × Bool)
  | 0, leaf element, elements, _ =>
      if element ∈ elements then some (leaf element, false) else none
  | 0, empty _, elements, _ =>
      match elements with
      | [element] => some (leaf element, true)
      | _ => none
  | _ + 1, node, elements, pathDepth =>
      let ls := lefts D pathDepth elements
      let rs := rights D pathDepth elements
      let right := if rs.isEmpty then some (node.side true, false)
        else insertWithoutHashing (node.side true) rs (pathDepth + 1)
      let left := if ls.isEmpty then some (node.side false, false)
        else insertWithoutHashing (node.side false) ls (pathDepth + 1)
      if ls.isEmpty && rs.isEmpty then some (node, false)
      else right.bind fun r => left.map fun l =>
        (parent l.1 r.1 (node.rootHash hash) (r.2 || l.2), r.2 || l.2)

def recalculateHashes : {height : ℕ} → Node height → Node height
  | 0, node => node
  | _ + 1, empty _ => empty _
  | _ + 1, parent left right h hashDirty =>
      if hashDirty then
        let left' := recalculateHashes left
        let right' := recalculateHashes right
        parent left' right' (elementNode hash (left'.rootHash hash) (right'.rootHash hash)) false
      else parent left right h hashDirty

/-- The assignment a node denotes. -/
def leafAt : {height : ℕ} → Node height → List Bool → Element
  | 0, leaf element, [] => element
  | _ + 1, parent left _ _ _, false :: p => left.leafAt p
  | _ + 1, parent _ right _ _, true :: p => right.leafAt p
  | _, _, _ => Element.nullHash

/-- Every stored hash is the hash of the children, and no hash is out of date. -/
def WellHashed : {height : ℕ} → Node height → Prop
  | 0, leaf element => element ≠ Element.nullHash
  | _, empty _ => True
  | _ + 1, parent left right h hashDirty =>
      hashDirty = false ∧ h = elementNode hash (left.rootHash hash) (right.rootHash hash) ∧
        left.WellHashed ∧ right.WellHashed

/-- Every hash that is out of date is marked. -/
def Marked : {height : ℕ} → Node height → Prop
  | 0, leaf element => element ≠ Element.nullHash
  | _, empty _ => True
  | _ + 1, parent left right h hashDirty =>
      if hashDirty then left.Marked ∧ right.Marked
      else (parent left right h hashDirty).WellHashed hash

/-- What an insertion leaves behind: the nodes above a new leaf are dirty and keep their old
hash, and the others are as they were. -/
def Touched : {height : ℕ} → Node height → Node height → Prop
  | 0, old, new => old = empty 0 ∧ ∃ element, element ≠ Element.nullHash ∧ new = leaf element
  | _ + 1, old, new => ∃ l r, new = parent l r (old.rootHash hash) true ∧
      (l = old.side false ∨ Touched (old.side false) l) ∧
      (r = old.side true ∨ Touched (old.side true) r) ∧
      (Touched (old.side false) l ∨ Touched (old.side true) r)

end Node

section Sorting

variable (D : ℕ)

/-- The elements are sorted by the bits from a depth on. -/
def SortedFrom (pathDepth : ℕ) (elements : List Element) : Prop :=
  elements.Pairwise fun a b => (bits D a).drop pathDepth ≤ (bits D b).drop pathDepth

theorem sortByBits_perm (elements : List Element) : (sortByBits D elements).Perm elements :=
  List.mergeSort_perm _ _

theorem sortByBits_sorted (elements : List Element) : SortedFrom D 0 (sortByBits D elements) := by
  let le : Element → Element → Bool := fun a b => decide (bits D a ≤ bits D b)
  have htrans : ∀ a b c, le a b = true → le b c = true → le a c = true := by
    intro a b c hab hbc
    exact decide_eq_true (le_trans (of_decide_eq_true hab) (of_decide_eq_true hbc))
  have htotal : ∀ a b, (le a b || le b a) = true := by
    intro a b
    rcases le_total (bits D a) (bits D b) with h | h <;> simp [le, h]
  apply (List.pairwise_mergeSort htrans htotal elements).imp
  intro a b hab
  exact of_decide_eq_true hab

theorem of_cons_le_cons (x y : Bool) (xs ys : List Bool) (h : x :: xs ≤ y :: ys) :
    (x = true → y = true) ∧ (x = y → xs ≤ ys) := by
  rcases lt_or_eq_of_le h with hlt | heq
  · cases hlt with
    | rel hbit =>
      have hbits := Bool.lt_iff.mp hbit
      exact ⟨fun _ => hbits.2, fun heq => absurd heq hbit.ne⟩
    | cons hrest => exact ⟨id, fun _ => le_of_lt hrest⟩
  · obtain ⟨hbit, hrest⟩ := List.cons.inj heq
    exact ⟨fun ha => hbit ▸ ha, fun _ => le_of_eq hrest⟩

variable {D}

theorem drop_bits (pathDepth : ℕ) (h : pathDepth < D - 1) (e : Element) :
    (bits D e).drop pathDepth = bit D pathDepth e :: (bits D e).drop (pathDepth + 1) := by
  have hlen : pathDepth < (bits D e).length := by
    rw [bits_length]
    exact h
  rw [List.drop_eq_getElem_cons hlen, bit, List.getElem_eq_getD false]

variable (pathDepth : ℕ) (h : pathDepth < D - 1) (elements : List Element)
  (hsorted : SortedFrom D pathDepth elements)

include h hsorted

theorem sorted_cons_le : elements.Pairwise fun a b =>
    (bit D pathDepth a = true → bit D pathDepth b = true) ∧
      (bit D pathDepth a = bit D pathDepth b →
        (bits D a).drop (pathDepth + 1) ≤ (bits D b).drop (pathDepth + 1)) := by
  apply hsorted.imp
  intro a b hab
  rw [drop_bits pathDepth h, drop_bits pathDepth h] at hab
  exact of_cons_le_cons _ _ _ _ hab

theorem sides_eq_filter :
    lefts D pathDepth elements = elements.filter (fun e => bit D pathDepth e = false) ∧
      rights D pathDepth elements = elements.filter (fun e => bit D pathDepth e = true) := by
  have hpairs := sorted_cons_le pathDepth h elements hsorted
  clear hsorted
  unfold lefts rights
  induction elements with
  | nil => simp
  | cons e rest ih =>
    obtain ⟨hfirst, hrest⟩ := List.pairwise_cons.mp hpairs
    obtain ⟨hl, hr⟩ := ih hrest
    cases he : bit D pathDepth e with
    | false => simp [he, hl, hr]
    | true =>
      have hall : ∀ b ∈ rest, bit D pathDepth b = true := fun b hb => (hfirst b hb).1 he
      constructor
      · simp only [List.takeWhile_cons, he, Bool.not_true, Bool.false_eq_true, ↓reduceIte]
        symm
        rw [List.filter_eq_nil_iff]
        intro b hb
        rcases List.mem_cons.mp hb with rfl | hb
        · simp [he]
        · simp [hall b hb]
      · simp only [List.dropWhile_cons, he, Bool.not_true, Bool.false_eq_true, ↓reduceIte]
        symm
        rw [List.filter_eq_self]
        intro b hb
        rcases List.mem_cons.mp hb with rfl | hb
        · simp [he]
        · simp [hall b hb]

theorem sorted_side (right : Bool) :
    SortedFrom D (pathDepth + 1) (elements.filter fun e => bit D pathDepth e = right) := by
  have hpairs := (sorted_cons_le pathDepth h elements hsorted).filter
    (fun e => decide (bit D pathDepth e = right))
  apply hpairs.imp_of_mem
  intro a b ha hb hab
  have ha' := (List.mem_filter.mp ha).2
  have hb' := (List.mem_filter.mp hb).2
  rw [decide_eq_true_eq] at ha' hb'
  exact hab.2 (ha'.trans hb'.symm)

end Sorting

section Denotation

variable (hash : List Fr → Fr) {D height : ℕ}

/-- The rest of the slot of an element below a depth. -/
def slotFrom (D pathDepth : ℕ) (e : Element) : List Bool := (bits D e).drop pathDepth

@[simp] theorem slotFrom_zero (D : ℕ) : slotFrom D 0 = bits D := by
  funext e
  rfl

theorem leafAt_empty (p : List Bool) : (Node.empty height).leafAt p = Element.nullHash := by
  cases height <;> cases p <;> rfl

theorem wellHashed_empty (height : ℕ) : (Node.empty height).WellHashed hash := by
  cases height <;> trivial

theorem child_leafAt (node : Node (height + 1)) (right : Bool) :
    child node.leafAt right = (node.side right).leafAt := by
  funext p
  cases node with
  | empty _ => exact (leafAt_empty p).symm
  | parent l r h hashDirty => cases right <;> rfl

theorem wellHashed_side (node : Node (height + 1)) (h : node.WellHashed hash) (right : Bool) :
    (node.side right).WellHashed hash := by
  cases node with
  | empty _ => exact wellHashed_empty hash height
  | parent l r _ _ =>
    obtain ⟨-, -, hl, hr⟩ := h
    cases right with
    | false => exact hl
    | true => exact hr

/-- The stored hash of a well hashed node is the root of its assignment. -/
theorem rootHash_eq (node : Node height) (h : node.WellHashed hash) :
    node.rootHash hash = root (elementNode hash) height node.leafAt := by
  induction height with
  | zero =>
    cases node with
    | leaf element => rfl
    | empty _ => rfl
  | succ height ih =>
    have hleft := ih (node.side false) (wellHashed_side hash node h false)
    have hright := ih (node.side true) (wellHashed_side hash node h true)
    rw [root, child_leafAt, child_leafAt, ← hleft, ← hright]
    cases node with
    | empty _ => rfl
    | parent l r stored hashDirty => exact h.2.1

section HashWith

variable (pathDepth : ℕ) (hdepth : pathDepth + (height + 1) = D - 1) (elements : List Element)
  (hsorted : SortedFrom D pathDepth elements)

include hdepth in
theorem slotFrom_cons (e : Element) :
    slotFrom D pathDepth e = bit D pathDepth e :: slotFrom D (pathDepth + 1) e :=
  drop_bits pathDepth (by omega) e

/-- What the elements on one side contribute. -/
theorem descend_eq_some (node : Node height) (hnode : node.WellHashed hash) (xs : List Element)
    (inner : Option Element)
    (hinner : ∀ r, inner = some r ↔ ¬Crowded (slotFrom D (pathDepth + 1)) node.leafAt xs ∧
      r = root (elementNode hash) height
        (overlay (slotFrom D (pathDepth + 1)) node.leafAt xs)) (r : Element) :
    (if xs.isEmpty then some (node.rootHash hash) else inner) = some r ↔
      ¬Crowded (slotFrom D (pathDepth + 1)) node.leafAt xs ∧
        r = root (elementNode hash) height
          (overlay (slotFrom D (pathDepth + 1)) node.leafAt xs) := by
  cases xs with
  | nil =>
    rw [List.isEmpty_nil, if_pos rfl, overlay_nil, rootHash_eq hash node hnode, Option.some_inj]
    constructor
    · intro h
      exact ⟨not_crowded_nil _ _, h.symm⟩
    · intro h
      exact h.2.symm
  | cons x rest => exact hinner r

end HashWith

/-- Hashing with extra elements gives the root of the overlay, unless they crowd a leaf. -/
theorem hashWithInner_eq_some (node : Node height) (hnode : node.WellHashed hash)
    (pathDepth : ℕ) (hdepth : pathDepth + height = D - 1) (elements : List Element)
    (hsorted : SortedFrom D pathDepth elements) (r : Element) :
    node.hashWithInner hash D elements pathDepth = some r ↔
      ¬Crowded (slotFrom D pathDepth) node.leafAt elements ∧
        r = root (elementNode hash) height
          (overlay (slotFrom D pathDepth) node.leafAt elements) := by
  induction height generalizing pathDepth elements r with
  | zero =>
    have hslot : ∀ e, slotFrom D pathDepth e = [] := by
      intro e
      apply List.drop_eq_nil_of_le
      rw [bits_length]
      omega
    have hall : (elements.filter fun x => slotFrom D pathDepth x = []) = elements := by
      apply List.filter_eq_self.mpr
      simp [hslot]
    cases node with
    | leaf element =>
      have hleaf : (Node.leaf element).leafAt [] ≠ 0 := hnode
      have hfree : ¬Crowded (slotFrom D pathDepth) (Node.leaf element).leafAt elements := by
        rw [not_crowded_iff]
        refine List.pairwise_of_forall fun x y _ => ?_
        rw [hslot]
        exact hleaf
      rw [Node.hashWithInner, Option.some_inj, root, overlay, if_neg hleaf]
      constructor
      · intro h
        exact ⟨hfree, h.symm⟩
      · intro h
        exact h.2.symm
    | empty _ =>
      have hcrowded : Crowded (slotFrom D pathDepth) (Node.empty 0).leafAt elements ↔
          2 ≤ elements.length := by
        constructor
        · rintro ⟨p, -, hp⟩
          exact hp.trans (List.length_filter_le _ _)
        · intro h
          exact ⟨[], rfl, by rw [hall]; exact h⟩
      have hleaf : (Node.empty 0).leafAt [] = 0 := rfl
      rw [Node.hashWithInner, hcrowded, root, overlay, if_pos hleaf, resident,
        ← List.head?_filter, hall]
      by_cases hlen : elements.length ≤ 1
      · rw [if_pos hlen, Option.some_inj]
        have hhead : elements.headD (emptyTreeHash hash 1) = elements.head?.getD 0 := by
          cases elements <;> rfl
        rw [hhead]
        constructor
        · intro h
          exact ⟨by omega, h.symm⟩
        · intro h
          exact h.2.symm
      · rw [if_neg hlen]
        refine iff_of_false (by simp) ?_
        rintro ⟨h, -⟩
        omega
  | succ height ih =>
    obtain ⟨hlefts, hrights⟩ := sides_eq_filter pathDepth (by omega) elements hsorted
    have hcons : ∀ e ∈ elements, slotFrom D pathDepth e =
        bit D pathDepth e :: slotFrom D (pathDepth + 1) e := fun e _ =>
      slotFrom_cons pathDepth hdepth e
    have hside : ∀ right r, _ := fun right r =>
      descend_eq_some hash pathDepth (node.side right) (wellHashed_side hash node hnode right)
        (elements.filter fun e => bit D pathDepth e = right) _
        (ih (node.side right) (wellHashed_side hash node hnode right) (pathDepth + 1) (by omega)
          (elements.filter fun e => bit D pathDepth e = right)
          (sorted_side pathDepth (by omega) elements hsorted right)) r
    rw [Node.hashWithInner, hlefts, hrights, crowded_iff_children _ _ _ _ _ hcons, root,
      child_overlay _ _ _ _ _ hcons, child_overlay _ _ _ _ _ hcons, child_leafAt, child_leafAt]
    simp only [Option.bind_eq_some_iff, Option.map_eq_some_iff, hside, Bool.exists_bool,
      child_leafAt, not_or]
    constructor
    · rintro ⟨_, ⟨hl, rfl⟩, _, ⟨hr, rfl⟩, rfl⟩
      exact ⟨⟨hl, hr⟩, rfl⟩
    · rintro ⟨⟨hl, hr⟩, rfl⟩
      exact ⟨_, ⟨hl, rfl⟩, _, ⟨hr, rfl⟩, rfl⟩

theorem marked_of_wellHashed (node : Node height) (h : node.WellHashed hash) :
    node.Marked hash := by
  cases node with
  | leaf element => exact h
  | empty _ => cases height <;> trivial
  | parent l r stored hashDirty =>
    obtain rfl := h.1
    exact h

/-- Insertion marks what it touched. -/
theorem marked_of_touched (old new : Node height) (hold : old.WellHashed hash)
    (h : old.Touched hash new) : new.Marked hash := by
  induction height with
  | zero =>
    obtain ⟨rfl, element, hne, rfl⟩ := h
    exact hne
  | succ height ih =>
    obtain ⟨l, r, rfl, hl, hr, -⟩ := h
    have hside : ∀ (right : Bool) (n : Node height),
        n = old.side right ∨ (old.side right).Touched hash n → n.Marked hash := by
      intro right n hn
      have hwell := wellHashed_side hash old hold right
      rcases hn with rfl | hn
      · exact marked_of_wellHashed hash _ hwell
      · exact ih _ n hwell hn
    exact ⟨hside false l hl, hside true r hr⟩

/-- Recalculating brings every marked hash up to date and moves no leaf. -/
theorem recalculateHashes_spec (node : Node height) (h : node.Marked hash) :
    (node.recalculateHashes hash).WellHashed hash ∧
      (node.recalculateHashes hash).leafAt = node.leafAt := by
  induction height with
  | zero =>
    cases node with
    | leaf element => exact ⟨h, rfl⟩
    | empty _ => exact ⟨trivial, rfl⟩
  | succ height ih =>
    cases node with
    | empty _ => exact ⟨trivial, rfl⟩
    | parent l r stored hashDirty =>
      cases hashDirty with
      | false => exact ⟨h, rfl⟩
      | true =>
        obtain ⟨hl, hr⟩ := h
        obtain ⟨hlWell, hlLeaf⟩ := ih l hl
        obtain ⟨hrWell, hrLeaf⟩ := ih r hr
        refine ⟨⟨rfl, rfl, hlWell, hrWell⟩, ?_⟩
        funext p
        cases p with
        | nil => rfl
        | cons right p =>
          cases right with
          | false => exact congrFun hlLeaf p
          | true => exact congrFun hrLeaf p

/-- The slots of the elements are empty and distinct below a depth. -/
structure FreeFrom (D pathDepth : ℕ) (σ : List Bool → Element) (elements : List Element) :
    Prop where
  distinct : elements.Pairwise fun a b => slotFrom D pathDepth a ≠ slotFrom D pathDepth b
  vacant : ∀ e ∈ elements, σ (slotFrom D pathDepth e) = 0

theorem FreeFrom.side {pathDepth : ℕ} (hdepth : pathDepth + (height + 1) = D - 1)
    {node : Node (height + 1)} {elements : List Element}
    (h : FreeFrom D pathDepth node.leafAt elements) (right : Bool) :
    FreeFrom D (pathDepth + 1) (node.side right).leafAt
      (elements.filter fun e => bit D pathDepth e = right) := by
  constructor
  · apply (h.distinct.filter _).imp_of_mem
    intro a b ha hb hne heq
    have ha' := (List.mem_filter.mp ha).2
    have hb' := (List.mem_filter.mp hb).2
    rw [decide_eq_true_eq] at ha' hb'
    apply hne
    rw [slotFrom_cons pathDepth hdepth, slotFrom_cons pathDepth hdepth, ha', hb', heq]
  · intro e he
    obtain ⟨hmem, hbit⟩ := List.mem_filter.mp he
    rw [decide_eq_true_eq] at hbit
    have hvacant := h.vacant e hmem
    rw [slotFrom_cons pathDepth hdepth, hbit, ← child_apply node.leafAt, child_leafAt] at hvacant
    exact hvacant

/-- The parent of two overlays is the overlay of the parent. -/
theorem leafAt_parent_overlay {pathDepth : ℕ} (hdepth : pathDepth + (height + 1) = D - 1)
    (node : Node (height + 1)) (elements : List Element) (l r : Node height) (stored : Element)
    (hashDirty : Bool)
    (hside : ∀ right, (if right then r else l).leafAt =
      overlay (slotFrom D (pathDepth + 1)) (node.side right).leafAt
        (elements.filter fun e => bit D pathDepth e = right)) :
    (Node.parent l r stored hashDirty).leafAt =
      overlay (slotFrom D pathDepth) node.leafAt elements := by
  have hcons : ∀ e ∈ elements, slotFrom D pathDepth e =
      bit D pathDepth e :: slotFrom D (pathDepth + 1) e := fun e _ =>
    slotFrom_cons pathDepth hdepth e
  funext p
  cases p with
  | nil =>
    have hroot : node.leafAt [] = 0 := by cases node <;> rfl
    have hnone : resident (slotFrom D pathDepth) elements [] = 0 := by
      rw [resident, List.find?_eq_none.mpr]
      · rfl
      · intro e he
        simp [hcons e he]
    rw [overlay, if_pos hroot, hnone]
    rfl
  | cons right p =>
    rw [← child_apply (overlay (slotFrom D pathDepth) node.leafAt elements),
      child_overlay _ _ _ _ _ hcons, child_leafAt, ← hside right]
    cases right <;> rfl

/-- Insertion into empty and distinct slots builds the overlay and touches the way to it. -/
theorem insertWithoutHashing_free (node : Node height) (hnode : node.WellHashed hash)
    (pathDepth : ℕ) (hdepth : pathDepth + height = D - 1) (elements : List Element)
    (hsorted : SortedFrom D pathDepth elements)
    (hfree : FreeFrom D pathDepth node.leafAt elements) (hne : elements ≠ [])
    (hnull : ∀ e ∈ elements, e ≠ Element.nullHash) :
    ∃ node', node.insertWithoutHashing hash D elements pathDepth = some (node', true) ∧
      node'.leafAt = overlay (slotFrom D pathDepth) node.leafAt elements ∧
      node.Touched hash node' := by
  induction height generalizing pathDepth elements with
  | zero =>
    have hslot : ∀ e, slotFrom D pathDepth e = [] := by
      intro e
      apply List.drop_eq_nil_of_le
      rw [bits_length]
      omega
    obtain ⟨e, rest, rfl⟩ := List.exists_cons_of_ne_nil hne
    have hvacant := hfree.vacant e (List.mem_cons_self ..)
    rw [hslot] at hvacant
    have hrest : rest = [] := by
      apply List.eq_nil_iff_forall_not_mem.mpr
      intro b hb
      have hdistinct := (List.pairwise_cons.mp hfree.distinct).1 b hb
      rw [hslot, hslot] at hdistinct
      exact hdistinct rfl
    subst hrest
    cases node with
    | leaf element => exact absurd hvacant hnode
    | empty _ =>
      refine ⟨Node.leaf e, rfl, ?_, rfl, e, hnull e (List.mem_cons_self ..), rfl⟩
      have hzero : Element.nullHash = 0 := rfl
      funext p
      rw [overlay, leafAt_empty, if_pos hzero, resident]
      cases p with
      | nil => simp [Node.leafAt, hslot]
      | cons b p => simp [Node.leafAt, hslot, hzero]
  | succ height ih =>
    obtain ⟨hlefts, hrights⟩ := sides_eq_filter pathDepth (by omega) elements hsorted
    have hside : ∀ right, ∃ n, (if (elements.filter fun e => bit D pathDepth e = right).isEmpty
          then some (node.side right, false)
          else (node.side right).insertWithoutHashing hash D
            (elements.filter fun e => bit D pathDepth e = right) (pathDepth + 1)) =
        some (n, !(elements.filter fun e => bit D pathDepth e = right).isEmpty) ∧
        n.leafAt = overlay (slotFrom D (pathDepth + 1)) (node.side right).leafAt
          (elements.filter fun e => bit D pathDepth e = right) ∧
        (elements.filter (fun e => bit D pathDepth e = right) = [] ∧ n = node.side right ∨
          (node.side right).Touched hash n) := by
      intro right
      have hwell := wellHashed_side hash node hnode right
      by_cases hempty : elements.filter (fun e => bit D pathDepth e = right) = []
      · rw [hempty]
        refine ⟨node.side right, rfl, ?_, Or.inl ⟨rfl, rfl⟩⟩
        rw [overlay_nil]
      · obtain ⟨n, hn, hleaf, htouched⟩ := ih (node.side right) hwell (pathDepth + 1) (by omega)
          (elements.filter fun e => bit D pathDepth e = right)
          (sorted_side pathDepth (by omega) elements hsorted right) (hfree.side hdepth right)
          hempty fun e he => hnull e (List.mem_filter.mp he).1
        rw [List.isEmpty_eq_false_iff.mpr hempty]
        exact ⟨n, hn, hleaf, Or.inr htouched⟩
    obtain ⟨l, hl, hlLeaf, hlTouched⟩ := hside false
    obtain ⟨r, hr, hrLeaf, hrTouched⟩ := hside true
    refine ⟨Node.parent l r (node.rootHash hash) true, ?_, ?_, l, r, rfl,
      hlTouched.imp_left And.right, hrTouched.imp_left And.right, ?_⟩
    · have hsome : ((elements.filter fun e => bit D pathDepth e = false).isEmpty &&
          (elements.filter fun e => bit D pathDepth e = true).isEmpty) = false := by
        obtain ⟨e, rest, rfl⟩ := List.exists_cons_of_ne_nil hne
        cases hbit : bit D pathDepth e <;> simp [hbit]
      have hdirty : (!(elements.filter fun e => bit D pathDepth e = true).isEmpty ||
          !(elements.filter fun e => bit D pathDepth e = false).isEmpty) = true := by
        rw [← Bool.not_and, Bool.and_comm, hsome]
        rfl
      rw [Node.insertWithoutHashing, hlefts, hrights]
      simp only [hl, hr, hsome, hdirty, Option.bind_some, Option.map_some]
      rfl
    · apply leafAt_parent_overlay hdepth
      intro right
      cases right with
      | false => exact hlLeaf
      | true => exact hrLeaf
    · obtain ⟨e, rest, rfl⟩ := List.exists_cons_of_ne_nil hne
      cases hbit : bit D pathDepth e with
      | false =>
        rcases hlTouched with ⟨hempty, -⟩ | htouched
        · simp [hbit] at hempty
        · exact Or.inl htouched
      | true =>
        rcases hrTouched with ⟨hempty, -⟩ | htouched
        · simp [hbit] at hempty
        · exact Or.inr htouched

end Denotation
end PayyRollup.SmirkNode
