import PayyRollup.SmirkCanonicity
import PayyRollup.SparsePairs

/-!
The hashes that an insertion reports. The report of each changed node drops a pair and sets
another one; whatever the schedule, the pair is dropped before the node's own is set. The
changed nodes are the subtrees in which the leaves differ, and the known hashes of a tree are
the pairs of its occupied subtrees.
-/
namespace PayyRollup.SmirkValues

open ScalarField SparseMerkle ElementHash SmirkNode SmirkTree KeyValueStore

/-- A pair of elements and its hash. -/
def KnownHash.ofPair (hash : List Fr → Fr) (pair : Element × Element) : KnownHash :=
  ⟨pair.1, pair.2, elementNode hash pair.1 pair.2⟩

def HashChange.setPair (hash : List Fr → Fr) (pair : Element × Element) : HashChange :=
  .set pair.1 pair.2 (elementNode hash pair.1 pair.2)

/-- The hash of two elements, with the pairs that are hashed. -/
def elementHash (hash : List Fr → Fr) (pairs : Set (Element × Element)) : NodeHash Element :=
  ⟨elementNode hash, fun a b => (a, b) ∈ pairs⟩

/-- Every dropped pair is followed by the pair that its node sets. -/
def Closes (hash : List Fr → Fr) (changes : List ((Element × Element) × (Element × Element))) :
    List HashChange → Prop
  | [] => True
  | .remove left right :: rest =>
      (∃ pair, ((left, right), pair) ∈ changes ∧ HashChange.setPair hash pair ∈ rest) ∧
        Closes hash changes rest
  | .set _ _ _ :: rest => Closes hash changes rest

section Logs

variable {hash : List Fr → Fr} {changes : List ((Element × Element) × (Element × Element))}

theorem mem_interleave {α : Type} (choices : List Bool) (xs ys : List α) (x : α) :
    x ∈ interleave choices xs ys ↔ x ∈ xs ∨ x ∈ ys := by
  induction choices generalizing xs ys with
  | nil => exact List.mem_append
  | cons second choices ih =>
    cases second with
    | false =>
      cases xs with
      | nil => exact ih [] ys
      | cons a xs => simp only [interleave, List.mem_cons, ih, or_assoc]
    | true =>
      cases ys with
      | nil =>
        cases xs with
        | nil => exact ih [] []
        | cons a xs => exact ih (a :: xs) []
      | cons b ys =>
        have hleft : interleave (true :: choices) xs (b :: ys) = b :: interleave choices xs ys := by
          cases xs <;> rfl
        rw [hleft, List.mem_cons, ih, List.mem_cons]
        tauto

theorem Closes.append (log log' : List HashChange) (h : Closes hash changes log)
    (h' : Closes hash changes log') : Closes hash changes (log ++ log') := by
  induction log with
  | nil => exact h'
  | cons change log ih =>
    cases change with
    | set left right result => exact ih h
    | remove left right =>
      obtain ⟨⟨pair, hpair, hset⟩, hrest⟩ := h
      exact ⟨⟨pair, hpair, List.mem_append_left _ hset⟩, ih hrest⟩

theorem Closes.mono {changes' : List ((Element × Element) × (Element × Element))}
    (hsub : changes ⊆ changes') (log : List HashChange) (h : Closes hash changes log) :
    Closes hash changes' log := by
  induction log with
  | nil => trivial
  | cons change log ih =>
    cases change with
    | set left right result => exact ih h
    | remove left right =>
      obtain ⟨⟨pair, hpair, hset⟩, hrest⟩ := h
      exact ⟨⟨pair, hsub hpair, hset⟩, ih hrest⟩

/-- A call before a run that closes what the call drops. -/
theorem Closes.cons (change : HashChange) (log rest : List HashChange)
    (h : Closes hash changes (change :: log)) (hsub : log ⊆ rest)
    (hrest : Closes hash changes rest) : Closes hash changes (change :: rest) := by
  cases change with
  | set left right result => exact hrest
  | remove left right =>
    obtain ⟨⟨pair, hpair, hset⟩, -⟩ := h
    exact ⟨⟨pair, hpair, hsub hset⟩, hrest⟩

theorem Closes.tail (change : HashChange) (log : List HashChange)
    (h : Closes hash changes (change :: log)) : Closes hash changes log := by
  cases change with
  | set left right result => exact h
  | remove left right => exact h.2

theorem Closes.interleave (choices : List Bool) (xs ys : List HashChange)
    (hxs : Closes hash changes xs) (hys : Closes hash changes ys) :
    Closes hash changes (interleave choices xs ys) := by
  induction choices generalizing xs ys with
  | nil => exact hxs.append xs ys hys
  | cons second choices ih =>
    cases second with
    | false =>
      cases xs with
      | nil => exact ih [] ys hxs hys
      | cons x xs =>
        refine hxs.cons x xs _ ?_ (ih xs ys (hxs.tail x xs) hys)
        exact fun c hc => (mem_interleave choices xs ys c).mpr (Or.inl hc)
    | true =>
      cases ys with
      | nil =>
        cases xs with
        | nil => exact ih [] [] hxs hys
        | cons x xs => exact ih (x :: xs) [] hxs hys
      | cons y ys =>
        have hleft : SmirkValues.interleave (true :: choices) xs (y :: ys) =
            y :: SmirkValues.interleave choices xs ys := by cases xs <;> rfl
        rw [hleft]
        refine hys.cons y ys _ ?_ (ih xs ys hxs (hys.tail y ys))
        exact fun c hc => (mem_interleave choices xs ys c).mpr (Or.inr hc)

/-- What follows a dropped pair closes it. -/
theorem Closes.set_after (log before after : List HashChange) (left right : Element)
    (h : Closes hash changes log) (hlog : log = before ++ .remove left right :: after) :
    ∃ pair, ((left, right), pair) ∈ changes ∧ HashChange.setPair hash pair ∈ after := by
  induction before generalizing log with
  | nil =>
    subst hlog
    exact h.1
  | cons change before ih =>
    subst hlog
    exact ih _ (h.tail change _) rfl

def HashChange.toWrite : HashChange → Write (Element × Element) (Option Element)
  | .remove left right => .put (left, right) none
  | .set left right result => .put (left, right) (some result)

/-- The last report of each pair: its hash if it was set, and none if it was removed. -/
def hashChanges (log : List HashChange) : Store (Element × Element) (Option Element) :=
  write (log.map HashChange.toWrite) ∅

theorem hashChanges_cases (log : List HashChange) (pair : Element × Element) :
    (∀ change ∈ log, change.toWrite.key ≠ pair) ∧ (hashChanges log).lookup pair = none ∨
      ∃ before change after, log = before ++ change :: after ∧ change.toWrite.key = pair ∧
        (∀ change' ∈ after, change'.toWrite.key ≠ pair) ∧
        (hashChanges log).lookup pair = change.toWrite.outcome := by
  rcases lookup_write_cases (log.map HashChange.toWrite) ∅ pair with
    ⟨hnone, hlookup⟩ | ⟨before, w, after, hlog, hkey, hafter, hlookup⟩
  · exact Or.inl ⟨fun c hc => hnone _ (List.mem_map_of_mem hc),
      hlookup.trans (Finmap.lookup_empty pair)⟩
  · obtain ⟨before', rest, rfl, -, hrest⟩ := List.map_eq_append_iff.mp hlog
    obtain ⟨change, after', rfl, rfl, rfl⟩ := List.map_eq_cons_iff.mp hrest
    exact Or.inr ⟨before', change, after', rfl, hkey,
      fun c hc => hafter _ (List.mem_map_of_mem hc), hlookup⟩

/-- What a log says about the hashes of the changed nodes. -/
structure Reports (hash : List Fr → Fr)
    (changes : List ((Element × Element) × (Element × Element))) (log : List HashChange) :
    Prop where
  closes : Closes hash changes log
  sets : ∀ left right result, HashChange.set left right result ∈ log ↔
    ∃ change ∈ changes, .set left right result = HashChange.setPair hash change.2
  removes : ∀ left right, HashChange.remove left right ∈ log ↔
    ∃ change ∈ changes, change.1 = (left, right)

/-- A pair that only its own node drops is set in the end. -/
theorem Reports.lookup_set (log : List HashChange) (h : Reports hash changes log)
    (change : (Element × Element) × (Element × Element)) (hchange : change ∈ changes)
    (hown : ∀ change' ∈ changes, change'.1 = change.2 → change'.2 = change.2) :
    (hashChanges log).lookup change.2 = some (some (elementNode hash change.2.1 change.2.2)) := by
  have hset : HashChange.setPair hash change.2 ∈ log := (h.sets _ _ _).mpr ⟨change, hchange, rfl⟩
  rcases hashChanges_cases log change.2 with ⟨hnone, -⟩ | ⟨before, last, after, hlog, hkey, hafter, hlookup⟩
  · exact absurd rfl (hnone _ hset)
  · rw [hlookup]
    cases last with
    | set left right result =>
      obtain ⟨change', -, heq⟩ := (h.sets left right result).mp (by rw [hlog]; simp)
      obtain ⟨rfl, rfl, rfl⟩ := HashChange.set.inj heq
      rw [← hkey]
      rfl
    | remove left right =>
      obtain ⟨pair, hpair, hafterSet⟩ := h.closes.set_after log before after left right hlog
      have hsame : pair = change.2 := hown _ hpair hkey
      exact absurd hsame (hafter _ hafterSet)

theorem Reports.lookup_removed (log : List HashChange) (h : Reports hash changes log)
    (change : (Element × Element) × (Element × Element)) (hchange : change ∈ changes)
    (hnot : ∀ change' ∈ changes, change'.2 ≠ change.1) :
    (hashChanges log).lookup change.1 = some none := by
  have hremove : HashChange.remove change.1.1 change.1.2 ∈ log :=
    (h.removes _ _).mpr ⟨change, hchange, rfl⟩
  rcases hashChanges_cases log change.1 with ⟨hnone, -⟩ | ⟨before, last, after, hlog, hkey, -, hlookup⟩
  · exact absurd rfl (hnone _ hremove)
  · rw [hlookup]
    cases last with
    | remove left right => rfl
    | set left right result =>
      obtain ⟨change', hin, heq⟩ := (h.sets left right result).mp (by rw [hlog]; simp)
      obtain ⟨rfl, rfl, -⟩ := HashChange.set.inj heq
      exact absurd hkey (hnot change' hin)

/-- A hash that is set in the end is right. -/
theorem Reports.lookup_true (log : List HashChange) (h : Reports hash changes log)
    (left right result : Element)
    (hlookup : (hashChanges log).lookup (left, right) = some (some result)) :
    result = elementNode hash left right := by
  rcases hashChanges_cases log (left, right) with ⟨-, hnone⟩ | ⟨before, last, after, hlog, hkey, -, hlast⟩
  · rw [hnone] at hlookup
    cases hlookup
  · rw [hlast] at hlookup
    cases last with
    | remove left' right' => cases hlookup
    | set left' right' result' =>
      obtain ⟨change, -, heq⟩ := (h.sets left' right' result').mp (by rw [hlog]; simp)
      obtain ⟨rfl, rfl, rfl⟩ := HashChange.set.inj heq
      cases hkey
      cases hlookup
      rfl

theorem Reports.lookup_untouched (log : List HashChange) (h : Reports hash changes log)
    (pair : Element × Element) (hset : ∀ change ∈ changes, change.2 ≠ pair)
    (hremove : ∀ change ∈ changes, change.1 ≠ pair) : (hashChanges log).lookup pair = none := by
  rcases hashChanges_cases log pair with ⟨-, hlookup⟩ | ⟨before, last, after, hlog, hkey, -, -⟩
  · exact hlookup
  · cases last with
    | remove left right =>
      obtain ⟨change, hin, heq⟩ := (h.removes left right).mp (by rw [hlog]; simp)
      exact absurd (heq.trans hkey) (hremove change hin)
    | set left right result =>
      obtain ⟨change, hin, heq⟩ := (h.sets left right result).mp (by rw [hlog]; simp)
      obtain ⟨rfl, rfl, -⟩ := HashChange.set.inj heq
      exact absurd hkey (hset change hin)

end Logs

namespace Node

variable (hash : List Fr → Fr)

/-- The pairs that the dirty nodes drop, each with the pair that its node sets. -/
def changes : {height : ℕ} → Node height → List ((Element × Element) × (Element × Element))
  | 0, _ => []
  | _ + 1, .empty _ => []
  | _ + 1, .parent left right _ hashDirty =>
      if hashDirty then
        ((left.rootHash hash, right.rootHash hash),
          ((left.recalculateHashes hash).rootHash hash,
            (right.recalculateHashes hash).rootHash hash)) :: (changes left ++ changes right)
      else []

/-- In any order, recalculating reports the changes of the dirty nodes. -/
theorem reports_changes {height : ℕ} (node : Node height) (schedule : Schedule) :
    Reports hash (changes hash node)
      (recalculateHashes hash (elementNode hash) node schedule).2 := by
  have hnone : Reports hash [] [] := ⟨trivial, by simp, by simp⟩
  induction height generalizing schedule with
  | zero => cases node <;> exact hnone
  | succ height ih =>
    cases node with
    | empty _ => exact hnone
    | parent left right h hashDirty =>
      cases hashDirty with
      | false => exact hnone
      | true =>
        have hleft := ih left fun path => schedule (false :: path)
        have hright := ih right fun path => schedule (true :: path)
        have hsub : ∀ cs : List ((Element × Element) × (Element × Element)),
            cs ⊆ changes hash left ++ changes hash right →
            cs ⊆ changes hash (.parent left right h true) := fun cs hcs c hc =>
          List.mem_cons_of_mem _ (hcs hc)
        have hown : ((left.rootHash hash, right.rootHash hash),
            ((left.recalculateHashes hash).rootHash hash,
              (right.recalculateHashes hash).rootHash hash)) ∈
            changes hash (.parent left right h true) := List.mem_cons_self
        simp only [recalculateHashes, recalculateHashes_fst, ↓reduceIte]
        refine ⟨⟨⟨_, hown, by simp [HashChange.setPair]⟩, ?_⟩, ?_, ?_⟩
        · apply Closes.append
          · apply Closes.interleave
            · exact hleft.closes.mono (hsub _ (List.subset_append_left _ _))
            · exact hright.closes.mono (hsub _ (List.subset_append_right _ _))
          · trivial
        · intro l r result
          have hl := hleft.sets l r result
          have hr := hright.sets l r result
          simp only [List.mem_cons, List.mem_append, mem_interleave, hl, hr, changes,
            HashChange.setPair, reduceCtorEq, ↓reduceIte, false_or]
          simp only [List.not_mem_nil, or_false, or_and_right, exists_or, exists_eq_left]
          exact or_comm
        · intro l r
          have hl := hleft.removes l r
          have hr := hright.removes l r
          simp only [List.mem_cons, List.mem_append, mem_interleave, hl, hr, changes,
            reduceCtorEq, ↓reduceIte, HashChange.remove.injEq]
          simp only [List.not_mem_nil, or_false, or_and_right, exists_or, exists_eq_left,
            Prod.mk.injEq]
          rw [@eq_comm _ l, @eq_comm _ r]

section Subtrees

variable {hash} {height : ℕ} (pairs : Set (Element × Element))

theorem rootHash_zero (node : SmirkNode.Node 0) : node.rootHash hash = node.leafAt [] := by
  cases node <;> rfl

/-- A touched node above the leaves keeps its old hash. -/
theorem rootHash_of_touched (old new : SmirkNode.Node (height + 1)) (h : old.Touched hash new) :
    new.rootHash hash = old.rootHash hash := by
  obtain ⟨l, r, rfl, -⟩ := h
  rfl

theorem changed_of_touched (old new : SmirkNode.Node height) (h : old.Touched hash new) :
    ∃ p, p.length = height ∧ old.leafAt p = 0 ∧ new.leafAt p ≠ 0 := by
  induction height with
  | zero =>
    obtain ⟨rfl, element, hne, rfl⟩ := h
    exact ⟨[], rfl, rfl, hne⟩
  | succ height ih =>
    obtain ⟨l, r, rfl, -, -, hsome⟩ := h
    have hside : ∀ b, (old.side b).Touched hash (if b then r else l) →
        ∃ p, p.length = height + 1 ∧ old.leafAt p = 0 ∧
          (SmirkNode.Node.parent l r (old.rootHash hash) true).leafAt p ≠ 0 := by
      intro b hb
      obtain ⟨p, hp, hzero, hne⟩ := ih _ _ hb
      rw [← child_leafAt] at hzero
      refine ⟨b :: p, by simp [hp], hzero, ?_⟩
      cases b with
      | false => exact hne
      | true => exact hne
    rcases hsome with hl | hr
    · exact hside false hl
    · exact hside true hr

theorem changes_of_wellHashed (node : SmirkNode.Node height) (h : node.WellHashed hash) :
    changes hash node = [] := by
  cases node with
  | leaf element => rfl
  | empty _ => cases height <;> rfl
  | parent l r stored hashDirty =>
    obtain rfl := h.1
    rfl

/-- The pair that a touched node drops. -/
theorem dropped_of_touched (old : SmirkNode.Node (height + 1)) (hold : old.WellHashed hash)
    (l r : SmirkNode.Node height)
    (hl : l = old.side false ∨ (old.side false).Touched hash l)
    (hr : r = old.side true ∨ (old.side true).Touched hash r) :
    (l.rootHash hash, r.rootHash hash) =
      dropped old.leafAt (SmirkNode.Node.parent l r (old.rootHash hash) true).leafAt
        (elementHash hash pairs) [] height := by
  cases height with
  | zero =>
    rw [rootHash_zero, rootHash_zero]
    rfl
  | succ height =>
    have hside : ∀ (b : Bool) (n : SmirkNode.Node (height + 1)),
        n = old.side b ∨ (old.side b).Touched hash n →
        n.rootHash hash = root (elementNode hash) (height + 1) (child old.leafAt b) := by
      intro b n hn
      rw [child_leafAt, ← rootHash_eq hash _ (wellHashed_side hash old hold b)]
      rcases hn with rfl | hn
      · rfl
      · exact rootHash_of_touched _ _ hn
    rw [hside false l hl, hside true r hr]
    rfl

/-- The changes of a touched node are those of the subtrees in which leaves were added. -/
theorem mem_changes (old new : SmirkNode.Node height) (hold : old.WellHashed hash)
    (h : old.Touched hash new) (change : (Element × Element) × (Element × Element)) :
    change ∈ changes hash new ↔
      ∃ q low, q.length + (low + 1) = height ∧ Changed old.leafAt new.leafAt q low ∧
        change = (dropped old.leafAt new.leafAt (elementHash hash pairs) q low,
          pairAt (elementHash hash pairs) low (below new.leafAt q)) := by
  induction height with
  | zero =>
    have hnil : changes hash new = [] := by cases new <;> rfl
    rw [hnil]
    refine iff_of_false (by simp) ?_
    rintro ⟨q, low, hlen, -⟩
    omega
  | succ height ih =>
    have htouched := h
    obtain ⟨l, r, rfl, hl, hr, -⟩ := h
    let new := SmirkNode.Node.parent l r (old.rootHash hash) true
    have hside : ∀ (b : Bool), (new.side b = old.side b ∨
        (old.side b).Touched hash (new.side b)) →
        (change ∈ changes hash (new.side b) ↔
          ∃ q low, (b :: q).length + (low + 1) = height + 1 ∧
            Changed old.leafAt new.leafAt (b :: q) low ∧
            change = (dropped old.leafAt new.leafAt (elementHash hash pairs) (b :: q) low,
              pairAt (elementHash hash pairs) low (below new.leafAt (b :: q)))) := by
      intro b hb
      have hlen : ∀ (q : List Bool) (low : ℕ), (b :: q).length + (low + 1) = height + 1 ↔
          q.length + (low + 1) = height := by
        intro q low
        rw [List.length_cons]
        omega
      have hdropped : ∀ (q : List Bool) (low : ℕ),
          dropped old.leafAt new.leafAt (elementHash hash pairs) (b :: q) low =
            dropped (old.side b).leafAt (new.side b).leafAt (elementHash hash pairs) q low := by
        intro q low
        rw [← child_leafAt old b, ← child_leafAt new b]
        cases low <;> rfl
      have hchanged : ∀ (q : List Bool) (low : ℕ), Changed old.leafAt new.leafAt (b :: q) low ↔
          Changed (old.side b).leafAt (new.side b).leafAt q low := by
        intro q low
        rw [← child_leafAt old b, ← child_leafAt new b]
        exact Iff.rfl
      simp only [hlen, hdropped, hchanged, below_cons, child_leafAt]
      have hwell := wellHashed_side hash old hold b
      rcases hb with heq | hb
      · rw [heq, changes_of_wellHashed _ hwell]
        refine iff_of_false (by simp) ?_
        rintro ⟨q, low, -, ⟨p, -, hne⟩, -⟩
        exact hne rfl
      · exact ih (old.side b) (new.side b) hwell hb
    have hleft := hside false hl
    have hright := hside true hr
    have hown : ((l.rootHash hash, r.rootHash hash),
        ((l.recalculateHashes hash).rootHash hash, (r.recalculateHashes hash).rootHash hash)) =
        (dropped old.leafAt new.leafAt (elementHash hash pairs) [] height,
          pairAt (elementHash hash pairs) height (below new.leafAt [])) := by
      have hroot : ∀ (b : Bool) (n : SmirkNode.Node height),
          n = old.side b ∨ (old.side b).Touched hash n →
          (n.recalculateHashes hash).rootHash hash = root (elementNode hash) height n.leafAt := by
        intro b n hn
        have hwell := wellHashed_side hash old hold b
        have hmarked : n.Marked hash := by
          rcases hn with rfl | hn
          · exact marked_of_wellHashed hash _ hwell
          · exact marked_of_touched hash _ n hwell hn
        obtain ⟨hnew, hleaf⟩ := recalculateHashes_spec hash n hmarked
        rw [rootHash_eq hash _ hnew, hleaf]
      rw [dropped_of_touched pairs old hold l r hl hr, hroot false l hl, hroot true r hr]
      rfl
    change change ∈ _ :: (changes hash (new.side false) ++ changes hash (new.side true)) ↔ _
    rw [List.mem_cons, List.mem_append, hleft, hright, hown]
    constructor
    · rintro (rfl | ⟨q, low, hlen, hchanged, rfl⟩ | ⟨q, low, hlen, hchanged, rfl⟩)
      · obtain ⟨p, hp, hzero, hne⟩ := changed_of_touched old new htouched
        refine ⟨[], height, by simp, ⟨p, hp, ?_⟩, rfl⟩
        intro heq
        exact hne (heq.symm.trans hzero)
      · exact ⟨false :: q, low, hlen, hchanged, rfl⟩
      · exact ⟨true :: q, low, hlen, hchanged, rfl⟩
    · rintro ⟨q, low, hlen, hchanged, rfl⟩
      cases q with
      | nil =>
        obtain rfl : low = height := by simpa using hlen
        exact Or.inl rfl
      | cons b q =>
        cases b with
        | false => exact Or.inr (Or.inl ⟨q, low, hlen, hchanged, rfl⟩)
        | true => exact Or.inr (Or.inr ⟨q, low, hlen, hchanged, rfl⟩)

/-- Every parent has an element below it. -/
def Occupied : {height : ℕ} → SmirkNode.Node height → Prop
  | 0, _ => True
  | _ + 1, .empty _ => True
  | height + 1, .parent l r h hashDirty =>
      (∃ p, p.length = height + 1 ∧ (SmirkNode.Node.parent l r h hashDirty).leafAt p ≠ 0) ∧
        Occupied l ∧ Occupied r

theorem occupied_side (node : SmirkNode.Node (height + 1)) (h : Occupied node) (b : Bool) :
    Occupied (node.side b) := by
  cases node with
  | empty _ => cases height <;> trivial
  | parent l r _ _ =>
    cases b with
    | false => exact h.2.1
    | true => exact h.2.2

theorem recalculateHashes_wellHashed (node : SmirkNode.Node height) (h : node.WellHashed hash) :
    node.recalculateHashes hash = node := by
  cases node with
  | leaf element => rfl
  | empty _ => cases height <;> rfl
  | parent l r stored hashDirty =>
    obtain rfl := h.1
    rfl

/-- An insertion opens no parent without an element. -/
theorem occupied_of_touched (old new : SmirkNode.Node height) (hold : old.WellHashed hash)
    (hocc : Occupied old) (h : old.Touched hash new) :
    Occupied (new.recalculateHashes hash) := by
  induction height with
  | zero =>
    obtain ⟨-, element, -, rfl⟩ := h
    trivial
  | succ height ih =>
    obtain ⟨p, hp, -, hne⟩ := changed_of_touched old new h
    obtain ⟨-, hleaf⟩ := recalculateHashes_spec hash new (marked_of_touched hash old new hold h)
    rw [← hleaf] at hne
    obtain ⟨l, r, rfl, hl, hr, -⟩ := h
    have hside : ∀ (b : Bool) (n : SmirkNode.Node height),
        n = old.side b ∨ (old.side b).Touched hash n → Occupied (n.recalculateHashes hash) := by
      intro b n hn
      have hwell := wellHashed_side hash old hold b
      have hocc' := occupied_side old hocc b
      rcases hn with rfl | hn
      · rw [recalculateHashes_wellHashed _ hwell]
        exact hocc'
      · exact ih _ n hwell hocc' hn
    exact ⟨⟨p, hp, hne⟩, hside false l hl, hside true r hr⟩

/-- The known hashes are the pairs of the occupied subtrees. -/
theorem knownHashes_spec (node : SmirkNode.Node height) (hwell : node.WellHashed hash)
    (hocc : Occupied node) :
    ∃ known, knownHashes hash node = some known ∧ ∀ k, k ∈ known ↔
      ∃ q low, q.length + (low + 1) = height ∧
        (∃ p, p.length = low + 1 ∧ node.leafAt (q ++ p) ≠ 0) ∧
        k = KnownHash.ofPair hash (pairAt (elementHash hash pairs) low (below node.leafAt q)) := by
  induction height with
  | zero =>
    have hnil : knownHashes hash node = some [] := by cases node <;> rfl
    refine ⟨[], hnil, ?_⟩
    intro k
    refine iff_of_false (by simp) ?_
    rintro ⟨q, low, hlen, -⟩
    omega
  | succ height ih =>
    cases node with
    | empty _ =>
      refine ⟨[], rfl, ?_⟩
      intro k
      refine iff_of_false (by simp) ?_
      rintro ⟨q, low, -, ⟨p, -, hne⟩, -⟩
      exact hne (leafAt_empty _)
    | parent l r stored hashDirty =>
      obtain ⟨rfl, rfl, hl, hr⟩ := hwell
      obtain ⟨hne, hoccLeft, hoccRight⟩ := hocc
      obtain ⟨ls, hls, hleft⟩ := ih l hl hoccLeft
      obtain ⟨rs, hrs, hright⟩ := ih r hr hoccRight
      refine ⟨⟨l.rootHash hash, r.rootHash hash,
        elementNode hash (l.rootHash hash) (r.rootHash hash)⟩ :: ls ++ rs, ?_, ?_⟩
      · simp only [knownHashes, hls, hrs, Bool.false_eq_true, ↓reduceIte]
        rfl
      · intro k
        have hown : KnownHash.mk (l.rootHash hash) (r.rootHash hash)
            (elementNode hash (l.rootHash hash) (r.rootHash hash)) =
            KnownHash.ofPair hash (pairAt (elementHash hash pairs) height
              (below (SmirkNode.Node.parent l r
                (elementNode hash (l.rootHash hash) (r.rootHash hash)) false).leafAt [])) := by
          rw [rootHash_eq hash l hl, rootHash_eq hash r hr]
          rfl
        rw [List.cons_append, List.mem_cons, List.mem_append, hleft, hright, hown]
        constructor
        · rintro (rfl | ⟨q, low, hlen, hsome, rfl⟩ | ⟨q, low, hlen, hsome, rfl⟩)
          · exact ⟨[], height, by simp, hne, rfl⟩
          · exact ⟨false :: q, low, by rw [List.length_cons]; omega, hsome, rfl⟩
          · exact ⟨true :: q, low, by rw [List.length_cons]; omega, hsome, rfl⟩
        · rintro ⟨q, low, hlen, hsome, rfl⟩
          cases q with
          | nil =>
            obtain rfl : low = height := by simpa using hlen
            exact Or.inl rfl
          | cons b q =>
            rw [List.length_cons] at hlen
            cases b with
            | false => exact Or.inr (Or.inl ⟨q, low, by omega, hsome, rfl⟩)
            | true => exact Or.inr (Or.inr ⟨q, low, by omega, hsome, rfl⟩)

end Subtrees

end Node
end PayyRollup.SmirkValues
