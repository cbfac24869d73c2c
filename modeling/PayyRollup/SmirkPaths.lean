import PayyRollup.InsertCircuit
import PayyRollup.SmirkAtomicity

/-!
Merkle paths of a tree. A path is filled into an array of as many places as the tree is deep:
the siblings from the root down, an empty subtree giving all the rest of them at once, and the
element in the last place; then the siblings are turned around. Folding a path from what is in
the slot gives the root of the tree, and folding it from anything else gives the root of the
tree with that in the slot, so the paths of successive insertions link the roots between them.
-/
namespace PayyRollup.SmirkPaths

open BitLists ScalarField SparseMerkle ElementHash SmirkNode SmirkTree SmirkValues
  SmirkAtomicity ConstraintProgram Layouter Gadgets
open KeyValueStore (putAll)

variable {D : ℕ} {V : Type}

section Filling

variable (hash : List Fr → Fr)

/-- Write to a place of an array; `none` stands for a panic out of its bounds. -/
def setAt (siblings : List Element) (index : ℕ) (value : Element) : Option (List Element) :=
  if index < siblings.length then some (siblings.set index value) else none

/-- The hashes of empty subtrees, from a depth down to one. -/
def fillEmpty (siblings : List Element) (index : ℕ) : ℕ → Option (List Element)
  | 0 => some siblings
  | depth + 1 => do
      let filled ← setAt siblings index (emptyTreeHash hash (depth + 1))
      fillEmpty filled (index + 1) depth

/-- Follow the bits and write the siblings; a leaf above the last bit is a panic. -/
def walk : {height : ℕ} → Node height → List Bool → List Element → ℕ → Option (List Element)
  | _, _, [], siblings, _ => some siblings
  | 0, .leaf _, _ :: _, _, _ => none
  | height, .empty _, _ :: _, siblings, index => fillEmpty hash siblings index height
  | _ + 1, .parent left right _ _, bit :: rest, siblings, index =>
      if bit then do
        let filled ← setAt siblings index (left.rootHash hash)
        walk right rest filled (index + 1)
      else do
        let filled ← setAt siblings index (right.rootHash hash)
        walk left rest filled (index + 1)

/-- The path of an element; an element has 256 bits, and there is no tree of depth zero. -/
def pathFor (self : ValueTree D V) (element : Element) : Option (Path D) :=
  if D = 0 ∨ 257 < D then none
  else do
    let filled ← walk hash self.tree (bits D element) (List.replicate D Element.nullHash) 0
    let siblings := filled.set (D - 1) element
    return ⟨(siblings.take (D - 1)).reverse ++ siblings.drop (D - 1), self.rootHash hash⟩

/-- Whether a path proves an element. -/
def proves (self : Path D) (element : Element) : Bool :=
  decide (self.computeRootHash hash element = self.rootHash)

/-- The element in the slot of an element, or the null hash. -/
def occupant (t : ValueTree D V) (x : Element) : Element :=
  (t.elements.find? fun e => bits D e = bits D x).getD Element.nullHash

/-- The steps of a path, the deepest first. -/
def steps (self : Path D) : List (Bool × Element) :=
  (bits D self.element).reverse.zip self.siblingsDeepestFirst

section Laws

variable {hash}

theorem take_set_succ (siblings : List Element) (index : ℕ) (value : Element)
    (h : index < siblings.length) :
    (siblings.set index value).take (index + 1) = siblings.take index ++ [value] := by
  have hlen : (siblings.take index).length = index := by
    rw [List.length_take, Nat.min_eq_left h.le]
  rw [List.set_eq_take_append_cons_drop, if_pos h, List.take_append, hlen,
    List.take_of_length_le (by omega)]
  simp

theorem drop_set_add (siblings : List Element) (index depth : ℕ) (value : Element) :
    (siblings.set index value).drop (index + 1 + depth) = siblings.drop (index + (depth + 1)) := by
  rw [List.drop_set_of_lt (by omega), Nat.add_assoc, Nat.add_comm 1]

/-- The hashes of the empty subtrees go into the places from an index on. -/
theorem fillEmpty_eq (depth : ℕ) (siblings : List Element) (index : ℕ)
    (h : index + depth ≤ siblings.length) :
    fillEmpty hash siblings index depth = some (siblings.take index ++
      (List.range' 1 depth).reverse.map (emptyTreeHash hash) ++ siblings.drop (index + depth)) := by
  induction depth generalizing siblings index with
  | zero => simp [fillEmpty]
  | succ depth ih =>
    have hindex : index < siblings.length := by omega
    have hrange : (List.range' 1 (depth + 1)).reverse =
        (depth + 1) :: (List.range' 1 depth).reverse := by
      rw [List.range'_concat, List.reverse_append]
      simp [Nat.add_comm]
    rw [fillEmpty, setAt, if_pos hindex]
    refine (ih _ (index + 1) (by rw [List.length_set]; omega)).trans ?_
    rw [take_set_succ _ _ _ hindex, drop_set_add, hrange, List.map_cons]
    simp

/-- A walk writes the siblings to a slot into the places from an index on. -/
theorem walk_eq {height : ℕ} (node : Node height) (p : List Bool) (hp : p.length = height)
    (siblings : List Element) (index : ℕ) (h : index + height ≤ siblings.length) :
    walk hash node p siblings index = some (siblings.take index ++
      SmirkValues.Node.siblingsTo hash node p ++ siblings.drop (index + height)) := by
  induction height generalizing p siblings index with
  | zero =>
    obtain rfl := List.length_eq_zero_iff.mp hp
    cases node <;> simp [walk, SmirkValues.Node.siblingsTo]
  | succ height ih =>
    obtain ⟨bit, rest, rfl⟩ : ∃ bit rest, p = bit :: rest := by
      cases p with
      | nil => simp at hp
      | cons bit rest => exact ⟨bit, rest, rfl⟩
    have hrest : rest.length = height := by simpa using hp
    cases node with
    | empty _ => exact fillEmpty_eq (height + 1) siblings index h
    | parent left right stored hashDirty =>
      have hindex : index < siblings.length := by omega
      have hstep : ∀ (child : Node height) (sibling : Element),
          walk hash child rest (siblings.set index sibling) (index + 1) =
            some (siblings.take index ++
              (sibling :: SmirkValues.Node.siblingsTo hash child rest) ++
              siblings.drop (index + (height + 1))) := by
        intro child sibling
        rw [ih child rest hrest _ (index + 1) (by rw [List.length_set]; omega),
          take_set_succ _ _ _ hindex, drop_set_add]
        simp
      cases bit with
      | false =>
        have hleft := hstep left (right.rootHash hash)
        simpa [walk, setAt, hindex, SmirkValues.Node.siblingsTo] using hleft
      | true =>
        have hright := hstep right (left.rootHash hash)
        simpa [walk, setAt, hindex, SmirkValues.Node.siblingsTo] using hright

theorem siblingsTo_length (hash : List Fr → Fr) {height : ℕ} (node : Node height) (p : List Bool)
    (hp : p.length = height) : (SmirkValues.Node.siblingsTo hash node p).length = height := by
  induction height generalizing p with
  | zero => cases node <;> rfl
  | succ height ih =>
    cases node with
    | empty _ => simp [SmirkValues.Node.siblingsTo]
    | parent left right stored hashDirty =>
      cases p with
      | nil => simp at hp
      | cons bit rest =>
        have hrest : rest.length = height := by simpa using hp
        cases bit <;> simp [SmirkValues.Node.siblingsTo, ih _ rest hrest]

/-- A path is found in every tree of a depth that its elements have the bits for. -/
theorem pathFor_eq (t : ValueTree D V) (x : Element) :
    pathFor hash t x = if D = 0 ∨ 257 < D then none else some (t.pathFor hash x) := by
  unfold pathFor
  split
  · rfl
  · rename_i hdepth
    push Not at hdepth
    obtain ⟨hpos, -⟩ := hdepth
    have hlen := siblingsTo_length hash t.tree (bits D x) (bits_length D x)
    have hlast : (List.replicate D Element.nullHash).drop (D - 1) = [Element.nullHash] := by
      rw [List.drop_replicate, show D - (D - 1) = 1 by omega]
      rfl
    have hset : (SmirkValues.Node.siblingsTo hash t.tree (bits D x) ++ [Element.nullHash]).set
        (D - 1) x = SmirkValues.Node.siblingsTo hash t.tree (bits D x) ++ [x] := by
      rw [List.set_append_right _ _ hlen.le, hlen, Nat.sub_self]
      rfl
    rw [walk_eq t.tree (bits D x) (bits_length D x) _ 0 (by rw [List.length_replicate]; omega)]
    simp only [List.take_zero, List.nil_append, Nat.zero_add, hlast, Option.bind_eq_bind,
      Option.bind_some, hset]
    rw [List.take_left' hlen, List.drop_left' hlen]
    rfl

/-- What is in the slot of an element is what the tree assigns to it. -/
theorem occupant_eq {t : ValueTree D V} (h : t.keyed.Valid hash) (x : Element) :
    occupant t x = t.tree.leafAt (bits D x) := by
  unfold occupant
  cases hfind : t.elements.find? fun e => bits D e = bits D x with
  | some e =>
    have hbits := List.find?_some hfind
    rw [decide_eq_true_eq] at hbits
    obtain ⟨-, hleaf⟩ := (h.entries_iff e).mp (List.mem_of_find?_eq_some hfind)
    have hleaf : t.tree.leafAt (bits D e) = e := hleaf
    rw [Option.getD_some, ← hbits, hleaf]
  | none =>
    rw [Option.getD_none]
    by_contra hoccupied
    have hne : t.tree.leafAt (bits D x) ≠ 0 := fun hzero => hoccupied hzero.symm
    have hplaced : bits D (t.tree.leafAt (bits D x)) = bits D x := h.placed _ hne
    have hin : t.tree.leafAt (bits D x) ∈ t.elements :=
      (h.entries_iff _).mpr ⟨hne, congrArg t.tree.leafAt hplaced⟩
    exact List.find?_eq_none.mp hfind _ hin (decide_eq_true hplaced)

/-- A path of an element folds to the root of the tree with a leaf in the slot. -/
theorem computeRootHash_occupant {t : ValueTree D V} (h : t.keyed.Valid hash) (x : Element) :
    (t.pathFor hash x).computeRootHash hash (occupant t x) = t.rootHash hash := by
  rw [ValueTree.computeRootHash_pathFor h, occupant_eq h, Function.update_eq_self]
  exact (SmirkNode.rootHash_eq hash t.tree h.well_hashed).symm

end Laws

/-- Every element has its path, and the path proves what is in the slot and nothing else. -/
theorem pathFor_correct (t : ValueTree D V) (h : Built hash t) (hpos : 0 < D) (hD : D ≤ 257)
    (x : Element) :
    ∃ path, pathFor hash t x = some path ∧ path.siblings.length = D ∧
      path.siblingsDeepestFirst.length = D - 1 ∧ path.element = x ∧
      path.rootHash = t.rootHash hash ∧
      path.computeRootHash hash (occupant t x) = t.rootHash hash ∧
      ∀ pairs, (elementHash hash pairs).Injective →
        PathHashedUp (elementHash hash pairs) (occupant t x) (steps path) →
        PathHashedUp (elementHash hash pairs) x (steps path) →
        (proves hash path x = true ↔ occupant t x = x) := by
  obtain ⟨entries, hholds⟩ := h.holds
  have hvalid := hholds.valid
  obtain ⟨helement, hdeepest⟩ := ValueTree.pathFor_siblings hvalid x
  have hroot := computeRootHash_occupant hvalid x
  have hlen := siblings_length (elementNode hash) t.tree.leafAt (bits D x)
  rw [bits_length] at hlen
  refine ⟨t.pathFor hash x, ?_, ?_, ?_, helement, rfl, hroot, ?_⟩
  · rw [pathFor_eq, if_neg (by omega)]
  · have hsiblings := siblingsTo_length hash t.tree (bits D x) (bits_length D x)
    simp only [ValueTree.pathFor, List.length_append, List.length_reverse, hsiblings,
      List.length_singleton]
    omega
  · rw [hdeepest, List.length_reverse, hlen]
  · intro pairs hinj hfrom hto
    rw [proves, decide_eq_true_eq]
    constructor
    · intro hproves
      exact climbUp_inj _ hinj _ _ _ hfrom hto (hroot.trans hproves.symm)
    · intro heq
      rw [heq] at hroot
      exact hroot

theorem pathFor_correct_left :
    ∃ path, pathFor (fun _ => 0) (ValueTree.newWithCache 3 Unit []) 1 = some path ∧
      path.element = 1 ∧ path.computeRootHash (fun _ => 0)
        (occupant (ValueTree.newWithCache 3 Unit []) 1) = path.rootHash := by
  obtain ⟨path, hpath, -, -, helement, hroot, hfold, -⟩ :=
    pathFor_correct (fun _ => 0) _ built_new (by omega) (by omega) 1
  exact ⟨path, hpath, helement, hfold.trans hroot.symm⟩

/-- An element has no 257 low bits: in a deeper tree the walk panics. -/
theorem pathFor_too_deep :
    Built (fun _ => 0) (ValueTree.newWithCache 258 Unit []) ∧
      pathFor (fun _ => 0) (ValueTree.newWithCache 258 Unit []) 1 = none :=
  ⟨Built.new [] (by simp [Faithful]), by rw [pathFor_eq, if_pos (by omega)]⟩

end Filling

section Chains

variable (hash : List Fr → Fr)

/-- Insert one element, with the tree that is left behind. -/
def insert (self : ValueTree D V) (element : Element) (value : V) :
    ValueTree D V × Outcome CollisionError Unit :=
  match (ValueBatch.new D V).insert element value with
  | .error _ => (self, .error .panic)
  | .ok batch => SmirkAtomicity.insertBatch hash self (fun _ => []) batch

/-- Insert elements one by one, each with its path, up to the first that fails. -/
def insertWithPaths (self : ValueTree D V) :
    List (Element × V) → ValueTree D V × Outcome CollisionError (List (Path D))
  | [] => (self, .ok [])
  | (element, value) :: rest =>
      match insert hash self element value with
      | (inserted, .error e) => (inserted, .error e)
      | (inserted, .ok ()) =>
          match pathFor hash inserted element with
          | none => (inserted, .error .panic)
          | some path =>
              let final := insertWithPaths inserted rest
              (final.1, final.2.map fun paths => path :: paths)

/-- The root after some insertions. -/
def rootAfter (t : ValueTree D V) (entries : List (Element × V)) : Element :=
  (insertWithPaths hash t entries).1.rootHash hash

/-- Every path leads from the null hash to the root before its insertion, and from its element
to the root after it. -/
def Linked (t : ValueTree D V) (entries : List (Element × V)) (paths : List (Path D)) : Prop :=
  paths.length = entries.length ∧
    ∀ i e v path, entries[i]? = some (e, v) → paths[i]? = some path → path.element = e ∧
      path.computeRootHash hash Element.nullHash = rootAfter hash t (entries.take i) ∧
      path.computeRootHash hash e = rootAfter hash t (entries.take (i + 1))

/-- An insertion stopped at an element whose slot is taken: the elements before it are in the
tree, the others are not, and no hash is out of date. -/
structure StoppedAt (t t' : ValueTree D V) (before : List (Element × V)) (element : Element) :
    Prop where
  inserted : ∃ paths, insertWithPaths hash t before = (t', .ok paths)
  lookup_iff : ∀ e v, t'.entries.lookup e = some v ↔
    (e, v) ∈ before ∨ t.entries.lookup e = some v
  taken : ∃ x ∈ t'.elements, bits D x = bits D element
  well_hashed : t'.tree.WellHashed hash

section Laws

variable {hash} {t t' : ValueTree D V}

/-- An insertion that succeeds fills an empty slot and changes nothing else. -/
theorem insert_ok (h : Built hash t) (element : Element) (value : V)
    (hok : insert hash t element value = (t', .ok ())) :
    Built hash t' ∧ t.tree.leafAt (bits D element) = 0 ∧
      t'.tree.leafAt = Function.update t.tree.leafAt (bits D element) element ∧
      ∀ e v, t'.entries.lookup e = some v ↔
        (e, v) = (element, value) ∨ t.entries.lookup e = some v := by
  unfold insert at hok
  split at hok
  · cases hok
  · rename_i batch hbatch
    have hentries : batch.entries = [(element, value)] :=
      ValueTree.valueBatch_insert_ok _ _ _ _ hbatch
    have helements : batch.elements = [element] := by
      rw [ValueBatch.elements, hentries]
      rfl
    obtain ⟨entries, hholds⟩ := h.holds
    have hbuilt := Built.inserted t t' _ batch h hok
    have heq := insertBatch_eq hash t (fun _ => []) batch
    rw [hok] at heq
    obtain ⟨hnull, hvacant⟩ := ValueTree.free_of_insertBatch hholds.valid _ batch _ heq
    obtain ⟨node, -, hsame, hvalid, hlaid⟩ := ValueTree.insertBatch_free hholds.valid
      hholds.faithful (fun _ => []) batch hnull hvacant
    have htree : t' = ⟨node.recalculateHashes hash, putAll batch.entries t.entries, t.cache⟩ :=
      (Prod.mk.inj (Except.ok.inj (heq.symm.trans hsame))).1
    have hempty : t.tree.leafAt (bits D element) = 0 :=
      hvacant element (by rw [helements]; exact List.mem_singleton_self _)
    refine ⟨hbuilt, hempty, ?_, ?_⟩
    · have hone : hholds.valid.sparse.insertAll [element] = some hvalid.sparse := by
        rw [helements] at hnull hvacant hlaid
        exact (SparseTree.insertAll_eq_some _ _ _ hnull).mpr
          ⟨⟨List.pairwise_singleton _ _, hvacant⟩, hlaid⟩
      obtain ⟨S, hS, hrest⟩ := Option.bind_eq_some_iff.mp hone
      obtain rfl := Option.some.inj hrest
      rw [htree]
      exact ((SparseTree.insert_eq_some _ _ _).mp hS).2
    · intro e v
      rw [h.lookup_inserted _ batch t' hok, hentries, List.mem_singleton]

/-- An insertion that returns an error has found the slot taken, and changes nothing. -/
theorem insert_err (h : Built hash t) (element : Element) (value : V) (c : CollisionError)
    (herr : insert hash t element value = (t', .error (.err c))) :
    t' = t ∧ ∃ x ∈ t.elements, bits D x = bits D element := by
  unfold insert at herr
  split at herr
  · cases herr
  · rename_i batch hbatch
    have hentries : batch.entries = [(element, value)] :=
      ValueTree.valueBatch_insert_ok _ _ _ _ hbatch
    rcases insertBatch_cases h (fun _ => []) batch with
      ⟨⟨e, he, x, hx, hbits⟩, collisions, hresult⟩ | ⟨-, -, hresult⟩ | ⟨-, -, t₁, hresult⟩
    · rw [hresult] at herr
      rw [ValueBatch.elements, hentries, List.map_singleton, List.mem_singleton] at he
      subst he
      exact ⟨(Prod.mk.inj herr).1.symm, x, hx, hbits⟩
    · rw [hresult] at herr
      cases herr
    · rw [hresult] at herr
      cases herr

theorem insertWithPaths_cons (element : Element) (value : V) (rest : List (Element × V))
    (t₁ : ValueTree D V) (path : Path D) (hinsert : insert hash t element value = (t₁, .ok ()))
    (hpath : pathFor hash t₁ element = some path) :
    insertWithPaths hash t ((element, value) :: rest) =
      ((insertWithPaths hash t₁ rest).1,
        (insertWithPaths hash t₁ rest).2.map fun paths => path :: paths) := by
  simp only [insertWithPaths, hinsert, hpath]

/-- The path of a new element has the roots before and after its insertion. -/
theorem path_of_insert (h : Built hash t) (element : Element) (value : V) (path : Path D)
    (hinsert : insert hash t element value = (t', .ok ()))
    (hpath : pathFor hash t' element = some path) :
    path.element = element ∧
      path.computeRootHash hash Element.nullHash = t.rootHash hash ∧
      path.computeRootHash hash element = t'.rootHash hash := by
  obtain ⟨hbuilt, hempty, hupdate, -⟩ := insert_ok h element value hinsert
  obtain ⟨entries, hholds⟩ := h.holds
  obtain ⟨entries', hholds'⟩ := hbuilt.holds
  have hold : t.rootHash hash = root (elementNode hash) (D - 1) t.tree.leafAt :=
    SmirkNode.rootHash_eq hash t.tree hholds.valid.well_hashed
  have hnew : t'.rootHash hash = root (elementNode hash) (D - 1) t'.tree.leafAt :=
    SmirkNode.rootHash_eq hash t'.tree hholds'.valid.well_hashed
  rw [pathFor_eq] at hpath
  split at hpath
  · cases hpath
  · obtain rfl := Option.some.inj hpath
    refine ⟨(ValueTree.pathFor_siblings hholds'.valid element).1, ?_, ?_⟩
    · rw [ValueTree.computeRootHash_pathFor hholds'.valid, hupdate, Function.update_idem, hold]
      congr 1
      rw [Function.update_eq_self_iff]
      exact hempty.symm
    · rw [ValueTree.computeRootHash_pathFor hholds'.valid, hnew, hupdate, Function.update_idem]

theorem insertWithPaths_linked (h : Built hash t) (entries : List (Element × V))
    (paths : List (Path D)) (hok : insertWithPaths hash t entries = (t', .ok paths)) :
    Linked hash t entries paths := by
  induction entries generalizing t paths with
  | nil =>
    obtain ⟨-, hpaths⟩ := Prod.mk.inj hok
    obtain rfl := Except.ok.inj hpaths
    exact ⟨rfl, fun i e v path hentry => by simp at hentry⟩
  | cons entry rest ih =>
    obtain ⟨element, value⟩ := entry
    rw [insertWithPaths] at hok
    split at hok
    · cases hok
    · rename_i t₁ hinsert
      split at hok
      · cases hok
      · rename_i first hfirst
        obtain ⟨hbuilt, -⟩ := insert_ok h element value hinsert
        obtain ⟨hfinal, hpaths⟩ := Prod.mk.inj hok
        cases hrest : insertWithPaths hash t₁ rest with
        | mk final outcome =>
          rw [hrest] at hfinal hpaths
          cases outcome with
          | error e => cases hpaths
          | ok others =>
            obtain rfl := Except.ok.inj hpaths
            obtain rfl : final = t' := hfinal
            obtain ⟨hlen, hlinks⟩ := ih hbuilt others hrest
            refine ⟨congrArg Nat.succ hlen, ?_⟩
            have hafter : ∀ entries, rootAfter hash t ((element, value) :: entries) =
                rootAfter hash t₁ entries := fun entries => by
              rw [rootAfter, insertWithPaths_cons element value entries t₁ first hinsert hfirst,
                rootAfter]
            intro i e v path hentry hpath
            cases i with
            | zero =>
              obtain ⟨rfl, rfl⟩ := Prod.mk.inj (Option.some.inj hentry)
              obtain rfl := Option.some.inj hpath
              obtain ⟨helement, hold, hnew⟩ := path_of_insert h element value first hinsert hfirst
              exact ⟨helement, hold, hnew.trans (hafter []).symm⟩
            | succ i =>
              obtain ⟨helement, hold, hnew⟩ := hlinks i e v path hentry hpath
              exact ⟨helement, hold.trans (hafter _).symm, hnew.trans (hafter _).symm⟩

/-- An insertion of several elements that returns an error has inserted those before it. -/
theorem insertWithPaths_stopped (h : Built hash t) (entries : List (Element × V))
    (c : CollisionError) (herr : insertWithPaths hash t entries = (t', .error (.err c))) :
    ∃ before element value rest, entries = before ++ (element, value) :: rest ∧
      StoppedAt hash t t' before element := by
  induction entries generalizing t with
  | nil => cases herr
  | cons entry rest ih =>
    obtain ⟨element, value⟩ := entry
    rw [insertWithPaths] at herr
    split at herr
    · rename_i t₁ e hinsert
      obtain ⟨rfl, hfailure⟩ := Prod.mk.inj herr
      obtain rfl := Except.error.inj hfailure
      obtain ⟨rfl, htaken⟩ := insert_err h element value c hinsert
      obtain ⟨known, hholds⟩ := h.holds
      refine ⟨[], element, value, rest, rfl, ⟨[], rfl⟩, ?_, htaken, hholds.valid.well_hashed⟩
      intro e v
      simp
    · rename_i t₁ hinsert
      split at herr
      · cases herr
      · rename_i first hfirst
        obtain ⟨hbuilt, -, -, hlookup⟩ := insert_ok h element value hinsert
        cases hrest : insertWithPaths hash t₁ rest with
        | mk final outcome =>
          rw [hrest] at herr
          obtain ⟨hfinal, hfailure⟩ := Prod.mk.inj herr
          obtain rfl : final = t' := hfinal
          cases outcome with
          | ok paths => cases hfailure
          | error e =>
            obtain rfl := Except.error.inj hfailure
            obtain ⟨before, other, otherValue, rest', rfl, hstopped⟩ := ih hbuilt hrest
            obtain ⟨paths, hpaths⟩ := hstopped.inserted
            refine ⟨(element, value) :: before, other, otherValue, rest', rfl, ⟨first :: paths, ?_⟩,
              ?_, hstopped.taken, hstopped.well_hashed⟩
            · rw [insertWithPaths_cons element value before t₁ first hinsert hfirst, hpaths]
              rfl
            · intro e v
              rw [hstopped.lookup_iff, hlookup, List.mem_cons]
              tauto

end Laws

/-- Successive insertions are linked by their paths, from the first root to the last; a
collision stops them after the elements before it. -/
theorem insertWithPaths_chain (t : ValueTree D V) (h : Built hash t)
    (entries : List (Element × V)) :
    (∀ t' paths, insertWithPaths hash t entries = (t', .ok paths) →
      Linked hash t entries paths ∧ rootAfter hash t (entries.take 0) = t.rootHash hash ∧
        rootAfter hash t (entries.take entries.length) = t'.rootHash hash) ∧
    ∀ t' c, insertWithPaths hash t entries = (t', .error (.err c)) →
      ∃ before element value rest, entries = before ++ (element, value) :: rest ∧
        StoppedAt hash t t' before element := by
  refine ⟨fun t' paths hok => ⟨insertWithPaths_linked h entries paths hok, rfl, ?_⟩,
    fun t' c herr => insertWithPaths_stopped h entries c herr⟩
  rw [List.take_length, rootAfter, hok]

/-- One element goes into the empty tree, and a second time it is refused. -/
theorem insertWithPaths_chain_twice :
    ∃ (t' : ValueTree 3 Unit) (path : Path 3) (c : CollisionError),
      Linked (fun _ => 0) (ValueTree.newWithCache 3 Unit []) [(1, ())] [path] ∧
      insertWithPaths (fun _ => 0) (ValueTree.newWithCache 3 Unit []) [(1, ()), (1, ())] =
        (t', .error (.err c)) ∧
      ∃ before element value rest, [(1, ()), (1, ())] = before ++ (element, value) :: rest ∧
        StoppedAt (fun _ => 0) (ValueTree.newWithCache 3 Unit []) t' before element := by
  have hbatch : ∀ t : ValueTree 3 Unit, insert (fun _ => 0) t 1 () =
      SmirkAtomicity.insertBatch (fun _ => 0) t (fun _ => []) leftBatch := fun _ => rfl
  rcases insertBatch_cases built_new (fun _ => []) leftBatch with
    ⟨hcollides, -⟩ | ⟨-, hnull, -⟩ | ⟨-, -, t, ht⟩
  · exact absurd hcollides (new_not_collides leftBatch [])
  · exact absurd hnull leftBatch_not_null
  · have hinsert := (hbatch (ValueTree.newWithCache 3 Unit [])).trans ht
    obtain ⟨hbuilt, -, -, hlookup⟩ := insert_ok built_new 1 () hinsert
    have hpath : pathFor (fun _ => 0) t 1 = some (t.pathFor (fun _ => 0) 1) := by
      rw [pathFor_eq, if_neg (by omega)]
    have hone := insertWithPaths_cons (1 : Element) () [] t _ hinsert hpath
    have htaken : Collides t leftBatch := by
      refine ⟨1, List.mem_singleton_self _, 1, ?_, rfl⟩
      rw [ValueTree.mem_elements, Finmap.mem_iff]
      exact ⟨(), (hlookup 1 ()).mpr (Or.inl rfl)⟩
    rcases insertBatch_cases hbuilt (fun _ => []) leftBatch with
      ⟨-, c, hagain⟩ | ⟨hfree, -⟩ | ⟨hfree, -⟩
    · have htwo : insertWithPaths (fun _ => 0) (ValueTree.newWithCache 3 Unit [])
          [(1, ()), (1, ())] = (t, .error (.err c)) := by
        rw [insertWithPaths_cons (1 : Element) () [(1, ())] t _ hinsert hpath]
        simp only [insertWithPaths, hbatch, hagain]
        rfl
      have hchain := insertWithPaths_chain (fun _ => 0) _ built_new
      exact ⟨t, _, c, ((hchain [(1, ())]).1 _ _ hone).1, htwo, (hchain _).2 t c htwo⟩
    · exact absurd htaken hfree
    · exact absurd htaken hfree

end Chains

section Folds

variable (hash : List Fr → Fr)

/-- The low bits of an element, the lowest first. -/
def lowBits (count : ℕ) (e : Element) : List Bool := (List.range count).map e.toNat.testBit

theorem toBits_eq_testBit (width n : ℕ) : toBits width n = (List.range width).map n.testBit := by
  induction width generalizing n with
  | zero => rfl
  | succ width ih =>
    rw [toBits, ih, List.range_succ_eq_map, List.map_cons, List.map_map]
    refine congrArg₂ List.cons ?_ (List.map_congr_left fun i _ => ?_)
    · rw [Nat.testBit_zero]
    · rw [Function.comp_apply, Nat.testBit_succ]

theorem toBase_climbUp (leaf : Element) (sides : List Bool) (sibs : List Element) :
    (climbUp (elementNode hash) leaf (sides.zip sibs)).toBase =
      climbUp (fieldNode hash) leaf.toBase (sides.zip (sibs.map Element.toBase)) := by
  induction sides generalizing leaf sibs with
  | nil => rfl
  | cons right rest ih =>
    cases sibs with
    | nil => rfl
    | cons sibling sibs =>
      rw [List.zip_cons_cons, climbUp, ih, List.map_cons, List.zip_cons_cons, climbUp]
      cases right <;> simp [toBase_elementNode]

theorem climbUp_canonical (leaf : Element) (path : List (Bool × Element))
    (h : leaf.toNat < modulus) : (climbUp (elementNode hash) leaf path).toNat < modulus := by
  induction path generalizing leaf with
  | nil => exact h
  | cons step rest ih =>
    obtain ⟨right, sibling⟩ := step
    rw [climbUp]
    apply ih
    cases right <;> exact hashMerge_toNat_lt hash _

/-- The fold of the circuits' path; it panics when the element has no `D - 1` low bits. -/
def nativeRoot {D : ℕ} (path : MerklePath D) (e : Element) : Option Element :=
  if D = 0 ∨ 257 < D then none else some (path.computeRoot hash e)

/-- The fold of a tree's path, which takes the same bits. -/
def smirkRoot {D : ℕ} (path : Path D) (e : Element) : Option Element :=
  if D = 0 ∨ 257 < D then none else some (path.computeRootHash hash e)

/-- The fold of the circuits' path, the fold of a tree's path and the root of the gadget are
one field element; the lowest bit of the element is the side of the deepest sibling. -/
theorem folds_agree (D : ℕ) (hpos : 0 < D) (hD : D ≤ 257) (siblings : List Element)
    (hlen : siblings.length = D - 1) (e : Element) (h : e.isCanonical = true)
    (rootHash : Element) :
    let path : MerklePath D := ⟨siblings, hlen⟩
    let smirkPath : Path D := ⟨siblings ++ [e], rootHash⟩
    let cells := pathCells ((lowBits (D - 1) e).zip (siblings.map Element.toBase))
    nativeRoot hash path e = some (path.computeRoot hash e) ∧
      smirkRoot hash smirkPath e = some (path.computeRoot hash e) ∧
      (∀ inst, run hash inst (merkleRoot e.toBase cells) =
        some (path.computeRoot hash e).toBase) ∧
      (∀ inst, run hash inst (path.enforceInclusionConstraints e.toBase e.toBase) =
        some (path.computeRoot hash e).toBase) ∧
      ∀ messages inst out, Sat ⟨hash, messages⟩ inst (merkleRoot e.toBase cells) out →
        out = (path.computeRoot hash e).toBase := by
  intro path smirkPath cells
  have hcanonical := (Element.isCanonical_iff e).mp h
  have hbits : lowBits (D - 1) e = MerklePath.leastSignificantBits D e := by
    rw [MerklePath.leastSignificantBits_eq, toBits_eq_testBit]
    rfl
  have hroot : (path.computeRoot hash e).toBase =
      climbUp (fieldNode hash) e.toBase (path.steps e) :=
    MerklePath.computeRootFromLeaf_toBase hash path e e
  have hcells : cells = pathCells (path.steps e) := by
    simp only [cells, hbits]
    rfl
  have hdepth : ¬(D = 0 ∨ 257 < D) := by omega
  refine ⟨if_neg hdepth, (if_neg hdepth).trans (congrArg some ?_), ?_, ?_, ?_⟩
  · have hsmirk : smirkPath.computeRootHash hash e =
        climbUp (elementNode hash) e ((MerklePath.leastSignificantBits D e).zip siblings) := by
      have helement : smirkPath.element = e := List.getLastD_concat
      have hdeepest : smirkPath.siblingsDeepestFirst = siblings := List.take_left' hlen
      rw [Path.computeRootHash, helement, hdeepest]
      rfl
    have hfold := climbUp_canonical hash e
      ((MerklePath.leastSignificantBits D e).zip siblings) hcanonical
    rw [hsmirk]
    refine Element.toBase_inj _ _ hfold ?_ ?_
    · rw [MerklePath.computeRoot, MerklePath.computeRootFromLeaf, Element.fromBase_toNat]
      exact ZMod.val_lt _
    · rw [toBase_climbUp, hroot]
      rfl
  · intro inst
    rw [hcells, run_merkleRoot, hroot]
    rfl
  · intro inst
    have hvalue : Element.fromBase e.toBase = e := Element.fromBase_toBase e hcanonical
    rw [MerklePath.enforceInclusionConstraints, run_merkleRootValue, hvalue, hroot]
    rfl
  · intro messages inst out hsat
    rw [hcells, sat_merkleRoot] at hsat
    rw [hsat.2, hroot]
    rfl

/-- The element 5 goes right and then left. -/
theorem folds_agree_five : lowBits 2 5 = [true, false] ∧
    smirkRoot List.sum (⟨[7, 9, 5], 0⟩ : Path 3) 5 =
      nativeRoot List.sum (⟨[7, 9], rfl⟩ : MerklePath 3) 5 ∧
    run List.sum [] (merkleRoot (Element.toBase 5) (pathCells
      ((lowBits 2 5).zip [Element.toBase 7, Element.toBase 9]))) =
        some ((⟨[7, 9], rfl⟩ : MerklePath 3).computeRoot List.sum 5).toBase := by
  have hsmall : BitVec.toNat (5 : Element) < 8 := by decide
  have hcanonical : Element.isCanonical 5 = true :=
    (Element.isCanonical_iff 5).mpr (hsmall.trans (by norm_num [modulus]))
  obtain ⟨hnative, hsmirk, hrun, -⟩ :=
    folds_agree List.sum 3 (by omega) (by omega) [7, 9] rfl 5 hcanonical 0
  exact ⟨by decide, hsmirk.trans hnative.symm, hrun []⟩

/-- From depth 258 on the native folds panic, while the gadget still has a root. -/
theorem folds_too_deep :
    nativeRoot List.sum (⟨List.replicate 257 0, List.length_replicate⟩ : MerklePath 258) 5 = none ∧
      smirkRoot List.sum (⟨List.replicate 257 0 ++ [5], 0⟩ : Path 258) 5 = none ∧
      ∃ root, run List.sum [] (merkleRoot (Element.toBase 5) (pathCells
        ((lowBits 257 5).zip ((List.replicate 257 0).map Element.toBase)))) = some root :=
  ⟨if_pos (by omega), if_pos (by omega), _, run_merkleRoot _ _ _ _⟩

end Folds
end PayyRollup.SmirkPaths
