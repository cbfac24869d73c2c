import PayyRollup.PrefixRuns
import PayyRollup.SmirkStorage

/-!
A tree read back from its database. Loading gives the same entries and the same root as long
as every write was accepted, because every stored hash is right. The stored hashes are those
of the tree as long as no element is inserted beside an older one: the report of a node just
above the leaves names its new leaves, so the record of its old leaves would stay. Distinct
subtrees are told apart by their hashes where the hash of two elements is injective on the
hashed pairs and no element is such a hash.
-/
namespace PayyRollup.SmirkStorage

open ScalarField SparseMerkle ElementHash SmirkNode SmirkTree KeyValueStore SmirkValues
  PrefixRuns

variable {D : ℕ} {V : Type} {hash : List Fr → Fr}

/-- The database holds the entries of the tree, and its hashes are right. -/
structure Stored (hash : List Fr → Fr) (p : Persistent D V) (entries : List (Element × V)) :
    Prop where
  holds : p.tree.Holds hash entries
  occupied : SmirkValues.Node.Occupied p.tree.tree
  fits : entries = [] ∨ D ≤ 257
  no_v1 : ∀ e, p.db.lookup (.v1 e) = none
  elements : ∀ e, p.db.lookup (.v2 (.element e)) =
    (p.tree.entries.lookup e).map fun v => .v2 (.metadata v)
  known_true : ∀ l r value, p.db.lookup (.v2 (.knownHash l r)) = some value →
    value = .v2 (.knownHash (elementNode hash l r))

/-- A loaded tree has the same entries and root, and the database knows the hashes of the
tree and no others. -/
structure RoundTrips (hash : List Fr → Fr) (p : Persistent D V) : Prop where
  load : ∃ q, Persistent.load hash D p.db = .ok q ∧ q.tree.entries = p.tree.entries ∧
    q.tree.rootHash hash = p.tree.rootHash hash
  known : ∃ known, SmirkValues.Node.knownHashes hash p.tree.tree = some known ∧
    ∀ l r result, p.db.lookup (.v2 (.knownHash l r)) = some (.v2 (.knownHash result)) ↔
      ⟨l, r, result⟩ ∈ known
  merged : ∀ l r value, p.db.lookup (.v2 (.knownHash l r)) = some value →
    value = .v2 (.knownHash (elementNode hash l r))

section Loading

/-- A record of the second format: an element with its metadata, or a known hash. -/
def IsRecord (record : KeyFormat × ValueFormat V) : Prop :=
  (∃ e v, record = (.v2 (.element e), .v2 (.metadata v))) ∨
    ∃ l r result, record = (.v2 (.knownHash l r), .v2 (.knownHash result))

theorem collect_records (records : List (KeyFormat × ValueFormat V))
    (h : ∀ record ∈ records, IsRecord record) :
    ∃ known kv, collect records = .ok (known, kv) ∧
      (∀ k ∈ known, (.v2 (.knownHash k.left k.right), .v2 (.knownHash k.result)) ∈ records) ∧
      (∀ e v, (e, v) ∈ kv ↔ (.v2 (.element e), .v2 (.metadata v)) ∈ records) ∧
      (kv.map fun e => KeyFormat.v2 (.element e.1)).Sublist (records.map Prod.fst) := by
  induction records with
  | nil => exact ⟨[], [], rfl, by simp, by simp, by simp⟩
  | cons record rest ih =>
    obtain ⟨hrecord, hrest⟩ := List.forall_mem_cons.mp h
    obtain ⟨known, kv, hcollect, hknown, hkv, hsub⟩ := ih hrest
    rcases hrecord with ⟨e, v, rfl⟩ | ⟨l, r, result, rfl⟩
    · refine ⟨known, (e, v) :: kv, ?_, ?_, ?_, ?_⟩
      · rw [collect, hcollect]
        rfl
      · intro k hk
        exact List.mem_cons_of_mem _ (hknown k hk)
      · intro e' v'
        rw [List.mem_cons, List.mem_cons, hkv]
        simp
      · exact hsub.cons_cons _
    · refine ⟨⟨l, r, result⟩ :: known, kv, ?_, ?_, ?_, ?_⟩
      · rw [collect, hcollect]
        rfl
      · intro k hk
        rcases List.mem_cons.mp hk with rfl | hk
        · exact List.mem_cons_self
        · exact List.mem_cons_of_mem _ (hknown k hk)
      · intro e' v'
        rw [List.mem_cons, hkv]
        simp
      · exact hsub.cons _

variable {p : Persistent D V} {entries : List (Element × V)}

theorem Stored.isRecord (h : Stored hash p entries) :
    ∀ record ∈ iterator keyCoding p.db, IsRecord record := by
  rintro ⟨key, value⟩ hrecord
  rw [mem_iterator] at hrecord
  cases key with
  | v1 e =>
    rw [h.no_v1 e] at hrecord
    cases hrecord
  | v2 key =>
    cases key with
    | element e =>
      rw [h.elements e] at hrecord
      obtain ⟨v, -, rfl⟩ := Option.map_eq_some_iff.mp hrecord
      exact Or.inl ⟨e, v, rfl⟩
    | knownHash l r =>
      obtain rfl := h.known_true l r value hrecord
      exact Or.inr ⟨l, r, _, rfl⟩

/-- An empty tree has no occupied subtree. -/
theorem occupied_new (height : ℕ) :
    SmirkValues.Node.Occupied (SmirkNode.Node.empty height) := by
  cases height <;> trivial

/-- A stored tree is loaded as a stored tree with its entries. -/
theorem Stored.load_stored (h : Stored hash p entries) :
    ∃ q kv, Persistent.load hash D p.db = .ok q ∧ q.db = p.db ∧
      q.tree.entries = p.tree.entries ∧ entries.Perm kv ∧ Stored hash q kv := by
  obtain ⟨known, kv, hcollect, hknown, hkv, hsub⟩ :=
    collect_records (iterator keyCoding p.db) h.isRecord
  have hfaithful : Faithful hash known := by
    intro k hk
    have hlookup := (mem_iterator _ _ _ _).mp (hknown k hk)
    have hvalue := h.known_true _ _ _ hlookup
    rw [ValueFormat.v2.injEq, ValueV2.knownHash.injEq] at hvalue
    exact hvalue
  have hmem : ∀ e v, (e, v) ∈ kv ↔ (e, v) ∈ entries := by
    intro e v
    rw [hkv, mem_iterator, h.elements, ← h.holds.values]
    cases p.tree.entries.lookup e <;> simp
  have hnodup : kv.Nodup := by
    have hkeys := hsub.nodup (iterator_nodup keyCoding p.db)
    exact hkeys.of_map _
  have hcanon := h.holds.canonical
  have hentries : entries.Nodup := by
    rw [List.nodup_iff_pairwise_ne]
    apply hcanon.apart.imp
    rintro a b hab rfl
    exact hab rfl
  have hperm : entries.Perm kv :=
    (List.perm_ext_iff_of_nodup hentries hnodup).mpr fun e => (hmem e.1 e.2).symm
  have hapart : kv.Pairwise fun a b => bits D a.1 ≠ bits D b.1 :=
    hperm.pairwise hcanon.apart fun hne heq => hne heq.symm
  have hfits : kv = [] ∨ D ≤ 257 := by
    rcases h.fits with rfl | hD
    · exact Or.inl hperm.symm.eq_nil
    · exact Or.inr hD
  obtain ⟨batch, hbatch, hbatchEntries⟩ := ValueTree.valueBatch_fromEntries kv hfits hapart
  have helements : batch.elements = kv.map Prod.fst := by rw [ValueBatch.elements, hbatchEntries]
  have hnew : (ValueTree.newWithCache D V known).Holds hash [] :=
    ValueTree.newWithCache_holds known hfaithful
  have hnull : ∀ e ∈ batch.elements, e ≠ Element.nullHash := by
    intro e he
    rw [helements] at he
    exact h.holds.not_null e ((hperm.map Prod.fst).mem_iff.mpr he)
  have hvacant : ∀ e ∈ batch.elements, hnew.valid.sparse.leaf (bits D e) = 0 := by
    intro e _
    rw [hnew.laid, List.map_nil, SparseTree.laid_nil]
    rfl
  obtain ⟨r, hok⟩ : ∃ r, (ValueTree.newWithCache D V known).insertBatch hash (fun _ => []) batch =
      .ok r := by
    obtain ⟨node, -, hok, -⟩ := hnew.append (fun _ => []) batch hnull hvacant
    exact ⟨_, hok⟩
  have hholds := hnew.insertBatch (fun _ => []) batch r hok
  rw [List.nil_append, hbatchEntries] at hholds
  have hsame : r.1.entries = p.tree.entries := by
    apply Finmap.ext_lookup
    intro e
    ext v
    rw [hholds.values, hmem, h.holds.values]
  refine ⟨⟨r.1, p.db⟩, kv, ?_, rfl, hsame, hperm, hholds, ?_, hfits, h.no_v1, ?_, h.known_true⟩
  · rw [Persistent.load, loadTree, hcollect]
    simp only [hbatch, hok]
  · by_cases hempty : batch.entries = []
    · have hnone : batch.elements = [] := by rw [ValueBatch.elements, hempty, List.map_nil]
      obtain ⟨node, hdirtied, hok', -⟩ := hnew.append (fun _ => []) batch hnull hvacant
      rw [hok', Except.ok.injEq] at hok
      obtain rfl := hok
      rcases hdirtied with ⟨-, rfl⟩ | ⟨hne, -⟩
      · have hunchanged : ∀ height, (SmirkNode.Node.empty height).recalculateHashes hash =
            SmirkNode.Node.empty height := by
          intro height
          cases height <;> rfl
        change SmirkValues.Node.Occupied ((SmirkNode.Node.empty (D - 1)).recalculateHashes hash)
        rw [hunchanged]
        exact occupied_new (D - 1)
      · exact absurd hnone hne
    · obtain ⟨node, htouched, -, hr, -⟩ := hnew.insertBatch_touched _ batch r hempty hok
      rw [hr]
      exact Node.occupied_of_touched _ node hnew.valid.well_hashed (occupied_new _) htouched
  · intro e
    change p.db.lookup (.v2 (.element e)) = _
    rw [h.elements, hsame]

/-- A stored tree is loaded with its entries and its root. -/
theorem Stored.load (h : Stored hash p entries) :
    ∃ q, Persistent.load hash D p.db = .ok q ∧ q.tree.entries = p.tree.entries ∧
      q.tree.rootHash hash = p.tree.rootHash hash := by
  obtain ⟨q, kv, hload, -, hsame, hperm, hstored⟩ := h.load_stored
  have hloaded := hstored.holds.canonical
  have hcanon := h.holds.canonical
  refine ⟨q, hload, hsame, ?_⟩
  rw [hloaded.root, hcanon.root]
  exact naiveRoot_of_mem hash D _ _ (List.pairwise_map.mpr hloaded.apart)
    (List.pairwise_map.mpr hcanon.apart) fun e => (hperm.map Prod.fst).symm.mem_iff

end Loading

section Insertion

variable {p : Persistent D V} {entries : List (Element × V)}

/-- A call changes nothing, or it inserts into the tree and writes if the database allows. -/
theorem insertBatch_cases (p : Persistent D V) (call : Call D V) :
    (p.insertBatch hash call.schedule call.batch call.written).1 = p ∨
      call.batch.entries ≠ [] ∧
        ∃ r, p.tree.insertBatch hash call.schedule call.batch = .ok r ∧
          (p.insertBatch hash call.schedule call.batch call.written).1 =
            if call.written then ⟨r.1, write (Persistent.writeBatch call.batch.entries r.2) p.db⟩
            else ⟨r.1, p.db⟩ := by
  unfold Persistent.insertBatch
  cases hentries : call.batch.entries with
  | nil => exact Or.inl rfl
  | cons entry rest =>
    cases hinsert : p.tree.insertBatch hash call.schedule call.batch with
    | error e => exact Or.inl rfl
    | ok r =>
      refine Or.inr ⟨List.cons_ne_nil _ _, r, rfl, ?_⟩
      cases call.written <;> rfl

section Leaves

variable {t : ValueTree D V} (h : t.Holds hash entries)

include h in
theorem leaf_mem (q : List Bool) (hq : t.tree.leafAt q ≠ 0) : t.tree.leafAt q ∈ t.elements := by
  have hplaced : bits D (t.tree.leafAt q) = q := h.valid.placed q hq
  refine (h.valid.entries_iff _).mpr ⟨hq, ?_⟩
  change t.tree.leafAt (bits D (t.tree.leafAt q)) = _
  rw [hplaced]

variable (schedule : Schedule)
  (batch : ValueBatch D V) (r : ValueTree D V × List HashChange)
  (hok : t.insertBatch hash schedule batch = .ok r)

include h hok

/-- The new elements are laid over the old leaves. -/
theorem leaf_inserted (q : List Bool) :
    r.1.tree.leafAt q = overlay (bits D) t.tree.leafAt batch.elements q := by
  obtain ⟨hnull, hvacant⟩ := ValueTree.free_of_insertBatch h.valid schedule batch r hok
  obtain ⟨node, -, hok', hvalid, hlaid⟩ :=
    ValueTree.insertBatch_free h.valid h.faithful schedule batch hnull hvacant
  rw [hok', Except.ok.injEq] at hok
  obtain rfl := hok
  exact congrArg (fun S => S.leaf q) hlaid

theorem extends_inserted : Extends t.tree.leafAt r.1.tree.leafAt := by
  intro q hq
  rw [leaf_inserted h schedule batch r hok, overlay, if_neg hq]

/-- Elements that are not beside an older one change no slot beside it. -/
theorem alone_inserted
    (halone : ∀ e ∈ batch.elements, ∀ x ∈ t.elements, (bits D x).dropLast ≠ (bits D e).dropLast) :
    Alone t.tree.leafAt r.1.tree.leafAt (D - 1) := by
  intro q b _ hleaf
  by_contra hne
  have hchanged := leaf_inserted h schedule batch r hok (q ++ [!b])
  unfold overlay at hchanged
  split at hchanged
  · rename_i hzero
    rw [hchanged, hzero] at hne
    obtain ⟨e, he, hslot⟩ : ∃ e ∈ batch.elements, bits D e = q ++ [!b] := by
      have hslot := resident_slot (bits D) batch.elements (q ++ [!b]) hne
      refine ⟨_, ?_, hslot⟩
      exact resident_mem (bits D) batch.elements _ hne
    have hplaced : bits D (t.tree.leafAt (q ++ [b])) = q ++ [b] := h.valid.placed _ hleaf
    apply halone e he _ (leaf_mem h _ hleaf)
    rw [hplaced, hslot, List.dropLast_concat, List.dropLast_concat]
  · exact hne hchanged

end Leaves

variable (h : Stored hash p entries) (schedule : Schedule) (batch : ValueBatch D V)
  (hne : batch.entries ≠ []) (r : ValueTree D V × List HashChange)
  (hok : p.tree.insertBatch hash schedule batch = .ok r)

include h hne hok

/-- An accepted write keeps the database in step with the tree. -/
theorem Stored.inserted :
    Stored hash ⟨r.1, write (Persistent.writeBatch batch.entries r.2) p.db⟩
      (entries ++ batch.entries) := by
  obtain ⟨node, htouched, -, hr, hholds⟩ :=
    h.holds.insertBatch_touched schedule batch r hne hok
  have hreports := Node.reports_changes hash node schedule
  have hkeys : (batch.entries.map Prod.fst).Nodup := by
    rw [List.nodup_iff_pairwise_ne, List.pairwise_map]
    apply batch.distinct.imp
    intro a b hab heq
    exact hab (congrArg (bits D) heq)
  refine ⟨hholds, ?_, Or.inr (batch.fits.resolve_left hne), ?_, ?_, ?_⟩
  · rw [hr]
    exact Node.occupied_of_touched p.tree.tree node h.holds.valid.well_hashed h.occupied htouched
  · exact lookup_writeBatch_v1 _ _ _ h.no_v1
  · intro e
    change (write (Persistent.writeBatch batch.entries r.2) p.db).lookup _ = _
    rw [lookup_writeBatch_element _ _ _ hkeys, hr]
    by_cases he : e ∈ batch.entries.map Prod.fst
    · obtain ⟨⟨e', v⟩, hin, rfl⟩ := List.mem_map.mp he
      rw [if_pos he, lookup_putAll_of_mem _ ∅ e' v hkeys hin,
        lookup_putAll_of_mem _ p.tree.entries e' v hkeys hin]
    · rw [if_neg he, lookup_putAll_of_not_mem _ p.tree.entries e he]
      exact h.elements e
  · intro left right value hlookup
    change (write (Persistent.writeBatch batch.entries r.2) p.db).lookup _ = some value at hlookup
    rw [lookup_writeBatch_knownHash, hr] at hlookup
    split at hlookup
    · exact h.known_true left right value hlookup
    · rename_i outcome houtcome
      obtain ⟨result, rfl, rfl⟩ := Option.map_eq_some_iff.mp hlookup
      rw [hreports.lookup_true _ left right result houtcome]

/-- What an insertion reports: a pair to drop and one to set for each subtree that it changes. -/
theorem reports_inserted (pairs : Set (Element × Element)) :
    ∃ changes, Reports hash changes r.2 ∧ ∀ change, change ∈ changes ↔
      ∃ q low, q.length + (low + 1) = D - 1 ∧ Changed p.tree.tree.leafAt r.1.tree.leafAt q low ∧
        change = (dropped p.tree.tree.leafAt r.1.tree.leafAt (elementHash hash pairs) q low,
          pairAt (elementHash hash pairs) low (below r.1.tree.leafAt q)) := by
  obtain ⟨node, htouched, hleaf, hr, -⟩ := h.holds.insertBatch_touched schedule batch r hne hok
  refine ⟨Node.changes hash node, ?_, ?_⟩
  · have hlog := congrArg Prod.snd hr
    rw [hlog]
    exact Node.reports_changes hash node schedule
  · rw [← hleaf]
    exact Node.mem_changes pairs p.tree.tree node h.holds.valid.well_hashed htouched

/-- Without an element beside an older one, the stored pairs are those of the new tree. -/
theorem stored_pairs_iff (pairs : Set (Element × Element))
    (hinj : (elementHash hash pairs).Injective)
    (hold : Distinguished (elementHash hash pairs) (D - 1) p.tree.tree.leafAt)
    (hnew : Distinguished (elementHash hash pairs) (D - 1) r.1.tree.leafAt)
    (halone : Alone p.tree.tree.leafAt r.1.tree.leafAt (D - 1))
    (hvalid : r.1.keyed.Valid hash) (left right : Element)
    (hpairs : (p.db.lookup (.v2 (.knownHash left right))).isSome ↔
      (left, right) ∈ Pairs (elementHash hash pairs) (D - 1) h.holds.valid.sparse) :
    ((write (Persistent.writeBatch batch.entries r.2) p.db).lookup
        (.v2 (.knownHash left right))).isSome ↔
      (left, right) ∈ Pairs (elementHash hash pairs) (D - 1) hvalid.sparse := by
  obtain ⟨changes, hreports, hchanges⟩ := reports_inserted h schedule batch hne r hok pairs
  let S := h.holds.valid.sparse
  let T := hvalid.sparse
  have hle : Extends S.leaf T.leaf := extends_inserted h.holds schedule batch r hok
  let N := elementHash hash pairs
  let change : List Bool → ℕ → (Element × Element) × (Element × Element) := fun q low =>
    (dropped S.leaf T.leaf N q low, pairAt N low (below T.leaf q))
  have hin : ∀ q low, q.length + (low + 1) = D - 1 → Changed S.leaf T.leaf q low →
      change q low ∈ changes := fun q low hlen hchanged =>
    (hchanges (change q low)).mpr ⟨q, low, hlen, hchanged, rfl⟩
  rw [lookup_writeBatch_knownHash]
  by_cases hset : ∃ q low, q.length + (low + 1) = D - 1 ∧ Changed S.leaf T.leaf q low ∧
      (left, right) = pairAt N low (below T.leaf q)
  · obtain ⟨q, low, hlen, hchanged, hpair⟩ := hset
    have hlookup := hreports.lookup_set _ (change q low) (hin q low hlen hchanged) fun c hc hdrop => by
      obtain ⟨q', low', hlen', -, rfl⟩ := (hchanges c).mp hc
      exact set_of_dropped hinj hold hnew hle q low hlen hchanged q' low' hlen' hdrop
    have hkey : (change q low).2 = (left, right) := hpair.symm
    have hmem := set_mem_pairs (N := N) (H := D - 1) hle q low hlen hchanged
    rw [← hpair] at hmem
    rw [hkey] at hlookup
    rw [hlookup]
    exact iff_of_true rfl hmem
  · have hnotSet : ∀ q low, q.length + (low + 1) = D - 1 → Changed S.leaf T.leaf q low →
        (left, right) ≠ pairAt N low (below T.leaf q) := fun q low hlen hchanged heq =>
      hset ⟨q, low, hlen, hchanged, heq⟩
    have hsets : ∀ c ∈ changes, c.2 ≠ (left, right) := by
      intro c hc heq
      obtain ⟨q, low, hlen, hchanged, rfl⟩ := (hchanges c).mp hc
      exact hnotSet q low hlen hchanged heq.symm
    by_cases hdrop : ∃ q low, q.length + (low + 1) = D - 1 ∧ Changed S.leaf T.leaf q low ∧
        (left, right) = dropped S.leaf T.leaf N q low
    · obtain ⟨q, low, hlen, hchanged, hpair⟩ := hdrop
      have hkey : (change q low).1 = (left, right) := hpair.symm
      have hlookup := hreports.lookup_removed _ (change q low) (hin q low hlen hchanged)
        fun c hc heq => hsets c hc (heq.trans hkey)
      rw [hkey] at hlookup
      rw [hlookup]
      exact iff_of_false (by simp)
        (dropped_not_mem hinj hold hnew q low hlen hchanged _ hpair hnotSet)
    · have hnotDropped : ∀ q low, q.length + (low + 1) = D - 1 → Changed S.leaf T.leaf q low →
          (left, right) ≠ dropped S.leaf T.leaf N q low := fun q low hlen hchanged heq =>
        hdrop ⟨q, low, hlen, hchanged, heq⟩
      have hlookup := hreports.lookup_untouched _ _ hsets fun c hc heq => by
        obtain ⟨q, low, hlen, hchanged, rfl⟩ := (hchanges c).mp hc
        exact hnotDropped q low hlen hchanged heq.symm
      rw [hlookup, hpairs]
      exact mem_pairs_iff_of_untouched hle halone _ hnotDropped hnotSet

end Insertion

section Runs

variable {p : Persistent D V} {pairs : Set (Element × Element)}

/-- The batch has elements, and all of them are for empty slots. -/
def Accepted (p : Persistent D V) (call : Call D V) : Prop :=
  call.batch.entries ≠ [] ∧ ∀ e ∈ call.batch.elements,
    e ≠ Element.nullHash ∧ ∀ x ∈ p.tree.elements, bits D x ≠ bits D e

/-- The write is accepted, and no new element differs from an old one in the last bit of its
slot only. -/
structure Tidy (p : Persistent D V) (call : Call D V) : Prop where
  written : call.written = true
  alone : ∀ e ∈ call.batch.elements, ∀ x ∈ p.tree.elements,
    (bits D x).dropLast ≠ (bits D e).dropLast

/-- A stored tree whose stored pairs are its own. -/
structure InStep (hash : List Fr → Fr) (pairs : Set (Element × Element)) (p : Persistent D V) :
    Prop where
  stored : ∃ entries, Stored hash p entries
  pairs_iff : ∀ (hvalid : p.tree.keyed.Valid hash) (left right : Element),
    (p.db.lookup (.v2 (.knownHash left right))).isSome ↔
      (left, right) ∈ Pairs (elementHash hash pairs) (D - 1) hvalid.sparse

theorem accepted_of_insertBatch {entries : List (Element × V)} (h : Stored hash p entries)
    (call : Call D V) (hne : call.batch.entries ≠ []) (r : ValueTree D V × List HashChange)
    (hok : p.tree.insertBatch hash call.schedule call.batch = .ok r) : Accepted p call := by
  obtain ⟨hnull, hvacant⟩ := ValueTree.free_of_insertBatch h.holds.valid _ _ r hok
  refine ⟨hne, fun e he => ⟨hnull e he, ?_⟩⟩
  intro x hx hslot
  obtain ⟨hxne, hleaf⟩ := (h.holds.valid.entries_iff x).mp hx
  have hempty : p.tree.keyed.tree.leafAt (bits D e) = 0 := hvacant e he
  rw [← hslot, hleaf] at hempty
  exact hxne hempty

theorem insertBatch_of_accepted {entries : List (Element × V)} (h : Stored hash p entries)
    (call : Call D V) (haccepted : Accepted p call) :
    ∃ r, p.tree.insertBatch hash call.schedule call.batch = .ok r ∧
      (p.insertBatch hash call.schedule call.batch call.written).1 =
        if call.written then ⟨r.1, write (Persistent.writeBatch call.batch.entries r.2) p.db⟩
        else ⟨r.1, p.db⟩ := by
  obtain ⟨hne, hfree⟩ := haccepted
  have hvacant : ∀ e ∈ call.batch.elements, h.holds.valid.sparse.leaf (bits D e) = 0 := by
    intro e he
    by_contra hleaf
    have hplaced : bits D (p.tree.tree.leafAt (bits D e)) = bits D e :=
      h.holds.valid.placed _ hleaf
    exact (hfree e he).2 _ (leaf_mem h.holds _ hleaf) hplaced
  obtain ⟨node, -, hok, -⟩ := h.holds.append call.schedule call.batch
    (fun e he => (hfree e he).1) hvacant
  refine ⟨_, hok, ?_⟩
  unfold Persistent.insertBatch
  rw [if_neg (by rwa [List.isEmpty_iff]), hok]
  cases call.written <;> rfl

theorem beside_of_dropLast (a b : List Bool) (hlen : a.length = b.length) (hne : a ≠ b)
    (h : a.dropLast = b.dropLast) : ∃ q c, a = q ++ [c] ∧ b = q ++ [!c] := by
  rcases List.eq_nil_or_concat a with rfl | ⟨q, c, rfl⟩
  · exact absurd (List.length_eq_zero_iff.mp hlen.symm).symm hne
  · rcases List.eq_nil_or_concat b with rfl | ⟨q', c', rfl⟩
    · simp at hlen
    · rw [List.concat_eq_append, List.concat_eq_append, List.dropLast_concat,
        List.dropLast_concat] at h
      subst h
      refine ⟨q, c, List.concat_eq_append, ?_⟩
      have hc : c' = !c := by
        by_contra hsame
        have heq : c = c' := by cases c <;> cases c' <;> simp_all
        exact hne (by rw [heq])
      rw [hc, List.concat_eq_append]

theorem lookup_new (key : KeyFormat) : (Persistent.new D V).db.lookup key = none :=
  Finmap.lookup_empty key

theorem new_stored : Stored hash (Persistent.new D V) [] := by
  have hholds : (Persistent.new D V).tree.Holds hash [] :=
    ValueTree.newWithCache_holds [] (by simp [Faithful])
  refine ⟨hholds, ?_, Or.inl rfl, fun e => lookup_new _, ?_, ?_⟩
  · exact occupied_new (D - 1)
  · intro e
    have hlookup : (Persistent.new D V).tree.entries.lookup e = none := Finmap.lookup_empty e
    rw [lookup_new, hlookup]
    rfl
  · intro l r value hlookup
    rw [lookup_new] at hlookup
    cases hlookup

theorem new_inStep : InStep hash pairs (Persistent.new D V) := by
  refine ⟨⟨[], new_stored⟩, ?_⟩
  intro hvalid left right
  rw [lookup_new]
  refine iff_of_false (by simp) ?_
  rintro ⟨q, low, -, ⟨path, -, hne⟩, -⟩
  exact hne (leafAt_empty _)

/-- A database in step is a round trip of its tree. -/
theorem InStep.roundTrips (h : InStep hash pairs p) : RoundTrips hash p := by
  obtain ⟨entries, hstored⟩ := h.stored
  refine ⟨hstored.load, ?_, hstored.known_true⟩
  have hvalid := hstored.holds.valid
  obtain ⟨known, hknown, hmem⟩ := SmirkValues.Node.knownHashes_spec pairs p.tree.tree
    hvalid.well_hashed hstored.occupied
  refine ⟨known, hknown, ?_⟩
  intro l r result
  have hiff := h.pairs_iff hvalid l r
  rw [hmem]
  constructor
  · intro hlookup
    have htrue := hstored.known_true l r _ hlookup
    rw [ValueFormat.v2.injEq, ValueV2.knownHash.injEq] at htrue
    rw [hlookup] at hiff
    obtain ⟨q, low, hlen, hsome, hpair⟩ := hiff.mp rfl
    refine ⟨q, low, hlen, hsome, ?_⟩
    change _ = KnownHash.ofPair hash (pairAt _ low (below hvalid.sparse.leaf q))
    rw [← hpair, htrue]
    rfl
  · rintro ⟨q, low, hlen, hsome, hpair⟩
    have hkey : (l, r) = pairAt (elementHash hash pairs) low (below hvalid.sparse.leaf q) :=
      Prod.ext (congrArg KnownHash.left hpair) (congrArg KnownHash.right hpair)
    obtain ⟨value, hvalue⟩ := Option.isSome_iff_exists.mp (hiff.mpr ⟨q, low, hlen, hsome, hkey⟩)
    have hresult := congrArg KnownHash.result hpair
    change result = elementNode hash (pairAt _ low (below hvalid.sparse.leaf q)).1
      (pairAt _ low (below hvalid.sparse.leaf q)).2 at hresult
    rw [← hkey] at hresult
    rw [hvalue, hstored.known_true l r value hvalue, hresult]

/-- A round trip means that the call was tidy. -/
theorem InStep.tidy_of_roundTrips (h : InStep hash pairs p)
    (hinj : (elementHash hash pairs).Injective) (call : Call D V) (haccepted : Accepted p call)
    (hold : Distinguished (elementHash hash pairs) (D - 1) p.tree.tree.leafAt)
    (hnew : Distinguished (elementHash hash pairs) (D - 1)
      (p.insertBatch hash call.schedule call.batch call.written).1.tree.tree.leafAt)
    (hround : RoundTrips hash (p.insertBatch hash call.schedule call.batch call.written).1) :
    Tidy p call := by
  obtain ⟨entries, hstored⟩ := h.stored
  obtain ⟨hne, hfree⟩ := haccepted
  obtain ⟨r, hok, hresult⟩ := insertBatch_of_accepted hstored call ⟨hne, hfree⟩
  have hwritten : call.written = true := by
    by_contra hrefused
    rw [hresult, if_neg hrefused] at hround
    obtain ⟨q, hload, hentries, -⟩ := hround.load
    obtain ⟨q', hload', hentries', -⟩ := hstored.load
    rw [hload', Except.ok.injEq] at hload
    rw [hload, hentries] at hentries'
    obtain ⟨entry, hentry⟩ := List.exists_mem_of_ne_nil _ hne
    have he : entry.1 ∈ call.batch.elements := List.mem_map_of_mem hentry
    have hin : entry.1 ∈ r.1.elements := ((hstored.holds.insertBatch _ _ r hok).mem_iff _).mpr
      (by rw [List.map_append]; exact List.mem_append_right _ he)
    rw [ValueTree.mem_elements] at hin
    have hin' : entry.1 ∈ p.tree.elements := by
      rw [ValueTree.mem_elements, ← hentries']
      exact hin
    exact (hfree _ he).2 _ hin' rfl
  rw [hresult, if_pos hwritten] at hnew hround
  refine ⟨hwritten, ?_⟩
  intro e he x hx hslot
  have hholds := hstored.holds.insertBatch call.schedule call.batch r hok
  have hlen : (bits D x).length = (bits D e).length := by rw [bits_length, bits_length]
  obtain ⟨q, b, hx', he'⟩ := beside_of_dropLast _ _ hlen ((hfree e he).2 x hx) hslot
  obtain ⟨hxne, hxleaf⟩ := (hstored.holds.valid.entries_iff x).mp hx
  have hnewLeaf : r.1.tree.leafAt (bits D e) = e := by
    have hin : e ∈ r.1.elements := (hholds.mem_iff e).mpr
      (by rw [List.map_append]; exact List.mem_append_right _ he)
    exact ((hholds.valid.entries_iff e).mp hin).2
  have hqlen : q.length + 1 = D - 1 := by
    rw [← bits_length D e, he', List.length_append, List.length_singleton]
  have hleaf : p.tree.tree.leafAt (q ++ [b]) ≠ 0 := by
    rw [← hx']
    exact hxleaf.symm ▸ hxne
  have hbeside : r.1.tree.leafAt (q ++ [!b]) ≠ p.tree.tree.leafAt (q ++ [!b]) := by
    rw [← he', hnewLeaf]
    intro heq
    have hne' : p.tree.tree.leafAt (bits D e) ≠ 0 := heq ▸ (hfree e he).1
    have hin := leaf_mem hstored.holds _ hne'
    rw [← heq] at hin
    exact (hfree e he).2 e hin rfl
  obtain ⟨changes, hreports, hchanges⟩ := reports_inserted hstored call.schedule call.batch hne r
    hok pairs
  obtain ⟨hgone, hkept⟩ := stale_of_beside (S := hstored.holds.valid.sparse)
    (T := hholds.valid.sparse) hinj hold hnew q b hqlen hleaf hbeside
  let pair := pairAt (elementHash hash pairs) 0 (below p.tree.tree.leafAt q)
  have hstart : (p.db.lookup (.v2 (.knownHash pair.1 pair.2))).isSome :=
    (h.pairs_iff hstored.holds.valid pair.1 pair.2).mpr ⟨q, 0, hqlen, ⟨[b], rfl, hleaf⟩, rfl⟩
  have huntouched := hreports.lookup_untouched _ pair
    (fun c hc heq => by
      obtain ⟨q', low, hlow, hchanged, rfl⟩ := (hchanges c).mp hc
      exact (hkept q' low hlow hchanged).2 heq.symm)
    (fun c hc heq => by
      obtain ⟨q', low, hlow, hchanged, rfl⟩ := (hchanges c).mp hc
      exact (hkept q' low hlow hchanged).1 heq.symm)
  obtain ⟨value, hvalue⟩ := Option.isSome_iff_exists.mp hstart
  have hstays : (write (Persistent.writeBatch call.batch.entries r.2) p.db).lookup
      (.v2 (.knownHash pair.1 pair.2)) = some value := by
    rw [lookup_writeBatch_knownHash, huntouched]
    exact hvalue
  obtain ⟨known, hknown, hmem⟩ := hround.known
  have hin := (hmem pair.1 pair.2 _).mp (by
    rw [hround.merged _ _ _ hstays] at hstays
    exact hstays)
  have hoccupied := (hstored.inserted call.schedule call.batch hne r hok).occupied
  obtain ⟨known', hknown', hspec⟩ := SmirkValues.Node.knownHashes_spec pairs r.1.tree
    hholds.valid.well_hashed hoccupied
  rw [hknown', Option.some_inj] at hknown
  rw [← hknown] at hin
  obtain ⟨q', low, hlow, hsome, heq⟩ := (hspec _).mp hin
  exact hgone ⟨q', low, hlow, hsome, Prod.ext (congrArg KnownHash.left heq)
    (congrArg KnownHash.right heq)⟩

/-- A tidy call keeps the stored pairs those of the tree. -/
theorem InStep.insertBatch (h : InStep hash pairs p) (hinj : (elementHash hash pairs).Injective)
    (call : Call D V) (htidy : Accepted p call → Tidy p call)
    (hold : Distinguished (elementHash hash pairs) (D - 1) p.tree.tree.leafAt)
    (hnew : Distinguished (elementHash hash pairs) (D - 1)
      (p.insertBatch hash call.schedule call.batch call.written).1.tree.tree.leafAt) :
    InStep hash pairs (p.insertBatch hash call.schedule call.batch call.written).1 := by
  obtain ⟨entries, hstored⟩ := h.stored
  rcases insertBatch_cases p call with hsame | ⟨hne, r, hok, hresult⟩
  · rw [hsame]
    exact h
  · obtain ⟨hwritten, halone⟩ := htidy (accepted_of_insertBatch hstored call hne r hok)
    rw [hresult, if_pos hwritten] at hnew ⊢
    refine ⟨⟨_, hstored.inserted call.schedule call.batch hne r hok⟩, ?_⟩
    intro hvalid left right
    exact stored_pairs_iff hstored call.schedule call.batch hne r hok pairs hinj hold hnew
      (alone_inserted hstored.holds call.schedule call.batch r hok halone) hvalid left right
      (h.pairs_iff hstored.holds.valid left right)

/-- The tidy calls are those after which the tree is read back. -/
theorem tidy_criterion (hinj : (elementHash hash pairs).Injective) :
    Criterion
      (fun (p : Persistent D V) (call : Call D V) =>
        (p.insertBatch hash call.schedule call.batch call.written).1)
      (fun p => Distinguished (elementHash hash pairs) (D - 1) p.tree.tree.leafAt)
      (InStep hash pairs) (RoundTrips hash) (fun p call => Accepted p call → Tidy p call) where
  good _ h := h.roundTrips
  necessary _ call hold hnew h hround haccepted :=
    h.tidy_of_roundTrips hinj call haccepted hold hnew hround
  sufficient _ call hold hnew h htidy := h.insertBatch hinj call htidy hold hnew

end Runs

section Inserts

def sumHash : List Fr → Fr
  | [a, b] => a + 10 * b + 100
  | _ => 0

def sumPairs : List (Element × Element) :=
  [(0, 0), (100, 100), (2, 0), (100, 102), (0, 1), (110, 102), (2, 3), (100, 132)]

def insertOne (element : Element) : Call 3 Unit :=
  ⟨⟨[(element, ())], List.pairwise_singleton _ _, Or.inr (by decide)⟩, true, fun _ => []⟩

theorem sumHash_injective : (elementHash sumHash {pair | pair ∈ sumPairs}).Injective := by
  have h : ∀ x ∈ sumPairs, ∀ y ∈ sumPairs,
      elementNode sumHash x.1 x.2 = elementNode sumHash y.1 y.2 → x = y := by
    intro x hx y hy
    fin_cases hx <;> fin_cases hy <;> decide
  intro a b c d hab hcd heq
  exact Prod.mk.inj (h (a, b) hab (c, d) hcd heq)

variable {p : Persistent 3 Unit} {entries : List (Element × Unit)}

theorem Stored.insertOne (h : Stored sumHash p entries) (e : Element) (he : e ≠ Element.nullHash)
    (hfresh : ∀ x ∈ entries.map Prod.fst, bits 3 x ≠ bits 3 e) :
    Accepted p (insertOne e) ∧
      Stored sumHash (p.insertBatch sumHash (insertOne e).schedule (insertOne e).batch true).1
        (entries ++ [(e, ())]) := by
  have haccepted : Accepted p (SmirkStorage.insertOne e) := by
    refine ⟨by simp [SmirkStorage.insertOne], fun x hx => ?_⟩
    obtain rfl : x = e := by simpa [SmirkStorage.insertOne, ValueBatch.elements] using hx
    exact ⟨he, fun y hy => hfresh y ((h.holds.mem_iff y).mp hy)⟩
  obtain ⟨r, hok, hresult⟩ := insertBatch_of_accepted h _ haccepted
  refine ⟨haccepted, ?_⟩
  change Stored sumHash (p.insertBatch sumHash _ _ (SmirkStorage.insertOne e).written).1 _
  rw [hresult]
  exact h.inserted _ _ haccepted.1 r hok

/-- Small elements are no hashes of these pairs. -/
theorem Stored.distinguished (h : Stored sumHash p entries)
    (hsmall : ∀ e ∈ entries.map Prod.fst, e.toNat < 4)
    (hroot : RootHashed (elementHash sumHash {pair | pair ∈ sumPairs}) 2
      (overlay (bits 3) (fun _ => 0) (entries.map Prod.fst))) :
    Distinguished (elementHash sumHash {pair | pair ∈ sumPairs}) 2 p.tree.tree.leafAt := by
  have hleaf : p.tree.tree.leafAt = overlay (bits 3) (fun _ => 0) (entries.map Prod.fst) :=
    congrArg SparseTree.leaf h.holds.laid
  refine ⟨by rw [hleaf]; exact hroot, fun q => ⟨false, ?_⟩⟩
  intro a b hab heq
  have hlarge : ∀ x ∈ sumPairs, 4 ≤ (elementNode sumHash x.1 x.2).toNat := by
    intro x hx
    fin_cases hx <;> decide
  have hbig : 4 ≤ (p.tree.tree.leafAt (q ++ [false])).toNat := heq ▸ hlarge (a, b) hab
  by_cases hzero : p.tree.tree.leafAt (q ++ [false]) = 0
  · rw [hzero] at hbig
    exact absurd hbig (by decide)
  · have hin := (h.holds.mem_iff _).mp (leaf_mem h.holds _ hzero)
    have hlt := hsmall _ hin
    omega

/-- Two elements inserted one after the other, in distinct slots. -/
structure TwoInserts (e e' : Element) : Prop where
  first_small : e.toNat < 4
  second_small : e'.toNat < 4
  first_ne : e ≠ Element.nullHash
  second_ne : e' ≠ Element.nullHash
  apart : bits 3 e ≠ bits 3 e'
  empty_hashed : RootHashed (elementHash sumHash {pair | pair ∈ sumPairs}) 2
    (overlay (bits 3) (fun _ => 0) [])
  first_hashed : RootHashed (elementHash sumHash {pair | pair ∈ sumPairs}) 2
    (overlay (bits 3) (fun _ => 0) [e])
  second_hashed : RootHashed (elementHash sumHash {pair | pair ∈ sumPairs}) 2
    (overlay (bits 3) (fun _ => 0) [e, e'])

section Two

variable {e e' : Element} (h : TwoInserts e e')

include h

theorem TwoInserts.stored :
    Stored sumHash ((Persistent.new 3 Unit).run sumHash [SmirkStorage.insertOne e]) [(e, ())] :=
  (new_stored.insertOne e h.first_ne (by simp)).2

theorem TwoInserts.distinguished (before : List (Call 3 Unit))
    (hbefore : before <+: [SmirkStorage.insertOne e, SmirkStorage.insertOne e']) :
    Distinguished (elementHash sumHash {pair | pair ∈ sumPairs}) (3 - 1)
      ((Persistent.new 3 Unit).run sumHash before).tree.tree.leafAt := by
  have hboth := (h.stored.insertOne e' h.second_ne (by simpa using h.apart)).2
  rw [List.prefix_cons_iff] at hbefore
  rcases hbefore with rfl | ⟨rest, rfl, hrest⟩
  · exact Stored.distinguished new_stored (by simp) h.empty_hashed
  · rw [List.prefix_cons_iff] at hrest
    rcases hrest with rfl | ⟨rest, rfl, hrest⟩
    · exact h.stored.distinguished (by simpa using h.first_small) h.first_hashed
    · obtain rfl := List.prefix_nil.mp hrest
      refine hboth.distinguished ?_ h.second_hashed
      simpa using ⟨h.first_small, h.second_small⟩

end Two

theorem twoInserts_apart : TwoInserts 2 1 := by
  refine ⟨by decide, by decide, by decide, by decide, by decide,
    ⟨?_, ⟨?_, trivial, trivial⟩, ⟨?_, trivial, trivial⟩⟩,
    ⟨?_, ⟨?_, trivial, trivial⟩, ⟨?_, trivial, trivial⟩⟩,
    ⟨?_, ⟨?_, trivial, trivial⟩, ⟨?_, trivial, trivial⟩⟩⟩ <;>
  · change _ ∈ sumPairs
    decide

theorem twoInserts_beside : TwoInserts 2 3 := by
  refine ⟨by decide, by decide, by decide, by decide, by decide,
    ⟨?_, ⟨?_, trivial, trivial⟩, ⟨?_, trivial, trivial⟩⟩,
    ⟨?_, ⟨?_, trivial, trivial⟩, ⟨?_, trivial, trivial⟩⟩,
    ⟨?_, ⟨?_, trivial, trivial⟩, ⟨?_, trivial, trivial⟩⟩⟩ <;>
  · change _ ∈ sumPairs
    decide

end Inserts
/-- Every tree of a run is read back, with the stored hashes as its known hashes, exactly when
every insertion of the run is tidy. -/
theorem run_roundTrips_iff (hash : List Fr → Fr) (pairs : Set (Element × Element)) (D : ℕ)
    (V : Type) (calls : List (Call D V)) (hinj : (elementHash hash pairs).Injective)
    (hdistinguished : ∀ before, before <+: calls → Distinguished (elementHash hash pairs) (D - 1)
      ((Persistent.new D V).run hash before).tree.tree.leafAt) :
    (∀ before, before <+: calls → RoundTrips hash ((Persistent.new D V).run hash before)) ↔
      ∀ before call, before ++ [call] <+: calls →
        Accepted ((Persistent.new D V).run hash before) call →
        Tidy ((Persistent.new D V).run hash before) call :=
  forall_prefix_iff (tidy_criterion hinj) new_inStep hdistinguished

theorem run_roundTrips_two :
    (elementHash sumHash {pair | pair ∈ sumPairs}).Injective ∧
      ∀ before, before <+: [insertOne 2, insertOne 1] →
        RoundTrips sumHash ((Persistent.new 3 Unit).run sumHash before) := by
  have htwo := twoInserts_apart
  refine ⟨sumHash_injective, ?_⟩
  refine (run_roundTrips_iff sumHash {pair | pair ∈ sumPairs} 3 Unit _ sumHash_injective
    htwo.distinguished).mpr ?_
  intro before call hprefix _
  rw [List.prefix_cons_iff] at hprefix
  rcases hprefix with hnil | ⟨rest, hrest, hprefix⟩
  · simp at hnil
  · cases before with
    | nil =>
      obtain ⟨rfl, -⟩ := List.cons.inj hrest
      have hnew : Stored sumHash (Persistent.new 3 Unit) [] := new_stored
      exact ⟨rfl, fun e _ x hx => by simpa using (hnew.holds.mem_iff x).mp hx⟩
    | cons first before =>
      obtain ⟨rfl, rfl⟩ := List.cons.inj hrest
      rw [List.prefix_cons_iff] at hprefix
      rcases hprefix with hnil | ⟨rest, hrest, hprefix⟩
      · simp at hnil
      · obtain rfl := List.prefix_nil.mp hprefix
        obtain ⟨rfl, hcall⟩ := List.append_eq_singleton_iff.mp hrest |>.resolve_right (by simp)
        obtain rfl := List.singleton_inj.mp hcall
        refine ⟨rfl, fun e he x hx => ?_⟩
        obtain rfl : e = 1 := by simpa [insertOne, ValueBatch.elements] using he
        obtain rfl : x = 2 := by simpa using (htwo.stored.holds.mem_iff x).mp hx
        decide

/-- An element beside an older one: the record of the older element and its empty neighbour
stays in the database. -/
theorem run_keeps_stale_hash :
    (elementHash sumHash {pair | pair ∈ sumPairs}).Injective ∧
      (∀ before, before <+: [insertOne 2, insertOne 3] →
        Distinguished (elementHash sumHash {pair | pair ∈ sumPairs}) (3 - 1)
          ((Persistent.new 3 Unit).run sumHash before).tree.tree.leafAt) ∧
      ¬∀ before, before <+: [insertOne 2, insertOne 3] →
        RoundTrips sumHash ((Persistent.new 3 Unit).run sumHash before) := by
  have htwo := twoInserts_beside
  refine ⟨sumHash_injective, htwo.distinguished, ?_⟩
  intro hround
  have hfirst : [insertOne 2] <+: [insertOne 2, insertOne 3] := ⟨[insertOne 3], rfl⟩
  have hstep : InStep sumHash {pair | pair ∈ sumPairs}
      ((Persistent.new 3 Unit).run sumHash [insertOne 2]) := by
    have hnew : Stored sumHash (Persistent.new 3 Unit) [] := new_stored
    refine new_inStep.insertBatch sumHash_injective (insertOne 2) (fun _ => ⟨rfl, ?_⟩)
      (htwo.distinguished [] List.nil_prefix) (htwo.distinguished _ hfirst)
    intro e _ x hx
    simpa using (hnew.holds.mem_iff x).mp hx
  obtain ⟨haccepted, -⟩ := htwo.stored.insertOne 3 htwo.second_ne (by simpa using htwo.apart)
  have htidy := hstep.tidy_of_roundTrips sumHash_injective (insertOne 3) haccepted
    (htwo.distinguished _ hfirst) (htwo.distinguished _ (List.prefix_refl _))
    (hround _ (List.prefix_refl _))
  have hin : 2 ∈ ((Persistent.new 3 Unit).run sumHash [insertOne 2]).tree.elements :=
    (htwo.stored.holds.mem_iff 2).mpr (by simp)
  have hapart := htidy.alone 3 (by simp [insertOne, ValueBatch.elements]) 2 hin
  exact hapart (by decide)

end PayyRollup.SmirkStorage
