import Mathlib.Data.List.Nodup

/-!
Reading a list page by page. A page function that answers a cursor with the next elements and
a cursor at its last one leads, when its cursors are followed until a page is empty, through
the whole list. The elements may come in nonempty groups that are fetched whole: as many
groups as the page has elements are then enough for a page in the order of the list, while
the groups before a place end with the elements just before it only if they hold no others.
-/
namespace PayyRollup.CursorPages

variable {A C ε : Type}

/-- The pages up to the first empty one, if there is enough fuel to reach it. -/
def follow (page : Option C → Except ε (Option C × List A)) :
    ℕ → Option C → Except ε (Option (List (List A)))
  | 0, _ => .ok none
  | fuel + 1, cursor =>
    match page cursor with
    | .error e => .error e
    | .ok (_, []) => .ok (some [])
    | .ok (next, items) => (follow page fuel next).map fun rest => rest.map (items :: ·)

/-- Each page holds the next elements and leads to the page after its last one. -/
structure Pages (page : Option C → Except ε (Option C × List A)) (cursorOf : A → C) (n : ℕ)
    (all : List A) : Prop where
  first : page none = .ok ((all.take n).getLast?.map cursorOf, all.take n)
  next : ∀ before x after, all = before ++ x :: after →
    page (some (cursorOf x)) = .ok ((after.take n).getLast?.map cursorOf, after.take n)

/-- Pages that cannot be empty, and of which only the last can be short. -/
structure Chunks (n : ℕ) (pages : List (List A)) : Prop where
  ne_nil : ∀ p ∈ pages, p ≠ []
  full : ∀ done p q later, pages = done ++ p :: q :: later → p.length = n

theorem Chunks.cons (n : ℕ) (xs : List A) (pages : List (List A)) (hne : xs.take n ≠ [])
    (h : Chunks n pages) (hflatten : pages.flatten = xs.drop n) :
    Chunks n (xs.take n :: pages) := by
  refine ⟨List.forall_mem_cons.mpr ⟨hne, h.ne_nil⟩, fun done p q later heq => ?_⟩
  cases done with
  | nil =>
    obtain ⟨rfl, rfl⟩ := List.cons.inj heq
    obtain ⟨x, hx⟩ := List.exists_mem_of_ne_nil q (h.ne_nil q List.mem_cons_self)
    have hdrop : x ∈ xs.drop n := by
      rw [← hflatten, List.flatten_cons]
      exact List.mem_append_left _ hx
    have hpos := List.length_pos_of_mem hdrop
    rw [List.length_drop] at hpos
    rw [List.length_take]
    omega
  | cons first done =>
    obtain ⟨-, rfl⟩ := List.cons.inj heq
    exact h.full done p q later rfl

variable {page : Option C → Except ε (Option C × List A)} {cursorOf : A → C} {n : ℕ}
  {all : List A}

/-- Following the cursors from a place in the list reads the rest of it. -/
theorem Pages.follow_from (h : Pages page cursorOf n all) (hn : 0 < n) (fuel : ℕ)
    (before rest : List A) (cursor : Option C) (hall : all = before ++ rest)
    (hpage : page cursor = .ok ((rest.take n).getLast?.map cursorOf, rest.take n))
    (hfuel : rest.length < fuel) :
    ∃ pages, follow page fuel cursor = .ok (some pages) ∧ pages.flatten = rest ∧
      Chunks n pages := by
  induction fuel generalizing before rest cursor with
  | zero => omega
  | succ fuel ih =>
    rcases List.eq_nil_or_concat' (rest.take n) with hempty | ⟨init, last, hlast⟩
    · have hrest : rest = [] := by
        rw [List.take_eq_nil_iff] at hempty
        exact hempty.resolve_left (by omega)
      subst hrest
      refine ⟨[], ?_, rfl, by simp, by simp⟩
      rw [follow, hpage, hempty]
    · have hsplit : rest = init ++ last :: rest.drop n := by
        have htake := List.take_append_drop n rest
        rw [hlast, List.append_assoc] at htake
        exact htake.symm
      have hlen : (rest.drop n).length < fuel := by
        have hlength := congrArg List.length hsplit
        rw [List.length_append, List.length_cons] at hlength
        omega
      have hplace : all = (before ++ init) ++ last :: rest.drop n := by
        rw [hall, List.append_assoc, ← hsplit]
      have hnext := h.next _ _ _ hplace
      obtain ⟨pages, hpages, hflatten, hchunks⟩ := ih (before ++ (init ++ [last])) (rest.drop n)
        (some (cursorOf last)) (by rw [hplace]; simp) hnext hlen
      refine ⟨rest.take n :: pages, ?_, ?_, ?_⟩
      · have hcursor : (init ++ [last]).getLast?.map cursorOf = some (cursorOf last) := by
          simp
        have hne : ∃ x xs, init ++ [last] = x :: xs := by
          cases init with
          | nil => exact ⟨_, _, rfl⟩
          | cons x xs => exact ⟨_, _, rfl⟩
        obtain ⟨x, xs, hxs⟩ := hne
        rw [follow, hpage, hlast, hcursor]
        rw [hxs] at hlast ⊢
        change (follow page fuel _).map _ = _
        rw [hpages]
        rfl
      · rw [List.flatten_cons, hflatten, List.take_append_drop]
      · exact hchunks.cons n rest pages (by simp [hlast]) hflatten

theorem Pages.follow_all (h : Pages page cursorOf n all) (hn : 0 < n) (fuel : ℕ)
    (hfuel : all.length < fuel) :
    ∃ pages, follow page fuel none = .ok (some pages) ∧ pages.flatten = all ∧ Chunks n pages :=
  h.follow_from hn fuel [] all none rfl h.first hfuel

/-- More fuel does not change the pages. -/
theorem follow_add (fuel more : ℕ) (cursor : Option C) (pages : List (List A))
    (h : follow page fuel cursor = .ok (some pages)) :
    follow page (fuel + more) cursor = .ok (some pages) := by
  induction fuel generalizing cursor pages with
  | zero => cases h
  | succ fuel ih =>
    rw [Nat.succ_add]
    unfold follow at h ⊢
    cases hpage : page cursor with
    | error e =>
      rw [hpage] at h
      cases h
    | ok result =>
      obtain ⟨next, items⟩ := result
      rw [hpage] at h
      cases items with
      | nil => exact h
      | cons item items =>
        change (follow page fuel next).map _ = _ at h
        change (follow page (fuel + more) next).map _ = _
        cases hnext : follow page fuel next with
        | error e =>
          rw [hnext] at h
          cases h
        | ok rest =>
          rw [hnext] at h
          cases rest with
          | none => cases h
          | some rest =>
            rw [ih next rest hnext]
            exact h

/-- All pages that are reached by following the cursors. -/
theorem Pages.of_follow (h : Pages page cursorOf n all) (hn : 0 < n) (fuel : ℕ)
    (pages : List (List A)) (hpages : follow page fuel none = .ok (some pages)) :
    pages.flatten = all ∧ Chunks n pages := by
  obtain ⟨pages', hpages', hflatten, hchunks⟩ :=
    h.follow_all hn (all.length + 1 + fuel) (by omega)
  have hmore := follow_add fuel (all.length + 1) none pages hpages
  rw [Nat.add_comm, hpages', Except.ok.injEq, Option.some.injEq] at hmore
  subst hmore
  exact ⟨hflatten, hchunks⟩

section Groups

variable {G : Type} (f : G → List A) (gs : List G)

/-- A place in the list lies in one of the groups. -/
theorem exists_group (pre post : List A) (x : A) (h : gs.flatMap f = pre ++ x :: post) :
    ∃ before g after own later, gs = before ++ g :: after ∧ f g = own ++ x :: later ∧
      pre = before.flatMap f ++ own ∧ post = later ++ after.flatMap f := by
  induction gs generalizing pre with
  | nil => simp at h
  | cons g gs ih =>
    rw [List.flatMap_cons, List.append_eq_append_iff] at h
    rcases h with ⟨rest, rfl, hrest⟩ | ⟨rest, hg, hrest⟩
    · obtain ⟨before, g', after, own, later, rfl, hg', rfl, rfl⟩ := ih rest hrest
      exact ⟨g :: before, g', after, own, later, rfl, hg', by simp, rfl⟩
    · cases rest with
      | nil =>
        rw [List.append_nil] at hg
        rw [List.nil_append] at hrest
        obtain ⟨before, g', after, own, later, rfl, hg', hpre, rfl⟩ := ih [] hrest.symm
        refine ⟨g :: before, g', after, own, later, rfl, hg', ?_, rfl⟩
        rw [List.flatMap_cons, List.append_assoc, ← hpre, List.append_nil, hg]
      | cons y rest =>
        obtain ⟨rfl, rfl⟩ := List.cons.inj hrest
        exact ⟨[], g, gs, pre, rest, rfl, hg, rfl, rfl⟩

theorem length_le_flatMap (hne : ∀ g ∈ gs, f g ≠ []) : gs.length ≤ (gs.flatMap f).length := by
  induction gs with
  | nil => exact Nat.le_refl _
  | cons g gs ih =>
    obtain ⟨hg, hgs⟩ := List.forall_mem_cons.mp hne
    have hpos : 0 < (f g).length := List.length_pos_iff.mpr hg
    have hrest := ih hgs
    rw [List.flatMap_cons, List.length_append, List.length_cons]
    omega

/-- A page needs no more groups than it has elements. -/
theorem take_flatMap_take (hne : ∀ g ∈ gs, f g ≠ []) (n m : ℕ) (hnm : n ≤ m) :
    ((gs.take m).flatMap f).take n = (gs.flatMap f).take n := by
  have hsplit : gs.flatMap f = (gs.take m).flatMap f ++ (gs.drop m).flatMap f := by
    rw [← List.flatMap_append, List.take_append_drop]
  rcases Nat.lt_or_ge m gs.length with hlt | hge
  · have hlen := length_le_flatMap f (gs.take m) fun g hg => hne g (List.mem_of_mem_take hg)
    rw [List.length_take, Nat.min_eq_left (Nat.le_of_lt hlt)] at hlen
    rw [hsplit, List.take_append_of_le_length (by omega)]
  · rw [List.take_of_length_le hge]

theorem drop_last_append (xs ys : List A) (n : ℕ) (hn : n ≤ ys.length) :
    (xs ++ ys).drop ((xs ++ ys).length - n) = ys.drop (ys.length - n) := by
  have hlen : (xs ++ ys).length - n = xs.length + (ys.length - n) := by
    rw [List.length_append]
    omega
  rw [hlen, List.drop_length_add_append]

theorem mem_drop_last (xs : List A) (x : A) (n : ℕ) (hn : 0 < n) :
    x ∈ (xs ++ [x]).drop ((xs ++ [x]).length - n) := by
  have hlen : (xs ++ [x]).length - n ≤ xs.length := by
    rw [List.length_append, List.length_singleton]
    omega
  rw [List.drop_append_of_le_length hlen]
  simp

/-- The first and the last elements of a longer list differ. -/
theorem take_ne_drop_last (xs : List A) (n : ℕ) (hn : 0 < n) (hlen : n < xs.length)
    (hnodup : xs.Nodup) : xs.take n ≠ xs.drop (xs.length - n) := by
  intro heq
  have hhead := congrArg (·[0]?) heq
  simp only [List.getElem?_take_of_lt hn, List.getElem?_drop, Nat.add_zero] at hhead
  have hindex := (List.getElem?_inj (by omega) hnodup).mp hhead
  omega

/-- The groups before a place, with what follows the place in its own group, begin with the
elements just before the place exactly if no group is cut. -/
theorem take_before_iff (hne : ∀ g ∈ gs, f g ≠ []) (n : ℕ) (hn : 0 < n) (own later : List A)
    (hnodup : (gs.flatMap f ++ own ++ later).Nodup) :
    ((gs.drop (gs.length - n)).flatMap f ++ later).take n =
        (gs.flatMap f ++ own).drop ((gs.flatMap f ++ own).length - n) ↔
      own = [] ∧ ((gs.drop (gs.length - n)).flatMap f).length ≤ n ∧
        (((gs.drop (gs.length - n)).flatMap f).length = n ∨ later = []) := by
  have hsplit : gs.flatMap f =
      (gs.take (gs.length - n)).flatMap f ++ (gs.drop (gs.length - n)).flatMap f := by
    rw [← List.flatMap_append, List.take_append_drop]
  have hfew : ((gs.drop (gs.length - n)).flatMap f).length < n → gs.length - n = 0 := by
    intro hlt
    have hlen := length_le_flatMap f (gs.drop (gs.length - n)) fun g hg =>
      hne g (List.mem_of_mem_drop hg)
    rw [List.length_drop] at hlen
    omega
  generalize (gs.drop (gs.length - n)).flatMap f = near at *
  obtain ⟨hnodup, hlater, hapart⟩ := List.nodup_append'.mp hnodup
  obtain ⟨hgroups, hown, hdisjoint⟩ := List.nodup_append'.mp hnodup
  have hnear : ∀ x ∈ near, x ∈ gs.flatMap f := by
    intro x hx
    rw [hsplit]
    exact List.mem_append_right _ hx
  constructor
  · intro heq
    have hnil : own = [] := by
      by_contra hne
      obtain ⟨init, x, rfl⟩ := (List.eq_nil_or_concat' own).resolve_left hne
      have hx := mem_drop_last (gs.flatMap f ++ init) x n hn
      rw [List.append_assoc, ← heq] at hx
      have hxown : x ∈ init ++ [x] := by simp
      rcases List.mem_append.mp (List.mem_of_mem_take hx) with hx | hx
      · exact hdisjoint (hnear x hx) hxown
      · exact hapart (List.mem_append_right _ hxown) hx
    subst hnil
    rw [List.append_nil] at heq
    have hle : near.length ≤ n := by
      by_contra hlt
      rw [List.take_append_of_le_length (by omega), hsplit, drop_last_append _ _ _ (by omega)] at heq
      rw [hsplit] at hgroups
      exact take_ne_drop_last near n hn (by omega) (List.nodup_append'.mp hgroups).2.1 heq
    refine ⟨rfl, hle, ?_⟩
    by_contra hboth
    obtain ⟨hlen, hcons⟩ := not_or.mp hboth
    obtain ⟨y, ys, rfl⟩ := List.exists_cons_of_ne_nil hcons
    have hy : y ∈ (near ++ y :: ys).take n := by
      rw [List.take_append, List.mem_append]
      right
      rw [List.take_cons (by omega)]
      exact List.mem_cons_self
    rw [heq] at hy
    exact hapart (List.mem_append_left _ (List.mem_of_mem_drop hy)) List.mem_cons_self
  · rintro ⟨rfl, hle, hlen | rfl⟩
    · rw [List.append_nil, List.take_append_of_le_length (by omega), hsplit,
        drop_last_append _ _ _ (by omega), List.take_of_length_le hle, hlen, Nat.sub_self]
      rfl
    · rw [List.append_nil, List.append_nil, List.take_of_length_le hle]
      rcases Nat.lt_or_ge near.length n with hlt | hge
      · have hall : gs.flatMap f = near := by
          rw [hsplit, hfew hlt]
          rfl
        rw [hall, show near.length - n = 0 by omega]
        rfl
      · rw [hsplit, drop_last_append _ _ _ hge, show near.length - n = 0 by omega]
        rfl

end Groups
end PayyRollup.CursorPages
