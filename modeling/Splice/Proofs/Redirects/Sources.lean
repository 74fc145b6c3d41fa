import Mathlib.Data.List.Induction
import Mathlib.Logic.Relation
import Splice.Redirect.Index
import Splice.Proofs.Redirects.Log
import Splice.Proofs.Run

/-!
# The sources of a place

The sources of a place are what leads to it in one or more redirects, each once, cycles or not
(`mem_sourcesOf_iff`, `Keyed.nodup_sourcesOf`).

They may as well be searched for in an index. An index mirrors the redirects if what it lists is
what is redirected, each redirect once, in whatever order (`SourceIndex.Mirrors`). Listing one
more redirect and striking one keep it so, and so does every change of redirects that keep an
index (`IndexedRedirects.Reached.mirrored`). Going by an index that mirrors the redirects, the
search ends and finds the sources (`Mirrored.sourcesOf?_eq`).

The first part is about the list that is returned by the plain definition, in three facts: it
holds what leads there, it is closed under going one redirect further back, and it begins right.
The second part is about the index, for which it is enough that it mirrors the redirects up to
order.
-/

namespace Splice

/-! ## Association lists -/

namespace Assoc

variable {α β : Type} [BEq α] [LawfulBEq α] {entries : List (α × β)} {key : α}

/-- To erase a key that is not there changes nothing. -/
theorem erase_of_lookup_eq_none (h : entries.lookup key = none) : erase entries key = entries := by
  refine erase_of_not_mem fun hmem => ?_
  obtain ⟨entry, hentry, he⟩ := List.mem_map.mp hmem
  exact bne_iff_ne.mp (List.lookup_eq_none_iff.mp h entry hentry) he.symm

/-- The entry of a key, if there is one. -/
theorem filter_key (hkeys : (entries.map (·.1)).Nodup) (key : α) :
    (entries.filter fun entry => entry.1 == key).map (·.2) = (entries.lookup key).toList := by
  induction entries with
  | nil => rfl
  | cons entry entries ih =>
    obtain ⟨k, v⟩ := entry
    obtain ⟨hnot, hrest⟩ := List.nodup_cons.mp hkeys
    rw [List.lookup_cons]
    by_cases hk : k = key
    · subst hk
      have hnone : entries.filter (fun entry => entry.1 == k) = [] :=
        List.filter_eq_nil_iff.mpr fun entry hentry he =>
          hnot (List.mem_map.mpr ⟨entry, hentry, beq_iff_eq.mp he⟩)
      simp [hnone]
    · have hne : (key == k) = false := beq_eq_false_iff_ne.mpr (Ne.symm hk)
      rw [List.filter_cons_of_neg (by simpa using hk), ih hrest, hne]

end Assoc

namespace Redirects

variable {r after : Redirects} {x y physical : InstrId} {steps : Nat} {stack found : List InstrId}

/-! ## The search through the redirects -/

/-- What is found was found before, or leads to a place on the stack. -/
theorem found_or_leads (h : x ∈ r.collectSources steps stack found) :
    x ∈ found ∨ ∃ y ∈ stack, Relation.TransGen (fun x y => (x, y) ∈ r.targets) x y := by
  -- what a step adds leads to the top of the stack
  induction steps generalizing stack found with
  | zero => exact .inl h
  | succ steps ih =>
    cases stack with
    | nil => exact .inl h
    | cons top stack =>
      rw [collectSources] at h
      have hfresh : ∀ {z}, z ∈ (r.directSources top).filter (fun id => !found.contains id) →
          (z, top) ∈ r.targets := fun hz => mem_directSources_iff.mp (List.mem_filter.mp hz).1
      rcases ih h with hfound | ⟨y, hy, hpath⟩
      · rcases List.mem_append.mp hfound with hbefore | hnow
        · exact .inl hbefore
        · exact .inr ⟨top, List.mem_cons_self .., .single (hfresh hnow)⟩
      · rcases List.mem_append.mp hy with hnow | hbelow
        · exact .inr ⟨top, List.mem_cons_self .., hpath.tail (hfresh (List.mem_reverse.mp hnow))⟩
        · exact .inr ⟨y, List.mem_cons_of_mem _ hbelow, hpath⟩

/-- The sources of a place are what leads there in one or more redirects. -/
theorem mem_sourcesOf_iff :
    x ∈ r.sourcesOf y ↔ Relation.TransGen (fun x y => (x, y) ∈ r.targets) x y := by
  constructor
  · intro h
    obtain ⟨z, hz, hpath⟩ := (found_or_leads h).resolve_left List.not_mem_nil
    rwa [List.mem_singleton.mp hz] at hpath
  · intro h
    induction h using Relation.TransGen.head_induction_on with
    | single h => exact sourcesOf_closed (.inl rfl) (mem_directSources_iff.mpr h)
    | head h _ ih => exact sourcesOf_closed (.inr ih) (mem_directSources_iff.mpr h)

/-- Every source is redirected. -/
theorem mem_keys_of_mem_sourcesOf (h : x ∈ r.sourcesOf y) : x ∈ r.targets.map (·.1) := by
  obtain ⟨z, hz, -⟩ := Relation.TransGen.head'_iff.mp (mem_sourcesOf_iff.mp h)
  exact List.mem_map_of_mem hz

namespace Keyed

theorem targetOf?_iff (h : r.Keyed) : r.targetOf? x = some y ↔ (x, y) ∈ r.targets :=
  ⟨Assoc.mem_of_lookup, Assoc.lookup_of_mem h.targets⟩

/-- The search finds exactly what leads to the place. -/
theorem mem_sourcesOf_iff (h : r.Keyed) : x ∈ r.sourcesOf y ↔ r.Leads x y := by
  have hstep : (fun x y => (x, y) ∈ r.targets) = fun x y => r.targetOf? x = some y := by
    funext x y
    exact propext h.targetOf?_iff.symm
  rw [Redirects.mem_sourcesOf_iff, hstep]

theorem nodup_directSources (h : r.Keyed) (y : InstrId) : (r.directSources y).Nodup :=
  h.targets.sublist (List.Sublist.map _ List.filter_sublist)

/-- The search lists nothing twice, as it takes up only what it has not found yet. -/
theorem nodup_collectSources (h : r.Keyed) (hfound : found.Nodup) :
    (r.collectSources steps stack found).Nodup := by
  induction steps generalizing stack found with
  | zero => exact hfound
  | succ steps ih =>
    cases stack with
    | nil => exact hfound
    | cons top stack =>
      rw [collectSources]
      refine ih (List.nodup_append.mpr ⟨hfound, (h.nodup_directSources top).filter _, ?_⟩)
      rintro x hx _ hfresh rfl
      simp [hx] at hfresh

/-- No source is found twice. -/
theorem nodup_sourcesOf (h : r.Keyed) (physical : InstrId) : (r.sourcesOf physical).Nodup :=
  h.nodup_collectSources List.nodup_nil

/-- The sources do not depend on the order of the redirects, but for their own order. -/
theorem sourcesOf_perm (h : r.Keyed) (hafter : after.Keyed) (hperm : after.targets.Perm r.targets)
    (physical : InstrId) : (after.sourcesOf physical).Perm (r.sourcesOf physical) := by
  refine (List.perm_ext_iff_of_nodup (hafter.nodup_sourcesOf _) (h.nodup_sourcesOf _)).mpr fun x => ?_
  have hstep : (fun x y => (x, y) ∈ after.targets) = fun x y => (x, y) ∈ r.targets := by
    funext x y
    exact propext hperm.mem_iff
  rw [Redirects.mem_sourcesOf_iff, Redirects.mem_sourcesOf_iff, hstep]

end Keyed

end Redirects

/-! ## What an index lists -/

namespace SourceIndex

variable {index : SourceIndex} {targets : List (InstrId × InstrId)} {logical physical : InstrId}

/-- Each logical target that is listed, with the place that it is listed under. -/
def pairs (index : SourceIndex) : List (InstrId × InstrId) :=
  index.entries.flatMap fun entry => entry.2.map fun logical => (logical, entry.1)

/-- The places that a logical target is listed under, each as often as it is. -/
def placesOf (index : SourceIndex) (logical : InstrId) : List InstrId :=
  (index.pairs.filter fun entry => entry.1 == logical).map (·.2)

/-- The index lists the redirects, each of them once, and nothing else. -/
structure Mirrors (index : SourceIndex) (targets : List (InstrId × InstrId)) : Prop where
  /-- No place has two lists. -/
  places : (index.entries.map (·.1)).Nodup
  pairs : index.pairs.Perm targets

/-- What is listed elsewhere than under a place. -/
def elsewhere (index : SourceIndex) (physical : InstrId) : List (InstrId × InstrId) :=
  pairs ⟨Assoc.erase index.entries physical⟩

theorem pairs_put (index : SourceIndex) (physical : InstrId) (listed : List InstrId) :
    pairs ⟨Assoc.put index.entries physical listed⟩
      = index.elsewhere physical ++ listed.map fun logical => (logical, physical) := by
  simp [pairs, elsewhere, Assoc.put]

theorem pairs_cons (physical : InstrId) (listed : List InstrId) (entries : List (InstrId × List InstrId)) :
    pairs ⟨(physical, listed) :: entries⟩
      = (listed.map fun logical => (logical, physical)) ++ pairs ⟨entries⟩ :=
  List.flatMap_cons

/-- What is listed under one place and what is listed elsewhere is all that is listed. -/
theorem pairs_split (hplaces : (index.entries.map (·.1)).Nodup) (physical : InstrId) :
    index.pairs.Perm
      (index.elsewhere physical ++ (index.under physical).map fun logical => (logical, physical)) := by
  obtain ⟨entries⟩ := index
  induction entries with
  | nil => exact .nil
  | cons entry entries ih =>
    obtain ⟨place, listed⟩ := entry
    obtain ⟨hnot, hrest⟩ := List.nodup_cons.mp hplaces
    by_cases hplace : place = physical
    · subst hplace
      have hgone : Assoc.erase ((place, listed) :: entries) place = entries := by
        rw [Assoc.erase, List.filter_cons_of_neg (by simp)]
        exact Assoc.erase_of_not_mem hnot
      rw [pairs_cons, elsewhere, hgone, under, List.lookup_cons_self, Option.getD_some]
      exact List.perm_append_comm
    · have hne : (physical == place) = false := beq_eq_false_iff_ne.mpr (Ne.symm hplace)
      have hkept : Assoc.erase ((place, listed) :: entries) physical
          = (place, listed) :: Assoc.erase entries physical :=
        List.filter_cons_of_pos (bne_iff_ne.mpr hplace)
      rw [pairs_cons, elsewhere, hkept, pairs_cons, under, List.lookup_cons, hne, List.append_assoc]
      exact (ih hrest).append_left _

/-- To drop a source keeps one list for each place. -/
theorem nodup_places_drop (hplaces : (index.entries.map (·.1)).Nodup) (physical logical : InstrId) :
    ((index.drop physical logical).entries.map (·.1)).Nodup := by
  unfold drop
  split
  · exact hplaces
  · split
    · exact hplaces.sublist (List.Sublist.map _ List.filter_sublist)
    · exact Assoc.nodup_keys_put hplaces _ _

/-- Striking a target from the list of a place leaves the rest of the list, and the other lists. -/
theorem pairs_drop (hplaces : (index.entries.map (·.1)).Nodup) (physical logical : InstrId) :
    (index.drop physical logical).pairs.Perm (index.elsewhere physical
      ++ ((index.under physical).filter (· != logical)).map fun logical => (logical, physical)) := by
  unfold drop
  split
  next hlookup =>
    have hsplit := pairs_split hplaces physical
    rw [under, hlookup] at hsplit ⊢
    exact hsplit
  next listed hlookup =>
    have hunder : index.under physical = listed := by rw [under, hlookup, Option.getD_some]
    rw [hunder]
    split
    next hnone =>
      rw [hnone, List.map_nil, List.append_nil]
      exact .refl _
    next => rw [pairs_put]

/-- What is listed in pairs is what is listed under some place. -/
theorem mem_pairs_iff : (logical, physical) ∈ index.pairs
    ↔ ∃ listed, (physical, listed) ∈ index.entries ∧ logical ∈ listed := by
  rw [pairs, List.mem_flatMap]
  constructor
  · rintro ⟨⟨place, listed⟩, hentry, hmem⟩
    obtain ⟨_, hlisted, he⟩ := List.mem_map.mp hmem
    obtain ⟨rfl, rfl⟩ := Prod.mk.inj he
    exact ⟨listed, hentry, hlisted⟩
  · rintro ⟨listed, hentry, hlisted⟩
    exact ⟨_, hentry, List.mem_map_of_mem hlisted⟩

/-- What is listed under a place is what the index redirects onto it. -/
theorem under_eq (hplaces : (index.entries.map (·.1)).Nodup) (physical : InstrId) :
    (index.pairs.filter fun entry => entry.2 == physical).map (·.1) = index.under physical := by
  obtain ⟨entries⟩ := index
  -- a place has one entry, so what is listed under it is in that entry alone
  induction entries with
  | nil => rfl
  | cons entry entries ih =>
    obtain ⟨place, listed⟩ := entry
    obtain ⟨hnot, hrest⟩ := List.nodup_cons.mp hplaces
    rw [pairs_cons, List.filter_append, List.map_append, under, List.lookup_cons]
    by_cases hplace : place = physical
    · subst hplace
      have hrest : (pairs ⟨entries⟩).filter (fun entry => entry.2 == place) = [] := by
        refine List.filter_eq_nil_iff.mpr fun entry hentry he => hnot ?_
        obtain ⟨others, hmem, -⟩ := mem_pairs_iff.mp hentry
        exact List.mem_map.mpr ⟨_, hmem, beq_iff_eq.mp he⟩
      rw [hrest, beq_self_eq_true]
      simp [List.filter_map, Function.comp_def]
    · have hne : (place == physical) = false := beq_eq_false_iff_ne.mpr hplace
      have hne' : (physical == place) = false := beq_eq_false_iff_ne.mpr (Ne.symm hplace)
      rw [ih hrest, hne']
      simp [List.filter_map, Function.comp_def, hne, under]

namespace Mirrors

theorem perm (h : index.Mirrors targets) {after : List (InstrId × InstrId)} (hperm : after.Perm targets) :
    index.Mirrors after :=
  ⟨h.places, h.pairs.trans hperm.symm⟩

theorem empty : SourceIndex.empty.Mirrors [] := ⟨List.nodup_nil, .nil⟩

/-- To add a source lists one redirect more. -/
theorem add (h : index.Mirrors targets) (physical logical : InstrId) :
    (index.add physical logical).Mirrors (targets ++ [(logical, physical)]) where
  places := Assoc.nodup_keys_put h.places _ _
  pairs := by
    rw [SourceIndex.add, pairs_put, List.map_append, List.map_singleton, ← List.append_assoc]
    exact ((pairs_split h.places physical).symm.trans h.pairs).append_right _

/-- An index that is built anew lists what it is built from. -/
theorem ofTargets (targets : List (InstrId × InstrId)) : (ofTargets targets).Mirrors targets := by
  induction targets using List.reverseRecOn with
  | nil => exact empty
  | append_singleton targets entry ih =>
    rw [SourceIndex.ofTargets, List.foldl_append]
    exact ih.add entry.2 entry.1

/-- Where the index lists each target under the place that it is redirected to, striking it from there
strikes it everywhere. -/
theorem drop (h : index.Mirrors targets) (hkeys : (targets.map (·.1)).Nodup)
    (hlogical : targets.lookup logical = some physical) :
    (index.drop physical logical).Mirrors (Assoc.erase targets logical) := by
  have hothers : (index.elsewhere physical).filter (fun entry => entry.1 != logical)
      = index.elsewhere physical := by
    refine List.filter_eq_self.mpr fun entry hentry => bne_iff_ne.mpr fun he => ?_
    have hmem : entry ∈ targets := h.pairs.mem_iff.mp
      ((pairs_split h.places physical).mem_iff.mpr (List.mem_append_left _ hentry))
    obtain ⟨listed, helse, -⟩ := mem_pairs_iff.mp hentry
    have hlookup := Assoc.lookup_of_mem hkeys hmem
    rw [he, hlogical, Option.some.injEq] at hlookup
    exact bne_iff_ne.mp (List.mem_filter.mp helse).2 hlookup.symm
  have hkept := (pairs_split h.places physical).filter fun entry => entry.1 != logical
  rw [List.filter_append, hothers, List.filter_map] at hkept
  exact ⟨nodup_places_drop h.places physical logical,
    (pairs_drop h.places physical logical).trans (hkept.symm.trans (h.pairs.filter _))⟩

/-- A logical target is listed once, under the place that it is redirected to, or not at all. -/
theorem placesOf (h : index.Mirrors targets) (hkeys : (targets.map (·.1)).Nodup) (logical : InstrId) :
    index.placesOf logical = (targets.lookup logical).toList := by
  have hperm := (h.pairs.filter fun entry => entry.1 == logical).map (·.2)
  rw [Assoc.filter_key hkeys] at hperm
  cases hlookup : targets.lookup logical with
  | none =>
    rw [hlookup] at hperm
    exact List.perm_nil.mp hperm
  | some physical =>
    rw [hlookup] at hperm
    exact List.perm_singleton.mp hperm

end Mirrors

/-! ## The search through the index -/

variable {steps : Nat} {found : List InstrId} {state : Search}

theorem search_nil (steps : Nat) (found : List InstrId) :
    index.search steps ⟨[], found⟩ = some found := by
  cases steps <;> rfl

/-- A search that has ended is not changed by more steps. -/
theorem search_mono {m n : Nat} (h : index.search m state = some found) (hle : m ≤ n) :
    index.search n state = some found := by
  fun_induction search index m state generalizing n with
  | case1 m before => rw [search_nil, h]
  | case2 physical stack before => cases h
  | case3 m physical stack before ih =>
    obtain ⟨n, rfl⟩ := Nat.exists_eq_add_of_le' (Nat.le_trans (Nat.le_add_left 1 m) hle)
    rw [search]
    exact ih h (Nat.le_of_succ_le_succ hle)

/-- What is met for a place is found and goes on the stack if it was not found before. -/
theorem foldl_meet {listed : List InstrId} (hlisted : listed.Nodup) (stack found : List InstrId) :
    listed.foldl Search.meet ⟨stack, found⟩
      = ⟨(listed.filter fun id => !found.contains id).reverse ++ stack,
          found ++ listed.filter fun id => !found.contains id⟩ := by
  induction listed generalizing stack found with
  | nil => simp
  | cons logical listed ih =>
    obtain ⟨hnot, hrest⟩ := List.nodup_cons.mp hlisted
    rw [List.foldl_cons, Search.meet]
    by_cases hfound : found.contains logical = true
    · rw [if_pos hfound, ih hrest, List.filter_cons_of_neg (by simpa using hfound)]
    · have hsame : listed.filter (fun id => !(found ++ [logical]).contains id)
          = listed.filter fun id => !found.contains id := by
        refine List.filter_congr fun id hid => ?_
        have hne : id ≠ logical := fun he => hnot (he ▸ hid)
        simp [hne]
      rw [if_neg hfound, ih hrest, hsame, List.filter_cons_of_pos (by simpa using hfound)]
      simp

/-- Going by what the index lists, one finds what one finds by going through redirects that are listed in
the same order. -/
theorem search_eq_collectSources {r : Redirects} (hkeys : r.Keyed)
    (hunder : ∀ y, index.under y = r.directSources y)
    (hsteps : state.stack.length + r.unfound state.found ≤ steps) :
    index.search steps state = some (r.collectSources steps state.stack state.found) := by
  -- both searches do the same step, so they stay at the same stack
  induction steps generalizing state with
  | zero =>
    obtain ⟨stack, found⟩ := state
    have hstack : stack = [] := List.length_eq_zero_iff.mp (by simp only at hsteps; omega)
    subst hstack
    rfl
  | succ steps ih =>
    obtain ⟨stack, found⟩ := state
    cases stack with
    | nil => rfl
    | cons top stack =>
      have hless := Redirects.unfound_append (r := r) found top
      rw [search, hunder, foldl_meet (hkeys.nodup_directSources top), Redirects.collectSources]
      refine ih ?_
      simp only [List.length_append, List.length_reverse, List.length_cons] at hsteps ⊢
      omega

end SourceIndex

/-! ## Redirects that keep an index -/

/-- Different instructions have different new names. -/
theorem Renaming.get?_inj (names : Renaming) {a b new : InstrId} (ha : names.get? a = some new)
    (hb : names.get? b = some new) : a = b := by
  rw [get?, Option.map_eq_some_iff] at ha hb
  obtain ⟨i, hi, rfl⟩ := ha
  obtain ⟨j, hj, he⟩ := hb
  obtain rfl : j = i := congrArg Handle.index he
  obtain ⟨_, hia, -⟩ := List.idxOf?_eq_some_iff.mp hi
  obtain ⟨_, hja, -⟩ := List.idxOf?_eq_some_iff.mp hj
  exact hia.symm.trans hja

namespace Redirects

variable {r after : Redirects} {logical physical : InstrId}

/-- The end of a redirect erases its entry, and does nothing where there is none. -/
theorem targets_restore (r : Redirects) (logical : InstrId) :
    (r.restore logical).2.targets = Assoc.erase r.targets logical := by
  unfold restore
  split
  next hnone => exact (Assoc.erase_of_lookup_eq_none hnone).symm
  next => rfl

/-- A redirect puts its entry in the place of an older one. -/
theorem targets_redirect (h : r.redirect logical physical = .ok after) :
    after.targets = Assoc.put r.targets logical physical := by
  unfold redirect at h
  split at h
  · cases h
  · cases h
    rfl

/-- Under new names no key occurs twice that did not before. -/
theorem nodup_keys_renamed {entries : List (InstrId × InstrId)} (hkeys : (entries.map (·.1)).Nodup)
    (names : Renaming) : ((entries.filterMap fun entry => do
      return (← names.get? entry.1, ← names.get? entry.2)).map (·.1)).Nodup := by
  rw [List.Nodup, List.pairwise_map] at hkeys ⊢
  refine List.pairwise_filterMap.mpr (hkeys.imp fun {a a'} hne b hb b' hb' he => hne ?_)
  obtain ⟨key, hkey, hb⟩ := Option.bind_eq_some_iff.mp hb
  obtain ⟨value, -, hb⟩ := Option.bind_eq_some_iff.mp hb
  obtain ⟨key', hkey', hb'⟩ := Option.bind_eq_some_iff.mp hb'
  obtain ⟨value', -, hb'⟩ := Option.bind_eq_some_iff.mp hb'
  obtain rfl := Option.some.inj hb
  obtain rfl := Option.some.inj hb'
  exact names.get?_inj hkey (hkey'.trans (congrArg some he.symm))

theorem Keyed.rename (h : r.Keyed) (names : Renaming) : (r.rename names).Keyed :=
  ⟨nodup_keys_renamed h.targets names, nodup_keys_renamed h.jumpers names⟩

end Redirects

namespace IndexedRedirects

variable {r after : IndexedRedirects} {logical physical : InstrId}

/-- Every target is redirected once, and the index lists what is redirected. -/
structure Mirrored (r : IndexedRedirects) : Prop where
  keyed : r.toRedirects.Keyed
  mirrors : r.sources.Mirrors r.targets

/-- What is made of no redirects by the operations that change them. The maps keep no order, so what goes
through them may do so in any. -/
inductive Reached : IndexedRedirects → Prop where
  | empty : Reached empty
  | redirect {r after : IndexedRedirects} (h : Reached r) (logical physical : InstrId)
      (hredirect : r.redirect logical physical = .ok after) : Reached after
  | redirectJumper {r : IndexedRedirects} (h : Reached r) (jumper physical : InstrId) :
      Reached (r.redirectJumper jumper physical)
  | restore {r : IndexedRedirects} (h : Reached r) (logical : InstrId) :
      Reached (r.restore logical).2
  | replace {r : IndexedRedirects} (h : Reached r) (old new : InstrId) : Reached (r.replace old new)
  | rename {r : IndexedRedirects} (h : Reached r) (names : Renaming) : Reached (r.rename names)
  | reordered {r : IndexedRedirects} {targets jumpers : List (InstrId × InstrId)} (h : Reached r)
      (htargets : targets.Perm r.targets) (hjumpers : jumpers.Perm r.jumpers) :
      Reached { r with targets := targets, jumpers := jumpers }
  | indexed {r : IndexedRedirects} (h : Reached r) : Reached r.toRedirects.indexed

/-- The redirects in the order of the index. To go through them is to go by the index. -/
def asListed (r : IndexedRedirects) : Redirects := { r.toRedirects with targets := r.sources.pairs }

namespace Mirrored

theorem empty : IndexedRedirects.empty.Mirrored :=
  ⟨⟨List.nodup_nil, List.nodup_nil⟩, .empty⟩

/-- Once a target is released, the index lists all redirects but its own. -/
theorem released (h : r.Mirrored) (logical : InstrId) :
    (r.released logical).Mirrors (Assoc.erase r.targets logical) := by
  unfold IndexedRedirects.released
  split
  next old hold => exact h.mirrors.drop h.keyed.targets hold
  next hnone =>
    rw [Assoc.erase_of_lookup_eq_none hnone]
    exact h.mirrors

/-- A redirect keeps the index in step. -/
theorem redirect (h : r.Mirrored) (hredirect : r.redirect logical physical = .ok after) :
    after.Mirrored := by
  simp only [IndexedRedirects.redirect, bind_eq_ok, pure_eq_ok] at hredirect
  obtain ⟨maps, hmaps, rfl⟩ := hredirect
  refine ⟨h.keyed.redirect hmaps, ?_⟩
  show SourceIndex.Mirrors _ maps.targets
  rw [Redirects.targets_redirect hmaps]
  exact (h.released logical).add physical logical

theorem redirectJumper (h : r.Mirrored) (jumper physical : InstrId) :
    (r.redirectJumper jumper physical).Mirrored :=
  ⟨h.keyed.call (.redirectJumper jumper physical), h.mirrors⟩

/-- The end of a redirect keeps the index in step. -/
theorem restore (h : r.Mirrored) (logical : InstrId) : (r.restore logical).2.Mirrored := by
  refine ⟨h.keyed.call (.restore logical), ?_⟩
  show (r.released logical).Mirrors (r.toRedirects.restore logical).2.targets
  rw [Redirects.targets_restore]
  exact h.released logical

/-- Built anew, the index lists what is redirected. -/
theorem indexed {maps : Redirects} (h : maps.Keyed) : maps.indexed.Mirrored := ⟨h, .ofTargets maps.targets⟩

/-- The order of the entries does not matter to the index. -/
theorem reordered (h : r.Mirrored) {targets jumpers : List (InstrId × InstrId)}
    (htargets : targets.Perm r.targets) (hjumpers : jumpers.Perm r.jumpers) :
    Mirrored { r with targets := targets, jumpers := jumpers } where
  keyed := ⟨(htargets.map (·.1)).nodup_iff.mpr h.keyed.targets,
    (hjumpers.map (·.1)).nodup_iff.mpr h.keyed.jumpers⟩
  mirrors := h.mirrors.perm htargets

theorem asListed (h : r.Mirrored) : r.asListed.Keyed :=
  ⟨(h.mirrors.pairs.map (·.1)).nodup_iff.mpr h.keyed.targets, h.keyed.jumpers⟩

/-- The search that goes by the index ends within one round more than there are redirects, with the
sources of the place. -/
theorem sourcesOf?_eq (h : r.Mirrored) (physical : InstrId) :
    ∃ found, (∀ steps, r.targets.length < steps → r.sourcesOf? steps physical = some found)
      ∧ found.Perm (r.sourcesOf physical) := by
  have hlength : r.asListed.targets.length = r.targets.length := h.mirrors.pairs.length_eq
  have hsearch : r.sources.search (r.targets.length + 1) ⟨[physical], []⟩
      = some (r.asListed.sourcesOf physical) := by
    rw [Redirects.sourcesOf, hlength]
    refine SourceIndex.search_eq_collectSources h.asListed
      (fun y => (SourceIndex.under_eq h.mirrors.places y).symm) ?_
    have hle : r.asListed.unfound [] ≤ r.asListed.targets.length := List.countP_le_length
    simp only [List.length_singleton]
    omega
  exact ⟨r.asListed.sourcesOf physical, fun steps hsteps => SourceIndex.search_mono hsearch hsteps,
    h.keyed.sourcesOf_perm h.asListed h.mirrors.pairs physical⟩

end Mirrored

-- i3 is redirected to i2 and that to i1, so both are found, the nearer one first
example : (do
    let hop ← IndexedRedirects.empty.redirect ⟨3⟩ ⟨2⟩
    let hops ← hop.redirect ⟨2⟩ ⟨1⟩
    return hops.sourcesOf? 3 ⟨1⟩) = Except.ok (some [⟨2⟩, ⟨3⟩]) := rfl

/-- Whatever is done to the redirects, the index mirrors them. -/
theorem Reached.mirrored (h : r.Reached) : r.Mirrored := by
  induction h with
  | empty => exact .empty
  | redirect _ logical physical hredirect ih => exact ih.redirect hredirect
  | redirectJumper _ jumper physical ih => exact ih.redirectJumper jumper physical
  | restore _ logical ih => exact ih.restore logical
  | replace _ old new ih => exact .indexed (.replace _ old new)
  | rename _ names ih => exact .indexed (ih.keyed.rename names)
  | reordered _ htargets hjumpers ih => exact ih.reordered htargets hjumpers
  | indexed _ ih => exact .indexed ih.keyed

end IndexedRedirects

end Splice
