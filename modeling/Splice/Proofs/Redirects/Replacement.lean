import Splice.Proofs.Redirects

/-!
# One name in the place of another

`replace` puts one name in the place of another in all redirects and overrides. The map that
comes of it is the old one with the two names for one place, less the redirects that would
lead from a place to itself (`targetOf?_replace_iff`, `overrideOf?_replace`). Following it
ends where it ended before, unless that is one of the two places and the other one is
redirected to a third: the place that they have become is redirected then, and one is led on
(`EndsAt.replace`).

One is not led on if the name is a new one (`resolve_replace`), nor if neither of the two
places is redirected (`resolve_merge`). `replace_merges_iff` says when one is not in general,
and that replacing keeps the redirects acyclic and the landings in their places exactly then.
What was put in front of a place and takes no other part in the redirects leaves no trace when
the place is put in its stead (`replace_of_within`, `replace_redirect`).
-/

namespace Splice

/-! ## Association lists of any pairs -/

namespace Assoc

variable {α β : Type} [BEq α] [LawfulBEq α] {pairs : List (α × β)} {key : α} {value : β}

theorem nodup_keys_ofPairs (pairs : List (α × β)) : ((ofPairs pairs).map (·.1)).Nodup :=
  List.foldlRecOn (motive := fun entries : List (α × β) => (entries.map (·.1)).Nodup) pairs _ (by simp)
    fun _ hdone pair _ => nodup_keys_put hdone pair.1 pair.2

omit [LawfulBEq α] in
/-- What is in a list that was made of pairs was among them. -/
theorem mem_of_mem_ofPairs {entry : α × β} (h : entry ∈ ofPairs pairs) : entry ∈ pairs := by
  refine List.foldlRecOn (motive := fun entries => ∀ entry ∈ entries, entry ∈ pairs) pairs _
    (fun _ hnone => (List.not_mem_nil hnone).elim) (fun done hdone pair hpair entry hentry => ?_) entry h
  rcases List.mem_append.mp hentry with hold | hnew
  · exact hdone entry (List.mem_filter.mp hold).1
  · exact List.mem_singleton.mp hnew ▸ hpair

/-- Every key of the pairs is a key of the list that is made of them. -/
theorem mem_keys_ofPairs (h : key ∈ pairs.map (·.1)) : key ∈ (ofPairs pairs).map (·.1) := by
  have hput : ∀ (entries : List (α × β)) (pair : α × β),
      key = pair.1 ∨ key ∈ entries.map (·.1) → key ∈ (put entries pair.1 pair.2).map (·.1) := by
    intro entries pair hkey
    by_cases he : key = pair.1
    · simp [put, he]
    · obtain ⟨entry, hentry, rfl⟩ := List.mem_map.mp (hkey.resolve_left he)
      have hkept : entry ∈ erase entries pair.1 :=
        List.mem_filter.mpr ⟨hentry, bne_iff_ne.mpr he⟩
      exact List.mem_map_of_mem (List.mem_append_left _ hkept)
  have hfold : ∀ (rest done : List (α × β)), key ∈ rest.map (·.1) ∨ key ∈ done.map (·.1) →
      key ∈ (rest.foldl (fun entries pair => put entries pair.1 pair.2) done).map (·.1) := by
    intro rest
    induction rest with
    | nil => exact fun _ hdone => hdone.resolve_left List.not_mem_nil
    | cons pair rest ih =>
      intro done hkey
      rw [List.map_cons, List.mem_cons] at hkey
      rcases hkey with (hpair | hrest) | hdone
      · exact ih _ (.inr (hput done pair (.inl hpair)))
      · exact ih _ (.inl hrest)
      · exact ih _ (.inr (hput done pair (.inr hdone)))
  exact hfold pairs [] (.inl h)

/-- Where all pairs with a key agree on the value, that is the value of the key. -/
theorem lookup_ofPairs_iff (h : ∀ v v', (key, v) ∈ pairs → (key, v') ∈ pairs → v = v') :
    (ofPairs pairs).lookup key = some value ↔ (key, value) ∈ pairs := by
  constructor
  · exact fun hlookup => mem_of_mem_ofPairs (mem_of_lookup hlookup)
  · intro hmem
    obtain ⟨⟨_, v⟩, hentry, rfl⟩ := List.mem_map.mp (mem_keys_ofPairs (List.mem_map_of_mem hmem))
    obtain rfl := h v value (mem_of_mem_ofPairs hentry) hmem
    exact lookup_of_mem (nodup_keys_ofPairs pairs) hentry

theorem erase_of_not_mem (h : key ∉ pairs.map (·.1)) : erase pairs key = pairs :=
  List.filter_eq_self.mpr fun _ hentry =>
    bne_iff_ne.mpr fun he => h (he ▸ List.mem_map_of_mem hentry)

theorem put_of_not_mem (h : key ∉ pairs.map (·.1)) : put pairs key value = pairs ++ [(key, value)] := by
  rw [put, erase_of_not_mem h]

/-- Pairs with different keys are the list that is made of them. -/
theorem ofPairs_of_nodup (h : (pairs.map (·.1)).Nodup) : ofPairs pairs = pairs := by
  have hfold : ∀ rest done : List (α × β), ((done ++ rest).map (·.1)).Nodup →
      rest.foldl (fun entries pair => put entries pair.1 pair.2) done = done ++ rest := by
    intro rest
    induction rest with
    | nil => exact fun done _ => (List.append_nil done).symm
    | cons pair rest ih =>
      intro done hnodup
      have hnew : pair.1 ∉ done.map (·.1) := by
        rw [List.map_append, List.map_cons] at hnodup
        exact fun hmem => (List.nodup_append.mp hnodup).2.2 _ hmem _ (List.mem_cons_self ..) rfl
      rw [List.foldl_cons, put_of_not_mem hnew, ih (done ++ [pair]) (by simpa using hnodup)]
      simp
  exact hfold pairs [] h

end Assoc

namespace Redirects

variable {r : Redirects} {x y old new jumper logical : InstrId}

/-! ## The maps -/

/-- Both sides of an entry under a new name. -/
def swapBoth (old new : InstrId) (entry : InstrId × InstrId) : InstrId × InstrId :=
  (swap old new entry.1, swap old new entry.2)

/-- Of two names that become one, at most one is the key of an entry. -/
def KeepsApart (entries : List (InstrId × InstrId)) (old new : InstrId) : Prop :=
  entries.lookup old = none ∨ entries.lookup new = none

/-- An entry of the swapped list comes from one whose two sides are swapped to it. -/
theorem mem_swapBoth {entries : List (InstrId × InstrId)} (hkeys : (entries.map (·.1)).Nodup) :
    (x, y) ∈ entries.map (swapBoth old new)
      ↔ ∃ a b, entries.lookup a = some b ∧ swap old new a = x ∧ swap old new b = y := by
  rw [List.mem_map]
  constructor
  · rintro ⟨⟨a, b⟩, hentry, he⟩
    rw [swapBoth, Prod.mk.injEq] at he
    exact ⟨a, b, Assoc.lookup_of_mem hkeys hentry, he⟩
  · rintro ⟨a, b, hlookup, rfl, rfl⟩
    exact ⟨(a, b), Assoc.mem_of_lookup hlookup, rfl⟩

/-- Where at most one key comes to be `x`, there is at most one entry for it. -/
theorem unique_swapBoth {entries : List (InstrId × InstrId)} {v v' : InstrId}
    (hkeys : (entries.map (·.1)).Nodup)
    (hsingle : ∀ a a', entries.lookup a ≠ none → entries.lookup a' ≠ none → swap old new a = x →
      swap old new a' = x → a = a')
    (h : (x, v) ∈ entries.map (swapBoth old new)) (h' : (x, v') ∈ entries.map (swapBoth old new)) :
    v = v' := by
  obtain ⟨a, b, hab, ha, rfl⟩ := (mem_swapBoth hkeys).mp h
  obtain ⟨a', b', hab', ha', rfl⟩ := (mem_swapBoth hkeys).mp h'
  obtain rfl := hsingle a a' (by simp [hab]) (by simp [hab']) ha ha'
  rw [hab] at hab'
  rw [Option.some.inj hab']

/-- If at most one of two names is a key, the swap maps no two keys to the same one. -/
theorem KeepsApart.single {entries : List (InstrId × InstrId)} (h : KeepsApart entries old new)
    {a a' : InstrId} (ha : entries.lookup a ≠ none) (ha' : entries.lookup a' ≠ none)
    (he : swap old new a = swap old new a') : a = a' := by
  rcases h with hold | hnew
  · have hne : ∀ c, entries.lookup c ≠ none → c ≠ old := fun c hc he => hc (he ▸ hold)
    rwa [swap_of_ne (hne a ha), swap_of_ne (hne a' ha')] at he
  · exact swap_inj (fun hn => ha (hn ▸ hnew)) (fun hn => ha' (hn ▸ hnew)) he

/-- The redirects are those of before with one place for the two, but for those from a place to
itself. -/
theorem targetOf?_replace_iff (hkeys : r.Keyed) (happart : KeepsApart r.targets old new) :
    (r.replace old new).targetOf? x = some y
      ↔ ∃ a b, r.targetOf? a = some b ∧ swap old new a = x ∧ swap old new b = y ∧ x ≠ y := by
  show (Assoc.ofPairs ((r.targets.map (swapBoth old new)).filter fun entry => entry.1 != entry.2)).lookup x
    = some y ↔ _
  have hunique : ∀ v v',
      (x, v) ∈ (r.targets.map (swapBoth old new)).filter (fun entry => entry.1 != entry.2) →
      (x, v') ∈ (r.targets.map (swapBoth old new)).filter (fun entry => entry.1 != entry.2) → v = v' :=
    fun v v' h h' => unique_swapBoth hkeys.targets
      (fun a a' ha ha' he he' => happart.single ha ha' (he.trans he'.symm))
      (List.mem_filter.mp h).1 (List.mem_filter.mp h').1
  rw [Assoc.lookup_ofPairs_iff hunique, List.mem_filter, mem_swapBoth hkeys.targets]
  simp only [bne_iff_ne, targetOf?]
  constructor
  · rintro ⟨⟨a, b, hab, ha, hb⟩, hne⟩
    exact ⟨a, b, hab, ha, hb, hne⟩
  · rintro ⟨a, b, hab, ha, hb, hne⟩
    exact ⟨⟨a, b, hab, ha, hb⟩, hne⟩

/-- A jumper keeps its override if it shares its name afterwards with no other that has one. -/
theorem overrideOf?_replace (hkeys : r.Keyed)
    (h : ∀ a, swap old new a = swap old new jumper → a = jumper ∨ r.overrideOf? a = none) :
    (r.replace old new).overrideOf? (swap old new jumper)
      = (r.overrideOf? jumper).map (swap old new) := by
  have hjumper : ∀ a, r.overrideOf? a ≠ none → swap old new a = swap old new jumper → a = jumper :=
    fun a ha he => (h a he).resolve_right ha
  show (Assoc.ofPairs (r.jumpers.map (swapBoth old new))).lookup (swap old new jumper) = _
  refine Option.ext fun y => ?_
  rw [Assoc.lookup_ofPairs_iff fun v v' => unique_swapBoth hkeys.jumpers fun a a' ha ha' he he' =>
    (hjumper a ha he).trans (hjumper a' ha' he').symm, mem_swapBoth hkeys.jumpers,
    Option.map_eq_some_iff]
  constructor
  · rintro ⟨a, b, hab, ha, hb⟩
    obtain rfl := hjumper a (by simp [overrideOf?, hab]) ha
    exact ⟨b, hab, hb⟩
  · rintro ⟨b, hb, rfl⟩
    exact ⟨jumper, b, hb, rfl, rfl⟩

theorem Keyed.replace (r : Redirects) (old new : InstrId) : (r.replace old new).Keyed :=
  ⟨Assoc.nodup_keys_ofPairs _, Assoc.nodup_keys_ofPairs _⟩

/-- A replacement renames the places that redirects and overrides are among. -/
theorem Within.replace {places places' : InstrId → Prop} (h : r.Within places)
    (hswap : ∀ id, places id → places' (swap old new id)) :
    (r.replace old new).Within places' := by
  have hboth : ∀ entries : List (InstrId × InstrId),
      (∀ entry ∈ entries, places entry.1 ∧ places entry.2) →
      ∀ swapped ∈ entries.map (swapBoth old new), places' swapped.1 ∧ places' swapped.2 := by
    intro entries hentries swapped hswapped
    obtain ⟨entry, hentry, rfl⟩ := List.mem_map.mp hswapped
    exact ⟨hswap _ (hentries entry hentry).1, hswap _ (hentries entry hentry).2⟩
  intro entry hentry
  rcases List.mem_append.mp hentry with htarget | hjumper
  · exact hboth r.targets (fun entry hentry => h entry (List.mem_append_left _ hentry)) entry
      (List.mem_filter.mp (Assoc.mem_of_mem_ofPairs htarget)).1
  · exact hboth r.jumpers (fun entry hentry => h entry (List.mem_append_right _ hentry)) entry
      (Assoc.mem_of_mem_ofPairs hjumper)

/-! ## Following them -/

/-- No third place lands on one of the two while the other is redirected to a third. -/
def Merges (r : Redirects) (old new : InstrId) : Prop :=
  ∀ x, x ≠ old → x ≠ new →
    (r.landing x = old → ∀ y, r.targetOf? new = some y → y = old)
      ∧ (r.landing x = new → ∀ y, r.targetOf? old = some y → y = new)

section Following

variable (hkeys : r.Keyed) (happart : KeepsApart r.targets old new)
include hkeys happart

/-- One ends in the place where one ended before, if that is not redirected now. -/
theorem EndsAt.replace {stop : InstrId} (h : r.EndsAt stop x)
    (hstop : (r.replace old new).targetOf? (swap old new stop) = none) :
    (r.replace old new).EndsAt (swap old new stop) (swap old new x) := by
  induction h with
  | here _ => exact .here hstop
  | @step x y hxy _ ih =>
    by_cases hsame : swap old new x = swap old new y
    · rw [hsame]
      exact ih
    · exact .step ((targetOf?_replace_iff hkeys happart).mpr ⟨x, y, hxy, rfl, rfl, hsame⟩) ih

/-- Where redirects end they still end, unless the one place that two have become is led on by the redirect
of the other one. -/
theorem targetOf?_replace_eq_none {stop : InstrId} (hend : r.targetOf? stop = none)
    (hold : stop = old → ∀ y, r.targetOf? new = some y → y = old)
    (hnew : stop = new → ∀ y, r.targetOf? old = some y → y = new) :
    (r.replace old new).targetOf? (swap old new stop) = none := by
  refine Option.eq_none_iff_forall_ne_some.mpr fun z hz => ?_
  obtain ⟨x, y, hxy, hx, rfl, hne⟩ := (targetOf?_replace_iff hkeys happart).mp hz
  have hstop : x ≠ stop := by
    rintro rfl
    rw [hend] at hxy
    cases hxy
  by_cases hxold : x = old
  · subst hxold
    rw [swap_self, swap_of_ne hstop.symm] at hx
    rw [hnew hx.symm y hxy, swap_of_ne hstop.symm, swap_of_ne (hx ▸ hstop.symm)] at hne
    exact hne hx.symm
  · rw [swap_of_ne hxold] at hx
    have hstopold : stop = old := Classical.byContradiction fun hne => hstop (hx.trans (swap_of_ne hne))
    rw [hstopold, swap_self] at hx hne
    rw [hold hstopold y (hx ▸ hxy), swap_self] at hne
    exact hne rfl

/-- Replacing closes no cycle if no landing of a third place is redirected afterwards. -/
theorem Acyclic.replace (hr : r.Acyclic) (hne : old ≠ new)
    (h : ∀ x, x ≠ old → x ≠ new → (r.replace old new).targetOf? (swap old new (r.landing x)) = none) :
    (r.replace old new).Acyclic := by
  have hthird : ∀ x, x ≠ old → x ≠ new → ∃ stop, (r.replace old new).EndsAt stop x := by
    intro x hold hnew
    have hend := (hr.endsAt x).replace hkeys happart (h x hold hnew)
    rw [swap_of_ne hold] at hend
    exact ⟨_, hend⟩
  refine acyclic_of_endsAt fun x => ?_
  cases htarget : (r.replace old new).targetOf? x with
  | none => exact ⟨x, .here htarget⟩
  | some y =>
    obtain ⟨a, b, -, rfl, rfl, hsame⟩ := (targetOf?_replace_iff hkeys happart).mp htarget
    by_cases hnew : swap old new a = new
    · obtain ⟨stop, hstop⟩ := hthird _ (swap_ne hne b) fun he => hsame (hnew.trans he.symm)
      exact ⟨stop, .step htarget hstop⟩
    · exact hthird _ (swap_ne hne a) hnew

/-- The redirects merge exactly if no landing of a third place is redirected afterwards. -/
theorem merges_iff (hr : r.Acyclic) (hne : old ≠ new) : r.Merges old new
    ↔ ∀ x, x ≠ old → x ≠ new → (r.replace old new).targetOf? (swap old new (r.landing x)) = none := by
  constructor
  · intro hmerges x hold hnew
    exact targetOf?_replace_eq_none hkeys happart (hr.landing_end x) (hmerges x hold hnew).1
      (hmerges x hold hnew).2
  · intro hnone x hold hnew
    have hopen := hnone x hold hnew
    -- what the merged place was redirected to has become that place itself
    have hinside : ∀ a y, r.targetOf? a = some y → swap old new a = swap old new (r.landing x) →
        swap old new y = swap old new a := by
      intro a y hy ha
      refine Classical.byContradiction fun hsame => ?_
      have hstep := (targetOf?_replace_iff hkeys happart).mpr ⟨a, y, hy, rfl, rfl, Ne.symm hsame⟩
      rw [ha, hopen] at hstep
      cases hstep
    have hself : ∀ a, r.targetOf? a ≠ some a := fun a ha => hr a (.single ha)
    refine ⟨fun hland y hy => ?_, fun hland y hy => ?_⟩
    · have hy' := hinside new y hy (by rw [hland, swap_self, swap_of_ne hne.symm])
      rw [swap_of_ne hne.symm] at hy'
      refine Classical.byContradiction fun hyold => hself new ?_
      rw [hy, ← hy', swap_of_ne hyold]
    · have hy' := hinside old y hy (by rw [hland, swap_self, swap_of_ne hne.symm])
      rw [swap_self] at hy'
      refine Classical.byContradiction fun hynew => hynew ?_
      have hyold : y ≠ old := fun he => hself old (he ▸ hy)
      rwa [swap_of_ne hyold] at hy'

end Following

/-! ## Landings -/

section Landings

variable (hkeys : r.Keyed) (hr : r.Acyclic)
include hkeys hr

/-- A jumper lands where it did, under the new name, if its override is kept and the landing of its
target is not redirected. -/
theorem resolve_replace_of_end (happart : KeepsApart r.targets old new)
    (hoverride : ∀ a, swap old new a = swap old new jumper → a = jumper ∨ r.overrideOf? a = none)
    (hend : (r.replace old new).targetOf? (swap old new (r.landing logical)) = none) :
    (r.replace old new).resolve (swap old new jumper) (swap old new logical)
      = swap old new (r.resolve jumper logical) := by
  have hland := ((hr.endsAt logical).replace hkeys happart hend).landing
  rw [resolve, resolve, overrideOf?_replace hkeys hoverride, hland]
  cases r.overrideOf? jumper with
  | none => rfl
  | some physical => rfl

/-- A new name in the place of an old one does that to all landings and nothing else. -/
theorem resolve_replace (old : InstrId) (hnew : r.Within (· ≠ new)) (hjumper : jumper ≠ new)
    (hlogical : logical ≠ new) :
    (r.replace old new).resolve (swap old new jumper) (swap old new logical)
      = swap old new (r.resolve jumper logical) := by
  have hnone := hnew.targetOf?_eq_none
  refine resolve_replace_of_end hkeys hr (.inr hnone) (fun a ha => ?_)
    (targetOf?_replace_eq_none hkeys (.inr hnone) (hr.landing_end logical) (fun _ y hy => ?_)
      fun hland => ?_)
  · by_cases hanew : a = new
    · exact .inr (hanew ▸ hnew.overrideOf?_eq_none)
    · exact .inl (swap_inj hanew hjumper ha)
  · rw [hnone] at hy
    cases hy
  · exact absurd hland (hnew.chase hlogical _)

/-- A new name in the place of an old one closes no cycle. -/
theorem Acyclic.replace_new (hne : old ≠ new) (hnew : r.Within (· ≠ new)) :
    (r.replace old new).Acyclic := by
  have hnone := hnew.targetOf?_eq_none
  refine hr.replace hkeys (.inr hnone) hne
    ((merges_iff hkeys (.inr hnone) hr hne).mp fun x _ hx => ⟨fun _ y hy => ?_, fun hland => ?_⟩)
  · rw [hnone] at hy
    cases hy
  · exact absurd hland (hnew.chase hx _)

/-- Redirects of two places merge if neither of the two is redirected. -/
theorem resolve_merge (hold : r.targetOf? old = none) (hnew : r.targetOf? new = none)
    (hoverride : r.overrideOf? old = none) (hjumper : jumper ≠ old) :
    (r.replace old new).resolve jumper (swap old new logical)
      = swap old new (r.resolve jumper logical) := by
  have hresolve : (r.replace old new).resolve (swap old new jumper) (swap old new logical)
      = swap old new (r.resolve jumper logical) := by
    refine resolve_replace_of_end hkeys hr (.inl hold) (fun a ha => ?_)
      (targetOf?_replace_eq_none hkeys (.inl hold) (hr.landing_end logical) (fun _ y hy => ?_)
        fun _ y hy => ?_)
    · by_cases haold : a = old
      · exact .inr (haold ▸ hoverride)
      · rw [swap_of_ne haold, swap_of_ne hjumper] at ha
        exact .inl ha
    · rw [hnew] at hy
      cases hy
    · rw [hold] at hy
      cases hy
  rwa [swap_of_ne hjumper] at hresolve

end Landings

/-- Putting an instruction in the place of another one that is not redirected as well keeps the redirects
acyclic, and all landings but for the name, exactly if no third place lands on one of
the two while the other is redirected to a third. -/
theorem replace_merges_iff (hkeys : r.Keyed) (hr : r.Acyclic) (hne : old ≠ new)
    (happart : r.targetOf? old = none ∨ r.targetOf? new = none) :
    ((r.replace old new).Acyclic
        ∧ ∀ jumper logical, jumper ≠ old → jumper ≠ new → logical ≠ old → logical ≠ new →
          (r.replace old new).resolve jumper logical = swap old new (r.resolve jumper logical))
      ↔ r.Merges old new := by
  have hkept : ∀ jumper, jumper ≠ old → jumper ≠ new → ∀ a, swap old new a = swap old new jumper →
      a = jumper ∨ r.overrideOf? a = none := by
    intro jumper hold hnew a ha
    rw [swap_of_ne hold] at ha
    by_cases haold : a = old
    · rw [haold, swap_self] at ha
      exact absurd ha.symm hnew
    · rw [swap_of_ne haold] at ha
      exact .inl ha
  rw [merges_iff hkeys happart hr hne]
  constructor
  · rintro ⟨hacyclic, hresolve⟩ x hold hnew
    -- a jumper that is not overridden lands where its target does
    obtain ⟨jumper, hjumper, hnot⟩ := exists_unlisted r.jumpers [old, new]
    rw [List.mem_cons, List.mem_singleton, not_or] at hnot
    have hoverride := overrideOf?_replace hkeys (hkept jumper hnot.1 hnot.2)
    rw [swap_of_ne hnot.1, overrideOf?, overrideOf?, hjumper, Option.map_none] at hoverride
    have hland := hresolve jumper x hnot.1 hnot.2 hold hnew
    rw [resolve_of_no_override hoverride, resolve_of_no_override hjumper] at hland
    rw [← hland]
    exact hacyclic.landing_end x
  · intro hend
    refine ⟨hr.replace hkeys happart hne hend, fun jumper logical hjold hjnew hlold hlnew => ?_⟩
    have hresolve := resolve_replace_of_end hkeys hr happart (hkept jumper hjold hjnew)
      (hend logical hlold hlnew)
    rwa [swap_of_ne hjold, swap_of_ne hlold] at hresolve

/-- Redirects from i1 over i2 to i3 and from i5 to i6, and an override onto i2. -/
def hops : Redirects := ⟨[(⟨1⟩, ⟨2⟩), (⟨2⟩, ⟨3⟩), (⟨5⟩, ⟨6⟩)], [(⟨7⟩, ⟨2⟩)], []⟩

theorem hops_keyed : hops.Keyed := ⟨by decide, by decide⟩

theorem hops_acyclic : hops.Acyclic := acyclic_of_rank (·.index) (by decide)

/-- Handing i2 over to i3 drops the redirect between the two. -/
theorem replace_merges_iff_hops :
    hops.Keyed ∧ hops.Acyclic ∧ hops.targetOf? ⟨3⟩ = none ∧ hops.Merges ⟨2⟩ ⟨3⟩
      ∧ (hops.replace ⟨2⟩ ⟨3⟩).Acyclic ∧ (hops.replace ⟨2⟩ ⟨3⟩).targets = [(⟨1⟩, ⟨3⟩), (⟨5⟩, ⟨6⟩)]
      ∧ (hops.replace ⟨2⟩ ⟨3⟩).resolve ⟨7⟩ ⟨1⟩ = ⟨3⟩ := by
  have hnone : hops.targetOf? ⟨3⟩ = none := by decide
  have hmerges : hops.Merges ⟨2⟩ ⟨3⟩ := by
    intro x _ _
    refine ⟨fun _ y hy => ?_, fun _ y hy => (Option.some.inj hy).symm⟩
    rw [hnone] at hy
    cases hy
  have hreplace := (replace_merges_iff hops_keyed hops_acyclic (by decide) (.inr hnone)).mpr hmerges
  refine ⟨hops_keyed, hops_acyclic, hnone, hmerges, hreplace.1, by decide, ?_⟩
  exact hreplace.2 ⟨7⟩ ⟨1⟩ (by decide) (by decide) (by decide) (by decide)

/-- Handing i1 over to i3 leaves what goes to i2 going round between i2 and i3. -/
theorem replace_closes_cycle :
    hops.Keyed ∧ hops.Acyclic ∧ hops.targetOf? ⟨3⟩ = none ∧ ¬ (hops.replace ⟨1⟩ ⟨3⟩).Acyclic
      ∧ (hops.replace ⟨1⟩ ⟨3⟩).resolve ⟨9⟩ ⟨2⟩ ≠ swap ⟨1⟩ ⟨3⟩ (hops.resolve ⟨9⟩ ⟨2⟩) := by
  refine ⟨hops_keyed, hops_acyclic, by decide, fun hacyclic => hacyclic ⟨3⟩ ?_, by decide⟩
  exact .tail (.single (show (hops.replace ⟨1⟩ ⟨3⟩).targetOf? ⟨3⟩ = some ⟨2⟩ by decide)) (by decide)

/-! ## Replacing what was put in front -/

section Undone

variable {after : Redirects}

/-- The same redirects, with whatever log. -/
structure Same (r after : Redirects) : Prop where
  targets : after.targets = r.targets
  jumpers : after.jumpers = r.jumpers

/-- Jumpers land alike under redirects that differ in their log only. -/
theorem Same.resolve (h : r.Same after) (jumper logical : InstrId) :
    after.resolve jumper logical = r.resolve jumper logical := by
  have hchase : ∀ steps x, after.chase steps x = r.chase steps x := by
    intro steps
    induction steps with
    | zero => exact fun _ => rfl
    | succ steps ih =>
      intro x
      rw [chase, chase, targetOf?, h.targets, ← targetOf?]
      split
      · exact ih _
      · rfl
  rw [Redirects.resolve, Redirects.resolve, overrideOf?, h.jumpers, landing, h.targets, hchase]
  rfl

theorem map_swapBoth_of_ne {entries : List (InstrId × InstrId)}
    (h : ∀ entry ∈ entries, entry.1 ≠ old ∧ entry.2 ≠ old) :
    entries.map (swapBoth old new) = entries := by
  refine (List.map_congr_left fun entry hentry => ?_).trans (List.map_id entries)
  exact Prod.ext (swap_of_ne (h entry hentry).1) (swap_of_ne (h entry hentry).2)

/-- Where no redirect leads back, none leads from an instruction to itself. -/
theorem Acyclic.ne_of_mem (hr : r.Acyclic) (hkeys : r.Keyed) {entry : InstrId × InstrId}
    (h : entry ∈ r.targets) : entry.1 ≠ entry.2 := by
  intro he
  have hself : r.targetOf? entry.1 = some entry.2 := Assoc.lookup_of_mem hkeys.targets h
  exact hr entry.1 (.single (hself.trans (congrArg some he.symm)))

/-- Replacing what no redirect names changes nothing, unless something is redirected to itself. -/
theorem replace_same (hkeys : r.Keyed) (hwithin : r.Within (· ≠ old))
    (hself : ∀ entry ∈ r.targets, entry.1 ≠ entry.2) (new : InstrId) : r.Same (r.replace old new) := by
  have htargets : r.targets.map (swapBoth old new) = r.targets :=
    map_swapBoth_of_ne fun entry hentry => hwithin entry (List.mem_append_left _ hentry)
  have hjumpers : r.jumpers.map (swapBoth old new) = r.jumpers :=
    map_swapBoth_of_ne fun entry hentry => hwithin entry (List.mem_append_right _ hentry)
  constructor
  · show Assoc.ofPairs ((r.targets.map (swapBoth old new)).filter _) = _
    rw [htargets, List.filter_eq_self.mpr fun entry hentry => bne_iff_ne.mpr (hself entry hentry),
      Assoc.ofPairs_of_nodup hkeys.targets]
  · show Assoc.ofPairs (r.jumpers.map (swapBoth old new)) = _
    rw [hjumpers, Assoc.ofPairs_of_nodup hkeys.jumpers]

variable (hkeys : r.Keyed) (hr : r.Acyclic) (hwithin : r.Within (· ≠ old))

include hkeys hr hwithin

/-- What no redirect names can be replaced by anything. -/
theorem replace_of_within (new : InstrId) : r.Same (r.replace old new) :=
  replace_same hkeys hwithin (fun _ hentry => hr.ne_of_mem hkeys hentry) new

/-- A redirect to an instruction that no redirect named is gone once that is replaced by the instruction
that was redirected. -/
theorem replace_redirect (hanchor : r.targetOf? new = none) (h : r.redirect new old = .ok after) :
    r.Same (after.replace old new) := by
  have hkept : r.targets.map (swapBoth old new) = r.targets :=
    map_swapBoth_of_ne fun entry hentry => hwithin entry (List.mem_append_left _ hentry)
  have hjumpers : r.jumpers.map (swapBoth old new) = r.jumpers :=
    map_swapBoth_of_ne fun entry hentry => hwithin entry (List.mem_append_right _ hentry)
  have hkey : new ∉ r.targets.map (·.1) := by
    intro hmem
    obtain ⟨entry, hentry, rfl⟩ := List.mem_map.mp hmem
    have hlookup : r.targetOf? entry.1 = some entry.2 := Assoc.lookup_of_mem hkeys.targets hentry
    rw [hanchor] at hlookup
    cases hlookup
  unfold redirect at h
  split at h
  · cases h
  · cases h
    constructor
    · show Assoc.ofPairs (((Assoc.put r.targets new old).map (swapBoth old new)).filter _) = _
      -- the entry itself is turned into one from the instruction to itself
      have hself : swapBoth old new (new, old) = (new, new) := by
        rw [swapBoth, swap_self]
        unfold swap
        split <;> rfl
      rw [Assoc.put_of_not_mem hkey, List.map_append, hkept, List.map_cons, List.map_nil, hself,
        List.filter_append, List.filter_eq_self.mpr fun entry hentry =>
          bne_iff_ne.mpr (hr.ne_of_mem hkeys hentry)]
      simp [Assoc.ofPairs_of_nodup hkeys.targets]
    · show Assoc.ofPairs (r.jumpers.map (swapBoth old new)) = _
      rw [hjumpers, Assoc.ofPairs_of_nodup hkeys.jumpers]

end Undone

end Redirects

end Splice
