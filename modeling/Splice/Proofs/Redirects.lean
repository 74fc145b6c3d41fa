import Splice.Redirect
import Splice.Proofs.Instruction.Likeness

/-!
# Where redirects lead

`landing` follows redirects for a number of steps that depends on how many there are. On
`Acyclic` redirects that number is enough (`Acyclic.landing_end`), and wherever a path ends,
there is the landing of every place on it (`EndsAt.landing`), whether or not there are cycles
elsewhere. `mem_sourcesOf` says that the search backwards misses nothing: every place that
lands elsewhere is a source of where it lands. It needs no acyclicity.

`Acyclic.redirect_iff` says when one more redirect closes a cycle. `Acyclic.landing_redirect`
says what one onto a new place does: whatever landed on its source lands on the new place,
and nothing else changes.

The redirects of one jumper alone (`overrideOf?`) come before those of targets and are not
chained; what is said of landings is lifted to `resolve`  by looking at the override first.
`Keyed` says that no target is redirected twice, which holds of all redirects that calls lead
to.
-/

namespace Splice

/-! ## Association lists -/

namespace Assoc

variable {α β : Type} [BEq α] [LawfulBEq α] {entries : List (α × β)} {key : α} {value : β}

theorem mem_of_lookup (h : entries.lookup key = some value) : (key, value) ∈ entries := by
  obtain ⟨front, rest, rfl, -⟩ := List.lookup_eq_some_iff.mp h
  exact List.mem_append_right _ (List.mem_cons_self ..)

/-- In a list with different keys, an entry is found under its key. -/
theorem lookup_of_mem (hkeys : (entries.map (·.1)).Nodup) (h : (key, value) ∈ entries) :
    entries.lookup key = some value := by
  obtain ⟨front, rest, rfl⟩ := List.append_of_mem h
  rw [List.map_append, List.map_cons, List.nodup_append] at hkeys
  rw [List.lookup_eq_some_iff]
  refine ⟨front, rest, rfl, fun entry hentry => ?_⟩
  rw [bne_iff_ne]
  exact fun he => hkeys.2.2 entry.1 (List.mem_map_of_mem hentry) key (List.mem_cons_self ..) he.symm

/-- To put an entry keeps the keys different. -/
theorem nodup_keys_put (hkeys : (entries.map (·.1)).Nodup) (key : α) (value : β) :
    ((put entries key value).map (·.1)).Nodup := by
  have hsub : ((erase entries key).map (·.1)).Nodup :=
    hkeys.sublist (List.Sublist.map _ List.filter_sublist)
  rw [put, List.map_append, List.nodup_append]
  refine ⟨hsub, by simp, fun a ha b hb => ?_⟩
  rw [List.map_singleton, List.mem_singleton] at hb
  intro he
  rw [he, hb] at ha
  exact not_mem_keys_erase entries key ha

/-- To look up in a list whose keys and values are renamed, where the renaming keeps the key apart from
the others, finds the renamed value. -/
theorem lookup_map {f : α → α} {g : β → β} (h : ∀ entry ∈ entries, f key = f entry.1 ↔ key = entry.1) :
    (entries.map (Prod.map f g)).lookup (f key) = (entries.lookup key).map g := by
  induction entries with
  | nil => rfl
  | cons entry entries ih =>
    obtain ⟨k, v⟩ := entry
    have hk : (f key == f k) = (key == k) := by
      rw [Bool.eq_iff_iff, beq_iff_eq, beq_iff_eq]
      exact h (k, v) (List.mem_cons_self ..)
    rw [List.map_cons, Prod.map_apply, List.lookup_cons, List.lookup_cons, hk]
    cases key == k with
    | true => rfl
    | false => exact ih fun entry hentry => h entry (List.mem_cons_of_mem _ hentry)

end Assoc

namespace Redirects

variable {r after : Redirects} {x y old new anchor physical : InstrId}

/-! ## Following redirects -/

/-- Without a redirect there is nowhere to go. -/
theorem chase_of_none (h : r.targetOf? x = none) (steps : Nat) : r.chase steps x = x := by
  cases steps with
  | zero => rfl
  | succ steps => rw [chase, h]

theorem chase_succ_of_some (h : r.targetOf? x = some y) (steps : Nat) :
    r.chase (steps + 1) x = r.chase steps y := by
  rw [chase, h]

/-- To follow redirects for a number of steps and then for more is to follow them for both. -/
theorem chase_add (m n : Nat) (x : InstrId) : r.chase (m + n) x = r.chase n (r.chase m x) := by
  induction m generalizing x with
  | zero => rw [Nat.zero_add, chase]
  | succ m ih =>
    rw [Nat.add_right_comm]
    cases htarget : r.targetOf? x with
    | none => rw [chase_of_none htarget, chase_of_none htarget, chase_of_none htarget]
    | some y => rw [chase_succ_of_some htarget, chase_succ_of_some htarget, ih]

/-- Once the redirects have ended, following them further changes nothing. -/
theorem chase_of_end {m n : Nat} (h : r.targetOf? (r.chase m x) = none) (hle : m ≤ n) :
    r.chase n x = r.chase m x := by
  obtain ⟨k, rfl⟩ := Nat.exists_eq_add_of_le hle
  rw [chase_add, chase_of_none h]

/-! ## Searching backwards -/

/-- The places redirected onto an instruction in one step are those whose entries say so. -/
theorem mem_directSources_iff : x ∈ r.directSources y ↔ (x, y) ∈ r.targets := by
  rw [directSources, List.mem_map]
  constructor
  · rintro ⟨⟨a, b⟩, hentry, rfl⟩
    obtain ⟨hmem, hb⟩ := List.mem_filter.mp hentry
    obtain rfl : b = y := beq_iff_eq.mp hb
    exact hmem
  · exact fun hmem => ⟨(x, y), List.mem_filter.mpr ⟨hmem, beq_self_eq_true y⟩, rfl⟩

theorem mem_directSources (h : r.targetOf? x = some y) : x ∈ r.directSources y :=
  mem_directSources_iff.mpr (Assoc.mem_of_lookup h)

/-- A set of places into which no redirect leads from outside. -/
def Closed (r : Redirects) (places : InstrId → Prop) : Prop :=
  ∀ y, places y → ∀ x ∈ r.directSources y, places x

/-- A walk that ends in a closed set was in it all the time, as no redirect leads into it from outside. -/
theorem Closed.of_chase {places : InstrId → Prop} (h : r.Closed places) {steps : Nat}
    (hend : places (r.chase steps x)) : places x := by
  induction steps generalizing x with
  | zero => exact hend
  | succ steps ih =>
    cases htarget : r.targetOf? x with
    | none => rwa [chase_of_none htarget] at hend
    | some y =>
      rw [chase_succ_of_some htarget] at hend
      exact h y (ih hend) x (mem_directSources htarget)

/-- The redirects whose source is not found yet. -/
def unfound (r : Redirects) (found : List InstrId) : Nat :=
  r.targets.countP fun entry => !found.contains entry.1

/-- What a step of the search finds is no longer to be found. -/
theorem unfound_append (found : List InstrId) (y : InstrId) :
    r.unfound (found ++ (r.directSources y).filter fun id => !found.contains id)
      + ((r.directSources y).filter fun id => !found.contains id).length ≤ r.unfound found := by
  have hlength : ((r.directSources y).filter fun id => !found.contains id).length
      = r.targets.countP fun entry => entry.2 == y && !found.contains entry.1 := by
    simp only [directSources, List.filter_map, List.length_map, List.filter_filter,
      List.countP_eq_length_filter, Function.comp_def, Bool.and_comm]
  have hfresh : ∀ entry ∈ r.targets, entry.2 = y → entry.1 ∉ found →
      entry.1 ∈ (r.directSources y).filter fun id => !found.contains id := by
    intro entry hentry hy hnot
    rw [List.mem_filter, directSources, List.mem_map]
    exact ⟨⟨entry, List.mem_filter.mpr ⟨hentry, by simpa using hy⟩, rfl⟩, by simpa using hnot⟩
  rw [hlength]
  generalize (r.directSources y).filter (fun id => !found.contains id) = fresh at hfresh
  -- no redirect is counted both as found now and as still to be found
  unfold unfound
  generalize r.targets = entries at hfresh
  induction entries with
  | nil => simp
  | cons entry entries ih =>
    have hrest := ih fun e he => hfresh e (List.mem_cons_of_mem _ he)
    have hentry := hfresh entry (List.mem_cons_self ..)
    simp only [List.countP_cons, List.contains_append] at hrest ⊢
    by_cases hfound : found.contains entry.1 = true
    · simp only [hfound, Bool.true_or, Bool.not_true, Bool.and_false, Bool.false_eq_true, if_false]
      omega
    · have hnot : entry.1 ∉ found := fun hmem => hfound (List.contains_iff_mem.mpr hmem)
      rw [Bool.not_eq_true] at hfound
      by_cases hy : entry.2 = y
      · have hin : fresh.contains entry.1 = true := List.contains_iff_mem.mpr (hentry hy hnot)
        simp only [hfound, hin, hy, Bool.or_true, Bool.not_true, Bool.not_false, beq_self_eq_true,
          Bool.and_true, Bool.false_eq_true, if_true, if_false]
        omega
      · have hy' : (entry.2 == y) = false := by simpa using hy
        simp only [hfound, hy', Bool.false_or, Bool.false_and, Bool.not_false, Bool.false_eq_true,
          if_true, if_false]
        split <;> omega

/-- With enough steps for all that is on the stack or still to be found, the search ends with an empty
stack: the sources of what it has found, and of where it began, are found. -/
theorem collectSources_closed {steps : Nat} {stack found : List InstrId}
    (hsteps : stack.length + r.unfound found ≤ steps)
    (h : ∀ y, y = physical ∨ y ∈ found → y ∈ stack ∨ ∀ x ∈ r.directSources y, x ∈ found) :
    ∀ y, y = physical ∨ y ∈ r.collectSources steps stack found →
      ∀ x ∈ r.directSources y, x ∈ r.collectSources steps stack found := by
  -- the invariant: whatever is found is on the stack or has all its sources found
  induction steps generalizing stack found with
  | zero =>
    have hstack : stack = [] := List.length_eq_zero_iff.mp (by omega)
    subst hstack
    exact fun y hy => (h y hy).resolve_left (by simp)
  | succ steps ih =>
    cases stack with
    | nil => exact fun y hy => (h y hy).resolve_left (by simp)
    | cons top stack =>
      rw [collectSources]
      have hless := unfound_append (r := r) found top
      refine ih ?_ fun y hy => ?_
      · simp only [List.length_append, List.length_reverse, List.length_cons] at hsteps ⊢
        omega
      · by_cases htop : y = top
        · refine .inr fun x hx => ?_
          rw [List.mem_append, List.mem_filter]
          by_cases hfound : x ∈ found
          · exact .inl hfound
          · exact .inr ⟨htop ▸ hx, by simpa using hfound⟩
        · rcases hy with hy | hy
          · rcases h y (.inl hy) with hmem | hclosed
            · refine .inl (List.mem_append_right _ ?_)
              exact (List.mem_cons.mp hmem).resolve_left htop
            · exact .inr fun x hx => List.mem_append_left _ (hclosed x hx)
          · rcases List.mem_append.mp hy with hfound | hfresh
            · rcases h y (.inr hfound) with hmem | hclosed
              · refine .inl (List.mem_append_right _ ?_)
                exact (List.mem_cons.mp hmem).resolve_left htop
              · exact .inr fun x hx => List.mem_append_left _ (hclosed x hx)
            · exact .inl (List.mem_append_left _ (List.mem_reverse.mpr hfresh))

/-- Whatever is redirected onto a place, or onto one of its sources, is among its sources. -/
theorem sourcesOf_closed (h : y = physical ∨ y ∈ r.sourcesOf physical) (hx : x ∈ r.directSources y) :
    x ∈ r.sourcesOf physical := by
  refine collectSources_closed ?_ (fun y hy => ?_) y h x hx
  · have hle : r.unfound [] ≤ r.targets.length := List.countP_le_length
    simp only [List.length_singleton]
    omega
  · exact .inl (by simpa using hy)

/-- A place that lands on another one is among the sources of that. -/
theorem mem_sourcesOf (h : r.landing x = physical) :
    x = physical ∨ x ∈ r.sourcesOf physical := by
  have hclosed : r.Closed fun y => y = physical ∨ y ∈ r.sourcesOf physical :=
    fun y hy x hx => .inr (sourcesOf_closed hy hx)
  exact hclosed.of_chase (.inl h)

theorem mem_overridesOnto (h : r.overrideOf? x = some physical) :
    x ∈ r.overridesOnto physical := by
  rw [overridesOnto, List.mem_map]
  exact ⟨(x, physical), List.mem_filter.mpr ⟨Assoc.mem_of_lookup h, by simp⟩, rfl⟩

theorem isEmpty_iff : r.isEmpty = true ↔ r.targets = [] ∧ r.jumpers = [] := by
  rw [isEmpty, Bool.and_eq_true, List.isEmpty_iff, List.isEmpty_iff]

theorem resolve_of_no_override {jumper : InstrId} (h : r.overrideOf? jumper = none) (logical : InstrId) :
    r.resolve jumper logical = r.landing logical := by
  rw [resolve, h, Option.getD_none]

/-- Without redirects every jumper lands on its target. -/
theorem resolve_of_isEmpty (h : r.isEmpty = true) (jumper logical : InstrId) :
    r.resolve jumper logical = logical := by
  obtain ⟨htargets, hjumpers⟩ := isEmpty_iff.mp h
  have hover : r.overrideOf? jumper = none := by
    rw [overrideOf?, hjumpers]
    rfl
  have htarget : r.targetOf? logical = none := by
    rw [targetOf?, htargets]
    rfl
  rw [resolve_of_no_override hover, landing, chase_of_none htarget]

/-! ## Redirects without a cycle -/

/-- The redirects lead from one place to another, in one or more steps. -/
abbrev Leads (r : Redirects) : InstrId → InstrId → Prop :=
  Relation.TransGen fun x y => r.targetOf? x = some y

/-- The redirects lead from no place back to itself. -/
def Acyclic (r : Redirects) : Prop := ∀ x, ¬ r.Leads x x

/-- Without redirects there is no cycle. -/
theorem acyclic_of_nil (h : r.targets = []) : r.Acyclic := by
  have hnone : ∀ x, r.targetOf? x = none := fun x => by
    rw [targetOf?, h]
    rfl
  intro x hx
  cases hx with
  | single h => rw [hnone] at h; cases h
  | tail _ h => rw [hnone] at h; cases h

theorem acyclic_empty : Redirects.empty.Acyclic := acyclic_of_nil rfl

/-- Redirects that all lead upwards are acyclic. -/
theorem acyclic_of_rank (rank : InstrId → Nat) (h : ∀ entry ∈ r.targets, rank entry.1 < rank entry.2) :
    r.Acyclic := by
  have hup : ∀ x y, r.Leads x y → rank x < rank y := by
    intro x y hxy
    induction hxy with
    | single hxy => exact h _ (Assoc.mem_of_lookup hxy)
    | tail _ hyz ih => exact Nat.lt_trans ih (h _ (Assoc.mem_of_lookup hyz))
  exact fun x hx => Nat.lt_irrefl _ (hup x x hx)

theorem targetOf?_chase {n : Nat} (h : r.targetOf? (r.chase n x) ≠ none) :
    r.targetOf? (r.chase n x) = some (r.chase (n + 1) x) := by
  obtain ⟨y, hy⟩ := Option.ne_none_iff_exists'.mp h
  rw [chase_add, hy, chase_succ_of_some hy, chase]

/-- If a walk does not end before a step, it leads from each place on it to that of the step. -/
theorem leads_of_chase {m n : Nat} (hlt : m < n)
    (h : ∀ k < n, r.targetOf? (r.chase k x) ≠ none) : r.Leads (r.chase m x) (r.chase n x) := by
  induction n with
  | zero => exact absurd hlt (Nat.not_lt_zero m)
  | succ n ih =>
    have hlast := targetOf?_chase (h n (Nat.lt_succ_self n))
    by_cases hm : m = n
    · rw [hm]
      exact .single hlast
    · exact .tail (ih (by omega) fun k hk => h k (by omega)) hlast

/-- A landing that is redirected itself was reached by way of a cycle: a path of more redirects than there
are passes some place twice. -/
theorem exists_cycle (h : r.targetOf? (r.landing x) ≠ none) :
    ∃ m, r.Leads (r.chase m x) (r.chase m x) := by
  have hon : ∀ k < r.targets.length + 1, r.targetOf? (r.chase k x) ≠ none := by
    intro k hk hnone
    rw [landing, chase_of_end hnone (Nat.le_of_lt hk)] at h
    exact h hnone
  refine Classical.byContradiction fun hnone => ?_
  have hnodup : ((List.range (r.targets.length + 1)).map fun k => r.chase k x).Nodup := by
    refine List.pairwise_map.mpr (List.pairwise_lt_range.imp_of_mem fun {m n} _ hn hlt he => ?_)
    rw [List.mem_range] at hn
    have hcycle := leads_of_chase hlt fun k hk => hon k (by omega)
    rw [← he] at hcycle
    exact hnone ⟨m, hcycle⟩
  have hkeys : ((List.range (r.targets.length + 1)).map fun k => r.chase k x)
      ⊆ r.targets.map (·.1) := by
    intro y hy
    obtain ⟨k, hk, rfl⟩ := List.mem_map.mp hy
    have hstep := targetOf?_chase (hon k (List.mem_range.mp hk))
    exact List.mem_map.mpr ⟨_, Assoc.mem_of_lookup hstep, rfl⟩
  have hle := hnodup.length_le_of_subset hkeys
  simp only [List.length_map, List.length_range] at hle
  omega

/-- Following acyclic redirects ends within as many steps as there are redirects. -/
theorem Acyclic.landing_end (h : r.Acyclic) (x : InstrId) : r.targetOf? (r.landing x) = none := by
  by_cases hend : r.targetOf? (r.landing x) = none
  · exact hend
  · obtain ⟨m, hcycle⟩ := exists_cycle hend
    exact (h _ hcycle).elim

/-! ## Where following the redirects ends -/

/-- Following the redirects from a place ends at `stop`, which is not redirected. -/
inductive EndsAt (r : Redirects) (stop : InstrId) : InstrId → Prop where
  | here : r.targetOf? stop = none → EndsAt r stop stop
  | step {x y : InstrId} : r.targetOf? x = some y → EndsAt r stop y → EndsAt r stop x

/-- What leads anywhere is redirected. -/
theorem Leads.redirected (h : r.Leads x y) : ∃ z, r.targetOf? x = some z := by
  induction h with
  | single h => exact ⟨_, h⟩
  | tail _ _ ih => exact ih

/-- A path goes through the place that its source is redirected to. -/
theorem Leads.next {z : InstrId} (h : r.Leads x z) (hstep : r.targetOf? x = some y) :
    y = z ∨ r.Leads y z := by
  induction h with
  | single h => exact .inl (Option.some.inj (hstep.symm.trans h))
  | tail _ h ih =>
    rcases ih with rfl | hpath
    · exact .inr (.single h)
    · exact .inr (.tail hpath h)

namespace EndsAt

variable {stop : InstrId}

/-- Where following ends, nothing is redirected. -/
theorem unredirected (h : r.EndsAt stop x) : r.targetOf? stop = none := by
  induction h with
  | here h => exact h
  | step _ _ ih => exact ih

/-- If a walk comes to a place that is not redirected, it ends there. -/
theorem of_chase {n : Nat} (h : r.targetOf? (r.chase n x) = none) : r.EndsAt (r.chase n x) x := by
  induction n generalizing x with
  | zero => exact .here h
  | succ n ih =>
    cases htarget : r.targetOf? x with
    | none =>
      rw [chase_of_none htarget]
      exact .here htarget
    | some y =>
      rw [chase_succ_of_some htarget] at h ⊢
      exact .step htarget (ih h)

/-- Where following ends is reached in some number of steps. -/
theorem chase (h : r.EndsAt stop x) : ∃ n, r.chase n x = stop := by
  induction h with
  | here _ => exact ⟨0, rfl⟩
  | step hstep _ ih =>
    obtain ⟨n, hn⟩ := ih
    exact ⟨n + 1, by rw [chase_succ_of_some hstep, hn]⟩

/-- No path that ends comes by its source again. -/
theorem not_leads (h : r.EndsAt stop x) : ¬ r.Leads x x := by
  induction h with
  | here hend =>
    intro hcycle
    obtain ⟨y, hy⟩ := hcycle.redirected
    rw [hend] at hy
    cases hy
  | step hstep _ ih =>
    intro hcycle
    rcases hcycle.next hstep with rfl | hback
    · exact ih hcycle
    · exact ih (.tail hback hstep)

/-- Wherever following the redirects ends, there is the landing. -/
theorem landing (h : r.EndsAt stop x) : r.landing x = stop := by
  obtain ⟨n, rfl⟩ := h.chase
  have hend := h.unredirected
  have hland : r.targetOf? (r.landing x) = none := by
    refine Classical.byContradiction fun hland => ?_
    obtain ⟨m, hcycle⟩ := exists_cycle hland
    have hrest : r.targetOf? (r.chase n (r.chase m x)) = none := by
      rw [← chase_add, chase_of_end hend (Nat.le_add_left n m), hend]
    exact (of_chase hrest).not_leads hcycle
  rcases Nat.le_total n (r.targets.length + 1) with hle | hle
  · exact chase_of_end hend hle
  · exact (chase_of_end hland hle).symm

end EndsAt

theorem Acyclic.endsAt (h : r.Acyclic) (x : InstrId) : r.EndsAt (r.landing x) x :=
  .of_chase (h.landing_end x)

theorem acyclic_of_endsAt (h : ∀ x, ∃ stop, r.EndsAt stop x) : r.Acyclic := fun x =>
  (h x).elim fun _ hstop => hstop.not_leads

/-- Redirects are acyclic exactly if no landing is redirected. -/
theorem acyclic_iff : r.Acyclic ↔ ∀ x, r.targetOf? (r.landing x) = none :=
  ⟨fun h => h.landing_end, fun h => acyclic_of_endsAt fun x => ⟨_, .of_chase (h x)⟩⟩

/-! ## A redirect onto a new place -/

/-- After a redirect, its target is redirected to the new place and all others are as they were. -/
theorem targetOf?_redirect_eq (h : r.redirect anchor physical = .ok after) (x : InstrId) :
    after.targetOf? x = if x = anchor then some physical else r.targetOf? x := by
  unfold redirect at h
  split at h
  · cases h
  · cases h
    by_cases hx : x = anchor
    · subst hx
      rw [if_pos rfl]
      exact Assoc.lookup_put_self r.targets x physical
    · rw [if_neg hx]
      exact Assoc.lookup_put_of_ne r.targets physical hx

/-- A redirect of a target changes no override. -/
theorem overrideOf?_redirect (h : r.redirect anchor physical = .ok after) (x : InstrId) :
    after.overrideOf? x = r.overrideOf? x := by
  unfold redirect at h
  split at h
  · cases h
  · cases h
    rfl

/-- Following the redirects from `physical`, but for that of `logical` itself, one comes to `logical`. -/
def Returns (r : Redirects) (logical physical : InstrId) : Prop :=
  physical = logical
    ∨ Relation.TransGen (fun x y => x ≠ logical ∧ r.targetOf? x = some y) physical logical

/-- If the next place returns, so does the one in front of it, unless it is the one to return to. -/
theorem Returns.step {logical : InstrId} (h : r.Returns logical y) (hne : x ≠ logical)
    (hstep : r.targetOf? x = some y) : r.Returns logical x := by
  rcases h with rfl | hpath
  · exact .inr (.single ⟨hne, hstep⟩)
  · exact .inr (.trans (.single ⟨hne, hstep⟩) hpath)

/-- Whether a place returns depends on the other redirects only. -/
theorem Returns.congr {logical : InstrId} (h : r.Returns logical x)
    (hstep : ∀ x, x ≠ logical → after.targetOf? x = r.targetOf? x) : after.Returns logical x := by
  refine h.imp_right fun hpath => ?_
  have hsame : (fun x y => x ≠ logical ∧ after.targetOf? x = some y)
      = fun x y => x ≠ logical ∧ r.targetOf? x = some y := by
    funext x y
    exact propext (and_congr_right fun hx => by rw [hstep x hx])
  rwa [hsame]

/-- What returns to a place is that place, or leads to it. -/
theorem Returns.leads {logical : InstrId} (h : r.Returns logical x) : x = logical ∨ r.Leads x logical := by
  have hpath : ∀ z, Relation.TransGen (fun x y => x ≠ logical ∧ r.targetOf? x = some y) x z →
      r.Leads x z := by
    intro z hz
    induction hz with
    | single h => exact .single h.2
    | tail _ h ih => exact .tail ih h.2
  exact h.imp_right (hpath logical)

/-- A path that does not come by `logical` is followed as before if only the redirect of that changes. -/
theorem EndsAt.congr {logical stop : InstrId} (h : r.EndsAt stop x) (hreturns : ¬ r.Returns logical x)
    (hstep : ∀ x, x ≠ logical → after.targetOf? x = r.targetOf? x) : after.EndsAt stop x := by
  induction h with
  | here hend =>
    have hne : stop ≠ logical := fun he => hreturns (.inl he)
    exact .here (by rw [hstep _ hne, hend])
  | @step x y hxy _ ih =>
    have hne : x ≠ logical := fun he => hreturns (.inl he)
    exact .step (by rw [hstep _ hne, hxy]) (ih fun hback => hreturns (hback.step hne hxy))

/-- A redirect closes a cycle exactly if one comes back to its source from where it leads. -/
theorem Acyclic.redirect_iff (hr : r.Acyclic) (h : r.redirect anchor physical = .ok after) :
    after.Acyclic ↔ ¬ r.Returns anchor physical := by
  have hstep := targetOf?_redirect_eq h
  have hanchor : after.targetOf? anchor = some physical := by rw [hstep, if_pos rfl]
  have hother : ∀ x, x ≠ anchor → after.targetOf? x = r.targetOf? x := fun x hx => by
    rw [hstep, if_neg hx]
  constructor
  · intro hafter hreturns
    -- the path back does without the redirect of `anchor`, so it is still there
    have hback : after.Returns anchor physical := by
      refine hreturns.congr fun x hx => ?_
      rw [hother x hx]
    rcases hback.leads with rfl | hpath
    · exact hafter _ (.single hanchor)
    · exact hafter _ (.trans (.single hanchor) hpath)
  · intro hreturns
    have hstop := (hr.endsAt physical).congr hreturns hother
    generalize r.landing physical = stop at hstop
    refine acyclic_of_endsAt fun x => ?_
    have hend := hr.endsAt x
    generalize r.landing x = place at hend
    induction hend with
    | here hend =>
      by_cases hx : place = anchor
      · exact ⟨stop, .step (by rw [hx, hanchor]) hstop⟩
      · exact ⟨place, .here (by rw [hother _ hx, hend])⟩
    | @step x y hxy _ ih =>
      by_cases hx : x = anchor
      · exact ⟨stop, .step (by rw [hx, hanchor]) hstop⟩
      · obtain ⟨stop', hstop'⟩ := ih
        exact ⟨stop', .step (by rw [hother _ hx, hxy]) hstop'⟩

/-- A walk that comes to a place returns to it: the part up to where it comes there first does not use its
redirect. -/
theorem returns_of_chase {logical : InstrId} {n : Nat} (h : r.chase n x = logical) :
    r.Returns logical x := by
  -- as soon as the chase is at `logical`, it has returned
  induction n generalizing x with
  | zero => exact .inl h
  | succ n ih =>
    by_cases hx : x = logical
    · exact .inl hx
    · cases htarget : r.targetOf? x with
      | none =>
        rw [chase_of_none htarget] at h
        exact absurd h hx
      | some y =>
        rw [chase_succ_of_some htarget] at h
        exact (ih h).step hx htarget

/-- What leads to a place comes to it in some number of steps. -/
theorem Leads.chase (h : r.Leads x y) : ∃ n, r.chase n x = y := by
  induction h with
  | single h => exact ⟨1, by rw [chase_succ_of_some h, Redirects.chase]⟩
  | tail _ h ih =>
    obtain ⟨n, hn⟩ := ih
    exact ⟨n + 1, by rw [chase_add, hn, chase_succ_of_some h, Redirects.chase]⟩

/-- What returns to a place comes to it in some number of steps. -/
theorem Returns.chase {logical : InstrId} (h : r.Returns logical x) : ∃ n, r.chase n x = logical := by
  rcases h.leads with rfl | hpath
  · exact ⟨0, rfl⟩
  · exact hpath.chase

/-- A place that is not redirected is where one lands exactly if one comes there at all. -/
theorem landing_eq_iff {logical : InstrId} (hlogical : r.targetOf? logical = none) :
    r.landing x = logical ↔ r.Returns logical x := by
  constructor
  · exact returns_of_chase
  · intro h
    obtain ⟨n, rfl⟩ := h.chase
    exact (EndsAt.of_chase hlogical).landing

/-- A redirect to an instruction that is new, and so not redirected, closes no cycle. -/
theorem Acyclic.redirect (hr : r.Acyclic) (hnew : r.targetOf? new = none) (hne : new ≠ anchor)
    (h : r.redirect anchor new = .ok after) : after.Acyclic := by
  refine (hr.redirect_iff h).mpr fun hreturns => ?_
  obtain ⟨n, hn⟩ := hreturns.chase
  rw [chase_of_none hnew] at hn
  exact hne hn

/-- What landed on the source of the new redirect lands where that leads; all else lands where it
did. -/
theorem Acyclic.landing_redirect (hr : r.Acyclic) (hanchor : r.targetOf? anchor = none)
    (hnew : r.targetOf? new = none) (hne : new ≠ anchor)
    (h : r.redirect anchor new = .ok after) (x : InstrId) :
    after.landing x = if r.landing x = anchor then new else r.landing x := by
  have hstep := targetOf?_redirect_eq h
  have hend := hr.endsAt x
  generalize r.landing x = stop at hend
  refine EndsAt.landing ?_
  -- along the way to the end; only the end itself may be the anchor
  induction hend with
  | here hend =>
    by_cases hstop : stop = anchor
    · rw [if_pos hstop]
      exact .step (by rw [hstep, if_pos hstop]) (.here (by rw [hstep, if_neg hne, hnew]))
    · rw [if_neg hstop]
      exact .here (by rw [hstep, if_neg hstop, hend])
  | @step x y hxy _ ih =>
    have hx : x ≠ anchor := by
      rintro rfl
      rw [hanchor] at hxy
      cases hxy
    exact .step (by rw [hstep, if_neg hx, hxy]) ih

/-! ## What redirects name -/

/-- Every instruction that is redirected, or that a redirect leads to, is one of `places`. -/
def Within (r : Redirects) (places : InstrId → Prop) : Prop :=
  ∀ entry ∈ r.targets ++ r.jumpers, places entry.1 ∧ places entry.2

/-- Redirects among certain places lead to places among them. -/
theorem Within.chase {places : InstrId → Prop} (h : r.Within places) (hx : places x) (steps : Nat) :
    places (r.chase steps x) := by
  induction steps generalizing x with
  | zero => exact hx
  | succ steps ih =>
    cases htarget : r.targetOf? x with
    | none => rwa [chase_of_none htarget]
    | some y =>
      rw [chase_succ_of_some htarget]
      exact ih (h (x, y) (List.mem_append_left _ (Assoc.mem_of_lookup htarget))).2

/-- A jumper lands among the places that redirects and overrides are among, if its target is. -/
theorem Within.resolve {places : InstrId → Prop} (h : r.Within places) {logical : InstrId}
    (hlogical : places logical) (jumper : InstrId) : places (r.resolve jumper logical) := by
  rw [Redirects.resolve]
  cases hjumper : r.overrideOf? jumper with
  | none => exact h.chase hlogical _
  | some physical =>
    exact (h (jumper, physical) (List.mem_append_right _ (Assoc.mem_of_lookup hjumper))).2

/-- An instruction that no redirect names is not redirected. -/
theorem Within.targetOf?_eq_none (h : r.Within (· ≠ x)) : r.targetOf? x = none := by
  cases htarget : r.targetOf? x with
  | none => rfl
  | some y => exact absurd rfl (h (x, y) (List.mem_append_left _ (Assoc.mem_of_lookup htarget))).1

/-- An instruction that no redirect names has no override. -/
theorem Within.overrideOf?_eq_none (h : r.Within (· ≠ x)) : r.overrideOf? x = none := by
  cases hjumper : r.overrideOf? x with
  | none => rfl
  | some y => exact absurd rfl (h (x, y) (List.mem_append_right _ (Assoc.mem_of_lookup hjumper))).1

/-- A name that none of finitely many entries has for its key. -/
theorem exists_unlisted (entries : List (InstrId × InstrId)) (others : List InstrId) :
    ∃ id, entries.lookup id = none ∧ id ∉ others := by
  -- a name above all that occur
  have hbound : ∀ ids : List InstrId, ∃ bound, ∀ id ∈ ids, id.index < bound := by
    intro ids
    induction ids with
    | nil => exact ⟨0, by simp⟩
    | cons id ids ih =>
      obtain ⟨bound, hids⟩ := ih
      refine ⟨max bound (id.index + 1), fun other hother => ?_⟩
      rcases List.mem_cons.mp hother with rfl | hmem
      · omega
      · have hlt := hids other hmem
        omega
  obtain ⟨bound, hids⟩ := hbound (entries.map (·.1) ++ others)
  have hnot : (⟨bound⟩ : InstrId) ∉ entries.map (·.1) ++ others := fun hmem =>
    Nat.lt_irrefl bound (hids _ hmem)
  rw [List.mem_append, not_or] at hnot
  refine ⟨⟨bound⟩, List.lookup_eq_none_iff.mpr fun entry hentry => ?_, hnot.2⟩
  rw [bne_iff_ne]
  exact fun he => hnot.1 (List.mem_map.mpr ⟨entry, hentry, he.symm⟩)

/-- No instruction is redirected twice, and no jumper has two overrides. -/
structure Keyed (r : Redirects) : Prop where
  targets : (r.targets.map (·.1)).Nodup
  jumpers : (r.jumpers.map (·.1)).Nodup

/-- A redirect keeps the keys different. -/
theorem Keyed.redirect (hr : r.Keyed) (h : r.redirect anchor physical = .ok after) :
    after.Keyed := by
  unfold Redirects.redirect at h
  split at h
  · cases h
  · cases h
    exact ⟨Assoc.nodup_keys_put hr.targets anchor physical, hr.jumpers⟩

/-- A redirect keeps all that is named among the places, if its two ends are. -/
theorem Within.redirect {places places' : InstrId → Prop} (hr : r.Within places)
    (h : r.redirect anchor physical = .ok after) (hplaces : ∀ id, places id → places' id)
    (hanchor : places' anchor) (hphysical : places' physical) : after.Within places' := by
  unfold Redirects.redirect at h
  split at h
  · cases h
  · cases h
    intro entry hentry
    rcases List.mem_append.mp hentry with htarget | hjumper
    · rcases List.mem_append.mp htarget with hold | hnew
      · have hmem : entry ∈ r.targets := (List.mem_filter.mp hold).1
        have hin := hr entry (List.mem_append_left _ hmem)
        exact ⟨hplaces _ hin.1, hplaces _ hin.2⟩
      · rw [List.mem_singleton.mp hnew]
        exact ⟨hanchor, hphysical⟩
    · have hin := hr entry (List.mem_append_right _ hjumper)
      exact ⟨hplaces _ hin.1, hplaces _ hin.2⟩

end Redirects

end Splice
